import ForexMarket.Spec.Laws

/- The life of a posted offer in the reference: live until its trades add up to what was
   posted or its owner cancels it, and from then on out of reach of every call (`Dead`).
   Amounts stay positive as long as no registered user posts an amount of 0. -/
namespace ForexMarket

open Sums

namespace Reference

/-- A post of a registered user has a positive amount. -/
def PostOk (a : Reference) : Op → Prop
  | .postOffer u _ _ amount => (a.accounts u).isSome → 1 ≤ amount.toNat
  | _ => True

/-! Positive amounts. -/

/-- The live offers and the trades have positive amounts. -/
structure Positive (a : Reference) : Prop where
  live : ∀ v ∈ a.live, 1 ≤ v.amount
  trades : ∀ t ∈ a.trades, 1 ≤ t.deal.amount

variable {a a' : Reference} {op : Op} {r : Reply}

theorem Positive.empty (i j k : Nat) : Positive (Reference.empty i j k) where
  live := fun v hv => absurd hv (KeySet.not_mem_empty v)
  trades := fun t ht => by simp [Reference.empty] at ht

/-- A call that meets the condition keeps amounts positive. -/
theorem Positive.move (hp : Positive a) (hm : Moves a op r a') (hok : PostOk a op) :
    Positive a' := by
  cases hm with
  | stay hr hop => exact hp
  | register username => exact ⟨hp.live, hp.trades⟩
  | depositUSD amount hx => exact ⟨hp.live, hp.trades⟩
  | depositRUB amount hx => exact ⟨hp.live, hp.trades⟩
  | lost type price amount hx => exact ⟨hp.live, hp.trades⟩
  | cancel hv => exact ⟨fun w hw => hp.live w (KeySet.mem_erase.mp hw).1, hp.trades⟩
  | post type price amount hx hm =>
    obtain ⟨htrades, hlive⟩ := hm.positive hp.live (hok (by rw [hx]; rfl))
    refine ⟨hlive, fun t ht => ?_⟩
    rw [hm.trades_eq] at ht
    rcases List.mem_append.mp ht with ht | ht
    · exact hp.trades t ht
    · exact htrades t ht

/-- A call that does not meet it leaves an amount of 0. -/
theorem not_positive_of_not_postOk (hw : WellFormed a) (hm : Moves a op r a')
    (hbad : ¬ PostOk a op) : ¬ Positive a' := by
  intro hp
  cases hm with
  | stay hr hop =>
    cases op with
    | postOffer u type price amount => cases hop
    | _ => exact hbad trivial
  | register username => exact hbad trivial
  | depositUSD amount hx => exact hbad trivial
  | depositRUB amount hx => exact hbad trivial
  | cancel hv => exact hbad trivial
  | lost type price amount hx => exact hbad fun h => by rw [hx] at h; cases h
  | post type price amount hx hm =>
    -- the bad call is a post of amount 0, which trades or rests as such
    have h0 : amount.toNat = 0 := by
      by_contra h
      exact hbad fun _ => Nat.one_le_iff_ne_zero.mpr h
    rcases hm.nothing (fun v hv => (hw.live_lt v hv).ne) h0 with ⟨t, ht, ht0⟩ | ⟨v, hv, hv0⟩
    · have hmem : t ∈ a'.trades := by
        rw [hm.trades_eq]
        exact List.mem_append_right _ ht
      have := hp.trades t hmem
      omega
    · have := hp.live v hv
      omega

/-! Offers out of reach. -/

/-- The id is drawn, and not that of a live offer. -/
def Dead (a : Reference) (p : Nat) : Prop := p < a.offerId ∧ ∀ v ∈ a.live, v.id ≠ p

/-- Whether the trade takes from the offer under `p`. -/
def Touches (p : Nat) (t : TradeView) : Prop := t.incoming = p ∨ t.resting = p

/-- An offer out of reach stays so, and no trade touches it. -/
theorem Dead.move {p : Nat} (hd : Dead a p) (hm : Moves a op r a') :
    Dead a' p ∧ ∃ ts, a'.trades = a.trades ++ ts ∧ ∀ t ∈ ts, ¬ Touches p t := by
  have hnone : a.trades = a.trades ++ [] ∧ ∀ t ∈ ([] : List TradeView), ¬ Touches p t := by simp
  cases hm with
  | stay hr hop => exact ⟨hd, [], hnone⟩
  | register username => exact ⟨hd, [], hnone⟩
  | depositUSD amount hx => exact ⟨hd, [], hnone⟩
  | depositRUB amount hx => exact ⟨hd, [], hnone⟩
  | lost type price amount hx => exact ⟨⟨hd.1.trans (Nat.lt_succ_self _), hd.2⟩, [], hnone⟩
  | cancel hv => exact ⟨⟨hd.1, fun w hw => hd.2 w (KeySet.mem_erase.mp hw).1⟩, [], hnone⟩
  | @post u x ts _ type price amount hx hm =>
    have hne : a.offerId ≠ p := hd.1.ne'
    refine ⟨⟨?_, hm.not_revived hd.2 hne⟩, ts, hm.trades_eq, fun t ht => ?_⟩
    · rw [hm.counters.1]
      exact hd.1.trans (Nat.lt_succ_self _)
    · obtain ⟨hin, w, hw, hid, -⟩ := hm.resting t ht
      intro htouch
      rcases htouch with h | h
      · exact hne (hin.symm.trans h)
      · exact hd.2 w hw (hid.trans h)

/-! The states of a posted offer. -/

theorem takenFrom_of_untouched {p : Nat} {ts : List TradeView} (h : ∀ t ∈ ts, ¬ Touches p t) :
    takenFrom p ts = 0 :=
  sumWhere_of_none fun t ht => decide_eq_false (h t ht)

theorem takenFrom_append (p : Nat) (ts ts' : List TradeView) :
    takenFrom p (ts ++ ts') = takenFrom p ts + takenFrom p ts' :=
  sumWhere_append ts ts'

/-- No trade touches an offer that is still to be posted. -/
theorem WellFormed.takenFrom_new (hw : WellFormed a) : takenFrom a.offerId a.trades = 0 := by
  apply takenFrom_of_untouched
  intro t ht htouch
  obtain ⟨hin, hrest⟩ := hw.trade_lt t ht
  cases htouch with
  | inl e => exact hin.ne e
  | inr e => exact hrest.ne e

/-- What holds of the offers posted and cancelled so far. -/
structure Lifecycle (h : History) (a : Reference) : Prop where
  live_posted : ∀ w ∈ a.live, ∃ v ∈ h.posted, v.id = w.id ∧ v.ownerId = w.ownerId ∧
    v.type = w.type ∧ v.price = w.price
  posted_lt : ∀ v ∈ h.posted, v.id < a.offerId
  posted_nodup : (h.posted.map OfferView.id).Nodup
  cancelled_posted : ∀ p ∈ h.cancelled, ∃ v ∈ h.posted, v.id = p
  cancelled_nodup : h.cancelled.Nodup
  cancelled_gone : ∀ p ∈ h.cancelled, ∀ w ∈ a.live, w.id ≠ p
  unfilled : ∀ v ∈ h.posted, v.id ∈ h.cancelled → takenFrom v.id a.trades < v.amount
  account : ∀ v ∈ h.posted, v.id ∉ h.cancelled →
    takenFrom v.id a.trades + remaining a.live v.id = v.amount

namespace Lifecycle

variable {h : History}

theorem empty (i j k : Nat) : Lifecycle [] (Reference.empty i j k) where
  live_posted := fun w hw => absurd hw (KeySet.not_mem_empty w)
  posted_lt := fun v hv => by simp [History.posted] at hv
  posted_nodup := List.nodup_nil
  cancelled_posted := fun p hp => by simp [History.cancelled] at hp
  cancelled_nodup := List.nodup_nil
  cancelled_gone := fun p hp => by simp [History.cancelled] at hp
  unfilled := fun v hv => by simp [History.posted] at hv
  account := fun v hv => by simp [History.posted] at hv

/-- Two posted offers with one id are one. -/
theorem posted_inj (hl : Lifecycle h a) {v w : OfferView} (hv : v ∈ h.posted) (hw : w ∈ h.posted)
    (hid : v.id = w.id) : v = w :=
  List.inj_on_of_nodup_map hl.posted_nodup hv hw hid

/-- A call that posts and cancels nothing, and leaves the offers alone. -/
theorem same (hl : Lifecycle h a) (hpost : History.postedOf (op, r) = none)
    (hcancel : History.cancelledOf (op, r) = none) (hlive : a'.live = a.live)
    (htrades : a'.trades = a.trades) (hoffer : a.offerId ≤ a'.offerId) :
    Lifecycle (h ++ [(op, r)]) a' := by
  have hp : History.posted (h ++ [(op, r)]) = h.posted := by simp [History.posted, hpost]
  have hc : History.cancelled (h ++ [(op, r)]) = h.cancelled := by simp [History.cancelled, hcancel]
  constructor
  case live_posted => rw [hp, hlive]; exact hl.live_posted
  case posted_lt => rw [hp]; exact fun v hv => (hl.posted_lt v hv).trans_le hoffer
  case posted_nodup => rw [hp]; exact hl.posted_nodup
  case cancelled_posted => rw [hp, hc]; exact hl.cancelled_posted
  case cancelled_nodup => rw [hc]; exact hl.cancelled_nodup
  case cancelled_gone => rw [hc, hlive]; exact hl.cancelled_gone
  case unfilled => rw [hp, hc, htrades]; exact hl.unfilled
  case account => rw [hp, hc, htrades, hlive]; exact hl.account

theorem cancelled_lt (hl : Lifecycle h a) {p : Nat} (hp : p ∈ h.cancelled) : p < a.offerId := by
  obtain ⟨v, hv, rfl⟩ := hl.cancelled_posted p hp
  exact hl.posted_lt v hv

theorem cancel (hl : Lifecycle h a) (hpos : Positive a) {v : OfferView} (hv : v ∈ a.live) :
    Lifecycle (h ++ [(.removeOffer v.ownerId v.id, .removed true)])
      { a with live := a.live.erase v.id } := by
  have hp : History.posted (h ++ [(.removeOffer v.ownerId v.id, .removed true)]) = h.posted := by
    simp [History.posted, History.postedOf]
  have hc : History.cancelled (h ++ [(.removeOffer v.ownerId v.id, .removed true)]) =
      h.cancelled ++ [v.id] := by
    simp [History.cancelled, History.cancelledOf]
  have hnot : v.id ∉ h.cancelled := fun hmem => hl.cancelled_gone v.id hmem v hv rfl
  constructor
  case live_posted =>
    rw [hp]
    exact fun w hw => hl.live_posted w (KeySet.mem_erase.mp hw).1
  case posted_lt => rw [hp]; exact hl.posted_lt
  case posted_nodup => rw [hp]; exact hl.posted_nodup
  case cancelled_posted =>
    rw [hp, hc]
    intro p hp
    rcases List.mem_append.mp hp with hp | hp
    · exact hl.cancelled_posted p hp
    · obtain ⟨w, hw, hid, -⟩ := hl.live_posted v hv
      exact ⟨w, hw, hid.trans (List.mem_singleton.mp hp).symm⟩
  case cancelled_nodup =>
    rw [hc]
    apply List.Nodup.append hl.cancelled_nodup (List.nodup_singleton _)
    intro p hp hp'
    rw [List.mem_singleton.mp hp'] at hp
    exact hnot hp
  case cancelled_gone =>
    rw [hc]
    intro p hp w hw
    obtain ⟨hw, hne⟩ := KeySet.mem_erase.mp hw
    rcases List.mem_append.mp hp with hp | hp
    · exact hl.cancelled_gone p hp w hw
    · rw [List.mem_singleton.mp hp]
      exact hne
  case unfilled =>
    rw [hp, hc]
    intro w hw hmem
    rcases List.mem_append.mp hmem with hmem | hmem
    · exact hl.unfilled w hw hmem
    · -- the cancelled offer was live with something left
      have hid : w.id = v.id := List.mem_singleton.mp hmem
      have hacc := hl.account w hw (by rw [hid]; exact hnot)
      rw [hid, remaining_of_mem hv] at hacc
      have := hpos.live v hv
      show takenFrom w.id a.trades < w.amount
      rw [hid]
      omega
  case account =>
    rw [hp, hc]
    intro w hw hmem
    have hne : w.id ≠ v.id := fun e => hmem (List.mem_append_right _ (List.mem_singleton.mpr e))
    rw [← hl.account w hw fun e => hmem (List.mem_append_left _ e)]
    simp [remaining, hne]

theorem post (hl : Lifecycle h a) (hw : WellFormed a) {u : Nat} {ts : List TradeView}
    {type : OfferType} {price : Int} {amount : UInt64}
    (hm : Matches { a with offerId := a.offerId + 1 }
      { id := a.offerId, ownerId := u, type := type, price := price, amount := amount.toNat }
      ts a') :
    Lifecycle (h ++ [(.postOffer u type price amount, .posted a.offerId)]) a' := by
  let o : OfferView :=
    { id := a.offerId, ownerId := u, type := type, price := price, amount := amount.toNat }
  have hp : History.posted (h ++ [(.postOffer u type price amount, .posted a.offerId)]) =
      h.posted ++ [o] := by
    simp [History.posted, History.postedOf, o]
  have hc : History.cancelled (h ++ [(.postOffer u type price amount, .posted a.offerId)]) =
      h.cancelled := by
    simp [History.cancelled, History.cancelledOf]
  have htaken := hm.taken (fun v hv => (hw.live_lt v hv).ne)
  have hsplit : ∀ p, takenFrom p a'.trades = takenFrom p a.trades + takenFrom p ts := by
    intro p
    rw [hm.trades_eq, takenFrom_append]
  constructor
  case live_posted =>
    intro w hw
    rw [hp]
    obtain ⟨z, hz, hid, hu, ht, hk, -⟩ := hm.origin hw
    rcases hz with rfl | hz
    · exact ⟨o, by simp, hid.symm, hu.symm, ht.symm, hk.symm⟩
    · obtain ⟨v, hv, hid', hu', ht', hk'⟩ := hl.live_posted z hz
      exact ⟨v, List.mem_append_left _ hv, hid'.trans hid.symm, hu'.trans hu.symm,
        ht'.trans ht.symm, hk'.trans hk.symm⟩
  case posted_lt =>
    rw [hp, hm.counters.1]
    intro v hv
    rcases List.mem_append.mp hv with hv | hv
    · exact (hl.posted_lt v hv).trans (Nat.lt_succ_self _)
    · rw [List.mem_singleton.mp hv]
      exact Nat.lt_succ_self _
  case posted_nodup =>
    rw [hp, List.map_append]
    apply List.Nodup.append hl.posted_nodup (List.nodup_singleton _)
    intro p hp hp'
    obtain ⟨v, hv, rfl⟩ := List.mem_map.mp hp
    have hid : v.id = a.offerId := List.mem_singleton.mp hp'
    exact absurd (hl.posted_lt v hv) (by omega)
  case cancelled_posted =>
    rw [hp, hc]
    intro p hp
    obtain ⟨v, hv, hid⟩ := hl.cancelled_posted p hp
    exact ⟨v, List.mem_append_left _ hv, hid⟩
  case cancelled_nodup => rw [hc]; exact hl.cancelled_nodup
  case cancelled_gone =>
    rw [hc]
    intro p hp
    exact hm.not_revived (hl.cancelled_gone p hp) (hl.cancelled_lt hp).ne'
  case unfilled =>
    rw [hp, hc]
    intro v hv hmem
    -- a cancelled offer is not live, so the call takes nothing from it
    have hold := htaken v.id
    rw [remaining_of_not_live (hl.cancelled_gone _ hmem), if_neg (hl.cancelled_lt hmem).ne] at hold
    rcases List.mem_append.mp hv with hv | hv
    · have := hl.unfilled v hv hmem
      have := hsplit v.id
      omega
    · rw [List.mem_singleton.mp hv] at hmem
      exact absurd (hl.cancelled_lt hmem) (lt_irrefl _)
  case account =>
    rw [hp, hc]
    intro v hv hmem
    have hnew := htaken v.id
    rcases List.mem_append.mp hv with hv | hv
    · rw [if_neg (hl.posted_lt v hv).ne] at hnew
      have hacc := hl.account v hv hmem
      have := hsplit v.id
      have : remaining a.live v.id = remaining { a with offerId := a.offerId + 1 }.live v.id := rfl
      omega
    · -- the posted offer: all its trades are those of the call
      have hv : v = o := List.mem_singleton.mp hv
      rw [hv] at hnew ⊢
      rw [remaining_of_not_live fun w hw' => (hw.live_lt w hw').ne, if_pos rfl] at hnew
      have hnew : takenFrom o.id ts + remaining a'.live o.id = 0 + o.amount := hnew
      have hold : takenFrom o.id a.trades = 0 := hw.takenFrom_new
      rw [hsplit, hold]
      omega

theorem move (hl : Lifecycle h a) (hw : WellFormed a) (hpos : Positive a) (hm : Moves a op r a') :
    Lifecycle (h ++ [(op, r)]) a' := by
  cases hm with
  | stay hr hop => exact hl.same (postedOf_quiet hr) (cancelledOf_quiet hr) rfl rfl le_rfl
  | register username => exact hl.same rfl rfl rfl rfl le_rfl
  | depositUSD amount hx => exact hl.same rfl rfl rfl rfl le_rfl
  | depositRUB amount hx => exact hl.same rfl rfl rfl rfl le_rfl
  | lost type price amount hx => exact hl.same rfl rfl rfl rfl (Nat.le_succ _)
  | cancel hv => exact hl.cancel hpos hv
  | post type price amount hx hm => exact hl.post hw hm

end Lifecycle

end Reference

end ForexMarket
