import ForexMarket.Theorems.Amounts

/- The life of a posted offer over runs of the market: it is live, filled or cancelled,
   never two of these; it leaves the first state for one of the others and these for
   none; and `RemoveOffer` answers `true` for the live offers of the caller alone. -/
namespace ForexMarket

open Reference (takenFrom Touches Dead)

namespace Market

/-- The offer is among the active offers of a user. -/
def Listed (s : Market) (p : Nat) : Prop := ∃ w ∈ s.liveOffers, w.id = p

/-- What the deals made took from the offer. -/
def taken (s : Market) (p : Nat) : Nat := takenFrom p (s.trades.map Trade.view)

end Market

/-- One of three and no other. -/
def ExactlyOne (p q r : Prop) : Prop := (p ∧ ¬ q ∧ ¬ r) ∨ (¬ p ∧ q ∧ ¬ r) ∨ (¬ p ∧ ¬ q ∧ r)

/-- What holds of the offers posted in the calls of the history, in the state they led to. -/
structure OffersOk (h : History) (s : Market) : Prop where
  one_state : ∀ v ∈ h.posted,
    ExactlyOne (s.Listed v.id) (s.taken v.id = v.amount) (v.id ∈ h.cancelled)
  tradable : ∀ v ∈ h.posted, ∀ w ∈ s.liveOffers, w.id = v.id → w.ownerId = v.ownerId ∧
    w.type = v.type ∧ w.price = v.price ∧ w.id ∈ (s.book w.type).queue w.price
  removed_iff : ∀ u p, (s.step (.removeOffer u p)).1 = .removed true ↔
    ∃ w ∈ s.liveOffers, w.id = p ∧ w.ownerId = u
  removed_once : h.cancelled.Nodup
  refused : ∀ u p, (s.step (.removeOffer u p)).1 = .removed false →
    (s.step (.removeOffer u p)).2 = s

/-- What holds of the offers of the history in a state that a continuation leads to. -/
structure OffersFinal (h : History) (s s' : Market) : Prop where
  filled : ∀ v ∈ h.posted, s.taken v.id = v.amount → s'.taken v.id = v.amount
  cancelled : ∀ p ∈ h.cancelled, ∃ ts, s'.trades = s.trades ++ ts ∧
    ∀ t ∈ ts, t.incoming ≠ p ∧ t.resting ≠ p

variable {s : Market} {a : Reference} {h : History}

theorem Stands.listed_iff (hs : Stands s a) (p : Nat) :
    s.Listed p ↔ ∃ w ∈ a.live, w.id = p := by
  simp only [Market.Listed, hs.mem_liveOffers]

theorem Stands.taken (hs : Stands s a) (p : Nat) : s.taken p = takenFrom p a.trades := by
  rw [Market.taken, hs.sim.trades]

/-- An offer of the history is in one of its states. -/
theorem Stands.one_state (hs : Stands s a) (hl : a.Lifecycle h) (hp : a.Positive) {v : OfferView}
    (hv : v ∈ h.posted) :
    ExactlyOne (s.Listed v.id) (s.taken v.id = v.amount) (v.id ∈ h.cancelled) := by
  rw [hs.listed_iff, hs.taken]
  by_cases hc : v.id ∈ h.cancelled
  · right; right
    refine ⟨?_, (hl.unfilled v hv hc).ne, hc⟩
    exact fun ⟨w, hw, hid⟩ => hl.cancelled_gone _ hc w hw hid
  · have hacc := hl.account v hv hc
    by_cases hlive : ∃ w ∈ a.live, w.id = v.id
    · left
      obtain ⟨w, hw, hid⟩ := hlive
      refine ⟨⟨w, hw, hid⟩, ?_, hc⟩
      rw [← hid, Reference.remaining_of_mem hw, hid] at hacc
      have := hp.live w hw
      omega
    · right; left
      refine ⟨hlive, ?_, hc⟩
      rw [Reference.remaining_of_not_live fun w hw hid => hlive ⟨w, hw, hid⟩] at hacc
      exact hacc

/-- `RemoveOffer` answers `true` for the live offers of the caller alone. -/
theorem Stands.removed_iff (hs : Stands s a) (u p : Nat) :
    (s.step (.removeOffer u p)).1 = .removed true ↔
      ∃ w ∈ s.liveOffers, w.id = p ∧ w.ownerId = u := by
  rw [hs.reply_eq]
  refine ⟨fun hr => ?_, ?_⟩
  · have hm := a.step_moves (.removeOffer u p)
    rw [hr] at hm
    generalize (a.step (.removeOffer u p)).2 = a' at hm
    cases hm with
    | stay hr hop => cases hr
    | @cancel w hw => exact ⟨w, hs.mem_liveOffers.mpr hw, rfl, rfl⟩
  · intro ⟨w, hw, hid, hu⟩
    have hw := hs.mem_liveOffers.mp hw
    obtain ⟨x, hx⟩ := Option.isSome_iff_exists.mp (hs.wf.live_owner w hw)
    have hfind : a.live.find? p = some w := hid ▸ KeySet.find?_of_mem hw
    rw [hu] at hx
    have hany : (a.live.find? p).any (fun o => o.ownerId = u) = true := by
      rw [hfind]
      exact decide_eq_true hu
    simp only [Reference.step, hx]
    rw [if_pos hany]

/-- A refused removal changes nothing. -/
theorem removeOffer_refused {u p : Nat} (hr : (s.step (.removeOffer u p)).1 = .removed false) :
    (s.step (.removeOffer u p)).2 = s := by
  simp only [Market.step, Market.removeActiveOffer] at hr ⊢
  cases hd : s.users.find? u with
  | none => rfl
  | some d =>
    rw [hd] at hr
    have hfalse : d.activeOffers.contains p = false := by
      simpa [UserData.removeActiveOffer_eq] using hr
    have hself : d.removeActiveOffer p = (false, d) := by
      unfold UserData.removeActiveOffer
      have hnone : d.activeOffers.find? p = none := by
        simpa [KeySet.contains] using hfalse
      rw [hnone]
    dsimp only
    rw [KeySet.modify_self]
    intro e he
    rw [hd] at he
    rw [← Option.some.inj he, hself]

/-- No continuation makes a deal that touches an offer out of reach. -/
theorem Stands.dead_run (hs : Stands s a) {p : Nat} (hd : Dead a p) (more : List Op) :
    ∃ ts, (s.run more).trades = s.trades ++ ts ∧ ∀ t ∈ ts, ¬ Touches p t.view := by
  let I (s' : Market) := ∃ a', Stands s' a' ∧ Dead a' p ∧
    ∃ ts, s'.trades = s.trades ++ ts ∧ ∀ t ∈ ts, ¬ Touches p t.view
  have hstep : ∀ s' op, I s' → I (s'.step op).2 := by
    intro s' op ⟨a', hs', hd', ts, htrades, hts⟩
    obtain ⟨hd'', tsv, htrades', htouch⟩ := hd'.move (hs'.moves op)
    obtain ⟨new, hnew, rfl⟩ := hs'.new_trades (hs'.step op) htrades'
    refine ⟨_, hs'.step op, hd'', ts ++ new, by rw [hnew, htrades, List.append_assoc], ?_⟩
    intro t ht
    rcases List.mem_append.mp ht with ht | ht
    · exact hts t ht
    · exact htouch _ (List.mem_map_of_mem ht)
  obtain ⟨-, -, -, hts⟩ : I (s.run more) :=
    Machine.exec_inv hstep ⟨a, hs, hd, [], by simp, by simp⟩ more
  exact hts

/-- An offer of the history that is not live is out of reach. -/
theorem Stands.dead (hs : Stands s a) (hl : a.Lifecycle h) {v : OfferView} (hv : v ∈ h.posted)
    (hnot : ¬ s.Listed v.id) : Dead a v.id :=
  ⟨hl.posted_lt v hv, fun w hw hid => hnot ((hs.listed_iff _).mpr ⟨w, hw, hid⟩)⟩

theorem Stands.offersOk (hs : Stands s a) (hl : a.Lifecycle h) (hp : a.Positive) :
    OffersOk h s where
  one_state := fun v hv => hs.one_state hl hp hv
  tradable := by
    intro v hv w hw hid
    have hw := hs.mem_liveOffers.mp hw
    obtain ⟨v', hv', hid', hu, ht, hk⟩ := hl.live_posted w hw
    rw [hl.posted_inj hv' hv (hid'.trans hid)] at hu ht hk
    exact ⟨hu.symm, ht.symm, hk.symm, hs.in_book hw⟩
  removed_iff := hs.removed_iff
  removed_once := hl.cancelled_nodup
  refused := fun u p hr => removeOffer_refused hr

theorem Stands.offersFinal (hs : Stands s a) (hl : a.Lifecycle h) (hp : a.Positive)
    (more : List Op) : OffersFinal h s (s.run more) where
  filled := by
    intro v hv hfilled
    have hnot : ¬ s.Listed v.id := by
      rcases hs.one_state hl hp hv with ⟨-, hno, -⟩ | ⟨hno, -⟩ | ⟨hno, -⟩
      · exact absurd hfilled hno
      · exact hno
      · exact hno
    obtain ⟨ts, htrades, hts⟩ := hs.dead_run (hs.dead hl hv hnot) more
    have hzero : takenFrom v.id (ts.map Trade.view) = 0 := by
      apply Reference.takenFrom_of_untouched
      intro t ht
      obtain ⟨x, hx, rfl⟩ := List.mem_map.mp ht
      exact hts x hx
    rw [Market.taken, htrades, List.map_append, Reference.takenFrom_append, hzero, Nat.add_zero]
    exact hfilled
  cancelled := by
    intro p hp
    obtain ⟨v, hv, rfl⟩ := hl.cancelled_posted p hp
    have hnot : ¬ s.Listed v.id := by
      rw [hs.listed_iff]
      exact fun ⟨w, hw, hid⟩ => hl.cancelled_gone _ hp w hw hid
    obtain ⟨ts, htrades, hts⟩ := hs.dead_run (hs.dead hl hv hnot) more
    refine ⟨ts, htrades, fun t ht => ?_⟩
    have := hts t ht
    exact ⟨fun e => this (.inl e), fun e => this (.inr e)⟩

/-- In every run whose registered users post positive amounts, each posted offer is in one state,
and whatever calls follow, a filled one stays filled and a cancelled one trades no more. -/
theorem offer_lifecycle (offerId dealId userId : Nat) (ops : List Op)
    (hops : Machine.Along Market.step Market.PostsPositive
      (Market.empty offerId dealId userId) ops) :
    OffersOk (Machine.history Market.step (Market.empty offerId dealId userId) ops)
        ((Market.empty offerId dealId userId).run ops) ∧
      ∀ more, OffersFinal (Machine.history Market.step (Market.empty offerId dealId userId) ops)
        ((Market.empty offerId dealId userId).run ops)
        (((Market.empty offerId dealId userId).run ops).run more) := by
  let s₀ := Market.empty offerId dealId userId
  have hinv : ∃ a, Stands (s₀.run ops) a ∧ a.Positive ∧
      a.Lifecycle ([] ++ Machine.history Market.step s₀ ops) :=
    Machine.exec_inv_history (I := fun h s => ∃ a, Stands s a ∧ a.Positive ∧ a.Lifecycle h)
      (fun h s op ⟨a, hs, hp, hl⟩ hop => ⟨_, hs.step op,
        hp.move (hs.moves op) ((hs.postsPositive_iff op).mp hop), hl.move hs.wf hp (hs.moves op)⟩)
      ⟨_, Stands.empty _ _ _, Reference.Positive.empty _ _ _, Reference.Lifecycle.empty _ _ _⟩ hops
  obtain ⟨a, hs, hp, hl⟩ := hinv
  exact ⟨hs.offersOk hl hp, fun more => hs.offersFinal hl hp more⟩

/-- In the small market, offer 1 is cancelled and the others are live. -/
theorem sample_offers :
    OffersOk (Machine.history Market.step (Market.empty 0 0 0) Market.sampleOps) Market.sample ∧
      ∀ more, OffersFinal
        (Machine.history Market.step (Market.empty 0 0 0) Market.sampleOps) Market.sample
        (Market.sample.run more) :=
  offer_lifecycle 0 0 0 Market.sampleOps Market.sampleOps_positive

end ForexMarket
