import ForexMarket.Proofs.Invariant

/- What a pass of the matching loop that makes a deal does (`Dealt`), whatever order
   the code does it in, and that it is a trade of the reference: the invariant is kept
   and the relation moves to the reference after the trade. -/
namespace ForexMarket

open Wrap

/-- The amount an incoming and a resting offer trade. -/
def tradedAmount (this other : Offer) : UInt64 := min this.amount other.amount

/-- The deal an incoming and a resting offer make. -/
def dealBetween (id : Nat) (this other : Offer) : Deal :=
  { id := id, sellerId := if this.type = .SELL then this.ownerId else other.ownerId,
    buyerId := if this.type = .BUY then this.ownerId else other.ownerId,
    price := other.price, amount := tradedAmount this other }

/-- Whether the resting offer has nothing left after the deal. -/
def Filled (this other : Offer) : Prop := (other.reduce (tradedAmount this other)).amount = 0

/-- `s'` is `s` after the offer `this` has traded with `other`, the back entry of the level of
its price. -/
structure Dealt (s s' : Market) (this other : Offer) : Prop where
  heap : s'.heap = (s.heap.store (this.reduce (tradedAmount this other))).store
    (other.reduce (tradedAmount this other))
  quote : s'.quote = some other.price
  offerId : s'.offerId = s.offerId
  dealId : s'.dealId = s.dealId + 1
  userId : s'.userId = s.userId
  trades : s'.trades = s.trades ++
    [{ deal := dealBetween s.dealId this other, incoming := this.id, resting := other.id }]
  same : s'.book this.type = s.book this.type
  kept : ¬ Filled this other →
    s'.book this.type.opposite = s.book this.type.opposite ∧
    ∀ u, s'.users.find? u =
      (s.users.find? u).map (·.afterDeal (dealBetween s.dealId this other))
  filled : Filled this other →
    s'.book this.type.opposite = (s.book this.type.opposite).dropBack other.price ∧
    ∀ u, s'.users.find? u =
      (s.users.find? u).map fun d =>
        if u = other.ownerId then
          (d.afterDeal (dealBetween s.dealId this other)).dropOffer other.id
        else d.afterDeal (dealBetween s.dealId this other)

theorem tradedAmount_toNat (this other : Offer) :
    (tradedAmount this other).toNat = min this.amount.toNat other.amount.toNat :=
  UInt64.toNat_min _ _

theorem this_left (this other : Offer) :
    (this.reduce (tradedAmount this other)).amount.toNat =
      this.amount.toNat - min this.amount.toNat other.amount.toNat := by
  have h := tradedAmount_toNat this other
  rw [Offer.reduce_amount (by omega), h]

theorem other_left (this other : Offer) :
    (other.reduce (tradedAmount this other)).amount.toNat =
      other.amount.toNat - min this.amount.toNat other.amount.toNat := by
  have h := tradedAmount_toNat this other
  rw [Offer.reduce_amount (by omega), h]

theorem filled_iff (this other : Offer) :
    Filled this other ↔ other.amount.toNat - min this.amount.toNat other.amount.toNat = 0 := by
  rw [← other_left, Filled, ← UInt64.toNat_inj]
  rfl

namespace Dealt

variable {s s' : Market} {this other : Offer}

/-- Which offers users hold afterwards. -/
theorem owns_iff (h : Dealt s s' this other) (u p : Nat) :
    s'.Owns u p ↔
      s.Owns u p ∧ ¬ (Filled this other ∧ u = other.ownerId ∧ p = other.id) := by
  by_cases hf : Filled this other
  · simp only [Market.Owns, (h.filled hf).2, hf, true_and]
    cases s.users.find? u with
    | none => simp
    | some d =>
      by_cases hu : u = other.ownerId
      · simp [hu, UserData.dropOffer, KeySet.mem_erase]
      · simp [hu]
  · simp only [Market.Owns, (h.kept hf).2, hf, false_and, not_false_eq_true, and_true]
    cases s.users.find? u <;> simp

/-- What a user's data is afterwards, but for the offers held. -/
theorem find? (h : Dealt s s' this other) {u : Nat} {d' : UserData}
    (hd' : s'.users.find? u = some d') : ∃ d, s.users.find? u = some d ∧
      d'.balance = (d.afterDeal (dealBetween s.dealId this other)).balance ∧
      d'.closedDeals = (d.afterDeal (dealBetween s.dealId this other)).closedDeals := by
  by_cases hf : Filled this other
  · rw [(h.filled hf).2] at hd'
    obtain ⟨d, hd, rfl⟩ := Option.map_eq_some_iff.mp hd'
    refine ⟨d, hd, ?_⟩
    split
    · exact ⟨rfl, rfl⟩
    · exact ⟨rfl, rfl⟩
  · rw [(h.kept hf).2] at hd'
    obtain ⟨d, hd, rfl⟩ := Option.map_eq_some_iff.mp hd'
    exact ⟨d, hd, rfl, rfl⟩

/-- The objects afterwards: the two of the deal, reduced, and the others. -/
theorem mem_heap (h : Dealt s s' this other) (hthis : this ∈ s.heap) (hother : other ∈ s.heap)
    (hne : this.id ≠ other.id) {y : Offer} :
    y ∈ s'.heap ↔ y = this.reduce (tradedAmount this other) ∨
      y = other.reduce (tradedAmount this other) ∨
      y ∈ s.heap ∧ y.id ≠ this.id ∧ y.id ≠ other.id := by
  have hsome : ∃ c ∈ s.heap.store (this.reduce (tradedAmount this other)), c.id = other.id :=
    ⟨other, KeySet.mem_store.mpr (.inl ⟨hother, hne.symm⟩), rfl⟩
  have hthere : ∃ c ∈ s.heap, c.id = this.id := ⟨this, hthis, rfl⟩
  rw [h.heap, KeySet.mem_store, KeySet.mem_store]
  simp only [Offer.reduce_id, hsome, hthere, and_true]
  refine ⟨?_, ?_⟩
  · intro hy
    rcases hy with ⟨⟨hy, hyt⟩ | rfl, hyo⟩ | rfl
    · exact .inr (.inr ⟨hy, hyt, hyo⟩)
    · exact .inl rfl
    · exact .inr (.inl rfl)
  · intro hy
    rcases hy with rfl | rfl | ⟨hy, hyt, hyo⟩
    · exact .inl ⟨.inr rfl, hne⟩
    · exact .inr rfl
    · exact .inl ⟨.inl ⟨hy, hyt⟩, hyo⟩

/-- Every object keeps its id, type and price. -/
theorem heap_congr (h : Dealt s s' this other) (hthis : this ∈ s.heap) (hother : other ∈ s.heap)
    (hne : this.id ≠ other.id) :
    ∀ x ∈ s.heap, ∃ x' ∈ s'.heap, x'.id = x.id ∧ x'.type = x.type ∧ x'.price = x.price := by
  intro x hx
  by_cases hxt : x.id = this.id
  · rw [KeySet.key_inj hx hthis hxt]
    exact ⟨_, (h.mem_heap hthis hother hne).mpr (.inl rfl), rfl, rfl, rfl⟩
  · by_cases hxo : x.id = other.id
    · rw [KeySet.key_inj hx hother hxo]
      exact ⟨_, (h.mem_heap hthis hother hne).mpr (.inr (.inl rfl)), rfl, rfl, rfl⟩
    · exact ⟨x, (h.mem_heap hthis hother hne).mpr (.inr (.inr ⟨hx, hxt, hxo⟩)), rfl, rfl, rfl⟩

/-- Only the book of the resting offer changes, and only when that offer is filled. -/
theorem book_cases (h : Dealt s s' this other) (t : OfferType) :
    s'.book t = s.book t ∨
      t = this.type.opposite ∧ Filled this other ∧
        s'.book t = (s.book t).dropBack other.price := by
  by_cases ht : t = this.type
  · left
    rw [ht]
    exact h.same
  · rw [OfferType.eq_opposite (Ne.symm ht)]
    by_cases hf : Filled this other
    · exact .inr ⟨rfl, hf, (h.filled hf).1⟩
    · exact .inl (h.kept hf).1

/-- No entry goes but that of a filled resting offer. -/
theorem mem_queue (h : Dealt s s' this other)
    (hback : ((s.book this.type.opposite).queue other.price).getLast? = some other.id)
    {t : OfferType} {k : Int} {p : Nat} (hp : p ∈ (s.book t).queue k)
    (hstay : Filled this other → p ≠ other.id) : p ∈ (s'.book t).queue k := by
  rcases h.book_cases t with hbook | ⟨rfl, hf, hbook⟩
  · rw [hbook]
    exact hp
  · rw [hbook]
    exact Book.mem_queue_dropBack hback hp (hstay hf)

/-- No level comes. -/
theorem queue_ne_nil (h : Dealt s s' this other) (t : OfferType) {k : Int}
    (hk : (s'.book t).queue k ≠ []) : (s.book t).queue k ≠ [] := by
  rcases h.book_cases t with hbook | ⟨-, -, hbook⟩
  · rwa [hbook] at hk
  · rw [hbook] at hk
    exact Book.queue_of_dropBack hk

end Dealt

/-- A deal with the back entry of a level keeps the invariant. -/
theorem Inv.dealt {s s' : Market} {this other : Offer} (hi : Inv (some this.id) s)
    (h : Dealt s s' this other) (hthis : this ∈ s.heap) (hother : other ∈ s.heap)
    (hne : this.id ≠ other.id)
    (hback : ((s.book this.type.opposite).queue other.price).getLast? = some other.id) :
    Inv (some this.id) s' where
  book := by
    intro t
    have hcongr := (hi.book t).heap_congr (h.heap_congr hthis hother hne)
    rcases h.book_cases t with hbook | ⟨-, -, hbook⟩
    · rw [hbook]
      exact hcongr
    · rw [hbook]
      exact hcongr.dropBack other.price
  owned := by
    intro u p ho
    obtain ⟨ho, hgone⟩ := (h.owns_iff u p).mp ho
    obtain ⟨x, hx, hid, hu, hq⟩ := hi.owned u p ho
    by_cases hxt : x.id = this.id
    · -- the offer being posted has no entry yet
      rw [KeySet.key_inj hx hthis hxt] at hid hu
      refine ⟨_, (h.mem_heap hthis hother hne).mpr (.inl rfl), hid, hu, ?_⟩
      exact fun hp => absurd (congrArg some hid) hp
    have hp : some this.id ≠ some p := fun e => hxt (hid.trans (Option.some.inj e).symm)
    obtain ⟨hact, hq⟩ := hq hp
    by_cases hxo : x.id = other.id
    · -- the resting offer is still held, so it is not filled
      have hxe : x = other := KeySet.key_inj hx hother hxo
      rw [hxe] at hid hu hact hq
      have hf : ¬ Filled this other := fun hf => hgone ⟨hf, hu.symm, hid.symm⟩
      refine ⟨_, (h.mem_heap hthis hother hne).mpr (.inr (.inl rfl)), hid, hu, fun _ => ?_⟩
      rw [Offer.reduce_status_of_ne hf]
      exact ⟨hact, h.mem_queue hback hq fun hfill => absurd hfill hf⟩
    · refine ⟨x, (h.mem_heap hthis hother hne).mpr (.inr (.inr ⟨hx, hxt, hxo⟩)), hid, hu,
        fun _ => ⟨hact, ?_⟩⟩
      exact h.mem_queue hback hq fun _ e => hxo (hid.trans e)
  offer_lt := by
    intro y hy
    rw [h.offerId]
    rcases (h.mem_heap hthis hother hne).mp hy with rfl | rfl | ⟨hy, -⟩
    · exact hi.offer_lt this hthis
    · exact hi.offer_lt other hother
    · exact hi.offer_lt y hy
  deal_lt := by
    intro u d' hd' x hx
    obtain ⟨d, hd, -, hc⟩ := h.find? hd'
    rw [h.dealId]
    rw [hc, UserData.afterDeal_closedDeals] at hx
    have hold : x ∈ d.closedDeals → x.id < s.dealId + 1 := by
      intro hx
      have := hi.deal_lt u d hd x hx
      omega
    split at hx
    · rcases KeySet.mem_insert.mp hx with hx | ⟨rfl, -⟩
      · exact hold hx
      · exact Nat.lt_succ_self _
    · exact hold hx
  user_lt := by
    intro u d' hd'
    obtain ⟨d, hd, -⟩ := h.find? hd'
    rw [h.userId]
    exact hi.user_lt u d hd
  uncrossed := fun b c hb hc =>
    hi.uncrossed b c (h.queue_ne_nil .BUY hb) (h.queue_ne_nil .SELL hc)

namespace Sim

variable {s s' : Market} {a : Reference}

/-- The deal of the code is the deal of the reference. -/
theorem view_dealBetween (h : s.dealId = a.dealId) (this other : Offer) :
    (dealBetween s.dealId this other).view = a.dealOf this.view other.view := by
  simp only [dealBetween, Deal.view, Reference.dealOf, Offer.view, tradedAmount_toNat, h]
  rfl

theorem view_reduce (this other : Offer) :
    (other.reduce (tradedAmount this other)).view =
      { other.view with
        amount := other.amount.toNat - min this.amount.toNat other.amount.toNat } := by
  simp only [Offer.view, Offer.reduce_id, Offer.reduce_ownerId, Offer.reduce_type,
    Offer.reduce_price, other_left]

/-- A deal with the live offer `other` is a trade of the reference with it. -/
theorem dealt {this other : Offer} (hs : Sim (some this.id) s a) (hi : Inv (some this.id) s)
    (h : Dealt s s' this other) (hthis : this ∈ s.heap) (hother : other ∈ s.heap)
    (hne : this.id ≠ other.id) (hlive : s.Owns other.ownerId other.id) :
    Sim (some this.id) s' (a.trade this.view other.view) where
  live := by
    intro v
    have hmem : other.view ∈ a.live :=
      (hs.live _).mpr ⟨other, hother, rfl, hlive, fun e => hne (Option.some.inj e)⟩
    rw [Reference.trade, Reference.mem_consume hmem]
    -- the offers but the two of the deal stay as they are; the resting one goes when it is filled
    have hfill := filled_iff this other
    refine ⟨?_, ?_⟩
    · intro hv
      rcases hv with ⟨hv, hid⟩ | ⟨rfl, hleft⟩
      · obtain ⟨y, hy, rfl, ho, hyt⟩ := (hs.live v).mp hv
        have hyt' : y.id ≠ this.id := fun e => hyt (by rw [e])
        refine ⟨y, (h.mem_heap hthis hother hne).mpr (.inr (.inr ⟨hy, hyt', hid⟩)), rfl, ?_, hyt⟩
        exact (h.owns_iff _ _).mpr ⟨ho, fun gone => hid gone.2.2⟩
      · refine ⟨_, (h.mem_heap hthis hother hne).mpr (.inr (.inl rfl)), ?_, ?_, ?_⟩
        · exact view_reduce this other
        · exact (h.owns_iff _ _).mpr ⟨hlive, fun gone => hleft (hfill.mp gone.1)⟩
        · exact fun e => hne (Option.some.inj e)
    · rintro ⟨y, hy, hyv, ho, hyt⟩
      obtain ⟨ho, hgone⟩ := (h.owns_iff _ _).mp ho
      rcases (h.mem_heap hthis hother hne).mp hy with rfl | rfl | ⟨hy, hyt', hyo⟩
      · exact absurd rfl hyt
      · right
        refine ⟨?_, fun h0 => hgone ⟨hfill.mpr h0, rfl, rfl⟩⟩
        rw [← hyv]
        exact view_reduce this other
      · left
        rw [← hyv]
        exact ⟨(hs.live _).mpr ⟨y, hy, rfl, ho, hyt⟩, hyo⟩
  accounts := by
    intro u
    have hagree : ∀ d x, s.users.find? u = some d → Agrees d x →
        Agrees (d.afterDeal (dealBetween s.dealId this other))
          (x.afterDeal u (a.dealOf this.view other.view)) := by
      intro d x hd hx
      rw [← (KeySet.find?_eq_some.mp hd).2, ← view_dealBetween hs.dealId]
      exact hx.afterDeal (hi.deal_lt u d hd)
    -- a filled offer leaves its owner, which no account shows
    by_cases hf : Filled this other
    · rw [(h.filled hf).2]
      apply rel_map (hs.accounts u)
      intro d x hd hx
      have hag := hagree d x hd hx
      split
      · exact ⟨hag.usd, hag.rub, hag.deals⟩
      · exact hag
    · rw [(h.kept hf).2]
      exact rel_map (hs.accounts u) hagree
  quote := h.quote
  offerId := h.offerId.trans hs.offerId
  dealId := h.dealId.trans (congrArg (· + 1) hs.dealId)
  userId := h.userId.trans hs.userId
  trades := by
    rw [h.trades, List.map_append, hs.trades]
    simp only [Reference.trade, Reference.tradeOf, List.map_cons, List.map_nil, Trade.view,
      view_dealBetween hs.dealId, Offer.view]

end Sim

end ForexMarket
