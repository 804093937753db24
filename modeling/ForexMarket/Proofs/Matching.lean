import ForexMarket.Proofs.Pass

/- The matching loop against the reference. A pass ends the loop when no level crosses,
   drops a dead back entry, or makes the deal the reference makes next
   (`processPass_cases`). By induction on the fuel the loop of a posted offer does what
   `matchOffer` does, and the fuel `ProcessOffer` gives it is enough
   (`processLoop_spec`). -/
namespace ForexMarket

open Reference (crosses)

/-! The best level. -/

namespace Book

/-- The guard of the loop stops it exactly when no level crosses; otherwise the best level
crosses and no other level is better. -/
theorem best_cases (t : OfferType) (b : Book) (price : Int) :
    ((b.isEmpty || !Market.borderPricePredicate t b price) = true ∧
      ∀ q ∈ b, ¬ crosses t price q.price) ∨
    ((b.isEmpty || !Market.borderPricePredicate t b price) = false ∧
      ∃ q ∈ b, Market.getBestOffers t b = some q ∧ crosses t price q.price ∧
        ∀ q' ∈ b, crosses t q'.price q.price) := by
  by_cases he : b.isEmpty = true
  · left
    refine ⟨by simp [he], fun q hq => absurd hq (KeySet.isEmpty_iff.mp he q)⟩
  have he : b.isEmpty = false := by simpa using he
  cases t with
  | BUY =>
    obtain ⟨q, hq⟩ := KeySet.first?_isSome he
    by_cases hc : q.price ≤ price
    · right
      refine ⟨by simp [he, Market.borderPricePredicate, hq, hc], q, KeySet.first?_mem hq, hq, hc,
        ?_⟩
      exact fun q' hq' => KeySet.first?_le hq hq'
    · left
      refine ⟨by simp [he, Market.borderPricePredicate, hq]; omega, ?_⟩
      intro q' hq' hc'
      exact hc (le_trans (KeySet.first?_le hq hq') hc')
  | SELL =>
    obtain ⟨q, hq⟩ := KeySet.last?_isSome he
    by_cases hc : price ≤ q.price
    · right
      refine ⟨by simp [he, Market.borderPricePredicate, hq, hc], q, KeySet.last?_mem hq, hq, hc, ?_⟩
      exact fun q' hq' => KeySet.le_last? hq hq'
    · left
      refine ⟨by simp [he, Market.borderPricePredicate, hq]; omega, ?_⟩
      intro q' hq' hc'
      exact hc (le_trans hc' (KeySet.le_last? hq hq'))

end Book

variable {s : Market} {a : Reference} {this other : Offer}

/-- When no level crosses, no live offer does. -/
theorem best?_eq_none_of_levels (hi : Inv (some this.id) s) (hs : Sim (some this.id) s a)
    (hcross : ∀ q ∈ s.book this.type.opposite, ¬ crosses this.type this.price q.price) :
    a.best? this.view = none := by
  refine Select.best?_eq_none.mpr ?_
  intro v hv
  obtain ⟨x, hx, rfl, ho, hne⟩ := (hs.live v).mp hv
  have hq := (hi.entry hx ho hne).2
  simp only [Reference.matchable, decide_eq_false_iff_not]
  intro ⟨ht, hc⟩
  rw [show x.type = this.type.opposite from ht] at hq
  obtain ⟨q, hqm, hqp, -⟩ := Book.mem_of_queue hq
  rw [← show q.price = x.view.price from hqp] at hc
  exact hcross q hqm hc

/-- The live back entry of the best level is the live offer the reference takes. -/
theorem best?_eq_back (hi : Inv (some this.id) s) (hs : Sim (some this.id) s a) {q : OfferQueue}
    (hcross : crosses this.type this.price q.price)
    (hbest : ∀ q' ∈ s.book this.type.opposite, crosses this.type q'.price q.price)
    (hother : other ∈ s.heap) (ht : other.type = this.type.opposite) (hp : other.price = q.price)
    (hlive : s.Owns other.ownerId other.id) (hne : some this.id ≠ some other.id)
    (hback : ((s.book this.type.opposite).queue q.price).getLast? = some other.id) :
    a.best? this.view = some other.view := by
  refine Select.best?_eq_some ((hs.live _).mpr ⟨other, hother, rfl, hlive, hne⟩) ?_ ?_
  · simp only [Reference.matchable, decide_eq_true_eq]
    refine ⟨ht, ?_⟩
    show crosses this.type this.price other.price
    rw [hp]
    exact hcross
  · intro v hv hm hvo
    obtain ⟨x, hx, rfl, ho, hxne⟩ := (hs.live v).mp hv
    have hxt : x.type = this.type.opposite := (of_decide_eq_true hm).1
    have hxq := (hi.entry hx ho hxne).2
    rw [hxt] at hxq
    obtain ⟨q', hq', hqp', -⟩ := Book.mem_of_queue hxq
    have hle := hbest q' hq'
    rw [hqp', ← hp] at hle
    -- at the same price the back entry is the older one
    have hage : x.price = other.price → other.id < x.id := by
      intro e
      rw [e, hp] at hxq
      have hle := (hi.book this.type.opposite).back_le hback hxq
      have hid : other.id ≠ x.id := fun e => hvo (by rw [KeySet.key_inj hx hother e.symm])
      omega
    show Reference.rank this.type other.view < Reference.rank this.type x.view
    cases hty : this.type with
    | BUY =>
      simp only [hty, crosses] at hle
      simp only [Reference.rank, Offer.view, Prod.Lex.toLex_lt_toLex]
      omega
    | SELL =>
      simp only [hty, crosses] at hle
      simp only [Reference.rank, Offer.view, Prod.Lex.toLex_lt_toLex]
      omega

/-! One pass. -/

namespace Market

/-- The market after `MakeDeal` of the two offers. -/
def made (s : Market) (this other : Offer) : Market :=
  { s with
    heap := (s.heap.store (this.reduce (tradedAmount this other))).store
      (other.reduce (tradedAmount this other))
    dealId := s.dealId + 1
    trades := s.trades ++
      [{ deal := dealBetween s.dealId this other, incoming := this.id, resting := other.id }] }

/-- The market after `MakeDeal`, `RegisterDeal` and `UpdateQuote`. -/
def registered (s : Market) (this other : Offer) : Market :=
  { s.made this other with users := settle s.users (dealBetween s.dealId this other) }.updateQuote
    (dealBetween s.dealId this other)

theorem book_registered (s : Market) (this other : Offer) (t : OfferType) :
    (s.registered this other).book t = s.book t := by
  cases t <;> rfl

theorem makeDeal_made (ht : other.type = this.type.opposite) :
    s.makeDeal this other = some (other.reduce (tradedAmount this other),
      dealBetween s.dealId this other, s.made this other) := by
  simp only [makeDeal, Offer.makeDeal_eq ht]
  rfl

/-- Both parties of the deal are registered, so it is registered. -/
theorem registerDeal_made (hthis : ∃ d, s.users.find? this.ownerId = some d)
    (hother : ∃ d, s.users.find? other.ownerId = some d) :
    (s.made this other).registerDeal (dealBetween s.dealId this other) =
      some { s.made this other with
        users := settle s.users (dealBetween s.dealId this other) } := by
  apply registerDeal_eq
  · simp only [dealBetween]
    split
    · exact hthis
    · exact hother
  · simp only [dealBetween]
    split
    · exact hthis
    · exact hother

/-- An entry no one holds has expired. -/
theorem expired_of_dead {pinned : List Nat} {p : Nat} (hpin : p ∉ pinned)
    (hdead : ∀ u, ¬ s.Owns u p) : s.expired pinned p = true := by
  have howned : s.owned p = false := by
    rw [← Bool.not_eq_true, owned_iff]
    exact not_exists.mpr hdead
  simp [expired, howned, hpin]

/-- An offer a user holds can be locked. -/
theorem lock_of_owns {p : Nat} (pinned : List Nat) (hother : other ∈ s.heap)
    (hlive : s.Owns p other.id) :
    s.expired pinned other.id = false ∧ s.lock pinned other.id = some other := by
  have hexp : s.expired pinned other.id = false := by
    have : s.owned other.id = true := owned_iff.mpr ⟨_, hlive⟩
    simp [expired, this]
  refine ⟨hexp, ?_⟩
  simp only [lock, hexp, Bool.false_eq_true, if_false]
  exact KeySet.find?_of_mem hother

end Market

/-- The deal leaves the book alone when the resting offer keeps an amount. -/
theorem dealt_kept (hf : ¬ Filled this other) : Dealt s (s.registered this other) this other where
  heap := rfl
  quote := rfl
  offerId := rfl
  dealId := rfl
  userId := rfl
  trades := rfl
  same := Market.book_registered s this other _
  kept _ := ⟨Market.book_registered s this other _, fun _ => Market.find?_settle _ _ _⟩
  filled h := absurd h hf

/-- A filled resting offer leaves its level, then its owner, and the level goes when it is
empty. -/
theorem dealt_filled {price : Int} {s₅ : Market} (hf : Filled this other)
    (hprice : other.price = price)
    (hr : ((s.registered this other).setBook this.type.opposite
      (((s.registered this other).book this.type.opposite).popBack price)).Released s₅
        other.ownerId other.id) :
    Dealt s (s₅.setBook this.type.opposite
      ((s₅.book this.type.opposite).eraseIfEmpty price)) this other where
  heap := by rw [Market.setBook_heap, hr.heap, Market.setBook_heap]; rfl
  quote := by rw [Market.setBook_quote, hr.quote, Market.setBook_quote]; rfl
  offerId := by rw [Market.setBook_offerId, hr.offerId, Market.setBook_offerId]; rfl
  dealId := by rw [Market.setBook_dealId, hr.dealId, Market.setBook_dealId]; rfl
  userId := by rw [Market.setBook_userId, hr.userId, Market.setBook_userId]; rfl
  trades := by rw [Market.setBook_trades, hr.trades, Market.setBook_trades]; rfl
  same := by
    have hne : this.type ≠ this.type.opposite := (OfferType.opposite_ne _).symm
    rw [Market.book_setBook, if_neg hne, hr.book, Market.book_setBook, if_neg hne,
      Market.book_registered]
  kept h := absurd hf h
  filled _ := by
    have hside : s₅.book this.type.opposite = (s.book this.type.opposite).popBack price := by
      rw [hr.book, Market.book_setBook, if_pos rfl, Market.book_registered]
    constructor
    · rw [Market.book_setBook, if_pos rfl, hside, hprice]
      rfl
    · intro u
      rw [Market.setBook_users, hr.find?, Market.setBook_users]
      show ((Market.settle s.users (dealBetween s.dealId this other)).find? u).map _ = _
      rw [Market.find?_settle, Option.map_map]
      rfl

/-- The market after the entry of a filled resting offer is popped. -/
def Market.popped (s : Market) (this other : Offer) (t : OfferType) (price : Int) : Market :=
  (s.registered this other).setBook t (((s.registered this other).book t).popBack price)

/-- The body of the loop with the live back entry of the best level: the deal is registered, and a
filled resting offer removed. -/
theorem processPass_live {q : OfferQueue} (hthis : this ∈ s.heap)
    (hreg : ∃ d, s.users.find? this.ownerId = some d)
    (hguard : ((s.book this.type.opposite).isEmpty ||
      !Market.borderPricePredicate this.type (s.book this.type.opposite) this.price) = false)
    (hbest : Market.getBestOffers this.type (s.book this.type.opposite) = some q)
    (hback : q.back? = some other.id) (hother : other ∈ s.heap)
    (ht : other.type = this.type.opposite) (hlive : s.Owns other.ownerId other.id) :
    Market.processPass (Market.borderPricePredicate this.type)
      (Market.getBestOffers this.type) this.id s =
      if (other.reduce (tradedAmount this other)).status = .FULLFILLED then
        match (s.popped this other this.type.opposite q.price).removeActiveOffer other.ownerId
            other.id with
        | none => .fault .outOfRange (s.popped this other this.type.opposite q.price)
        | some (_, s₅) => .again (s₅.setBook this.type.opposite
            ((s₅.book this.type.opposite).eraseIfEmpty q.price))
      else .again (s.registered this other) := by
  obtain ⟨hexp, hlock⟩ := Market.lock_of_owns [this.id] hother hlive
  obtain ⟨e, he, -⟩ := id hlive
  simp only [Market.processPass, KeySet.find?_of_mem hthis, hguard, hbest, hback, hexp, hlock,
    Market.makeDeal_made ht, Market.registerDeal_made hreg ⟨e, he⟩, Bool.false_eq_true, if_false]
  rfl

/-- The owner of a filled resting offer is registered, so the offer is released. -/
theorem Market.popped_release (this : Offer) (hlive : s.Owns other.ownerId other.id)
    (t : OfferType) (price : Int) :
    ∃ b s₅, (s.popped this other t price).removeActiveOffer other.ownerId other.id = some (b, s₅) ∧
      (s.popped this other t price).Released s₅ other.ownerId other.id := by
  obtain ⟨e, he, -⟩ := hlive
  have howner : (s.popped this other t price).users.find? other.ownerId =
      some (e.afterDeal (dealBetween s.dealId this other)) := by
    rw [popped, setBook_users]
    show (settle s.users (dealBetween s.dealId this other)).find? other.ownerId = _
    rw [find?_settle, he]
    rfl
  obtain ⟨s₅, hremove, hr⟩ := removeActiveOffer_spec howner other.id
  exact ⟨_, s₅, hremove, hr⟩

/-- The body of the loop makes the deal with the live back entry of the best level. -/
theorem processPass_deal {q : OfferQueue} (hthis : this ∈ s.heap)
    (hreg : ∃ d, s.users.find? this.ownerId = some d)
    (hguard : ((s.book this.type.opposite).isEmpty ||
      !Market.borderPricePredicate this.type (s.book this.type.opposite) this.price) = false)
    (hbest : Market.getBestOffers this.type (s.book this.type.opposite) = some q)
    (hback : q.back? = some other.id) (hprice : other.price = q.price)
    (hother : other ∈ s.heap) (hact : other.status = .ACTIVE)
    (ht : other.type = this.type.opposite) (hlive : s.Owns other.ownerId other.id) :
    ∃ s', Market.processPass (Market.borderPricePredicate this.type)
      (Market.getBestOffers this.type) this.id s = .again s' ∧ Dealt s s' this other := by
  have hstatus : (other.reduce (tradedAmount this other)).status = .FULLFILLED ↔
      Filled this other := Offer.reduce_status hact
  rw [processPass_live hthis hreg hguard hbest hback hother ht hlive]
  by_cases hf : Filled this other
  · obtain ⟨b, s₅, hremove, hr⟩ := Market.popped_release this hlive this.type.opposite q.price
    rw [if_pos (hstatus.mpr hf), hremove]
    exact ⟨_, rfl, dealt_filled hf hprice hr⟩
  · rw [if_neg (fun h => hf (hstatus.mp h))]
    exact ⟨_, rfl, dealt_kept hf⟩

/-- The body ends the loop when no level crosses. -/
theorem processPass_nothing (hthis : this ∈ s.heap)
    (hguard : ((s.book this.type.opposite).isEmpty ||
      !Market.borderPricePredicate this.type (s.book this.type.opposite) this.price) = true) :
    Market.processPass (Market.borderPricePredicate this.type) (Market.getBestOffers this.type)
      this.id s = .stop (s.addActiveOffer this) := by
  simp only [Market.processPass, KeySet.find?_of_mem hthis, hguard, if_true]

/-- The body drops a back entry that has expired. -/
theorem processPass_dead {q : OfferQueue} {p : Nat} (hthis : this ∈ s.heap)
    (hguard : ((s.book this.type.opposite).isEmpty ||
      !Market.borderPricePredicate this.type (s.book this.type.opposite) this.price) = false)
    (hbest : Market.getBestOffers this.type (s.book this.type.opposite) = some q)
    (hback : q.back? = some p) (hexp : s.expired [this.id] p = true) :
    Market.processPass (Market.borderPricePredicate this.type) (Market.getBestOffers this.type)
      this.id s =
      .again (s.setBook this.type.opposite ((s.book this.type.opposite).dropBack q.price)) := by
  simp only [Market.processPass, KeySet.find?_of_mem hthis, hguard, hbest, hback, hexp,
    Bool.false_eq_true, if_false, if_true, Book.dropBack]

/-- What an incoming offer meets: no level that crosses, or a best level whose back entry is dead
or leads to the live offer the reference takes. -/
inductive Meets (s : Market) (a : Reference) (this : Offer) : Prop
  | nothing
    (guard : ((s.book this.type.opposite).isEmpty ||
      !Market.borderPricePredicate this.type (s.book this.type.opposite) this.price) = true)
    (levels : ∀ q ∈ s.book this.type.opposite, ¬ crosses this.type this.price q.price)
  | dead (q : OfferQueue) (p : Nat)
    (guard : ((s.book this.type.opposite).isEmpty ||
      !Market.borderPricePredicate this.type (s.book this.type.opposite) this.price) = false)
    (level : q ∈ s.book this.type.opposite)
    (best : Market.getBestOffers this.type (s.book this.type.opposite) = some q)
    (back : q.back? = some p)
    (dead : ∀ u, ¬ s.Owns u p)
    (expired : s.expired [this.id] p = true)
  | live (q : OfferQueue) (other : Offer)
    (guard : ((s.book this.type.opposite).isEmpty ||
      !Market.borderPricePredicate this.type (s.book this.type.opposite) this.price) = false)
    (level : q ∈ s.book this.type.opposite)
    (best : Market.getBestOffers this.type (s.book this.type.opposite) = some q)
    (back : q.back? = some other.id)
    (mem : other ∈ s.heap)
    (ne : this.id ≠ other.id)
    (type : other.type = this.type.opposite)
    (price : other.price = q.price)
    (active : other.status = .ACTIVE)
    (live : s.Owns other.ownerId other.id)
    (taken : a.best? this.view = some other.view)

theorem meets (hi : Inv (some this.id) s) (hs : Sim (some this.id) s a) : Meets s a this := by
  have hbook := hi.book this.type.opposite
  rcases Book.best_cases this.type (s.book this.type.opposite) this.price with
    ⟨hguard, hnone⟩ | ⟨hguard, q, hq, hbest, hcross, hall⟩
  · exact .nothing hguard hnone
  obtain ⟨p, hp⟩ : ∃ p, q.back? = some p := by
    cases hb : q.back? with
    | none => exact absurd (List.getLast?_eq_none_iff.mp hb) (hbook.noEmpty q hq)
    | some p => exact ⟨p, rfl⟩
  have hback : ((s.book this.type.opposite).queue q.price).getLast? = some p := by
    rw [Book.queue_of_mem hq]
    exact hp
  obtain ⟨hpend, other, hother, hid, ht, hprice⟩ :=
    hbook.entry q.price p (List.mem_of_mem_getLast? hback)
  have hne : p ≠ this.id := fun e => hpend (by rw [e])
  by_cases hdead : ∀ u, ¬ s.Owns u p
  · have hexp := Market.expired_of_dead (fun hpin => hne (List.mem_singleton.mp hpin)) hdead
    exact .dead q p hguard hq hbest hp hdead hexp
  · obtain ⟨u, hu⟩ := not_forall_not.mp hdead
    rw [← hid] at hu hne hp hback hpend
    have howner : other.ownerId = u := hi.owner hother hu
    rw [← howner] at hu
    exact .live q other hguard hq hbest hp hother hne.symm ht hprice
      (hi.entry hother hu hpend).1 hu
      (best?_eq_back hi hs hcross hall hother ht hprice hu hpend hback)

/-- What a pass does: it ends the loop when no level crosses, drops a dead back entry, or makes
the deal the reference makes next. -/
theorem processPass_cases (hi : Inv (some this.id) s) (hs : Sim (some this.id) s a)
    (hthis : this ∈ s.heap) (hreg : ∃ d, s.users.find? this.ownerId = some d) :
    let pass := Market.processPass (Market.borderPricePredicate this.type)
      (Market.getBestOffers this.type) this.id s
    (pass = .stop (s.addActiveOffer this) ∧
      ∀ q ∈ s.book this.type.opposite, ¬ crosses this.type this.price q.price) ∨
    (∃ q ∈ s.book this.type.opposite, ∃ p, q.back? = some p ∧ (∀ u, ¬ s.Owns u p) ∧
      pass = .again (s.setBook this.type.opposite
        ((s.book this.type.opposite).dropBack q.price))) ∨
    (∃ q ∈ s.book this.type.opposite, ∃ other s', pass = .again s' ∧ Dealt s s' this other ∧
      other ∈ s.heap ∧ this.id ≠ other.id ∧ s.Owns other.ownerId other.id ∧
      other.price = q.price ∧ q.back? = some other.id ∧ a.best? this.view = some other.view) := by
  cases meets hi hs with
  | nothing hguard hlevels =>
    left
    exact ⟨processPass_nothing hthis hguard, hlevels⟩
  | dead q p hguard hq hbest hp hdead hexp =>
    right
    left
    exact ⟨q, hq, p, hp, hdead, processPass_dead hthis hguard hbest hp hexp⟩
  | live q other hguard hq hbest hp hother hne ht hprice hact hlive htaken =>
    right
    right
    obtain ⟨s', hpass, hd⟩ :=
      processPass_deal hthis hreg hguard hbest hp hprice hother hact ht hlive
    exact ⟨q, hq, other, s', hpass, hd, hother, hne, hlive, hprice, hp, htaken⟩

/-! The loop. -/

/-- A running `PostOffer` before a pass of the loop: `this` is the offer being posted, which is
active, the newest, and its owner's. -/
structure Posting (this : Offer) (s : Market) (a : Reference) : Prop where
  inv : Inv (some this.id) s
  sim : Sim (some this.id) s a
  mem : this ∈ s.heap
  active : this.status = .ACTIVE
  owned : s.Owns this.ownerId this.id
  newest : ∀ y ∈ s.heap, y.id ≤ this.id

/-- How the loop of a posted offer ends: with the offer resting in its book, or with the offer
filled and still its owner's. -/
def LoopEnd (this : Offer) (s : Market) (a : Reference) : Prop :=
  (Inv none s ∧ Sim none s a ∧ ∃ x ∈ s.heap, x.id = this.id ∧ x.status = .ACTIVE) ∨
  (Inv (some this.id) s ∧ Sim (some this.id) s a ∧ s.Owns this.ownerId this.id ∧
    ∃ x ∈ s.heap, x.id = this.id ∧ x.ownerId = this.ownerId ∧ x.status = .FULLFILLED)

/-- The reference goes on with what the deal leaves of the offer. -/
theorem remainder_view (this other : Offer) :
    Reference.remainder this.view other.view =
      (this.reduce (tradedAmount this other)).view := by
  simp only [Reference.remainder, Offer.view, Offer.reduce_id, Offer.reduce_ownerId,
    Offer.reduce_type, Offer.reduce_price, this_left]

namespace Posting

variable {s' : Market} {q : OfferQueue}

/-- When nothing crosses, the offer rests. -/
theorem rest (h : Posting this s a)
    (hlevels : ∀ q ∈ s.book this.type.opposite, ¬ crosses this.type this.price q.price) :
    LoopEnd this (s.addActiveOffer this) (a.matchOffer this.view) := by
  left
  refine ⟨?_, ?_, this, ?_, rfl, h.active⟩
  · apply h.inv.rest h.mem h.active h.newest
    intro k hk
    obtain ⟨p, hp⟩ := List.exists_mem_of_ne_nil _ hk
    obtain ⟨q, hq, hqk, -⟩ := Book.mem_of_queue hp
    rw [← hqk]
    exact hlevels q hq
  · rw [Reference.matchOffer_of_none (best?_eq_none_of_levels h.inv h.sim hlevels)]
    exact (h.sim.rest h.mem h.owned).setBook _ _
  · rw [Market.addActiveOffer, Market.setBook_heap]
    exact h.mem

/-- A dead back entry goes. -/
theorem purge (h : Posting this s a) (hq : q ∈ s.book this.type.opposite) {p : Nat}
    (hback : q.back? = some p) (hdead : ∀ u, ¬ s.Owns u p) :
    Posting this
      (s.setBook this.type.opposite ((s.book this.type.opposite).dropBack q.price)) a where
  inv := h.inv.purge (by rw [Book.queue_of_mem hq]; exact hback) hdead
  sim := h.sim.setBook _ _
  mem := by rw [Market.setBook_heap]; exact h.mem
  active := h.active
  owned := (Market.owns_congr (Market.setBook_users _ _) _ _).mpr h.owned
  newest := by rw [Market.setBook_heap]; exact h.newest

/-- A deal that leaves something of the posted offer. -/
theorem deal (h : Posting this s a) (hd : Dealt s s' this other) (hother : other ∈ s.heap)
    (hne : this.id ≠ other.id) (hlive : s.Owns other.ownerId other.id)
    (hback : ((s.book this.type.opposite).queue other.price).getLast? = some other.id)
    (hleft : (this.reduce (tradedAmount this other)).amount ≠ 0) :
    Posting (this.reduce (tradedAmount this other)) s' (a.trade this.view other.view) where
  inv := h.inv.dealt hd h.mem hother hne hback
  sim := h.sim.dealt h.inv hd h.mem hother hne hlive
  mem := (hd.mem_heap h.mem hother hne).mpr (.inl rfl)
  active := by rw [Offer.reduce_status_of_ne hleft]; exact h.active
  owned := (hd.owns_iff _ _).mpr ⟨h.owned, fun gone => hne gone.2.2⟩
  newest := by
    intro y hy
    rcases (hd.mem_heap h.mem hother hne).mp hy with rfl | rfl | ⟨hy, -⟩
    · exact le_refl _
    · exact h.newest other hother
    · exact h.newest y hy

/-- A deal that fills the posted offer. -/
theorem filled (h : Posting this s a) (hd : Dealt s s' this other) (hother : other ∈ s.heap)
    (hne : this.id ≠ other.id) (hlive : s.Owns other.ownerId other.id)
    (hback : ((s.book this.type.opposite).queue other.price).getLast? = some other.id)
    (hnone : (this.reduce (tradedAmount this other)).amount = 0) :
    LoopEnd this s' (a.trade this.view other.view) := by
  right
  refine ⟨h.inv.dealt hd h.mem hother hne hback, h.sim.dealt h.inv hd h.mem hother hne hlive,
    (hd.owns_iff _ _).mpr ⟨h.owned, fun gone => hne gone.2.2⟩,
    this.reduce (tradedAmount this other), ?_, rfl, rfl, ?_⟩
  · exact (hd.mem_heap h.mem hother hne).mpr (.inl rfl)
  · exact (Offer.reduce_status h.active).mpr hnone

/-- A deal that leaves something of the posted offer filled the resting one, and its entry is
gone. -/
theorem entries_lt (h : Posting this s a) (hd : Dealt s s' this other)
    (hq : q ∈ s.book this.type.opposite) (hprice : other.price = q.price)
    (hleft : (this.reduce (tradedAmount this other)).amount ≠ 0) :
    Market.entries (s'.book this.type.opposite) <
      Market.entries (s.book this.type.opposite) := by
  have hfill : Filled this other := by
    rw [filled_iff]
    have hthis := this_left this other
    have hpos : (this.reduce (tradedAmount this other)).amount.toNat ≠ 0 :=
      fun e => hleft (UInt64.toNat_inj.mp e)
    omega
  have hdrop := Book.entries_dropBack hq ((h.inv.book this.type.opposite).noEmpty q hq)
  rw [(hd.filled hfill).1, hprice]
  omega

end Posting

/-- The loop of a posted offer, with more fuel than there are entries in the opposite book. Each
pass ends the loop or takes an entry, by induction on the fuel. -/
theorem processLoop_spec (fuel : Nat) : ∀ {s : Market} {a : Reference} {this : Offer},
    Posting this s a → Market.entries (s.book this.type.opposite) < fuel →
    ∃ s', Market.processLoop (Market.borderPricePredicate this.type)
      (Market.getBestOffers this.type) this.id fuel s = (.ok (), s') ∧
      LoopEnd this s' (a.matchOffer this.view) := by
  induction fuel with
  | zero => intro s a this _ hfuel; omega
  | succ fuel ih =>
    intro s a this h hfuel
    have hfind : s.heap.find? this.id = some this := KeySet.find?_of_mem h.mem
    have hreg : ∃ d, s.users.find? this.ownerId = some d := by
      obtain ⟨d, hd, -⟩ := h.owned
      exact ⟨d, hd⟩
    have hnot : ¬ this.status = .FULLFILLED := by rw [h.active]; decide
    simp only [Market.processLoop, hfind, if_neg hnot]
    rcases processPass_cases h.inv h.sim h.mem hreg with
      ⟨hpass, hlevels⟩ | ⟨q, hq, p, hp, hdead, hpass⟩ |
      ⟨q, hq, other, s', hpass, hd, hother, hne, hlive, hprice, hback, hbest⟩
    · rw [hpass]
      exact ⟨_, rfl, h.rest hlevels⟩
    · -- a dead entry goes, and there is one entry less
      rw [hpass]
      apply ih (h.purge hq hp hdead)
      have hdrop := Book.entries_dropBack hq ((h.inv.book this.type.opposite).noEmpty q hq)
      rw [Market.book_setBook, if_pos rfl]
      omega
    · -- a deal: the offer is filled, or the resting one was and there is one entry less
      rw [hpass]
      have hqueue : ((s.book this.type.opposite).queue other.price).getLast? = some other.id := by
        rw [hprice, Book.queue_of_mem hq]
        exact hback
      rw [Reference.matchOffer_of_some hbest, remainder_view]
      by_cases hleft : (this.reduce (tradedAmount this other)).amount = 0
      · rw [if_pos (by simp [Offer.view, hleft])]
        -- the level had an entry, so fuel is left for the pass that sees the fill
        obtain ⟨fuel, rfl⟩ : ∃ n, fuel = n + 1 := by
          have hdrop := Book.entries_dropBack hq ((h.inv.book this.type.opposite).noEmpty q hq)
          exact ⟨fuel - 1, by omega⟩
        have hthis' : this.reduce (tradedAmount this other) ∈ s'.heap :=
          (hd.mem_heap h.mem hother hne).mpr (.inl rfl)
        have hfind' : s'.heap.find? this.id = some (this.reduce (tradedAmount this other)) :=
          KeySet.find?_of_mem hthis'
        have hfull := (Offer.reduce_status h.active).mpr hleft
        refine ⟨s', ?_, h.filled hd hother hne hlive hqueue hleft⟩
        simp only [Market.processLoop, hfind', if_pos hfull]
      · have hview : (this.reduce (tradedAmount this other)).view.amount ≠ 0 := by
          intro e
          exact hleft (UInt64.toNat_inj.mp e)
        have hfewer := h.entries_lt hd hq hprice hleft
        rw [if_neg hview]
        apply ih (h.deal hd hother hne hlive hqueue hleft)
        show Market.entries (s'.book this.type.opposite) < fuel
        omega

end ForexMarket
