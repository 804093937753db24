import ForexMarket.Model.Access
import ForexMarket.Proofs.Refinement

/- What the reads of the matching loop through `best_offers` and `best_offer` find. A node
   in the book is found under every meaning of such a read (`Access.Sound`), so the loop
   goes on as the loop of the market up to the first read of a node it has removed, which
   is the entry of a filled resting offer. Where a removed node is kept, the call is the
   call of the market (`postOfferAt_kept`). -/
namespace ForexMarket

/-- A node in the book is found. -/
structure Access.Sound (A : Access) : Prop where
  level : ∀ {s : Market} {t : OfferType} {price : Int} {q : OfferQueue},
    (s.book t).find? price = some q → A.level s t price = some q.offers
  entry : ∀ {s : Market} {t : OfferType} {price : Int} {p : Nat},
    p ∈ (s.book t).queue price → A.entry s t price p = some p

namespace Access

theorem present_sound : Sound present where
  level := fun h => by simp only [present, h, Option.map_some]
  entry := by
    intro s t price p hp
    unfold Book.queue at hp
    cases hf : (s.book t).find? price with
    | none => simp [hf] at hp
    | some q =>
      rw [hf] at hp
      simp only [present, hf, Option.bind_some]
      exact if_pos hp

theorem kept_sound : Sound kept where
  level := fun h => by simp only [kept, h, Option.map_some, Option.getD_some]
  entry := fun _ => rfl

/-- An entry that is in no level of the price is not present. -/
theorem present_entry_none {s : Market} {t : OfferType} {price : Int} {p : Nat}
    (h : p ∉ (s.book t).queue price) : present.entry s t price p = none := by
  unfold Book.queue at h
  cases hf : (s.book t).find? price with
  | none => simp only [present, hf, Option.bind_none]
  | some q =>
    rw [hf] at h
    simp only [present, hf, Option.bind_some]
    exact if_neg h

end Access

/-! The steps of the loops on nodes in the book. -/

namespace Market

variable {A : Access} {s : Market} {t : OfferType} {price : Int} {q : OfferQueue}

theorem popEntry_eq (hA : A.Sound) (hq : (s.book t).find? price = some q) :
    popEntry A s t price = .ok (s.setBook t ((s.book t).popBack price)) := by
  unfold popEntry
  rw [hA.level hq]
  rfl

theorem eraseLevel_eq (hA : A.Sound) (hq : (s.book t).find? price = some q) :
    eraseLevel A s t price = .ok (s.setBook t ((s.book t).eraseIfEmpty price)) := by
  unfold eraseLevel Book.eraseIfEmpty
  rw [hA.level hq, hq]
  show Except.ok (if q.offers.isEmpty then _ else s) = _
  by_cases he : q.offers.isEmpty = true
  · simp only [he, if_true]
  · simp only [he, setBook_book, Bool.false_eq_true, if_false]

theorem backEntry_eq (hA : A.Sound) (hq : (s.book t).find? price = some q) {p : Nat}
    (hp : q.back? = some p) : backEntry A s t price = .ok p := by
  unfold backEntry
  rw [hA.level hq]
  show found q.offers.getLast? = _
  rw [show q.offers.getLast? = some p from hp]
  rfl

/-- With the entry gone, the level goes when it was the last one. -/
theorem eraseLevel_popped (hA : A.Sound) (hq : (s.book t).find? price = some q) :
    eraseLevel A (s.setBook t ((s.book t).popBack price)) t price =
      .ok (s.setBook t ((s.book t).dropBack price)) := by
  have hpop : ((s.setBook t ((s.book t).popBack price)).book t).find? price =
      some q.popBack := by
    rw [book_setBook, if_pos rfl, Book.find?_popBack, if_pos rfl, hq]
    rfl
  rw [eraseLevel_eq hA hpop, book_setBook, if_pos rfl, setBook_setBook]
  rfl

/-- A live entry leads to its offer. -/
theorem lockEntry_eq {other : Offer} {u : Nat} (locals : List Nat) (hother : other ∈ s.heap)
    (hlive : s.Owns u other.id) (hp : A.entry s t price other.id = some other.id) :
    lockEntry A s locals t price other.id = .ok other := by
  unfold lockEntry
  rw [hp]
  show found (s.lock locals other.id) = _
  rw [(lock_of_owns locals hother hlive).2]
  rfl

end Market

/-! One pass of the matching loop. -/

section Pass

variable {A : Access} {s : Market} {a : Reference} {this other : Offer} {q : OfferQueue}

/-- The pass of an incoming offer. -/
abbrev Market.passAt (A : Access) (s : Market) (this : Offer) : Except Fault (Bool × Market) :=
  Market.processPassAt A (Market.borderPricePredicate this.type) (Market.getBestOffers this.type)
    this.id s

/-- The pass ends the loop where no level crosses. -/
theorem passAt_stop (A : Access) (hthis : this ∈ s.heap)
    (hguard : ((s.book this.type.opposite).isEmpty ||
      !Market.borderPricePredicate this.type (s.book this.type.opposite) this.price) = true) :
    s.passAt A this = .ok (false, s.addActiveOffer this) := by
  unfold Market.passAt Market.processPassAt
  rw [KeySet.find?_of_mem hthis]
  exact if_pos hguard

/-- Otherwise it reads the back entry of the best level. -/
theorem passAt_best (hA : A.Sound) (hthis : this ∈ s.heap)
    (hguard : ((s.book this.type.opposite).isEmpty ||
      !Market.borderPricePredicate this.type (s.book this.type.opposite) this.price) = false)
    (hq : q ∈ s.book this.type.opposite)
    (hbest : Market.getBestOffers this.type (s.book this.type.opposite) = some q) {p : Nat}
    (hp : q.back? = some p) :
    s.passAt A this =
      if s.expired [this.id] p then
        (Market.popEntry A s this.type.opposite q.price).bind fun s₁ =>
          (Market.eraseLevel A s₁ this.type.opposite q.price).bind fun s₂ => .ok (true, s₂)
      else (Market.lockEntry A s [this.id] this.type.opposite q.price p).bind fun other =>
        match s.makeDeal this other with
        | none => .error .logicError
        | some (_, deal, s₁) =>
          match s₁.registerDeal deal with
          | none => .error .outOfRange
          | some s₂ => (Market.settleEntry A this.id (s₂.updateQuote deal) this.type.opposite
              q.price p).bind fun s₃ => .ok (true, s₃) := by
  have hfind := KeySet.find?_of_mem hq
  have hentry : A.entry s this.type.opposite q.price p = some p := by
    apply hA.entry
    rw [Book.queue_of_mem hq]
    exact List.mem_of_mem_getLast? hp
  unfold Market.passAt Market.processPassAt
  rw [KeySet.find?_of_mem hthis]
  simp only [found_some, bind, Except.bind, hguard, Bool.false_eq_true, if_false, hbest,
    Market.backEntry_eq hA hfind hp, hentry]
  rfl

/-- A dead back entry goes. -/
theorem passAt_purge (hA : A.Sound) (hthis : this ∈ s.heap)
    (hguard : ((s.book this.type.opposite).isEmpty ||
      !Market.borderPricePredicate this.type (s.book this.type.opposite) this.price) = false)
    (hq : q ∈ s.book this.type.opposite)
    (hbest : Market.getBestOffers this.type (s.book this.type.opposite) = some q) {p : Nat}
    (hp : q.back? = some p) (hexp : s.expired [this.id] p = true) :
    s.passAt A this = .ok (true,
      s.setBook this.type.opposite ((s.book this.type.opposite).dropBack q.price)) := by
  have hfind := KeySet.find?_of_mem hq
  rw [passAt_best hA hthis hguard hq hbest hp, if_pos hexp]
  simp only [Except.bind, Market.popEntry_eq hA hfind, Market.eraseLevel_popped hA hfind]

/-- With a live back entry it makes the deal, and looks at the entry again. -/
theorem passAt_deal (hA : A.Sound) (hthis : this ∈ s.heap)
    (hreg : ∃ d, s.users.find? this.ownerId = some d)
    (hguard : ((s.book this.type.opposite).isEmpty ||
      !Market.borderPricePredicate this.type (s.book this.type.opposite) this.price) = false)
    (hq : q ∈ s.book this.type.opposite)
    (hbest : Market.getBestOffers this.type (s.book this.type.opposite) = some q)
    (hp : q.back? = some other.id) (hother : other ∈ s.heap)
    (ht : other.type = this.type.opposite) (hlive : s.Owns other.ownerId other.id) :
    s.passAt A this =
      (Market.settleEntry A this.id (s.registered this other) this.type.opposite q.price
        other.id).bind fun s₃ => .ok (true, s₃) := by
  obtain ⟨e, he, -⟩ := id hlive
  have hmem : other.id ∈ (s.book this.type.opposite).queue q.price := by
    rw [Book.queue_of_mem hq]
    exact List.mem_of_mem_getLast? hp
  have hlock := Market.lockEntry_eq [this.id] hother hlive (hA.entry hmem)
  have hexp := (Market.lock_of_owns [this.id] hother hlive).1
  rw [passAt_best hA hthis hguard hq hbest hp]
  simp only [hexp, Bool.false_eq_true, if_false, hlock, Except.bind, Market.makeDeal_made ht,
    Market.registerDeal_made hreg ⟨e, he⟩]
  rfl

/-! The reads after the deal. -/

/-- The deal leaves the offers where they are held. -/
theorem Market.owns_registered (s : Market) (this other : Offer) (u p : Nat) :
    (s.registered this other).Owns u p ↔ s.Owns u p := by
  show (∃ d, (Market.settle s.users _).find? u = some d ∧ _) ↔ _
  rw [Market.find?_settle, Market.Owns]
  cases s.users.find? u <;> simp

theorem Market.mem_registered (hother : other ∈ s.heap) :
    other.reduce (tradedAmount this other) ∈ (s.registered this other).heap := by
  refine KeySet.mem_store.mpr (.inr ⟨rfl, ?_⟩)
  by_cases he : other.id = this.id
  · exact ⟨_, KeySet.mem_store.mpr (.inr ⟨rfl, other, hother, he⟩), he.symm⟩
  · exact ⟨other, KeySet.mem_store.mpr (.inl ⟨hother, he⟩), rfl⟩

/-- The entry, where it is found, leads to what the deal left of its offer. -/
theorem Market.lockEntry_registered {s₁ : Market} {t : OfferType} {price : Int}
    (hother : other ∈ s.heap) (hlive : s.Owns other.ownerId other.id)
    (hheap : s₁.heap = (s.registered this other).heap)
    (husers : s₁.users = (s.registered this other).users)
    (hentry : A.entry s₁ t price other.id = some other.id) :
    Market.lockEntry A s₁ [this.id] t price other.id =
      .ok (other.reduce (tradedAmount this other)) := by
  have hmem : other.reduce (tradedAmount this other) ∈ s₁.heap := by
    rw [hheap]
    exact Market.mem_registered hother
  have hown : s₁.Owns other.ownerId other.id := by
    rw [Market.owns_congr husers, Market.owns_registered]
    exact hlive
  exact Market.lockEntry_eq [this.id] hmem hown hentry

/-- A resting offer that keeps an amount is looked at once. -/
theorem settleEntry_kept (hA : A.Sound) {price : Int} {t : OfferType} (hother : other ∈ s.heap)
    (hact : other.status = .ACTIVE) (hlive : s.Owns other.ownerId other.id)
    (hmem : other.id ∈ (s.book t).queue price) (hf : ¬ Filled this other) :
    Market.settleEntry A this.id (s.registered this other) t price other.id =
      .ok (s.registered this other) := by
  have hentry : A.entry (s.registered this other) t price other.id = some other.id := by
    apply hA.entry
    rw [Market.book_registered]
    exact hmem
  have hstatus : ¬ (other.reduce (tradedAmount this other)).status = .FULLFILLED :=
    fun h => hf ((Offer.reduce_status hact).mp h)
  unfold Market.settleEntry
  rw [Market.lockEntry_registered hother hlive rfl rfl hentry]
  exact if_neg hstatus

/-- A filled resting offer is looked at twice more, after its entry was popped. -/
theorem settleEntry_filled (hA : A.Sound) {t : OfferType} (hother : other ∈ s.heap)
    (hact : other.status = .ACTIVE) (hlive : s.Owns other.ownerId other.id)
    (hq : q ∈ s.book t) (hmem : other.id ∈ q.offers) (hf : Filled this other) :
    Market.settleEntry A this.id (s.registered this other) t q.price other.id =
      (Market.lockEntry A (s.popped this other t q.price) [this.id] t q.price other.id).bind
        fun owner =>
          (Market.lockEntry A (s.popped this other t q.price) [this.id] t q.price other.id).bind
            fun removed =>
              match (s.popped this other t q.price).removeActiveOffer owner.ownerId removed.id with
              | none => .error .outOfRange
              | some (_, s₂) => Market.eraseLevel A s₂ t q.price := by
  have hfind : ((s.registered this other).book t).find? q.price = some q := by
    rw [Market.book_registered]
    exact KeySet.find?_of_mem hq
  have hentry : A.entry (s.registered this other) t q.price other.id = some other.id := by
    apply hA.entry
    rw [Market.book_registered, Book.queue_of_mem hq]
    exact hmem
  have hstatus : (other.reduce (tradedAmount this other)).status = .FULLFILLED :=
    (Offer.reduce_status hact).mpr hf
  unfold Market.settleEntry
  rw [Market.lockEntry_registered hother hlive rfl rfl hentry]
  simp only [bind, Except.bind, if_pos hstatus, Market.popEntry_eq hA hfind]
  rfl

/-- The popped entry is not present any more. -/
theorem popped_not_present {t : OfferType} {pending : Option Nat} (hi : Inv pending s)
    (hq : q ∈ s.book t) (hp : q.back? = some other.id) :
    Access.present.entry (s.popped this other t q.price) t q.price other.id = none := by
  apply Access.present_entry_none
  have hfind : ((s.popped this other t q.price).book t).find? q.price = some q.popBack := by
    rw [Market.popped, Market.book_setBook, if_pos rfl, Market.book_registered, Book.find?_popBack,
      if_pos rfl, KeySet.find?_of_mem hq]
    rfl
  have hdesc := (hi.book t).desc q.price
  rw [Book.queue_of_mem hq] at hdesc
  obtain ⟨l, hl⟩ := List.getLast?_eq_some_iff.mp hp
  show other.id ∉ Book.queue _ _
  unfold Book.queue
  rw [hfind]
  show other.id ∉ q.offers.dropLast
  rw [hl] at hdesc ⊢
  rw [List.dropLast_concat]
  intro hin
  exact lt_irrefl _ ((List.pairwise_append.mp hdesc).2.2 other.id hin other.id (by simp))

/-- Read where removed nodes are gone, a filled resting offer is missed. -/
theorem settleEntry_present {t : OfferType} {pending : Option Nat} (hi : Inv pending s)
    (hother : other ∈ s.heap) (hact : other.status = .ACTIVE)
    (hlive : s.Owns other.ownerId other.id) (hq : q ∈ s.book t) (hp : q.back? = some other.id)
    (hf : Filled this other) :
    Market.settleEntry .present this.id (s.registered this other) t q.price other.id =
      .error .undefined := by
  rw [settleEntry_filled Access.present_sound hother hact hlive hq (List.mem_of_mem_getLast? hp) hf]
  unfold Market.lockEntry
  rw [popped_not_present hi hq hp]
  rfl

end Pass

/-! The matching loop. -/

section Loop

variable {A : Access} {s s' : Market} {a : Reference} {this : Offer}

/-- How a pass ends, without the state of a fault. -/
def Market.Pass.result : Market.Pass → Except Fault (Bool × Market)
  | .stop s => .ok (false, s)
  | .again s => .ok (true, s)
  | .fault f _ => .error f

/-- A pass that finds the entry of the offer it fills does what the pass of the market does. -/
theorem passAt_eq (hA : A.Sound) (h : Posting this s a)
    (hread : ∀ (q : OfferQueue) (other : Offer), Filled this other →
      a.best? this.view = some other.view →
      A.entry (s.popped this other this.type.opposite q.price) this.type.opposite q.price
        other.id = some other.id) :
    s.passAt A this = (Market.processPass (Market.borderPricePredicate this.type)
      (Market.getBestOffers this.type) this.id s).result := by
  have hfind : s.heap.find? this.id = some this := KeySet.find?_of_mem h.mem
  cases meets h.inv h.sim with
  | nothing hguard _ =>
    rw [passAt_stop _ h.mem hguard]
    simp only [Market.processPass, hfind, hguard, if_true, Market.Pass.result]
  | dead q p hguard hq hbest hp _ hexp =>
    rw [passAt_purge hA h.mem hguard hq hbest hp hexp]
    simp only [Market.processPass, hfind, hguard, hbest, hp, hexp, Bool.false_eq_true, if_false,
      if_true, Book.dropBack, Market.Pass.result]
  | live q other hguard hq hbest hp hother _ ht _ hact hlive htaken =>
    obtain ⟨d, hd, -⟩ := id h.owned
    have hmem := List.mem_of_mem_getLast? hp
    have hstatus := Offer.reduce_status (d := tradedAmount this other) hact
    rw [passAt_deal hA h.mem ⟨d, hd⟩ hguard hq hbest hp hother ht hlive,
      processPass_live h.mem ⟨d, hd⟩ hguard hbest hp hother ht hlive]
    by_cases hf : Filled this other
    · obtain ⟨b, s₅, hremove, hr⟩ := Market.popped_release this hlive this.type.opposite
        q.price
      have hlevel : (s₅.book this.type.opposite).find? q.price = some q.popBack := by
        rw [hr.book, Market.popped, Market.book_setBook, if_pos rfl, Market.book_registered,
          Book.find?_popBack, if_pos rfl, KeySet.find?_of_mem hq]
        rfl
      have hlock : Market.lockEntry A (s.popped this other this.type.opposite q.price)
          [this.id] this.type.opposite q.price other.id =
            .ok (other.reduce (tradedAmount this other)) :=
        Market.lockEntry_registered hother hlive (Market.setBook_heap _ _)
          (Market.setBook_users _ _) (hread q other hf htaken)
      rw [if_pos (hstatus.mpr hf), hremove,
        settleEntry_filled hA hother hact hlive hq hmem hf, hlock]
      simp only [Except.bind, Offer.reduce_ownerId, Offer.reduce_id, hremove,
        Market.eraseLevel_eq hA hlevel]
      rfl
    · have hqueue : other.id ∈ (s.book this.type.opposite).queue q.price := by
        rw [Book.queue_of_mem hq]
        exact hmem
      rw [if_neg (mt hstatus.mp hf), settleEntry_kept hA hother hact hlive hqueue hf]
      rfl

/-- A loop each of whose passes does what the pass of the market does ends as the loop of the
market, by induction on the fuel. `Ok` is what lets the passes do so. -/
theorem processLoopAt_eq {Ok : Offer → Reference → Prop}
    (hpass : ∀ {s a this}, Posting this s a → Ok this a →
      s.passAt A this = (Market.processPass (Market.borderPricePredicate this.type)
        (Market.getBestOffers this.type) this.id s).result)
    (hnext : ∀ {a this other}, Ok this a → a.best? this.view = some other.view →
      (this.reduce (tradedAmount this other)).amount ≠ 0 →
      Ok (this.reduce (tradedAmount this other)) (a.trade this.view other.view))
    (fuel : Nat) : ∀ {s s' : Market} {a : Reference} {this : Offer},
    Posting this s a → Ok this a →
    Market.processLoop (Market.borderPricePredicate this.type) (Market.getBestOffers this.type)
      this.id fuel s = (.ok (), s') →
    Market.processLoopAt A (Market.borderPricePredicate this.type)
      (Market.getBestOffers this.type) this.id fuel s = .ok s' := by
  induction fuel with
  | zero => intro s s' a this _ _ hloop; cases hloop
  | succ fuel ih =>
    intro s s' a this h hok hloop
    have hfind : s.heap.find? this.id = some this := KeySet.find?_of_mem h.mem
    have hreg : ∃ d, s.users.find? this.ownerId = some d := by
      obtain ⟨d, hd, -⟩ := h.owned
      exact ⟨d, hd⟩
    have hnot : ¬ this.status = .FULLFILLED := by rw [h.active]; decide
    have hat := hpass h hok
    simp only [Market.processLoop, hfind, if_neg hnot] at hloop
    simp only [Market.processLoopAt, hfind, found_some, bind, Except.bind, if_neg hnot]
    rcases processPass_cases h.inv h.sim h.mem hreg with
      ⟨hp, -⟩ | ⟨q, hq, p, hback, hdead, hp⟩ |
      ⟨q, hq, other, s₁, hp, hd, hother, hne, hlive, hprice, hback, hbest⟩
    · rw [hp] at hat hloop
      rw [show Market.processPassAt A _ _ this.id s = _ from hat]
      cases hloop
      rfl
    · rw [hp] at hat hloop
      rw [show Market.processPassAt A _ _ this.id s = _ from hat]
      exact ih (h.purge hq hback hdead) hok hloop
    · rw [hp] at hat hloop
      rw [show Market.processPassAt A _ _ this.id s = _ from hat]
      have hqueue : ((s.book this.type.opposite).queue other.price).getLast? = some other.id := by
        rw [hprice, Book.queue_of_mem hq]
        exact hback
      show Market.processLoopAt A _ _ this.id fuel s₁ = _
      by_cases hleft : (this.reduce (tradedAmount this other)).amount = 0
      · -- the pass that sees the fill
        have hfind' : s₁.heap.find? this.id = some (this.reduce (tradedAmount this other)) :=
          KeySet.find?_of_mem ((hd.mem_heap h.mem hother hne).mpr (.inl rfl))
        have hfull := (Offer.reduce_status h.active).mpr hleft
        cases fuel with
        | zero => cases hloop
        | succ fuel =>
          simp only [Market.processLoop, hfind', if_pos hfull] at hloop
          simp only [Market.processLoopAt, hfind', found_some, bind, Except.bind, if_pos hfull]
          cases hloop
          rfl
      · have hrest := h.deal hd hother hne hlive hqueue hleft
        have hgo := ih hrest (hnext hok hbest hleft) hloop
        exact hgo

/-- `ProcessOffer` goes as its loop does: what follows the loop reads no node. -/
theorem processOfferAt_eq {border : Book → Int → Bool} {best : Book → Option OfferQueue}
    {offer : Nat}
    (hloop : ∀ s', Market.processLoop border best offer
      (Market.entries s.activeBuyOffers + Market.entries s.activeSellOffers + 1) s = (.ok (), s') →
      Market.processLoopAt A border best offer
        (Market.entries s.activeBuyOffers + Market.entries s.activeSellOffers + 1) s = .ok s')
    (hprocess : Market.processOffer border best offer s = (.ok (), s')) :
    Market.processOfferAt A border best offer s = .ok s' := by
  unfold Market.processOffer at hprocess
  unfold Market.processOfferAt
  split at hprocess
  · next f s₁ hl => cases hprocess
  · next s₁ hl =>
    rw [hloop s₁ hl]
    simp only [bind, Except.bind]
    cases hf : s₁.heap.find? offer with
    | none => rw [hf] at hprocess; cases hprocess
    | some x =>
      rw [hf] at hprocess
      simp only [found_some] at hprocess ⊢
      by_cases hfull : x.status = .FULLFILLED
      · rw [if_pos hfull] at hprocess ⊢
        cases hr : s₁.removeActiveOffer x.ownerId x.id with
        | none => rw [hr] at hprocess; cases hprocess
        | some r =>
          rw [hr] at hprocess
          cases hprocess
          rfl
      · rw [if_neg hfull] at hprocess ⊢
        cases hprocess
        rfl

end Loop

/-! `PostOffer`. -/

section PostOffer

variable {A : Access} {s : Market} {a : Reference}

/-- The offer a call posts, as the reference sees it. -/
def Reference.incoming (a : Reference) (u : Nat) (type : OfferType) (price : Int)
    (amount : UInt64) : OfferView :=
  { id := a.offerId, ownerId := u, type := type, price := price, amount := amount.toNat }

/-- The call of a registered user whose passes do what the passes of the market do does what the
call of the market does. -/
theorem postOfferAt_eq (Ok : Offer → Reference → Prop)
    (hpass : ∀ {s a this}, Posting this s a → Ok this a →
      s.passAt A this = (Market.processPass (Market.borderPricePredicate this.type)
        (Market.getBestOffers this.type) this.id s).result)
    (hnext : ∀ {a this other}, Ok this a → a.best? this.view = some other.view →
      (this.reduce (tradedAmount this other)).amount ≠ 0 →
      Ok (this.reduce (tradedAmount this other)) (a.trade this.view other.view))
    (hi : Inv none s) (hs : Sim none s a) {u : Nat} (hu : ∃ d, s.users.find? u = some d)
    (type : OfferType) (price : Int) (amount : UInt64)
    (hok : Ok (Offer.make s.offerId u type price amount) { a with offerId := a.offerId + 1 }) :
    ∃ s', Market.postOfferAt A s u type price amount = .ok (s.offerId, s') ∧
      s.postOffer u type price amount = (.ok s.offerId, s') := by
  obtain ⟨s₁, hat, hstart⟩ := postOffer_start hi hs hu type price amount
  obtain ⟨s', hprocess, -⟩ := processOffer_spec hstart
  have hprocess : s₁.processOffer (Market.borderPricePredicate type) (Market.getBestOffers type)
      (Offer.make s.offerId u type price amount).id = (.ok (), s') := hprocess
  have hprocessAt : Market.processOfferAt A (Market.borderPricePredicate type)
      (Market.getBestOffers type) (Offer.make s.offerId u type price amount).id s₁ = .ok s' :=
    processOfferAt_eq (fun s' hloop => processLoopAt_eq hpass hnext _ hstart hok hloop) hprocess
  refine ⟨s', ?_, ?_⟩
  · simp only [Market.postOfferAt, hat, hprocessAt, bind, Except.bind]
    rfl
  · simp only [Market.postOffer, hat, hprocess]
    rfl

/-- With removed nodes kept, the call of a registered user is the call of the market. -/
theorem postOfferAt_kept (hi : Inv none s) (hs : Sim none s a) {u : Nat}
    (hu : ∃ d, s.users.find? u = some d) (type : OfferType) (price : Int) (amount : UInt64) :
    ∃ s', Market.postOfferAt .kept s u type price amount = .ok (s.offerId, s') ∧
      s.postOffer u type price amount = (.ok s.offerId, s') :=
  postOfferAt_eq (fun _ _ => True)
    (fun h _ => passAt_eq Access.kept_sound h fun _ _ _ _ => rfl) (fun _ _ _ => trivial) hi hs hu
    type price amount trivial

/-- With removed nodes gone, it is so where the offer met first is larger than the posted one. -/
theorem postOfferAt_present (hi : Inv none s) (hs : Sim none s a) {u : Nat}
    (hu : ∃ d, s.users.find? u = some d) (type : OfferType) (price : Int) (amount : UInt64)
    (hlarger : ∀ r, a.best? (a.incoming u type price amount) = some r → amount.toNat < r.amount) :
    ∃ s', Market.postOfferAt .present s u type price amount = .ok (s.offerId, s') ∧
      s.postOffer u type price amount = (.ok s.offerId, s') := by
  refine postOfferAt_eq (fun this a => ∀ r, a.best? this.view = some r →
    this.amount.toNat < r.amount) ?_ ?_ hi hs hu type price amount ?_
  · intro s a this h hok
    apply passAt_eq Access.present_sound h
    intro q other hf htaken
    -- the resting offer is larger, so it is not filled
    have hlt := hok _ htaken
    have hfilled := (filled_iff this other).mp hf
    simp only [Offer.view] at hlt
    omega
  · intro a this other hok htaken hleft
    have hlt := hok _ htaken
    have hthis := this_left this other
    simp only [Offer.view] at hlt
    exact absurd (UInt64.toNat_inj.mp (show _ = (0 : UInt64).toNat by
      rw [hthis, UInt64.toNat_zero]; omega)) hleft
  · intro r hr
    apply hlarger r
    rw [← hr, Reference.incoming, Offer.make, Offer.view, ← hs.offerId]
    rfl

/-- A pass of the loop with removed nodes gone misses the entry of the offer it fills. -/
theorem passAt_missed {this : Offer} {r : OfferView} (h : Posting this s a)
    (hr : a.best? this.view = some r) (hfill : r.amount ≤ this.amount.toNat) :
    s.passAt .present this = .error .undefined ∨
      ∃ s', s.passAt .present this = .ok (true, s') ∧ Posting this s' a ∧
        Market.entries (s'.book this.type.opposite) <
          Market.entries (s.book this.type.opposite) := by
  have hsound := Access.present_sound
  cases meets h.inv h.sim with
  | nothing _ hlevels =>
    rw [best?_eq_none_of_levels h.inv h.sim hlevels] at hr
    cases hr
  | dead q p hguard hq hbest hp hdead hexp =>
    right
    refine ⟨_, passAt_purge hsound h.mem hguard hq hbest hp hexp, h.purge hq hp hdead, ?_⟩
    have hdrop := Book.entries_dropBack hq ((h.inv.book this.type.opposite).noEmpty q hq)
    rw [Market.book_setBook, if_pos rfl]
    omega
  | live q other hguard hq hbest hp hother _ ht _ hact hlive htaken =>
    left
    obtain ⟨d, hd, -⟩ := id h.owned
    have hview : other.view = r := Option.some.inj (htaken.symm.trans hr)
    have hf : Filled this other := by
      rw [← hview] at hfill
      simp only [Offer.view] at hfill
      rw [filled_iff]
      omega
    rw [passAt_deal hsound h.mem ⟨d, hd⟩ hguard hq hbest hp hother ht hlive,
      settleEntry_present h.inv hother hact hlive hq hp hf]
    rfl

/-- So does the loop: it drops dead entries until it meets that offer. -/
theorem processLoopAt_missed (fuel : Nat) : ∀ {s : Market} {a : Reference} {this : Offer}
    {r : OfferView}, Posting this s a → a.best? this.view = some r →
    r.amount ≤ this.amount.toNat → Market.entries (s.book this.type.opposite) < fuel →
    Market.processLoopAt .present (Market.borderPricePredicate this.type)
      (Market.getBestOffers this.type) this.id fuel s = .error .undefined := by
  induction fuel with
  | zero => intro s a this r _ _ _ hfuel; omega
  | succ fuel ih =>
    intro s a this r h hr hfill hfuel
    have hfind : s.heap.find? this.id = some this := KeySet.find?_of_mem h.mem
    have hnot : ¬ this.status = .FULLFILLED := by rw [h.active]; decide
    simp only [Market.processLoopAt, hfind, found_some, bind, Except.bind, if_neg hnot]
    rcases passAt_missed h hr hfill with hmiss | ⟨s', hpass, h', hfewer⟩
    · rw [show Market.processPassAt .present _ _ this.id s = _ from hmiss]
    · rw [show Market.processPassAt .present _ _ this.id s = _ from hpass]
      apply ih h' hr hfill
      omega

/-- With removed nodes gone, the call is undefined where the offer met first is filled. -/
theorem postOfferAt_missed (hi : Inv none s) (hs : Sim none s a) {u : Nat}
    (hu : ∃ d, s.users.find? u = some d) (type : OfferType) (price : Int) (amount : UInt64)
    {r : OfferView} (hr : a.best? (a.incoming u type price amount) = some r)
    (hfill : r.amount ≤ amount.toNat) :
    Market.postOfferAt .present s u type price amount = .error .undefined := by
  obtain ⟨s₁, hat, hstart⟩ := postOffer_start hi hs hu type price amount
  have hfuel : Market.entries (s₁.book type.opposite) <
      Market.entries s₁.activeBuyOffers + Market.entries s₁.activeSellOffers + 1 := by
    cases type <;> simp only [OfferType.opposite, Market.book] <;> omega
  have hbest : Reference.best? { a with offerId := a.offerId + 1 }
      (Offer.make s.offerId u type price amount).view = some r := by
    rw [← hr, Reference.incoming, Offer.make, Offer.view, ← hs.offerId]
    rfl
  have hloop := processLoopAt_missed _ hstart hbest hfill hfuel
  have hloop : Market.processLoopAt .present (Market.borderPricePredicate type)
      (Market.getBestOffers type) (Offer.make s.offerId u type price amount).id
      (Market.entries s₁.activeBuyOffers + Market.entries s₁.activeSellOffers + 1) s₁ =
        .error .undefined := hloop
  simp only [Market.postOfferAt, hat, Market.processOfferAt, hloop, bind,
    Except.bind]

end PostOffer

end ForexMarket
