import ForexMarket.Proofs.Reads

/- What the reads of `DetermineQuote` through `best_offers` and `best_offer` find. The only
   node the loops remove and read again is a level left empty, so they go on as the loops
   of the market where the extreme level has a live entry. -/
namespace ForexMarket

variable {A : Access} {s s' : Market} {a : Reference} {t : OfferType} {price : Int}

/-- Some offer of the level is still held by a user. -/
def Market.LiveLevel (s : Market) (t : OfferType) (price : Int) : Prop :=
  ∃ p ∈ (s.book t).queue price, ∃ u, s.Owns u p

/-- A live entry outlives the dead back entry of its level. -/
theorem Market.LiveLevel.dropBack (h : s.LiveLevel t price) {p : Nat}
    (hback : ((s.book t).queue price).getLast? = some p) (hdead : ∀ u, ¬ s.Owns u p) :
    (s.setBook t ((s.book t).dropBack price)).LiveLevel t price := by
  obtain ⟨p', hp', u, hu⟩ := h
  have hne : p' ≠ p := fun e => hdead u (e ▸ hu)
  refine ⟨p', ?_, u, (Market.owns_congr (Market.setBook_users _ _) u p').mpr hu⟩
  rw [Market.book_setBook, if_pos rfl]
  exact Book.mem_queue_dropBack hback hp' hne

/-- The inner loop goes as the loop of the market on a live level, which it keeps. -/
theorem quoteInnerAt_eq (hA : A.Sound) (fuel : Nat) : ∀ {s s' : Market} {r : Option Int},
    Inv none s → s.LiveLevel t price →
    Market.quoteInner t price fuel s = (.ok r, s') →
    Market.quoteInnerAt A t price fuel s = .ok (r, s') := by
  induction fuel with
  | zero => intro s s' r _ _ hinner; cases hinner
  | succ fuel ih =>
    intro s s' r hi hlive hinner
    simp only [Market.quoteInner] at hinner
    simp only [Market.quoteInnerAt, bind, Except.bind]
    cases hq : (s.book t).find? price with
    | none =>
      obtain ⟨p, hp, -⟩ := hlive
      unfold Book.queue at hp
      rw [hq] at hp
      cases hp
    | some q =>
      obtain ⟨hqm, hqp⟩ := KeySet.find?_eq_some.mp hq
      have hne := (hi.book t).noEmpty q hqm
      rw [hq] at hinner
      rw [hA.level hq]
      simp only [found_some, List.isEmpty_iff, if_neg hne]
      cases hp : q.back? with
      | none => exact absurd (List.getLast?_eq_none_iff.mp hp) hne
      | some p =>
        have hback : ((s.book t).queue price).getLast? = some p := by
          rw [← hqp, Book.queue_of_mem hqm]
          exact hp
        have hentry := hA.entry (List.mem_of_mem_getLast? hback)
        rw [Option.bind_some, hp] at hinner
        rw [Market.backEntry_eq hA hq hp]
        simp only [hentry, found_some]
        by_cases hexp : s.expired [] p = true
        · simp only [if_pos hexp] at hinner ⊢
          have hdead : ∀ u, ¬ s.Owns u p := by
            intro u hu
            have howned := Market.owned_iff.mpr ⟨u, hu⟩
            simp [Market.expired, howned] at hexp
          simp only [Market.popEntry_eq hA hq, Market.eraseLevel_popped hA hq]
          exact ih (hi.purge hback hdead) (hlive.dropBack hback hdead) hinner
        · simp only [if_neg hexp] at hinner ⊢
          cases hl : s.lock [] p with
          | none => rw [hl] at hinner; cases hinner
          | some o =>
            rw [hl] at hinner
            simp only [Market.lockEntry, hentry, found_some, bind, Except.bind, hl]
            cases hinner
            rfl

/-- A dead level of the book is missed once its last entry is dropped. -/
theorem quoteInnerAt_missed (fuel : Nat) : ∀ {s : Market}, Inv none s →
    ¬ s.LiveLevel t price → ((s.book t).queue price).length < fuel →
    Market.quoteInnerAt .present t price fuel s = .error .undefined := by
  have hA := Access.present_sound
  induction fuel with
  | zero => intro s _ _ hfuel; omega
  | succ fuel ih =>
    intro s hi hdeadAll hfuel
    simp only [Market.quoteInnerAt, bind, Except.bind]
    cases hq : (s.book t).find? price with
    | none => simp only [Access.present, hq, Option.map_none, found_none]
    | some q =>
      obtain ⟨hqm, hqp⟩ := KeySet.find?_eq_some.mp hq
      have hne := (hi.book t).noEmpty q hqm
      rw [hA.level hq]
      simp only [found_some, List.isEmpty_iff, if_neg hne]
      cases hp : q.back? with
      | none => exact absurd (List.getLast?_eq_none_iff.mp hp) hne
      | some p =>
        have hback : ((s.book t).queue price).getLast? = some p := by
          rw [← hqp, Book.queue_of_mem hqm]
          exact hp
        have hmem := List.mem_of_mem_getLast? hback
        have hdead : ∀ u, ¬ s.Owns u p := fun u hu => hdeadAll ⟨p, hmem, u, hu⟩
        have hexp := Market.expired_of_dead (List.not_mem_nil (a := p)) hdead
        rw [Market.backEntry_eq hA hq hp]
        simp only [hA.entry hmem, found_some, if_pos hexp, Market.popEntry_eq hA hq,
          Market.eraseLevel_popped hA hq]
        apply ih (hi.purge hback hdead)
        · rintro ⟨p', hp', u, hu⟩
          rw [Market.book_setBook, if_pos rfl] at hp'
          rw [Market.owns_congr (Market.setBook_users _ _)] at hu
          exact hdeadAll ⟨p', Book.mem_of_mem_dropBack hp', u, hu⟩
        · rw [Market.book_setBook, if_pos rfl, Book.queue_dropBack, if_pos rfl,
            List.length_dropLast]
          have hpos := List.length_pos_of_mem hmem
          omega

/-- A search of a live level finds its price. -/
theorem quoteInner_live (hi : Inv none s) (hs : Sim none s a) (hlive : s.LiveLevel t price)
    {fuel : Nat} (hfuel : ((s.book t).queue price).length < fuel) :
    ∃ s', Market.quoteInner t price fuel s = (.ok (some price), s') := by
  rcases quoteInner_spec t price fuel hi hs hfuel with ⟨s', h, -⟩ | ⟨s', h, hi', hs', hse⟩
  · exact ⟨s', h⟩
  · -- the level would be gone, and its live entry with it
    obtain ⟨p, hp, u, hu⟩ := hlive
    obtain ⟨-, x, hx, rfl, ht, hk⟩ := (hi.book t).entry price p hp
    have hown : s'.Owns u x.id := by
      rw [hse]
      exact (Market.owns_congr (Market.setBook_users _ _) _ _).mpr hu
    have hx' : x ∈ s'.heap := by
      rw [hse, Market.setBook_heap]
      exact hx
    have hq := (hi'.entry hx' hown (by simp)).2
    rw [hse, ht, hk, Market.book_setBook, if_pos rfl] at hq
    obtain ⟨q, hqm, hqp, -⟩ := Book.mem_of_queue hq
    exact absurd hqp (KeySet.mem_erase.mp hqm).2

/-- The outer loop goes as the loop of the market where its first level is live, and stops there. -/
theorem quoteOuterAt_eq (hA : A.Sound) (fuel : Nat) {r : Option Int} (hi : Inv none s)
    (hs : Sim none s a)
    (hlive : ∀ q, Market.quoteLevel t (s.book t) = some q → s.LiveLevel t q.price)
    (houter : Market.quoteOuter t fuel s = (.ok r, s')) :
    Market.quoteOuterAt A t fuel s = .ok (r, s') := by
  cases fuel with
  | zero => cases houter
  | succ fuel =>
    simp only [Market.quoteOuter] at houter
    simp only [Market.quoteOuterAt, bind, Except.bind]
    by_cases he : (s.book t).isEmpty = true
    · rw [if_pos he] at houter ⊢
      cases houter
      rfl
    · rw [if_neg he] at houter ⊢
      obtain ⟨q, hq, hlevel, -⟩ := Book.quoteLevel_spec t (by simpa using he)
      rw [hlevel] at houter ⊢
      simp only [found_some] at houter ⊢
      have hshort : ((s.book t).queue q.price).length < q.offers.length + 1 := by
        rw [Book.queue_of_mem hq]
        omega
      obtain ⟨s₁, hinner⟩ := quoteInner_live hi hs (hlive q hlevel) hshort
      rw [hinner] at houter
      rw [quoteInnerAt_eq hA _ hi (hlive q hlevel) hinner]
      cases houter
      rfl

theorem Market.quoteLevel_mem {b : Book} {q : OfferQueue} (h : Market.quoteLevel t b = some q) :
    q ∈ b := by
  cases t with
  | BUY => exact KeySet.first?_mem h
  | SELL => exact KeySet.last?_mem h

/-- With removed levels gone, a quote is undefined where the extreme level is dead. -/
theorem determineQuoteAt_missed (hi : Inv none s) {q : OfferQueue}
    (hlevel : Market.quoteLevel t (s.book t) = some q) (hdead : ¬ s.LiveLevel t q.price) :
    Market.determineQuoteAt .present s t = .error .undefined := by
  have hq := Market.quoteLevel_mem hlevel
  have he : ¬ (s.book t).isEmpty = true := fun he => KeySet.isEmpty_iff.mp he q hq
  have hshort : ((s.book t).queue q.price).length < q.offers.length + 1 := by
    rw [Book.queue_of_mem hq]
    omega
  simp only [Market.determineQuoteAt, Market.quoteOuterAt, if_neg he, hlevel, found_some, bind,
    Except.bind, quoteInnerAt_missed _ hi hdead hshort]

end ForexMarket
