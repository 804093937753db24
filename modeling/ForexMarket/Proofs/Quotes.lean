import ForexMarket.Proofs.Matching

/- The quote queries. `DetermineQuote` deletes the dead entries it meets, and the levels
   they leave empty, until it meets a live one: a change of the books alone, which keeps
   the invariant and what the market stands for. What it returns is the extreme price of
   the live offers of the book (`determineQuote_spec`). -/
namespace ForexMarket

variable {s : Market} {a : Reference}

namespace Reference

/-- The quote `DetermineQuote` looks for in the book of this type. -/
def quoteOf (a : Reference) : OfferType → Option Int
  | .BUY => a.askQuote
  | .SELL => a.bidQuote

theorem quoteOf_eq_none {a : Reference} {t : OfferType} (h : ∀ o ∈ a.live, o.type ≠ t) :
    a.quoteOf t = none := by
  have hnil : a.live.elems.filter (fun o => o.type = t) = [] :=
    List.filter_eq_nil_iff.mpr fun o ho => by simpa using h o ho
  cases t with
  | BUY => simp [quoteOf, askQuote, hnil]
  | SELL => simp [quoteOf, bidQuote, hnil]

/-- A live offer of a type at least as extreme as every other of the type gives the quote. -/
theorem quoteOf_eq_some {a : Reference} {o : OfferView} (ho : o ∈ a.live)
    (hbest : ∀ v ∈ a.live, v.type = o.type → crosses o.type v.price o.price) :
    a.quoteOf o.type = some o.price := by
  have hmem : o.price ∈ (a.live.elems.filter (fun v => v.type = o.type)).map OfferView.price :=
    List.mem_map.mpr ⟨o, List.mem_filter.mpr ⟨ho, by simp⟩, rfl⟩
  have hall : ∀ p ∈ (a.live.elems.filter (fun v => v.type = o.type)).map OfferView.price,
      crosses o.type p o.price := by
    intro p hp
    obtain ⟨v, hv, rfl⟩ := List.mem_map.mp hp
    obtain ⟨hv, ht⟩ := List.mem_filter.mp hv
    exact hbest v hv (by simpa using ht)
  cases ht : o.type with
  | BUY =>
    rw [ht] at hmem hall
    exact List.min?_eq_some_iff.mpr ⟨hmem, hall⟩
  | SELL =>
    rw [ht] at hmem hall
    exact List.max?_eq_some_iff.mpr ⟨hmem, hall⟩

end Reference

/-- The level `DetermineQuote` looks at has the extreme price of the book. -/
theorem Book.quoteLevel_spec {b : Book} (t : OfferType) (he : b.isEmpty = false) :
    ∃ q ∈ b, Market.quoteLevel t b = some q ∧
      ∀ q' ∈ b, Reference.crosses t q'.price q.price := by
  cases t with
  | BUY =>
    obtain ⟨q, hq⟩ := KeySet.first?_isSome he
    exact ⟨q, KeySet.first?_mem hq, hq, fun q' hq' => KeySet.first?_le hq hq'⟩
  | SELL =>
    obtain ⟨q, hq⟩ := KeySet.last?_isSome he
    exact ⟨q, KeySet.last?_mem hq, hq, fun q' hq' => KeySet.le_last? hq hq'⟩

/-- The inner loop finds a live entry of the level, or erases the level. -/
theorem quoteInner_spec (t : OfferType) (price : Int) (fuel : Nat) : ∀ {s : Market},
    Inv none s → Sim none s a → ((s.book t).queue price).length < fuel →
    (∃ s', Market.quoteInner t price fuel s = (.ok (some price), s') ∧ Inv none s' ∧
      Sim none s' a ∧ ∃ o ∈ a.live, o.type = t ∧ o.price = price) ∨
    (∃ s', Market.quoteInner t price fuel s = (.ok none, s') ∧ Inv none s' ∧ Sim none s' a ∧
      s' = s.setBook t ((s.book t).erase price)) := by
  induction fuel with
  | zero => intro s _ _ hfuel; omega
  | succ fuel ih =>
    intro s hi hs hfuel
    simp only [Market.quoteInner]
    cases hq : (s.book t).find? price with
    | none =>
      right
      refine ⟨s, rfl, hi, hs, ?_⟩
      rw [KeySet.erase_of_find?_eq_none hq, Market.setBook_book]
    | some q =>
      obtain ⟨hqm, hqp⟩ := KeySet.find?_eq_some.mp hq
      cases hp : q.back? with
      | none => exact absurd (List.getLast?_eq_none_iff.mp hp) ((hi.book t).noEmpty q hqm)
      | some p =>
        have hback : ((s.book t).queue price).getLast? = some p := by
          rw [← hqp, Book.queue_of_mem hqm]
          exact hp
        simp only [Option.bind_some, hp]
        by_cases hdead : ∀ u, ¬ s.Owns u p
        · -- a dead entry goes
          have hexp := Market.expired_of_dead (List.not_mem_nil (a := p)) hdead
          simp only [hexp, if_true]
          have hshort : (((s.setBook t ((s.book t).dropBack price)).book t).queue price).length
              < fuel := by
            have hpos := List.length_pos_of_mem (List.mem_of_mem_getLast? hback)
            rw [Market.book_setBook, if_pos rfl, Book.queue_dropBack, if_pos rfl,
              List.length_dropLast]
            omega
          rcases ih (hi.purge hback hdead) (hs.setBook _ _) hshort with h | ⟨s', h, hi', hs', he⟩
          · exact .inl h
          · refine .inr ⟨s', h, hi', hs', ?_⟩
            rw [he, Market.setBook_setBook, Market.book_setBook, if_pos rfl, Book.erase_dropBack]
        · -- a live entry ends the search
          obtain ⟨u, hu⟩ := not_forall_not.mp hdead
          obtain ⟨-, x, hx, hid, ht, hk⟩ :=
            (hi.book t).entry price p (List.mem_of_mem_getLast? hback)
          rw [← hid] at hu
          obtain ⟨hexp, hlock⟩ := Market.lock_of_owns [] hx hu
          rw [hid] at hexp hlock
          simp only [hexp, hlock, Bool.false_eq_true, if_false, hk]
          have hlive : x.view ∈ a.live :=
            (hs.live _).mpr ⟨x, hx, rfl, (hi.owner hx hu).symm ▸ hu, by simp⟩
          exact .inl ⟨s, rfl, hi, hs, x.view, hlive, ht, hk⟩

/-- The outer loop finds the extreme live price of the book. -/
theorem quoteOuter_spec (t : OfferType) (fuel : Nat) : ∀ {s : Market},
    Inv none s → Sim none s a → (s.book t).elems.length < fuel →
    ∃ s', Market.quoteOuter t fuel s = (.ok (a.quoteOf t), s') ∧ Inv none s' ∧ Sim none s' a := by
  induction fuel with
  | zero => intro s _ _ hfuel; omega
  | succ fuel ih =>
    intro s hi hs hfuel
    -- every live offer of the type is in a level of the book
    have hlevel : ∀ o ∈ a.live, o.type = t → ∃ q ∈ s.book t, q.price = o.price := by
      intro o ho ht
      obtain ⟨x, hx, rfl, hown, hne⟩ := (hs.live o).mp ho
      have hq := (hi.entry hx hown hne).2
      rw [show x.type = t from ht] at hq
      obtain ⟨q, hq, hk, -⟩ := Book.mem_of_queue hq
      exact ⟨q, hq, hk⟩
    simp only [Market.quoteOuter]
    by_cases he : (s.book t).isEmpty = true
    · rw [if_pos he, Reference.quoteOf_eq_none]
      · exact ⟨s, rfl, hi, hs⟩
      · intro o ho ht
        obtain ⟨q, hq, -⟩ := hlevel o ho ht
        exact KeySet.isEmpty_iff.mp he q hq
    · rw [if_neg he]
      have he : (s.book t).isEmpty = false := by simpa using he
      obtain ⟨q, hqm, hextreme, hbest⟩ := Book.quoteLevel_spec t he
      rw [hextreme]
      have hshort : ((s.book t).queue q.price).length < q.offers.length + 1 := by
        rw [Book.queue_of_mem hqm]
        omega
      -- a live entry of the extreme level is the quote; a level without one is erased
      rcases quoteInner_spec t q.price _ hi hs hshort with
        ⟨s', h, hi', hs', o, ho, ht, hk⟩ | ⟨s', h, hi', hs', hse⟩
      · simp only [h]
        refine ⟨s', ?_, hi', hs'⟩
        have hquote := Reference.quoteOf_eq_some ho ?_
        · rw [ht, hk] at hquote
          rw [hquote]
        · intro v hv hvt
          obtain ⟨q', hq', hk'⟩ := hlevel v hv (hvt.trans ht)
          rw [ht, hk, ← hk']
          exact hbest q' hq'
      · simp only [h]
        apply ih hi' hs'
        rw [hse, Market.book_setBook, if_pos rfl]
        have := KeySet.length_erase_lt hqm
        omega

theorem determineQuote_spec (t : OfferType) (hi : Inv none s) (hs : Sim none s a) :
    ∃ s', s.determineQuote t = (.ok (a.quoteOf t), s') ∧ Inv none s' ∧ Sim none s' a :=
  quoteOuter_spec t _ hi hs (Nat.lt_succ_self _)

end ForexMarket
