import ForexMarket.Proofs.QuoteReads
import ForexMarket.Theorems.BookInvariant
import ForexMarket.Theorems.Priority

/- How the two loops that change a book while they walk it end. With removed nodes kept,
   `PostOffer` returns for every registered user: no loop runs on, no `back` is of an empty
   deque, no `lock` is of an expired entry, no `MakeDeal` is of one type, no `at` throws.
   With removed nodes gone, `PostOffer` and `DetermineQuote` meet one exactly where a
   resting offer is filled and where the extreme level is dead. -/
namespace ForexMarket

open Market

variable {s : Market}

/-! `PostOffer`. -/

/-- The call of a registered user returns the id of the offer, removed nodes kept. -/
theorem postOffer_total (hs : s.Reachable) {u : Nat} (hu : ∃ d, s.users.find? u = some d)
    (type : OfferType) (price : Int) (amount : UInt64) :
    ∃ s', postOfferAt .kept s u type price amount = .ok (s.offerId, s') ∧
      s.postOffer u type price amount = (.ok s.offerId, s') := by
  obtain ⟨a, h⟩ := hs.stands
  exact postOfferAt_kept h.inv h.sim hu type price amount

theorem sample_postOffer_total :
    ∃ s', postOfferAt .kept Market.sample 1 .BUY 12 0 = .ok (4, s') ∧
      Market.sample.postOffer 1 .BUY 12 0 = (.ok 4, s') :=
  postOffer_total Market.sample_reachable ⟨_, rfl⟩ .BUY 12 0

/-- The reads of a post all find a node that is present exactly when the poster is unregistered or
the first resting offer it meets is larger than the posted one. -/
theorem postOffer_present_iff (hs : s.Reachable) (u : Nat) (type : OfferType) (price : Int)
    (amount : UInt64) :
    postOfferAt .present s u type price amount ≠ .error .undefined ↔
      ((∃ d, s.users.find? u = some d) →
        ∀ r, s.Takes type price r → amount.toNat < r.amount) := by
  obtain ⟨a, h⟩ := hs.stands
  have htakes : ∀ r, s.Takes type price r ↔ a.best? (a.incoming u type price amount) = some r :=
    fun r => takes_iff h (a.incoming u type price amount) r
  constructor
  · intro hread hu r hr
    by_contra hfill
    apply hread
    exact postOfferAt_missed h.inv h.sim hu type price amount ((htakes r).mp hr) (by omega)
  · intro hlarger
    by_cases hu : ∃ d, s.users.find? u = some d
    · obtain ⟨s', hpost, -⟩ := postOfferAt_present h.inv h.sim hu type price amount
        fun r hr => hlarger hu r ((htakes r).mpr hr)
      rw [hpost]
      simp
    · have hnone : s.users.find? u = none := by
        cases hd : s.users.find? u with
        | none => rfl
        | some d => exact absurd ⟨d, hd⟩ hu
      simp only [postOfferAt, addOffer_unregistered hnone]
      simp

theorem sample_postOffer_present :
    postOfferAt .present Market.sample 1 .BUY 11 2 ≠ .error .undefined ↔
      ((∃ d, Market.sample.users.find? 1 = some d) →
        ∀ r, Market.sample.Takes .BUY 11 r → (2 : UInt64).toNat < r.amount) :=
  postOffer_present_iff Market.sample_reachable 1 .BUY 11 2

/-- A BUY of 3 fills the SELL offer of 3 and then reads the entry it has popped. -/
theorem sample_postOffer_missed :
    Market.sample.Reachable ∧ (∃ d, Market.sample.users.find? 1 = some d) ∧
      postOfferAt .present Market.sample 1 .BUY 11 3 = .error .undefined :=
  ⟨Market.sample_reachable, ⟨_, rfl⟩, by decide⟩

/-! `DetermineQuote`. -/

/-- The reads of a quote all find a node that is present exactly when the book is empty or its
extreme level has an entry that has not expired. -/
theorem determineQuote_present_iff (hs : s.Reachable) (t : OfferType) :
    determineQuoteAt .present s t ≠ .error .undefined ↔
      ∀ q, quoteLevel t (s.book t) = some q → ∃ p ∈ q.offers, s.expired [] p = false := by
  obtain ⟨a, h⟩ := hs.stands
  have hlive : ∀ q, quoteLevel t (s.book t) = some q →
      (s.LiveLevel t q.price ↔ ∃ p ∈ q.offers, s.expired [] p = false) := by
    intro q hq
    simp only [LiveLevel, Book.queue_of_mem (quoteLevel_mem hq), expired_iff]
  constructor
  · intro hread q hq
    by_contra hdead
    apply hread
    exact determineQuoteAt_missed h.inv hq (mt (hlive q hq).mp hdead)
  · intro hall
    obtain ⟨s', hquote, -⟩ := determineQuote_spec t h.inv h.sim
    have hquote := quoteOuterAt_eq Access.present_sound _ h.inv h.sim
      (fun q hq => (hlive q hq).mpr (hall q hq)) hquote
    rw [determineQuoteAt, hquote]
    simp

theorem sample_determineQuote_present :
    determineQuoteAt .present Market.sample .SELL ≠ .error .undefined ↔
      ∀ q, quoteLevel .SELL (Market.sample.book .SELL) = some q →
        ∃ p ∈ q.offers, Market.sample.expired [] p = false :=
  determineQuote_present_iff Market.sample_reachable .SELL

/-- The sample with its BUY offer cancelled. -/
def Market.declined : Market := Market.sample.run [.removeOffer 1 3]

/-- The only BUY level is dead: it is erased, and read once more. -/
theorem declined_determineQuote_missed :
    Market.declined.Reachable ∧
      determineQuoteAt .present Market.declined .BUY = .error .undefined :=
  ⟨Market.sample_reachable.run _, by decide⟩

end ForexMarket
