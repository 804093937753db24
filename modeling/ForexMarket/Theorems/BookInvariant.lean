import ForexMarket.Proofs.Correspondence

/- The representation invariant of the two books, stated in the terms of the code
   (levels, entries, `weak_ptr::expired`, `active_offers_`), and that the books never
   cross, dead levels included. -/
namespace ForexMarket

namespace Market

/-- All entries of the two books. -/
def entryList (s : Market) : List Nat :=
  s.activeSellOffers.elems.flatMap OfferQueue.offers ++
    s.activeBuyOffers.elems.flatMap OfferQueue.offers

/-- The entries that have not expired. -/
def liveEntries (s : Market) : List Nat := s.entryList.filter (fun p => !s.expired [] p)

/-- The representation invariant. -/
structure RepOk (s : Market) : Prop where
  one_level : ∀ t, (s.book t).elems.Pairwise (fun q q' => q.price ≠ q'.price)
  no_empty_level : ∀ t, ∀ q ∈ s.book t, q.offers ≠ []
  live_entry : ∀ t, ∀ q ∈ s.book t, ∀ p ∈ q.offers, s.expired [] p = false →
    ∃ x, s.lock [] p = some x ∧ x.status = .ACTIVE ∧ x.type = t ∧ x.price = q.price
  one_owner : ∀ u p, s.Owns u p → ∃ x ∈ s.heap, x.id = p ∧ x.ownerId = u
  one_entry : ∀ x ∈ s.heap, s.Owns x.ownerId x.id ↔ s.liveEntries.count x.id = 1
  newest_first : ∀ t, ∀ q ∈ s.book t, q.offers.Pairwise (fun p p' => p' < p)

theorem expired_iff {s : Market} {p : Nat} : s.expired [] p = false ↔ ∃ u, s.Owns u p := by
  rw [← owned_iff]
  simp [expired]

theorem mem_entryList {s : Market} {p : Nat} :
    p ∈ s.entryList ↔ ∃ t, ∃ q ∈ s.book t, p ∈ q.offers := by
  simp only [entryList, List.mem_append, List.mem_flatMap]
  refine ⟨?_, ?_⟩
  · intro h
    rcases h with ⟨q, hq, hp⟩ | ⟨q, hq, hp⟩
    · exact ⟨.SELL, q, hq, hp⟩
    · exact ⟨.BUY, q, hq, hp⟩
  · intro h
    obtain ⟨t, q, hq, hp⟩ := h
    cases t with
    | BUY => exact .inr ⟨q, hq, hp⟩
    | SELL => exact .inl ⟨q, hq, hp⟩

variable {s : Market}

/-- The offer an entry leads to, dead or live. -/
theorem entry_offer (hi : Inv none s) {t : OfferType} {q : OfferQueue} (hq : q ∈ s.book t) {p : Nat}
    (hp : p ∈ q.offers) : ∃ x ∈ s.heap, x.id = p ∧ x.type = t ∧ x.price = q.price :=
  ((hi.book t).entry q.price p (by rw [Book.queue_of_mem hq]; exact hp)).2

/-- No offer has two entries. -/
theorem entryList_nodup (hi : Inv none s) : s.entryList.Nodup := by
  have hside : ∀ t, ((s.book t).elems.flatMap OfferQueue.offers).Nodup := by
    intro t
    refine List.nodup_flatMap.mpr ⟨fun q hq => ?_, ?_⟩
    · have hd := (hi.book t).desc q.price
      rw [Book.queue_of_mem hq] at hd
      exact hd.imp fun h => h.ne'
    · apply (s.book t).sorted.imp_of_mem
      intro q q' hq hq' hlt p hp hp'
      -- an entry of two levels would give its offer two prices
      obtain ⟨x, hx, hid, -, hk⟩ := entry_offer hi hq hp
      obtain ⟨y, hy, hid', -, hk'⟩ := entry_offer hi hq' hp'
      rw [KeySet.key_inj hx hy (hid.trans hid'.symm)] at hk
      omega
  apply List.Nodup.append (hside .SELL) (hside .BUY)
  intro p hp hp'
  obtain ⟨q, hq, hp⟩ := List.mem_flatMap.mp hp
  obtain ⟨q', hq', hp'⟩ := List.mem_flatMap.mp hp'
  -- an entry of both books would give its offer two types
  obtain ⟨x, hx, hid, ht, -⟩ := entry_offer (t := .SELL) hi hq hp
  obtain ⟨y, hy, hid', ht', -⟩ := entry_offer (t := .BUY) hi hq' hp'
  rw [KeySet.key_inj hx hy (hid.trans hid'.symm), ht'] at ht
  cases ht

/-- The live entries lead to the offers their owners hold. -/
theorem mem_liveEntries (hi : Inv none s) {x : Offer} (hx : x ∈ s.heap) :
    x.id ∈ s.liveEntries ↔ s.Owns x.ownerId x.id := by
  rw [liveEntries, List.mem_filter]
  constructor
  · rintro ⟨-, hexp⟩
    have hlive : s.expired [] x.id = false := by simpa using hexp
    obtain ⟨u, hu⟩ := expired_iff.mp hlive
    rw [hi.owner hx hu]
    exact hu
  · intro ho
    have hq := (hi.entry hx ho (by simp)).2
    obtain ⟨q, hmem, -, hoffers⟩ := Book.mem_of_queue hq
    rw [← hoffers] at hq
    refine ⟨mem_entryList.mpr ⟨x.type, q, hmem, hq⟩, ?_⟩
    rw [expired_iff.mpr ⟨_, ho⟩]
    rfl

/-- The representation invariant holds in every reachable state. -/
theorem reachable_repOk (hs : s.Reachable) : s.RepOk := by
  obtain ⟨a, h⟩ := hs.stands
  have hi := h.inv
  constructor
  case one_level => exact fun t => (s.book t).sorted.imp fun h => h.ne
  case no_empty_level => exact fun t => (hi.book t).noEmpty
  case live_entry =>
    intro t q hq p hp hlive
    obtain ⟨x, hx, rfl, ht, hk⟩ := entry_offer hi hq hp
    obtain ⟨u, hu⟩ := expired_iff.mp hlive
    refine ⟨x, ?_, (hi.entry hx hu (by simp)).1, ht, hk⟩
    rw [lock, hlive]
    exact KeySet.find?_of_mem hx
  case one_owner =>
    intro u p ho
    obtain ⟨x, hx, hid, hu, -⟩ := hi.owned u p ho
    exact ⟨x, hx, hid, hu⟩
  case one_entry =>
    intro x hx
    have hnodup : s.liveEntries.Nodup := (entryList_nodup hi).filter _
    rw [← mem_liveEntries hi hx]
    constructor
    · exact List.count_eq_one_of_mem hnodup
    · intro hc
      apply List.count_pos_iff.mp
      omega
  case newest_first =>
    intro t q hq
    have hd := (hi.book t).desc q.price
    rwa [Book.queue_of_mem hq] at hd

theorem sample_repOk : sample.RepOk := reachable_repOk sample_reachable

/-- Every BUY level is below every SELL level, dead levels included; so is every live BUY price
below every live SELL price. -/
theorem reachable_uncrossed (hs : s.Reachable) :
    (∀ b ∈ s.activeBuyOffers, ∀ c ∈ s.activeSellOffers, b.price < c.price) ∧
    ∀ v ∈ s.liveOffers, ∀ w ∈ s.liveOffers, v.type = .BUY → w.type = .SELL → v.price < w.price := by
  obtain ⟨a, h⟩ := hs.stands
  refine ⟨?_, ?_⟩
  · intro b hb c hc
    exact h.inv.uncrossed b.price c.price
      (Book.queue_ne_nil (h.inv.book .BUY).noEmpty hb)
      (Book.queue_ne_nil (h.inv.book .SELL).noEmpty hc)
  · intro v hv w hw hvt hwt
    have hbook : ∀ {o : OfferView} {t : OfferType}, o ∈ s.liveOffers → o.type = t →
        (s.book t).queue o.price ≠ [] := by
      intro o t ho ht
      have hq := h.in_book (h.mem_liveOffers.mp ho)
      rw [ht] at hq
      exact List.ne_nil_of_mem hq
    exact h.inv.uncrossed v.price w.price (hbook hv hvt) (hbook hw hwt)

theorem sample_uncrossed :
    (∀ b ∈ sample.activeBuyOffers, ∀ c ∈ sample.activeSellOffers, b.price < c.price) ∧
    ∀ v ∈ sample.liveOffers, ∀ w ∈ sample.liveOffers,
      v.type = .BUY → w.type = .SELL → v.price < w.price :=
  reachable_uncrossed sample_reachable

end Market

end ForexMarket
