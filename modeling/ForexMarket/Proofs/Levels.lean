import ForexMarket.Proofs.Effects

/- A book as a function from prices to queues. `queue` is the deque at a price, empty
   where there is no level; adding an offer and dropping a back entry are updates of
   that function, and a book without empty levels is told by it. `BookOk` is what the
   market keeps true of one book. -/
namespace ForexMarket

namespace Book

/-- The deque at a price, front first; empty when there is no level. -/
def queue (b : Book) (price : Int) : List Nat :=
  match b.find? price with
  | none => []
  | some q => q.offers

/-- No level is empty. -/
def NoEmpty (b : Book) : Prop := ∀ q ∈ b, q.offers ≠ []

/-- The back entry of a level goes, and the level with it when it was the last one. -/
def dropBack (b : Book) (price : Int) : Book := (b.popBack price).eraseIfEmpty price

variable {b : Book}

theorem queue_of_mem {q : OfferQueue} (h : q ∈ b) : b.queue q.price = q.offers := by
  simp [queue, KeySet.find?_of_mem h]

theorem mem_of_queue {price : Int} {p : Nat} (h : p ∈ b.queue price) :
    ∃ q ∈ b, q.price = price ∧ q.offers = b.queue price := by
  unfold queue at h ⊢
  cases hf : b.find? price with
  | none => simp [hf] at h
  | some q =>
    obtain ⟨hq, hp⟩ := KeySet.find?_eq_some.mp hf
    exact ⟨q, hq, hp, rfl⟩

theorem queue_ne_nil (hb : b.NoEmpty) {q : OfferQueue} (h : q ∈ b) : b.queue q.price ≠ [] := by
  rw [queue_of_mem h]
  exact hb q h

theorem find?_add (b : Book) (price : Int) (offer : Nat) (k : Int) :
    (b.add price offer).find? k =
      if k = price then some { price := price, offers := offer :: b.queue price }
      else b.find? k := by
  unfold add queue
  cases h : b.find? price with
  | none =>
    by_cases hk : k = price
    · simp [hk, h]
    · have hk' : price ≠ k := fun e => hk e.symm
      simp [hk, hk']
  | some q =>
    have hp : q.price = price := (KeySet.find?_eq_some.mp h).2
    by_cases hk : k = price
    · simp [hk, h, OfferQueue.pushFront, hp]
    · simp [hk]

theorem queue_add (b : Book) (price : Int) (offer : Nat) (k : Int) :
    (b.add price offer).queue k = if k = price then offer :: b.queue price else b.queue k := by
  by_cases hk : k = price
  · simp [queue, find?_add, hk]
  · simp [queue, find?_add, hk]

theorem noEmpty_add (hb : b.NoEmpty) (price : Int) (offer : Nat) :
    (b.add price offer).NoEmpty := by
  intro q hq
  have hf := KeySet.find?_of_mem hq
  rw [find?_add] at hf
  by_cases hk : q.price = price
  · rw [if_pos hk] at hf
    rw [← Option.some.inj hf]
    simp
  · rw [if_neg hk] at hf
    exact hb q (KeySet.find?_eq_some.mp hf).1

@[simp] theorem find?_popBack (b : Book) (price k : Int) :
    (b.popBack price).find? k =
      if k = price then (b.find? k).map OfferQueue.popBack else b.find? k := by
  rw [popBack, KeySet.find?_modify]

theorem find?_dropBack (b : Book) (price k : Int) :
    (b.dropBack price).find? k =
      if k = price then
        (if (b.queue price).dropLast = [] then none
        else some { price := price, offers := (b.queue price).dropLast })
      else b.find? k := by
  unfold dropBack eraseIfEmpty queue
  cases h : b.find? price with
  | none =>
    by_cases hk : k = price
    · simp [hk, h]
    · simp [hk, h]
  | some q =>
    have hp : q.price = price := (KeySet.find?_eq_some.mp h).2
    simp only [find?_popBack, if_true, h, Option.map_some]
    by_cases he : q.offers.dropLast = []
    · by_cases hk : k = price
      · simp [hk, he, OfferQueue.popBack]
      · simp [hk, he, OfferQueue.popBack]
    · by_cases hk : k = price
      · simp [hk, he, OfferQueue.popBack, h, hp]
      · simp [hk, he, OfferQueue.popBack]

theorem queue_dropBack (b : Book) (price k : Int) :
    (b.dropBack price).queue k =
      if k = price then (b.queue price).dropLast else b.queue k := by
  by_cases hk : k = price
  · by_cases he : (b.queue price).dropLast = []
    · simp [queue, find?_dropBack, hk] at he ⊢
      simp [he]
    · simp [queue, find?_dropBack, hk] at he ⊢
      simp [he]
  · simp [queue, find?_dropBack, hk]

theorem noEmpty_dropBack (hb : b.NoEmpty) (price : Int) : (b.dropBack price).NoEmpty := by
  intro q hq
  have hf := KeySet.find?_of_mem hq
  rw [find?_dropBack] at hf
  by_cases hk : q.price = price
  · rw [if_pos hk] at hf
    split at hf
    · cases hf
    · next he => rw [← Option.some.inj hf]; exact he
  · rw [if_neg hk] at hf
    exact hb q (KeySet.find?_eq_some.mp hf).1

/-- Every entry other than the back one stays. -/
theorem mem_queue_dropBack {price k : Int} {p p' : Nat}
    (hp : (b.queue price).getLast? = some p) (h : p' ∈ b.queue k) (hne : p' ≠ p) :
    p' ∈ (b.dropBack price).queue k := by
  rw [queue_dropBack]
  by_cases hk : k = price
  · subst hk
    obtain ⟨l, hl⟩ := List.getLast?_eq_some_iff.mp hp
    rw [hl] at h ⊢
    simpa [hne] using h
  · simpa [hk] using h

theorem mem_of_mem_dropBack {price k : Int} {p : Nat} (h : p ∈ (b.dropBack price).queue k) :
    p ∈ b.queue k := by
  rw [queue_dropBack] at h
  split at h
  · next hk => rw [hk]; exact List.mem_of_mem_dropLast h
  · exact h

theorem queue_of_dropBack {price k : Int} (h : (b.dropBack price).queue k ≠ []) :
    b.queue k ≠ [] := by
  intro e
  apply h
  rw [queue_dropBack]
  split
  · next hk => rw [← hk, e]; rfl
  · exact e

/-- Dropping entries of a level does not matter once the level goes. -/
theorem erase_dropBack (b : Book) (price : Int) :
    (b.dropBack price).erase price = b.erase price := by
  have hpop : (b.popBack price).erase price = b.erase price := KeySet.erase_modify _ _ _ _
  unfold dropBack eraseIfEmpty
  split
  · exact hpop
  · split
    · rw [hpop, KeySet.erase_erase]
    · exact hpop

theorem entries_erase {q : OfferQueue} (hq : q ∈ b) :
    Market.entries b = q.offers.length + Market.entries (b.erase q.price) := by
  have hp := (KeySet.perm_erase hq).map (fun q : OfferQueue => q.offers.length)
  simpa [Market.entries] using hp.sum_nat

/-- Dropping the back entry of a level makes the book one entry shorter. -/
theorem entries_dropBack {q : OfferQueue} (hq : q ∈ b) (hne : q.offers ≠ []) :
    Market.entries (b.dropBack q.price) + 1 = Market.entries b := by
  have hpop : q.popBack ∈ b.popBack q.price := KeySet.mem_modify.mpr ⟨q, hq, by simp⟩
  have herase : (b.popBack q.price).erase q.price = b.erase q.price := KeySet.erase_modify _ _ _ _
  have hlen : q.popBack.offers.length + 1 = q.offers.length := by
    have := List.length_pos_iff.mpr hne
    simp [OfferQueue.popBack]
    omega
  have hb := entries_erase hq
  have hpopb := entries_erase hpop
  rw [OfferQueue.popBack_price, herase] at hpopb
  have hfind : (b.popBack q.price).find? q.price = some q.popBack := KeySet.find?_of_mem hpop
  unfold dropBack eraseIfEmpty
  rw [hfind]
  dsimp only
  split
  · next he =>
    rw [List.isEmpty_iff] at he
    rw [he] at hlen
    rw [herase, hb, ← hlen, List.length_nil]
    omega
  · omega

end Book

/-- What is kept of the book of type `t`: no empty level; every entry leads to an offer of
the book's type and the level's price, other than the one being posted; ids descend from
front to back. -/
structure BookOk (heap : KeySet Offer Offer.id) (t : OfferType) (b : Book)
    (pending : Option Nat) : Prop where
  noEmpty : b.NoEmpty
  entry : ∀ price, ∀ p ∈ b.queue price, pending ≠ some p ∧
    ∃ x ∈ heap, x.id = p ∧ x.type = t ∧ x.price = price
  desc : ∀ price, (b.queue price).Pairwise (fun p p' => p' < p)

namespace BookOk

variable {heap heap' : KeySet Offer Offer.id} {t : OfferType} {b : Book} {pending : Option Nat}

theorem empty : BookOk heap t .empty pending where
  noEmpty := fun q hq => absurd hq (KeySet.not_mem_empty q)
  entry := fun price p hp => by simp [Book.queue] at hp
  desc := fun price => by simp [Book.queue]

theorem dropBack (h : BookOk heap t b pending) (price : Int) :
    BookOk heap t (b.dropBack price) pending where
  noEmpty := Book.noEmpty_dropBack h.noEmpty price
  entry := fun k p hp => h.entry k p (Book.mem_of_mem_dropBack hp)
  desc := by
    intro k
    rw [Book.queue_dropBack]
    split
    · exact (h.desc price).sublist (List.dropLast_sublist _)
    · exact h.desc k

/-- The posted offer joins its own book, in which every entry is older. -/
theorem add (h : BookOk heap t b (some x.id)) (hx : x ∈ heap) (ht : x.type = t)
    (hnew : ∀ price, ∀ p ∈ b.queue price, p < x.id) :
    BookOk heap t (b.add x.price x.id) none where
  noEmpty := Book.noEmpty_add h.noEmpty _ _
  entry := by
    intro k p hp
    refine ⟨by simp, ?_⟩
    rw [Book.queue_add] at hp
    split at hp
    · next hk =>
      rcases List.mem_cons.mp hp with rfl | hp
      · exact ⟨x, hx, rfl, ht, hk.symm⟩
      · exact hk ▸ (h.entry x.price p hp).2
    · exact (h.entry k p hp).2
  desc := by
    intro k
    rw [Book.queue_add]
    split
    · exact List.pairwise_cons.mpr ⟨fun p hp => hnew x.price p hp, h.desc x.price⟩
    · exact h.desc k

/-- Objects may be rewritten in place. -/
theorem heap_congr (h : BookOk heap t b pending)
    (hheap : ∀ x ∈ heap, ∃ x' ∈ heap', x'.id = x.id ∧ x'.type = x.type ∧ x'.price = x.price) :
    BookOk heap' t b pending where
  noEmpty := h.noEmpty
  entry := by
    intro k p hp
    obtain ⟨hpend, x, hx, hid, ht, hk⟩ := h.entry k p hp
    obtain ⟨x', hx', hid', ht', hk'⟩ := hheap x hx
    exact ⟨hpend, x', hx', hid'.trans hid, ht'.trans ht, hk'.trans hk⟩
  desc := h.desc

/-- The back entry of a level is its oldest. -/
theorem back_le (h : BookOk heap t b pending) {price : Int} {p p' : Nat}
    (hp : (b.queue price).getLast? = some p) (hp' : p' ∈ b.queue price) : p ≤ p' := by
  obtain ⟨l, hl⟩ := List.getLast?_eq_some_iff.mp hp
  have hd := h.desc price
  rw [hl] at hp' hd
  rcases List.mem_append.mp hp' with hm | hm
  · exact ((List.pairwise_append.mp hd).2.2 p' hm p (by simp)).le
  · exact (List.mem_singleton.mp hm).ge

end BookOk

end ForexMarket
