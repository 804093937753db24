import ForexMarket.Lib.Json.Document

/- Values whose text can be written and is read back: they keep to the ranges of their
   types and their strings are UTF-8. They are closed under the ways values are built. -/
namespace ForexMarket

namespace Json

/-- A value a program can hold and `dump` has a text for. -/
def Writable (v : Json) : Prop := v.Valid ∧ ∃ s, v.dump = some s

theorem validElems_iff (vs : List Json) : ValidElems vs ↔ ∀ v ∈ vs, v.Valid := by
  induction vs with
  | nil => simp [ValidElems]
  | cons v vs ih => simp [ValidElems, ih]

theorem validMembers_iff (ms : List (Bytes × Json)) : ValidMembers ms ↔ ∀ m ∈ ms, m.2.Valid := by
  induction ms with
  | nil => simp [ValidMembers]
  | cons m ms ih => simp [ValidMembers, ih]

/-! Objects are kept in order. -/

theorem mem_insert {k : Bytes} {v : Json} {ms : List (Bytes × Json)} {m : Bytes × Json}
    (h : m ∈ insert k v ms) : m = (k, v) ∨ m ∈ ms := by
  induction ms with
  | nil => exact .inl (List.mem_singleton.mp h)
  | cons n ms ih =>
    obtain ⟨k', v'⟩ := n
    simp only [insert] at h
    split at h
    · exact List.mem_cons.mp h
    · split at h
      · exact (List.mem_cons.mp h).imp_right (List.mem_cons_of_mem _)
      · rcases List.mem_cons.mp h with h | h
        · exact .inr (h ▸ List.mem_cons_self ..)
        · exact (ih h).imp_right (List.mem_cons_of_mem _)

theorem lt_of_not_lt {k k' : Bytes} (h : ¬ k < k') (hne : k ≠ k') : k' < k := by
  rcases List.le_iff_lt_or_eq.mp (List.not_lt.mp h) with hlt | heq
  · exact hlt
  · exact absurd heq.symm hne

theorem insert_sorted (k : Bytes) (v : Json) {ms : List (Bytes × Json)}
    (h : (ms.map Prod.fst).Pairwise (· < ·)) :
    ((insert k v ms).map Prod.fst).Pairwise (· < ·) := by
  induction ms with
  | nil => exact List.pairwise_singleton _ _
  | cons n ms ih =>
    obtain ⟨k', v'⟩ := n
    rw [List.map_cons, List.pairwise_cons] at h
    obtain ⟨hfirst, hrest⟩ := h
    simp only [insert]
    split
    next hlt =>
      rw [List.map_cons, List.pairwise_cons]
      refine ⟨fun a ha => ?_, List.pairwise_cons.mpr ⟨hfirst, hrest⟩⟩
      rcases List.mem_cons.mp ha with rfl | ha
      · exact hlt
      · exact List.lt_trans hlt (hfirst a ha)
    next hlt =>
      split
      next heq =>
        rw [heq]
        exact List.pairwise_cons.mpr ⟨hfirst, hrest⟩
      next hne =>
        rw [List.map_cons, List.pairwise_cons]
        refine ⟨fun a ha => ?_, ih hrest⟩
        obtain ⟨m, hm, rfl⟩ := List.mem_map.mp ha
        rcases mem_insert hm with rfl | hm
        · exact lt_of_not_lt hlt hne
        · exact hfirst m.1 (List.mem_map_of_mem hm)

/-- The members of an object built by assignments are in order, and are among those assigned. -/
theorem foldl_insert (ms acc : List (Bytes × Json))
    (h : (acc.map Prod.fst).Pairwise (· < ·)) :
    ((ms.foldl (fun acc m => insert m.1 m.2 acc) acc).map Prod.fst).Pairwise (· < ·) ∧
      ∀ m ∈ ms.foldl (fun acc m => insert m.1 m.2 acc) acc, m ∈ acc ∨ m ∈ ms := by
  induction ms generalizing acc with
  | nil => exact ⟨h, fun m hm => .inl hm⟩
  | cons n ms ih =>
    obtain ⟨hsorted, hmem⟩ := ih _ (insert_sorted n.1 n.2 h)
    refine ⟨hsorted, fun m hm => ?_⟩
    rcases hmem m hm with hm | hm
    · rcases mem_insert hm with rfl | hm
      · exact .inr (List.mem_cons_self ..)
      · exact .inl hm
    · exact .inr (List.mem_cons_of_mem _ hm)

theorem valid_string (s : Bytes) : (string s).Valid := trivial

theorem valid_ofMembers {ms : List (Bytes × Json)} (h : ∀ m ∈ ms, m.2.Valid) :
    (ofMembers ms).Valid := by
  obtain ⟨hsorted, hmem⟩ := foldl_insert ms [] List.Pairwise.nil
  refine ⟨hsorted, (validMembers_iff _).mpr fun m hm => ?_⟩
  rcases hmem m hm with hm | hm
  · cases hm
  · exact h m hm

/-! Writing. -/

theorem dumpElems_isSome {vs : List Json} (h : ∀ v ∈ vs, ∃ s, v.dump = some s) :
    ∃ s, dumpElems vs = some s := by
  induction vs with
  | nil => exact ⟨_, rfl⟩
  | cons v vs ih =>
    obtain ⟨s, hs⟩ := h v (List.mem_cons_self ..)
    obtain ⟨r, hr⟩ := ih fun w hw => h w (List.mem_cons_of_mem _ hw)
    cases vs with
    | nil => exact ⟨s, hs⟩
    | cons w ws =>
      rw [dumpElems, hs, hr]
      · exact ⟨_, rfl⟩
      · exact List.cons_ne_nil w ws

theorem dumpMembers_isSome {ms : List (Bytes × Json)}
    (h : ∀ m ∈ ms, (∃ s, dumpString m.1 = some s) ∧ ∃ s, m.2.dump = some s) :
    ∃ s, dumpMembers ms = some s := by
  induction ms with
  | nil => exact ⟨_, rfl⟩
  | cons m ms ih =>
    obtain ⟨k, v⟩ := m
    obtain ⟨⟨key, hkey⟩, s, hs⟩ := h (k, v) (List.mem_cons_self ..)
    obtain ⟨r, hr⟩ := ih fun w hw => h w (List.mem_cons_of_mem _ hw)
    cases ms with
    | nil =>
      rw [dumpMembers, hkey, hs]
      exact ⟨_, rfl⟩
    | cons w ws =>
      rw [dumpMembers, hkey, hs, hr]
      · exact ⟨_, rfl⟩
      · exact List.cons_ne_nil w ws

/-- The members of an object are writable. -/
def Fields (ms : List (Bytes × Json)) : Prop :=
  ∀ m ∈ ms, (dumpString m.1).isSome ∧ Writable m.2

theorem Fields.nil : Fields [] := List.forall_mem_nil _

theorem Fields.cons {k : Bytes} {v : Json} {ms : List (Bytes × Json)}
    (hk : (dumpString k).isSome) (hv : Writable v) (h : Fields ms) : Fields ((k, v) :: ms) :=
  List.forall_mem_cons.mpr ⟨⟨hk, hv⟩, h⟩

namespace Writable

theorem null : Writable null := ⟨trivial, _, rfl⟩

theorem bool (b : Bool) : Writable (bool b) := ⟨trivial, by cases b <;> exact ⟨_, rfl⟩⟩

theorem int {n : Int} (hmin : -2 ^ 63 ≤ n) (hmax : n < 2 ^ 64) : Writable (int n) :=
  ⟨⟨hmin, hmax⟩, _, rfl⟩

theorem string {s : Bytes} (h : (dumpString s).isSome) : Writable (string s) :=
  ⟨trivial, Option.isSome_iff_exists.mp h⟩

theorem array {vs : List Json} (h : ∀ v ∈ vs, Writable v) : Writable (array vs) := by
  obtain ⟨s, hs⟩ := dumpElems_isSome fun v hv => (h v hv).2
  exact ⟨(validElems_iff vs).mpr fun v hv => (h v hv).1, _, by rw [dump, hs]; rfl⟩

theorem ofMembers {ms : List (Bytes × Json)} (h : Fields ms) : Writable (ofMembers ms) := by
  obtain ⟨-, hmem⟩ := foldl_insert ms [] List.Pairwise.nil
  have hall : Fields (ms.foldl (fun acc m => insert m.1 m.2 acc) []) := by
    intro m hm
    rcases hmem m hm with hm | hm
    · cases hm
    · exact h m hm
  obtain ⟨s, hs⟩ := dumpMembers_isSome fun m hm =>
    ⟨Option.isSome_iff_exists.mp (hall m hm).1, (hall m hm).2.2⟩
  exact ⟨valid_ofMembers fun m hm => (h m hm).2.1, _, by rw [Json.ofMembers, dump, hs]; rfl⟩

/-- The document of a value. -/
def document {v : Json} (h : Writable v) (hd : v.Delimited) : Document where
  value := v
  valid := h.1
  delimited := hd
  bytes := v.dump.get (Option.isSome_iff_exists.mpr h.2)
  dump_eq := (Option.some_get _).symm

end Writable

end Json

end ForexMarket
