import Mathlib.Data.List.MinMax

/- Selection of the best candidate of a list: among the elements that qualify, one of
   least rank. Where the rank tells elements apart there is at most one. A map that keeps
   which elements qualify and how their ranks compare keeps the selection. -/

namespace Select

variable {α β : Type} [LinearOrder β]

/-- The qualifying element of least rank. -/
def best? (p : α → Bool) (rank : α → β) (l : List α) : Option α := (l.filter p).argmin rank

variable {p : α → Bool} {rank : α → β} {l : List α}

theorem best?_eq_none : best? p rank l = none ↔ ∀ a ∈ l, p a = false := by
  simp [best?, List.filter_eq_nil_iff]

theorem best?_mem {a : α} (h : best? p rank l = some a) : a ∈ l ∧ p a = true := by
  simpa using List.argmin_mem h

theorem best?_le {a b : α} (h : best? p rank l = some a) (hb : b ∈ l) (hp : p b = true) :
    rank a ≤ rank b :=
  List.le_of_mem_argmin (List.mem_filter.mpr ⟨hb, hp⟩) h

/-- A qualifying element below every other qualifying one is the selected one. -/
theorem best?_eq_some {a : α} (ha : a ∈ l) (hp : p a = true)
    (hlt : ∀ b ∈ l, p b = true → b ≠ a → rank a < rank b) : best? p rank l = some a := by
  cases h : best? p rank l with
  | none => rw [best?_eq_none.mp h a ha] at hp; cases hp
  | some b =>
    obtain ⟨hb, hpb⟩ := best?_mem h
    by_cases hba : b = a
    · rw [hba]
    · exact absurd (best?_le h ha hp) (hlt b hb hpb hba).not_ge

/-- Selection commutes with a map that keeps which elements qualify and how they compare. -/
theorem best?_map {γ δ : Type} [LinearOrder δ] {f : α → γ} {p' : γ → Bool} {rank' : γ → δ}
    (hp : ∀ a ∈ l, p' (f a) = p a)
    (hrank : ∀ a ∈ l, ∀ b ∈ l, rank' (f a) < rank' (f b) ↔ rank a < rank b) :
    best? p' rank' (l.map f) = (best? p rank l).map f := by
  induction l using List.reverseRecOn with
  | nil => rfl
  | append_singleton l a ih =>
    have hl : best? p' rank' (l.map f) = (best? p rank l).map f :=
      ih (fun b hb => hp b (List.mem_append_left _ hb))
        (fun b hb c hc => hrank b (List.mem_append_left _ hb) c (List.mem_append_left _ hc))
    have hpa : p' (f a) = p a := hp a (by simp)
    unfold best? at hl ⊢
    rw [List.map_append, List.filter_append, List.filter_append]
    by_cases hq : p a = true
    · have hq' : p' (f a) = true := hpa.trans hq
      simp only [List.map_cons, List.map_nil, List.filter_cons_of_pos hq,
        List.filter_cons_of_pos hq', List.filter_nil, List.argmin_concat, hl]
      cases hbest : (l.filter p).argmin rank with
      | none => rfl
      | some b =>
        have hb : b ∈ l := (List.mem_filter.mp (List.argmin_mem hbest)).1
        have hcmp := hrank a (by simp) b (List.mem_append_left _ hb)
        simp only [Option.map_some]
        by_cases hlt : rank a < rank b
        · rw [if_pos hlt, if_pos (hcmp.mpr hlt)]
          rfl
        · rw [if_neg hlt, if_neg (mt hcmp.mp hlt)]
          rfl
    · have hq' : ¬ p' (f a) = true := by rw [hpa]; exact hq
      simp only [List.map_cons, List.map_nil, List.filter_cons_of_neg hq,
        List.filter_cons_of_neg hq', List.filter_nil, List.append_nil, hl]

end Select
