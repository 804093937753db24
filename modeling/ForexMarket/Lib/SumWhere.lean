import Mathlib.Algebra.BigOperators.Group.List.Basic
import Mathlib.Algebra.Ring.Int.Defs

/- The sum of a quantity over the elements of a list that meet a condition: how it
   grows with the list, that it does not depend on the order, and that the sums over
   the classes of a key add up to the sum over the list (`sum_classes`). -/

namespace Sums

variable {α β M : Type} [AddCommMonoid M]

/-- The sum of `f` over the elements of `l` that meet `p`. -/
def sumWhere (p : α → Bool) (f : α → M) (l : List α) : M := ((l.filter p).map f).sum

variable {p : α → Bool} {f : α → M}

@[simp] theorem sumWhere_nil : sumWhere p f [] = 0 := rfl

theorem sumWhere_cons (a : α) (l : List α) :
    sumWhere p f (a :: l) = (if p a then f a else 0) + sumWhere p f l := by
  unfold sumWhere
  by_cases h : p a = true
  · simp [h]
  · simp [h]

theorem sumWhere_append (l l' : List α) :
    sumWhere p f (l ++ l') = sumWhere p f l + sumWhere p f l' := by
  simp [sumWhere]

theorem sumWhere_perm {l l' : List α} (h : l.Perm l') : sumWhere p f l = sumWhere p f l' :=
  ((h.filter p).map f).sum_eq

theorem sumWhere_of_none {l : List α} (h : ∀ a ∈ l, p a = false) : sumWhere p f l = 0 := by
  rw [sumWhere, List.filter_eq_nil_iff.mpr fun a ha => by simp [h a ha]]
  rfl

/-- Elements that do not meet the condition may be left out. -/
theorem sumWhere_filter {q : α → Bool} (hq : ∀ a, p a = true → q a = true) (l : List α) :
    sumWhere p f (l.filter q) = sumWhere p f l := by
  unfold sumWhere
  rw [List.filter_filter]
  congr 2
  apply List.filter_congr
  intro a _
  cases hp : p a with
  | true => simp [hq a hp]
  | false => simp

/-- A quantity that only one of the keys has. -/
theorem sum_single [DecidableEq β] {ks : List β} (hks : ks.Nodup) {k : β} (hk : k ∈ ks) (x : M) :
    (ks.map (fun k' => if k = k' then x else 0)).sum = x := by
  induction ks with
  | nil => cases hk
  | cons k' ks ih =>
    obtain ⟨hnot, hks⟩ := List.nodup_cons.mp hks
    rw [List.map_cons, List.sum_cons]
    cases List.mem_cons.mp hk with
    | inl he =>
      have hzero : ks.map (fun k' => if k = k' then x else 0) = ks.map (fun _ => (0 : M)) := by
        apply List.map_congr_left
        intro k'' hk''
        exact if_neg fun e => hnot (by rw [← he, e]; exact hk'')
      rw [if_pos he, hzero]
      simp
    | inr hmem =>
      rw [if_neg (fun e => hnot (by rw [← e]; exact hmem)), zero_add, ih hks hmem]

/-- The sums over the classes of a key add up to the whole. -/
theorem sum_classes [DecidableEq β] (key : α → β) {ks : List β} (hks : ks.Nodup) {l : List α}
    (hl : ∀ a ∈ l, key a ∈ ks) :
    (ks.map (fun k => sumWhere (fun a => key a = k) f l)).sum = (l.map f).sum := by
  induction l with
  | nil => simp
  | cons a l ih =>
    have hone := sum_single hks (hl a (List.mem_cons_self ..)) (f a)
    have hrest := ih fun b hb => hl b (List.mem_cons_of_mem a hb)
    calc (ks.map (fun k => sumWhere (fun a => key a = k) f (a :: l))).sum
        = (ks.map (fun k => (if key a = k then f a else 0) +
            sumWhere (fun a => key a = k) f l)).sum := by
          congr 1
          apply List.map_congr_left
          intro k _
          rw [sumWhere_cons]
          simp
      _ = (ks.map (fun k => if key a = k then f a else 0)).sum +
            (ks.map (fun k => sumWhere (fun a => key a = k) f l)).sum := List.sum_map_add
      _ = ((a :: l).map f).sum := by rw [hone, hrest, List.map_cons, List.sum_cons]

theorem sumWhere_neg {G : Type} [AddCommGroup G] {g : α → G} (l : List α) :
    sumWhere p (fun a => -g a) l = -sumWhere p g l := by
  induction l with
  | nil => simp
  | cons a l ih =>
    rw [sumWhere_cons, sumWhere_cons, ih, neg_add]
    split <;> simp

/-- In a difference of sums what meets both conditions may be left out. -/
theorem sumWhere_sub {G : Type} [AddCommGroup G] (p q : α → Bool) (g : α → G) (l : List α) :
    sumWhere p g l - sumWhere q g l =
      sumWhere (fun a => p a && !q a) g l - sumWhere (fun a => q a && !p a) g l := by
  induction l with
  | nil => rfl
  | cons a l ih =>
    simp only [sumWhere_cons]
    rw [add_sub_add_comm, add_sub_add_comm, ih]
    congr 1
    cases p a <;> cases q a <;> simp

/-- What meets one of two conditions is what meets the first alone, the second alone, or both. -/
theorem filter_roles_perm (p q : α → Bool) (l : List α) :
    (l.filter (fun a => p a && !q a) ++ l.filter (fun a => q a && !p a) ++
      l.filter (fun a => p a && q a)).Perm (l.filter fun a => p a || q a) := by
  induction l with
  | nil => exact .nil
  | cons a l ih =>
    cases hp : p a with
    | true =>
      cases hq : q a with
      | true => simpa [hp, hq] using List.perm_middle.trans (ih.cons a)
      | false => simpa [hp, hq] using ih
    | false =>
      cases hq : q a with
      | true =>
        rw [List.append_assoc] at ih
        simpa [hp, hq] using List.perm_middle.trans (ih.cons a)
      | false => simpa [hp, hq] using ih

end Sums
