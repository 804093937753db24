import Mathlib.Order.Defs.LinearOrder
import Mathlib.Order.Basic
import Mathlib.Data.List.Sort

/- Finite collections ordered by a key, as ordered containers iterate them: a list
   with strictly ascending keys, the order being a field of the structure, so that a
   collection with two elements under one key cannot be built. A lookup, an insertion
   (which never overwrites), an erasure, and a rewriting of one element in place are
   each described by what they do to membership and to lookups; two collections with
   the same members are equal (`ext_mem`). -/

/-- A collection of `α` in strictly ascending order of `key`. -/
structure KeySet (α : Type) {κ : Type} [LinearOrder κ] (key : α → κ) where
  elems : List α
  sorted : elems.Pairwise (fun a b => key a < key b)

namespace KeySet

variable {α κ : Type} [LinearOrder κ] {key : α → κ}

instance : Membership α (KeySet α key) := ⟨fun s a => a ∈ s.elems⟩

instance [DecidableEq α] : DecidableEq (KeySet α key) := fun s t =>
  decidable_of_iff (s.elems = t.elems) (by cases s; cases t; simp)

instance [DecidableEq α] (a : α) (s : KeySet α key) : Decidable (a ∈ s) :=
  inferInstanceAs (Decidable (a ∈ s.elems))

theorem mem_def {s : KeySet α key} {a : α} : a ∈ s ↔ a ∈ s.elems := Iff.rfl

/-- The empty collection. -/
def empty : KeySet α key := ⟨[], .nil⟩

instance : Inhabited (KeySet α key) := ⟨empty⟩

@[simp] theorem elems_empty : (empty : KeySet α key).elems = [] := rfl

@[simp] theorem not_mem_empty (a : α) : a ∉ (empty : KeySet α key) := by
  simp [mem_def]

/-- The element under `k`, if there is one. -/
def find? (s : KeySet α key) (k : κ) : Option α := s.elems.find? (fun a => key a = k)

/-- Whether some element is under `k`. -/
def contains (s : KeySet α key) (k : κ) : Bool := (s.find? k).isSome

/-- Sorted insertion that leaves an element already under the key alone. -/
def insertList (key : α → κ) (a : α) : List α → List α
  | [] => [a]
  | b :: l =>
    if key a < key b then a :: b :: l
    else if key a = key b then b :: l
    else b :: insertList key a l

theorem mem_insertList {a b : α} {l : List α} (h : b ∈ insertList key a l) : b = a ∨ b ∈ l := by
  induction l with
  | nil => exact .inl (by simpa [insertList] using h)
  | cons c l ih =>
    simp only [insertList] at h
    split at h
    · simpa using h
    · split at h
      · exact .inr h
      · rcases List.mem_cons.mp h with rfl | h
        · exact .inr (by simp)
        · exact (ih h).imp_right (List.mem_cons_of_mem c)

theorem insertList_sorted {a : α} {l : List α} (hl : l.Pairwise (fun a b => key a < key b)) :
    (insertList key a l).Pairwise (fun a b => key a < key b) := by
  induction l with
  | nil => simp [insertList]
  | cons c l ih =>
    obtain ⟨hc, hl'⟩ := List.pairwise_cons.mp hl
    simp only [insertList]
    split
    · next hac =>
      refine List.pairwise_cons.mpr ⟨?_, hl⟩
      intro b hb
      rcases List.mem_cons.mp hb with rfl | hb
      · exact hac
      · exact hac.trans (hc b hb)
    · split
      · exact hl
      · next h1 h2 =>
        refine List.pairwise_cons.mpr ⟨?_, ih hl'⟩
        intro b hb
        rcases mem_insertList hb with rfl | hb
        · exact lt_of_le_of_ne (not_lt.mp h1) (fun e => h2 e.symm)
        · exact hc b hb

/-- The collection with `a` added, unchanged when its key is taken. -/
def insert (s : KeySet α key) (a : α) : KeySet α key :=
  ⟨insertList key a s.elems, insertList_sorted s.sorted⟩

/-- The collection without the element under `k`. -/
def erase (s : KeySet α key) (k : κ) : KeySet α key :=
  ⟨s.elems.filter (fun a => key a ≠ k), s.sorted.filter _⟩

/-- The collection with the element under the key of `a`, if any, replaced by `a`. -/
def store (s : KeySet α key) (a : α) : KeySet α key :=
  ⟨s.elems.map (fun b => if key b = key a then a else b), by
    rw [List.pairwise_map]
    apply s.sorted.imp
    intro x y hxy
    split <;> split <;> simp_all⟩

/-- The collection with the element under `k`, if any, rewritten by `f`, which keeps keys. -/
def modify (s : KeySet α key) (k : κ) (f : α → α) (hf : ∀ a, key (f a) = key a) : KeySet α key :=
  ⟨s.elems.map (fun b => if key b = k then f b else b), by
    rw [List.pairwise_map]
    apply s.sorted.imp
    intro x y hxy
    split <;> split <;> simpa [hf] using hxy⟩

/-- The element with the least key. -/
def first? (s : KeySet α key) : Option α := s.elems.head?

/-- The element with the greatest key. -/
def last? (s : KeySet α key) : Option α := s.elems.getLast?

/-- Whether there is no element. -/
def isEmpty (s : KeySet α key) : Bool := s.elems.isEmpty

/-! Elements and keys. -/

theorem key_inj {s : KeySet α key} {a b : α} (ha : a ∈ s) (hb : b ∈ s) (h : key a = key b) :
    a = b := by
  refine List.Pairwise.forall_of_forall_of_flip (R := fun x y => key x = key y → x = y)
    (fun _ _ _ => rfl) (s.sorted.imp ?_) (s.sorted.imp ?_) ha hb h
  · exact fun hlt he => absurd he hlt.ne
  · exact fun hlt he => absurd he hlt.ne'

theorem nodup (s : KeySet α key) : s.elems.Nodup :=
  s.sorted.imp fun h e => absurd (congrArg key e) h.ne

/-- Two collections with the same members are equal. -/
theorem ext_mem {s t : KeySet α key} (h : ∀ a, a ∈ s ↔ a ∈ t) : s = t := by
  -- two sorted lists with the same members are one list
  have hp : s.elems.Perm t.elems := (List.perm_ext_iff_of_nodup s.nodup t.nodup).mpr h
  have he : s.elems = t.elems :=
    hp.eq_of_pairwise (fun a b _ _ hab hba => absurd hab hba.not_gt) s.sorted t.sorted
  cases s; cases t; simpa using he

theorem find?_eq_some {s : KeySet α key} {k : κ} {a : α} :
    s.find? k = some a ↔ a ∈ s ∧ key a = k := by
  constructor
  · intro h
    exact ⟨List.mem_of_find?_eq_some h, by simpa using List.find?_some h⟩
  · rintro ⟨ha, rfl⟩
    cases h : s.find? (key a) with
    | none => simpa using List.find?_eq_none.mp h a ha
    | some b =>
      have hb : key b = key a := by simpa using List.find?_some h
      rw [key_inj (List.mem_of_find?_eq_some h) ha hb]

theorem find?_eq_none {s : KeySet α key} {k : κ} : s.find? k = none ↔ ∀ a ∈ s, key a ≠ k := by
  simp [find?, mem_def]

theorem find?_of_mem {s : KeySet α key} {a : α} (h : a ∈ s) : s.find? (key a) = some a :=
  find?_eq_some.mpr ⟨h, rfl⟩

@[simp] theorem find?_empty (k : κ) : (empty : KeySet α key).find? k = none := rfl

theorem contains_iff {s : KeySet α key} {k : κ} : s.contains k = true ↔ ∃ a ∈ s, key a = k := by
  simp [contains, find?, mem_def]

theorem isEmpty_iff {s : KeySet α key} : s.isEmpty = true ↔ ∀ a, a ∉ s := by
  simp [isEmpty, mem_def, List.eq_nil_iff_forall_not_mem]

theorem first?_mem {s : KeySet α key} {a : α} (h : s.first? = some a) : a ∈ s :=
  List.mem_of_mem_head? h

theorem last?_mem {s : KeySet α key} {a : α} (h : s.last? = some a) : a ∈ s :=
  List.mem_of_mem_getLast? h

/-- The first element has the least key. -/
theorem first?_le {s : KeySet α key} {a b : α} (h : s.first? = some a) (hb : b ∈ s) :
    key a ≤ key b := by
  obtain ⟨l, hl⟩ : ∃ l, s.elems = a :: l := by
    unfold first? at h
    cases hs : s.elems with
    | nil => simp [hs] at h
    | cons c l => rw [hs] at h; exact ⟨l, by simpa using h⟩
  have hp := s.sorted
  rw [hl] at hp
  rw [mem_def, hl] at hb
  rcases List.mem_cons.mp hb with rfl | hb
  · exact le_rfl
  · exact ((List.pairwise_cons.mp hp).1 b hb).le

/-- The last element has the greatest key. -/
theorem le_last? {s : KeySet α key} {a b : α} (h : s.last? = some a) (hb : b ∈ s) :
    key b ≤ key a := by
  obtain ⟨l, hl⟩ := List.getLast?_eq_some_iff.mp h
  have hp := s.sorted
  rw [hl] at hp
  rw [mem_def, hl] at hb
  rcases List.mem_append.mp hb with hb | hb
  · exact ((List.pairwise_append.mp hp).2.2 b hb a (by simp)).le
  · rw [List.mem_singleton.mp hb]

theorem first?_isSome {s : KeySet α key} (h : s.isEmpty = false) : ∃ a, s.first? = some a := by
  cases hs : s.elems with
  | nil => simp [isEmpty, hs] at h
  | cons a l => exact ⟨a, by simp [first?, hs]⟩

theorem last?_isSome {s : KeySet α key} (h : s.isEmpty = false) : ∃ a, s.last? = some a := by
  cases hs : s.last? with
  | none => rw [last?, List.getLast?_eq_none_iff] at hs; simp [isEmpty, hs] at h
  | some a => exact ⟨a, rfl⟩

/-! What the operations do to membership and to lookups. -/

theorem mem_insert {s : KeySet α key} {a b : α} :
    b ∈ s.insert a ↔ b ∈ s ∨ (b = a ∧ ∀ c ∈ s, key c ≠ key a) := by
  obtain ⟨l, hl⟩ := s
  show b ∈ insertList key a l ↔ b ∈ l ∨ (b = a ∧ ∀ c ∈ l, key c ≠ key a)
  induction l with
  | nil => simp [insertList]
  | cons c l ih =>
    obtain ⟨hc, hl'⟩ := List.pairwise_cons.mp hl
    have ih := ih hl'
    simp only [insertList]
    split
    · next hac =>
      have hfresh : ∀ d ∈ c :: l, key d ≠ key a := by
        intro d hd
        rcases List.mem_cons.mp hd with rfl | hd
        · exact hac.ne'
        · exact (hac.trans (hc d hd)).ne'
      rw [and_iff_left hfresh, List.mem_cons, or_comm]
    · split
      · next hac => simp [← hac]
      · next hac =>
        have hne : key c ≠ key a := fun e => hac e.symm
        simp only [List.mem_cons, ih, forall_eq_or_imp]
        rw [and_iff_right hne, or_assoc]

theorem mem_insert_of_fresh {s : KeySet α key} {a b : α} (h : ∀ c ∈ s, key c ≠ key a) :
    b ∈ s.insert a ↔ b ∈ s ∨ b = a := by
  rw [mem_insert, and_iff_left h]

theorem mem_erase {s : KeySet α key} {k : κ} {b : α} : b ∈ s.erase k ↔ b ∈ s ∧ key b ≠ k := by
  simp [erase, mem_def]

theorem mem_store {s : KeySet α key} {a b : α} :
    b ∈ s.store a ↔ (b ∈ s ∧ key b ≠ key a) ∨ (b = a ∧ ∃ c ∈ s, key c = key a) := by
  simp only [store, mem_def, List.mem_map]
  constructor
  · rintro ⟨c, hc, rfl⟩
    split
    · next h => exact .inr ⟨rfl, c, hc, h⟩
    · next h => exact .inl ⟨hc, h⟩
  · rintro (⟨hb, hne⟩ | ⟨rfl, c, hc, h⟩)
    · exact ⟨b, hb, by simp [hne]⟩
    · exact ⟨c, hc, by simp [h]⟩

theorem mem_modify {s : KeySet α key} {k : κ} {f : α → α} {hf : ∀ a, key (f a) = key a} {b : α} :
    b ∈ s.modify k f hf ↔ ∃ a ∈ s, b = if key a = k then f a else a := by
  simp [modify, mem_def, eq_comm]

@[simp] theorem find?_insert (s : KeySet α key) (a : α) (k : κ) :
    (s.insert a).find? k = (s.find? k).or (if key a = k then some a else none) := by
  cases h : s.find? k with
  | some b =>
    obtain ⟨hb, hk⟩ := find?_eq_some.mp h
    exact find?_eq_some.mpr ⟨mem_insert.mpr (.inl hb), hk⟩
  | none =>
    have hn := find?_eq_none.mp h
    simp only [Option.none_or]
    split
    · next ha =>
      exact find?_eq_some.mpr ⟨mem_insert.mpr (.inr ⟨rfl, fun c hc => ha ▸ hn c hc⟩), ha⟩
    · next ha =>
      refine find?_eq_none.mpr ?_
      intro b hb
      rcases mem_insert.mp hb with hb | ⟨rfl, -⟩
      · exact hn b hb
      · exact ha

@[simp] theorem find?_erase (s : KeySet α key) (k k' : κ) :
    (s.erase k).find? k' = if k' = k then none else s.find? k' := by
  split
  · next h => exact find?_eq_none.mpr fun a ha e => (mem_erase.mp ha).2 (e.trans h)
  · next h =>
    cases hs : s.find? k' with
    | none => exact find?_eq_none.mpr fun a ha => find?_eq_none.mp hs a (mem_erase.mp ha).1
    | some a =>
      obtain ⟨ha, hk⟩ := find?_eq_some.mp hs
      exact find?_eq_some.mpr ⟨mem_erase.mpr ⟨ha, by rwa [hk]⟩, hk⟩

@[simp] theorem find?_store (s : KeySet α key) (a : α) (k : κ) :
    (s.store a).find? k = if k = key a then (s.find? k).map (fun _ => a) else s.find? k := by
  split
  · next h =>
    cases hs : s.find? k with
    | none =>
      refine find?_eq_none.mpr ?_
      intro b hb
      rcases mem_store.mp hb with ⟨hb, hne⟩ | ⟨-, c, hc, hca⟩
      · exact find?_eq_none.mp hs b hb
      · exact absurd (hca.trans h.symm) (find?_eq_none.mp hs c hc)
    | some c =>
      obtain ⟨hc, hk⟩ := find?_eq_some.mp hs
      exact find?_eq_some.mpr ⟨mem_store.mpr (.inr ⟨rfl, c, hc, hk.trans h⟩), h.symm⟩
  · next h =>
    cases hs : s.find? k with
    | none =>
      refine find?_eq_none.mpr ?_
      intro b hb
      rcases mem_store.mp hb with ⟨hb, -⟩ | ⟨rfl, -⟩
      · exact find?_eq_none.mp hs b hb
      · exact fun e => h e.symm
    | some c =>
      obtain ⟨hc, hk⟩ := find?_eq_some.mp hs
      exact find?_eq_some.mpr ⟨mem_store.mpr (.inl ⟨hc, by rwa [hk]⟩), hk⟩

@[simp] theorem find?_modify (s : KeySet α key) (k k' : κ) (f : α → α)
    (hf : ∀ a, key (f a) = key a) :
    (s.modify k f hf).find? k' = if k' = k then (s.find? k').map f else s.find? k' := by
  have hfind : (s.modify k f hf).find? k' =
      (s.find? k').map (fun b => if key b = k then f b else b) := by
    simp only [find?, modify, List.find?_map]
    congr 2
    funext b
    simp only [Function.comp_apply]
    split <;> simp [hf]
  rw [hfind]
  cases hs : s.find? k' with
  | none => simp
  | some a =>
    have hk := (find?_eq_some.mp hs).2
    by_cases h : k' = k <;> simp [hk, h]

/-- Rewriting an element as it is changes nothing. -/
theorem modify_self {s : KeySet α key} {k : κ} {f : α → α} {hf : ∀ a, key (f a) = key a}
    (h : ∀ a, s.find? k = some a → f a = a) : s.modify k f hf = s := by
  have hsame : ∀ a ∈ s, (if key a = k then f a else a) = a := by
    intro a ha
    split
    · next hk => exact h a (find?_eq_some.mpr ⟨ha, hk⟩)
    · rfl
  apply ext_mem
  intro b
  rw [mem_modify]
  refine ⟨?_, fun hb => ⟨b, hb, (hsame b hb).symm⟩⟩
  intro ⟨a, ha, hab⟩
  rwa [hab, hsame a ha]

theorem erase_erase (s : KeySet α key) (k : κ) : (s.erase k).erase k = s.erase k := by
  apply ext_mem
  intro b
  rw [mem_erase, mem_erase, and_assoc, and_self]

/-- Erasing what was just inserted under a new key. -/
theorem erase_insert {s : KeySet α key} {a : α} (h : ∀ c ∈ s, key c ≠ key a) :
    (s.insert a).erase (key a) = s := by
  apply ext_mem
  intro b
  rw [mem_erase, mem_insert_of_fresh h]
  constructor
  · rintro ⟨hb | rfl, hk⟩
    · exact hb
    · exact absurd rfl hk
  · exact fun hb => ⟨.inl hb, h b hb⟩

/-- Collections that hold the same under every key are one. -/
theorem ext_find? {s t : KeySet α key} (h : ∀ k, s.find? k = t.find? k) : s = t := by
  have hmem (s : KeySet α key) (a : α) : a ∈ s ↔ s.find? (key a) = some a := by
    simp [find?_eq_some]
  exact ext_mem fun a => by rw [hmem, hmem, h]

theorem erase_comm (s : KeySet α key) (k k' : κ) :
    (s.erase k).erase k' = (s.erase k').erase k := by
  refine ext_find? fun i => ?_
  simp only [find?_erase]
  split_ifs <;> rfl

/-- An element of another key is stored before an erasure or after it. -/
theorem store_erase {s : KeySet α key} {a : α} {k : κ} (h : key a ≠ k) :
    (s.erase k).store a = (s.store a).erase k := by
  refine ext_find? fun i => ?_
  simp only [find?_erase, find?_store]
  by_cases hi : i = k
  · rw [if_pos hi, if_neg fun e => h (e.symm.trans hi), if_pos hi]
  · rw [if_neg hi, if_neg hi]

theorem insert_erase {s : KeySet α key} {a : α} {k : κ} (h : key a ≠ k) :
    (s.erase k).insert a = (s.insert a).erase k := by
  refine ext_find? fun i => ?_
  simp only [find?_erase, find?_insert]
  by_cases hi : i = k
  · rw [if_pos hi, if_pos hi, if_neg fun e => h (e.trans hi)]
    rfl
  · rw [if_neg hi, if_neg hi]

theorem erase_of_find?_eq_none {s : KeySet α key} {k : κ} (h : s.find? k = none) :
    s.erase k = s := by
  apply ext_mem
  intro b
  rw [mem_erase]
  exact ⟨fun hb => hb.1, fun hb => ⟨hb, find?_eq_none.mp h b hb⟩⟩

/-- A rewritten element goes like the one it was. -/
theorem erase_modify (s : KeySet α key) (k : κ) (f : α → α) (hf : ∀ a, key (f a) = key a) :
    (s.modify k f hf).erase k = s.erase k := by
  apply ext_mem
  intro b
  rw [mem_erase, mem_erase, mem_modify]
  refine and_congr_left fun hb => ⟨?_, fun h => ⟨b, h, by rw [if_neg hb]⟩⟩
  intro ⟨a, ha, he⟩
  by_cases hk : key a = k
  · rw [he, if_pos hk, hf] at hb
    exact absurd hk hb
  · rwa [he, if_neg hk]

/-- Insertion above every key appends. -/
theorem elems_insert_of_lt {s : KeySet α key} {a : α} (h : ∀ b ∈ s, key b < key a) :
    (s.insert a).elems = s.elems ++ [a] := by
  suffices hl : ∀ l : List α, (∀ b ∈ l, key b < key a) → insertList key a l = l ++ [a] from
    hl s.elems h
  intro l h
  induction l with
  | nil => rfl
  | cons c l ih =>
    have hc := h c (by simp)
    simp only [insertList, hc.not_gt, hc.ne', if_false, List.cons_append]
    rw [ih fun b hb => h b (List.mem_cons_of_mem c hb)]

theorem insert_of_contains {s : KeySet α key} {a : α} (h : ∃ c ∈ s, key c = key a) :
    s.insert a = s := by
  apply ext_mem
  intro b
  rw [mem_insert]
  obtain ⟨c, hc, hk⟩ := h
  exact ⟨fun hb => hb.elim id fun hb => absurd hk (hb.2 c hc), .inl⟩

theorem length_erase_lt {s : KeySet α key} {a : α} (h : a ∈ s) :
    (s.erase (key a)).elems.length < s.elems.length := by
  refine List.length_filter_lt_length_iff_exists.mpr ⟨a, h, by simp⟩

/-! The elements after an operation, up to order. -/

theorem perm_erase {s : KeySet α key} {a : α} (h : a ∈ s) :
    s.elems.Perm (a :: (s.erase (key a)).elems) := by
  refine (List.perm_ext_iff_of_nodup s.nodup ?_).mpr ?_
  · refine List.nodup_cons.mpr ⟨?_, nodup _⟩
    intro ha
    exact (mem_erase.mp ha).2 rfl
  · intro b
    rw [List.mem_cons]
    show b ∈ s ↔ b = a ∨ b ∈ s.erase (key a)
    rw [mem_erase]
    by_cases hk : key b = key a
    · have hba : b ∈ s ↔ b = a := ⟨fun hb => key_inj hb h hk, fun e => e ▸ h⟩
      simp [hba, hk]
    · have hba : b ≠ a := fun e => hk (congrArg key e)
      simp [hk, hba]

theorem perm_insert {s : KeySet α key} {a : α} (h : ∀ c ∈ s, key c ≠ key a) :
    (s.insert a).elems.Perm (a :: s.elems) := by
  refine (List.perm_ext_iff_of_nodup (nodup _) ?_).mpr ?_
  · exact List.nodup_cons.mpr ⟨fun ha => h a ha rfl, s.nodup⟩
  · intro b
    rw [List.mem_cons]
    show b ∈ s.insert a ↔ b = a ∨ b ∈ s
    rw [mem_insert_of_fresh h, or_comm]

theorem perm_store {s : KeySet α key} {a c : α} (h : c ∈ s) (hk : key c = key a) :
    (s.store a).elems.Perm (a :: (s.erase (key a)).elems) := by
  have hne : ∀ b ∈ (s.erase (key a)).elems, (if key b = key a then a else b) = b :=
    fun b hb => if_neg (mem_erase.mp hb).2
  have hp := (perm_erase h).map (fun b => if key b = key a then a else b)
  rw [hk] at hp
  simpa [List.map_congr_left hne, store, hk] using hp

end KeySet
