import ForexMarket.Lib.Istream

/- Text that is typed line by line. A line that holds one integer and nothing else is what the
   next extraction reads, and the lines after it are left (`At.extract`); a line with no
   integer that is kept is lost to it (`At.next`); one of blanks is not noticed (`At.blank`).
   Two words are read as they are typed (`extractWord_eq`). -/

namespace Istream

/-- The text of some lines. -/
def typed (ls : List (List UInt8)) : List UInt8 := ls.flatMap (· ++ [newline])

/-- Nothing but blanks. -/
def Blank (s : List UInt8) : Prop := ∀ b ∈ s, isSpace b = true

instance (s : List UInt8) : Decidable (Blank s) :=
  List.decidableBAll (fun b => isSpace b = true) s

/-- A word: characters that are not blanks. -/
def Word (s : List UInt8) : Prop := s ≠ [] ∧ ∀ b ∈ s, isSpace b = false

instance (s : List UInt8) : Decidable (Word s) :=
  have := List.decidableBAll (fun b => isSpace b = false) s
  inferInstanceAs (Decidable (s ≠ [] ∧ ∀ b ∈ s, isSpace b = false))

/-- The line holds this integer of the range, with blanks around it, and nothing else. -/
structure Holds (lo hi : Int) (l : List UInt8) (n : Int) : Prop where
  line : newline ∉ l
  value : leading lo hi l = some n
  alone : Blank (intField (l.dropWhile isSpace)).2

/-- These lines are left to be read, after blanks. -/
structure At (s : Istream) (ls : List (List UInt8)) : Prop where
  good : s.good = true
  rest : ∃ blanks, Blank blanks ∧ s.rest = blanks ++ typed ls

theorem typed_cons (l : List UInt8) (ls : List (List UInt8)) :
    typed (l :: ls) = l ++ newline :: typed ls := by
  rw [typed, List.flatMap_cons, List.append_assoc]
  rfl

theorem typed_append (ls ms : List (List UInt8)) : typed (ls ++ ms) = typed ls ++ typed ms :=
  List.flatMap_append

theorem Blank.append {s t : List UInt8} (hs : Blank s) (ht : Blank t) : Blank (s ++ t) :=
  List.forall_mem_append.mpr ⟨hs, ht⟩

theorem blank_newline : Blank [newline] := by decide

theorem Blank.dropWhile {s : List UInt8} (h : Blank s) (t : List UInt8) :
    (s ++ t).dropWhile isSpace = t.dropWhile isSpace :=
  List.dropWhile_append_of_pos h

theorem good_of {s : Istream} (heof : s.eofbit = false) (hfail : s.failbit = false) :
    s.good = true := by
  rw [good, heof, hfail]
  rfl

/-! Fields. -/

theorem sign_append {s : List UInt8} (h : s ≠ []) (t : List UInt8) :
    sign (s ++ t) = ((sign s).1, (sign s).2 ++ t) := by
  cases s with
  | nil => exact absurd rfl h
  | cons b s =>
    simp only [sign, List.cons_append]
    repeat' split
    · rfl
    · rfl
    · rfl

/-- A field ends where its line does. -/
theorem intField_append {s : List UInt8} (h : s ≠ []) (t : List UInt8) :
    intField (s ++ newline :: t) = ((intField s).1, (intField s).2 ++ newline :: t) := by
  have hnewline : isDigit newline = false := by decide
  have htake : ((sign s).2 ++ newline :: t).takeWhile isDigit = (sign s).2.takeWhile isDigit := by
    rw [List.takeWhile_append]
    split
    · next hall =>
      rw [List.takeWhile_cons_of_neg (by simp [hnewline]), List.append_nil]
      exact ((List.takeWhile_prefix isDigit).eq_of_length hall).symm
    · rfl
  have hdrop : ((sign s).2 ++ newline :: t).dropWhile isDigit =
      (sign s).2.dropWhile isDigit ++ newline :: t := by
    rw [List.dropWhile_append]
    split
    · next hall =>
      rw [List.dropWhile_cons_of_neg (by simp [hnewline]), List.isEmpty_iff.mp hall]
      rfl
    · rfl
  simp only [intField, sign_append h, htake, hdrop]

/-! Lines. -/

variable {s : Istream} {l : List UInt8} {ls : List (List UInt8)} {lo hi n : Int}

theorem At.rest_ne_nil (h : s.At (l :: ls)) : s.rest ≠ [] := by
  obtain ⟨blanks, -, hrest⟩ := h.rest
  rw [hrest, typed_cons]
  simp

/-- A line of blanks is not noticed. -/
theorem At.blank (h : s.At (l :: ls)) (hl : Blank l) : s.At ls := by
  obtain ⟨blanks, hblanks, hrest⟩ := h.rest
  refine ⟨h.good, blanks ++ l ++ [newline], (hblanks.append hl).append blank_newline, ?_⟩
  rw [hrest, typed_cons]
  simp

/-- What is next, when the line is not one of blanks. -/
theorem At.dropWhile (h : s.At (l :: ls)) (hl : l.dropWhile isSpace ≠ []) :
    s.rest.dropWhile isSpace = l.dropWhile isSpace ++ newline :: typed ls := by
  obtain ⟨blanks, hblanks, hrest⟩ := h.rest
  rw [hrest, typed_cons, hblanks.dropWhile, List.dropWhile_append,
    if_neg fun hempty => hl (List.isEmpty_iff.mp hempty)]

theorem At.peek (h : s.At (l :: ls)) (hl : l.dropWhile isSpace ≠ []) :
    s.peek lo hi = leading lo hi l := by
  rw [Istream.peek, if_pos h.good, leading, leading, h.dropWhile hl, intField_append hl]

/-- What an extraction leaves, whether it fails or not. -/
theorem extract_rest (hgood : s.good = true) (hne : s.rest.dropWhile isSpace ≠ [])
    (lo hi var : Int) :
    (s.extract lo hi var).1.rest = (intField (s.rest.dropWhile isSpace)).2 ∧
      (s.extract lo hi var).1.eofbit = (intField (s.rest.dropWhile isSpace)).2.isEmpty := by
  rw [Istream.extract, if_pos hgood]
  cases hbody : s.rest.dropWhile isSpace with
  | nil => exact absurd hbody hne
  | cons b body =>
    dsimp only
    repeat' split
    · exact ⟨rfl, rfl⟩
    · exact ⟨rfl, rfl⟩
    · exact ⟨rfl, rfl⟩

theorem At.extract_rest (h : s.At (l :: ls)) (hl : l.dropWhile isSpace ≠ []) (lo hi var : Int) :
    (s.extract lo hi var).1.rest =
        (intField (l.dropWhile isSpace)).2 ++ newline :: typed ls ∧
      (s.extract lo hi var).1.eofbit = false := by
  have hne : s.rest.dropWhile isSpace ≠ [] := by
    rw [h.dropWhile hl]
    exact List.append_ne_nil_of_left_ne_nil hl _
  have hrest := Istream.extract_rest h.good hne lo hi var
  rw [h.dropWhile hl, intField_append hl] at hrest
  refine ⟨hrest.1, hrest.2.trans ?_⟩
  cases (intField (l.dropWhile isSpace)).2 <;> rfl

theorem dropWhile_ne_nil_of_leading (h : leading lo hi l = some n) :
    l.dropWhile isSpace ≠ [] := by
  intro hnil
  rw [leading, hnil] at h
  cases h

/-- A line that holds an integer is read by one extraction. -/
theorem At.extract (h : s.At (l :: ls)) (hl : Holds lo hi l n) (var : Int) :
    s.peek lo hi = some n ∧ (s.extract lo hi var).1.At ls := by
  have hne := dropWhile_ne_nil_of_leading hl.value
  have hpeek : s.peek lo hi = some n := (h.peek hne).trans hl.value
  obtain ⟨hrest, heof⟩ := h.extract_rest hne lo hi var
  refine ⟨hpeek, good_of heof (extract_of_some hpeek var).1, _, hl.alone.append blank_newline, ?_⟩
  rw [hrest]
  simp

/-- A line that is not one of blanks is lost to an extraction whose value is not kept. -/
theorem At.next (h : s.At (l :: ls)) (hline : newline ∉ l) (hl : l.dropWhile isSpace ≠ [])
    (var : Int) : (s.next lo hi var).At ls := by
  obtain ⟨hrest, -⟩ := h.extract_rest hl lo hi var
  have hbody : ∀ b ∈ l.dropWhile isSpace, decide (b ≠ newline) = true := by
    intro b hb
    refine decide_eq_true fun heq => hline ?_
    rw [← heq]
    exact (List.dropWhile_suffix isSpace).subset hb
  have hdrop : (s.extract lo hi var).1.rest.dropWhile (· ≠ newline) = newline :: typed ls := by
    have hfield := dropWhile_intField (l.dropWhile isSpace ++ newline :: typed ls)
    rw [intField_append hl, List.dropWhile_append_of_pos hbody] at hfield
    rw [hrest, hfield]
    exact List.dropWhile_cons_of_neg (by simp)
  have hclear : (s.extract lo hi var).1.clear.good = true := rfl
  have hnext : s.next lo hi var = of (typed ls) := by
    rw [Istream.next, ignoreLine, if_pos hclear]
    have hsame : (s.extract lo hi var).1.clear.rest = (s.extract lo hi var).1.rest := rfl
    rw [hsame, hdrop]
  rw [hnext]
  exact ⟨rfl, [], by decide, rfl⟩

theorem blank_of_mem_lineStarts {s l : List UInt8} (h : Blank s) (hl : l ∈ lineStarts s) :
    Blank l := by
  induction s with
  | nil => rw [List.mem_singleton.mp hl]; exact h
  | cons b s ih =>
    have hs : Blank s := fun c hc => h c (List.mem_cons_of_mem _ hc)
    rcases List.mem_cons.mp hl with rfl | hl
    · exact h
    · rw [afterNewlines] at hl
      split at hl
      · exact ih hs hl
      · exact ih hs (List.mem_cons_of_mem _ hl)

/-- Where only blanks are left nothing is offered. -/
theorem not_offers_of_blank (hgood : s.good = true) (h : Blank s.rest) : ¬ s.Offers lo hi n := by
  have hfail : s.failbit = false := by
    rw [good, Bool.and_eq_true, Bool.not_eq_true', Bool.not_eq_true'] at hgood
    exact hgood.2
  rw [Offers, unread, hfail]
  rintro ⟨l, hl, hlead⟩
  have hnil : l.dropWhile isSpace = [] :=
    List.dropWhile_eq_nil_iff.mpr (blank_of_mem_lineStarts h hl)
  exact dropWhile_ne_nil_of_leading hlead hnil

/-! Words. -/

/-- A word is read up to the blank after it. -/
theorem extractWord_eq {blanks word rest : List UInt8} {b : UInt8} (hgood : s.good = true)
    (hrest : s.rest = blanks ++ (word ++ b :: rest)) (hblanks : Blank blanks)
    (hword : Word word) (hb : isSpace b = true)
    (var : List UInt8) :
    (s.extractWord var).2 = word ∧ (s.extractWord var).1.good = true ∧
      (s.extractWord var).1.rest = b :: rest := by
  obtain ⟨hne, hword⟩ := hword
  have hbody : s.rest.dropWhile isSpace = word ++ b :: rest := by
    rw [hrest, hblanks.dropWhile]
    cases word with
    | nil => exact absurd rfl hne
    | cons c word =>
      exact List.dropWhile_cons_of_neg (by simp [hword c List.mem_cons_self])
  have hmunch : ∀ c ∈ word, (!isSpace c) = true := fun c hc => by rw [hword c hc]; rfl
  have hstop : ¬ (!isSpace b) = true := by simp [hb]
  have htake : (word ++ b :: rest).takeWhile (!isSpace ·) = word := by
    rw [List.takeWhile_append_of_pos hmunch, List.takeWhile_cons, if_neg hstop, List.append_nil]
  have hdrop : (word ++ b :: rest).dropWhile (!isSpace ·) = b :: rest := by
    rw [List.dropWhile_append_of_pos hmunch, List.dropWhile_cons, if_neg hstop]
  cases hcons : word ++ b :: rest with
  | nil => simp at hcons
  | cons c body =>
    rw [hcons] at hbody htake hdrop
    simp only [extractWord, hgood, if_true, hbody, htake, hdrop]
    exact ⟨trivial, rfl, trivial⟩

end Istream
