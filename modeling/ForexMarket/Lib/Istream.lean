import Mathlib.Data.List.TakeWhile
import Mathlib.Tactic.Common

/- A character stream read by formatted extraction of integers, with its two error bits.
   Once `eofbit` is set nothing is left to read, and a stream with either bit set
   extracts nothing. An extraction skips blanks, newlines among them, and reads a sign
   and digits; it never reads past the line it finds them in. So where each extraction is
   followed by discarding the rest of its line, there is one for each line that is not
   blank, and what they read is what the lines begin with (`lineStarts_next`). -/

structure Istream where
  rest : List UInt8
  eofbit : Bool
  failbit : Bool
  atEnd : eofbit = true → rest = []

namespace Istream

/-! Characters. -/

def newline : UInt8 := 0x0A

def isSpace (b : UInt8) : Bool := b = 0x20 || (0x09 ≤ b && b ≤ 0x0D)

def isDigit (b : UInt8) : Bool := 0x30 ≤ b && b ≤ 0x39

/-- The number with these digits. -/
def decimal (digits : List UInt8) : Nat :=
  digits.foldl (fun n b => n * 10 + (b - 0x30).toNat) 0

/-- Whether there is a minus, and what follows the sign if there is one. -/
def sign : List UInt8 → Bool × List UInt8
  | [] => (false, [])
  | b :: s => if b = 0x2D then (true, s) else if b = 0x2B then (false, s) else (false, b :: s)

/-- The integer at the front, `none` without digits, and what follows it. -/
def intField (s : List UInt8) : Option Int × List UInt8 :=
  let digits := (sign s).2.takeWhile isDigit
  let value : Int := if (sign s).1 then -(decimal digits : Int) else decimal digits
  (if digits = [] then none else some value, (sign s).2.dropWhile isDigit)

/-! The stream. -/

/-- A fresh stream. -/
def of (input : List UInt8) : Istream :=
  { rest := input, eofbit := false, failbit := false, atEnd := fun h => by cases h }

def good (s : Istream) : Bool := !s.eofbit && !s.failbit

/-- `operator>>` into a variable of an integer type with the values from `lo` to `hi`. -/
def extract (lo hi : Int) (s : Istream) (var : Int) : Istream × Int :=
  if s.good then
    match s.rest.dropWhile isSpace with
    | [] => ({ rest := [], eofbit := true, failbit := true, atEnd := fun _ => rfl }, var)
    | b :: body =>
      let (value, rest) := intField (b :: body)
      let stream (fail : Bool) : Istream :=
        { rest := rest, eofbit := rest.isEmpty, failbit := fail, atEnd := List.isEmpty_iff.mp }
      match value with
      | none => (stream true, 0)
      | some n => if lo ≤ n ∧ n ≤ hi then (stream false, n) else (stream true, max lo (min hi n))
  else ({ s with failbit := true }, var)

/-- `operator>>` into a `std::string`: the characters up to the next blank. -/
def extractWord (s : Istream) (var : List UInt8) : Istream × List UInt8 :=
  if s.good then
    match s.rest.dropWhile isSpace with
    | [] => ({ rest := [], eofbit := true, failbit := true, atEnd := fun _ => rfl }, var)
    | b :: body =>
      let rest := (b :: body).dropWhile (!isSpace ·)
      ({ rest := rest, eofbit := rest.isEmpty, failbit := false, atEnd := List.isEmpty_iff.mp },
        (b :: body).takeWhile (!isSpace ·))
  else ({ s with failbit := true }, var)

/-- `clear`. -/
def clear (s : Istream) : Istream :=
  { s with eofbit := false, failbit := false, atEnd := fun h => by cases h }

/-- `ignore` up to the end of the line. -/
def ignoreLine (s : Istream) : Istream :=
  if s.good then
    match s.rest.dropWhile (· ≠ newline) with
    | [] => { rest := [], eofbit := true, failbit := false, atEnd := fun _ => rfl }
    | _ :: rest => of rest
  else { s with failbit := true }

/-! Lines. -/

/-- What follows each newline. -/
def afterNewlines : List UInt8 → List (List UInt8)
  | [] => []
  | b :: s => if b = newline then s :: afterNewlines s else afterNewlines s

/-- The text from the start of each of its lines on. -/
def lineStarts (s : List UInt8) : List (List UInt8) := s :: afterNewlines s

/-- The integer the text begins with after blanks, if it is in the range of the type. -/
def leading (lo hi : Int) (s : List UInt8) : Option Int :=
  (intField (s.dropWhile isSpace)).1.filter fun n => lo ≤ n ∧ n ≤ hi

/-- The integer the next extraction reads, if it does not fail. -/
def peek (lo hi : Int) (s : Istream) : Option Int := if s.good then leading lo hi s.rest else none

/-- What follows the first line. -/
def afterLine (s : List UInt8) : List UInt8 := (s.dropWhile (· ≠ newline)).tail

/-- The lines that are to be read, where a stream in a failed state loses the one it is in. -/
def unread (s : Istream) : List UInt8 := if s.failbit then afterLine s.rest else s.rest

/-- Some line to be read begins, after blanks, with this integer of the range. -/
def Offers (lo hi : Int) (s : Istream) (n : Int) : Prop :=
  ∃ l ∈ lineStarts s.unread, leading lo hi l = some n

variable {lo hi n : Int}

theorem not_newline_of_isDigit {b : UInt8} (h : isDigit b = true) : b ≠ newline := by
  rintro rfl
  cases h

/-- The sign is not a newline. -/
theorem dropWhile_sign (s : List UInt8) :
    (sign s).2.dropWhile (· ≠ newline) = s.dropWhile (· ≠ newline) := by
  cases s with
  | nil => rfl
  | cons b s =>
    simp only [sign]
    split
    · next hminus => rw [hminus]; rfl
    · split
      · next hplus => rw [hplus]; rfl
      · rfl

theorem dropWhile_dropWhile {α : Type} {p q : α → Bool} (h : ∀ a, p a = true → q a = true)
    (l : List α) : (l.dropWhile p).dropWhile q = l.dropWhile q := by
  induction l with
  | nil => rfl
  | cons a l ih =>
    cases hp : p a with
    | true => rw [List.dropWhile_cons_of_pos hp, List.dropWhile_cons_of_pos (h a hp), ih]
    | false => rw [List.dropWhile_cons_of_neg (by simp [hp])]

/-- An integer field ends in the line it starts in. -/
theorem dropWhile_intField (s : List UInt8) :
    (intField s).2.dropWhile (· ≠ newline) = s.dropWhile (· ≠ newline) := by
  have hdigits := dropWhile_dropWhile (p := isDigit) (q := (· ≠ newline))
    (fun b hb => decide_eq_true (not_newline_of_isDigit hb)) (sign s).2
  exact hdigits.trans (dropWhile_sign s)

theorem leading_nil : leading lo hi [] = none := rfl

/-- A blank makes no difference to what is read next. -/
theorem leading_cons {b : UInt8} (h : isSpace b = true) (s : List UInt8) :
    leading lo hi (b :: s) = leading lo hi s := by
  rw [leading, List.dropWhile_cons_of_pos h, leading]

theorem afterNewlines_eq (s : List UInt8) :
    afterNewlines s =
      match s.dropWhile (· ≠ newline) with
      | [] => []
      | _ :: rest => lineStarts rest := by
  induction s with
  | nil => rfl
  | cons b s ih =>
    by_cases hb : b = newline
    · rw [afterNewlines, if_pos hb, List.dropWhile_cons_of_neg (by simp [hb])]
      rfl
    · rw [afterNewlines, if_neg hb, List.dropWhile_cons_of_pos (by simp [hb]), ih]

/-- Blanks at the front hide no line. -/
theorem lineStarts_dropWhile (s : List UInt8) :
    (∃ l ∈ lineStarts s, leading lo hi l = some n) ↔
      ∃ l ∈ lineStarts (s.dropWhile isSpace), leading lo hi l = some n := by
  induction s with
  | nil => rfl
  | cons b s ih =>
    cases hb : isSpace b with
    | false => rw [List.dropWhile_cons_of_neg (by simp [hb])]
    | true =>
      rw [List.dropWhile_cons_of_pos hb, ← ih]
      simp only [lineStarts, afterNewlines, List.mem_cons, exists_eq_or_imp, leading_cons hb]
      split
      · simp only [List.mem_cons, exists_eq_or_imp, or_self_left]
      · rfl

/-- The first line is read, or the lines after it. -/
theorem lineStarts_next (s : List UInt8) :
    (∃ l ∈ lineStarts s, leading lo hi l = some n) ↔
      leading lo hi s = some n ∨
        ∃ l ∈ lineStarts (afterLine (s.dropWhile isSpace)), leading lo hi l = some n := by
  rw [lineStarts_dropWhile, lineStarts, afterNewlines_eq, afterLine]
  have hfirst : leading lo hi (s.dropWhile isSpace) = leading lo hi s := by
    rw [leading, leading, dropWhile_dropWhile fun _ h => h]
  cases (s.dropWhile isSpace).dropWhile (· ≠ newline) with
  | nil =>
    simp only [List.mem_cons, List.not_mem_nil, or_false, exists_eq_left, hfirst, List.tail_nil,
      lineStarts, afterNewlines, leading_nil, reduceCtorEq]
  | cons b rest =>
    simp only [List.mem_cons, exists_eq_or_imp, hfirst, List.tail_cons]

/-! What an extraction and the loss of a line leave. -/

variable {s : Istream}

theorem extract_of_some (h : s.peek lo hi = some n) (var : Int) :
    (s.extract lo hi var).1.failbit = false ∧ (s.extract lo hi var).2 = n := by
  rw [peek] at h
  split at h
  · next hgood =>
    obtain ⟨hfield, hrange⟩ := Option.filter_eq_some_iff.mp h
    rw [decide_eq_true_eq] at hrange
    rw [extract, if_pos hgood]
    cases hbody : s.rest.dropWhile isSpace with
    | nil => rw [hbody] at hfield; cases hfield
    | cons b body =>
      rw [hbody] at hfield
      simp only [hfield, hrange, and_self, if_true]
  · cases h

theorem extract_of_none (h : s.peek lo hi = none) (var : Int) :
    (s.extract lo hi var).1.failbit = true := by
  rw [peek] at h
  rw [extract]
  split
  · next hgood =>
    rw [if_pos hgood] at h
    cases hbody : s.rest.dropWhile isSpace with
    | nil => rfl
    | cons b body =>
      rw [leading, hbody] at h
      dsimp only
      cases hfield : (intField (b :: body)).1 with
      | none => rfl
      | some m =>
        rw [hfield, Option.filter_some] at h
        have hrange : ¬ (lo ≤ m ∧ m ≤ hi) := by
          intro hm
          rw [if_pos (decide_eq_true hm)] at h
          cases h
        simp only [hrange, if_false]
  · rfl

/-- An extraction leaves the end of the line it reads in. -/
theorem afterLine_extract (s : Istream) (var : Int) :
    afterLine (s.extract lo hi var).1.rest =
      afterLine (if s.good then s.rest.dropWhile isSpace else s.rest) := by
  rw [extract]
  split
  · cases hbody : s.rest.dropWhile isSpace with
    | nil => rfl
    | cons b body =>
      have hline : afterLine (intField (b :: body)).2 = afterLine (b :: body) := by
        rw [afterLine, afterLine, dropWhile_intField]
      dsimp only
      split
      · exact hline
      · split
        · exact hline
        · exact hline
  · rfl

/-- Clearing the bits and discarding a line leaves the lines after it. -/
theorem ignoreLine_clear (s : Istream) :
    s.clear.ignoreLine.failbit = false ∧ s.clear.ignoreLine.rest = afterLine s.rest := by
  rw [ignoreLine, if_pos (show s.clear.good = true from rfl), afterLine]
  have hrest : s.clear.rest = s.rest := rfl
  rw [hrest]
  cases s.rest.dropWhile (· ≠ newline) with
  | nil => exact ⟨rfl, rfl⟩
  | cons b rest => exact ⟨rfl, rfl⟩

/-- The stream after an extraction whose value is not kept. -/
def next (lo hi : Int) (s : Istream) (var : Int) : Istream :=
  (s.extract lo hi var).1.clear.ignoreLine

/-- What a stream offers is what is read next or what it offers after the line of that. -/
theorem offers_iff (s : Istream) (var : Int) :
    s.Offers lo hi n ↔ s.peek lo hi = some n ∨ (s.next lo hi var).Offers lo hi n := by
  obtain ⟨hfail, hrest⟩ := ignoreLine_clear (s.extract lo hi var).1
  have hnext : (s.next lo hi var).unread =
      afterLine (if s.good then s.rest.dropWhile isSpace else s.rest) := by
    rw [unread, next, hfail, hrest]
    exact afterLine_extract s var
  rw [Offers, Offers, hnext, peek]
  cases hgood : s.good with
  | true =>
    have hunread : s.unread = s.rest := by
      have hbit : s.failbit = false := by
        simp only [good, Bool.and_eq_true, Bool.not_eq_true'] at hgood
        exact hgood.2
      rw [unread, hbit]
      rfl
    rw [hunread]
    exact lineStarts_next s.rest
  | false =>
    simp only [Bool.false_eq_true, if_false, reduceCtorEq, false_or]
    cases hbit : s.failbit with
    | true => rw [unread, hbit]; rfl
    | false =>
      -- then the stream is at its end
      have heof : s.eofbit = true := by
        rw [good, hbit] at hgood
        simpa using hgood
      rw [unread, hbit, s.atEnd heof]
      rfl

theorem length_afterLine_lt {l : List UInt8} (h : l ≠ []) : (afterLine l).length < l.length := by
  have hle := (List.dropWhile_suffix (· ≠ newline) (l := l)).length_le
  have hpos := List.length_pos_iff.mpr h
  rw [afterLine, List.length_tail]
  omega

/-- The line that is lost makes what is left shorter. -/
theorem length_next_lt (h : s.rest ≠ []) (var : Int) :
    (s.next lo hi var).rest.length < s.rest.length := by
  obtain ⟨-, hrest⟩ := ignoreLine_clear (s.extract lo hi var).1
  rw [next, hrest, afterLine_extract]
  split
  · by_cases hblank : s.rest.dropWhile isSpace = []
    · rw [hblank]
      exact List.length_pos_iff.mpr h
    · have hle := (List.dropWhile_suffix isSpace (l := s.rest)).length_le
      have hlt := length_afterLine_lt hblank
      omega
  · exact length_afterLine_lt h

/-- Nothing is offered at the end. -/
theorem not_offers_of_nil (h : s.rest = []) : ¬ s.Offers lo hi n := by
  have hunread : s.unread = [] := by
    rw [unread, h]
    cases s.failbit <;> rfl
  rw [Offers, hunread]
  rintro ⟨l, hl, hlead⟩
  rw [List.mem_singleton.mp hl] at hlead
  cases hlead

end Istream
