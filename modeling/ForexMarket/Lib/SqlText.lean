import Mathlib.Data.List.TakeWhile
import Mathlib.Data.List.Count
import Mathlib.Tactic.Common

/- The reading of an SQL text into tokens: words (names, keywords and numbers), names in
   double quotes, in which a doubled quote stands for one, and single signs. The text ends
   at a NUL. What stands between double quotes is one token with just this content exactly
   when no quote and no NUL is in it (`tokens_quoted`, `plain_of_tokens`). A prepared
   statement has signs `?` that tokens are bound to. -/

namespace Sql

/-! Bytes. -/

def quote : UInt8 := 0x22

def isSpace (b : UInt8) : Bool := b = 0x20 || b = 0x09 || b = 0x0A || b = 0x0C || b = 0x0D

def isDigit (b : UInt8) : Bool := 0x30 ≤ b && b ≤ 0x39

def isUpper (b : UInt8) : Bool := 0x41 ≤ b && b ≤ 0x5A

/-- The bytes of names: letters, digits, `_`, `$`, and all that are not ASCII. -/
def isWordByte (b : UInt8) : Bool :=
  isDigit b || isUpper b || (0x61 ≤ b && b ≤ 0x7A) || b = 0x5F || b = 0x24 || 0x80 ≤ b

/-! Tokens. -/

inductive Token where
  | word (w : List UInt8)
  | quoted (content : List UInt8)
  | sign (b : UInt8)
  /-- A double quote without an end. -/
  | illegal
  deriving DecidableEq, Repr

inductive State where
  | between
  | word (w : List UInt8)
  | quoted (content : List UInt8)
  /-- A quote after this content: the end, or the first of two. -/
  | closing (content : List UInt8)
  deriving DecidableEq, Repr

/-- A byte that begins a token, or none. -/
def opening (b : UInt8) : List Token × State :=
  if b = quote then ([], .quoted [])
  else if isWordByte b then ([], .word [b])
  else if isSpace b then ([], .between)
  else ([.sign b], .between)

/-- The tokens that a byte ends, and the state after it. -/
def next : State → UInt8 → List Token × State
  | .between, b => opening b
  | .word w, b =>
    if isWordByte b then ([], .word (w ++ [b])) else (.word w :: (opening b).1, (opening b).2)
  | .quoted content, b => ([], if b = quote then .closing content else .quoted (content ++ [b]))
  | .closing content, b =>
    if b = quote then ([], .quoted (content ++ [b]))
    else (.quoted content :: (opening b).1, (opening b).2)

/-- The token that the end of the text ends. -/
def finish : State → List Token
  | .between => []
  | .word w => [.word w]
  | .quoted _ => [.illegal]
  | .closing content => [.quoted content]

def run : State → List UInt8 → List Token × State
  | s, [] => ([], s)
  | s, b :: text => ((next s b).1 ++ (run (next s b).2 text).1, (run (next s b).2 text).2)

/-- The tokens of a text from a state on. -/
def lex (s : State) (text : List UInt8) : List Token := (run s text).1 ++ finish (run s text).2

/-- What of a text is read: it ends at a NUL. -/
def terminated (text : List UInt8) : List UInt8 := text.takeWhile (· ≠ 0)

def tokens (text : List UInt8) : List Token := lex .between (terminated text)

/-- No quote and no NUL is in it. -/
def Plain (content : List UInt8) : Prop := quote ∉ content ∧ 0 ∉ content

instance (content : List UInt8) : Decidable (Plain content) :=
  inferInstanceAs (Decidable (_ ∧ _))

/-! Columns. -/

def lower (b : UInt8) : UInt8 := if isUpper b then b + 0x20 else b

/-- The column a quoted token names, `none` when it is a string. -/
def columnOf (columns : List (List UInt8)) (content : List UInt8) : Option (List UInt8) :=
  columns.find? fun column => column.map lower = content.map lower

/-! Prepared statements. -/

/-- The sign that stands for a parameter. -/
def parameter : Token := .sign 0x3F

/-- The statement with its parameters replaced, from the first on. -/
def bind : List Token → List Token → List Token
  | [], _ => []
  | t :: ts, [] => t :: bind ts []
  | t :: ts, a :: args => if t = parameter then a :: bind ts args else t :: bind ts (a :: args)

/-- The tokens in the place of the parameters of a statement. -/
def args? : List Token → List Token → Option (List Token)
  | [], [] => some []
  | t :: ts, u :: us =>
    if t = parameter then (args? ts us).map (u :: ·) else if t = u then args? ts us else none
  | _, _ => none

/-! Numbers. -/

/-- The number with these digits. -/
def number (digits : List UInt8) : Nat := digits.foldl (fun n b => n * 10 + (b - 0x30).toNat) 0

/-- The numbers of a list up to its closing bracket, and what stands after it. -/
def values? : List Token → Option (List Int × List Token)
  | .word w :: .sign b :: ts =>
    if w.all isDigit then
      if b = 0x2C then (values? ts).map fun r => ((number w : Int) :: r.1, r.2)
      else if b = 0x29 then some ([(number w : Int)], ts)
      else none
    else none
  | .sign m :: .word w :: .sign b :: ts =>
    if m = 0x2D ∧ w.all isDigit then
      if b = 0x2C then (values? ts).map fun r => (-(number w : Int) :: r.1, r.2)
      else if b = 0x29 then some ([-(number w : Int)], ts)
      else none
    else none
  | _ => none

/-! What is read of an appended text. -/

section Lex

variable {s : State} {a b content : List UInt8}

@[simp] theorem lex_nil (s : State) : lex s [] = finish s := rfl

theorem lex_cons (s : State) (c : UInt8) (text : List UInt8) :
    lex s (c :: text) = (next s c).1 ++ lex (next s c).2 text := by
  rw [lex, run, lex, List.append_assoc]

theorem run_append (s : State) (a b : List UInt8) :
    run s (a ++ b) = ((run s a).1 ++ (run (run s a).2 b).1, (run (run s a).2 b).2) := by
  induction a generalizing s with
  | nil => rfl
  | cons c a ih => simp only [List.cons_append, run, ih, List.append_assoc]

theorem lex_append (s : State) (a b : List UInt8) :
    lex s (a ++ b) = (run s a).1 ++ lex (run s a).2 b := by
  rw [lex, run_append, lex, List.append_assoc]

/-- In a quoted token the other bytes are its content. -/
theorem run_quoted (content : List UInt8) (h : quote ∉ a) :
    run (.quoted content) a = ([], .quoted (content ++ a)) := by
  induction a generalizing content with
  | nil => rw [run, List.append_nil]
  | cons c a ih =>
    have hc : c ≠ quote := fun e => h (e ▸ List.mem_cons_self)
    have ha : quote ∉ a := fun hmem => h (List.mem_cons_of_mem c hmem)
    rw [run, next, if_neg hc, ih _ ha, List.append_assoc]
    rfl

/-- In a word the bytes of names go on with it. -/
theorem run_word (w : List UInt8) (h : ∀ c ∈ a, isWordByte c = true) :
    run (.word w) a = ([], .word (w ++ a)) := by
  induction a generalizing w with
  | nil => rw [run, List.append_nil]
  | cons c a ih =>
    rw [run, next, if_pos (h c List.mem_cons_self),
      ih _ fun d hd => h d (List.mem_cons_of_mem c hd), List.append_assoc]
    rfl

theorem opening_word {c : UInt8} (h : isWordByte c = true) : opening c = ([], .word [c]) := by
  have hc : c ≠ quote := by
    rintro rfl
    exact absurd h (by decide)
  rw [opening, if_neg hc, if_pos h]

/-- A number or a name between two signs. -/
theorem run_between_word (hne : a ≠ []) (h : ∀ c ∈ a, isWordByte c = true) :
    run .between a = ([], .word a) := by
  cases a with
  | nil => exact absurd rfl hne
  | cons c a =>
    rw [run, next, opening_word (h c List.mem_cons_self),
      run_word _ fun d hd => h d (List.mem_cons_of_mem c hd)]
    rfl

/-- A byte after a word that is not of it. -/
theorem lex_word (w : List UInt8) (h : ∀ c ∈ b.head?, isWordByte c = false) :
    lex (.word w) b = .word w :: lex .between b := by
  cases b with
  | nil => rfl
  | cons c b =>
    have hc : isWordByte c = false := h c rfl
    have hnext : next (.word w) c = (.word w :: (opening c).1, (opening c).2) :=
      if_neg (by rw [hc]; exact Bool.false_ne_true)
    rw [lex_cons, lex_cons, hnext]
    rfl

/-- A byte after the closing quote. -/
theorem lex_closing (content : List UInt8) (h : quote ∉ b.head?) :
    lex (.closing content) b = .quoted content :: lex .between b := by
  cases b with
  | nil => rfl
  | cons c b =>
    have hc : c ≠ quote := fun e => h (e ▸ rfl)
    have hnext : next (.closing content) c = (.quoted content :: (opening c).1, (opening c).2) :=
      if_neg hc
    rw [lex_cons, lex_cons, hnext]
    rfl

/-- No quoted token has been begun. -/
def State.Outside : State → Prop
  | .between | .word _ => True
  | .quoted _ | .closing _ => False

theorem outside_opening {c : UInt8} (h : c ≠ quote) : (opening c).2.Outside := by
  rw [opening, if_neg h]
  split
  · trivial
  · split <;> trivial

/-- Only a quote begins a quoted token. -/
theorem outside_run (h : quote ∉ a) (hs : s.Outside) : (run s a).2.Outside := by
  induction a generalizing s with
  | nil => exact hs
  | cons c a ih =>
    have hc : c ≠ quote := fun e => h (e ▸ List.mem_cons_self)
    refine ih (fun hmem => h (List.mem_cons_of_mem c hmem)) ?_
    cases s with
    | between => exact outside_opening hc
    | word w =>
      rw [next]
      split
      · trivial
      · exact outside_opening hc
    | quoted content => exact hs.elim
    | closing content => exact hs.elim

theorem next_quote (h : s.Outside) : next s quote = (finish s, .quoted []) := by
  cases s with
  | between => rfl
  | word w => rfl
  | quoted content => exact h.elim
  | closing content => exact h.elim

theorem next_parameter (h : s.Outside) : next s 0x3F = (finish s ++ [parameter], .between) := by
  cases s with
  | between => rfl
  | word w => rfl
  | quoted content => exact h.elim
  | closing content => exact h.elim

theorem lex_append_parameter (h : (run s a).2.Outside) (b : List UInt8) :
    lex s (a ++ 0x3F :: b) = lex s a ++ parameter :: lex .between b := by
  rw [lex_append, lex_cons, next_parameter h, List.append_assoc, ← List.append_assoc]
  rfl

theorem lex_append_word (h : (run s a).2 = .between) {w : List UInt8} (hne : w ≠ [])
    (hw : ∀ c ∈ w, isWordByte c = true) (hb : ∀ c ∈ b.head?, isWordByte c = false) :
    lex s (a ++ (w ++ b)) = lex s a ++ .word w :: lex .between b := by
  have hlex : lex s a = (run s a).1 := by
    rw [lex, h]
    exact List.append_nil _
  rw [lex_append, h, lex_append, run_between_word hne hw, lex_word w hb, hlex]
  rfl

theorem lex_append_quote (h : (run s a).2.Outside) (b : List UInt8) :
    lex s (a ++ quote :: b) = lex s a ++ lex (.quoted []) b := by
  rw [lex_append, lex_cons, next_quote h]
  exact (List.append_assoc _ _ _).symm

/-- A content without quotes is read as it is. -/
theorem lex_quoted (hcontent : quote ∉ content) (hb : quote ∉ b.head?) :
    lex (.quoted []) (content ++ quote :: b) = .quoted content :: lex .between b := by
  rw [lex_append, run_quoted [] hcontent, lex_cons, next, if_pos rfl]
  exact lex_closing content hb

/-- Each quote in the content of a token takes two of the text, and its end takes one. -/
theorem count_quote_le {x text : List UInt8} {ts : List Token} :
    (lex (.quoted content) text = .quoted x :: ts →
      2 * x.count quote + 1 ≤ 2 * content.count quote + text.count quote) ∧
    (lex (.closing content) text = .quoted x :: ts →
      2 * x.count quote ≤ 2 * content.count quote + text.count quote) := by
  induction text generalizing content with
  | nil =>
    refine ⟨nofun, fun h => ?_⟩
    obtain ⟨rfl, -⟩ := by simpa [finish] using h
    exact Nat.le_add_right _ _
  | cons c text ih =>
    rw [lex_cons, lex_cons, next, next]
    by_cases hc : c = quote
    · subst hc
      have hadd : (content ++ [quote]).count quote = content.count quote + 1 := by simp
      simp only [if_true, List.nil_append, List.count_cons_self]
      refine ⟨fun h => ?_, fun h => ?_⟩
      · have hle := ih.2 h
        omega
      · have hle := ih.1 h
        omega
    · have hsame : (content ++ [c]).count quote = content.count quote := by simp [hc]
      simp only [hc, if_false, List.nil_append, List.cons_append, List.cons.injEq,
        Token.quoted.injEq, List.count_cons_of_ne hc]
      refine ⟨fun h => ?_, fun h => ?_⟩
      · have hle := ih.1 h
        omega
      · rw [h.1]
        omega

end Lex

/-! The end of a text. -/

theorem terminated_append {a : List UInt8} (h : 0 ∉ a) (b : List UInt8) :
    terminated (a ++ b) = a ++ terminated b := by
  apply List.takeWhile_append_of_pos
  intro c hc
  exact decide_eq_true fun e => h (e ▸ hc)

theorem terminated_eq_self {a : List UInt8} (h : 0 ∉ a) : terminated a = a := by
  have happend := terminated_append h []
  simpa only [List.append_nil, terminated, List.takeWhile_nil] using happend

/-- A NUL ends the text, whatever follows. -/
theorem terminated_of_mem {a : List UInt8} (h : 0 ∈ a) (b : List UInt8) :
    terminated (a ++ b) = terminated a := by
  induction a with
  | nil => cases h
  | cons c a ih =>
    rw [List.cons_append, terminated, terminated, List.takeWhile_cons, List.takeWhile_cons]
    split
    · next hc =>
      have ha : 0 ∈ a := (List.mem_cons.mp h).resolve_left fun e => of_decide_eq_true hc e.symm
      exact congrArg (c :: ·) (ih ha)
    · rfl

/-- The tokens of a plain text. -/
theorem tokens_plain {a : List UInt8} (h : Plain a) : tokens a = lex .between a := by
  rw [tokens, terminated_eq_self h.2]

/-- The tokens of a statement, up to its first parameter and from there on. -/
theorem tokens_parameter {a : List UInt8} (h : Plain a) (b : List UInt8) :
    tokens (a ++ 0x3F :: b) = lex .between a ++ parameter :: tokens b := by
  have hcons : terminated (0x3F :: b) = 0x3F :: terminated b := rfl
  have hout : (run .between a).2.Outside := outside_run h.1 trivial
  rw [tokens, terminated_append h.2, hcons, lex_append_parameter hout, tokens]

theorem count_terminated_le (a : List UInt8) (c : UInt8) :
    (terminated a).count c ≤ a.count c :=
  (List.takeWhile_sublist _).count_le c

/-! The quoted token in a text. -/

section Quoted

variable {a b content : List UInt8}

/-- The content that is read is the one that was written exactly when it is plain, and then the
tokens around it are those of the text around it. -/
theorem tokens_quoted_iff (ha : Plain a) (hb : Plain b) :
    tokens (a ++ quote :: (content ++ quote :: b)) =
        lex .between a ++ .quoted content :: lex .between b ↔ Plain content := by
  have hcons : ∀ text, terminated (quote :: text) = quote :: terminated text := fun _ => rfl
  have hout : (run .between a).2.Outside := outside_run ha.1 trivial
  rw [tokens, terminated_append ha.2, hcons, lex_append_quote hout, List.append_cancel_left_eq]
  constructor
  · intro h
    have hcount := count_quote_le.1 h
    have hle := count_terminated_le (content ++ quote :: b) quote
    have htext : (content ++ quote :: b).count quote = content.count quote + 1 := by
      rw [List.count_append, List.count_cons_self, List.count_eq_zero.mpr hb.1]
    have hnil : ([] : List UInt8).count quote = 0 := rfl
    have hplain : quote ∉ content := List.count_eq_zero.mp (by omega)
    refine ⟨hplain, fun hnul => ?_⟩
    -- the token has no end before the NUL
    have hread : quote ∉ terminated content := fun hmem =>
      hplain ((List.takeWhile_sublist _).subset hmem)
    rw [terminated_of_mem hnul, lex, run_quoted [] hread] at h
    cases h
  · rintro ⟨hplain, hnul⟩
    rw [terminated_append hnul, hcons, terminated_eq_self hb.2]
    exact lex_quoted hplain fun h => hb.1 (List.mem_of_mem_head? h)

end Quoted

theorem plain_append {a b : List UInt8} : Plain (a ++ b) ↔ Plain a ∧ Plain b := by
  simp only [Plain, List.mem_append, not_or]
  tauto

/-! Statements with parameters. -/

section Bind

variable {ts us args : List Token} {x : Token}

theorem bind_nil (ts : List Token) : bind ts [] = ts := by
  induction ts with
  | nil => rfl
  | cons t ts ih => rw [bind, ih]

theorem bind_parameter (us args : List Token) (x : Token) :
    bind (parameter :: us) (x :: args) = x :: bind us args := by
  rw [bind, if_pos rfl]

theorem bind_append (h : parameter ∉ ts) (us args : List Token) :
    bind (ts ++ us) args = ts ++ bind us args := by
  cases args with
  | nil => rw [bind_nil, bind_nil]
  | cons x args =>
    induction ts with
    | nil => rfl
    | cons t ts ih =>
      have ht : t ≠ parameter := fun e => h (e ▸ List.mem_cons_self)
      rw [List.cons_append, bind, if_neg ht, ih fun hmem => h (List.mem_cons_of_mem t hmem)]
      rfl

/-- The first parameter is replaced by the first token. -/
theorem bind_first (h : parameter ∉ ts) (us args : List Token) (x : Token) :
    bind (ts ++ parameter :: us) (x :: args) = ts ++ x :: bind us args := by
  rw [bind_append h, bind_parameter]

/-- What the parameters are bound to is found in their place. -/
theorem args?_bind (h : ts.count parameter = args.length) :
    args? ts (bind ts args) = some args := by
  induction ts generalizing args with
  | nil =>
    obtain rfl := List.length_eq_zero_iff.mp h.symm
    rfl
  | cons t ts ih =>
    by_cases ht : t = parameter
    · subst ht
      rw [List.count_cons_self] at h
      obtain ⟨x, args, rfl⟩ := List.exists_cons_of_length_eq_add_one h.symm
      rw [bind_parameter, args?, if_pos rfl, ih (Nat.succ.inj h)]
      rfl
    · rw [List.count_cons_of_ne ht] at h
      have hone : parameter ∉ [t] := fun hmem => ht (List.mem_singleton.mp hmem).symm
      have hbind : bind (t :: ts) args = t :: bind ts args := bind_append hone ts args
      rw [hbind, args?, if_neg ht, if_pos rfl, ih h]

end Bind

end Sql
