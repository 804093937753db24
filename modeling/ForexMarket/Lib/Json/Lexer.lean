import ForexMarket.Lib.Json.Value
import Mathlib.Tactic.NormNum

/- The lexer, one byte at a time. A state is where the lexer stands when it asks for
   the next byte: between tokens, or inside one of the scan functions. The byte after
   a number is the one that is put back, so the step that reads it gives the number
   and then does what the byte does between tokens. -/
namespace ForexMarket

namespace Json

inductive Token where
  | beginArray
  | endArray
  | beginObject
  | endObject
  | nameSeparator
  | valueSeparator
  | literalTrue
  | literalFalse
  | literalNull
  | valueString (s : Bytes)
  | valueInteger (n : Int)
  | valueFloat (d : Option (Int × Int))
  deriving DecidableEq, Repr

/-! Numbers. -/

/-- `n / d` rounded to the nearest integer, and to the even one of two nearest. -/
def roundHalfEven (n d : Nat) : Nat :=
  let q := n / d
  let r := n % d
  if 2 * r < d then q
  else if d < 2 * r then q + 1
  else if q % 2 = 0 then q
  else q + 1

/-- The double nearest to `m * 10 ^ e` as a mantissa and an exponent of two, `none` when it is
infinite. -/
def strtof (m : Int) (e : Int) : Option (Int × Int) :=
  let n := m.natAbs * 10 ^ e.toNat
  let d := 10 ^ (-e).toNat
  if n = 0 then some (0, 0)
  else
    let low : Int := (n.log2 : Int) - d.log2 - 53
    let place : Int := if n < 2 ^ 53 * d * 2 ^ low.toNat ∧ 0 ≤ low ∨
        n * 2 ^ (-low).toNat < 2 ^ 53 * d ∧ low < 0 then low else low + 1
    let k := max place (-1074)
    let q := roundHalfEven (n * 2 ^ (-k).toNat) (d * 2 ^ k.toNat)
    if 2 ^ 1024 ≤ q * 2 ^ k.toNat ∧ 0 ≤ k then none
    else some (if m < 0 then -(q : Int) else q, k)

/-- What has been read of a number. -/
structure Number where
  negative : Bool
  mantissa : Nat
  decimals : Nat
  exponentNegative : Bool
  exponent : Nat
  isFloat : Bool
  deriving DecidableEq, Repr

namespace Number

def signed (n : Number) : Int := if n.negative then -(n.mantissa : Int) else n.mantissa

/-- The power of ten its digits are to be taken with. -/
def power (n : Number) : Int :=
  (if n.exponentNegative then -(n.exponent : Int) else n.exponent) - n.decimals

/-- `scan_number_done`: an integer that fits its type is one, any other number is a double. -/
def token (n : Number) : Token :=
  if n.isFloat then .valueFloat (strtof n.signed n.power)
  else if -2 ^ 63 ≤ n.signed ∧ n.signed < 2 ^ 64 then .valueInteger n.signed
  else .valueFloat (strtof n.signed 0)

def digit (n : Number) (d : Nat) : Number := { n with mantissa := n.mantissa * 10 + d }

end Number

def isDigit (b : UInt8) : Bool := 0x30 ≤ b && b ≤ 0x39

def digitValue (b : UInt8) : Nat := (b - 0x30).toNat

/-- The states of `scan_number`. -/
inductive NumberState where
  | minus
  | zero
  | any1
  | decimal1
  | decimal2
  | exponent
  | sign
  | any2
  deriving DecidableEq, Repr

namespace NumberState

/-- The states in which another character ends the number. -/
def accepting : NumberState → Bool
  | zero | any1 | decimal2 | any2 => true
  | _ => false

/-- The point or the exponent after the digits of the integer part. -/
def fraction (n : Number) (b : UInt8) : Option (NumberState × Number) :=
  if b = 0x2E then some (decimal1, { n with isFloat := true })
  else if b = 0x65 ∨ b = 0x45 then some (exponent, { n with isFloat := true })
  else none

/-- The next character, where it belongs to the number. -/
def next (n : Number) (b : UInt8) : NumberState → Option (NumberState × Number)
  | minus =>
    if b = 0x30 then some (zero, n)
    else if isDigit b then some (any1, n.digit (digitValue b))
    else none
  | zero => fraction n b
  | any1 => if isDigit b then some (any1, n.digit (digitValue b)) else fraction n b
  | decimal1 =>
    if isDigit b then some (decimal2, { n.digit (digitValue b) with decimals := n.decimals + 1 })
    else none
  | decimal2 =>
    if isDigit b then some (decimal2, { n.digit (digitValue b) with decimals := n.decimals + 1 })
    else if b = 0x65 ∨ b = 0x45 then some (exponent, n)
    else none
  | exponent =>
    if b = 0x2B then some (sign, n)
    else if b = 0x2D then some (sign, { n with exponentNegative := true })
    else if isDigit b then some (any2, { n with exponent := digitValue b })
    else none
  | sign => if isDigit b then some (any2, { n with exponent := digitValue b }) else none
  | any2 =>
    if isDigit b then some (any2, { n with exponent := n.exponent * 10 + digitValue b })
    else none

end NumberState

/-! Escapes. -/

/-- The value of a hexadecimal digit. -/
def hexValue (b : UInt8) : Option Nat :=
  if 0x30 ≤ b ∧ b ≤ 0x39 then some (b - 0x30).toNat
  else if 0x41 ≤ b ∧ b ≤ 0x46 then some (b - 0x37).toNat
  else if 0x61 ≤ b ∧ b ≤ 0x66 then some (b - 0x57).toNat
  else none

/-- The character a one-letter escape stands for. -/
def unescape (b : UInt8) : Option UInt8 :=
  if b = 0x22 then some 0x22
  else if b = 0x5C then some 0x5C
  else if b = 0x2F then some 0x2F
  else if b = 0x62 then some 0x08
  else if b = 0x66 then some 0x0C
  else if b = 0x6E then some 0x0A
  else if b = 0x72 then some 0x0D
  else if b = 0x74 then some 0x09
  else none

/-- The bytes of a code point. -/
def codepointBytes (c : Nat) : Bytes :=
  if c < 0x80 then [c.toUInt8]
  else if c ≤ 0x7FF then [(0xC0 + c / 0x40).toUInt8, (0x80 + c % 0x40).toUInt8]
  else if c ≤ 0xFFFF then
    [(0xE0 + c / 0x1000).toUInt8, (0x80 + c / 0x40 % 0x40).toUInt8, (0x80 + c % 0x40).toUInt8]
  else
    [(0xF0 + c / 0x40000).toUInt8, (0x80 + c / 0x1000 % 0x40).toUInt8,
      (0x80 + c / 0x40 % 0x40).toUInt8, (0x80 + c % 0x40).toUInt8]

/-! The lexer. -/

namespace Lexer

inductive State where
  /-- Before the first byte, where a byte order mark may stand. -/
  | begin
  | bom (rest : Bytes)
  /-- Between tokens. -/
  | start
  | literal (rest : Bytes) (t : Token)
  | string (s : Bytes) (pending : Utf8.Pending)
  | escape (s : Bytes)
  /-- Inside the digits after `\u`; `high` is the surrogate before it. -/
  | hex (s : Bytes) (high : Option Nat) (left : Nat) (codepoint : Nat)
  /-- After a high surrogate, with this much of `\u` to come. -/
  | low (s : Bytes) (high : Nat) (rest : Bytes)
  | number (st : NumberState) (n : Number)
  /-- After a NUL between tokens, which is the end of the input. -/
  | ended
  deriving DecidableEq, Repr

/-- The tokens of one character. -/
def structural (b : UInt8) : Option Token :=
  if b = 0x5B then some .beginArray
  else if b = 0x5D then some .endArray
  else if b = 0x7B then some .beginObject
  else if b = 0x7D then some .endObject
  else if b = 0x3A then some .nameSeparator
  else if b = 0x2C then some .valueSeparator
  else none

/-- The scan function the first character of a longer token leads to. -/
def opens (b : UInt8) : Option State :=
  if b = 0x74 then some (.literal (text "rue") .literalTrue)
  else if b = 0x66 then some (.literal (text "alse") .literalFalse)
  else if b = 0x6E then some (.literal (text "ull") .literalNull)
  else if b = 0x22 then some (.string [] [])
  else if b = 0x2D then some (.number .minus ⟨true, 0, 0, false, 0, false⟩)
  else if b = 0x30 then some (.number .zero ⟨false, 0, 0, false, 0, false⟩)
  else if isDigit b then some (.number .any1 ⟨false, digitValue b, 0, false, 0, false⟩)
  else none

def White (b : UInt8) : Prop := b = 0x20 ∨ b = 0x09 ∨ b = 0x0A ∨ b = 0x0D

instance (b : UInt8) : Decidable (White b) := inferInstanceAs (Decidable (_ ∨ _))

/-- A byte between tokens. -/
def scan (b : UInt8) : Option (List Token × State) :=
  if White b then some ([], .start)
  else
    match structural b with
    | some t => some ([t], .start)
    | none =>
      match opens b with
      | some st => some ([], st)
      | none => if b = 0x00 then some ([], .ended) else none

/-- The end of the four digits after `\u`. -/
def codepoint (s : Bytes) (high : Option Nat) (c : Nat) : Option State :=
  match high with
  | none =>
    if 0xD800 ≤ c ∧ c ≤ 0xDBFF then some (.low s c (text "\\u"))
    else if 0xDC00 ≤ c ∧ c ≤ 0xDFFF then none
    else some (.string (s ++ codepointBytes c) [])
  | some h =>
    if 0xDC00 ≤ c ∧ c ≤ 0xDFFF then
      some (.string (s ++ codepointBytes (h * 0x400 + c - 0x35FDC00)) [])
    else none

/-- One byte. -/
def step : State → UInt8 → Option (List Token × State)
  | .begin, b => if b = 0xEF then some ([], .bom [0xBB, 0xBF]) else scan b
  | .bom [], b => scan b
  | .bom (c :: rest), b => if b = c then some ([], .bom rest) else none
  | .start, b => scan b
  | .literal [] _, _ => none
  | .literal (c :: rest) t, b =>
    if b = c then some (if rest = [] then ([t], .start) else ([], .literal rest t)) else none
  | .string s [], b =>
    if b = 0x22 then some ([.valueString s], .start)
    else if b = 0x5C then some ([], .escape s)
    else if b < 0x20 then none
    else (Utf8.next [] b).map fun p => ([], .string (s ++ [b]) p)
  | .string s p, b => (Utf8.next p b).map fun p' => ([], .string (s ++ [b]) p')
  | .escape s, b =>
    if b = 0x75 then some ([], .hex s none 4 0)
    else (unescape b).map fun c => ([], .string (s ++ [c]) [])
  | .hex s high left c, b => do
    let d ← hexValue b
    if left ≤ 1 then (codepoint s high (c * 16 + d)).map fun st => ([], st)
    else some ([], .hex s high (left - 1) (c * 16 + d))
  | .low s high rest, b =>
    match rest with
    | [] => none
    | c :: rest =>
      if b = c then some ([], if rest = [] then .hex s (some high) 4 0 else .low s high rest)
      else none
  | .number st n, b =>
    match st.next n b with
    | some (st', n') => some ([], .number st' n')
    | none =>
      if st.accepting then do
        let (ts, st') ← scan b
        some (n.token :: ts, st')
      else none
  | .ended, _ => some ([], .ended)

/-- The end of the input. -/
def finish : State → Option (List Token)
  | .begin | .start | .ended | .bom [] => some []
  | .number st n => if st.accepting then some [n.token] else none
  | _ => none

/-- The tokens of a text, and where the lexer stands after it. -/
def run : State → Bytes → Option (List Token × State)
  | st, [] => some ([], st)
  | st, b :: s => do
    let (ts, st') ← step st b
    let (rest, st'') ← run st' s
    some (ts ++ rest, st'')

/-- The tokens up to the end of the input, from a state. -/
def rest (st : State) (s : Bytes) : Option (List Token) :=
  (run st s).bind fun p => (finish p.2).map (p.1 ++ ·)

/-- The tokens of a text. -/
def tokens (s : Bytes) : Option (List Token) := rest .begin s

end Lexer

end Json

end ForexMarket
