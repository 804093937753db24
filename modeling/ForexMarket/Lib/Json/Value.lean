import Mathlib.Data.List.Basic
import Mathlib.Tactic.Common

/- JSON values and their text. A string is the bytes of a `std::string`. An object is
   the contents of a `std::map`: its members in increasing order of their keys, which
   are compared byte by byte. The signed and the unsigned integers of 64 bits are one
   kind of value here, since they compare and convert alike. A float is the double
   `mantissa * 2 ^ exponent`; the text of floats is not modelled, and `dump` has none
   for them. -/
namespace ForexMarket

abbrev Bytes := List UInt8

/-- The bytes of an ASCII text. -/
def text (s : String) : Bytes := s.toList.map fun c => c.toNat.toUInt8

inductive Json where
  | null
  | bool (b : Bool)
  | int (n : Int)
  | float (mantissa exponent : Int)
  | string (s : Bytes)
  | array (elems : List Json)
  | object (members : List (Bytes × Json))
  deriving Repr

/-! UTF-8. -/

namespace Utf8

/-- The bytes a sequence still needs, each with the range it must be in. -/
abbrev Pending := List (UInt8 × UInt8)

/-- What must follow the first byte of a sequence. -/
def lead (b : UInt8) : Option Pending :=
  if b < 0x80 then some []
  else if b < 0xC2 then none
  else if b ≤ 0xDF then some [(0x80, 0xBF)]
  else if b = 0xE0 then some [(0xA0, 0xBF), (0x80, 0xBF)]
  else if b = 0xED then some [(0x80, 0x9F), (0x80, 0xBF)]
  else if b ≤ 0xEF then some [(0x80, 0xBF), (0x80, 0xBF)]
  else if b = 0xF0 then some [(0x90, 0xBF), (0x80, 0xBF), (0x80, 0xBF)]
  else if b ≤ 0xF3 then some [(0x80, 0xBF), (0x80, 0xBF), (0x80, 0xBF)]
  else if b = 0xF4 then some [(0x80, 0x8F), (0x80, 0xBF), (0x80, 0xBF)]
  else none

/-- One byte of a text. -/
def next : Pending → UInt8 → Option Pending
  | [], b => lead b
  | (lo, hi) :: rest, b => if lo ≤ b ∧ b ≤ hi then some rest else none

/-- A byte in the middle of a sequence is no ASCII character. -/
def Multi (p : Pending) : Prop := ∀ r ∈ p, 0x80 ≤ r.1

theorem multi_nil : Multi [] := fun _ hr => nomatch hr

theorem multi_lead {b : UInt8} {p : Pending} (h : lead b = some p) : Multi p := by
  unfold lead at h
  repeat' split at h
  all_goals simp only [Option.some.injEq, reduceCtorEq] at h
  all_goals subst h; simp [Multi]

theorem multi_next {p q : Pending} {b : UInt8} (hp : Multi p) (h : next p b = some q) :
    Multi q := by
  cases p with
  | nil => exact multi_lead h
  | cons r rest =>
    simp only [next] at h
    split at h
    · rw [Option.some.injEq] at h
      exact fun x hx => hp x (List.mem_cons_of_mem _ (h ▸ hx))
    · cases h

end Utf8

namespace Json

/-! The text of a value. -/

def hexDigit (n : UInt8) : UInt8 := if n < 10 then 0x30 + n else 0x57 + n

/-- What `dump_escaped` writes for a byte: a two-character escape, `\u00xx` for the other control
characters, and any other byte as it is. -/
def escape (b : UInt8) : Bytes :=
  if b = 0x08 then text "\\b"
  else if b = 0x09 then text "\\t"
  else if b = 0x0A then text "\\n"
  else if b = 0x0C then text "\\f"
  else if b = 0x0D then text "\\r"
  else if b = 0x22 then text "\\\""
  else if b = 0x5C then text "\\\\"
  else if b ≤ 0x1F then text "\\u00" ++ [hexDigit (b / 16), hexDigit (b % 16)]
  else [b]

/-- `dump_escaped`; a text that is not UTF-8 makes it throw. -/
def dumpEscaped : Utf8.Pending → Bytes → Option Bytes
  | [], [] => some []
  | _ :: _, [] => none
  | p, b :: s => do
    let p' ← Utf8.next p b
    let out ← dumpEscaped p' s
    some (escape b ++ out)

def dumpString (s : Bytes) : Option Bytes := do
  let out ← dumpEscaped [] s
  some (0x22 :: out ++ [0x22])

/-- The decimal digits of a number, as characters. -/
def dumpNat (n : Nat) : Bytes := (Nat.toDigits 10 n).map fun c => c.toNat.toUInt8

/-- `dump_integer`. -/
def dumpInteger (n : Int) : Bytes := if n < 0 then 0x2D :: dumpNat n.natAbs else dumpNat n.natAbs

mutual
/-- `dump()`, with no indentation and non-ASCII characters as they are. -/
def dump : Json → Option Bytes
  | null => some (text "null")
  | bool true => some (text "true")
  | bool false => some (text "false")
  | int n => some (dumpInteger n)
  | float _ _ => none
  | string s => dumpString s
  | array elems => do
    let out ← dumpElems elems
    some (0x5B :: out ++ [0x5D])
  | object members => do
    let out ← dumpMembers members
    some (0x7B :: out ++ [0x7D])

def dumpElems : List Json → Option Bytes
  | [] => some []
  | [v] => dump v
  | v :: vs => do
    let out ← dump v
    let rest ← dumpElems vs
    some (out ++ 0x2C :: rest)

def dumpMembers : List (Bytes × Json) → Option Bytes
  | [] => some []
  | [(k, v)] => do
    let key ← dumpString k
    let out ← dump v
    some (key ++ 0x3A :: out)
  | (k, v) :: ms => do
    let key ← dumpString k
    let out ← dump v
    let rest ← dumpMembers ms
    some (key ++ 0x3A :: out ++ 0x2C :: rest)
end

/-! Objects. -/

/-- Assignment to the member of a key, which `operator[]` makes when there is none. -/
def insert (k : Bytes) (v : Json) : List (Bytes × Json) → List (Bytes × Json)
  | [] => [(k, v)]
  | (k', v') :: ms =>
    if k < k' then (k, v) :: (k', v') :: ms
    else if k = k' then (k, v) :: ms
    else (k', v') :: insert k v ms

/-- An object built by assignments to its members, in their order. -/
def ofMembers (ms : List (Bytes × Json)) : Json :=
  object (ms.foldl (fun acc m => insert m.1 m.2 acc) [])

mutual
/-- The values the types of the library can hold: an integer has 64 bits, and an object is in the
order of its keys. -/
def Valid : Json → Prop
  | int n => -2 ^ 63 ≤ n ∧ n < 2 ^ 64
  | array elems => ValidElems elems
  | object members => (members.map Prod.fst).Pairwise (· < ·) ∧ ValidMembers members
  | _ => True

def ValidElems : List Json → Prop
  | [] => True
  | v :: vs => Valid v ∧ ValidElems vs

def ValidMembers : List (Bytes × Json) → Prop
  | [] => True
  | (_, v) :: ms => Valid v ∧ ValidMembers ms
end

/-- Strings, arrays and objects, whose texts end where they say. -/
def Delimited : Json → Prop
  | string _ | array _ | object _ => True
  | _ => False

end Json

end ForexMarket
