import ForexMarket.Lib.Json.Value
import ForexMarket.Lib.Wrap

/- Reading a value: members and conversions, with the exceptions they throw. An integer
   is converted as `static_cast` does, modulo the width of the type, and a float by
   leaving out its fraction, which is undefined where the result does not fit. -/
namespace ForexMarket

open Wrap

namespace Json

inductive Exception where
  | parseError
  | typeError
  | outOfRange
  /-- Undefined behaviour, not an exception. -/
  | undefined
  deriving DecidableEq, Repr

/-- The member of a key. -/
def find? (k : Bytes) : List (Bytes × Json) → Option Json
  | [] => none
  | (k', v) :: ms => if k' = k then some v else find? k ms

/-- `at(key)`. -/
def at' (k : Bytes) : Json → Except Exception Json
  | object members =>
    match find? k members with
    | some v => .ok v
    | none => .error .outOfRange
  | _ => .error .typeError

/-- `operator[](key)` of a value that may be changed: a missing member is made, with `null`. -/
def index (k : Bytes) : Json → Except Exception Json
  | object members => .ok ((find? k members).getD null)
  | null => .ok null
  | _ => .error .typeError

/-- `empty()`. -/
def empty : Json → Bool
  | null => true
  | array elems => elems.isEmpty
  | object members => members.isEmpty
  | _ => false

/-- The values a loop over a value goes through. -/
def items : Json → List Json
  | null => []
  | array elems => elems
  | object members => members.map Prod.snd
  | v => [v]

/-- Equality with a string. -/
def isString (s : Bytes) : Json → Bool
  | string t => t = s
  | _ => false

def getString : Json → Except Exception Bytes
  | string s => .ok s
  | _ => .error .typeError

def getBool : Json → Except Exception Bool
  | bool b => .ok b
  | _ => .error .typeError

/-- A double without its fraction. -/
def truncate (m e : Int) : Int := if 0 ≤ e then m * 2 ^ e.toNat else m.tdiv (2 ^ (-e).toNat)

/-- Conversion to `uint64_t`, which is `size_t` too. -/
def getUInt64 : Json → Except Exception UInt64
  | int n => .ok (UInt64.ofInt n)
  | float m e =>
    if 0 ≤ truncate m e ∧ truncate m e < 2 ^ 64 then .ok (UInt64.ofInt (truncate m e))
    else .error .undefined
  | _ => .error .typeError

/-- Conversion to `int`. -/
def getInt : Json → Except Exception Int
  | int n => .ok (wrap32 n)
  | float m e =>
    if -2 ^ 31 ≤ truncate m e ∧ truncate m e < 2 ^ 31 then .ok (truncate m e)
    else .error .undefined
  | bool b => .ok (if b then 1 else 0)
  | _ => .error .typeError

/-- The value of a `uint64_t`. -/
def ofUInt64 (n : UInt64) : Json := int n.toNat

theorem getUInt64_ofUInt64 (n : UInt64) : (ofUInt64 n).getUInt64 = .ok n :=
  congrArg Except.ok (ofInt_toNat n)

/-- The value of an `int`. -/
def ofInt (n : Int) : Json := int (wrap32 n)

/-- The text of a value, which `dump` throws for when a string in it is not UTF-8. -/
def dumped (v : Json) : Except Exception Bytes :=
  match v.dump with
  | some s => .ok s
  | none => .error .typeError

end Json

end ForexMarket
