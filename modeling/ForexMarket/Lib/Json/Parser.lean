import ForexMarket.Lib.Json.Lexer

/- The parser, one token at a time. A state is where the loop of the parser stands when
   it asks for the next token, with the arrays and objects that are still open, the
   innermost first. A text is a value when the tokens before the end of the input
   make one. -/
namespace ForexMarket

namespace Json

/-- An array or an object that is still open. -/
inductive Frame where
  | array (elems : List Json)
  | object (members : List (Bytes × Json)) (key : Bytes)

namespace Parser

inductive State where
  /-- A value comes next. -/
  | value (stack : List Frame)
  /-- After `[`. -/
  | arrayOpen (stack : List Frame)
  /-- After `{`. -/
  | objectOpen (stack : List Frame)
  /-- After a comma of an object. -/
  | key (members : List (Bytes × Json)) (stack : List Frame)
  /-- After a key. -/
  | separator (members : List (Bytes × Json)) (key : Bytes) (stack : List Frame)
  /-- After a value of an array. -/
  | nextElem (elems : List Json) (stack : List Frame)
  /-- After a value of an object. -/
  | nextMember (members : List (Bytes × Json)) (stack : List Frame)
  | done (v : Json)

/-- A value is complete. -/
def complete (v : Json) : List Frame → State
  | [] => .done v
  | .array elems :: st => .nextElem (elems ++ [v]) st
  | .object members k :: st => .nextMember (insert k v members) st

/-- The token a value starts with. -/
def startValue (st : List Frame) : Token → Option State
  | .beginObject => some (.objectOpen st)
  | .beginArray => some (.arrayOpen st)
  | .literalTrue => some (complete (.bool true) st)
  | .literalFalse => some (complete (.bool false) st)
  | .literalNull => some (complete .null st)
  | .valueString s => some (complete (.string s) st)
  | .valueInteger n => some (complete (.int n) st)
  | .valueFloat (some (m, e)) => some (complete (.float m e) st)
  | _ => none

/-- One token. -/
def step : State → Token → Option State
  | .value st, t => startValue st t
  | .arrayOpen st, .endArray => some (complete (.array []) st)
  | .arrayOpen st, t => startValue (.array [] :: st) t
  | .objectOpen st, .endObject => some (complete (.object []) st)
  | .objectOpen st, .valueString k => some (.separator [] k st)
  | .key ms st, .valueString k => some (.separator ms k st)
  | .separator ms k st, .nameSeparator => some (.value (.object ms k :: st))
  | .nextElem vs st, .valueSeparator => some (.value (.array vs :: st))
  | .nextElem vs st, .endArray => some (complete (.array vs) st)
  | .nextMember ms st, .valueSeparator => some (.key ms st)
  | .nextMember ms st, .endObject => some (complete (.object ms) st)
  | _, _ => none

def run (σ : State) (ts : List Token) : Option State := ts.foldlM step σ

/-- The value the tokens of a whole text make. -/
def value (ts : List Token) : Option Json :=
  match run (.value []) ts with
  | some (.done v) => some v
  | _ => none

end Parser

/-- `parse`; `none` is a parse error. -/
def parse (s : Bytes) : Option Json := do
  let ts ← Lexer.tokens s
  Parser.value ts

namespace Parser

@[simp] theorem run_cons (σ : State) (t : Token) (ts : List Token) :
    run σ (t :: ts) = (step σ t).bind fun σ' => run σ' ts := rfl

theorem run_append (σ : State) (ts us : List Token) :
    run σ (ts ++ us) = (run σ ts).bind fun σ' => run σ' us := List.foldlM_append

/-- Nothing may follow the value. -/
theorem run_done (v : Json) {ts : List Token} {σ : State} (h : run (.done v) ts = some σ) :
    ts = [] := by
  cases ts with
  | nil => rfl
  | cons t ts => cases h

theorem value_eq_some {ts : List Token} {v : Json} :
    value ts = some v ↔ run (.value []) ts = some (.done v) := by
  unfold value
  cases hrun : run (.value []) ts with
  | none => simp
  | some σ => cases σ <;> simp

end Parser

end Json

end ForexMarket
