import ForexMarket.Lib.Json.Access
import ForexMarket.Lib.Json.Parser

/- JSON as it is written: an integer of any size by its digits, a real number by the
   double nearest to it, and an object with all its members, in their order and under
   their keys, equal ones too. A text is refused for a number that no double is as large
   as, and otherwise stored with the integers beyond 64 bits as doubles and with the last
   member of each key (`parse_written`, `value?_eq_none_iff`). -/
namespace ForexMarket

namespace Json

inductive Written where
  | null
  | bool (b : Bool)
  | integer (n : Int)
  /-- `none` when the double is infinite. -/
  | real (d : Option (Int × Int))
  | string (s : Bytes)
  | array (elems : List Written)
  | object (members : List (Bytes × Written))

/-- The token of the digits of an integer. -/
def integerToken (n : Int) : Token :=
  if -2 ^ 63 ≤ n ∧ n < 2 ^ 64 then .valueInteger n else .valueFloat (strtof n 0)

theorem Number.token_of_integer {n : Number} (h : n.isFloat = false) :
    n.token = integerToken n.signed := by
  rw [Number.token, h, if_neg Bool.false_ne_true]
  rfl

/-- The value of a number, if there is one. -/
def Token.number? : Token → Option Json
  | .valueInteger n => some (.int n)
  | .valueFloat d => d.map fun d => .float d.1 d.2
  | _ => none

theorem number?_integerToken (n : Int) : (integerToken n).number? =
    if -2 ^ 63 ≤ n ∧ n < 2 ^ 64 then some (.int n)
    else (strtof n 0).map fun d => .float d.1 d.2 := by
  unfold integerToken
  split <;> rfl

namespace Written

/-! The tokens. -/

mutual
def tokens : Written → List Token
  | null => [.literalNull]
  | bool true => [.literalTrue]
  | bool false => [.literalFalse]
  | integer n => [integerToken n]
  | real d => [.valueFloat d]
  | string s => [.valueString s]
  | array elems => .beginArray :: elemTokens elems ++ [.endArray]
  | object members => .beginObject :: memberTokens members ++ [.endObject]

def elemTokens : List Written → List Token
  | [] => []
  | [w] => tokens w
  | w :: ws => tokens w ++ .valueSeparator :: elemTokens ws

def memberTokens : List (Bytes × Written) → List Token
  | [] => []
  | [(k, w)] => .valueString k :: .nameSeparator :: tokens w
  | (k, w) :: ms =>
    .valueString k :: .nameSeparator :: tokens w ++ .valueSeparator :: memberTokens ms
end

theorem elemTokens_cons (w : Written) {ws : List Written} (h : ws ≠ []) :
    elemTokens (w :: ws) = tokens w ++ .valueSeparator :: elemTokens ws := by
  cases ws with
  | nil => exact absurd rfl h
  | cons => rfl

theorem memberTokens_cons (k : Bytes) (w : Written) {ms : List (Bytes × Written)} (h : ms ≠ []) :
    memberTokens ((k, w) :: ms) =
      .valueString k :: .nameSeparator :: tokens w ++ .valueSeparator :: memberTokens ms := by
  cases ms with
  | nil => exact absurd rfl h
  | cons => rfl

theorem integerToken_ne_endArray (n : Int) : integerToken n ≠ .endArray := by
  unfold integerToken
  split <;> exact Token.noConfusion

/-- A value does not start with a closing bracket. -/
theorem tokens_head (w : Written) : ∃ t ts, w.tokens = t :: ts ∧ t ≠ .endArray := by
  cases w with
  | bool b => cases b <;> exact ⟨_, _, rfl, by decide⟩
  | integer n => exact ⟨_, _, rfl, integerToken_ne_endArray n⟩
  | array elems => exact ⟨_, _, rfl, by decide⟩
  | object members => exact ⟨_, _, rfl, by decide⟩
  | _ => exact ⟨_, [], rfl, by simp⟩

/-! What is stored. -/

mutual
/-- The value that is stored, unless a number is too large. -/
def value? : Written → Option Json
  | null => some .null
  | bool b => some (.bool b)
  | integer n => (integerToken n).number?
  | real d => (Token.valueFloat d).number?
  | string s => some (.string s)
  | array elems => (elems? elems).map .array
  | object members => (members? [] members).map .object

def elems? : List Written → Option (List Json)
  | [] => some []
  | w :: ws => do
    let v ← value? w
    let vs ← elems? ws
    some (v :: vs)

/-- The members of an object after some more of them. -/
def members? (acc : List (Bytes × Json)) : List (Bytes × Written) → Option (List (Bytes × Json))
  | [] => some acc
  | (k, w) :: ms => do
    let v ← value? w
    members? (Json.insert k v acc) ms
end

end Written

/-! The parser stores it. -/

namespace Parser

open Written (elemTokens_cons memberTokens_cons)

theorem startValue_number {t : Token} (h : t.number?.isSome ∨ ∃ d, t = .valueFloat d)
    (st : List Frame) : startValue st t = t.number?.map fun v => complete v st := by
  cases t with
  | valueInteger n => rfl
  | valueFloat d => cases d <;> rfl
  | _ => simp [Token.number?] at h

theorem startValue_integerToken (n : Int) (st : List Frame) :
    startValue st (integerToken n) = (integerToken n).number?.map fun v => complete v st := by
  apply startValue_number
  unfold integerToken
  split
  · exact .inl rfl
  · exact .inr ⟨_, rfl⟩

theorem run_arrayOpen (w : Written) (st : List Frame) (ts : List Token) :
    run (.arrayOpen st) (w.tokens ++ ts) = run (.value (.array [] :: st)) (w.tokens ++ ts) := by
  obtain ⟨t, us, htoks, hne⟩ := w.tokens_head
  rw [htoks, List.cons_append, run_cons, run_cons]
  cases t with
  | endArray => exact absurd rfl hne
  | _ => rfl

theorem run_singleton (σ : State) (t : Token) : run σ [t] = step σ t := by
  rw [run_cons]
  cases step σ t <;> rfl

mutual
theorem run_tokens : ∀ (w : Written) (st : List Frame),
    run (.value st) w.tokens = w.value?.map fun v => complete v st
  | .null, _ => rfl
  | .bool true, _ => rfl
  | .bool false, _ => rfl
  | .integer n, st => (run_singleton _ _).trans (startValue_integerToken n st)
  | .real d, st => (run_singleton _ _).trans (startValue_number (.inr ⟨d, rfl⟩) st)
  | .string _, _ => rfl
  | .array [], _ => rfl
  | .array (w :: ws), st => by
    have helems := run_elemTokens (w :: ws) (List.cons_ne_nil w ws) [] st
    have hopen : run (.value st) (Written.array (w :: ws)).tokens =
        run (.value (.array [] :: st)) (Written.elemTokens (w :: ws) ++ [.endArray]) := by
      cases ws with
      | nil => exact run_arrayOpen w st _
      | cons x xs =>
        rw [elemTokens_cons w (List.cons_ne_nil x xs), List.append_assoc]
        rw [← run_arrayOpen w st, ← List.append_assoc, ← elemTokens_cons w (List.cons_ne_nil x xs)]
        rfl
    rw [hopen, run_append, helems, Written.value?]
    cases Written.elems? (w :: ws) <;> rfl
  | .object [], _ => rfl
  | .object (m :: ms), st => by
    have hmembers := run_memberTokens (m :: ms) (List.cons_ne_nil m ms) [] st
    have hopen : run (.value st) (Written.object (m :: ms)).tokens =
        run (.key [] st) (Written.memberTokens (m :: ms) ++ [.endObject]) := by
      cases ms <;> rfl
    rw [hopen, run_append, hmembers, Written.value?]
    cases Written.members? [] (m :: ms) <;> rfl

theorem run_elemTokens : ∀ ws : List Written, ws ≠ [] → ∀ acc st,
    run (.value (.array acc :: st)) (Written.elemTokens ws) =
      (Written.elems? ws).map fun vs => .nextElem (acc ++ vs) st
  | [], hne, _, _ => absurd rfl hne
  | [w], _, acc, st => by
    have hfirst := run_tokens w (.array acc :: st)
    rw [Written.elemTokens, hfirst, Written.elems?, Written.elems?]
    cases w.value? <;> rfl
  | w :: x :: xs, _, acc, st => by
    have hfirst := run_tokens w (.array acc :: st)
    rw [elemTokens_cons w (List.cons_ne_nil x xs), run_append, hfirst, Written.elems?]
    cases w.value? with
    | none => rfl
    | some v =>
      have hrest := run_elemTokens (x :: xs) (List.cons_ne_nil x xs) (acc ++ [v]) st
      refine hrest.trans ?_
      simp only [List.append_assoc, List.singleton_append, bind, Option.bind_some]
      cases Written.elems? (x :: xs) <;> rfl

theorem run_memberTokens : ∀ ms : List (Bytes × Written), ms ≠ [] → ∀ acc st,
    run (.key acc st) (Written.memberTokens ms) =
      (Written.members? acc ms).map fun ms => .nextMember ms st
  | [], hne, _, _ => absurd rfl hne
  | [(k, w)], _, acc, st => by
    have hfirst := run_tokens w (.object acc k :: st)
    refine hfirst.trans ?_
    rw [Written.members?]
    cases w.value? <;> rfl
  | (k, w) :: m :: ms, _, acc, st => by
    have hfirst := run_tokens w (.object acc k :: st)
    rw [memberTokens_cons k w (List.cons_ne_nil m ms), Written.members?]
    calc run (.key acc st) (.valueString k :: .nameSeparator :: w.tokens ++
            .valueSeparator :: Written.memberTokens (m :: ms))
        = run (.value (.object acc k :: st))
            (w.tokens ++ .valueSeparator :: Written.memberTokens (m :: ms)) := rfl
      _ = (w.value?.map fun v => complete v (.object acc k :: st)).bind fun σ =>
            run σ (.valueSeparator :: Written.memberTokens (m :: ms)) := by
          rw [run_append, hfirst]
      _ = (w.value?.bind fun v => Written.members? (Json.insert k v acc) (m :: ms)).map
            fun ms => .nextMember ms st := by
          cases w.value? with
          | none => rfl
          | some v => exact run_memberTokens (m :: ms) (List.cons_ne_nil m ms) _ st
end

end Parser

/-- A text is read as the value of what is written, or refused when there is none. -/
theorem parse_written {s : Bytes} {w : Written} (h : Lexer.tokens s = some w.tokens) :
    parse s = w.value? := by
  rw [parse, h]
  change Parser.value w.tokens = w.value?
  rw [Parser.value, Parser.run_tokens w []]
  cases w.value? <;> rfl

namespace Written

/-! Numbers that are too large. -/

mutual
/-- The numbers of what is written. -/
def numbers : Written → List Token
  | integer n => [integerToken n]
  | real d => [.valueFloat d]
  | array elems => elemNumbers elems
  | object members => memberNumbers members
  | _ => []

def elemNumbers : List Written → List Token
  | [] => []
  | w :: ws => numbers w ++ elemNumbers ws

def memberNumbers : List (Bytes × Written) → List Token
  | [] => []
  | (_, w) :: ms => numbers w ++ memberNumbers ms
end

/-- A number of the text is larger than every double. -/
def TooLarge (w : Written) : Prop := ∃ t ∈ w.numbers, t.number? = none

instance (w : Written) : Decidable w.TooLarge := inferInstanceAs (Decidable (∃ t ∈ _, _))

mutual
theorem value?_eq_none_iff : ∀ w : Written, w.value? = none ↔ ∃ t ∈ w.numbers, t.number? = none
  | null => by simp [value?, numbers]
  | bool _ => by simp [value?, numbers]
  | integer n => by simp [value?, numbers]
  | real d => by simp [value?, numbers]
  | string _ => by simp [value?, numbers]
  | array elems => by
    rw [value?, Option.map_eq_none_iff, numbers]
    exact elems?_eq_none_iff elems
  | object members => by
    rw [value?, Option.map_eq_none_iff, numbers]
    exact members?_eq_none_iff members []

theorem elems?_eq_none_iff : ∀ ws : List Written,
    elems? ws = none ↔ ∃ t ∈ elemNumbers ws, t.number? = none
  | [] => by simp [elems?, elemNumbers]
  | w :: ws => by
    have hfirst := value?_eq_none_iff w
    have hrest := elems?_eq_none_iff ws
    simp only [elemNumbers, List.mem_append, or_and_right, exists_or, ← hfirst, ← hrest, elems?]
    cases w.value? with
    | none => simp
    | some v => cases elems? ws <;> simp

theorem members?_eq_none_iff : ∀ (ms : List (Bytes × Written)) (acc : List (Bytes × Json)),
    members? acc ms = none ↔ ∃ t ∈ memberNumbers ms, t.number? = none
  | [], _ => by simp [members?, memberNumbers]
  | (k, w) :: ms, acc => by
    have hfirst := value?_eq_none_iff w
    simp only [memberNumbers, List.mem_append, or_and_right, exists_or, ← hfirst, members?]
    cases w.value? with
    | none => simp
    | some v =>
      have hrest := members?_eq_none_iff ms (Json.insert k v acc)
      simpa using hrest
end

/-! Members. -/

/-- The last one of the members of a key. -/
def last? (k : Bytes) : List (Bytes × Written) → Option Written
  | [] => none
  | (k', w) :: ms => (last? k ms).or (if k' = k then some w else none)

/-- The member of a key. -/
def member (k : Bytes) : Written → Option Written
  | object members => last? k members
  | _ => none

end Written

/-- The members after an assignment to one. -/
theorem find?_insert (k k' : Bytes) (v : Json) (ms : List (Bytes × Json)) :
    find? k (insert k' v ms) = if k' = k then some v else find? k ms := by
  induction ms with
  | nil => rfl
  | cons m ms ih =>
    obtain ⟨k'', v''⟩ := m
    rw [insert]
    split
    · rfl
    · split
      · next heq =>
        rw [find?, find?, heq]
        split <;> rfl
      · next hne =>
        rw [find?, find?, ih]
        split
        · next h => rw [if_neg (fun h' => hne (h'.trans h.symm))]
        · rfl

namespace Written

theorem find?_members? {k : Bytes} :
    ∀ {ms : List (Bytes × Written)} {acc out : List (Bytes × Json)}, members? acc ms = some out →
      (∀ w, last? k ms = some w → find? k out = w.value? ∧ w.value?.isSome) ∧
        (last? k ms = none → find? k out = find? k acc)
  | [], acc, out, h => by
    rw [← Option.some.inj h]
    exact ⟨nofun, fun _ => rfl⟩
  | (k', w') :: ms, acc, out, h => by
    obtain ⟨v, hv, h⟩ := Option.bind_eq_some_iff.mp h
    obtain ⟨hlast, hnone⟩ := find?_members? h
    rw [last?]
    cases hms : last? k ms with
    | some w =>
      rw [Option.some_or]
      exact ⟨fun x hx => hlast x (hms.trans hx), nofun⟩
    | none =>
      rw [Option.none_or]
      rw [hnone hms, find?_insert]
      split
      · refine ⟨fun x hx => ?_, nofun⟩
        rw [← Option.some.inj hx, hv]
        exact ⟨rfl, rfl⟩
      · exact ⟨nofun, fun _ => rfl⟩

/-- Access to the value of what is written is access to the value of its member. -/
theorem at'_of_member {w m : Written} {k : Bytes} {v : Json} (hv : w.value? = some v)
    (hm : w.member k = some m) : ∃ x, m.value? = some x ∧ v.at' k = .ok x ∧ v.index k = .ok x := by
  cases w with
  | object members =>
    obtain ⟨out, hout, rfl⟩ := Option.map_eq_some_iff.mp hv
    obtain ⟨hfind, hsome⟩ := (find?_members? hout).1 m hm
    obtain ⟨x, hx⟩ := Option.isSome_iff_exists.mp hsome
    rw [hx] at hfind
    exact ⟨x, hx, by rw [at', hfind], by rw [index, hfind]; rfl⟩
  | _ => cases hm

end Written

end Json

end ForexMarket
