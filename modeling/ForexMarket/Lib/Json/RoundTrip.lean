import ForexMarket.Lib.Json.Written
import Mathlib.Tactic.IntervalCases

/- The text of a value is read back as the value. The lexer turns what `dump` writes
   into the tokens of the value, whatever follows it, and the parser turns these
   into the value. -/
namespace ForexMarket

namespace Json

/-! What is written of a value. -/

mutual
def written : Json → Written
  | null => .null
  | bool b => .bool b
  | int n => .integer n
  | float m e => .real (some (m, e))
  | string s => .string s
  | array elems => .array (writtenElems elems)
  | object members => .object (writtenMembers members)

def writtenElems : List Json → List Written
  | [] => []
  | v :: vs => written v :: writtenElems vs

def writtenMembers : List (Bytes × Json) → List (Bytes × Written)
  | [] => []
  | (k, v) :: ms => (k, written v) :: writtenMembers ms
end

/-- The tokens of a value. -/
def toTokens (v : Json) : List Token := v.written.tokens

theorem elemTokens_cons (v : Json) {vs : List Json} (h : vs ≠ []) :
    Written.elemTokens (writtenElems (v :: vs)) =
      toTokens v ++ .valueSeparator :: Written.elemTokens (writtenElems vs) := by
  cases vs with
  | nil => exact absurd rfl h
  | cons => rfl

theorem memberTokens_cons (k : Bytes) (v : Json) {ms : List (Bytes × Json)} (h : ms ≠ []) :
    Written.memberTokens (writtenMembers ((k, v) :: ms)) =
      .valueString k :: .nameSeparator :: toTokens v ++
        .valueSeparator :: Written.memberTokens (writtenMembers ms) := by
  cases ms with
  | nil => exact absurd rfl h
  | cons => rfl

/-- A key above all the others goes to the end. -/
theorem insert_last (k : Bytes) (v : Json) : ∀ {ms : List (Bytes × Json)},
    (∀ m ∈ ms, m.1 < k) → insert k v ms = ms ++ [(k, v)]
  | [], _ => rfl
  | (k', v') :: ms, h => by
    have hk : k' < k := h (k', v') (List.mem_cons_self ..)
    have hne : k ≠ k' := fun e => List.lt_irrefl _ (e ▸ hk)
    have hrest := insert_last k v fun m hm => h m (List.mem_cons_of_mem _ hm)
    rw [insert, if_neg (List.lt_asymm hk), if_neg hne, hrest]
    rfl

mutual
/-- What is written of a value is stored as the value. -/
theorem value?_written : ∀ v : Json, v.Valid → v.written.value? = some v
  | null, _ => rfl
  | bool _, _ => rfl
  | int n, h => (number?_integerToken n).trans (if_pos h)
  | float _ _, _ => rfl
  | string _, _ => rfl
  | array elems, h => by
    rw [written, Written.value?, elems?_written elems h]
    rfl
  | object members, h => by
    rw [written, Written.value?, members?_written members h.1 h.2 [] (fun _ hn => nomatch hn)]
    rfl

theorem elems?_written : ∀ vs : List Json, ValidElems vs →
    Written.elems? (writtenElems vs) = some vs
  | [], _ => rfl
  | v :: vs, h => by
    rw [writtenElems, Written.elems?, value?_written v h.1, elems?_written vs h.2]
    rfl

theorem members?_written : ∀ ms : List (Bytes × Json), (ms.map Prod.fst).Pairwise (· < ·) →
    ValidMembers ms → ∀ acc : List (Bytes × Json), (∀ a ∈ acc, ∀ m ∈ ms, a.1 < m.1) →
      Written.members? acc (writtenMembers ms) = some (acc ++ ms)
  | [], _, _, acc, _ => congrArg some (List.append_nil acc).symm
  | (k, v) :: ms, hsorted, h, acc, hacc => by
    have hlast : insert k v acc = acc ++ [(k, v)] :=
      insert_last k v fun a ha => hacc a ha (k, v) (List.mem_cons_self ..)
    rw [List.map_cons, List.pairwise_cons] at hsorted
    have hrest := members?_written ms hsorted.2 h.2 (acc ++ [(k, v)]) ?_
    · rw [List.append_assoc] at hrest
      rw [writtenMembers, Written.members?, value?_written v h.1, ← List.singleton_append,
        ← hrest, ← hlast]
      rfl
    · intro a ha m hm
      rcases List.mem_append.mp ha with ha | ha
      · exact hacc a ha m (List.mem_cons_of_mem _ hm)
      · rw [List.mem_singleton.mp ha]
        exact hsorted.1 m.1 (List.mem_map_of_mem hm)
end

namespace Parser

/-- The tokens of a value make the value. -/
theorem run_toTokens (v : Json) (h : v.Valid) (st : List Frame) :
    run (.value st) (toTokens v) = some (complete v st) := by
  rw [toTokens, run_tokens, value?_written v h]
  rfl

end Parser

/-! The lexer reads them. -/

namespace Lexer

/-- Tokens before those of the rest. -/
def emit (ts : List Token) (r : Option (List Token × State)) : Option (List Token × State) :=
  r.map fun p => (ts ++ p.1, p.2)

@[simp] theorem emit_nil (r : Option (List Token × State)) : emit [] r = r := by
  cases r <;> rfl

@[simp] theorem emit_emit (ts us : List Token) (r : Option (List Token × State)) :
    emit ts (emit us r) = emit (ts ++ us) r := by
  cases r with
  | none => rfl
  | some p => simp only [emit, Option.map_some, List.append_assoc]

theorem run_cons_of_step {st st' : State} {b : UInt8} {ts : List Token} (s : Bytes)
    (h : step st b = some (ts, st')) : run st (b :: s) = emit ts (run st' s) := by
  rw [run, h]
  show ((run st' s).bind fun p => some (ts ++ p.1, p.2)) = emit ts (run st' s)
  cases run st' s <;> rfl

/-- A byte that gives no token only moves the lexer. -/
theorem run_cons_quiet {st st' : State} {b : UInt8} (s : Bytes)
    (h : step st b = some ([], st')) : run st (b :: s) = run st' s := by
  rw [run_cons_of_step s h, emit_nil]

/-- A byte after which the lexer is between two tokens again. -/
theorem run_cons_token {st : State} {b : UInt8} (t : Token) (s : Bytes)
    (h : step st b = some ([t], .start)) : run st (b :: s) = emit [t] (run .start s) :=
  run_cons_of_step s h

theorem run_append (st : State) (s u : Bytes) :
    run st (s ++ u) = (run st s).bind fun p => emit p.1 (run p.2 u) := by
  induction s generalizing st with
  | nil => simp [run]
  | cons b s ih =>
    cases h : step st b with
    | none => simp [run, h]
    | some r =>
      obtain ⟨ts, st'⟩ := r
      rw [List.cons_append, run_cons_of_step _ h, run_cons_of_step _ h, ih]
      cases run st' s with
      | none => rfl
      | some p => simp [emit, Function.comp_def]

theorem run_emit {st st' : State} {s : Bytes} {ts : List Token}
    (h : run st s = some (ts, st')) (r : Bytes) : run st (s ++ r) = emit ts (run st' r) := by
  rw [run_append, h]
  rfl

/-- Bytes that give no token only move the lexer. -/
theorem run_quiet {st st' : State} {s : Bytes} (h : run st s = some ([], st')) (r : Bytes) :
    run st (s ++ r) = run st' r := by
  rw [run_emit h, emit_nil]

/-! Strings. -/

/-- A control character, whichever escape is written for it. -/
theorem run_escape_control {b : UInt8} (hb : b ≤ 0x1F) (s r : Bytes) :
    run (.string s []) (Json.escape b ++ r) = run (.string (s ++ [b]) []) r := by
  have hlt : b.toNat < 32 := by
    have := UInt8.le_iff_toNat_le.mp hb
    exact Nat.lt_succ_of_le this
  obtain ⟨n, hn⟩ : ∃ n, b.toNat = n := ⟨_, rfl⟩
  rw [hn] at hlt
  have hof : b = UInt8.ofNat n := by rw [← hn, UInt8.ofNat_toNat]
  subst hof
  apply run_quiet
  interval_cases n <;> rfl

/-- Every other byte is written as it is. -/
theorem escape_plain {b : UInt8} (hquote : b ≠ 0x22) (hslash : b ≠ 0x5C) (hctrl : ¬ b ≤ 0x1F) :
    Json.escape b = [b] := by
  have hne : ∀ c : UInt8, c ≤ 0x1F → b ≠ c := fun c hc e => hctrl (e ▸ hc)
  unfold Json.escape
  rw [if_neg (hne _ (by decide)), if_neg (hne _ (by decide)), if_neg (hne _ (by decide)),
    if_neg (hne _ (by decide)), if_neg (hne _ (by decide)), if_neg hquote, if_neg hslash,
    if_neg hctrl]

/-- The same, where a character begins. -/
theorem run_escape_lead {b : UInt8} {q : Utf8.Pending} (h : Utf8.next [] b = some q)
    (s r : Bytes) : run (.string s []) (Json.escape b ++ r) = run (.string (s ++ [b]) q) r := by
  by_cases hquote : b = 0x22
  · subst hquote
    cases h
    exact run_quiet rfl r
  by_cases hslash : b = 0x5C
  · subst hslash
    cases h
    exact run_quiet rfl r
  -- a control character has an escape of its own or is written as its code
  by_cases hctrl : b ≤ 0x1F
  · have h80 : b < 0x80 := UInt8.lt_of_le_of_lt hctrl (by decide)
    have hlead : Utf8.lead b = some [] := by rw [Utf8.lead, if_pos h80]
    have hq : q = [] := by
      rw [Utf8.next, hlead] at h
      exact (Option.some.inj h).symm
    rw [hq]
    exact run_escape_control hctrl s r
  · have h20 : ¬ b < 0x20 := fun hlt => hctrl (by
      have := UInt8.lt_iff_toNat_lt.mp hlt
      exact UInt8.le_iff_toNat_le.mpr (Nat.le_of_lt_succ this))
    rw [escape_plain hquote hslash hctrl, List.singleton_append]
    apply run_cons_quiet r
    simp only [step, if_neg hquote, if_neg hslash, if_neg h20, h, Option.map_some]

/-- What is written for a byte of a text is read as the byte. -/
theorem run_escape {p q : Utf8.Pending} {b : UInt8} (hp : Utf8.Multi p)
    (h : Utf8.next p b = some q) (s r : Bytes) :
    run (.string s p) (Json.escape b ++ r) = run (.string (s ++ [b]) q) r := by
  cases p with
  | nil => exact run_escape_lead h s r
  | cons range rest =>
    -- inside a sequence every byte is above the ASCII characters
    have h80 : 0x80 ≤ b := by
      simp only [Utf8.next] at h
      split at h
      next hin => exact UInt8.le_trans (hp range (List.mem_cons_self ..)) hin.1
      next => cases h
    have hne : ∀ c : UInt8, c < 0x80 → b ≠ c := fun c hc e => UInt8.not_lt.mpr (e ▸ h80) hc
    have hctrl : ¬ b ≤ 0x1F := fun hle => absurd (UInt8.le_trans h80 hle) (by decide)
    rw [escape_plain (hne _ (by decide)) (hne _ (by decide)) hctrl, List.singleton_append]
    apply run_cons_quiet r
    simp only [step, h, Option.map_some]

theorem run_dumpEscaped : ∀ {s : Bytes} {p : Utf8.Pending} {out : Bytes}, Utf8.Multi p →
    dumpEscaped p s = some out → ∀ acc r,
    run (.string acc p) (out ++ r) = run (.string (acc ++ s) []) r
  | [], [], out, _, h, acc, r => by
    rw [dumpEscaped, Option.some.injEq] at h
    rw [← h, List.append_nil]
    rfl
  | [], _ :: _, _, _, h, _, _ => nomatch h
  | b :: s, p, out, hp, h, acc, r => by
    rw [dumpEscaped] at h
    obtain ⟨q, hq, h⟩ := Option.bind_eq_some_iff.mp h
    obtain ⟨rest, hrest, h⟩ := Option.bind_eq_some_iff.mp h
    rw [← Option.some.inj h, List.append_assoc, run_escape hp hq]
    have ih := run_dumpEscaped (Utf8.multi_next hp hq) hrest (acc ++ [b]) r
    rw [ih, List.append_assoc]
    rfl

theorem run_dumpString {s out : Bytes} (h : dumpString s = some out) (r : Bytes) :
    run .start (out ++ r) = emit [.valueString s] (run .start r) := by
  obtain ⟨body, hbody, h⟩ := Option.bind_eq_some_iff.mp h
  rw [← Option.some.inj h]
  have hread := run_dumpEscaped Utf8.multi_nil hbody [] (0x22 :: r)
  calc run .start (0x22 :: body ++ [0x22] ++ r)
      = emit [] (run (.string [] []) (body ++ 0x22 :: r)) := by
        rw [List.append_assoc]
        exact run_cons_of_step _ rfl
    _ = run (.string s []) (0x22 :: r) := by rw [emit_nil, hread, List.nil_append]
    _ = emit [.valueString s] (run .start r) := run_cons_of_step r rfl

/-! Numbers. -/

/-- What follows a value inside an array or an object. -/
def Separator (b : UInt8) : Prop := b = 0x2C ∨ b = 0x5D ∨ b = 0x7D

/-- A byte that does not belong to the number ends it. -/
theorem run_number_end {st : NumberState} {n : Number} {b : UInt8} (hst : st.accepting = true)
    (h : st.next n b = none) (r : Bytes) :
    run (.number st n) (b :: r) = emit [n.token] (run .start (b :: r)) := by
  cases hscan : scan b with
  | none => simp only [run, step, h, hst, if_true, hscan]; rfl
  | some p =>
    obtain ⟨ts, st'⟩ := p
    have hnumber : step (.number st n) b = some (n.token :: ts, st') := by
      simp only [step, h, hst, if_true, hscan]
      rfl
    rw [run_cons_of_step r hnumber, run_cons_of_step r (show step .start b = _ from hscan),
      emit_emit]
    rfl

theorem next_separator {b : UInt8} (hb : Separator b) (n : Number) :
    NumberState.any1.next n b = none ∧ NumberState.zero.next n b = none := by
  rcases hb with rfl | rfl | rfl <;> exact ⟨rfl, rfl⟩

def digitByte (d : Nat) : UInt8 := (Nat.digitChar d).toNat.toUInt8

theorem isDigit_digitByte {d : Nat} (h : d < 10) :
    isDigit (digitByte d) = true ∧ digitValue (digitByte d) = d := by
  interval_cases d <;> decide

theorem dumpNat_of_lt {m : Nat} (h : m < 10) : dumpNat m = [digitByte m] := by
  rw [dumpNat, Nat.toDigits_of_lt_base h]
  rfl

theorem dumpNat_of_le {m : Nat} (h : 10 ≤ m) :
    dumpNat m = dumpNat (m / 10) ++ [digitByte (m % 10)] := by
  rw [dumpNat, Nat.toDigits_of_base_le (by decide) h, List.map_append]
  rfl

/-- The digits of a positive number, from a state that takes its first digit. -/
theorem run_dumpNat (st : State) (n : Number)
    (hfirst : ∀ d, 0 < d → d < 10 →
      step st (digitByte d) = some ([], .number .any1 { n with mantissa := d }))
    (m : Nat) (hm : 0 < m) (r : Bytes) :
    run st (dumpNat m ++ r) = run (.number .any1 { n with mantissa := m }) r := by
  induction m using Nat.strongRecOn generalizing r with
  | ind m ih =>
    by_cases hlt : m < 10
    · rw [dumpNat_of_lt hlt, List.singleton_append, run_cons_quiet r (hfirst m hm hlt)]
    · have hdigits := dumpNat_of_le (Nat.le_of_not_lt hlt)
      have hrest := ih (m / 10) (by omega) (by omega) (digitByte (m % 10) :: r)
      obtain ⟨hdigit, hvalue⟩ := isDigit_digitByte (Nat.mod_lt m (by decide : 0 < 10))
      have hstep : step (.number .any1 { n with mantissa := m / 10 }) (digitByte (m % 10)) =
          some ([], .number .any1 { n with mantissa := m }) := by
        simp only [step, NumberState.next, hdigit, if_true, Number.digit, hvalue]
        rw [Nat.div_add_mod' m 10]
      rw [hdigits, List.append_assoc, List.singleton_append, hrest, run_cons_quiet r hstep]

/-- An integer before a separator. -/
theorem run_dumpInteger {n : Int} {b : UInt8} (hb : Separator b) (r : Bytes) :
    run .start (dumpInteger n ++ b :: r) = emit [integerToken n] (run .start (b :: r)) := by
  have htoken : ∀ negative m, (Number.signed ⟨negative, m, 0, false, 0, false⟩ = n) →
      (Number.mk negative m 0 false 0 false).token = integerToken n :=
    fun negative m hsigned => hsigned ▸ Number.token_of_integer rfl
  by_cases hneg : n < 0
  · have hread := run_dumpNat (.number .minus ⟨true, 0, 0, false, 0, false⟩)
      ⟨true, 0, 0, false, 0, false⟩
      (by intro d hd hlt; interval_cases d <;> rfl) n.natAbs (by omega) (b :: r)
    rw [dumpInteger, if_pos hneg, List.cons_append, run_cons_quiet _ rfl,
      hread, run_number_end rfl (next_separator hb _).1, htoken]
    simp only [Number.signed, if_true]
    omega
  · rw [dumpInteger, if_neg hneg]
    by_cases hzero : n = 0
    · subst hzero
      rw [show dumpNat (Int.natAbs 0) = [0x30] from rfl, List.singleton_append,
        run_cons_quiet _ rfl,
        run_number_end rfl (next_separator hb _).2, htoken]
      rfl
    · have hread := run_dumpNat .start ⟨false, 0, 0, false, 0, false⟩
        (by intro d hd hlt; interval_cases d <;> rfl) n.natAbs (by omega) (b :: r)
      rw [hread, run_number_end rfl (next_separator hb _).1, htoken]
      simp only [Number.signed, Bool.false_eq_true, if_false]
      omega

/-! Values. -/

/-- What may come after a value: a separator, and anything at all after a string, an array or an
object. -/
def Follows (v : Json) (r : Bytes) : Prop := v.Delimited ∨ ∃ b s, Separator b ∧ r = b :: s

theorem Follows.sep {v : Json} {b : UInt8} {s : Bytes} (hb : Separator b) : Follows v (b :: s) :=
  .inr ⟨b, s, hb, rfl⟩

mutual
theorem run_dump : ∀ {v : Json} {out : Bytes}, v.dump = some out → ∀ r, Follows v r →
    run .start (out ++ r) = emit (toTokens v) (run .start r)
  | null, out, h, r, _ => by
    cases h
    exact run_emit rfl r
  | bool true, out, h, r, _ => by
    cases h
    exact run_emit rfl r
  | bool false, out, h, r, _ => by
    cases h
    exact run_emit rfl r
  | int n, out, h, r, hr => by
    rcases hr with hr | ⟨b, s, hb, rfl⟩
    · exact absurd hr id
    · rw [dump, Option.some.injEq] at h
      rw [← h]
      exact run_dumpInteger hb s
  | float _ _, _, h, _, _ => nomatch h
  | string s, out, h, r, _ => run_dumpString h r
  | array elems, out, h, r, _ => by
    rw [dump] at h
    obtain ⟨body, hbody, h⟩ := Option.bind_eq_some_iff.mp h
    have hread := run_dumpElems hbody r
    rw [← Option.some.inj h]
    calc run .start (0x5B :: body ++ [0x5D] ++ r)
        = emit [.beginArray] (run .start (body ++ 0x5D :: r)) := by
          rw [List.append_assoc]
          exact run_cons_of_step _ rfl
      _ = emit [.beginArray]
            (emit (Written.elemTokens (writtenElems elems)) (run .start (0x5D :: r))) := by
          rw [hread]
      _ = emit (toTokens (array elems)) (run .start r) := by
          rw [run_cons_token .endArray r rfl, emit_emit, emit_emit]
          rfl
  | object members, out, h, r, _ => by
    rw [dump] at h
    obtain ⟨body, hbody, h⟩ := Option.bind_eq_some_iff.mp h
    have hread := run_dumpMembers hbody r
    rw [← Option.some.inj h]
    calc run .start (0x7B :: body ++ [0x7D] ++ r)
        = emit [.beginObject] (run .start (body ++ 0x7D :: r)) := by
          rw [List.append_assoc]
          exact run_cons_of_step _ rfl
      _ = emit [.beginObject]
            (emit (Written.memberTokens (writtenMembers members)) (run .start (0x7D :: r))) := by
          rw [hread]
      _ = emit (toTokens (object members)) (run .start r) := by
          rw [run_cons_token .endObject r rfl, emit_emit, emit_emit]
          rfl

theorem run_dumpElems : ∀ {vs : List Json} {out : Bytes},
    dumpElems vs = some out → ∀ r,
    run .start (out ++ 0x5D :: r) =
      emit (Written.elemTokens (writtenElems vs)) (run .start (0x5D :: r))
  | [], out, h, r => by
    cases h
    exact (emit_nil _).symm
  | [v], out, h, r => run_dump h _ (.sep (.inr (.inl rfl)))
  | v :: w :: ws, out, h, r => by
    rw [dumpElems] at h
    · obtain ⟨first, hfirst, h⟩ := Option.bind_eq_some_iff.mp h
      obtain ⟨rest, hrest, h⟩ := Option.bind_eq_some_iff.mp h
      have hread := run_dump hfirst (0x2C :: (rest ++ 0x5D :: r)) (.sep (.inl rfl))
      have hmore := run_dumpElems hrest r
      rw [← Option.some.inj h, List.append_assoc, List.cons_append, hread,
        run_cons_token .valueSeparator _ rfl, hmore, emit_emit, emit_emit,
        elemTokens_cons v (List.cons_ne_nil w ws)]
      rw [List.append_assoc]
      rfl
    · exact List.cons_ne_nil w ws

theorem run_dumpMembers : ∀ {ms : List (Bytes × Json)} {out : Bytes},
    dumpMembers ms = some out → ∀ r,
    run .start (out ++ 0x7D :: r) =
      emit (Written.memberTokens (writtenMembers ms)) (run .start (0x7D :: r))
  | [], out, h, r => by
    cases h
    exact (emit_nil _).symm
  | [(k, v)], out, h, r => by
    rw [dumpMembers] at h
    obtain ⟨key, hkey, h⟩ := Option.bind_eq_some_iff.mp h
    obtain ⟨first, hfirst, h⟩ := Option.bind_eq_some_iff.mp h
    have hread := run_dump hfirst (0x7D :: r) (.sep (.inr (.inr rfl)))
    rw [← Option.some.inj h, List.append_assoc, List.cons_append, run_dumpString hkey,
      run_cons_token .nameSeparator _ rfl, hread, emit_emit, emit_emit]
    rfl
  | (k, v) :: n :: ns, out, h, r => by
    rw [dumpMembers] at h
    · obtain ⟨key, hkey, h⟩ := Option.bind_eq_some_iff.mp h
      obtain ⟨first, hfirst, h⟩ := Option.bind_eq_some_iff.mp h
      obtain ⟨rest, hrest, h⟩ := Option.bind_eq_some_iff.mp h
      have hread := run_dump hfirst (0x2C :: (rest ++ 0x7D :: r)) (.sep (.inl rfl))
      have hmore := run_dumpMembers hrest r
      have hout : out ++ 0x7D :: r =
          key ++ 0x3A :: (first ++ 0x2C :: (rest ++ 0x7D :: r)) := by
        rw [← Option.some.inj h]
        simp only [List.append_assoc, List.cons_append]
      rw [hout, run_dumpString hkey, run_cons_token .nameSeparator _ rfl, hread,
        run_cons_token .valueSeparator _ rfl, hmore, emit_emit, emit_emit, emit_emit,
        emit_emit, memberTokens_cons k v (List.cons_ne_nil n ns)]
      simp only [List.append_assoc, List.cons_append, List.nil_append]
    · exact List.cons_ne_nil n ns
end

end Lexer

end Json

end ForexMarket
