import ForexMarket.Lib.Json.RoundTrip

/- What the parser makes of a stream of documents. A document is a string, an array or
   an object with its text. Its text parses to it; cut short, or with the start of
   another document behind it, it does not parse at all. A NUL after a text ends
   it, as in a character array. -/
namespace ForexMarket

namespace Json

/-- The bytes a document starts with. -/
def Opening (b : UInt8) : Prop := b = 0x22 ∨ b = 0x5B ∨ b = 0x7B

/-- The bytes a document ends with. -/
def Closing (b : UInt8) : Prop := b = 0x22 ∨ b = 0x5D ∨ b = 0x7D

theorem Closing.not_white {b : UInt8} (h : Closing b) : ¬ Lexer.White b := by
  rcases h with rfl | rfl | rfl <;> decide

namespace Lexer

/-- Inside a token. -/
def State.busy : State → Bool
  | .literal .. | .string .. | .escape .. | .hex .. | .low .. | .number .. => true
  | _ => false

theorem run_concat {st st' : State} {s : Bytes} {b : UInt8} {ts : List Token}
    (h : run st (s ++ [b]) = some (ts, st')) :
    ∃ ts₁ mid ts₂, run st s = some (ts₁, mid) ∧ step mid b = some (ts₂, st') ∧ ts = ts₁ ++ ts₂ := by
  rw [run_append] at h
  obtain ⟨⟨ts₁, mid⟩, hrun, h⟩ := Option.bind_eq_some_iff.mp h
  cases hstep : step mid b with
  | none => simp [run, hstep, emit] at h
  | some p =>
    obtain ⟨ts₂, st₂⟩ := p
    rw [run_cons_of_step [] hstep] at h
    simp only [emit, run, Option.map_some, Option.some.injEq, Prod.mk.injEq, List.append_nil] at h
    exact ⟨ts₁, mid, ts₂, hrun, h.2 ▸ hstep, h.1.symm⟩

theorem opens_busy {b : UInt8} {st : State} (h : opens b = some st) : st.busy = true := by
  unfold opens at h
  repeat' split at h
  all_goals cases h
  all_goals rfl

/-- A byte between tokens that ends none: white space, the end, or the first of a token. -/
theorem scan_quiet {b : UInt8} {st : State} (h : scan b = some ([], st)) :
    White b ∧ st = .start ∨ st = .ended ∨ st.busy = true := by
  unfold scan at h
  split at h
  next hwhite =>
    cases h
    exact .inl ⟨hwhite, rfl⟩
  next =>
    split at h
    next => cases h
    next =>
      split at h
      next hopen =>
        cases h
        exact .inr (.inr (opens_busy hopen))
      next =>
        split at h
        · cases h
          exact .inr (.inl rfl)
        · cases h

theorem codepoint_busy {s : Bytes} {high : Option Nat} {c : Nat} {st : State}
    (h : codepoint s high c = some st) : st.busy = true := by
  cases high <;> (unfold codepoint at h; repeat' split at h) <;> cases h <;> rfl

/-- The bytes and ranges a state waits for are no NUL. -/
def State.Clean : State → Prop
  | .bom rest | .literal rest _ | .low _ _ rest => (0 : UInt8) ∉ rest
  | .string _ p => Utf8.Multi p
  | _ => True

theorem opens_clean {b : UInt8} {st : State} (h : opens b = some st) : st.Clean := by
  unfold opens at h
  repeat' split at h
  all_goals cases h
  all_goals first | trivial | exact Utf8.multi_nil | (simp only [State.Clean]; decide)

theorem scan_clean {b : UInt8} {ts : List Token} {st : State} (h : scan b = some (ts, st)) :
    st.Clean := by
  unfold scan at h
  split at h
  · cases h
    trivial
  · split at h
    · cases h
      trivial
    · split at h
      next hopen =>
        cases h
        exact opens_clean hopen
      next =>
        split at h
        · cases h
          trivial
        · cases h

theorem codepoint_clean {s : Bytes} {high : Option Nat} {c : Nat} {st : State}
    (h : codepoint s high c = some st) : st.Clean := by
  cases high <;> (unfold codepoint at h; repeat' split at h) <;> cases h <;>
    first | exact Utf8.multi_nil | (simp only [State.Clean]; decide)

/-- What a byte does in a state: it is scanned between tokens, leaves the lexer outside a token in
another way, leaves it inside one, ends one, or ends a number and is scanned. -/
inductive Step (st : State) (b : UInt8) : List Token → State → Prop where
  | scanned {ts : List Token} {st' : State} (hidle : st.busy = false)
      (h : scan b = some (ts, st')) : Step st b ts st'
  | outside {st' : State} (hidle : st.busy = false) (hne : st' ≠ .start)
      (hclean : st.Clean → st'.Clean) : Step st b [] st'
  | inside {st' : State} (hbusy : st'.busy = true) (hclean : st.Clean → st'.Clean) :
      Step st b [] st'
  | ends (t : Token) : Step st b [t] .start
  | number {ts : List Token} {st' : State} (n : Number) (h : scan b = some (ts, st')) :
      Step st b (n.token :: ts) st'

theorem step_cases {st st' : State} {b : UInt8} {ts : List Token}
    (h : step st b = some (ts, st')) : Step st b ts st' := by
  cases st with
  | begin =>
    simp only [step] at h
    split at h
    · cases h
      apply Step.outside rfl (by simp)
      intro _
      simp only [State.Clean]
      decide
    · exact .scanned rfl h
  | bom rest =>
    cases rest with
    | nil => exact .scanned rfl h
    | cons c rest =>
      simp only [step] at h
      split at h
      · cases h
        exact .outside rfl (by simp) fun hst hmem => hst (List.mem_cons_of_mem _ hmem)
      · cases h
  | start => exact .scanned rfl h
  | literal rest t =>
    cases rest with
    | nil => cases h
    | cons c rest =>
      simp only [step] at h
      repeat' split at h
      all_goals cases h
      · exact .ends t
      · exact .inside rfl fun hst hmem => hst (List.mem_cons_of_mem _ hmem)
  | string s p =>
    cases p with
    | nil =>
      simp only [step] at h
      repeat' split at h
      · cases h
        exact .ends _
      · cases h
        exact .inside rfl fun _ => trivial
      · cases h
      · obtain ⟨q, hq, h⟩ := Option.map_eq_some_iff.mp h
        cases h
        exact .inside rfl fun hst => Utf8.multi_next hst hq
    | cons r p =>
      obtain ⟨q, hq, h⟩ := Option.map_eq_some_iff.mp h
      cases h
      exact .inside rfl fun hst => Utf8.multi_next hst hq
  | escape s =>
    simp only [step] at h
    split at h
    · cases h
      exact .inside rfl fun _ => trivial
    · obtain ⟨c, -, h⟩ := Option.map_eq_some_iff.mp h
      cases h
      exact .inside rfl fun _ => Utf8.multi_nil
  | hex s high left c =>
    obtain ⟨d, -, h⟩ := Option.bind_eq_some_iff.mp h
    split at h
    · obtain ⟨st, hst, h⟩ := Option.map_eq_some_iff.mp h
      cases h
      exact .inside (codepoint_busy hst) fun _ => codepoint_clean hst
    · cases h
      exact .inside rfl fun _ => trivial
  | low s high rest =>
    cases rest with
    | nil => cases h
    | cons c rest =>
      simp only [step] at h
      split at h
      · cases h
        split
        · exact .inside rfl fun _ => trivial
        · exact .inside rfl fun hst hmem => hst (List.mem_cons_of_mem _ hmem)
      · cases h
  | number st n =>
    simp only [step] at h
    split at h
    · cases h
      exact .inside rfl fun _ => trivial
    · split at h
      · obtain ⟨p, hp, h⟩ := Option.bind_eq_some_iff.mp h
        cases h
        exact .number n hp
      · cases h
  | ended =>
    cases h
    exact .outside rfl (by simp) fun _ => trivial

/-- What a byte that ends no token does: it leaves the lexer inside a token, or it was not inside
one, and the byte is white space or the state is not between tokens. -/
theorem step_quiet {st st' : State} {b : UInt8} (h : step st b = some ([], st')) :
    st'.busy = true ∨ st.busy = false ∧ (st' = .start → White b) := by
  cases step_cases h with
  | scanned hidle hscan =>
    rcases scan_quiet hscan with ⟨hwhite, -⟩ | rfl | hbusy
    · exact .inr ⟨hidle, fun _ => hwhite⟩
    · refine .inr ⟨hidle, fun e => ?_⟩
      cases e
    · exact .inl hbusy
  | outside hidle hne _ => exact .inr ⟨hidle, fun e => absurd e hne⟩
  | inside hbusy _ => exact .inl hbusy

/-- The lexer does not leave a token without giving it. -/
theorem run_busy {s : Bytes} {st st' : State} (hst : st.busy = true)
    (h : run st s = some ([], st')) : st'.busy = true := by
  induction s generalizing st with
  | nil =>
    cases h
    exact hst
  | cons b s ih =>
    cases hstep : step st b with
    | none => simp [run, hstep] at h
    | some p =>
      obtain ⟨ts, mid⟩ := p
      rw [run_cons_of_step s hstep] at h
      obtain ⟨⟨us, st''⟩, hrun, h⟩ := Option.map_eq_some_iff.mp h
      obtain ⟨hnil, rfl⟩ := Prod.mk.inj h
      obtain ⟨rfl, rfl⟩ := List.append_eq_nil_iff.mp hnil
      rcases step_quiet hstep with hmid | ⟨hidle, -⟩
      · exact ih hmid hrun
      · rw [hst] at hidle
        cases hidle

/-- The end of the input gives no token but that of a number. -/
theorem finish_eq_some {st : State} {ws : List Token} (h : finish st = some ws) :
    ws = [] ∨ ∃ sn n, st = .number sn n ∧ ws = [n.token] := by
  cases st with
  | number sn n =>
    simp only [finish] at h
    split at h
    · exact .inr ⟨sn, n, rfl, (Option.some.inj h).symm⟩
    · cases h
  | bom rest =>
    cases rest with
    | nil => exact .inl (Option.some.inj h).symm
    | cons => cases h
  | begin => exact .inl (Option.some.inj h).symm
  | start => exact .inl (Option.some.inj h).symm
  | ended => exact .inl (Option.some.inj h).symm
  | _ => cases h

/-- At the end of the input a token has begun or there is none to give. -/
theorem finish_busy {st : State} (hst : st.busy = true) : finish st ≠ some [] := by
  cases st with
  | number st n =>
    simp only [finish]
    split <;> simp
  | _ => simp_all [State.busy, finish]

/-- A token a number gives. -/
def IsNumber : Token → Prop
  | .valueInteger _ | .valueFloat _ => True
  | _ => False

theorem token_isNumber (n : Number) : IsNumber n.token := by
  unfold Number.token
  split
  · trivial
  · split <;> trivial

/-- The first token after the start of a number is a number. -/
theorem run_number_first {s : Bytes} {st : NumberState} {n : Number} {ts : List Token}
    (h : run (.number st n) s = some (ts, .start)) : ∃ t us, ts = t :: us ∧ IsNumber t := by
  induction s generalizing st n with
  | nil => cases h
  | cons b s ih =>
    cases hnext : st.next n b with
    | some p =>
      have hstep : step (.number st n) b = some ([], .number p.1 p.2) := by
        simp only [step, hnext]
      rw [run_cons_quiet s hstep] at h
      exact ih h
    | none =>
      cases hstep : step (.number st n) b with
      | none => simp [run, hstep] at h
      | some p =>
        obtain ⟨us, mid⟩ := p
        rw [run_cons_of_step s hstep] at h
        obtain ⟨p, -, h⟩ := Option.map_eq_some_iff.mp h
        simp only [step, hnext] at hstep
        split at hstep
        · obtain ⟨q, -, hq⟩ := Option.bind_eq_some_iff.mp hstep
          have hus := (Prod.mk.inj (Option.some.inj hq)).1
          have hts := (Prod.mk.inj h).1
          exact ⟨n.token, q.1 ++ p.1, by rw [← hts, ← hus]; rfl, token_isNumber n⟩
        · cases hstep

/-! The end of the input. -/

theorem step_clean {st st' : State} {b : UInt8} {ts : List Token} (hst : st.Clean)
    (h : step st b = some (ts, st')) : st'.Clean := by
  cases step_cases h with
  | scanned _ hscan => exact scan_clean hscan
  | outside _ _ hclean => exact hclean hst
  | inside _ hclean => exact hclean hst
  | ends t => trivial
  | number n hscan => exact scan_clean hscan

theorem run_clean {s : Bytes} {st st' : State} {ts : List Token} (hst : st.Clean)
    (h : run st s = some (ts, st')) : st'.Clean := by
  induction s generalizing st ts with
  | nil =>
    cases h
    exact hst
  | cons b s ih =>
    cases hstep : step st b with
    | none => simp [run, hstep] at h
    | some p =>
      obtain ⟨us, mid⟩ := p
      rw [run_cons_of_step s hstep] at h
      obtain ⟨p, hrun, h⟩ := Option.map_eq_some_iff.mp h
      obtain ⟨-, rfl⟩ := Prod.mk.inj h
      exact ih (step_clean hst hstep) hrun

theorem run_ended (s : Bytes) : run .ended s = some ([], .ended) := by
  induction s with
  | nil => rfl
  | cons b s ih => rw [run_cons_quiet s rfl, ih]

theorem rest_eq_some {st : State} {s : Bytes} {ts : List Token} (h : rest st s = some ts) :
    ∃ us st' ws, run st s = some (us, st') ∧ finish st' = some ws ∧ us ++ ws = ts := by
  obtain ⟨p, hrun, h⟩ := Option.bind_eq_some_iff.mp h
  obtain ⟨ws, hfinish, h⟩ := Option.map_eq_some_iff.mp h
  exact ⟨p.1, p.2, ws, hrun, hfinish, h⟩

theorem rest_append (st : State) (s u : Bytes) :
    rest st (s ++ u) = (run st s).bind fun p => (rest p.2 u).map (p.1 ++ ·) := by
  rw [rest, run_append]
  cases run st s with
  | none => rfl
  | some p =>
    simp only [Option.bind_some, rest, emit]
    cases run p.2 u with
    | none => rfl
    | some q => cases hfinish : finish q.2 <;> simp [hfinish]

theorem rest_nil (st : State) : rest st [] = finish st := by
  simp [rest, run]

theorem rest_eq_none {st : State} {b : UInt8} (s : Bytes) (h : step st b = none) :
    rest st (b :: s) = none := by
  simp [rest, run, h]

/-- A NUL ends the input. -/
theorem rest_nul {st : State} (hst : st.Clean) (s : Bytes) : rest st (0x00 :: s) = finish st := by
  have hscan : ∀ {ts : List Token} {st : State}, step st 0x00 = some (ts, .ended) →
      rest st (0x00 :: s) = some ts := by
    intro ts st h
    simp [rest, run_cons_of_step s h, run_ended, emit, finish]
  -- in every state the NUL ends the input, or is refused where the end of the input is
  cases st with
  | begin => exact hscan rfl
  | bom rest =>
    cases rest with
    | nil => exact hscan rfl
    | cons c rest =>
      have hne : (0x00 : UInt8) ≠ c := fun e => hst (e ▸ List.mem_cons_self ..)
      exact rest_eq_none s (by simp only [step, if_neg hne])
  | start => exact hscan rfl
  | literal rest t =>
    cases rest with
    | nil => exact rest_eq_none s rfl
    | cons c rest =>
      have hne : (0x00 : UInt8) ≠ c := fun e => hst (e ▸ List.mem_cons_self ..)
      exact rest_eq_none s (by simp only [step, if_neg hne])
  | string t p =>
    cases p with
    | nil => exact rest_eq_none s rfl
    | cons r p =>
      have hout : ¬ (r.1 ≤ 0x00 ∧ (0x00 : UInt8) ≤ r.2) := fun h =>
        absurd (UInt8.le_trans (hst r (List.mem_cons_self ..)) h.1) (by decide)
      exact rest_eq_none s (by simp only [step, Utf8.next, if_neg hout, Option.map_none])
  | escape t => exact rest_eq_none s rfl
  | hex t high left c => exact rest_eq_none s rfl
  | low t high rest =>
    cases rest with
    | nil => exact rest_eq_none s rfl
    | cons c rest =>
      have hne : (0x00 : UInt8) ≠ c := fun e => hst (e ▸ List.mem_cons_self ..)
      exact rest_eq_none s (by simp only [step, if_neg hne])
  | number st n =>
    have hnext : st.next n 0x00 = none := by cases st <;> rfl
    by_cases hacc : st.accepting = true
    · rw [finish, if_pos hacc]
      exact hscan (by simp only [step, hnext, if_pos hacc]; rfl)
    · rw [finish, if_neg hacc]
      exact rest_eq_none s (by simp only [step, hnext, if_neg hacc])
  | ended => exact hscan rfl

end Lexer

namespace Parser

/-- Only the first value of a text is looked for with nothing open. -/
theorem step_ne_value {σ : State} {t : Token} : step σ t ≠ some (.value []) := by
  -- a complete value is done, or goes into the container that is open
  have hcomplete : ∀ v st, complete v st ≠ .value [] := by
    intro v st
    rcases st with _ | ⟨_ | _, _⟩ <;> simp [complete]
  have hstart : ∀ st t, startValue st t ≠ some (.value []) := by
    intro st t h
    unfold startValue at h
    split at h <;> first | exact hcomplete _ _ (Option.some.inj h) | simp at h
  intro h
  unfold step at h
  split at h <;> first
    | exact hstart _ _ h
    | exact hcomplete _ _ (Option.some.inj h)
    | simp at h

theorem run_eq_value {ts : List Token} (h : run (.value []) ts = some (.value [])) : ts = [] := by
  rcases List.eq_nil_or_concat' ts with rfl | ⟨us, t, rfl⟩
  · rfl
  · rw [run_append] at h
    obtain ⟨σ, -, h⟩ := Option.bind_eq_some_iff.mp h
    rw [run_cons] at h
    obtain ⟨σ', hstep, h⟩ := Option.bind_eq_some_iff.mp h
    cases h
    exact absurd hstep step_ne_value

/-- A number is all of a text only when nothing came before it. -/
theorem step_number_done {σ : State} {t : Token} {v : Json} (ht : Lexer.IsNumber t)
    (h : step σ t = some (.done v)) : σ = .value [] := by
  have hcomplete : ∀ {w st}, complete w st = .done v → st = [] := by
    intro w st h
    rcases st with _ | ⟨_ | _, _⟩ <;> simp [complete] at h ⊢
  have hstart : ∀ {st}, startValue st t = some (.done v) → st = [] := by
    intro st h
    unfold startValue at h
    split at h <;> first | exact hcomplete (Option.some.inj h) | simp at h
  cases σ with
  | value st => rw [hstart h]
  | arrayOpen st =>
    cases t with
    | valueInteger n => exact absurd (hstart h) (List.cons_ne_nil _ _)
    | valueFloat d => exact absurd (hstart h) (List.cons_ne_nil _ _)
    | _ => exact ht.elim
  | _ => cases t <;> first | exact ht.elim | cases h

end Parser

/-! The text of a value that shows its ends. -/

theorem opening_of_dump {v : Json} {out : Bytes} (hd : v.Delimited) (h : v.dump = some out) :
    ∃ b s, out = b :: s ∧ Opening b := by
  cases v with
  | string s =>
    obtain ⟨body, -, h⟩ := Option.bind_eq_some_iff.mp h
    exact ⟨_, _, (Option.some.inj h).symm, .inl rfl⟩
  | array elems =>
    rw [dump] at h
    obtain ⟨body, -, h⟩ := Option.bind_eq_some_iff.mp h
    exact ⟨_, _, (Option.some.inj h).symm, .inr (.inl rfl)⟩
  | object members =>
    rw [dump] at h
    obtain ⟨body, -, h⟩ := Option.bind_eq_some_iff.mp h
    exact ⟨_, _, (Option.some.inj h).symm, .inr (.inr rfl)⟩
  | _ => exact absurd hd id

/-- The lexer reads it at the start of a text. -/
theorem run_begin_of_dump {v : Json} {out : Bytes} (hd : v.Delimited) (h : v.dump = some out)
    (r : Bytes) :
    Lexer.run .begin (out ++ r) = Lexer.emit (toTokens v) (Lexer.run .start r) := by
  obtain ⟨b, s, hbytes, hb⟩ := opening_of_dump hd h
  have hsame : Lexer.run .begin (out ++ r) = Lexer.run .start (out ++ r) := by
    have hne : b ≠ 0xEF := by rcases hb with rfl | rfl | rfl <;> decide
    have hstep : Lexer.step .begin b = Lexer.step .start b := if_neg hne
    rw [hbytes, List.cons_append]
    simp only [Lexer.run, hstep]
  rw [hsame, Lexer.run_dump h _ (.inl hd)]

/-- Its text is what is written of it, also where a number in it is too large to be stored. -/
theorem tokens_of_dump {v : Json} {out : Bytes} (hd : v.Delimited) (h : v.dump = some out) :
    Lexer.tokens out = some v.written.tokens := by
  have hrun := run_begin_of_dump hd h []
  rw [List.append_nil] at hrun
  simp [Lexer.tokens, Lexer.rest, hrun, Lexer.run, Lexer.emit, Lexer.finish, toTokens]

/-! Documents. -/

/-- A string, an array or an object with its text. -/
structure Document where
  value : Json
  valid : value.Valid
  delimited : value.Delimited
  bytes : Bytes
  dump_eq : value.dump = some bytes

namespace Document

variable (d : Document)

theorem opening : ∃ b s, d.bytes = b :: s ∧ Opening b := opening_of_dump d.delimited d.dump_eq

theorem closing : ∃ s b, d.bytes = s ++ [b] ∧ Closing b := by
  have h := d.dump_eq
  cases hv : d.value with
  | string s =>
    rw [hv] at h
    obtain ⟨out, -, h⟩ := Option.bind_eq_some_iff.mp h
    exact ⟨_, _, (Option.some.inj h).symm, .inl rfl⟩
  | array elems =>
    rw [hv, dump] at h
    obtain ⟨out, -, h⟩ := Option.bind_eq_some_iff.mp h
    exact ⟨_, _, (Option.some.inj h).symm, .inr (.inl rfl)⟩
  | object members =>
    rw [hv, dump] at h
    obtain ⟨out, -, h⟩ := Option.bind_eq_some_iff.mp h
    exact ⟨_, _, (Option.some.inj h).symm, .inr (.inr rfl)⟩
  | _ => exact absurd d.delimited (by rw [hv]; exact id)

theorem bytes_ne_nil : d.bytes ≠ [] := by
  obtain ⟨b, s, h, -⟩ := d.opening
  rw [h]
  exact List.cons_ne_nil b s

/-- The tokens of a document do not start with a number. -/
theorem not_number {t : Token} {ts : List Token} (h : toTokens d.value = t :: ts) :
    ¬ Lexer.IsNumber t := by
  have hd := d.delimited
  cases hv : d.value with
  | string s =>
    rw [hv] at h
    cases h
    exact id
  | array elems =>
    rw [hv] at h
    cases h
    exact id
  | object members =>
    rw [hv] at h
    cases h
    exact id
  | _ => exact absurd hd (by rw [hv]; exact id)

/-- The lexer reads a document at the start of a text. -/
theorem run_begin (r : Bytes) :
    Lexer.run .begin (d.bytes ++ r) = Lexer.emit (toTokens d.value) (Lexer.run .start r) :=
  run_begin_of_dump d.delimited d.dump_eq r

/-- A document parses to its value. -/
theorem parse_bytes : parse d.bytes = some d.value := by
  rw [parse_written (tokens_of_dump d.delimited d.dump_eq), value?_written d.value d.valid]

/-- A document with the start of another behind it does not parse. -/
theorem parse_joined {b : UInt8} (hb : Opening b) (s : Bytes) :
    parse (d.bytes ++ b :: s) = none := by
  by_contra hne
  obtain ⟨v, hv⟩ := Option.ne_none_iff_exists'.mp hne
  obtain ⟨ts, htokens, hvalue⟩ := Option.bind_eq_some_iff.mp hv
  obtain ⟨us, st, ws, hrun, hfinish, rfl⟩ := Lexer.rest_eq_some htokens
  rw [d.run_begin] at hrun
  obtain ⟨⟨us', st'⟩, hrest, hpair⟩ := Option.map_eq_some_iff.mp hrun
  obtain ⟨rfl, rfl⟩ := Prod.mk.inj hpair
  -- after the value of the document the parser takes no token
  rw [Parser.value_eq_some, List.append_assoc, Parser.run_append,
    Parser.run_toTokens d.value d.valid] at hvalue
  obtain ⟨rfl, rfl⟩ := List.append_eq_nil_iff.mp (Parser.run_done _ hvalue)
  rcases hb with rfl | rfl | rfl
  · have hstep : Lexer.step .start 0x22 = some ([], .string [] []) := rfl
    rw [Lexer.run_cons_quiet s hstep] at hrest
    exact Lexer.finish_busy (Lexer.run_busy rfl hrest) hfinish
  · rw [Lexer.run_cons_token .beginArray s rfl] at hrest
    obtain ⟨p, -, hp⟩ := Option.map_eq_some_iff.mp hrest
    cases hp
  · rw [Lexer.run_cons_token .beginObject s rfl] at hrest
    obtain ⟨p, -, hp⟩ := Option.map_eq_some_iff.mp hrest
    cases hp

/-- The end of a document gives a token, for it is a bracket or a quote. -/
theorem run_tail {p q : Bytes} (hq : p ++ q = d.bytes) (hne : q ≠ []) (st : Lexer.State) :
    Lexer.run st q ≠ some ([], .start) := by
  intro hrun
  obtain ⟨s, b, hlast, hb⟩ := d.closing
  obtain ⟨q', c, rfl⟩ : ∃ q' c, q = q' ++ [c] := by
    rcases List.eq_nil_or_concat' q with h | h
    · exact absurd h hne
    · exact h
  have hc : c = b := by
    rw [← hq, ← List.append_assoc] at hlast
    exact List.singleton_inj.mp (List.append_inj_right' hlast rfl)
  -- the last byte would have to be white space between two tokens
  obtain ⟨ts₁, mid, ts₂, -, hstep, htail⟩ := Lexer.run_concat hrun
  obtain ⟨-, rfl⟩ := List.append_eq_nil_iff.mp htail.symm
  rcases Lexer.step_quiet hstep with hbusy | ⟨-, hwhite⟩
  · cases hbusy
  · exact hb.not_white (hc ▸ hwhite rfl)

/-- A document cut short does not parse. -/
theorem parse_truncated {p : Bytes} (hp : p <+: d.bytes) (hne : p ≠ d.bytes) : parse p = none := by
  obtain ⟨q, hq⟩ := hp
  have hqne : q ≠ [] := by
    rintro rfl
    exact hne (by rw [← hq, List.append_nil])
  by_contra hsome
  obtain ⟨v, hv⟩ := Option.ne_none_iff_exists'.mp hsome
  obtain ⟨ts, htokens, hvalue⟩ := Option.bind_eq_some_iff.mp hv
  obtain ⟨us, st, ws, hrun, hfinish, rfl⟩ := Lexer.rest_eq_some htokens
  -- the rest of the document, from where the lexer stands
  have hwhole := d.run_begin []
  rw [List.append_nil, ← hq, Lexer.run_append, hrun] at hwhole
  obtain ⟨⟨us', st'⟩, hrest, hpair⟩ := Option.map_eq_some_iff.mp hwhole
  simp only [List.append_nil, Prod.mk.injEq] at hpair
  obtain ⟨hall, rfl⟩ := hpair
  rw [Parser.value_eq_some] at hvalue
  rcases Lexer.finish_eq_some hfinish with rfl | ⟨sn, n, rfl, rfl⟩
  · -- the parser was done, so the rest of the document gives no token
    have hparse := Parser.run_toTokens d.value d.valid []
    rw [List.append_nil] at hvalue
    rw [← hall, Parser.run_append, hvalue] at hparse
    have hnil : us' = [] := Parser.run_done _ hparse
    rw [hnil] at hrest
    exact d.run_tail hq hqne st hrest
  · -- the text before the cut is a number, but no document starts with one
    rw [Parser.run_append] at hvalue
    obtain ⟨σ, hσ, hvalue⟩ := Option.bind_eq_some_iff.mp hvalue
    obtain ⟨σ', hstep, hvalue⟩ := Option.bind_eq_some_iff.mp hvalue
    cases hvalue
    rw [Parser.step_number_done (Lexer.token_isNumber n) hstep] at hσ
    rw [Parser.run_eq_value hσ, List.nil_append] at hall
    obtain ⟨t, rest, ht, hisnumber⟩ := Lexer.run_number_first hrest
    exact d.not_number (hall.symm.trans ht) hisnumber

end Document

/-- A text in a character array ends at its NUL. -/
theorem parse_nul (s junk : Bytes) : parse (s ++ 0x00 :: junk) = parse s := by
  have htokens : Lexer.tokens (s ++ 0x00 :: junk) = Lexer.tokens s := by
    have hwhole := Lexer.rest_append .begin s []
    rw [List.append_nil] at hwhole
    rw [Lexer.tokens, Lexer.tokens, hwhole, Lexer.rest_append]
    -- where the text ends, the NUL does what its end does
    cases hrun : Lexer.run .begin s with
    | none => rfl
    | some p =>
      have hclean : p.2.Clean := Lexer.run_clean (by trivial) hrun
      simp only [Option.bind_some, Lexer.rest_nul hclean junk, Lexer.rest_nil]
  rw [parse, parse, htokens]

end Json

end ForexMarket
