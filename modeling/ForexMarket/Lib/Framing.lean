import Mathlib.Data.List.Infix
import Mathlib.Tactic.Common

/- Messages on a stream. A codec writes a message as a list and reads it back from
   exactly that list: a part of it is refused, and so is the list with the start of
   another message behind it. A reader that takes each piece of a stream for a
   message therefore gets one exactly when the piece is one. -/

structure Codec (β μ ν : Type) where
  encode : μ → List β
  decode : List β → Option ν
  value : μ → ν
  encode_ne_nil : ∀ m, encode m ≠ []
  decode_encode : ∀ m, decode (encode m) = some (value m)
  decode_truncated : ∀ m p, p <+: encode m → p ≠ encode m → decode p = none
  decode_joined : ∀ m n b s r, encode n = b :: s → decode (encode m ++ b :: r) = none

namespace Codec

variable {β μ ν : Type} (C : Codec β μ ν)

/-- The messages one after the other. -/
def stream (ms : List μ) : List β := ms.flatMap C.encode

@[simp] theorem stream_cons (m : μ) (ms : List μ) :
    C.stream (m :: ms) = C.encode m ++ C.stream ms := rfl

/-- What a stream goes on with starts a message. -/
theorem stream_head {ms : List μ} {b : β} {s : List β} (h : C.stream ms = b :: s) :
    ∃ m r, C.encode m = b :: r := by
  cases ms with
  | nil => cases h
  | cons m ms =>
    rw [stream_cons] at h
    cases henc : C.encode m with
    | nil => exact absurd henc (C.encode_ne_nil m)
    | cons c r =>
      rw [henc] at h
      exact ⟨m, r, by rw [henc, (List.cons.inj h).1]⟩

/-- A piece at the front of a stream that is read as a message is the first message. -/
theorem decode_read {ms : List μ} {p rest : List β} {v : ν} (hne : p ≠ [])
    (hstream : p ++ rest = C.stream ms) (h : C.decode p = some v) :
    ∃ m ms', ms = m :: ms' ∧ p = C.encode m ∧ v = C.value m ∧ rest = C.stream ms' := by
  cases ms with
  | nil => exact absurd (List.append_eq_nil_iff.mp hstream).1 hne
  | cons m ms =>
    rw [stream_cons] at hstream
    have hp : p = C.encode m ∧ rest = C.stream ms := by
      rcases List.append_eq_append_iff.mp hstream with ⟨q, hq, hrest⟩ | ⟨q, hq, hrest⟩
      · -- the piece is a part of the first message
        by_cases heq : p = C.encode m
        · have hnil : q = [] := by
            rw [← heq] at hq
            exact List.append_right_eq_self.mp hq.symm
          exact ⟨heq, by rw [hrest, hnil, List.nil_append]⟩
        · rw [C.decode_truncated m p ⟨q, hq.symm⟩ heq] at h
          cases h
      · -- the piece goes on after the first message
        cases q with
        | nil => exact ⟨by rw [hq, List.append_nil], by rw [hrest, List.nil_append]⟩
        | cons b r =>
          obtain ⟨n, s, hn⟩ := C.stream_head (hrest.trans (List.cons_append ..))
          rw [hq, C.decode_joined m n b s r hn] at h
          cases h
    rw [hp.1, C.decode_encode] at h
    exact ⟨m, ms, rfl, hp.1, (Option.some.inj h).symm, hp.2⟩

/-- The first `n` elements of a message are read only when they are all of it. -/
theorem decode_take (m : μ) (n : Nat) :
    C.decode ((C.encode m).take n) =
      if (C.encode m).length ≤ n then some (C.value m) else none := by
  by_cases hn : (C.encode m).length ≤ n
  · rw [if_pos hn, List.take_of_length_le hn, C.decode_encode]
  · rw [if_neg hn]
    apply C.decode_truncated m _ (List.take_prefix _ _)
    intro heq
    exact hn (List.take_eq_self_iff _ |>.mp heq)

end Codec
