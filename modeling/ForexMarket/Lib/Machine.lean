import Mathlib.Algebra.Group.Basic
import Mathlib.Algebra.Order.Monoid.Defs
import Mathlib.Data.List.Infix

/- Deterministic machines that answer each input, and what is proved once about all
   of their runs: a predicate every step keeps holds after every run (`exec_inv`), a
   relation every step keeps with equal answers makes two machines answer every run
   alike (`outputs_eq_of_sim`), a quantity that each step changes by what comes in and
   what goes out ends at its start changed by the totals (`exec_balance`), runs with the
   same events show an observer the same (`gather_eq_of_unwinding`). A condition on the
   steps of a run, each read in the state it is taken from, is `Along`. -/

namespace Machine

variable {σ τ ι ο : Type}

/-- The state after a list of inputs. -/
def exec (step : σ → ι → ο × σ) : σ → List ι → σ
  | s, [] => s
  | s, i :: is => exec step (step s i).2 is

/-- The answers to a list of inputs, in order. -/
def outputs (step : σ → ι → ο × σ) : σ → List ι → List ο
  | _, [] => []
  | s, i :: is => (step s i).1 :: outputs step (step s i).2 is

/-- Every step of the run meets `P` in the state it is taken from. -/
def Along (step : σ → ι → ο × σ) (P : σ → ι → Prop) : σ → List ι → Prop
  | _, [] => True
  | s, i :: is => P s i ∧ Along step P (step s i).2 is

/-- A condition along a run is evaluated step by step. -/
instance Along.decidable (step : σ → ι → ο × σ) {P : σ → ι → Prop} [∀ s i, Decidable (P s i)] :
    (s : σ) → (is : List ι) → Decidable (Along step P s is)
  | _, [] => .isTrue trivial
  | s, i :: is =>
    have := Along.decidable (P := P) step (step s i).2 is
    inferInstanceAs (Decidable (P s i ∧ Along step P (step s i).2 is))

/-- The sum, over the steps of the run, of what `f` reads off the state each is taken from. -/
def total {M : Type} [AddMonoid M] (step : σ → ι → ο × σ) (f : σ → ι → M) : σ → List ι → M
  | _, [] => 0
  | s, i :: is => f s i + total step f (step s i).2 is

/-- What `f` reads off each step of the run, in order. -/
def gather {α : Type} (step : σ → ι → ο × σ) (f : σ → ι → List α) : σ → List ι → List α
  | _, [] => []
  | s, i :: is => f s i ++ gather step f (step s i).2 is

/-- The answers to the inputs that are marked, when the others are given too. -/
def marked (step : σ → ι → ο × σ) : σ → List (ι × Bool) → List ο
  | _, [] => []
  | s, (i, true) :: is => (step s i).1 :: marked step (step s i).2 is
  | s, (i, false) :: is => marked step (step s i).2 is

variable {step : σ → ι → ο × σ} {step' : τ → ι → ο × τ}

@[simp] theorem exec_nil (s : σ) : exec step s [] = s := rfl

@[simp] theorem exec_cons (s : σ) (i : ι) (is : List ι) :
    exec step s (i :: is) = exec step (step s i).2 is := rfl

theorem exec_append (s : σ) (is js : List ι) :
    exec step s (is ++ js) = exec step (exec step s is) js := by
  induction is generalizing s with
  | nil => rfl
  | cons i is ih => exact ih _

theorem exec_concat (s : σ) (is : List ι) (i : ι) :
    exec step s (is ++ [i]) = (step (exec step s is) i).2 := by
  rw [exec_append]; rfl

theorem along_append {P : σ → ι → Prop} (s : σ) (is js : List ι) :
    Along step P s (is ++ js) ↔ Along step P s is ∧ Along step P (exec step s is) js := by
  induction is generalizing s with
  | nil => simp [Along]
  | cons i is ih => simp [Along, ih, and_assoc]

/-- A condition along a run is a condition on each of its steps. -/
theorem along_iff {P : σ → ι → Prop} (s : σ) (is : List ι) :
    Along step P s is ↔ ∀ pre i, pre ++ [i] <+: is → P (exec step s pre) i := by
  constructor
  · rintro h pre i ⟨post, rfl⟩
    have h' := (along_append s _ post).mp h
    exact ((along_append s pre [i]).mp h'.1).2.1
  · intro h
    induction is generalizing s with
    | nil => trivial
    | cons i is ih =>
      refine ⟨h [] i (by simp), ih _ ?_⟩
      intro pre j hp
      exact h (i :: pre) j (by simpa using hp)

theorem gather_append {α : Type} {f : σ → ι → List α} (s : σ) (is js : List ι) :
    gather step f s (is ++ js) = gather step f s is ++ gather step f (exec step s is) js := by
  induction is generalizing s with
  | nil => rfl
  | cons i is ih => simp only [List.cons_append, gather, ih, exec_cons, List.append_assoc]

/-- Conditions that agree where an invariant holds, which one of them keeps, hold along a run
together. -/
theorem along_congr {I : σ → Prop} {P Q : σ → ι → Prop}
    (hinv : ∀ s i, I s → Q s i → I (step s i).2) (h : ∀ s i, I s → (P s i ↔ Q s i)) {s : σ}
    (hs : I s) (is : List ι) : Along step P s is ↔ Along step Q s is := by
  induction is generalizing s with
  | nil => exact Iff.rfl
  | cons i is ih =>
    rw [Along, Along, h s i hs]
    exact and_congr_right fun hq => ih (hinv s i hs hq)

/-- What each step of an invariant keeps exactly when it meets `Q`, and no step restores, holds
after a run exactly when it held before and every step meets `Q`. -/
theorem exec_iff_along {I P : σ → Prop} {C Q : σ → ι → Prop}
    (hinv : ∀ s i, I s → C s i → I (step s i).2)
    (hstep : ∀ s i, I s → C s i → (P (step s i).2 ↔ P s ∧ Q s i)) {s : σ} (hs : I s) {is : List ι}
    (hc : Along step C s is) : P (exec step s is) ↔ P s ∧ Along step Q s is := by
  induction is generalizing s with
  | nil => exact (and_iff_left trivial).symm
  | cons i is ih =>
    rw [exec_cons, ih (hinv s i hs hc.1) hc.2, hstep s i hs hc.1, Along, and_assoc]

/-- Conditions that agree on related states hold along the runs from them together. -/
theorem along_iff_of_sim {R : σ → τ → Prop} {P : σ → ι → Prop} {Q : τ → ι → Prop}
    (hP : ∀ s t i, R s t → (P s i ↔ Q t i))
    (hstep : ∀ s t i, R s t → R (step s i).2 (step' t i).2) {s : σ} {t : τ} (h : R s t)
    (is : List ι) : Along step P s is ↔ Along step' Q t is := by
  induction is generalizing s t with
  | nil => exact Iff.rfl
  | cons i is ih => exact and_congr (hP s t i h) (ih (hstep s t i h))

/-- What every step keeps holds after every run. -/
theorem exec_inv {I : σ → Prop} (hstep : ∀ s i, I s → I (step s i).2) {s : σ} (hs : I s)
    (is : List ι) : I (exec step s is) := by
  induction is generalizing s with
  | nil => exact hs
  | cons i is ih => exact ih (hstep s i hs)

/-- What every step that meets `P` keeps holds after every run whose steps meet `P`. -/
theorem exec_inv_along {I : σ → Prop} {P : σ → ι → Prop}
    (hstep : ∀ s i, I s → P s i → I (step s i).2) {s : σ} (hs : I s) {is : List ι}
    (hp : Along step P s is) : I (exec step s is) := by
  induction is generalizing s with
  | nil => exact hs
  | cons i is ih => exact ih (hstep s i hs hp.1) hp.2

/-- A relation that every step keeps relates the states after every run. -/
theorem exec_sim {R : σ → τ → Prop}
    (hstep : ∀ s t i, R s t → R (step s i).2 (step' t i).2) {s : σ} {t : τ} (h : R s t)
    (is : List ι) : R (exec step s is) (exec step' t is) := by
  induction is generalizing s t with
  | nil => exact h
  | cons i is ih => exact ih (hstep s t i h)

/-- Machines related by a simulation with equal answers answer every run alike. -/
theorem outputs_eq_of_sim {R : σ → τ → Prop}
    (hout : ∀ s t i, R s t → (step s i).1 = (step' t i).1)
    (hstep : ∀ s t i, R s t → R (step s i).2 (step' t i).2) {s : σ} {t : τ} (h : R s t)
    (is : List ι) : outputs step s is = outputs step' t is := by
  induction is generalizing s t with
  | nil => rfl
  | cons i is ih => simp only [outputs, hout s t i h, ih (hstep s t i h)]

/-- Machines related by a simulation that maps the inputs and the answers answer every run alike up
to these maps. -/
theorem outputs_map_of_sim {ι' ο' : Type} {step' : τ → ι' → ο' × τ} {R : σ → τ → Prop} {f : ι → ι'}
    {g : ο → ο'} (hout : ∀ s t i, R s t → (step' t (f i)).1 = g (step s i).1)
    (hstep : ∀ s t i, R s t → R (step s i).2 (step' t (f i)).2) {s : σ} {t : τ} (h : R s t)
    (is : List ι) : outputs step' t (is.map f) = (outputs step s is).map g := by
  induction is generalizing s t with
  | nil => rfl
  | cons i is ih => simp only [List.map_cons, outputs, hout s t i h, ih (hstep s t i h)]

/-- Inputs that a relation of answering alike does not notice may be left out. -/
theorem marked_eq_outputs {R : σ → σ → Prop} {quiet : ι → Prop}
    (hout : ∀ s t i, R s t → (step s i).1 = (step t i).1)
    (hstep : ∀ s t i, R s t → R (step s i).2 (step t i).2)
    (hquiet : ∀ s t i, R s t → quiet i → R (step s i).2 t) {s t : σ} (h : R s t)
    (is : List (ι × Bool)) (his : ∀ i, (i, false) ∈ is → quiet i) :
    marked step s is = outputs step t ((is.filter Prod.snd).map Prod.fst) := by
  induction is generalizing s t with
  | nil => rfl
  | cons i is ih =>
    have hrest := fun j hj => his j (List.mem_cons_of_mem _ hj)
    obtain ⟨i, mark⟩ := i
    cases mark with
    | true => exact congrArg₂ List.cons (hout s t i h) (ih (hstep s t i h) hrest)
    | false => exact ih (hquiet s t i h (his i List.mem_cons_self)) hrest

/-- A quantity that each step of an invariant changes by what comes in and what goes out ends at
its start changed by the totals. -/
theorem exec_balance {M : Type} [AddCommMonoid M] {I : σ → Prop} {m : σ → M} {fin fout : σ → ι → M}
    (hinv : ∀ s i, I s → I (step s i).2)
    (hstep : ∀ s i, I s → m (step s i).2 + fout s i = m s + fin s i) {s : σ} (hs : I s)
    (is : List ι) : m (exec step s is) + total step fout s is = m s + total step fin s is := by
  induction is generalizing s with
  | nil => simp [total]
  | cons i is ih =>
    calc m (exec step s (i :: is)) + total step fout s (i :: is)
        = m (exec step (step s i).2 is) + total step fout (step s i).2 is + fout s i := by
          rw [exec_cons, total, add_comm (fout s i), add_assoc]
      _ = m (step s i).2 + fout s i + total step fin (step s i).2 is := by
          rw [ih (hinv s i hs), add_right_comm]
      _ = m s + total step fin s (i :: is) := by rw [hstep s i hs, total, add_assoc]

/-- The potential method: where each step costs at most its credit and what the potential `m` loses,
a run costs at most the credits and what the potential has lost in the end. -/
theorem total_add_potential_le {M : Type} [AddCommMonoid M] [PartialOrder M] [IsOrderedAddMonoid M]
    {I : σ → Prop} {m : σ → M} {f : σ → ι → M} {c : ι → M}
    (hinv : ∀ s i, I s → I (step s i).2)
    (hstep : ∀ s i, I s → f s i + m (step s i).2 ≤ m s + c i) {s : σ}
    (hs : I s) (is : List ι) :
    total step f s is + m (exec step s is) ≤ m s + (is.map c).sum := by
  induction is generalizing s with
  | nil => simp [total]
  | cons i is ih =>
    calc total step f s (i :: is) + m (exec step s (i :: is))
        = f s i + (total step f (step s i).2 is + m (exec step (step s i).2 is)) := by
          rw [total, exec_cons, add_assoc]
      _ ≤ f s i + (m (step s i).2 + (is.map c).sum) :=
          add_le_add le_rfl (ih (hinv s i hs))
      _ = f s i + m (step s i).2 + (is.map c).sum := (add_assoc _ _ _).symm
      _ ≤ m s + c i + (is.map c).sum := add_le_add (hstep s i hs) le_rfl
      _ = m s + ((i :: is).map c).sum := by
          rw [List.map_cons, List.sum_cons, add_assoc]

/-- A list that each step of an invariant adds to holds in the end what the steps added. -/
theorem exec_gather {α : Type} {I : σ → Prop} {P : σ → ι → Prop} {m : σ → List α}
    {f : σ → ι → List α} (hinv : ∀ s i, I s → P s i → I (step s i).2)
    (hstep : ∀ s i, I s → P s i → m (step s i).2 = m s ++ f s i) {s : σ} (hs : I s) {is : List ι}
    (hp : Along step P s is) : m (exec step s is) = m s ++ gather step f s is := by
  induction is generalizing s with
  | nil => simp [gather]
  | cons i is ih =>
    rw [exec_cons, ih (hinv s i hs hp.1) hp.2, hstep s i hs hp.1, gather, List.append_assoc]

/-- What each step keeps of the state and of two records of the steps so far holds after every
run. -/
theorem exec_inv_gather₂ {α β : Type} {f : σ → ι → List α} {g : σ → ι → List β}
    {I : List α → List β → σ → Prop}
    (hstep : ∀ l m s i, I l m s → I (l ++ f s i) (m ++ g s i) (step s i).2) {l : List α}
    {m : List β} {s : σ} (hs : I l m s) (is : List ι) :
    I (l ++ gather step f s is) (m ++ gather step g s is) (exec step s is) := by
  induction is generalizing l m s with
  | nil =>
    rw [gather, gather, List.append_nil, List.append_nil]
    exact hs
  | cons i is ih =>
    rw [gather, gather, ← List.append_assoc, ← List.append_assoc]
    exact ih (hstep l m s i hs)

/-- What each step keeps of the state and of what the steps have shown so far holds after every
run. -/
theorem exec_inv_gather {α : Type} {f : σ → ι → List α} {I : List α → σ → Prop}
    (hstep : ∀ l s i, I l s → I (l ++ f s i) (step s i).2) {l : List α} {s : σ} (hs : I l s)
    (is : List ι) : I (l ++ gather step f s is) (exec step s is) :=
  exec_inv_gather₂ (g := f) (I := fun l _ s => I l s) (fun l _ s i h => hstep l s i h) (m := []) hs
    is

/-- The inputs of a run, each with the answer it got. -/
def history (step : σ → ι → ο × σ) (s : σ) (is : List ι) : List (ι × ο) :=
  is.zip (outputs step s is)

@[simp] theorem history_nil (s : σ) : history step s [] = [] := rfl

theorem history_cons (s : σ) (i : ι) (is : List ι) :
    history step s (i :: is) = (i, (step s i).1) :: history step (step s i).2 is := rfl

/-- What every step that meets `P` keeps of the state and the history so far holds after every
run whose steps meet `P`. -/
theorem exec_inv_history {I : List (ι × ο) → σ → Prop} {P : σ → ι → Prop}
    (hstep : ∀ h s i, I h s → P s i → I (h ++ [(i, (step s i).1)]) (step s i).2)
    {h : List (ι × ο)} {s : σ} (hs : I h s) {is : List ι} (hp : Along step P s is) :
    I (h ++ history step s is) (exec step s is) := by
  induction is generalizing h s with
  | nil => rw [history_nil, List.append_nil]; exact hs
  | cons i is ih =>
    rw [history_cons, List.append_cons]
    exact ih (hstep h s i hs hp.1) hp.2

/-! Noninterference, by unwinding. -/

section Unwinding

variable {α β : Type} {R : σ → σ → Prop} {event : σ → ι → Option α} {seen : σ → ι → List β}

/-- The events of a run. -/
def trace (step : σ → ι → ο × σ) (event : σ → ι → Option α) (s : σ) (is : List ι) : List α :=
  gather step (fun s i => (event s i).toList) s is

theorem gather_of_nil {s : σ} {i : ι} (h : seen s i = []) (is : List ι) :
    gather step seen s (i :: is) = gather step seen (step s i).2 is := by
  rw [gather, h]
  rfl

theorem trace_cons_none {s : σ} {i : ι} (h : event s i = none) (is : List ι) :
    trace step event s (i :: is) = trace step event (step s i).2 is := by
  simp [trace, gather, h]

theorem trace_cons_some {s : σ} {i : ι} {e : α} (h : event s i = some e) (is : List ι) :
    trace step event s (i :: is) = e :: trace step event (step s i).2 is := by
  simp [trace, gather, h]

/-- States that are alike to an observer show the same in any two runs of the same events: a step
without an event leads to an alike state and shows nothing, and steps with one event lead to alike
states and show the same. -/
theorem gather_eq_of_unwinding (hsymm : ∀ s t, R s t → R t s)
    (hsilent : ∀ s t i, R s t → event s i = none → R (step s i).2 t ∧ seen s i = [])
    (hevent : ∀ s t i j e, R s t → event s i = some e → event t j = some e →
      R (step s i).2 (step t j).2 ∧ seen s i = seen t j) {s t : σ} (h : R s t) {is js : List ι}
    (htrace : trace step event s is = trace step event t js) :
    gather step seen s is = gather step seen t js := by
  induction is generalizing s t js with
  | nil =>
    -- all steps of the other run are without an event
    induction js generalizing t with
    | nil => rfl
    | cons j js ih =>
      cases hj : event t j with
      | none =>
        obtain ⟨hR, hseen⟩ := hsilent t s j (hsymm s t h) hj
        rw [trace_cons_none hj] at htrace
        rw [gather_of_nil hseen]
        exact ih (hsymm _ _ hR) htrace
      | some e =>
        rw [trace_cons_some hj] at htrace
        cases htrace
  | cons i is ih =>
    cases hi : event s i with
    | none =>
      obtain ⟨hR, hseen⟩ := hsilent s t i h hi
      rw [trace_cons_none hi] at htrace
      rw [gather_of_nil hseen]
      exact ih hR htrace
    | some e =>
      rw [trace_cons_some hi] at htrace
      -- the other run comes to the same event after some steps without one
      induction js generalizing t with
      | nil => cases htrace
      | cons j js ihj =>
        cases hj : event t j with
        | none =>
          obtain ⟨hR, hseen⟩ := hsilent t s j (hsymm s t h) hj
          rw [trace_cons_none hj] at htrace
          rw [ihj (hsymm _ _ hR) htrace, gather_of_nil hseen]
        | some e' =>
          rw [trace_cons_some hj] at htrace
          obtain ⟨rfl, hrest⟩ := List.cons.inj htrace
          obtain ⟨hR, hseen⟩ := hevent s t i j e h hi hj
          rw [gather, gather, hseen, ih hR hrest]

end Unwinding

theorem along_true (s : σ) (is : List ι) : Along step (fun _ _ => True) s is := by
  induction is generalizing s with
  | nil => trivial
  | cons i is ih => exact ⟨trivial, ih _⟩

/-! A machine whose steps are runs of another one. -/

/-- A relation that each step keeps, when the other machine takes the inputs that step stands for,
relates the states after every run. -/
theorem exec_refine {ι' ο' : Type} {step' : τ → ι' → ο' × τ} {R : σ → τ → Prop}
    {f : σ → ι → List ι'} (hstep : ∀ s t i, R s t → R (step s i).2 (exec step' t (f s i)))
    {s : σ} {t : τ} (h : R s t) (is : List ι) :
    R (exec step s is) (exec step' t (gather step f s is)) := by
  induction is generalizing s t with
  | nil => exact h
  | cons i is ih =>
    rw [gather, exec_append]
    exact ih (hstep s t i h)

/-- What the steps show is what the runs they stand for show. -/
theorem gather_refine {α ι' ο' : Type} {step' : τ → ι' → ο' × τ} {R : σ → τ → Prop}
    {f : σ → ι → List ι'} {seen : σ → ι → List α} {seen' : τ → ι' → List α}
    (hseen : ∀ s t i, R s t → gather step' seen' t (f s i) = seen s i)
    (hstep : ∀ s t i, R s t → R (step s i).2 (exec step' t (f s i)))
    {s : σ} {t : τ} (h : R s t) (is : List ι) :
    gather step' seen' t (gather step f s is) = gather step seen s is := by
  induction is generalizing s t with
  | nil => rfl
  | cons i is ih => rw [gather, gather_append, hseen s t i h, ih (hstep s t i h), gather]

/-- Where each step shows nothing and stays at its place in a sequence, shows the next of the
sequence and goes on to it, or shows the last for its place and is over, a run shows a stretch of
the sequence and at most one last behind it. -/
theorem gather_stretch {α : Type} {I Over : σ → Prop} {f : σ → ι → List α} {next last : Nat → α}
    {At : Nat → σ → Prop} (hinv : ∀ s i, I s → I (step s i).2)
    (hstep : ∀ n s i, I s → At n s →
      (f s i = [] ∧ At n (step s i).2) ∨ (f s i = [next n] ∧ At (n + 1) (step s i).2) ∨
        (f s i = [last n] ∧ Over (step s i).2))
    (hover : ∀ s i, I s → Over s → f s i = [] ∧ Over (step s i).2)
    {n : Nat} {s : σ} (hs : I s) (h : At n s) (is : List ι) :
    ∃ m, (gather step f s is = (List.range' n m).map next ∧ At (n + m) (exec step s is)) ∨
      (gather step f s is = (List.range' n m).map next ++ [last (n + m)] ∧
        Over (exec step s is)) := by
  induction is generalizing n s with
  | nil => exact ⟨0, .inl ⟨rfl, h⟩⟩
  | cons i is ih =>
    rw [gather, exec_cons]
    rcases hstep n s i hs h with ⟨hf, hat⟩ | ⟨hf, hat⟩ | ⟨hf, hend⟩
    · rw [hf]
      exact ih (hinv s i hs) hat
    · obtain ⟨m, hrest⟩ := ih (hinv s i hs) hat
      refine ⟨m + 1, ?_⟩
      rw [hf, List.range'_succ, ← Nat.add_assoc, Nat.add_right_comm]
      refine hrest.imp (fun h => ⟨?_, h.2⟩) (fun h => ⟨?_, h.2⟩)
      · rw [h.1]
        rfl
      · rw [h.1]
        rfl
    · refine ⟨0, .inr ?_⟩
      have hrest := exec_inv_gather (f := f) (I := fun l s => I s ∧ Over s ∧ l = [])
        (fun l s i h => ⟨hinv s i h.1, (hover s i h.1 h.2.1).2, by
          rw [h.2.2, (hover s i h.1 h.2.1).1]
          rfl⟩) ⟨hinv s i hs, hend, rfl⟩ is
      rw [List.nil_append] at hrest
      rw [hf, hrest.2.2]
      exact ⟨rfl, hrest.2.1⟩

end Machine
