import Mathlib.Algebra.Group.Nat.Defs
import Mathlib.Logic.Function.Basic
import ForexMarket.Lib.KeyTable

/- The ids of the stored objects (`GetMaxId` of `db_manager.cpp`, the seeds in
   `server_main.cpp`, `GenerateId` of `offer.cpp`, `deal.cpp` and `user_data.cpp`). A run of
   the program reads the greatest id of each table through an `int` and starts the 64-bit
   counter of that table after it. Whatever constructs an object then draws the next
   value of its counter and inserts a row under it. No row is deleted, where no name brings
   SQL of its own. Of a row only its id is kept here. -/
namespace ForexMarket

/-- How `GetMaxId` ends without an id. -/
inductive SeedFault where
  /-- `stoi` throws `out_of_range`. -/
  | stoi
  /-- `id + 1` is no `int`, which is undefined. -/
  | overflow
  deriving DecidableEq, Repr

/-- `GetMaxId` of the ids in a table. -/
def getMaxId (ids : List Nat) : Except SeedFault Nat :=
  match ids.max? with
  -- the callback leaves the -1
  | none => .ok 0
  | some id =>
    if 2 ^ 31 ≤ id then .error .stoi
    else if id + 1 = 2 ^ 31 then .error .overflow
    else .ok (id + 1)

inductive Table where
  | offer
  | deal
  | user
  deriving DecidableEq, Repr

/-- One value for each table. -/
def Table.pick {α : Type} (offer deal user : α) : Table → α
  | .offer => offer
  | .deal => deal
  | .user => user

/-- The initial values of `offer_id_`, `deal_id_` and `user_id_`, in this order. -/
def seeds (ids : Table → List Nat) : Except SeedFault (Table → Nat) := do
  let offerId ← getMaxId (ids .offer)
  let dealId ← getMaxId (ids .deal)
  let userId ← getMaxId (ids .user)
  return Table.pick offerId dealId userId

structure Ids where
  stored : Table → KeyTable Nat id
  counter : Table → UInt64
  running : Bool

namespace Ids

inductive Event where
  | start
  | generate (t : Table)
  deriving DecidableEq, Repr

inductive Outcome where
  | started
  | failed (fault : SeedFault)
  /-- The id, and whether the row was inserted. -/
  | generated (id : UInt64) (inserted : Bool)
  /-- No run is going. -/
  | none
  deriving DecidableEq, Repr

/-- No run yet. -/
def idle (stored : Table → KeyTable Nat id) : Ids :=
  { stored := stored, counter := fun _ => 0, running := false }

/-- A run starts, or an id is generated and its row inserted. -/
def step (s : Ids) : Event → Outcome × Ids
  | .start =>
    match seeds fun t => (s.stored t).rows with
    | .ok seed => (.started, { s with counter := fun t => .ofNat (seed t), running := true })
    -- the program ends before `main`
    | .error fault => (.failed fault, { s with running := false })
  | .generate t =>
    if s.running then
      let id := s.counter t
      (.generated id ((s.stored t).free id.toNat),
        { s with
          stored := Function.update s.stored t ((s.stored t).insert id.toNat)
          counter := Function.update s.counter t (id + 1) })
    else (.none, s)

end Ids

/-! Seeds. -/

/-- The greatest id is the last `int`. -/
def AtLimit (ids : List Nat) : Prop := ids.max? = some (2 ^ 31 - 1)

/-- The greatest id is no `int`. -/
def PastLimit (ids : List Nat) : Prop := ∃ id, ids.max? = some id ∧ 2 ^ 31 ≤ id

theorem getMaxId_overflow_iff {ids : List Nat} :
    getMaxId ids = .error .overflow ↔ AtLimit ids := by
  unfold getMaxId AtLimit
  cases ids.max? with
  | none => exact ⟨nofun, nofun⟩
  | some id =>
    dsimp only
    rw [Option.some_inj]
    split
    · exact ⟨nofun, fun h => by omega⟩
    · split
      · exact ⟨fun _ => by omega, fun _ => rfl⟩
      · exact ⟨nofun, fun h => by omega⟩

theorem getMaxId_stoi_iff {ids : List Nat} :
    getMaxId ids = .error .stoi ↔ PastLimit ids := by
  unfold getMaxId PastLimit
  cases ids.max? with
  | none => exact ⟨nofun, fun ⟨_, h, _⟩ => nomatch h⟩
  | some id =>
    simp only [Option.some_inj, exists_eq_left']
    split
    · next h => exact ⟨fun _ => h, fun _ => rfl⟩
    · next h =>
      split
      · exact ⟨nofun, fun h' => absurd h' h⟩
      · exact ⟨nofun, fun h' => absurd h' h⟩

/-- An id `GetMaxId` returns is an `int` above all ids in the table. -/
theorem getMaxId_ok {ids : List Nat} {n : Nat} (h : getMaxId ids = .ok n) :
    n < 2 ^ 31 ∧ ∀ id ∈ ids, id < n := by
  unfold getMaxId at h
  split at h
  · next hnone =>
    rw [← Except.ok.inj h]
    exact ⟨by decide, by simp [List.max?_eq_none_iff.mp hnone]⟩
  · next m hmax =>
    have hle := (List.max?_eq_some_iff.mp hmax).2
    split at h
    · cases h
    · split at h
      · cases h
      · rw [← Except.ok.inj h]
        refine ⟨by omega, fun id hid => ?_⟩
        have hm := hle id hid
        omega

theorem getMaxId_isOk_iff {ids : List Nat} :
    (∃ n, getMaxId ids = .ok n) ↔ ¬ AtLimit ids ∧ ¬ PastLimit ids := by
  rw [← getMaxId_overflow_iff, ← getMaxId_stoi_iff]
  cases getMaxId ids with
  | ok n => simp
  | error fault => cases fault <;> simp

section Bind

variable {α β : Type} {x : Except SeedFault α} {f : α → Except SeedFault β}

theorem SeedFault.bind_eq_ok {b : β} : (x >>= f) = .ok b ↔ ∃ a, x = .ok a ∧ f a = .ok b := by
  cases x <;> simp [bind, Except.bind]

theorem SeedFault.bind_eq_error {fault : SeedFault} :
    (x >>= f) = .error fault ↔ x = .error fault ∨ ∃ a, x = .ok a ∧ f a = .error fault := by
  cases x <;> simp [bind, Except.bind]

end Bind

/-- What each seed is, when the program comes to `main`. -/
theorem seeds_ok {ids : Table → List Nat} {seed : Table → Nat} (h : seeds ids = .ok seed)
    (t : Table) : getMaxId (ids t) = .ok (seed t) := by
  simp only [seeds, SeedFault.bind_eq_ok] at h
  obtain ⟨offerId, hoffer, dealId, hdeal, userId, huser, hseed⟩ := h
  rw [← Except.ok.inj hseed]
  cases t with
  | offer => exact hoffer
  | deal => exact hdeal
  | user => exact huser

/-- A seed overflows, and none throws before it. -/
def SeedsOverflow (ids : Table → List Nat) : Prop :=
  AtLimit (ids .offer) ∨ ¬ PastLimit (ids .offer) ∧
    (AtLimit (ids .deal) ∨ ¬ PastLimit (ids .deal) ∧ AtLimit (ids .user))

theorem seeds_overflow_iff {ids : Table → List Nat} :
    seeds ids = .error .overflow ↔ SeedsOverflow ids := by
  have hseq : ∀ (t : Table) (P : Prop),
      (getMaxId (ids t) = .error .overflow ∨ ∃ n, getMaxId (ids t) = .ok n ∧ P) ↔
        (AtLimit (ids t) ∨ ¬ PastLimit (ids t) ∧ P) := by
    intro t P
    rw [exists_and_right, getMaxId_isOk_iff, getMaxId_overflow_iff]
    tauto
  simp only [seeds, SeedFault.bind_eq_error]
  rw [SeedsOverflow, ← hseq .deal, ← hseq .offer, ← getMaxId_overflow_iff]
  simp [pure, Except.pure]

end ForexMarket
