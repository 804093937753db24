import ForexMarket.Lib.Machine
import ForexMarket.Model.Ids

/- Whether generated ids are new. A run starts its counters above all stored ids and counts
   upward, so an id it draws is greater than all that were stored, by it or by an earlier
   run, until a counter wraps around. The start itself is the narrow place: the greatest
   id goes through an `int`, and its successor is none for the last `int`. Rows are only
   added: no name brings SQL of its own. -/
namespace ForexMarket

namespace Ids

/-- The event is defined, and an id it generates is greater than all ids in its table and inserted
there. -/
def Fresh (s : Ids) : Event → Prop
  | .start => (s.step .start).1 ≠ .failed .overflow
  | .generate t => ∀ id inserted, (s.step (.generate t)).1 = .generated id inserted →
      inserted = true ∧ ∀ id' ∈ (s.stored t).rows, id' < id.toNat

/-- The id an event generated. -/
def Outcome.ids : Outcome → List Nat
  | .generated id _ => [id.toNat]
  | _ => []

/-- The id an event generates for the table. -/
def generatedIn (t : Table) (s : Ids) : Event → List Nat
  | .start => []
  | .generate t' => if t' = t then (s.step (.generate t')).1.ids else []

/-- All ids generated in a history of runs over these tables are greater than those stored before,
and no id in a table is generated twice. -/
def StayFresh (stored : Table → KeyTable Nat id) (events : List Event) : Prop :=
  Machine.Along step Fresh (idle stored) events ∧
    ∀ t, ((stored t).rows ++ Machine.gather step (generatedIn t) (idle stored) events).Nodup

/-- No run starts over a table whose greatest id is the last `int`, unless the seed of an earlier
table throws; and no id is drawn from a counter that has wrapped around. -/
def InRange (s : Ids) : Event → Prop
  | .start => ¬ SeedsOverflow fun t => (s.stored t).rows
  | .generate t => s.running = true → s.counter t = 0 → (s.stored t).rows = []

variable {s : Ids} {t : Table}

theorem step_generate (hrun : s.running = true) (t : Table) :
    s.step (.generate t) =
      (.generated (s.counter t) ((s.stored t).free (s.counter t).toNat),
        { s with
          stored := Function.update s.stored t ((s.stored t).insert (s.counter t).toNat)
          counter := Function.update s.counter t (s.counter t + 1) }) := by
  rw [step, if_pos hrun]

theorem step_generate_idle (hrun : s.running = false) (t : Table) :
    s.step (.generate t) = (.none, s) := by
  simp only [step, hrun, Bool.false_eq_true, if_false]

theorem free_of_lt {ids : KeyTable Nat id} {n : Nat} (h : ∀ id' ∈ ids.rows, id' < n) :
    ids.free n = true :=
  KeyTable.free_iff.mpr fun id' hid => (h id' hid).ne

theorem rows_insert {ids : KeyTable Nat id} {n : Nat} (h : ids.free n = true) :
    (ids.insert n).rows = ids.rows ++ [n] :=
  KeyTable.rows_insert_of_free h

theorem fresh_generate_iff (hrun : s.running = true) :
    s.Fresh (.generate t) ↔ ∀ id' ∈ (s.stored t).rows, id' < (s.counter t).toNat := by
  rw [Fresh, step_generate hrun]
  constructor
  · exact fun h => (h _ _ rfl).2
  · intro h id inserted heq
    obtain ⟨rfl, rfl⟩ := Outcome.generated.inj heq
    exact ⟨free_of_lt h, h⟩

/-- In a run the ids in a table are below its counter, unless that has wrapped around. -/
def Ahead (s : Ids) : Prop :=
  s.running = true → ∀ t, s.counter t ≠ 0 → ∀ id ∈ (s.stored t).rows, id < (s.counter t).toNat

theorem Ahead.fresh_iff (h : s.Ahead) (e : Event) : s.Fresh e ↔ s.InRange e := by
  cases e with
  | start =>
    rw [Fresh, InRange, ← seeds_overflow_iff, step]
    cases seeds fun t => (s.stored t).rows with
    | ok seed => simp
    | error fault => simp
  | generate t =>
    cases hrun : s.running with
    | false =>
      rw [Fresh, InRange, step_generate_idle hrun, hrun]
      simp
    | true =>
      rw [fresh_generate_iff hrun, InRange]
      constructor
      · intro hlt _ hzero
        refine List.eq_nil_iff_forall_not_mem.mpr fun id hid => ?_
        have hneg := hlt id hid
        rw [hzero] at hneg
        exact Nat.not_lt_zero _ hneg
      · intro hrange
        by_cases hzero : s.counter t = 0
        · rw [hrange hrun hzero]
          intro id hid
          cases hid
        · exact h hrun t hzero

theorem toNat_succ {n : UInt64} (h : n + 1 ≠ 0) : (n + 1).toNat = n.toNat + 1 := by
  have hlt := n.toNat_lt
  have hmod : (n + 1).toNat = (n.toNat + 1) % 2 ^ 64 := UInt64.toNat_add n 1
  have hne : (n + 1).toNat ≠ 0 := fun hzero => h (UInt64.toNat_inj.mp hzero)
  omega

theorem Ahead.step (h : s.Ahead) {e : Event} (he : s.InRange e) : (s.step e).2.Ahead := by
  cases e with
  | start =>
    rw [Ids.step]
    split
    · next seed hseed =>
      intro _ t _ id hid
      obtain ⟨hsmall, hlt⟩ := getMaxId_ok (seeds_ok hseed t)
      have hseed : (UInt64.ofNat (seed t)).toNat = seed t :=
        UInt64.toNat_ofNat_of_lt' (by rw [UInt64.size]; omega)
      rw [hseed]
      exact hlt id hid
    · exact nofun
  | generate t =>
    cases hrun : s.running with
    | false => rwa [step_generate_idle hrun]
    | true =>
      -- the counter is above the ids, or the table is empty
      have hlt := (fresh_generate_iff hrun).mp ((h.fresh_iff _).mpr he)
      rw [step_generate hrun]
      intro _ t'
      by_cases ht : t' = t
      · subst ht
        simp only [Function.update_self]
        intro hne id hid
        rw [toNat_succ hne]
        rcases KeyTable.mem_insert.mp hid with hid | ⟨rfl, -⟩
        · exact (hlt id hid).trans (Nat.lt_succ_self _)
        · exact Nat.lt_succ_self _
      · simp only [Function.update_of_ne ht]
        exact h hrun t'

/-- A fresh id is added to its table. -/
theorem rows_step {e : Event} (he : s.Fresh e) (t : Table) :
    ((s.step e).2.stored t).rows = (s.stored t).rows ++ s.generatedIn t e := by
  cases e with
  | start =>
    rw [step, generatedIn, List.append_nil]
    split <;> rfl
  | generate t' =>
    cases hrun : s.running with
    | false =>
      rw [generatedIn, step_generate_idle hrun]
      split <;> simp [Outcome.ids]
    | true =>
      have hfree := free_of_lt ((fresh_generate_iff hrun).mp he)
      rw [generatedIn, step_generate hrun]
      by_cases ht : t' = t
      · subst ht
        rw [if_pos rfl, Outcome.ids]
        simp only [Function.update_self]
        exact rows_insert hfree
      · rw [if_neg ht, List.append_nil]
        simp only [Function.update_of_ne (Ne.symm ht)]

/-- In every history of runs over one database, all ids are fresh exactly when no run starts after
the last `int` and no counter wraps around. -/
theorem stayFresh_iff (stored : Table → KeyTable Nat id) (events : List Event) :
    StayFresh stored events ↔ Machine.Along step InRange (idle stored) events := by
  have halong := Machine.along_congr (fun s e (h : s.Ahead) he => h.step he)
    (fun s e h => h.fresh_iff e) (s := idle stored) nofun events
  rw [StayFresh, halong, and_iff_left_iff_imp, ← halong]
  intro hfresh t
  have hrows := Machine.exec_gather (I := fun _ => True) (m := fun s => (s.stored t).rows)
    (f := generatedIn t) (fun _ _ _ _ => trivial) (fun _ _ _ he => rows_step he t) trivial hfresh
  have hunique := ((Machine.exec step (idle stored) events).stored t).unique
  rw [List.map_id, hrows] at hunique
  exact hunique

/-! More ids than there are `int`s. -/

/-- The table of the first ids of a run. -/
theorem rows_exec_generate (hrun : s.running = true) {c : Nat} (hcounter : (s.counter t).toNat = c)
    (hrows : (s.stored t).rows = List.range c) (k : Nat) (hk : c + k < 2 ^ 64) :
    ((Machine.exec step s (List.replicate k (.generate t))).stored t).rows =
      List.range (c + k) := by
  induction k generalizing s c with
  | zero => exact hrows
  | succ k ih =>
    have hfree : (s.stored t).free (s.counter t).toNat = true := by
      apply free_of_lt
      rw [hrows, hcounter]
      exact fun id hid => List.mem_range.mp hid
    have hnext : (s.counter t + 1).toNat = c + 1 := by
      have hadd : (s.counter t + 1).toNat = ((s.counter t).toNat + 1) % 2 ^ 64 :=
        UInt64.toNat_add _ 1
      omega
    rw [List.replicate_succ, Machine.exec_cons, step_generate hrun,
      show c + (k + 1) = c + 1 + k by omega]
    apply ih
    · exact hrun
    · simpa using hnext
    · simp only [Function.update_self]
      rw [rows_insert hfree, hrows, hcounter, List.range_succ]
    · omega

theorem max?_range (n : Nat) : (List.range (n + 1)).max? = some n := by
  rw [List.max?_eq_some_iff]
  exact ⟨List.self_mem_range_succ, fun m hm => Nat.le_of_lt_succ (List.mem_range.mp hm)⟩

/-- A run posts some offers, and another run starts. -/
def postsAndRestart (posts : Nat) : List Event :=
  .start :: (List.replicate posts (.generate .offer) ++ [.start])

/-- After the post of the last `int`, the next start is undefined. -/
theorem postsAndRestart_not_fresh {posts : Nat} (h : posts + 1 = 2 ^ 31) :
    ¬ StayFresh (fun _ => .empty) (postsAndRestart (posts + 1)) := by
  rintro ⟨hfresh, -⟩
  have hlast := ((Machine.along_append _ _ _).mp hfresh.2).2.1
  have hrows := rows_exec_generate (s := ((idle fun _ => .empty).step .start).2) (t := .offer) rfl
    (c := 0) rfl rfl (posts + 1) (by omega)
  have hover : SeedsOverflow fun t => ((Machine.exec step ((idle fun _ => .empty).step .start).2
      (List.replicate (posts + 1) (.generate .offer))).stored t).rows := by
    refine .inl ?_
    dsimp only [AtLimit]
    rw [hrows, Nat.zero_add, max?_range]
    exact congrArg some (by omega)
  refine hlast ?_
  rw [step, seeds_overflow_iff.mpr hover]

/-- The greatest id is the last `int`. -/
theorem fullRun_not_fresh : ¬ StayFresh (fun _ => .empty) (postsAndRestart (2147483647 + 1)) :=
  postsAndRestart_not_fresh (by decide)

end Ids

end ForexMarket
