import Mathlib.Data.List.Nodup

/- Tables with a primary key: rows in the order in which they were inserted. That no two
   of them are under one key is a field of the structure. An insertion adds its row at
   the end, or is refused when the key is taken. The keys of a table are a table
   themselves, and insertions commute with taking them (`keys_insert`). -/

structure KeyTable (α : Type) {κ : Type} (key : α → κ) where
  rows : List α
  unique : (rows.map key).Nodup

namespace KeyTable

variable {α κ : Type} {key : α → κ}

theorem ext {t t' : KeyTable α key} (h : t.rows = t'.rows) : t = t' := by
  cases t
  cases t'
  exact (mk.injEq ..).mpr h

/-- The table with no rows. -/
def empty : KeyTable α key := ⟨[], .nil⟩

@[simp] theorem rows_empty : (empty : KeyTable α key).rows = [] := rfl

/-- The keys alone. -/
def keys (t : KeyTable α key) : KeyTable κ id :=
  ⟨t.rows.map key, by rw [List.map_id]; exact t.unique⟩

@[simp] theorem rows_keys (t : KeyTable α key) : t.keys.rows = t.rows.map key := rfl

variable [DecidableEq κ]

/-- Whether no row is under the key. -/
def free (t : KeyTable α key) (k : κ) : Bool := k ∉ t.rows.map key

theorem free_iff {t : KeyTable α key} {k : κ} : t.free k = true ↔ ∀ a ∈ t.rows, key a ≠ k := by
  simp [free]

@[simp] theorem free_keys (t : KeyTable α key) (k : κ) : t.keys.free k = t.free k := by
  rw [free, free, rows_keys, List.map_id]

/-- The rows with one more under a free key. -/
def insert (t : KeyTable α key) (a : α) : KeyTable α key :=
  if h : t.free (key a) = true then
    ⟨t.rows ++ [a], by
      rw [List.map_append]
      apply t.unique.append (List.nodup_singleton _)
      intro k hk hk'
      obtain ⟨b, hb, rfl⟩ := List.mem_map.mp hk
      exact free_iff.mp h b hb (List.mem_singleton.mp hk')⟩
  else t

variable {t : KeyTable α key} {a : α}

theorem rows_insert_of_free (h : t.free (key a) = true) : (t.insert a).rows = t.rows ++ [a] := by
  rw [insert, dif_pos h]

theorem insert_of_taken (h : t.free (key a) = false) : t.insert a = t := by
  rw [insert, dif_neg (by simp [h])]

theorem rows_insert (t : KeyTable α key) (a : α) :
    (t.insert a).rows = if t.free (key a) = true then t.rows ++ [a] else t.rows := by
  split
  · next h => exact rows_insert_of_free h
  · next h => rw [insert_of_taken (by simpa using h)]

/-- A row under a free key is added, and none is lost. -/
theorem mem_insert {b : α} :
    b ∈ (t.insert a).rows ↔ b ∈ t.rows ∨ (b = a ∧ t.free (key a) = true) := by
  rw [rows_insert]
  split
  · next h => simp [h]
  · next h => simp [h]

/-- Rows under new keys, no two of them under one, are all added. -/
theorem rows_foldl_insert {l : List α} (hnodup : (l.map key).Nodup)
    (hfree : ∀ a ∈ l, t.free (key a) = true) : (l.foldl insert t).rows = t.rows ++ l := by
  induction l generalizing t with
  | nil => exact (List.append_nil _).symm
  | cons a l ih =>
    obtain ⟨hnew, hnodup⟩ := List.nodup_cons.mp hnodup
    have hrows := rows_insert_of_free (hfree a List.mem_cons_self)
    rw [List.foldl_cons, ih hnodup, hrows, List.append_assoc]
    · rfl
    · intro b hb
      rw [free_iff]
      intro c hc
      rw [hrows] at hc
      rcases List.mem_append.mp hc with hc | hc
      · exact free_iff.mp (hfree b (List.mem_cons_of_mem a hb)) c hc
      · rw [List.mem_singleton.mp hc]
        exact fun heq => hnew (heq ▸ List.mem_map_of_mem hb)

theorem keys_insert (t : KeyTable α key) (a : α) : (t.insert a).keys = t.keys.insert (key a) := by
  apply ext
  rw [rows_keys, rows_insert, rows_insert, id, free_keys]
  split
  · simp
  · rfl

end KeyTable
