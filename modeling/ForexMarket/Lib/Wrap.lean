import Mathlib.Data.Int.ModEq
import Mathlib.Tactic.NormNum

/- Mixed-width machine arithmetic: a signed 32-bit value meets an unsigned 64-bit
   one, the operation is carried out modulo 2^64, and the result is narrowed back to
   32 bits. `Denotes u x` says that the 64-bit word `u` stands for the integer `x`
   modulo 2^64; it is kept by every operation, and the narrowing of a word that
   stands for `x` is the two's complement wrap of `x` (`narrow_eq`). So a chain of
   such updates holds the wrap of the exact integer result. -/

namespace Wrap

/-- The two's complement value of the low 32 bits. -/
def wrap32 (x : Int) : Int := (Int32.ofInt x).toInt

theorem wrap32_eq (x : Int) : wrap32 x = x.bmod (2 ^ 32) := Int32.toInt_ofInt

/-- A 64-bit unsigned word narrowed to a signed 32-bit one. -/
def narrow (u : UInt64) : Int := wrap32 u.toNat

/-- The word stands for the integer modulo 2^64. -/
def Denotes (u : UInt64) (x : Int) : Prop := (u.toNat : Int) ≡ x [ZMOD 2 ^ 64]

theorem denotes_toNat (u : UInt64) : Denotes u u.toNat := Int.ModEq.refl _

theorem denotes_ofInt (x : Int) : Denotes (UInt64.ofInt x) x := by
  have hnn : 0 ≤ x % 2 ^ 64 := Int.emod_nonneg x (by norm_num)
  have hlt : (x % 2 ^ 64).toNat < 2 ^ 64 := by
    have := Int.emod_lt_of_pos x (show (0 : Int) < 2 ^ 64 by norm_num)
    omega
  unfold Denotes UInt64.ofInt
  rw [UInt64.toNat_ofNat_of_lt' hlt, Int.toNat_of_nonneg hnn]
  exact Int.mod_modEq x _

/-- The integer of a word is the word. -/
theorem ofInt_toNat (u : UInt64) : UInt64.ofInt u.toNat = u := by
  have hlt : (u.toNat : Int) < 2 ^ 64 := by
    have := u.toNat_lt
    omega
  rw [UInt64.ofInt, Int.emod_eq_of_lt (Int.natCast_nonneg _) hlt, Int.toNat_natCast,
    UInt64.ofNat_toNat]

variable {u v : UInt64} {x y : Int}

theorem Denotes.add (hu : Denotes u x) (hv : Denotes v y) : Denotes (u + v) (x + y) := by
  unfold Denotes at *
  rw [UInt64.toNat_add, Int.natCast_mod, Nat.cast_add]
  exact (Int.mod_modEq _ _).trans (hu.add hv)

theorem Denotes.mul (hu : Denotes u x) (hv : Denotes v y) : Denotes (u * v) (x * y) := by
  unfold Denotes at *
  rw [UInt64.toNat_mul, Int.natCast_mod, Nat.cast_mul]
  exact (Int.mod_modEq _ _).trans (hu.mul hv)

theorem Denotes.sub (hu : Denotes u x) (hv : Denotes v y) : Denotes (u - v) (x - y) := by
  unfold Denotes at *
  have hle := (UInt64.toNat_lt v).le
  rw [UInt64.toNat_sub, Int.natCast_mod, Nat.cast_add, Nat.cast_sub hle]
  apply (Int.mod_modEq _ _).trans
  have h64 : ((2 ^ 64 : Nat) : Int) ≡ 0 [ZMOD 2 ^ 64] := by decide
  simpa [sub_eq_add_neg, add_comm, add_left_comm] using (h64.sub hv).add hu

/-- Narrowing a word that stands for an integer wraps the integer. -/
theorem narrow_eq (h : Denotes u x) : narrow u = wrap32 x := by
  have h32 : (u.toNat : Int) ≡ x [ZMOD 2 ^ 32] :=
    Int.ModEq.of_dvd (by decide) h
  rw [narrow, wrap32_eq, wrap32_eq, ← Int.emod_bmod (u.toNat : Int), ← Int.emod_bmod x]
  exact congrArg (Int.bmod · (2 ^ 32)) h32

/-- The integer is a signed 32-bit one. -/
def Fits32 (x : Int) : Prop := -2 ^ 31 ≤ x ∧ x < 2 ^ 31

instance (x : Int) : Decidable (Fits32 x) := inferInstanceAs (Decidable (_ ∧ _))

theorem fits32_wrap32 (x : Int) : Fits32 (wrap32 x) := ⟨Int32.le_toInt _, Int32.toInt_lt _⟩

/-- The wrap of an integer is the integer exactly when it fits. -/
theorem wrap32_eq_self_iff {x : Int} : wrap32 x = x ↔ Fits32 x := by
  rw [wrap32_eq, Fits32]
  constructor
  · intro h
    rw [← h]
    have hle := Int.le_bmod (x := x) (show 0 < 2 ^ 32 by norm_num)
    have hlt := Int.bmod_lt (x := x) (show 0 < 2 ^ 32 by norm_num)
    omega
  · rintro ⟨hle, hlt⟩
    exact Int.bmod_eq_of_le (by omega) (by omega)

theorem wrap32_zero : wrap32 0 = 0 := by decide

theorem wrap32_add (x y : Int) : wrap32 (wrap32 x + y) = wrap32 (x + y) := by
  simp [wrap32_eq]

theorem wrap32_sub (x y : Int) : wrap32 (wrap32 x - y) = wrap32 (x - y) := by
  simp [wrap32_eq]

/-- A 32-bit value plus a 64-bit word, narrowed. -/
theorem narrow_add (x : Int) (h : Denotes u y) :
    narrow (UInt64.ofInt (wrap32 x) + u) = wrap32 (x + y) := by
  rw [narrow_eq ((denotes_ofInt _).add h), wrap32_add]

/-- A 32-bit value minus a 64-bit word, narrowed. -/
theorem narrow_sub (x : Int) (h : Denotes u y) :
    narrow (UInt64.ofInt (wrap32 x) - u) = wrap32 (x - y) := by
  rw [narrow_eq ((denotes_ofInt _).sub h), wrap32_sub]

/-- Integers with one wrap differ by a multiple of 2^32. -/
theorem wrap32_modEq (x : Int) : wrap32 x ≡ x [ZMOD 2 ^ 32] := by
  have h : ((2 ^ 32 : Nat) : Int) ∣ x - wrap32 x := by
    rw [wrap32_eq]; exact Int.dvd_self_sub_bmod
  exact Int.modEq_iff_dvd.mpr (by exact_mod_cast h)

/-- A sum of wraps is the sum of the integers modulo 2^32. -/
theorem sum_wrap32 {α : Type} (f : α → Int) (l : List α) :
    (l.map (fun a => wrap32 (f a))).sum ≡ (l.map f).sum [ZMOD 2 ^ 32] := by
  induction l with
  | nil => exact Int.ModEq.refl _
  | cons a l ih =>
    rw [List.map_cons, List.sum_cons, List.map_cons, List.sum_cons]
    exact (wrap32_modEq (f a)).add ih

end Wrap
