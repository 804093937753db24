import ForexMarket.Lib.Json.Access
import ForexMarket.Lib.Json.Lexer
import Mathlib.Tactic.Ring

/- The double nearest to an integer. Doubles have 53 significant bits, so the integers below
   2^53 are doubles, and from there on the doubles are multiples of a power of two, with
   the leading bit of the integers they are nearest to (`two_pow_log2_le_nearest`). A text
   of digits is read as the nearest double (`truncate_strtof`). -/
namespace ForexMarket

namespace Double

open Json (roundHalfEven strtof truncate)

/-- The exponent of the last place of the doubles around an integer. -/
def place (n : Nat) : Nat := n.log2 - 52

/-- The double nearest to an integer, which is an integer. -/
def nearest (n : Nat) : Nat := roundHalfEven n (2 ^ place n) * 2 ^ place n

theorem le_roundHalfEven (n d : Nat) : n / d ≤ roundHalfEven n d := by
  unfold roundHalfEven
  dsimp only
  split
  · exact Nat.le_refl _
  · split
    · exact Nat.le_succ _
    · split
      · exact Nat.le_refl _
      · exact Nat.le_succ _

/-- Rounding moves an integer by half of the divisor at most. -/
theorem roundHalfEven_near (n d : Nat) (hd : 0 < d) :
    2 * n ≤ 2 * (roundHalfEven n d * d) + d ∧ 2 * (roundHalfEven n d * d) ≤ 2 * n + d := by
  have hdiv : n / d * d + n % d = n := Nat.div_add_mod' n d
  have hmod : n % d < d := Nat.mod_lt n hd
  have hsucc : (n / d + 1) * d = n / d * d + d := Nat.succ_mul _ _
  unfold roundHalfEven
  dsimp only
  split
  · omega
  · split
    · omega
    · split
      · omega
      · omega

theorem nearest_near (n : Nat) :
    2 * n ≤ 2 * nearest n + 2 ^ place n ∧ 2 * nearest n ≤ 2 * n + 2 ^ place n :=
  roundHalfEven_near n _ (Nat.two_pow_pos _)

theorem roundHalfEven_one (n : Nat) : roundHalfEven n 1 = n := by
  simp [roundHalfEven, Nat.mod_one]

/-- The integers of 53 bits are doubles. -/
theorem nearest_of_lt {n : Nat} (h : n < 2 ^ 53) : nearest n = n := by
  have hplace : place n = 0 := by
    by_cases h0 : n = 0
    · rw [h0]
      rfl
    · have hlog := (Nat.log2_lt h0).mpr h
      unfold place
      omega
  rw [nearest, hplace, Nat.pow_zero, roundHalfEven_one, Nat.mul_one]

/-- Rounding keeps the leading bit. -/
theorem two_pow_log2_le_nearest {n : Nat} (h : n ≠ 0) : 2 ^ n.log2 ≤ nearest n := by
  have hle := Nat.log2_self_le h
  by_cases hlog : n.log2 ≤ 52
  · rw [nearest_of_lt ((Nat.log2_lt h).mp (by omega))]
    exact hle
  · have hsplit : 2 ^ n.log2 = 2 ^ 52 * 2 ^ place n := by
      rw [← Nat.pow_add, place]
      congr 1
      omega
    have hq : 2 ^ 52 ≤ n / 2 ^ place n := by
      apply (Nat.le_div_iff_mul_le (Nat.two_pow_pos _)).mpr
      rw [← hsplit]
      exact hle
    rw [hsplit, nearest]
    exact Nat.mul_le_mul_right _ (hq.trans (le_roundHalfEven _ _))

theorem le_nearest_of_le {n k : Nat} (h : 2 ^ k ≤ n) : 2 ^ k ≤ nearest n := by
  have h0 : n ≠ 0 := by
    have hpos := Nat.two_pow_pos k
    omega
  have hlog : k ≤ n.log2 := (Nat.le_log2 h0).mpr h
  exact (Nat.pow_le_pow_right (by omega) hlog).trans (two_pow_log2_le_nearest h0)

/-- The doubles between 2^63 and 2^64 are 2048 apart. -/
theorem place_of_top {n : Nat} (hmin : 2 ^ 63 ≤ n) (hmax : n < 2 ^ 64) : place n = 11 := by
  have hlog : n.log2 = 63 := (Nat.log2_eq_iff (by omega)).mpr ⟨hmin, hmax⟩
  rw [place, hlog]

/-- The digits of an integer that is no double for certain are read as the nearest double. -/
theorem truncate_strtof {n : Int} (h : 2 ^ 53 ≤ n.natAbs) {m e : Int}
    (hread : strtof n 0 = some (m, e)) :
    truncate m e = if n < 0 then -(nearest n.natAbs : Int) else nearest n.natAbs := by
  have h0 : n.natAbs ≠ 0 := by omega
  have hlog : 53 ≤ n.natAbs.log2 := (Nat.le_log2 h0).mpr h
  have hle := Nat.log2_self_le h0
  -- the place of the last bit, as it is computed there
  have hlow : ((n.natAbs.log2 : Int) - (1 : Nat).log2 - 53) =
      ((n.natAbs.log2 - 53 : Nat) : Int) := by
    have hone : (1 : Nat).log2 = 0 := rfl
    rw [hone]
    omega
  have hpow : 2 ^ 53 * 2 ^ (n.natAbs.log2 - 53) = 2 ^ n.natAbs.log2 := by
    rw [← Nat.pow_add]
    congr 1
    omega
  have hplace : (max (((n.natAbs.log2 - 53 : Nat) : Int) + 1) (-1074)) =
      (place n.natAbs : Int) := by
    unfold place
    omega
  simp only [strtof, Int.neg_zero, Int.toNat_zero, Nat.pow_zero, Nat.mul_one, h0, if_false, hlow,
    Int.toNat_natCast, hpow, Nat.not_lt.mpr hle, false_and, Int.natCast_nonneg, not_lt.mpr,
    and_false, or_self, hplace, Int.toNat_neg_natCast, Nat.one_mul] at hread
  split at hread
  · cases hread
  · obtain ⟨hm, he⟩ := Prod.mk.inj (Option.some.inj hread)
    rw [← hm, ← he, truncate, if_pos (Int.natCast_nonneg _), Int.toNat_natCast]
    split
    · rw [nearest]
      push_cast
      ring
    · rw [nearest]
      push_cast
      rfl

end Double

end ForexMarket
