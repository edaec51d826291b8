import Mathlib.Data.Rat.Floor
import Mathlib.Tactic

/-! Fixed-width integers as numbers: reduction modulo a power of two, the signed
reading of a word, and the truncating conversion of a rational to an unsigned word. -/
namespace RdmaperfIso.FixedWidth

/-- The unsigned `w`-bit word of a natural number. -/
def wrap (w n : ℕ) : ℕ := n % 2 ^ w

/-- Difference of two unsigned `w`-bit words. -/
def wrapSub (w a b : ℕ) : ℕ := wrap w (a + (2 ^ w - b))

/-- Two's complement reading of the low `w` bits. -/
def toSigned (w : ℕ) (z : ℤ) : ℤ := Int.bmod z (2 ^ w)

/-- Conversion to an unsigned `w`-bit word discards the fraction. A value whose
integral part does not fit has no result. -/
def truncate (w : ℕ) (q : ℚ) : Option ℕ :=
  if -1 < q ∧ q < 2 ^ w then some ⌊q⌋.toNat else none

/-- The same conversion to an unsigned number without an upper bound. -/
def truncateNat (q : ℚ) : Option ℕ := if -1 < q then some ⌊q⌋.toNat else none

variable {w n : ℕ} {q : ℚ}

theorem wrap_lt (w n : ℕ) : wrap w n < 2 ^ w := Nat.mod_lt _ (by positivity)

theorem wrap_of_lt (h : n < 2 ^ w) : wrap w n = n := Nat.mod_eq_of_lt h

theorem wrapSub_of_le {a b : ℕ} (h : b ≤ a) (ha : a < 2 ^ w) : wrapSub w a b = a - b := by
  have hsum : a + (2 ^ w - b) = (a - b) + 2 ^ w := by omega
  rw [wrapSub, wrap, hsum, Nat.add_mod_right, Nat.mod_eq_of_lt (by omega)]

theorem wrapSub_of_lt {a b : ℕ} (h : a < b) (hb : b ≤ 2 ^ w) :
    wrapSub w a b = 2 ^ w - (b - a) := by
  have hsum : a + (2 ^ w - b) = 2 ^ w - (b - a) := by omega
  rw [wrapSub, wrap, hsum, Nat.mod_eq_of_lt (by omega)]

theorem toSigned_of_lt (h : n < 2 ^ (w - 1)) (hw : 0 < w) : toSigned w n = n := by
  have hp : 2 ^ w = 2 * 2 ^ (w - 1) := by
    rw [← pow_succ', Nat.sub_add_cancel hw]
  unfold toSigned
  apply Int.bmod_eq_of_le <;> omega

theorem toSigned_lt (hw : 0 < w) (z : ℤ) : toSigned w z < 2 ^ (w - 1) := by
  have hp : (2 : ℤ) ^ w = 2 * 2 ^ (w - 1) := by
    rw [← pow_succ', Nat.sub_add_cancel hw]
  have h := Int.bmod_lt (x := z) (m := 2 ^ w) (by positivity)
  unfold toSigned
  push_cast at h
  rw [hp] at h
  omega

theorem truncate_of_nonneg (h0 : 0 ≤ q) (h : q < 2 ^ w) : truncate w q = some ⌊q⌋₊ := by
  rw [truncate, if_pos ⟨by linarith, h⟩]
  rfl

theorem truncateNat_of_nonneg (h0 : 0 ≤ q) : truncateNat q = some ⌊q⌋₊ := by
  rw [truncateNat, if_pos (by linarith)]
  rfl

theorem truncate_eq_some (h : truncate w q = some n) : -1 < q ∧ q < 2 ^ w ∧ n = ⌊q⌋₊ := by
  unfold truncate at h
  split at h
  next hq => exact ⟨hq.1, hq.2, (Option.some.inj h).symm⟩
  next => simp at h

theorem truncate_intCast {z : ℤ} (h0 : 0 ≤ z) (h : z < 2 ^ w) :
    truncate w z = some z.toNat := by
  have hlow : (-1 : ℚ) < z := by exact_mod_cast (by omega : -1 < z)
  have hhigh : (z : ℚ) < 2 ^ w := by exact_mod_cast h
  rw [truncate, if_pos ⟨hlow, hhigh⟩, Int.floor_intCast]

theorem truncate_of_neg {z : ℤ} (h : z < 0) : truncate w z = none := by
  have hneg : (z : ℚ) ≤ -1 := by exact_mod_cast (by omega : z ≤ -1)
  rw [truncate, if_neg fun hq => absurd hq.1 (not_lt.mpr hneg)]

theorem lt_truncate_add_one (h : truncate w q = some n) : q < n + 1 := by
  obtain ⟨-, -, rfl⟩ := truncate_eq_some h
  exact Nat.lt_floor_add_one q

end RdmaperfIso.FixedWidth
