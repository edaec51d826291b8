import Mathlib.Data.Int.Log
import Mathlib.Data.Rat.Floor
import Mathlib.Tactic

/-! Rounding to a binary floating-point format, on rationals: to the nearest multiple of
the unit in the last place, a tie going to the even multiple. The exponent is bounded
below, so that small values are subnormal; it is not bounded above. -/
namespace RdmaperfIso.Floating

structure Format where
  prec : ℕ
  emin : ℤ
  prec_pos : 0 < prec
  deriving DecidableEq

/-- The format of a C `double`. -/
def binary64 : Format := ⟨53, -1074, by norm_num⟩

/-- The nearest integer, a tie going to the even one. -/
def roundEven (q : ℚ) : ℤ :=
  if Int.fract q < 1 / 2 ∨ Int.fract q = 1 / 2 ∧ ⌊q⌋ % 2 = 0 then ⌊q⌋ else ⌊q⌋ + 1

theorem roundEven_intCast (z : ℤ) : roundEven z = z := by
  simp [roundEven]

theorem le_roundEven {z : ℤ} {q : ℚ} (h : (z : ℚ) ≤ q) : z ≤ roundEven q := by
  have hfloor : z ≤ ⌊q⌋ := Int.le_floor.mpr h
  unfold roundEven
  split_ifs <;> omega

theorem abs_roundEven_sub_le (q : ℚ) : |(roundEven q : ℚ) - q| ≤ 1 / 2 := by
  have hsplit := Int.floor_add_fract q
  have hnonneg := Int.fract_nonneg q
  have hlt := Int.fract_lt_one q
  unfold roundEven
  split_ifs with h
  · have hle : Int.fract q ≤ 1 / 2 := by
      rcases h with h | h
      · exact h.le
      · exact h.1.le
    rw [abs_le]
    constructor <;> linarith
  · have hge : 1 / 2 ≤ Int.fract q := by
      by_contra hcon
      exact h (Or.inl (not_le.mp hcon))
    push_cast
    rw [abs_le]
    constructor <;> linarith

namespace Format

variable (F : Format)

/-- Exponent of the unit in the last place at the magnitude of `q`. -/
def ulpExp (q : ℚ) : ℤ := max (Int.log 2 |q| - (F.prec - 1)) F.emin

def round (q : ℚ) : ℚ := roundEven (q / 2 ^ F.ulpExp q) * 2 ^ F.ulpExp q

theorem abs_round_sub_le (q : ℚ) : |F.round q - q| ≤ 2 ^ F.ulpExp q / 2 := by
  have hpos : (0 : ℚ) < 2 ^ F.ulpExp q := by positivity
  have hfactor : F.round q - q =
      (roundEven (q / 2 ^ F.ulpExp q) - q / 2 ^ F.ulpExp q) * 2 ^ F.ulpExp q := by
    unfold round
    field_simp
  rw [hfactor, abs_mul, abs_of_pos hpos]
  have h := mul_le_mul_of_nonneg_right (abs_roundEven_sub_le (q / 2 ^ F.ulpExp q)) hpos.le
  linarith

/-- From the smallest normal magnitude on, the relative error is half a unit. -/
theorem abs_round_sub_le_mul {q : ℚ} (hq : 2 ^ (F.emin + F.prec - 1) ≤ |q|) :
    |F.round q - q| ≤ |q| / 2 ^ F.prec := by
  have hpos : 0 < |q| := lt_of_lt_of_le (by positivity) hq
  have hlog : F.emin + F.prec - 1 ≤ Int.log 2 |q| :=
    (Int.zpow_le_iff_le_log (by norm_num) hpos).mp (by exact_mod_cast hq)
  have hexp : F.ulpExp q = Int.log 2 |q| - (F.prec - 1) := max_eq_left (by omega)
  have hle : (2 : ℚ) ^ Int.log 2 |q| ≤ |q| := by
    exact_mod_cast Int.zpow_log_le_self (b := 2) (by norm_num) hpos
  calc |F.round q - q| ≤ 2 ^ F.ulpExp q / 2 := F.abs_round_sub_le q
    _ = 2 ^ Int.log 2 |q| / 2 ^ F.prec := by
      rw [hexp, zpow_sub₀ (by norm_num), zpow_sub₀ (by norm_num), zpow_natCast, zpow_one]
      field_simp
    _ ≤ |q| / 2 ^ F.prec := by gcongr

theorem ulpExp_le {q : ℚ} {e : ℤ} (h0 : q ≠ 0) (hq : |q| < 2 ^ (F.prec + e)) (he : F.emin ≤ e) :
    F.ulpExp q ≤ e := by
  have hlog : Int.log 2 |q| < F.prec + e :=
    (Int.lt_zpow_iff_log_lt (by norm_num) (abs_pos.mpr h0)).mp (by exact_mod_cast hq)
  unfold ulpExp
  omega

/-- A multiple of a power of two whose factor has at most `prec` bits is kept. -/
theorem round_mul_zpow {k e : ℤ} (hk : |k| < 2 ^ F.prec) (he : F.emin ≤ e) :
    F.round (k * 2 ^ e) = k * 2 ^ e := by
  obtain ⟨q, hq⟩ : ∃ q : ℚ, q = k * 2 ^ e := ⟨_, rfl⟩
  rw [← hq]
  rcases eq_or_ne q 0 with h0 | h0
  · have hzero := roundEven_intCast 0
    rw [Int.cast_zero] at hzero
    simp [round, h0, hzero]
  · have hlt : |q| < 2 ^ (F.prec + e) := by
      rw [hq, abs_mul, abs_of_pos (by positivity : (0 : ℚ) < 2 ^ e), zpow_add₀ (by norm_num),
        zpow_natCast]
      have hkq : |(k : ℚ)| < 2 ^ F.prec := by exact_mod_cast hk
      gcongr
    obtain ⟨d, hd⟩ := Int.le.dest (F.ulpExp_le h0 hlt he)
    have hint : q / 2 ^ F.ulpExp q = (k * 2 ^ d : ℤ) := by
      rw [div_eq_iff (by positivity), Int.cast_mul, Int.cast_pow, Int.cast_ofNat, mul_assoc,
        ← zpow_natCast, ← zpow_add₀ (by norm_num), add_comm, hd, hq]
    rw [round, hint, roundEven_intCast, ← hint, div_mul_cancel₀ _ (by positivity)]

theorem round_intCast {z : ℤ} (hz : |z| < 2 ^ F.prec) (he : F.emin ≤ 0) : F.round z = z := by
  simpa using F.round_mul_zpow hz he

theorem round_nonneg {q : ℚ} (h : 0 ≤ q) : 0 ≤ F.round q := by
  have hz : (0 : ℤ) ≤ roundEven (q / 2 ^ F.ulpExp q) := le_roundEven (by push_cast; positivity)
  have hq : (0 : ℚ) ≤ roundEven (q / 2 ^ F.ulpExp q) := by exact_mod_cast hz
  unfold round
  positivity

/-- Rounding does not go below an integer, where the unit in the last place divides one. -/
theorem intCast_le_round {z : ℤ} {q : ℚ} (hq : |q| < 2 ^ F.prec) (he : F.emin ≤ 0)
    (h : (z : ℚ) ≤ q) : (z : ℚ) ≤ F.round q := by
  rcases eq_or_ne q 0 with rfl | h0
  · have hzero : F.round 0 = 0 := by simpa using F.round_intCast (z := 0) (by simp) he
    exact hzero.symm ▸ h
  · have hexp : F.ulpExp q ≤ 0 := F.ulpExp_le h0 (by simpa using hq) he
    obtain ⟨d, hd⟩ := Int.le.dest hexp
    have hpos : (0 : ℚ) < 2 ^ F.ulpExp q := by positivity
    have hunit : (2 : ℚ) ^ d * 2 ^ F.ulpExp q = 1 := by
      rw [← zpow_natCast, ← zpow_add₀ (by norm_num), add_comm, hd, zpow_zero]
    have hmul : ((z * 2 ^ d : ℤ) : ℚ) ≤ q / 2 ^ F.ulpExp q := by
      rw [le_div_iff₀ hpos]
      push_cast
      rwa [mul_assoc, hunit, mul_one]
    have hround : ((z * 2 ^ d : ℤ) : ℚ) ≤ roundEven (q / 2 ^ F.ulpExp q) := by
      exact_mod_cast le_roundEven hmul
    calc (z : ℚ) = (z * 2 ^ d : ℤ) * 2 ^ F.ulpExp q := by
          push_cast
          rw [mul_assoc, hunit, mul_one]
      _ ≤ F.round q := mul_le_mul_of_nonneg_right hround hpos.le

/-- The factor of the unit in the last place in a rounded value. -/
theorem abs_roundEven_le (q : ℚ) : |roundEven (q / 2 ^ F.ulpExp q)| ≤ 2 ^ F.prec := by
  have hpos : (0 : ℚ) < 2 ^ F.ulpExp q := by positivity
  have hlt : |q / 2 ^ F.ulpExp q| < 2 ^ F.prec := by
    rw [abs_div, abs_of_pos hpos, div_lt_iff₀ hpos, ← zpow_natCast, ← zpow_add₀ (by norm_num)]
    have hlog := Int.lt_zpow_succ_log_self (b := 2) (by norm_num) |q|
    have hexp : (2 : ℚ) ^ (Int.log 2 |q| + 1) ≤ 2 ^ (F.prec + F.ulpExp q) := by
      apply zpow_le_zpow_right₀ (by norm_num)
      unfold ulpExp
      omega
    exact lt_of_lt_of_le (by exact_mod_cast hlog) hexp
  have hnear := abs_le.mp (abs_roundEven_sub_le (q / 2 ^ F.ulpExp q))
  have hbound := abs_lt.mp hlt
  have hlow : -(2 ^ F.prec + 1 : ℚ) < roundEven (q / 2 ^ F.ulpExp q) := by linarith
  have hhigh : (roundEven (q / 2 ^ F.ulpExp q) : ℚ) < 2 ^ F.prec + 1 := by linarith
  have hlow' : -(2 ^ F.prec + 1) < roundEven (q / 2 ^ F.ulpExp q) := by exact_mod_cast hlow
  have hhigh' : roundEven (q / 2 ^ F.ulpExp q) < 2 ^ F.prec + 1 := by exact_mod_cast hhigh
  rw [abs_le]
  constructor <;> omega

/-- Dividing a rounded value by a power of two is exact above the subnormal range. -/
theorem round_round_div (q : ℚ) {d : ℕ} (hd : F.emin + d ≤ F.ulpExp q) :
    F.round (F.round q / 2 ^ d) = F.round q / 2 ^ d := by
  obtain ⟨z, hz⟩ : ∃ z, z = roundEven (q / 2 ^ F.ulpExp q) := ⟨_, rfl⟩
  have hle : |z| ≤ 2 ^ F.prec := hz ▸ F.abs_roundEven_le q
  have hval : F.round q / 2 ^ d = z * 2 ^ (F.ulpExp q - d) := by
    rw [round, ← hz, zpow_sub₀ (by norm_num), zpow_natCast, mul_div_assoc]
  rcases lt_or_eq_of_le hle with hlt | heq
  · rw [hval, F.round_mul_zpow hlt (by omega)]
  · -- A factor of full size is even, so that one more power of two can be split off.
    have hsplit : (2 : ℤ) ^ F.prec = 2 ^ (F.prec - 1) * 2 := by
      rw [← pow_succ, Nat.sub_add_cancel F.prec_pos]
    obtain ⟨y, rfl⟩ : ∃ y, z = y * 2 := by
      rcases abs_eq (by positivity) |>.mp heq with h | h
      · exact ⟨2 ^ (F.prec - 1), h.trans hsplit⟩
      · exact ⟨-2 ^ (F.prec - 1), by rw [h, hsplit]; ring⟩
    have hy : |y| < 2 ^ F.prec := by
      rw [abs_mul] at heq
      have hpos : (0 : ℤ) < 2 ^ F.prec := by positivity
      have h2 : |(2 : ℤ)| = 2 := rfl
      rw [h2] at heq
      omega
    have hval' : F.round q / 2 ^ d = y * 2 ^ (F.ulpExp q - d + 1) := by
      rw [hval, zpow_add_one₀ (by norm_num)]
      push_cast
      ring
    rw [hval', F.round_mul_zpow hy (by omega)]

end Format

section Binary64

theorem binary64_round_natCast {n : ℕ} (hn : n < 2 ^ 53) : binary64.round n = n := by
  have hz : |(n : ℤ)| < 2 ^ 53 := by
    rw [abs_of_nonneg (by positivity)]
    exact_mod_cast hn
  simpa using binary64.round_intCast hz (by decide)

theorem binary64_natCast_le_round {n : ℕ} {q : ℚ} (h0 : 0 ≤ q) (hq : q < 2 ^ 53)
    (h : (n : ℚ) ≤ q) : (n : ℚ) ≤ binary64.round q := by
  have habs : |q| < 2 ^ binary64.prec := by rwa [abs_of_nonneg h0]
  exact_mod_cast binary64.intCast_le_round (z := n) habs (by decide) (by exact_mod_cast h)

/-- The relative rounding error of a `double`, away from the subnormal range. -/
theorem binary64_abs_round_sub_le {q : ℚ} (hq : 1 / 16 ≤ q) :
    |binary64.round q - q| ≤ q / 2 ^ 53 := by
  have hpos : 0 < q := by linarith
  have hmin : (2 : ℚ) ^ (binary64.emin + binary64.prec - 1) ≤ |q| := by
    rw [abs_of_pos hpos]
    have hexp : (2 : ℚ) ^ (binary64.emin + binary64.prec - 1) ≤ 2 ^ (-4 : ℤ) :=
      zpow_le_zpow_right₀ (by norm_num) (by decide)
    have hval : (2 : ℚ) ^ (-4 : ℤ) = 1 / 16 := by norm_num
    exact hexp.trans (hval.le.trans hq)
  have h := binary64.abs_round_sub_le_mul hmin
  rwa [abs_of_pos hpos] at h

/-- A sixteenth of a rounded whole number is exact. -/
theorem binary64_round_sixteenth (n : ℕ) :
    binary64.round (binary64.round n / 16) = binary64.round n / 16 := by
  have hlog : 0 ≤ Int.log 2 |(n : ℚ)| := by
    rw [abs_of_nonneg (by positivity), Int.log_natCast]
    positivity
  have hexp : binary64.emin + (4 : ℕ) ≤ binary64.ulpExp n := by
    simp only [Format.ulpExp, binary64]
    omega
  have h := binary64.round_round_div n hexp
  norm_num at h
  exact h

end Binary64
end RdmaperfIso.Floating
