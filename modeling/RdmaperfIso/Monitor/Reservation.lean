import RdmaperfIso.Lib.Binary64
import RdmaperfIso.ResourceTable

/-! The bandwidth that `network_monitor` leaves to the best-effort tasks, computed from
what the primary task reported, with every C conversion on the way. -/
namespace RdmaperfIso.Reservation
open FixedWidth Floating Table

/-- `TOTAL_BW`, in bytes per second. -/
def totalBw : ℕ := 7000000000

/-- `be_bw`: an unsigned difference, from which a `double` reserve is taken before the
result is converted back. `bwUsage` is in megabytes per second. -/
def beBw (fl : ℚ → ℚ) (bwUsage : ℕ) : Option ℕ :=
  let used := wrap 64 (bwUsage * 1000000)
  let free := wrapSub 64 totalBw used
  let buffer := fl (fl totalBw * (1 / 4))
  let share := fl (fl used * fl (1 / 10))
  truncate 64 (fl (fl free - if share < buffer then buffer else share))

/-- One iteration of the loop of `network_monitor`. -/
def networkMonitor (fl : ℚ → ℚ) (table : Table) : Option Table :=
  (beBw fl (table.getBw primary)).map fun rate =>
    table.modify primary fun r => { r with tb := r.tb.setRate fl rate }

/-- The rate installed by the first iteration after the primary task reported `b`. -/
def installedRate (fl : ℚ → ℚ) (table : Table) (b : ℕ) : Option ℕ :=
  (networkMonitor fl (table.reportBw primary b)).map fun t => (t primary).tb.rate

theorem installedRate_eq (fl : ℚ → ℚ) (table : Table) (b : ℕ) :
    installedRate fl table b = beBw fl (wrap 32 b) := by
  simp [installedRate, networkMonitor, getBw, reportBw, modify_apply, TokenBucket.setRate,
    Function.comp_def]

section Exact
variable {n : ℕ}

theorem buffer_eq : binary64.round (binary64.round totalBw * (1 / 4)) = 1750000000 := by
  rw [binary64_round_natCast (by norm_num [totalBw])]
  have h := binary64_round_natCast (n := 1750000000) (by norm_num)
  norm_num [totalBw] at h ⊢
  exact h

/-- A tenth of the usage, as computed with the nearest double to a tenth. -/
def tenth (n : ℕ) : ℚ := binary64.round (binary64.round n * binary64.round (1 / 10))

theorem tenth_le (hn : n < 2 ^ 53) : tenth n ≤ n / 5 := by
  rcases Nat.eq_zero_or_pos n with rfl | hpos
  · have h := binary64_round_natCast (n := 0) (by norm_num)
    simp only [Nat.cast_zero] at h
    simp [tenth, h]
  · have hn1 : (1 : ℚ) ≤ n := by exact_mod_cast hpos
    have hten := abs_le.mp (binary64_abs_round_sub_le (q := 1 / 10) (by norm_num))
    have hlow : 1 / 16 ≤ binary64.round (1 / 10) := by linarith [hten.1]
    have hhigh : binary64.round (1 / 10) ≤ 3 / 20 := by linarith [hten.2]
    have hprod : 1 / 16 ≤ (n : ℚ) * binary64.round (1 / 10) := by nlinarith
    have hprod' : (n : ℚ) * binary64.round (1 / 10) ≤ n * (3 / 20) := by gcongr
    have hshare := abs_le.mp (binary64_abs_round_sub_le hprod)
    rw [tenth, binary64_round_natCast hn]
    linarith [hshare.2]

/-- Up to the total bandwidth the fixed buffer is the larger reserve, and the whole
computation is exact. A usage that leaves less than the buffer makes the difference
negative, and the conversion of a negative `double` has no result. -/
theorem beBw_of_le (hn : n ≤ 7000) :
    beBw binary64.round n =
      if n ≤ 5250 then some (5250000000 - n * 1000000 : ℤ).toNat else none := by
  have hused : wrap 64 (n * 1000000) = n * 1000000 := wrap_of_lt (by omega)
  obtain ⟨free, hfree⟩ : ∃ f, f = wrapSub 64 totalBw (n * 1000000) := ⟨_, rfl⟩
  have hfree' : free + n * 1000000 = 7000000000 := by
    rw [hfree, wrapSub_of_le] <;> norm_num [totalBw] <;> omega
  have hshare : tenth (n * 1000000) < 1750000000 := by
    have h := tenth_le (n := n * 1000000) (by omega)
    have hq : (n : ℚ) ≤ 7000 := by exact_mod_cast hn
    push_cast at h
    linarith
  have hint : (free : ℚ) - 1750000000 = ((5250000000 - n * 1000000 : ℤ) : ℚ) := by
    have hq : (free : ℚ) + n * 1000000 = 7000000000 := by exact_mod_cast hfree'
    push_cast
    linarith
  have hround := binary64.round_intCast (z := 5250000000 - n * 1000000)
    (by rw [abs_lt]; constructor <;> simp only [binary64] <;> omega) (by decide)
  have heq : beBw binary64.round n = truncate 64 ((5250000000 - n * 1000000 : ℤ) : ℚ) := by
    simp only [beBw, hused, ← hfree, buffer_eq]
    rw [← tenth, if_pos hshare, binary64_round_natCast (by omega), hint, hround]
  rw [heq]
  split_ifs with h
  · exact truncate_intCast (by omega) (by omega)
  · exact truncate_of_neg (by omega)

/-- Past the total bandwidth the unsigned difference wraps around to a huge rate. -/
theorem beBw_of_gt (hn : 7000 < n) (hw : n < 2 ^ 32) {rate : ℕ}
    (h : beBw binary64.round n = some rate) : totalBw < rate := by
  have hused : wrap 64 (n * 1000000) = n * 1000000 := wrap_of_lt (by omega)
  obtain ⟨free, hfree⟩ : ∃ f, f = wrapSub 64 totalBw (n * 1000000) := ⟨_, rfl⟩
  have hbig : 2 ^ 63 ≤ free := by
    rw [hfree, wrapSub_of_lt] <;> norm_num [totalBw] <;> omega
  have hbigq : (2 ^ 63 : ℚ) ≤ free := by exact_mod_cast hbig
  have hflfree := abs_le.mp (binary64_abs_round_sub_le (q := free) (by linarith))
  have hshare : tenth (n * 1000000) ≤ 2 ^ 50 := by
    have ht := tenth_le (n := n * 1000000) (by omega)
    have hq : (n : ℚ) ≤ 2 ^ 32 := by exact_mod_cast hw.le
    push_cast at ht
    linarith
  obtain ⟨reserve, hreserve⟩ : ∃ m, m = if tenth (n * 1000000) < 1750000000 then 1750000000
      else tenth (n * 1000000) := ⟨_, rfl⟩
  have hle : reserve ≤ 2 ^ 50 := by
    rw [hreserve]
    split_ifs
    · norm_num
    · exact hshare
  have heq : beBw binary64.round n =
      truncate 64 (binary64.round (binary64.round free - reserve)) := by
    simp only [beBw, hused, buffer_eq, ← hfree]
    rw [← tenth, ← hreserve]
  have hdiff : (2 ^ 62 : ℚ) ≤ binary64.round free - reserve := by linarith [hflfree.1]
  have hfl := abs_le.mp
    (binary64_abs_round_sub_le (q := binary64.round free - reserve) (by linarith))
  rw [heq] at h
  have hlt := lt_truncate_add_one h
  have hrate : (7000000000 : ℚ) < rate := by linarith [hfl.1]
  unfold totalBw
  exact_mod_cast hrate

end Exact

/-- The rate leaves the reported bandwidth to the primary task. -/
def Reserves (b rate : ℕ) : Prop := (rate : ℤ) ≤ max 0 (totalBw - b * 1000000)

/-- Reports that the conversions of the monitor carry through: usages that leave room for
the fixed buffer, and values whose low 32 bits use up exactly the rest. -/
def Covered (b : ℕ) : Prop := b ≤ 5250 ∨ b % 2 ^ 32 = 5250

instance (b : ℕ) : Decidable (Covered b) := inferInstanceAs (Decidable (_ ∨ _))

theorem installedRate_of_covered (table : Table) {b : ℕ} (h : Covered b) :
    installedRate binary64.round table b = some (5250000000 - min b 5250 * 1000000 : ℤ).toNat := by
  have hlow : wrap 32 b = min b 5250 := by
    unfold wrap
    rcases h with h | h <;> omega
  rw [installedRate_eq, hlow, beBw_of_le (by omega), if_pos (by omega)]

theorem covered_of_reserves (table : Table) {b rate : ℕ}
    (h : installedRate binary64.round table b = some rate) (hr : Reserves b rate) : Covered b := by
  have hw : wrap 32 b < 2 ^ 32 := wrap_lt 32 b
  rw [installedRate_eq] at h
  unfold Reserves at hr
  rcases le_or_gt (wrap 32 b) 7000 with hn | hn
  · rw [beBw_of_le hn] at h
    split_ifs at h with hle
    obtain rfl := Option.some.inj h
    unfold wrap totalBw at *
    unfold Covered
    omega
  · have hbig := beBw_of_gt hn hw h
    omega

/-- For every two reports, the installed rates are defined, leave the reported bandwidth
to the primary task and do not grow with the report exactly when both are covered. -/
theorem reservation_iff (table : Table) {b b' : ℕ} (hle : b ≤ b') :
    (∃ r r', installedRate binary64.round table b = some r ∧
      installedRate binary64.round table b' = some r' ∧
      Reserves b r ∧ Reserves b' r' ∧ r' ≤ r) ↔ Covered b ∧ Covered b' := by
  constructor
  · rintro ⟨r, r', h, h', hr, hr', -⟩
    exact ⟨covered_of_reserves table h hr, covered_of_reserves table h' hr'⟩
  · rintro ⟨h, h'⟩
    refine ⟨_, _, installedRate_of_covered table h, installedRate_of_covered table h', ?_, ?_, ?_⟩
    · unfold Reserves totalBw
      omega
    · unfold Reserves totalBw
      omega
    · omega

theorem reservation_iff_idle_full :
    Covered 0 ∧ Covered 5250 ∧
      ∃ r r', installedRate binary64.round (fun _ => Resource.zero) 0 = some r ∧
        installedRate binary64.round (fun _ => Resource.zero) 5250 = some r' ∧
        Reserves 0 r ∧ Reserves 5250 r' ∧ r' ≤ r := by
  have h : Covered 0 ∧ Covered 5250 := by decide
  exact ⟨h.1, h.2, (reservation_iff _ (by norm_num)).mpr h⟩

/-- After a report of 6000 MB/s the conversion is out of range, and after one of 8000 MB/s,
more than the link carries, the other tasks are given more than the whole link. -/
theorem reports_past_buffer_fail :
    installedRate binary64.round (fun _ => Resource.zero) 6000 = none ∧
      ∃ r, installedRate binary64.round (fun _ => Resource.zero) 8000 = some r ∧
        ¬ Reserves 8000 r := by
  constructor
  · decide +kernel
  · have h : (installedRate binary64.round (fun _ => Resource.zero) 8000).isSome := by
      decide +kernel
    obtain ⟨r, hr⟩ := Option.isSome_iff_exists.mp h
    refine ⟨r, hr, fun hres => ?_⟩
    have hcov := covered_of_reserves _ hr hres
    revert hcov
    decide

end RdmaperfIso.Reservation
