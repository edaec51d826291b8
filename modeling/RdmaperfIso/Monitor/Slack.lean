import RdmaperfIso.ResourceTable

/-! The slack that the monitor computes for the tasks with a latency target. -/
namespace RdmaperfIso.Slack
open FixedWidth Run

def isPrimaryTask (r : Resource) : Prop := r.type = .latency ∧ r.on = true

instance (r : Resource) : Decidable (isPrimaryTask r) := inferInstanceAs (Decidable (_ ∧ _))

def getTailLat (r : Resource) : ℕ := r.stat.curTail

/-- The value stored for a primary task. The unsigned difference of the target and the latency,
which has gone through an `int`, is read as an `int` again; a quotient by zero is no number. -/
def slackOf (fl : ℚ → ℚ) (r : Resource) : Option ℚ :=
  let lat := toSigned 32 (getTailLat r)
  let diff := toSigned 32 (r.stat.qos - lat)
  let diff := if diff < 0 then 0 else diff
  if fl r.stat.qos = 0 then none else some (fl (fl diff / fl r.stat.qos))

/-- The body of the loop of `cal_slack`. -/
def calSlackAt (fl : ℚ → ℚ) (table : Table) (slack : Fin tableSize → Option ℚ) (i : ℕ) :
    Option (Fin tableSize → Option ℚ) := do
  let id ← tableIndex i
  if isPrimaryTask (table id) then
    some (Function.update slack id (slackOf fl (table id)))
  else some slack

def calSlack (fl : ℚ → ℚ) (table : Table) (nrTask : ℕ) (slack : Fin tableSize → Option ℚ) :
    Option (Fin tableSize → Option ℚ) :=
  run (calSlackAt fl table) slack (List.range nrTask)

/-- The part of the latency target that is left, zero when the target is missed. -/
def headroom (qos tail : ℕ) : ℚ := (max 0 ((qos : ℤ) - tail) : ℤ) / qos

/-- Every primary task below `nrTask` has its relative headroom as slack, a value between zero
and one that is zero when the target is missed and falls with the latency; every other slack
is unchanged. -/
structure Relative (table : Table) (nrTask : ℕ) (slack slack' : Fin tableSize → Option ℚ) :
    Prop where
  value : ∀ i, i.val < nrTask → isPrimaryTask (table i) →
    slack' i = some (headroom (table i).stat.qos (table i).stat.curTail)
  bounds : ∀ i, i.val < nrTask → isPrimaryTask (table i) → ∀ q ∈ slack' i, 0 ≤ q ∧ q ≤ 1 ∧
    (q = 0 ↔ (table i).stat.qos ≤ (table i).stat.curTail) ∧
    ∀ tail, (table i).stat.curTail ≤ tail → headroom (table i).stat.qos tail ≤ q
  unchanged : ∀ i, ¬ (i.val < nrTask ∧ isPrimaryTask (table i)) → slack' i = slack i

section Headroom
variable {qos tail tail' : ℕ}

theorem headroom_nonneg (qos tail : ℕ) : 0 ≤ headroom qos tail := by
  have hmax : (0 : ℚ) ≤ (max 0 ((qos : ℤ) - tail) : ℤ) := by exact_mod_cast le_max_left _ _
  unfold headroom
  positivity

theorem headroom_le_one (hq : 1 ≤ qos) : headroom qos tail ≤ 1 := by
  have hpos : (0 : ℚ) < qos := by exact_mod_cast hq
  have hle : (max 0 ((qos : ℤ) - tail) : ℤ) ≤ (qos : ℤ) := by omega
  rw [headroom, div_le_one hpos]
  exact_mod_cast hle

theorem headroom_eq_zero_iff (hq : 1 ≤ qos) : headroom qos tail = 0 ↔ qos ≤ tail := by
  have hne : (qos : ℚ) ≠ 0 := by exact_mod_cast (by omega : qos ≠ 0)
  rw [headroom, div_eq_zero_iff, or_iff_left hne, Int.cast_eq_zero]
  omega

theorem headroom_anti (qos : ℕ) (h : tail ≤ tail') : headroom qos tail' ≤ headroom qos tail := by
  have hle : max 0 ((qos : ℤ) - tail') ≤ max 0 ((qos : ℤ) - tail) := by omega
  have hcast : ((max 0 ((qos : ℤ) - tail') : ℤ) : ℚ) ≤ (max 0 ((qos : ℤ) - tail) : ℤ) := by
    exact_mod_cast hle
  unfold headroom
  gcongr

/-- Read as an `int`, the difference of two 32-bit words keeps its clamped value exactly when
it fits. -/
theorem clamped_toSigned_iff (hq : qos < 2 ^ 32) (ht : tail < 2 ^ 32) {diff : ℤ}
    (hd : diff = toSigned 32 (qos - toSigned 32 tail)) :
    (if diff < 0 then 0 else diff) = max 0 ((qos : ℤ) - tail) ↔
      -2 ^ 31 ≤ (qos : ℤ) - tail ∧ (qos : ℤ) - tail < 2 ^ 31 := by
  have hsub : diff = Int.bmod ((qos : ℤ) - tail) (2 ^ 32) := by
    rw [hd, toSigned, toSigned, Int.sub_bmod_bmod]
  rw [hsub, Int.bmod_def]
  push_cast
  omega

theorem slackOf_eq_headroom_iff {r : Resource} (hq : r.stat.qos < 2 ^ 32)
    (ht : r.stat.curTail < 2 ^ 32) (hpos : 1 ≤ r.stat.qos) :
    slackOf id r = some (headroom r.stat.qos r.stat.curTail) ↔
      -2 ^ 31 ≤ (r.stat.qos : ℤ) - r.stat.curTail ∧ (r.stat.qos : ℤ) - r.stat.curTail < 2 ^ 31 := by
  have hne : (r.stat.qos : ℚ) ≠ 0 := by exact_mod_cast (by omega : r.stat.qos ≠ 0)
  rw [← clamped_toSigned_iff hq ht rfl]
  simp only [slackOf, getTailLat, id, if_neg hne, headroom, Option.some.injEq,
    div_left_inj' hne, Int.cast_inj]
  exact Iff.rfl

end Headroom

section Loop
variable {fl : ℚ → ℚ} {table : Table} {nrTask : ℕ} {slack slack' : Fin tableSize → Option ℚ}

/-- One round of the loop extends the tasks done by task `i`. -/
theorem calSlackAt_eq (fl : ℚ → ℚ) (table : Table) (slack : Fin tableSize → Option ℚ)
    (i : Fin tableSize) : calSlackAt fl table slack i.val =
      some (if isPrimaryTask (table i) then Function.update slack i (slackOf fl (table i))
        else slack) := by
  simp only [calSlackAt, tableIndex_natCast, Option.bind_eq_bind, Option.bind_some]
  exact (apply_ite some _ _ _).symm

theorem calSlack_eq (hn : nrTask ≤ tableSize) :
    calSlack fl table nrTask slack = some fun i =>
      if i.val < nrTask ∧ isPrimaryTask (table i) then slackOf fl (table i) else slack i := by
  induction nrTask with
  | zero => simp [calSlack]
  | succ n ih =>
    have hstep := calSlackAt_eq fl table (fun i =>
      if i.val < n ∧ isPrimaryTask (table i) then slackOf fl (table i) else slack i) ⟨n, hn⟩
    have hprev := ih (by omega)
    rw [calSlack] at hprev ⊢
    rw [List.range_succ, run_append, hprev, Option.bind_some, run_cons, hstep, Option.bind_some,
      run_nil]
    congr 1
    funext i
    by_cases hi : i = ⟨n, hn⟩
    · subst hi
      by_cases hp : isPrimaryTask (table ⟨n, hn⟩) <;> simp [hp]
    · have hne : i.val ≠ n := fun h => hi (Fin.ext h)
      have hlt : i.val < n + 1 ↔ i.val < n := by omega
      by_cases hp : isPrimaryTask (table ⟨n, hn⟩) <;> simp [hp, hi, hlt]

theorem nrTask_le_of_calSlack (h : calSlack fl table nrTask slack = some slack') :
    nrTask ≤ tableSize := by
  by_contra hn
  obtain ⟨k, rfl⟩ := Nat.exists_eq_add_of_lt (not_le.mp hn)
  have hlast : tableIndex (tableSize + k) = none := dif_neg (by omega)
  rw [calSlack, List.range_succ, run_append_eq_some] at h
  obtain ⟨t, -, hrun⟩ := h
  simp [run_cons, calSlackAt, hlast] at hrun

end Loop

/-- The slack of every primary task is its relative headroom exactly when the tasks fit in the
table and each difference of target and latency fits in an `int`. -/
theorem relative_iff {table : Table} {nrTask : ℕ} {slack : Fin tableSize → Option ℚ}
    (hwords : ∀ i, (table i).stat.qos < 2 ^ 32 ∧ (table i).stat.curTail < 2 ^ 32)
    (hqos : ∀ i, isPrimaryTask (table i) → 1 ≤ (table i).stat.qos) :
    (∃ slack', calSlack id table nrTask slack = some slack' ∧
        Relative table nrTask slack slack') ↔
      nrTask ≤ tableSize ∧ ∀ i, i.val < nrTask → isPrimaryTask (table i) →
        -2 ^ 31 ≤ ((table i).stat.qos : ℤ) - (table i).stat.curTail ∧
          ((table i).stat.qos : ℤ) - (table i).stat.curTail < 2 ^ 31 := by
  constructor
  · rintro ⟨slack', hs, hrel⟩
    have hn := nrTask_le_of_calSlack hs
    refine ⟨hn, fun i hi hp => ?_⟩
    rw [← slackOf_eq_headroom_iff (hwords i).1 (hwords i).2 (hqos i hp), ← hrel.value i hi hp]
    rw [calSlack_eq hn] at hs
    obtain rfl := Option.some.inj hs
    exact (if_pos ⟨hi, hp⟩).symm
  · rintro ⟨hn, hfit⟩
    have hvalue (i : Fin tableSize) (hi : i.val < nrTask) (hp : isPrimaryTask (table i)) :
        slackOf id (table i) = some (headroom (table i).stat.qos (table i).stat.curTail) :=
      (slackOf_eq_headroom_iff (hwords i).1 (hwords i).2 (hqos i hp)).mpr (hfit i hi hp)
    refine ⟨_, calSlack_eq hn, fun i hi hp => ?_, fun i hi hp q hq => ?_, fun i hi => if_neg hi⟩
    · rw [if_pos ⟨hi, hp⟩, hvalue i hi hp]
    · rw [if_pos ⟨hi, hp⟩, hvalue i hi hp] at hq
      obtain rfl := Option.some.inj hq
      exact ⟨headroom_nonneg _ _, headroom_le_one (hqos i hp), headroom_eq_zero_iff (hqos i hp),
        fun tail ht => headroom_anti _ ht⟩

/-- A table whose task 0 has the given target and has reported the given tail latency. -/
def reported (qos tail : ℕ) : Table :=
  Table.reportLatency
    (Table.modify (fun _ => .zero) primary fun r =>
      { r with on := true, stat := { r.stat with qos := qos } })
    primary 0 tail 0

theorem relative_iff_halfTarget :
    ∃ slack', calSlack id (reported 10 5) 1 (fun _ => some 0) = some slack' ∧
      Relative (reported 10 5) 1 (fun _ => some 0) slack' :=
  (relative_iff (by decide +kernel) (by decide +kernel)).mpr (by decide +kernel)

/-- A stall far beyond the target turns into ample slack, and a large target that is met into
none. -/
theorem wide_difference_flips_slack :
    ((calSlack id (reported 1 (2 ^ 31 + 2)) 1 fun _ => some 0).any fun slack =>
      slack primary = some (2 ^ 31 - 1)) ∧ headroom 1 (2 ^ 31 + 2) = 0 ∧
    ((calSlack id (reported (2 ^ 31) 0) 1 fun _ => some 0).any fun slack =>
      slack primary = some 0) ∧ headroom (2 ^ 31) 0 = 1 := by
  decide +kernel

end RdmaperfIso.Slack
