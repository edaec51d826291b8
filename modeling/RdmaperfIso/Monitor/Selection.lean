import RdmaperfIso.Lib.Binary64
import RdmaperfIso.Lib.Scan
import RdmaperfIso.ResourceTable

/-! The scans of the monitor over the task table: the tasks with the least and the most
slack, the victim that gives cache up and the receiver that gets it. -/
namespace RdmaperfIso.Selection
open Run Scan Floating

inductive ResourceDirection where
  | both
  | alloc
  | ret
  deriving DecidableEq, Repr

section Loop
variable {β : Type} [LinearOrder β] (skip : Fin tableSize → Prop) [DecidablePred skip]
  (key : Fin tableSize → β)

/-- The body of the loop that the four scans share: `continue` for a skipped task, and a strict
comparison with the best value so far. -/
def visitTask (best : β × ℤ) (i : ℕ) : Option (β × ℤ) := do
  let id ← tableIndex i
  if skip id then some best
  else if best.1 < key id then some (key id, i)
  else some best

/-- The loop over the tasks below `nrTask`, which returns the position and not the value. -/
def select (init : β) (nrTask : ℤ) : Option ℤ :=
  (run (visitTask skip key) (init, -1) (List.range nrTask.toNat)).map Prod.snd

end Loop

/-- The smaller slack is the larger one in the dual order. -/
def findMinSlack (table : Table) (slack : Fin tableSize → ℚ) (nrTask : ℤ) : Option ℤ :=
  select (fun i => (table i).on = false ∨ (table i).type = .secondary)
    (fun i => OrderDual.toDual (slack i)) (OrderDual.toDual 100) nrTask

def findMaxSlack (table : Table) (slack : Fin tableSize → ℚ) (nrTask : ℤ) : Option ℤ :=
  select (fun i => (table i).on = false ∨ (table i).type = .secondary) slack (-100) nrTask

def findVictim (table : Table) (rDir : Fin tableSize → ResourceDirection) (nrTask : ℤ) :
    Option ℤ :=
  select (fun i => ((table i).on = false ∨ rDir i = .alloc) ∨ (table i).type = .latency)
    (fun i => (table i).cache.usage) 0 nrTask

/-- The usage goes through a `double` here, and is compared with the `double` next to 0.7. -/
def findReciever (table : Table) (rDir : Fin tableSize → ResourceDirection) (nrTask : ℤ) :
    Option ℤ :=
  select (fun i => ((table i).on = false ∨ rDir i = .ret) ∨ (table i).type = .latency ∨
      ((table i).cache.usage : ℚ) < binary64.round (7 / 10))
    (fun i => ((table i).cache.usage : ℚ)) 0 nrTask

/-- The answer -1 means that no task below `nrTask` is eligible; any other answer is the first
eligible task that is at least as good as every eligible one. -/
structure Selects (nrTask : ℤ) (eligible : Fin tableSize → Prop)
    (atLeast : Fin tableSize → Fin tableSize → Prop) (answer : ℤ) : Prop where
  absent : answer = -1 ↔ ¬ ∃ i : Fin tableSize, i.val < nrTask ∧ eligible i
  best : answer ≠ -1 → ∃ i : Fin tableSize, answer = i.val ∧ i.val < nrTask ∧ eligible i ∧
    ∀ j : Fin tableSize, j.val < nrTask → eligible j → atLeast i j ∧ (atLeast j i → i ≤ j)

section Loop
variable {β : Type} {skip : Fin tableSize → Prop} [DecidablePred skip]
  {key : Fin tableSize → β}

/-- The key that the loop sees at a position, none when the task is skipped. -/
def taskKey (skip : Fin tableSize → Prop) [DecidablePred skip] (key : Fin tableSize → β)
    (i : ℕ) : Option β :=
  (tableIndex i).bind fun id => if skip id then none else some (key id)

theorem taskKey_natCast (skip : Fin tableSize → Prop) [DecidablePred skip]
    (key : Fin tableSize → β) (i : Fin tableSize) :
    taskKey skip key i = if skip i then none else some (key i) := by
  rw [taskKey, tableIndex_natCast, Option.bind_some]

theorem mem_taskKey {i : ℕ} {k : β} :
    k ∈ taskKey skip key i ↔ ∃ id : Fin tableSize, id.val = i ∧ ¬ skip id ∧ key id = k := by
  constructor
  · intro h
    obtain ⟨id, hid, hk⟩ := Option.bind_eq_some_iff.mp h
    have hval := tableIndex_eq_some hid
    split_ifs at hk with hskip
    exact ⟨id, by omega, hskip, Option.some.inj hk⟩
  · rintro ⟨id, rfl, hskip, rfl⟩
    rw [taskKey_natCast, if_neg hskip]
    rfl

variable [LinearOrder β] {init : β} {nrTask : ℤ}

theorem visitTask_eq (best : β × ℤ) (i : Fin tableSize) :
    visitTask skip key best i.val = some (visit (taskKey skip key) best i.val) := by
  have hkey := taskKey_natCast skip key i
  simp only [visitTask, tableIndex_natCast, Option.bind_eq_bind, Option.bind_some]
  by_cases hskip : skip i
  · rw [if_pos hskip] at hkey
    rw [if_pos hskip, visit_of_none hkey]
  · rw [if_neg hskip] at hkey
    rw [if_neg hskip, visit_of_some hkey]
    exact (apply_ite some _ _ _).symm

theorem select_eq_scan (hn : nrTask ≤ tableSize) :
    select skip key init nrTask = some (scan (taskKey skip key) init nrTask.toNat).2 := by
  have hstep (best : β × ℤ) (i : ℕ) (hi : i ∈ List.range nrTask.toNat) :
      visitTask skip key best i = some (visit (taskKey skip key) best i) := by
    have hlt := List.mem_range.mp hi
    exact visitTask_eq best ⟨i, by omega⟩
  rw [select, run_eq_foldl hstep]
  rfl

/-- A task is eligible when it is not skipped and beats the initial value. -/
theorem select_selects {eligible : Fin tableSize → Prop}
    {atLeast : Fin tableSize → Fin tableSize → Prop} (hn : nrTask ≤ tableSize)
    (heligible : ∀ i : Fin tableSize, i.val < nrTask → (eligible i ↔ ¬ skip i ∧ init < key i))
    (hleast : ∀ i j, atLeast i j ↔ key j ≤ key i) :
    ∃ answer, select skip key init nrTask = some answer ∧
      Selects nrTask eligible atLeast answer := by
  refine ⟨_, select_eq_scan hn, ?_⟩
  rcases scan_known (taskKey skip key) init nrTask.toNat with ⟨heq, hle⟩ | ⟨i, k, heq, hk, hmax⟩
  · rw [heq]
    refine ⟨iff_of_true rfl ?_, fun h => absurd rfl h⟩
    rintro ⟨j, hj, helig⟩
    obtain ⟨hskip, hlt⟩ := (heligible j hj).mp helig
    exact (hle j (by omega) (key j) (mem_taskKey.mpr ⟨j, rfl, hskip, rfl⟩)).not_gt hlt
  · rw [heq]
    obtain ⟨task, rfl, hskip, rfl⟩ := mem_taskKey.mp hmax.key_eq
    have hlt : (task.val : ℤ) < nrTask := by
      have hround := hmax.lt
      omega
    have helig : eligible task := (heligible task hlt).mpr ⟨hskip, hk⟩
    refine ⟨iff_of_false (by omega) (not_not_intro ⟨task, hlt, helig⟩), fun _ => ?_⟩
    refine ⟨task, rfl, hlt, helig, fun j hj helig' => ?_⟩
    have hmem : key j ∈ taskKey skip key j.val :=
      mem_taskKey.mpr ⟨j, rfl, ((heligible j hj).mp helig').1, rfl⟩
    have hle := hmax.le j (by omega) (key j) hmem
    refine ⟨(hleast task j).mpr hle, fun h => hmax.first j (by omega) ?_⟩
    rwa [le_antisymm ((hleast j task).mp h) hle]

end Loop

/-- The `double` next to 0.7 separates the usage 0 from the usage 1. -/
theorem usage_lt_round_iff (usage : ℤ) : (usage : ℚ) < binary64.round (7 / 10) ↔ usage < 1 := by
  have hround := abs_le.mp (binary64_abs_round_sub_le (by norm_num : (1 : ℚ) / 16 ≤ 7 / 10))
  constructor
  · intro h
    have hlt : (usage : ℚ) < 1 := by linarith [hround.2]
    exact_mod_cast hlt
  · intro h
    have hle : (usage : ℚ) ≤ 0 := by exact_mod_cast Int.lt_add_one_iff.mp h
    linarith [hround.1]

/-- Each of the four scans returns the first eligible task that is best in its own order. -/
theorem scans_exact (table : Table) (slack : Fin tableSize → ℚ)
    (rDir : Fin tableSize → ResourceDirection) {nrTask : ℤ} (hn : nrTask ≤ tableSize)
    (hslack : ∀ i : Fin tableSize, i.val < nrTask → -100 < slack i ∧ slack i < 100) :
    (∃ answer, findMinSlack table slack nrTask = some answer ∧
      Selects nrTask (fun i => (table i).on = true ∧ (table i).type ≠ .secondary)
        (fun i j => slack i ≤ slack j) answer) ∧
    (∃ answer, findMaxSlack table slack nrTask = some answer ∧
      Selects nrTask (fun i => (table i).on = true ∧ (table i).type ≠ .secondary)
        (fun i j => slack j ≤ slack i) answer) ∧
    (∃ answer, findVictim table rDir nrTask = some answer ∧
      Selects nrTask (fun i => (table i).on = true ∧ (table i).type ≠ .latency ∧
          rDir i ≠ .alloc ∧ 0 < (table i).cache.usage)
        (fun i j => (table j).cache.usage ≤ (table i).cache.usage) answer) ∧
    ∃ answer, findReciever table rDir nrTask = some answer ∧
      Selects nrTask (fun i => (table i).on = true ∧ (table i).type ≠ .latency ∧
          rDir i ≠ .ret ∧ 1 ≤ (table i).cache.usage)
        (fun i j => (table j).cache.usage ≤ (table i).cache.usage) answer := by
  refine ⟨select_selects hn (fun i hi => ?_) fun i j => Iff.rfl,
    select_selects hn (fun i hi => ?_) fun i j => Iff.rfl,
    select_selects hn (fun i _ => ?_) fun i j => Iff.rfl,
    select_selects hn (fun i _ => ?_) fun i j => Int.cast_le.symm⟩
  · rw [OrderDual.toDual_lt_toDual, and_iff_left (hslack i hi).2]
    simp
  · rw [and_iff_left (hslack i hi).1]
    simp
  · simp only [not_or, Bool.not_eq_false]
    tauto
  · rw [usage_lt_round_iff, Int.cast_pos]
    simp only [not_or, Bool.not_eq_false, not_lt]
    constructor
    · rintro ⟨hon, htype, hdir, husage⟩
      exact ⟨⟨⟨hon, hdir⟩, htype, husage⟩, by omega⟩
    · rintro ⟨⟨⟨hon, hdir⟩, htype, husage⟩, -⟩
      exact ⟨hon, htype, hdir, husage⟩

/-- The latency task and three others, the last two of which share the largest usage and the
smallest slack. -/
def fourTasks : Table := fun i =>
  { Resource.zero with
    on := true
    type := if i = primary then .latency else .none
    cache := { initQpCache with usage := if i.val < 2 then 1 else 5 } }

def fourSlacks (i : Fin tableSize) : ℚ := if i.val < 2 then 1 / 2 else 1 / 4

theorem scans_exact_fourTasks :
    (findMinSlack fourTasks fourSlacks 4 = some 2 ∧ findMaxSlack fourTasks fourSlacks 4 = some 0 ∧
      findVictim fourTasks (fun _ => .both) 4 = some 2 ∧
      findReciever fourTasks (fun _ => .both) 4 = some 2) ∧
    ∃ answer, findMinSlack fourTasks fourSlacks 4 = some answer ∧
      Selects 4 (fun i => (fourTasks i).on = true ∧ (fourTasks i).type ≠ .secondary)
        (fun i j => fourSlacks i ≤ fourSlacks j) answer :=
  ⟨by decide +kernel,
    (scans_exact fourTasks fourSlacks (fun _ => .both) (by decide) (by decide +kernel)).1⟩

end RdmaperfIso.Selection
