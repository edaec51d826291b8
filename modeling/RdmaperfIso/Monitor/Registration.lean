import RdmaperfIso.Monitor.Config

/-! The start-up of the monitor and the attachment of tenants, interleaved step by step. The
shared table is visible to the tenants from the moment it is created. -/
namespace RdmaperfIso.Registration
open CString Run Table Config

/-- Where the monitor is in its start-up. -/
inductive MonitorPc where
  | down
  | mapped (file : Bytes)
  | loading (lines : List Bytes) (nrTask : ℕ)
  | loaded (nrTask : ℕ)
  | initialising (nrTask i : ℕ)
  | started (nrTask : ℕ)
  deriving DecidableEq

/-- Where a tenant is in `ibverbs_init`, with the entry that it has found. -/
inductive TenantPc where
  | idle
  | opened (id : Fin tableSize)
  | cached (id : Fin tableSize)
  | attached (id : Fin tableSize)
  deriving DecidableEq

/-- The shared object is zero-filled until something is stored in it. -/
structure World (ι : Type) where
  created : Bool
  table : Table
  monitor : MonitorPc
  tenants : ι → TenantPc

inductive Event (ι : Type) where
  | start (file : Bytes)
  | monitor
  | tenant (p : ι)

variable {ι : Type} [DecidableEq ι] {fl : ℚ → ℚ} {taskId : ι → Option Bytes}

/-- One entry of the loop of `init_resource`. -/
def initEntry (r : Resource) : Resource :=
  { r with allocatedBandwidth := initBandwidth, allocatedQps := 50, on := false }

/-- The next step of the monitor. -/
def monitorStep (fl : ℚ → ℚ) (table : Table) : MonitorPc → Option (Table × MonitorPc)
  | .down => none
  | .mapped file => some (fun _ => .zero, .loading (fgetsAll 200 file) 0)
  | .loading (line :: lines) nrTask =>
    (loadLine ⟨table, nrTask⟩ line).map fun s => (s.table, .loading lines s.nrTask)
  | .loading [] nrTask =>
    some (table.modify primary fun r =>
      { r with tb := .initTokenBucket fl initBandwidth burstSize }, .loaded nrTask)
  | .loaded nrTask =>
    some (table.modify primary fun r =>
      { r with requestTb := .initTokenBucket fl initRequestRate 64 }, .initialising nrTask 0)
  | .initialising nrTask i =>
    if i < nrTask then
      (tableIndex i).map fun id => (table.modify id initEntry, .initialising nrTask (i + 1))
    else some (table, .started nrTask)
  | .started nrTask => some (table, .started nrTask)

/-- The entry that a `TASK_ID` names. -/
def taskIndex (taskId : Option Bytes) : Option (Fin tableSize) :=
  taskId.bind fun str => tableIndex (atoi str)

/-- The next step of a tenant with the given `TASK_ID`. When the object does not exist yet
`my_res` stays null, and the store through it is undefined. -/
def tenantStep (taskId : Option Bytes) (created : Bool) (table : Table) :
    TenantPc → Option (Table × TenantPc)
  | .idle => do
    let id ← taskIndex taskId
    if created then some (table, .opened id) else none
  | .opened id => some (table.modify id fun r => { r with cache := initQpCache }, .cached id)
  | .cached id => some (table.modify id fun r => { r with on := true }, .attached id)
  | .attached id => some (table, .attached id)

/-- A start, also of a monitor that ran before, keeps what the object holds. -/
def step (fl : ℚ → ℚ) (taskId : ι → Option Bytes) (w : World ι) : Event ι → Option (World ι)
  | .start file => some { w with created := true, monitor := .mapped file }
  | .monitor =>
    (monitorStep fl w.table w.monitor).map fun (table, pc) =>
      { w with table := table, monitor := pc }
  | .tenant p =>
    (tenantStep (taskId p) w.created w.table (w.tenants p)).map fun (table, pc) =>
      { w with table := table, tenants := Function.update w.tenants p pc }

/-- Nothing has run yet. -/
def initial : World ι := ⟨false, fun _ => .zero, .down, fun _ => .idle⟩

/-- Every tenant whose attachment is complete is marked in its entry. -/
def Registered (w : World ι) : Prop := ∀ p i, w.tenants p = .attached i → (w.table i).on = true

/-- The entries whose mark the next step of the monitor clears. -/
def MonitorPc.Clears : MonitorPc → Fin tableSize → Prop
  | .mapped _, _ => True
  | .initialising nrTask j, i => j < nrTask ∧ j = i.val
  | _, _ => False

instance (i : Fin tableSize) : (pc : MonitorPc) → Decidable (pc.Clears i)
  | .mapped _ => isTrue trivial
  | .initialising nrTask j => inferInstanceAs (Decidable (j < nrTask ∧ j = i.val))
  | .down | .loading _ _ | .loaded _ | .started _ => isFalse id

/-- The monitor clears no entry of a tenant that is attached. -/
def Undisturbed (w : World ι) : Event ι → Prop
  | .monitor => ∀ p i, w.tenants p = .attached i → ¬ w.monitor.Clears i
  | _ => True

instance [Fintype ι] (w : World ι) : (e : Event ι) → Decidable (Undisturbed w e)
  | .monitor =>
    inferInstanceAs (Decidable (∀ p i, w.tenants p = .attached i → ¬ w.monitor.Clears i))
  | .start _ | .tenant _ => isTrue trivial

/-- No two tenants have the same entry. -/
def Distinct (taskId : ι → Option Bytes) : Prop :=
  ∀ p q i, taskIndex (taskId p) = some i → taskIndex (taskId q) = some i → p = q

section Refinement
variable {w : World ι} {table : Table}

/-- Without interruption the three steps of a tenant are `ibverbs_init`. -/
theorem run_attach {p : ι} {id : Fin tableSize} (hidle : w.tenants p = .idle)
    (hcreated : w.created = true) (h : w.table.ibverbsInit (taskId p) = some (table, id)) :
    run (step fl taskId) w [.tenant p, .tenant p, .tenant p] =
      some { w with table := table, tenants := Function.update w.tenants p (.attached id) } := by
  simp only [ibverbsInit, Option.bind_eq_bind, Option.bind_eq_some_iff] at h
  obtain ⟨str, hstr, i, hi, h⟩ := h
  obtain ⟨rfl, rfl⟩ := Prod.mk.inj (Option.some.inj h)
  simp [run_cons, step, tenantStep, taskIndex, hidle, hcreated, hstr, hi, modify_modify]

theorem run_loading (fl : ℚ → ℚ) (taskId : ι → Option Bytes) (tenants : ι → TenantPc)
    {s s' : Loaded} {lines : List Bytes} (h : run loadLine s lines = some s') :
    run (step fl taskId) ⟨true, s.table, .loading lines s.nrTask, tenants⟩
      (List.replicate lines.length .monitor) =
        some ⟨true, s'.table, .loading [] s'.nrTask, tenants⟩ := by
  induction lines generalizing s with
  | nil =>
    obtain rfl := Option.some.inj h
    rfl
  | cons line lines ih =>
    obtain ⟨u, hu, hrest⟩ := run_cons_eq_some.mp h
    rw [List.length_cons, List.replicate_succ, run_cons_eq_some]
    exact ⟨_, by simp [step, monitorStep, hu], ih hrest⟩

theorem run_initialising (fl : ℚ → ℚ) (taskId : ι → Option Bytes) (tenants : ι → TenantPc)
    (table : Table) {n i k : ℕ} (hn : n ≤ tableSize) (hk : i + k = n) :
    run (step fl taskId) ⟨true, table, .initialising n i, tenants⟩ (List.replicate k .monitor) =
      some ⟨true, fun j => if i ≤ j.val ∧ j.val < n then initEntry (table j) else table j,
        .initialising n n, tenants⟩ := by
  induction k generalizing i table with
  | zero =>
    obtain rfl : i = n := hk
    have hnone (j : Fin tableSize) : ¬ (i ≤ j.val ∧ j.val < i) := by omega
    simp [hnone]
  | succ k ih =>
    have hlt : i < n := by omega
    have hindex := tableIndex_natCast ⟨i, hlt.trans_le hn⟩
    have hstep : step fl taskId ⟨true, table, .initialising n i, tenants⟩ .monitor =
        some ⟨true, table.modify ⟨i, hlt.trans_le hn⟩ initEntry, .initialising n (i + 1),
          tenants⟩ := by
      simp [step, monitorStep, hlt, hindex]
    rw [List.replicate_succ, run_cons, hstep, Option.bind_some, ih _ (by omega)]
    congr 2
    funext j
    rw [modify_apply]
    by_cases hj : j = ⟨i, hlt.trans_le hn⟩
    · have hval : j.val = i := congrArg Fin.val hj
      rw [if_neg (by omega), if_pos hj, if_pos (by omega), hj]
    · have hval : j.val ≠ i := fun h => hj (Fin.ext h)
      have hiff : i + 1 ≤ j.val ∧ j.val < n ↔ i ≤ j.val ∧ j.val < n := by omega
      simp only [hj, hiff, if_false]

/-- Without interruption the steps of a start-up are those of the monitor's `main`. -/
theorem run_startup (w : World ι) {file : Bytes} (h : monitorInit fl file = some table) :
    ∃ k n, run (step fl taskId) w (.start file :: List.replicate k .monitor) =
      some ⟨true, table, .started n, w.tenants⟩ := by
  simp only [monitorInit, Option.bind_eq_bind, Option.bind_eq_some_iff] at h
  obtain ⟨⟨loaded, n⟩, hload, h⟩ := h
  unfold initResource at h
  split_ifs at h with hn
  have htable := Option.some.inj h
  have hlines := run_loading fl taskId w.tenants hload
  have hentries := run_initialising fl taskId w.tenants
    (loaded.modify primary fun r =>
      { r with
        tb := .initTokenBucket fl initBandwidth burstSize
        requestTb := .initTokenBucket fl initRequestRate 64 }) hn (Nat.zero_add n)
  have hbuckets : run (step fl taskId) ⟨true, loaded, .loading [] n, w.tenants⟩
      (List.replicate 2 .monitor) = some ⟨true, loaded.modify primary fun r =>
        { r with
          tb := .initTokenBucket fl initBandwidth burstSize
          requestTb := .initTokenBucket fl initRequestRate 64 }, .initialising n 0, w.tenants⟩ := by
    simp [List.replicate_succ, run_cons, step, monitorStep, modify_modify]
  refine ⟨1 + ((fgetsAll 200 file).length + (2 + (n + 1))), n, ?_⟩
  rw [List.replicate_add, List.replicate_add, List.replicate_add, List.replicate_add,
    run_cons_eq_some]
  refine ⟨_, rfl, run_append_eq_some.mpr ⟨_, rfl, run_append_eq_some.mpr ⟨_, hlines, ?_⟩⟩⟩
  refine run_append_eq_some.mpr ⟨_, hbuckets, run_append_eq_some.mpr ⟨_, hentries, ?_⟩⟩
  simp only [List.replicate_one, run_cons, step, monitorStep, lt_irrefl, if_false, Option.map_some,
    Option.bind_some, run_nil, ← htable, Nat.zero_le, true_and, initEntry]

end Refinement

section Steps
variable {w w' : World ι} {e : Event ι}

theorem monitorStep_on {table table' : Table} {pc pc' : MonitorPc}
    (h : monitorStep fl table pc = some (table', pc')) (i : Fin tableSize) :
    (table' i).on = true ↔ (table i).on = true ∧ ¬ pc.Clears i := by
  have hkeep (hpc : ¬ pc.Clears i) (hon : (table' i).on = (table i).on) :
      (table' i).on = true ↔ (table i).on = true ∧ ¬ pc.Clears i := by
    rw [hon, and_iff_left hpc]
  cases pc with
  | down => cases h
  | mapped file =>
    obtain ⟨rfl, -⟩ := Prod.mk.inj (Option.some.inj h)
    simp [MonitorPc.Clears, Resource.zero]
  | loading lines nrTask =>
    cases lines with
    | nil =>
      obtain ⟨rfl, -⟩ := Prod.mk.inj (Option.some.inj h)
      exact hkeep id (modify_part Resource.on (by intro r; rfl) i)
    | cons line lines =>
      obtain ⟨s, hs, hpair⟩ := Option.map_eq_some_iff.mp h
      obtain ⟨rfl, -⟩ := Prod.mk.inj hpair
      obtain ⟨l, j, qos, -, -, -, -, rfl⟩ := loadLine_eq_some.mp hs
      exact hkeep id (modify_part Resource.on (by intro r; rfl) i)
  | loaded nrTask =>
    obtain ⟨rfl, -⟩ := Prod.mk.inj (Option.some.inj h)
    exact hkeep id (modify_part Resource.on (by intro r; rfl) i)
  | initialising nrTask j =>
    simp only [monitorStep] at h
    split_ifs at h with hj
    · obtain ⟨id, hid, hpair⟩ := Option.map_eq_some_iff.mp h
      obtain ⟨rfl, -⟩ := Prod.mk.inj hpair
      have hval : j = id.val := by exact_mod_cast tableIndex_eq_some hid
      by_cases hi : i = id
      · have hclears : (MonitorPc.initialising nrTask j).Clears i := ⟨hj, by rw [hi, hval]⟩
        simp [modify_apply, hi, initEntry, hi ▸ hclears]
      · have hne : j ≠ i.val := fun h => hi (Fin.ext (h.symm.trans hval))
        simp [modify_apply, hi, MonitorPc.Clears, hne]
    · obtain ⟨rfl, -⟩ := Prod.mk.inj (Option.some.inj h)
      exact hkeep (fun hc => hj hc.1) rfl
  | started nrTask =>
    obtain ⟨rfl, -⟩ := Prod.mk.inj (Option.some.inj h)
    exact hkeep id rfl

def TenantPc.entry : TenantPc → Option (Fin tableSize)
  | .idle => none
  | .opened id | .cached id | .attached id => some id

/-- Everything that one step of a tenant can do: before the last one it changes no mark, the
last one marks the entry that it has found. -/
theorem tenantStep_cases {task : Option Bytes} {created : Bool} {table table' : Table}
    {pc pc' : TenantPc} (h : tenantStep task created table pc = some (table', pc')) :
    (∀ i, pc'.entry = some i → pc.entry = some i ∨ taskIndex task = some i) ∧
      ((∀ i, (table' i).on = (table i).on) ∧ (∀ i, pc' = .attached i ↔ pc = .attached i) ∨
        ∃ id, pc = .cached id ∧ pc' = .attached id ∧
          ∀ i, (table' i).on = if i = id then true else (table i).on) := by
  cases pc with
  | idle =>
    simp only [tenantStep, Option.bind_eq_bind, Option.bind_eq_some_iff] at h
    obtain ⟨id, hid, h⟩ := h
    split_ifs at h
    obtain ⟨rfl, rfl⟩ := Prod.mk.inj (Option.some.inj h)
    exact ⟨fun i hi => Or.inr (hid.trans hi), Or.inl ⟨fun _ => rfl, by simp⟩⟩
  | opened id =>
    obtain ⟨rfl, rfl⟩ := Prod.mk.inj (Option.some.inj h)
    exact ⟨fun i hi => Or.inl hi,
      Or.inl ⟨modify_part Resource.on (by intro r; rfl), by simp⟩⟩
  | cached id =>
    obtain ⟨rfl, rfl⟩ := Prod.mk.inj (Option.some.inj h)
    refine ⟨fun i hi => Or.inl hi, Or.inr ⟨id, rfl, rfl, fun i => ?_⟩⟩
    rw [modify_apply, apply_ite Resource.on]
  | attached id =>
    obtain ⟨rfl, rfl⟩ := Prod.mk.inj (Option.some.inj h)
    exact ⟨fun i hi => Or.inl hi, Or.inl ⟨fun _ => rfl, fun _ => Iff.rfl⟩⟩

/-- Every tenant that has opened the table uses the entry of its own `TASK_ID`. -/
def Owned (taskId : ι → Option Bytes) (w : World ι) : Prop :=
  ∀ p i, (w.tenants p).entry = some i → taskIndex (taskId p) = some i

theorem step_owned (h : Owned taskId w) (hs : step fl taskId w e = some w') : Owned taskId w' := by
  cases e with
  | start file =>
    obtain rfl := Option.some.inj hs
    exact h
  | monitor =>
    obtain ⟨⟨table, pc⟩, -, rfl⟩ := Option.map_eq_some_iff.mp hs
    exact h
  | tenant p =>
    obtain ⟨⟨table, pc⟩, hstep, rfl⟩ := Option.map_eq_some_iff.mp hs
    obtain ⟨hentry, -⟩ := tenantStep_cases hstep
    intro q i hq
    by_cases hqp : q = p
    · subst hqp
      simp only [Function.update_self] at hq
      exact (hentry i hq).elim (h q i) id
    · simp only [Function.update_of_ne hqp] at hq
      exact h q i hq

/-- A step loses no registration exactly when it is undisturbed, and restores none. -/
theorem step_registered_iff (hd : Distinct taskId) (h : Owned taskId w)
    (hs : step fl taskId w e = some w') :
    Registered w' ↔ Registered w ∧ Undisturbed w e := by
  cases e with
  | start file =>
    obtain rfl := Option.some.inj hs
    exact (and_iff_left trivial).symm
  | monitor =>
    obtain ⟨⟨table, pc⟩, hstep, rfl⟩ := Option.map_eq_some_iff.mp hs
    simp only [Registered, Undisturbed, monitorStep_on hstep, imp_and, forall_and]
  | tenant p =>
    obtain ⟨⟨table, pc⟩, hstep, rfl⟩ := Option.map_eq_some_iff.mp hs
    refine Iff.trans ?_ (and_iff_left trivial).symm
    obtain ⟨-, ⟨hon, hatt⟩ | ⟨id, hcached, rfl, hon⟩⟩ := tenantStep_cases hstep
    · refine forall_congr' fun q => forall_congr' fun i => ?_
      rw [hon]
      by_cases hqp : q = p
      · subst hqp
        simp only [Function.update_self, hatt]
      · simp only [Function.update_of_ne hqp]
    · -- The entry that is marked belongs to no other tenant.
      refine forall_congr' fun q => forall_congr' fun i => ?_
      rw [hon]
      by_cases hqp : q = p
      · subst hqp
        simp only [Function.update_self, hcached]
        refine ⟨fun _ hi => (nomatch hi), fun _ hi => ?_⟩
        obtain rfl := TenantPc.attached.inj hi
        exact if_pos rfl
      · have hne (hi : w.tenants q = .attached i) : i ≠ id := by
          rintro rfl
          exact hqp (hd q p i (h q i (by rw [hi, TenantPc.entry]))
            (h p i (by rw [hcached, TenantPc.entry])))
        simp only [Function.update_of_ne hqp]
        exact forall_congr' fun hi => by rw [if_neg (hne hi)]

end Steps

/-- However the start-ups of the monitor and the attachments interleave, every tenant that has
attached is marked in the table exactly when no step of the monitor cleared the entry of a
tenant that had attached before. -/
theorem registered_iff {w : World ι} {es : List (Event ι)} (hd : Distinct taskId)
    (hr : run (step fl taskId) initial es = some w) :
    Registered w ↔ Meets (step fl taskId) Undisturbed initial es := by
  have hown : Owned taskId (initial : World ι) := fun _ _ h => nomatch h
  have hnone : Registered (initial : World ι) := fun _ _ h => nomatch h
  have hstep (w : World ι) (e : Event ι) (w' : World ι) (ho : Owned taskId w)
      (hs : step fl taskId w e = some w') :
      Owned taskId w' ∧ (Registered w' ↔ Registered w ∧ Undisturbed w e) :=
    ⟨step_owned ho hs, step_registered_iff hd ho hs⟩
  rw [run_iff_meets hstep hown hr, and_iff_right hnone]

/-- The task ids of two tenants. -/
def twoTenants : Bool → Option Bytes
  | false => some [48]
  | true => some [49]

/-- The monitor starts with the file `"0 a latency 1\n1 b secondary 0\n"`; the tenants attach
when it is done. -/
def attachLate : List (Event Bool) :=
  .start twoTasks :: List.replicate 8 .monitor ++
    [.tenant false, .tenant true, .tenant false, .tenant true, .tenant false, .tenant true]

theorem registered_iff_attachLate :
    ∃ w, run (step id twoTenants) initial attachLate = some w ∧ w.monitor = .started 2 ∧
      w.tenants true = .attached 1 ∧ Registered w := by
  have hrun : ((run (step id twoTenants) initial attachLate).any fun w =>
      w.monitor = .started 2 ∧ w.tenants true = .attached 1) = true := by decide +kernel
  obtain ⟨w, hw, hend⟩ := (Option.any_eq_true _ _).mp hrun
  obtain ⟨hstarted, hattached⟩ := of_decide_eq_true hend
  have hd : Distinct twoTenants := by unfold Distinct; decide +kernel
  exact ⟨w, hw, hstarted, hattached, (registered_iff hd hw).mpr (by decide +kernel)⟩

/-- Task 1 opens the table as soon as it exists and has attached when its entry is cleared. -/
def attachEarly : List (Event Bool) :=
  [.start twoTasks, .monitor, .tenant true, .tenant true, .tenant true] ++
    List.replicate 7 .monitor

/-- In both runs the monitor has started and task 1 has attached, but its entry is not marked:
`init_resource` cleared it, or a second start of the monitor did. -/
theorem registration_lost :
    ((run (step id twoTenants) initial attachEarly).any fun w =>
      w.monitor = .started 2 ∧ w.tenants true = .attached 1 ∧ (w.table 1).on = false) ∧
    ((run (step id twoTenants) initial
        (attachLate ++ .start twoTasks :: List.replicate 8 .monitor)).any fun w =>
      w.monitor = .started 2 ∧ w.tenants true = .attached 1 ∧ (w.table 1).on = false) := by
  decide +kernel

end RdmaperfIso.Registration
