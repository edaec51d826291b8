import RdmaperfIso.Monitor.Reservation
import RdmaperfIso.Verbs.PostSend

/-! Start-up of the monitor: the table is cleared, filled from the configuration file line
by line, and completed by `init_resource`. A line that makes the C code read through a
missing token or write outside the table or its line buffer has no result. -/
namespace RdmaperfIso.Config
open FixedWidth CString Run Table

/-- The byte string `"latency"`. -/
def latencyWord : Bytes := [108, 97, 116, 101, 110, 99, 121]

def initBandwidth : ℕ := 1000000000

/-- `BURST_SIZE`, in bytes. -/
def burstSize : ℕ := 8 * 2 ^ 20

def initRequestRate : ℕ := 4000000

/-- The table and `t_info.nr_task`. -/
structure Loaded where
  table : Table
  nrTask : ℕ

/-- The tokens of a line: `rest` is what follows the third one. -/
structure Line where
  id : ℤ
  name : Bytes
  word : Bytes
  rest : Bytes
  deriving DecidableEq

/-- The string that `strtok` is called on. The last byte is dropped whether or not it is a
newline; an empty string has none, and the store before the buffer is undefined. -/
def lineString (line : Bytes) : Option Bytes :=
  if cstr line = [] then none else some (cstr line).dropLast

/-- A missing token is a null pointer to `atoi`, `strncpy` or `strcmp`. -/
def parseLine (line : Bytes) : Option Line := do
  let str ← lineString line
  let t₁ ← strtok 32 str
  let t₂ ← strtok 32 t₁.2
  let t₃ ← strtok 32 t₂.2
  some ⟨atoi t₁.1, t₂.1, t₃.1, t₃.2⟩

/-- The task id of a line, where it has a first token. -/
def lineId (line : Bytes) : Option ℤ :=
  (lineString line).bind fun str => (strtok 32 str).map fun tok => atoi tok.1

/-- The type word of task 0 decides; every other task is secondary. -/
def lineType (i : Fin tableSize) (word : Bytes) : TaskType :=
  if i ≠ primary then .secondary else if word = latencyWord then .latency else .secondary

/-- Only a latency task has its quality of service read. -/
def lineQos (type : TaskType) (rest : Bytes) (old : ℕ) : Option ℕ :=
  if type = .latency then (strtok 32 rest).map fun tok => wrap 32 (strtoull tok.1) else some old

/-- One iteration of the loop over the file, on the bytes that `fgets` read. -/
def loadLine (s : Loaded) (line : Bytes) : Option Loaded := do
  let l ← parseLine line
  let i ← tableIndex l.id
  let qos ← lineQos (lineType i l.word) l.rest (s.table i).stat.qos
  if s.nrTask + 1 < 2 ^ 31 then
    some
      { table := s.table.modify i fun r =>
          { r with
            taskName := l.name.take 39
            type := lineType i l.word
            stat := { r.stat with qos := qos }
            cacheLimit := false }
        nrTask := s.nrTask + 1 }
  else none

/-- The loop over all lines, from a table of zero bytes. -/
def loadConfig (file : Bytes) : Option Loaded :=
  run loadLine ⟨fun _ => .zero, 0⟩ (fgetsAll 200 file)

/-- `init_resource` visits the first `nr_task` entries. -/
def initResource (s : Loaded) : Option Table :=
  if s.nrTask ≤ tableSize then
    some fun i =>
      if i.val < s.nrTask then
        { s.table i with allocatedBandwidth := initBandwidth, allocatedQps := 50, on := false }
      else s.table i
  else none

/-- The start-up part of the monitor's `main`. -/
def monitorInit (fl : ℚ → ℚ) (file : Bytes) : Option Table := do
  let s ← loadConfig file
  initResource
    { s with
      table := s.table.modify primary fun r =>
        { r with
          tb := .initTokenBucket fl initBandwidth burstSize
          requestTb := .initTokenBucket fl initRequestRate 64 } }

/-- The ids of the lines of a file. -/
def ids (file : Bytes) : List ℤ := (fgetsAll 200 file).filterMap lineId

/-- What happens to the table after start-up. -/
inductive Event where
  | attach (taskId : Option Bytes)
  | reportLatency (myRes : Fin tableSize) (median tail timeStamp : ℕ)
  | reportBw (myRes : Fin tableSize) (bandwidth : ℕ)
  | networkMonitor
  deriving DecidableEq

def step (fl : ℚ → ℚ) (table : Table) : Event → Option Table
  | .attach taskId => (table.ibverbsInit taskId).map Prod.fst
  | .reportLatency myRes median tail timeStamp =>
    some (table.reportLatency myRes median tail timeStamp)
  | .reportBw myRes bandwidth => some (table.reportBw myRes bandwidth)
  | .networkMonitor => Reservation.networkMonitor fl table

section Types
variable {s s' : Loaded} {t : Fin tableSize}

theorem parseLine_id {line : Bytes} {l : Line} (h : parseLine line = some l) :
    lineId line = some l.id := by
  simp only [parseLine, Option.bind_eq_bind, Option.bind_eq_some_iff] at h
  obtain ⟨str, hstr, t₁, ht₁, t₂, -, t₃, -, h⟩ := h
  obtain rfl := Option.some.inj h
  simp [lineId, hstr, ht₁]

/-- Everything that one line can do. -/
theorem loadLine_eq_some {line : Bytes} : loadLine s line = some s' ↔
    ∃ l i qos, parseLine line = some l ∧ tableIndex l.id = some i ∧
      lineQos (lineType i l.word) l.rest (s.table i).stat.qos = some qos ∧
      s.nrTask + 1 < 2 ^ 31 ∧ s' =
        { table := s.table.modify i fun r =>
            { r with
              taskName := l.name.take 39
              type := lineType i l.word
              stat := { r.stat with qos := qos }
              cacheLimit := false }
          nrTask := s.nrTask + 1 } := by
  constructor
  · intro h
    simp only [loadLine, Option.bind_eq_bind, Option.bind_eq_some_iff] at h
    obtain ⟨l, hl, i, hi, qos, hqos, h⟩ := h
    split_ifs at h with hnr
    exact ⟨l, i, qos, hl, hi, hqos, hnr, (Option.some.inj h).symm⟩
  · rintro ⟨l, i, qos, hl, hi, hqos, hnr, rfl⟩
    simp only [loadLine, hl, hi, hqos, Option.bind_eq_bind, Option.bind_some, if_pos hnr]

/-- A loaded line stores `secondary` in the entry that it names, unless that is entry 0,
and leaves the types of all other entries alone. -/
theorem loadLine_type {line : Bytes} (h : loadLine s line = some s') (ht : t ≠ primary) :
    (s'.table t).type =
      if lineId line = some (t.val : ℤ) then .secondary else (s.table t).type := by
  obtain ⟨l, i, qos, hl, hi, -, -, rfl⟩ := loadLine_eq_some.mp h
  simp only [parseLine_id hl, Option.some.injEq, tableIndex_eq_some hi, modify_apply]
  by_cases hit : t = i
  · simp only [hit, if_true]
    exact if_pos (hit ▸ ht)
  · have hne : ¬ (i.val : ℤ) = t.val := by
      intro hid
      exact hit (Fin.ext (by exact_mod_cast hid.symm))
    simp only [hit, hne, if_false]

theorem load_type {lines : List Bytes} (h : run loadLine s lines = some s') (ht : t ≠ primary) :
    (s'.table t).type =
      if (t.val : ℤ) ∈ lines.filterMap lineId then .secondary else (s.table t).type := by
  induction lines generalizing s with
  | nil =>
    obtain rfl := Option.some.inj h
    simp
  | cons line lines ih =>
    obtain ⟨u, hu, hrest⟩ := run_cons_eq_some.mp h
    rw [ih hrest, loadLine_type hu ht]
    cases hid : lineId line with
    | none => simp [hid]
    | some i =>
      by_cases hi : i = (t.val : ℤ)
      · simp [hid, hi]
      · simp [hid, hi, Ne.symm hi]

theorem initResource_type {table : Table} (h : initResource s = some table) :
    (table t).type = (s.table t).type := by
  unfold initResource at h
  split_ifs at h with hnr
  obtain rfl := Option.some.inj h
  by_cases ht : t.val < s.nrTask <;> simp [ht]

/-- After start-up the entries other than the first are throttled exactly where the file
names them; the others read as zero bytes. -/
theorem monitorInit_type {fl : ℚ → ℚ} {file : Bytes} {table : Table}
    (h : monitorInit fl file = some table) (ht : t ≠ primary) :
    (table t).type = if (t.val : ℤ) ∈ ids file then .secondary else .latency := by
  simp only [monitorInit, Option.bind_eq_bind, Option.bind_eq_some_iff] at h
  obtain ⟨u, hu, h⟩ := h
  rw [initResource_type h, modify_type (by intro r; rfl)]
  exact load_type hu ht

theorem step_type {fl : ℚ → ℚ} {table table' : Table} (e : Event)
    (h : step fl table e = some table') : (table' t).type = (table t).type := by
  cases e with
  | attach taskId =>
    simp only [step, ibverbsInit, Option.bind_eq_bind, Option.map_eq_some_iff,
      Option.bind_eq_some_iff] at h
    obtain ⟨p, ⟨str, -, id, -, hp⟩, rfl⟩ := h
    obtain rfl := Option.some.inj hp
    exact modify_type (by intro r; rfl) t
  | reportLatency myRes median tail timeStamp =>
    obtain rfl := Option.some.inj h
    exact modify_type (by intro r; rfl) t
  | reportBw myRes bandwidth =>
    obtain rfl := Option.some.inj h
    exact modify_type (by intro r; rfl) t
  | networkMonitor =>
    obtain ⟨rate, -, rfl⟩ := Option.map_eq_some_iff.mp h
    exact modify_type (by intro r; rfl) t

theorem run_type {fl : ℚ → ℚ} {table table' : Table} {es : List Event}
    (h : run (step fl) table es = some table') : (table' t).type = (table t).type := by
  have hall : Meets (step fl) (fun _ _ => True) table es := meets_of_forall fun _ _ => trivial
  exact run_invariant (P := fun u => (u t).type = (table t).type)
    (fun u e u' hu _ hs => (step_type e hs).trans hu) rfl hall h

end Types

/-- Every call of `ibv_post_send` of a task of this type waits for both kinds of tokens. -/
def Throttled (type : TaskType) : Prop :=
  ∀ qp wrs, ∃ start tokens start', PostSend.ibvPostSend type qp wrs =
    [.waitForRequestToken start, .waitForToken tokens start', .postSend wrs]

theorem throttled_secondary : Throttled .secondary := by
  intro qp wrs
  exact ⟨_, _, _, by rw [PostSend.ibvPostSend, if_pos rfl]⟩

/-- A process that attaches as a task other than 0, at any time after start-up, is
throttled for as long as it runs exactly when the configuration file names its id. -/
theorem throttled_iff {fl : ℚ → ℚ} {file : Bytes} {table₀ table₁ table₂ table₃ : Table}
    (before after : List Event) {taskId : Option Bytes} {id : Fin tableSize}
    (hinit : monitorInit fl file = some table₀)
    (hbefore : run (step fl) table₀ before = some table₁)
    (hattach : table₁.ibverbsInit taskId = some (table₂, id)) (hid : id ≠ primary)
    (hafter : run (step fl) table₂ after = some table₃) :
    (table₃.myTaskType id = .secondary ∧ Throttled (table₃.myTaskType id)) ↔
      (id.val : ℤ) ∈ ids file := by
  have hstep : step fl table₁ (.attach taskId) = some table₂ := by simp [step, hattach]
  have htype : table₃.myTaskType id =
      if (id.val : ℤ) ∈ ids file then .secondary else .latency := by
    rw [myTaskType, run_type hafter, step_type _ hstep, run_type hbefore,
      monitorInit_type hinit hid]
  rw [htype]
  split_ifs with h
  · exact ⟨fun _ => h, fun _ => ⟨rfl, throttled_secondary⟩⟩
  · exact ⟨fun hs => absurd hs.1 (by decide), fun hs => absurd hs h⟩

/-- The file `"0 a latency 1\n1 b secondary 0\n"`. -/
def twoTasks : Bytes :=
  [48, 32, 97, 32, 108, 97, 116, 101, 110, 99, 121, 32, 49, 10,
    49, 32, 98, 32, 115, 101, 99, 111, 110, 100, 97, 114, 121, 32, 48, 10]

theorem throttled_iff_twoTasks :
    ∃ table₀ table₂, monitorInit id twoTasks = some table₀ ∧
      table₀.ibverbsInit (some [49]) = some (table₂, 1) ∧ Throttled (table₂.myTaskType 1) := by
  have hrun : ((monitorInit id twoTasks).bind fun t => t.ibverbsInit (some [49])).map Prod.snd =
      some 1 := by decide +kernel
  have hids : ((1 : Fin tableSize).val : ℤ) ∈ ids twoTasks := by decide +kernel
  simp only [Option.map_eq_some_iff, Option.bind_eq_some_iff] at hrun
  obtain ⟨⟨table₂, i⟩, ⟨table₀, h₀, h₂⟩, rfl⟩ := hrun
  have h := (throttled_iff [] [] h₀ rfl h₂ (by decide) rfl).mpr hids
  exact ⟨table₀, table₂, h₀, h₂, h.2⟩

/-- With the same file, a process that attaches as task 2 is a latency task, and its
requests go to the provider at once. -/
theorem unlisted_task_not_throttled :
    ∃ table₀ table₂, monitorInit id twoTasks = some table₀ ∧
      table₀.ibverbsInit (some [50]) = some (table₂, 2) ∧ table₂.myTaskType 2 = .latency ∧
      PostSend.ibvPostSend (table₂.myTaskType 2) ⟨0, 0⟩ [] = [.postSend []] := by
  have hrun : ((monitorInit id twoTasks).bind fun t => t.ibverbsInit (some [50])).map
      (fun p => (p.2, p.1.myTaskType p.2)) = some (2, .latency) := by decide +kernel
  simp only [Option.map_eq_some_iff, Option.bind_eq_some_iff] at hrun
  obtain ⟨⟨table₂, i⟩, ⟨table₀, h₀, h₂⟩, hi⟩ := hrun
  obtain ⟨rfl, htype⟩ := Prod.mk.inj hi
  exact ⟨table₀, table₂, h₀, h₂, htype, by rw [htype]; rfl⟩

end RdmaperfIso.Config
