import RdmaperfIso.Monitor.Config

/-! Which configuration files the loading loop of the monitor survives, and when the entries
that it wrote are those that the monitor visits afterwards. -/
namespace RdmaperfIso.Loader
open CString Run Table Config

/-- A line with all the tokens that the loop reads from it, and an id inside the table. -/
def WellFormed (line : Bytes) : Prop :=
  cstr line ≠ [] ∧ ∃ id name word rest,
    words 32 (cstr line).dropLast = id :: name :: word :: rest ∧ 0 ≤ atoi id ∧
      atoi id < tableSize ∧ (atoi id = 0 → word = latencyWord → rest ≠ [])

/-- The loop has a result, and the entries that it wrote are the first `nr_task` ones. -/
def Safe (file : Bytes) : Prop :=
  ∃ s, loadConfig file = some s ∧ s.nrTask ≤ tableSize ∧
    ∀ i, s.table i ≠ .zero ↔ i.val < s.nrTask

section Line
variable {s s' : Loaded} {line str : Bytes} {l : Line} {i : Fin tableSize}

theorem parseLine_words (h : parseLine line = some l) :
    ∃ str w, lineString line = some str ∧
      words 32 str = w :: l.name :: l.word :: words 32 l.rest ∧ l.id = atoi w := by
  simp only [parseLine, Option.bind_eq_bind, Option.bind_eq_some_iff] at h
  obtain ⟨str, hstr, ⟨w₁, r₁⟩, h₁, ⟨w₂, r₂⟩, h₂, ⟨w₃, r₃⟩, h₃, h⟩ := h
  obtain rfl := Option.some.inj h
  refine ⟨str, w₁, hstr, ?_, rfl⟩
  rw [words_of_strtok h₁, words_of_strtok h₂, words_of_strtok h₃]

theorem parseLine_of_words {w₁ w₂ w₃ : Bytes} {ws : List Bytes} (hstr : lineString line = some str)
    (hw : words 32 str = w₁ :: w₂ :: w₃ :: ws) :
    ∃ rest, parseLine line = some ⟨atoi w₁, w₂, w₃, rest⟩ ∧ words 32 rest = ws := by
  obtain ⟨r₁, h₁, hr₁⟩ := strtok_of_words hw
  obtain ⟨r₂, h₂, hr₂⟩ := strtok_of_words hr₁
  obtain ⟨r₃, h₃, hr₃⟩ := strtok_of_words hr₂
  exact ⟨r₃, by simp [parseLine, hstr, h₁, h₂, h₃], hr₃⟩

theorem lineString_eq_some : lineString line = some str ↔
    cstr line ≠ [] ∧ (cstr line).dropLast = str := by
  by_cases h : cstr line = [] <;> simp [lineString, h]

theorem lineType_eq_latency {word : Bytes} :
    lineType i word = .latency ↔ (i.val : ℤ) = 0 ∧ word = latencyWord := by
  have hi : (i.val : ℤ) = 0 ↔ i = primary := by
    rw [Int.natCast_eq_zero]
    exact (Fin.ext_iff (b := primary)).symm
  rw [hi]
  by_cases h : i = primary <;> by_cases hw : word = latencyWord <;> simp [lineType, h, hw]

theorem lineQos_eq_some_iff {type : TaskType} {rest : Bytes} {old : ℕ} :
    (∃ qos, lineQos type rest old = some qos) ↔ (type = .latency → words 32 rest ≠ []) := by
  by_cases ht : type = .latency
  · obtain ⟨hnone, hnil⟩ | ⟨w, r, hsome, hwords⟩ := strtok_words 32 rest
    · simp [lineQos, ht, hnone, hnil]
    · simp [lineQos, ht, hsome, hwords]
  · simp [lineQos, ht]

/-- A line has a result exactly when it is well formed and the counter does not overflow. -/
theorem loadLine_iff :
    (∃ s', loadLine s line = some s') ↔ WellFormed line ∧ s.nrTask + 1 < 2 ^ 31 := by
  constructor
  · rintro ⟨s', h⟩
    obtain ⟨l, i, qos, hl, hi, hqos, hnr, -⟩ := loadLine_eq_some.mp h
    obtain ⟨str, w, hstr, hw, hid⟩ := parseLine_words hl
    obtain ⟨hne, rfl⟩ := lineString_eq_some.mp hstr
    have hval : atoi w = i.val := hid ▸ tableIndex_eq_some hi
    have hlt := i.isLt
    refine ⟨⟨hne, w, l.name, l.word, _, hw, by omega, by omega, fun hz hword => ?_⟩, hnr⟩
    exact lineQos_eq_some_iff.mp ⟨qos, hqos⟩ (lineType_eq_latency.mpr ⟨hval ▸ hz, hword⟩)
  · rintro ⟨⟨hne, w, name, word, ws, hw, h0, h1, hqos⟩, hnr⟩
    obtain ⟨rest, hl, rfl⟩ := parseLine_of_words (lineString_eq_some.mpr ⟨hne, rfl⟩) hw
    obtain ⟨i, hi⟩ : ∃ i, tableIndex (atoi w) = some i := ⟨_, dif_pos ⟨h0, h1⟩⟩
    obtain ⟨qos, hq⟩ : ∃ qos, lineQos (lineType i word) rest (s.table i).stat.qos = some qos := by
      rw [lineQos_eq_some_iff, lineType_eq_latency, ← tableIndex_eq_some hi]
      exact fun hlat => hqos hlat.1 hlat.2
    exact ⟨_, loadLine_eq_some.mpr ⟨_, i, qos, hl, hi, hq, hnr, rfl⟩⟩

/-- A loaded line counts one task and writes the entry that it names, and no other. -/
theorem loadLine_written (h : loadLine s line = some s') :
    s'.nrTask = s.nrTask + 1 ∧
      (s'.table i ≠ .zero ↔ lineId line = some (i.val : ℤ) ∨ s.table i ≠ .zero) := by
  obtain ⟨l, j, qos, hl, hj, -, -, rfl⟩ := loadLine_eq_some.mp h
  obtain ⟨str, w, -, hw, -⟩ := parseLine_words hl
  have hname : l.name ∈ words 32 str := by simp [hw]
  refine ⟨rfl, ?_⟩
  simp only [parseLine_id hl, Option.some.injEq, tableIndex_eq_some hj, modify_apply]
  by_cases hij : i = j
  · simp only [hij, if_true, true_or, iff_true]
    -- A name is never empty, so the entry no longer reads as zero bytes.
    intro hzero
    have htake : l.name.take 39 = [] := congrArg Resource.taskName hzero
    simp [ne_nil_of_mem_words hname] at htake
  · have hne : ¬ (j.val : ℤ) = i.val := fun h => hij (Fin.ext (by omega))
    simp only [hij, hne, if_false, false_or]

end Line

section Load
variable {s s' : Loaded} {lines : List Bytes} {i : Fin tableSize}

theorem load_written (h : run loadLine s lines = some s') :
    s'.nrTask = s.nrTask + lines.length ∧
      (s'.table i ≠ .zero ↔ (i.val : ℤ) ∈ lines.filterMap lineId ∨ s.table i ≠ .zero) := by
  induction lines generalizing s with
  | nil =>
    obtain rfl := Option.some.inj h
    simp
  | cons line lines ih =>
    obtain ⟨u, hu, hrest⟩ := run_cons_eq_some.mp h
    obtain ⟨hcount, hwritten⟩ := ih hrest
    obtain ⟨hone, hline⟩ := loadLine_written (i := i) hu
    refine ⟨by rw [hcount, hone, List.length_cons]; omega, ?_⟩
    rw [hwritten, hline]
    cases hid : lineId line with
    | none => simp [hid]
    | some j => simp [hid, or_assoc, or_left_comm, eq_comm]

theorem load_wellFormed (h : run loadLine s lines = some s') : ∀ line ∈ lines, WellFormed line := by
  induction lines generalizing s with
  | nil => simp
  | cons line lines ih =>
    obtain ⟨u, hu, hrest⟩ := run_cons_eq_some.mp h
    rw [List.forall_mem_cons]
    exact ⟨(loadLine_iff.mp ⟨u, hu⟩).1, ih hrest⟩

theorem load_total (hlines : ∀ line ∈ lines, WellFormed line)
    (hn : s.nrTask + lines.length < 2 ^ 31) : ∃ s', run loadLine s lines = some s' := by
  induction lines generalizing s with
  | nil => exact ⟨s, rfl⟩
  | cons line lines ih =>
    rw [List.forall_mem_cons] at hlines
    rw [List.length_cons] at hn
    obtain ⟨u, hu⟩ := (loadLine_iff (s := s)).mpr ⟨hlines.1, by omega⟩
    have hcount := (loadLine_written (i := primary) hu).1
    obtain ⟨s', hrun⟩ := ih (s := u) hlines.2 (by omega)
    exact ⟨s', run_cons_eq_some.mpr ⟨u, hu, hrun⟩⟩

theorem lineId_lt {line : Bytes} {id : ℤ} (h : WellFormed line) (hid : lineId line = some id) :
    id < tableSize := by
  obtain ⟨hne, w, name, word, ws, hw, -, hlt, -⟩ := h
  obtain ⟨rest, hl, -⟩ := parseLine_of_words (lineString_eq_some.mpr ⟨hne, rfl⟩) hw
  obtain rfl := Option.some.inj ((parseLine_id hl).symm.trans hid)
  exact hlt

end Load

/-- The ids of the lines are the numbers below the number of lines, each once. -/
def Contiguous (file : Bytes) : Prop :=
  (ids file).Perm ((List.range (fgetsAll 200 file).length).map Nat.cast)

theorem mem_range_cast {i n : ℕ} : (i : ℤ) ∈ (List.range n).map Nat.cast ↔ i < n := by simp

theorem length_le_of_contiguous {file : Bytes}
    (hlines : ∀ line ∈ fgetsAll 200 file, WellFormed line) (hids : Contiguous file) :
    (fgetsAll 200 file).length ≤ tableSize := by
  by_contra hn
  have hmem : (tableSize : ℤ) ∈ ids file := hids.mem_iff.mpr (mem_range_cast.mpr (not_le.mp hn))
  obtain ⟨line, hline, hid⟩ := List.mem_filterMap.mp hmem
  exact absurd (lineId_lt (hlines line hline) hid) (lt_irrefl _)

/-- The loading loop is safe on exactly the files whose lines are well formed and whose ids are
contiguous from zero. -/
theorem safe_iff (file : Bytes) :
    Safe file ↔ (∀ line ∈ fgetsAll 200 file, WellFormed line) ∧ Contiguous file := by
  constructor
  · rintro ⟨s, hs, hn, hvisited⟩
    refine ⟨load_wellFormed hs, ?_⟩
    have hcount : s.nrTask = (fgetsAll 200 file).length :=
      (load_written (i := primary) hs).1.trans (Nat.zero_add _)
    rw [hcount] at hn hvisited
    have hsubset : (List.range (fgetsAll 200 file).length).map Nat.cast ⊆ ids file := by
      intro id hid
      obtain ⟨i, hi, rfl⟩ := List.mem_map.mp hid
      have hlt := List.mem_range.mp hi
      have hwritten := (load_written (i := ⟨i, by omega⟩) hs).2.mp ((hvisited _).mpr hlt)
      exact hwritten.resolve_right fun hzero => hzero rfl
    have hnodup : ((List.range (fgetsAll 200 file).length).map (Nat.cast : ℕ → ℤ)).Nodup :=
      List.nodup_range.map Nat.cast_injective
    -- Every number below the number of lines is an id, so no id occurs twice.
    refine ((List.subperm_of_subset hnodup hsubset).perm_of_length_le ?_).symm
    rw [List.length_map, List.length_range]
    exact List.length_filterMap_le _ _
  · rintro ⟨hlines, hids⟩
    have hn := length_le_of_contiguous hlines hids
    have hfew : 0 + (fgetsAll 200 file).length < 2 ^ 31 := by unfold tableSize at hn; omega
    obtain ⟨s, hs⟩ := load_total (s := ⟨fun _ => .zero, 0⟩) hlines hfew
    have hcount : s.nrTask = (fgetsAll 200 file).length :=
      (load_written (i := primary) hs).1.trans (Nat.zero_add _)
    refine ⟨s, hs, hcount.trans_le hn, fun i => ?_⟩
    rw [(load_written hs).2, hcount, ← mem_range_cast, ← hids.mem_iff]
    exact or_iff_left fun hzero => hzero rfl

/-- A blank line has no token for `atoi`, a line that starts with NUL no byte before its end;
with a repeated id the monitor visits an entry that was never written, and with a gap it does
not visit one that was. -/
theorem malformed_files_fail :
    loadConfig [10] = none ∧ loadConfig [0, 10] = none ∧
    ((loadConfig [48, 32, 97, 32, 115, 32, 10, 48, 32, 97, 32, 115, 32, 10]).any fun s =>
      s.nrTask = 2 ∧ (s.table 1).taskName = []) ∧
    ((loadConfig [49, 32, 97, 32, 115, 32, 10]).any fun s =>
      s.nrTask = 1 ∧ (s.table 1).taskName = [97]) ∧
    ¬ Safe [10] := by
  have hblank : loadConfig [10] = none := by decide +kernel
  refine ⟨hblank, by decide +kernel, by decide +kernel, by decide +kernel, ?_⟩
  rintro ⟨s, hs, -⟩
  rw [hblank] at hs
  cases hs

end RdmaperfIso.Loader
