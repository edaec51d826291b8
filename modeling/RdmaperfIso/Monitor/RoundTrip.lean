import RdmaperfIso.Monitor.Loader

/-! Configuration files written from task records, and what the monitor loads from them. -/
namespace RdmaperfIso.RoundTrip
open FixedWidth CString Run Table Config Loader

structure Record where
  id : ℕ
  name : Bytes
  latency : Bool
  qos : ℕ
  deriving DecidableEq

namespace Record

/-- The byte string `"secondary"`. -/
def secondaryWord : Bytes := [115, 101, 99, 111, 110, 100, 97, 114, 121]

def word (r : Record) : Bytes := if r.latency then latencyWord else secondaryWord

/-- The line `<id> <name> <type> <qos>` without its end. -/
def body (r : Record) : Bytes :=
  decimal r.id ++ 32 :: (r.name ++ 32 :: (r.word ++ 32 :: decimal r.qos))

/-- A record that a line can hold. -/
structure Valid (r : Record) : Prop where
  name_ne : r.name ≠ []
  name_le : r.name.length ≤ 39
  no_space : 32 ∉ r.name
  no_newline : 10 ∉ r.name
  no_nul : 0 ∉ r.name
  qos_lt : r.qos < 2 ^ 32

/-- The task whose latency target the loop reads. -/
def Primary (r : Record) : Prop := r.id = 0 ∧ r.latency = true

instance (r : Record) : Decidable r.Primary := inferInstanceAs (Decidable (_ ∧ _))

/-- What a record stores in its entry. -/
def entry (r : Record) (x : Resource) : Resource :=
  { x with
    taskName := r.name
    type := if r.Primary then .latency else .secondary
    stat := { x.stat with qos := if r.Primary then r.qos else 0 }
    cacheLimit := false }

end Record

/-- One line a record; only the last one may lack its newline. -/
def lines (terminated : Bool) : List Record → List Bytes
  | [] => []
  | [r] => [r.body ++ if terminated then [10] else []]
  | r :: q :: rs => (r.body ++ [10]) :: lines terminated (q :: rs)

def text (terminated : Bool) (records : List Record) : Bytes := (lines terminated records).flatten

/-- The loaded table holds the records. -/
structure Holds (records : List Record) (s : Loaded) : Prop where
  nrTask : s.nrTask = records.length
  entry : ∀ r ∈ records, ∃ i : Fin tableSize, i.val = r.id ∧ (s.table i).taskName = r.name ∧
    (s.table i).type = (if r.Primary then .latency else .secondary) ∧
    (s.table i).stat.qos = if r.Primary then r.qos else 0

def RoundTrips (terminated : Bool) (records : List Record) : Prop :=
  ∃ s, loadConfig (text terminated records) = some s ∧ Holds records s

section Body
variable {r : Record} {c : UInt8}

theorem not_mem_decimal (h : isdigit c = false) (n : ℕ) : c ∉ decimal n := by
  intro hc
  rw [isdigit_of_mem_decimal hc] at h
  cases h

theorem not_mem_word (h : c ∉ latencyWord ++ Record.secondaryWord) : c ∉ r.word := by
  rw [List.mem_append, not_or] at h
  unfold Record.word
  split_ifs
  · exact h.1
  · exact h.2

theorem word_ne_nil (r : Record) : r.word ≠ [] := by
  unfold Record.word
  split_ifs <;> decide

/-- A byte that no field contains is not in the line. -/
theorem not_mem_body (hdigit : isdigit c = false) (hspace : c ≠ 32) (hname : c ∉ r.name)
    (hword : c ∉ latencyWord ++ Record.secondaryWord) : c ∉ r.body := by
  simp only [Record.body, List.mem_append, List.mem_cons, not_or]
  exact ⟨not_mem_decimal hdigit _, hspace, hname, hspace, not_mem_word hword, hspace,
    not_mem_decimal hdigit _⟩

theorem newline_not_mem_body (h : r.Valid) : 10 ∉ r.body :=
  not_mem_body (by decide) (by decide) h.no_newline (by decide)

theorem nul_not_mem_body (h : r.Valid) : 0 ∉ r.body :=
  not_mem_body (by decide) (by decide) h.no_nul (by decide)

theorem body_length_le (h : r.Valid) (hid : r.id < tableSize) : r.body.length + 2 ≤ 200 := by
  have hidlen := length_decimal_le (n := r.id) (k := 1) (by unfold tableSize at hid; omega)
  have hqoslen := length_decimal_le (n := r.qos) (k := 9) (by have := h.qos_lt; omega)
  have hword : r.word.length ≤ 9 := by
    unfold Record.word
    split_ifs <;> decide
  have hname := h.name_le
  simp only [Record.body, List.length_append, List.length_cons]
  omega

/-- The words of a line whose last field has become `t`. -/
theorem words_fields (h : r.Valid) (t : Bytes) :
    words 32 (decimal r.id ++ 32 :: (r.name ++ 32 :: (r.word ++ 32 :: t))) =
      decimal r.id :: r.name :: r.word :: words 32 t := by
  rw [words_append (not_mem_decimal (by decide) _) (decimal_ne_nil _),
    words_append h.no_space h.name_ne, words_append (not_mem_word (by decide)) (word_ne_nil r)]

theorem cstr_eq_self {s : Bytes} (h : 0 ∉ s) : cstr s = s := by
  rw [cstr, List.takeWhile_eq_self_iff]
  intro c hc
  simpa using fun hz : c = 0 => h (hz ▸ hc)

theorem lineString_newline (h : r.Valid) : lineString (r.body ++ [10]) = some r.body := by
  have hnul : 0 ∉ r.body ++ [10] := by
    rw [List.mem_append, not_or]
    exact ⟨nul_not_mem_body h, by decide⟩
  rw [lineString_eq_some, cstr_eq_self hnul]
  simp

/-- Without a newline the last digit of the line is lost. -/
theorem lineString_end (h : r.Valid) : lineString r.body =
    some (decimal r.id ++ 32 :: (r.name ++ 32 :: (r.word ++ 32 :: (decimal r.qos).dropLast))) := by
  rw [lineString_eq_some, cstr_eq_self (nul_not_mem_body h)]
  refine ⟨by simp [Record.body], ?_⟩
  have hq := decimal_ne_nil r.qos
  simp [Record.body, List.dropLast_append_of_ne_nil, List.dropLast_cons_of_ne_nil, hq]

end Body

section Lines
variable {records : List Record} {terminated : Bool}

theorem fgetsAll_text (hvalid : ∀ r ∈ records, r.Valid) (hid : ∀ r ∈ records, r.id < tableSize) :
    fgetsAll 200 (text terminated records) = lines terminated records := by
  induction records using lines.induct with
  | case1 => rfl
  | case2 r =>
    have hr := hvalid r List.mem_cons_self
    have hlen := body_length_le hr (hid r List.mem_cons_self)
    cases terminated with
    | true =>
      simp only [text, lines, if_true, List.flatten_cons, List.flatten_nil, List.append_nil]
      exact fgetsAll_newline (newline_not_mem_body hr) hlen []
    | false =>
      simp only [text, lines, List.flatten_cons, List.flatten_nil, List.append_nil,
        Bool.false_eq_true, if_false]
      exact fgetsAll_end (newline_not_mem_body hr) (by simp [Record.body]) hlen
  | case3 r q rs ih =>
    rw [List.forall_mem_cons] at hvalid hid
    have htext : text terminated (r :: q :: rs) = r.body ++ 10 :: text terminated (q :: rs) := by
      simp [text, lines]
    rw [htext, fgetsAll_newline (newline_not_mem_body hvalid.1) (body_length_le hvalid.1 hid.1),
      ih hvalid.2 hid.2, lines]

theorem lines_end (records : List Record) (r : Record) :
    lines false (records ++ [r]) = records.map (fun q => q.body ++ [10]) ++ [r.body] := by
  induction records with
  | nil => simp [lines]
  | cons q records ih =>
    obtain ⟨p, ps, hp⟩ := List.exists_cons_of_ne_nil (l := records ++ [r]) (by simp)
    rw [List.cons_append, hp, lines, ← hp, ih, List.map_cons, List.cons_append]

end Lines

section Load
variable {s : Loaded} {r : Record} {i : Fin tableSize}

theorem lineType_word (h : i.val = r.id) :
    lineType i r.word = if r.Primary then .latency else .secondary := by
  have hlat : lineType i r.word = .latency ↔ r.Primary := by
    rw [lineType_eq_latency, Record.Primary, h, Int.natCast_eq_zero]
    cases hb : r.latency <;> simp [Record.word, hb, Record.secondaryWord, latencyWord]
  by_cases hp : r.Primary
  · rw [if_pos hp, hlat.mpr hp]
  · rw [if_neg hp]
    have hne := mt hlat.mp hp
    unfold lineType at hne ⊢
    split_ifs at hne ⊢
    · rfl
    · exact absurd rfl hne
    · rfl

/-- The line loads as its record into a table that has not seen the id. -/
def Stores (line : Bytes) (r : Record) : Prop :=
  ∀ (s : Loaded) (i : Fin tableSize), i.val = r.id → (s.table i).stat.qos = 0 →
    s.nrTask + 1 < 2 ^ 31 → loadLine s line = some ⟨s.table.modify i r.entry, s.nrTask + 1⟩

/-- A line that keeps its first three words stores its record when the last word is whole or
not read. -/
theorem stores_of_words {line str : Bytes} {ws : List Bytes} (h : r.Valid)
    (hstr : lineString line = some str)
    (hw : words 32 str = decimal r.id :: r.name :: r.word :: ws)
    (hqos : r.Primary → ws = [decimal r.qos]) : Stores line r := by
  intro s i hi hzero hnr
  obtain ⟨rest, hl, hrest⟩ := parseLine_of_words hstr hw
  have hlt := i.isLt
  have hid : atoi (decimal r.id) = r.id := atoi_decimal (by unfold tableSize at hlt; omega)
  rw [hid] at hl
  have hq : lineQos (lineType i r.word) rest (s.table i).stat.qos =
      some (if r.Primary then r.qos else 0) := by
    rw [lineType_word hi, hzero]
    by_cases hp : r.Primary
    · obtain ⟨rest', htok, -⟩ := strtok_of_words (hrest.trans (hqos hp))
      have hlt := h.qos_lt
      simp [lineQos, hp, htok, strtoull_decimal (n := r.qos) (by omega), wrap_of_lt hlt]
    · simp [lineQos, hp]
  refine loadLine_eq_some.mpr ⟨_, i, _, hl, hi ▸ tableIndex_natCast i, hq, hnr, ?_⟩
  simp only [List.take_of_length_le h.name_le, lineType_word hi]
  rfl

theorem stores_newline (h : r.Valid) : Stores (r.body ++ [10]) r := by
  refine stores_of_words h (lineString_newline h) (words_fields h _) fun _ => ?_
  exact words_self (not_mem_decimal (by decide) _) (decimal_ne_nil _)

theorem stores_end (h : r.Valid) (hp : ¬ r.Primary) : Stores r.body r :=
  stores_of_words h (lineString_end h) (words_fields h _) fun hp' => absurd hp' hp

theorem stores_lines {records : List Record} {terminated : Bool}
    (hvalid : ∀ r ∈ records, r.Valid)
    (hend : terminated = true ∨ ∀ r ∈ records.getLast?, ¬ r.Primary) :
    List.Forall₂ Stores (lines terminated records) records := by
  induction records using lines.induct with
  | case1 => exact .nil
  | case2 r =>
    refine .cons ?_ .nil
    have hr := hvalid r List.mem_cons_self
    cases terminated with
    | true => exact stores_newline hr
    | false =>
      rw [if_neg Bool.false_ne_true, List.append_nil]
      exact stores_end hr (hend.resolve_left Bool.false_ne_true r rfl)
  | case3 r q rs ih =>
    rw [List.forall_mem_cons] at hvalid
    rw [List.getLast?_cons_cons] at hend
    exact .cons (stores_newline hvalid.1) (ih hvalid.2 hend)

/-- Lines of distinct ids store all their records and nothing else. -/
theorem load_records {records : List Record} {ls : List Bytes}
    (h : List.Forall₂ Stores ls records) (hnodup : (records.map Record.id).Nodup)
    (hid : ∀ r ∈ records, r.id < tableSize)
    (hzero : ∀ r ∈ records, ∀ i : Fin tableSize, i.val = r.id → (s.table i).stat.qos = 0)
    (hn : s.nrTask + records.length < 2 ^ 31) :
    ∃ s', run loadLine s ls = some s' ∧ s'.nrTask = s.nrTask + records.length ∧
      (∀ r ∈ records, ∀ i : Fin tableSize, i.val = r.id → s'.table i = r.entry (s.table i)) ∧
      ∀ i : Fin tableSize, (∀ r ∈ records, i.val ≠ r.id) → s'.table i = s.table i := by
  induction h generalizing s with
  | nil => exact ⟨s, rfl, rfl, by simp, fun _ _ => rfl⟩
  | @cons line r ls records hline _ ih =>
    rw [List.map_cons, List.nodup_cons] at hnodup
    rw [List.forall_mem_cons] at hid hzero
    rw [List.length_cons] at hn
    obtain ⟨i, hi⟩ : ∃ i : Fin tableSize, i.val = r.id := ⟨⟨r.id, hid.1⟩, rfl⟩
    have hother (q : Record) (hq : q ∈ records) : i.val ≠ q.id := by
      intro heq
      exact hnodup.1 (List.mem_map.mpr ⟨q, hq, heq.symm.trans hi⟩)
    have hkeep (j : Fin tableSize) (hj : j.val ≠ r.id) :
        s.table.modify i r.entry j = s.table j := by
      rw [modify_apply, if_neg]
      rintro rfl
      exact hj hi
    obtain ⟨u, hu, htable, hone⟩ : ∃ u, loadLine s line = some u ∧
        u.table = s.table.modify i r.entry ∧ u.nrTask = s.nrTask + 1 :=
      ⟨_, hline s i hi (hzero.1 i hi) (by omega), rfl, rfl⟩
    have hclear : ∀ q ∈ records, ∀ j : Fin tableSize, j.val = q.id → (u.table j).stat.qos = 0 := by
      intro q hq j hj
      rw [htable, hkeep j fun h => hother q hq (by omega)]
      exact hzero.2 q hq j hj
    obtain ⟨s', hrun, hcount, hentry, hrest⟩ := ih hnodup.2 hid.2 hclear (by omega)
    refine ⟨s', run_cons_eq_some.mpr ⟨u, hu, hrun⟩, ?_, ?_, ?_⟩
    · rw [hcount, hone, List.length_cons]
      omega
    · rw [List.forall_mem_cons]
      refine ⟨fun j hj => ?_, fun q hq j hj => ?_⟩
      · obtain rfl : j = i := Fin.ext (hj.trans hi.symm)
        rw [hrest j hother, htable, modify_apply, if_pos rfl]
      · rw [hentry q hq j hj, htable, hkeep j fun h => hother q hq (by omega)]
    · intro j hj
      rw [List.forall_mem_cons] at hj
      rw [hrest j hj.2, htable, hkeep j hj.1]

/-- A latency task in a last line without newline does not keep its target. -/
theorem loadLine_end_qos {s' : Loaded} (h : r.Valid) (hp : r.Primary) (hi : i.val = r.id)
    (hload : loadLine s r.body = some s') : (s'.table i).stat.qos ≠ r.qos := by
  obtain ⟨l, j, qos, hl, hj, hq, -, rfl⟩ := loadLine_eq_some.mp hload
  obtain ⟨rest, hl', hrest⟩ := parseLine_of_words (lineString_end h) (words_fields h _)
  obtain rfl := Option.some.inj (hl'.symm.trans hl)
  have hid : atoi (decimal r.id) = i.val := by
    rw [hi, atoi_decimal (by rw [hp.1]; decide)]
  rw [hid, tableIndex_natCast] at hj
  obtain rfl := Option.some.inj hj
  rw [lineType_word hi, if_pos hp] at hq
  by_cases hlt : r.qos < 10
  · rw [decimal_of_lt hlt] at hrest
    exact absurd hrest (lineQos_eq_some_iff.mp ⟨qos, hq⟩ rfl)
  · rw [decimal_of_le (not_lt.mp hlt), List.dropLast_concat,
      words_self (not_mem_decimal (by decide) _) (decimal_ne_nil _)] at hrest
    obtain ⟨rest', htok, -⟩ := strtok_of_words hrest
    have hqos := h.qos_lt
    simp only [lineQos, if_true, htok, Option.map_some,
      strtoull_decimal (show r.qos / 10 < 2 ^ 64 by omega),
      wrap_of_lt (show r.qos / 10 < 2 ^ 32 by omega), Option.some.injEq] at hq
    simp only [modify_apply, if_true]
    omega

end Load

/-- Records of contiguous ids come back from their text exactly when its last line ends with a
newline or does not describe the latency task. -/
theorem roundTrips_iff {records : List Record} {terminated : Bool}
    (hn : records.length ≤ tableSize)
    (hids : (records.map Record.id).Perm (List.range records.length))
    (hvalid : ∀ r ∈ records, r.Valid) :
    RoundTrips terminated records ↔
      terminated = true ∨ ∀ r ∈ records.getLast?, ¬ r.Primary := by
  have hid : ∀ r ∈ records, r.id < tableSize := by
    intro r hr
    have hmem := hids.mem_iff.mp (List.mem_map.mpr ⟨r, hr, rfl⟩)
    exact (List.mem_range.mp hmem).trans_le hn
  have hload : loadConfig (text terminated records) =
      run loadLine ⟨fun _ => .zero, 0⟩ (lines terminated records) := by
    rw [loadConfig, fgetsAll_text hvalid hid]
  constructor
  · rintro ⟨s, hs, hholds⟩
    by_contra hnot
    obtain ⟨hfalse, hlast⟩ := not_or.mp hnot
    obtain ⟨r, hr, hp⟩ : ∃ r ∈ records.getLast?, r.Primary := by
      by_contra hnone
      exact hlast fun r hr hp => hnone ⟨r, hr, hp⟩
    obtain ⟨init, rfl⟩ : ∃ init, records = init ++ [r] := List.getLast?_eq_some_iff.mp hr
    rw [hload, Bool.eq_false_of_not_eq_true hfalse, lines_end, run_append_eq_some] at hs
    obtain ⟨u, -, hend⟩ := hs
    obtain ⟨s', hline, hnil⟩ := run_cons_eq_some.mp hend
    obtain rfl := Option.some.inj hnil
    have hmem : r ∈ init ++ [r] := by simp
    obtain ⟨i, hi, -, -, hqos⟩ := hholds.entry r hmem
    rw [if_pos hp] at hqos
    exact loadLine_end_qos (hvalid r hmem) hp hi hline hqos
  · intro hend
    have hfew : 0 + records.length < 2 ^ 31 := by unfold tableSize at hn; omega
    obtain ⟨s, hrun, hcount, hentry, -⟩ := load_records (s := ⟨fun _ => .zero, 0⟩)
      (stores_lines hvalid hend) (hids.nodup_iff.mpr List.nodup_range) hid
      (fun _ _ _ _ => rfl) hfew
    refine ⟨s, hload.trans hrun, hcount.trans (Nat.zero_add _), fun r hr => ?_⟩
    refine ⟨⟨r.id, hid r hr⟩, rfl, ?_⟩
    rw [hentry r hr _ rfl]
    exact ⟨rfl, rfl, rfl⟩

/-- Two tasks; the first is the latency task with a target of 12. -/
def twoRecords : List Record := [⟨0, [97], true, 12⟩, ⟨1, [98], false, 0⟩]

theorem roundTrips_iff_twoRecords :
    RoundTrips true twoRecords ∧ RoundTrips false twoRecords := by
  have hvalid : ∀ r ∈ twoRecords, r.Valid := by
    intro r hr
    simp only [twoRecords, List.mem_cons, List.not_mem_nil, or_false] at hr
    obtain rfl | rfl := hr
    · exact ⟨by decide, by decide, by decide, by decide, by decide, by decide⟩
    · exact ⟨by decide, by decide, by decide, by decide, by decide, by decide⟩
  exact ⟨(roundTrips_iff (by decide) (by decide) hvalid).mpr (Or.inl rfl),
    (roundTrips_iff (by decide) (by decide) hvalid).mpr (Or.inr (by decide))⟩

/-- The line `0 a latency 12` alone: with its newline the target is 12, without it the target
is 1; a target of one digit is a missing token. -/
theorem unterminated_target_lost :
    ((loadConfig (text true [⟨0, [97], true, 12⟩])).any fun s => (s.table 0).stat.qos = 12) ∧
    ((loadConfig (text false [⟨0, [97], true, 12⟩])).any fun s => (s.table 0).stat.qos = 1) ∧
    loadConfig (text false [⟨0, [97], true, 5⟩]) = none := by
  decide +kernel

end RdmaperfIso.RoundTrip
