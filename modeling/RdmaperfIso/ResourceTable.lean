import RdmaperfIso.Lib.CString
import RdmaperfIso.Lib.Run
import RdmaperfIso.TokenBucket.Basic

/-! The resource table that the monitor shares with the tasks: one entry a task, the
reports that a task stores in its own entry, and the attachment of a process to it. -/
namespace RdmaperfIso
open FixedWidth CString TokenBucket

def tableSize : ℕ := 100

instance : NeZero tableSize := ⟨by decide⟩

def cacheSize : ℕ := 500

/-- Zero-filled memory reads as `latency`. -/
inductive TaskType where
  | latency
  | secondary
  | none
  deriving DecidableEq, Repr

structure TaskStat where
  qos : ℕ
  curMedian : ℕ
  curTail : ℕ
  bandwidth : ℕ
  timeStamp : ℕ
  deriving DecidableEq, Repr

structure QpCache where
  entry : Fin cacheSize → ℤ
  entrySize : ℤ
  usage : ℤ

/-- `taskName` is the string stored in the array of 40 bytes; the rest of it is NUL. -/
structure Resource where
  on : Bool
  cacheLimit : Bool
  allocatedBandwidth : ℕ
  allocatedQps : ℕ
  cache : QpCache
  tb : TokenBucket
  requestTb : TokenBucket
  stat : TaskStat
  type : TaskType
  taskName : Bytes

abbrev Table := Fin tableSize → Resource

def Resource.zero : Resource where
  on := false
  cacheLimit := false
  allocatedBandwidth := 0
  allocatedQps := 0
  cache := ⟨fun _ => 0, 0, 0⟩
  tb := TokenBucket.zero
  requestTb := TokenBucket.zero
  stat := ⟨0, 0, 0, 0, 0⟩
  type := .latency
  taskName := []

def initQpCache : QpCache := ⟨fun _ => 0, cacheSize, 0⟩

/-- Entry number `id` of the table, where there is one. -/
def tableIndex (id : ℤ) : Option (Fin tableSize) :=
  if h : 0 ≤ id ∧ id < tableSize then some ⟨id.toNat, by omega⟩ else none

/-- The primary task is task 0, and its entry holds the bucket of all tasks. -/
def primary : Fin tableSize := 0

theorem tableIndex_eq_some {id : ℤ} {i : Fin tableSize} (h : tableIndex id = some i) :
    id = i.val := by
  unfold tableIndex at h
  split_ifs at h with hid
  obtain rfl := Option.some.inj h
  exact (Int.toNat_of_nonneg hid.1).symm

theorem tableIndex_natCast (i : Fin tableSize) : tableIndex (i.val : ℤ) = some i := by
  have hlt := i.isLt
  rw [tableIndex, dif_pos ⟨by omega, by omega⟩]
  simp

namespace Table

/-- Store through the pointer to one entry. -/
def modify (table : Table) (id : Fin tableSize) (f : Resource → Resource) : Table :=
  Function.update table id (f (table id))

def reportLatency (table : Table) (myRes : Fin tableSize) (median tail timeStamp : ℕ) : Table :=
  table.modify myRes fun r =>
    { r with stat := { r.stat with curMedian := median, curTail := tail, timeStamp := timeStamp } }

/-- The time stamp that the caller passes along is not stored. -/
def reportBw (table : Table) (myRes : Fin tableSize) (bandwidth : ℕ) : Table :=
  table.modify myRes fun r => { r with stat := { r.stat with bandwidth := bandwidth } }

/-- The stored 64-bit value is returned as a 32-bit one. -/
def getBw (table : Table) (id : Fin tableSize) : ℕ := wrap 32 (table id).stat.bandwidth

def myTaskType (table : Table) (myRes : Fin tableSize) : TaskType := (table myRes).type

/-- `ibverbs_init` of a process with the given `TASK_ID`. Without one, or with one outside
the table, `my_res` is no entry and the store to `my_res->on` is undefined. -/
def ibverbsInit (table : Table) (taskId : Option Bytes) : Option (Table × Fin tableSize) := do
  let str ← taskId
  let id ← tableIndex (atoi str)
  some (table.modify id fun r => { r with cache := initQpCache, on := true }, id)

variable {table : Table} {id : Fin tableSize} {f : Resource → Resource}

theorem modify_apply (t : Fin tableSize) :
    table.modify id f t = if t = id then f (table id) else table t :=
  Function.update_apply ..

theorem modify_modify (g : Resource → Resource) :
    (table.modify id f).modify id g = table.modify id fun r => g (f r) := by
  simp [Table.modify]

/-- A store that leaves a part of the entry alone leaves it alone in every entry. -/
theorem modify_part {α : Type*} (part : Resource → α) (hf : ∀ r, part (f r) = part r)
    (t : Fin tableSize) : part (table.modify id f t) = part (table t) := by
  rw [modify_apply]
  split_ifs with h
  · rw [hf, h]
  · rfl

theorem modify_type (hf : ∀ r, (f r).type = r.type) (t : Fin tableSize) :
    (table.modify id f t).type = (table t).type := modify_part Resource.type hf t

end Table
end RdmaperfIso
