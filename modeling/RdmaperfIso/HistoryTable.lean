import RdmaperfIso.Lib.Run
import RdmaperfIso.Lib.Slots

/-! The ring of a task's latest accesses. Its position comes from a 32-bit counter. -/
namespace RdmaperfIso
open Run Slots

def historyLength : ℕ := 100

structure HistoryTable where
  accessHistory : Fin historyLength → UInt32
  capacity : UInt32
  head : UInt32
  tail : UInt32

namespace HistoryTable

/-- Bytes of value -1 make words of value `0xFFFFFFFF`. -/
def initHistoryTable : HistoryTable := ⟨fun _ => 0xFFFFFFFF, UInt32.ofNat historyLength, 0, 0⟩

/-- The slot that an `int` selects, where it is inside the array. -/
def historyIndex (i : Int32) : Option (Fin historyLength) :=
  if h : 0 ≤ i.toInt ∧ i.toInt < historyLength then some ⟨i.toInt.toNat, by omega⟩ else none

/-- The fetched counter goes through an `int`, which `%=` converts back, for the capacity is
unsigned. -/
def addHistory (ht : HistoryTable) (handle : UInt32) : Option HistoryTable := do
  let i : Int32 := ht.tail.toInt32
  if ht.capacity = 0 then none
  let i : Int32 := (i.toUInt32 % ht.capacity).toInt32
  let slot ← historyIndex i
  some { ht with
    accessHistory := Function.update ht.accessHistory slot handle
    tail := ht.tail + 1 }

/-- The slot of access number `m`. -/
def slotOf (m : ℕ) : Fin historyLength := ⟨m % 2 ^ 32 % historyLength, Nat.mod_lt _ (by decide)⟩

theorem historyIndex_of_lt {i : UInt32} (h : i.toNat < historyLength) :
    historyIndex i.toInt32 = some ⟨i.toNat, h⟩ := by
  have hsmall : 2 * i.toBitVec.toNat < 2 ^ 32 := by
    rw [UInt32.toNat_toBitVec]
    unfold historyLength at h
    omega
  have hint : i.toInt32.toInt = i.toNat := BitVec.toInt_eq_toNat_of_lt hsmall
  rw [historyIndex, dif_pos ⟨by omega, by omega⟩]
  simp [hint]

/-- Before access number `m` the counter is `m`, up to a multiple of `2 ^ 32`. -/
theorem addHistory_eq (mem : Fin historyLength → UInt32) (head handle : UInt32) (m : ℕ) :
    addHistory ⟨mem, UInt32.ofNat historyLength, head, UInt32.ofNat m⟩ handle =
      some ⟨Function.update mem (slotOf m) handle, UInt32.ofNat historyLength, head,
        UInt32.ofNat (m + 1)⟩ := by
  have hmod : (UInt32.ofNat m % UInt32.ofNat historyLength).toNat = m % 2 ^ 32 % historyLength := by
    rw [UInt32.toNat_mod, UInt32.toNat_ofNat', UInt32.toNat_ofNat']
    rfl
  have hlt : (UInt32.ofNat m % UInt32.ofNat historyLength).toNat < historyLength :=
    hmod ▸ (slotOf m).isLt
  have hslot : historyIndex (UInt32.ofNat m % UInt32.ofNat historyLength).toInt32 =
      some (slotOf m) := by
    rw [historyIndex_of_lt hlt]
    exact congrArg some (Fin.ext hmod)
  have hcap : UInt32.ofNat historyLength ≠ 0 := by decide
  simp only [addHistory, if_neg hcap, UInt32.toUInt32_toInt32, hslot]
  simp

/-- Every access is stored in a slot of the array, at any number of accesses. -/
theorem run_addHistory (handles : ℕ → UInt32) (n : ℕ) :
    run addHistory initHistoryTable ((List.range n).map handles) =
      some ⟨store slotOf handles initHistoryTable.accessHistory n, UInt32.ofNat historyLength, 0,
        UInt32.ofNat n⟩ := by
  induction n with
  | zero => rfl
  | succ n ih =>
    rw [List.range_succ, List.map_append, run_append, ih, Option.bind_some, List.map_singleton,
      run_cons, addHistory_eq, Option.bind_some, run_nil]
    rfl

theorem initHistoryTable_ne_one (j : Fin historyLength) :
    initHistoryTable.accessHistory j ≠ 1 := by
  change (0xFFFFFFFF : UInt32) ≠ 1
  decide

theorem slotOf_injOn_iff {n : ℕ} (hn : historyLength ≤ n) :
    Set.InjOn slotOf (Set.Ico (n - historyLength) n) ↔
      n < 2 ^ 32 ∨ n % 2 ^ 32 = 0 ∨ historyLength ≤ n % 2 ^ 32 := by
  have hval : Set.InjOn slotOf (Set.Ico (n - historyLength) n) ↔
      Set.InjOn (fun m => m % 2 ^ 32 % historyLength) (Set.Ico (n - historyLength) n) :=
    ⟨fun h m hm l hl heq => h hm hl (Fin.ext heq),
      fun h m hm l hl heq => h hm hl (congrArg Fin.val heq)⟩
  -- The remainder is 96, so four slots are passed over at each wrap.
  have hdvd : ¬ historyLength ∣ 2 ^ 32 := by decide
  rw [hval, counter_injOn_iff (by decide) (by decide) hn, or_iff_right hdvd]

/-- Once the counter has wrapped, and until a ring of accesses has followed, some of the latest
accesses are lost; at all other times the ring holds exactly them. -/
theorem holdsLast_iff {n : ℕ} (hn : historyLength ≤ n) :
    (∀ handles : ℕ → UInt32, ∃ ht,
      run addHistory initHistoryTable ((List.range n).map handles) = some ht ∧
        HoldsLast ht.accessHistory handles n) ↔
      n < 2 ^ 32 ∨ n % 2 ^ 32 = 0 ∨ historyLength ≤ n % 2 ^ 32 := by
  have hcard : Fintype.card (Fin historyLength) = historyLength := Fintype.card_fin _
  have hiff : (∀ handles : ℕ → UInt32,
      HoldsLast (store slotOf handles initHistoryTable.accessHistory n) handles n) ↔
      Set.InjOn slotOf (Set.Ico (n - Fintype.card (Fin historyLength)) n) :=
    holdsLast_store_iff (by decide : (0 : UInt32) ≠ 1) initHistoryTable_ne_one (hcard.le.trans hn)
  rw [hcard, slotOf_injOn_iff hn] at hiff
  rw [← hiff]
  simp only [run_addHistory, Option.some.injEq, exists_eq_left']

theorem holdsLast_iff_secondLap :
    historyLength ≤ 2 ^ 32 + 100 ∧ ∀ handles : ℕ → UInt32, ∃ ht,
      run addHistory initHistoryTable ((List.range (2 ^ 32 + 100)).map handles) = some ht ∧
        HoldsLast ht.accessHistory handles (2 ^ 32 + 100) :=
  ⟨by decide, (holdsLast_iff (by decide)).mpr (.inr (.inr (by decide)))⟩

/-- After the first access of the second lap, the handle 1 of access `2 ^ 32 - 96`, one of the
last hundred, is in no slot. -/
theorem wrapped_counter_loses_access :
    ∃ ht, run addHistory initHistoryTable
        ((List.range (2 ^ 32 + 1)).map fun i => if i = 2 ^ 32 - 96 then 1 else 0) = some ht ∧
      2 ^ 32 + 1 - historyLength ≤ 2 ^ 32 - 96 ∧ ∀ j, ht.accessHistory j ≠ 1 := by
  refine ⟨_, run_addHistory _ _, by decide, fun j => ?_⟩
  have hslot : slotOf (2 ^ 32) = slotOf (2 ^ 32 - 96) := by decide
  exact store_ne_of_clash (by decide) initHistoryTable_ne_one (by decide) (by decide) hslot j

end HistoryTable
end RdmaperfIso
