import Mathlib.Data.Nat.Bitwise
import RdmaperfIso.Lib.FixedWidth
import RdmaperfIso.Lib.OwnerRing
import RdmaperfIso.Mlx5.SendQueue

/-! Completion queues: how the driver finds its entries in the ring, drops those of a queue pair
that is destroyed, and moves to a ring of another size. Positions are 32-bit words that count
entries; the code also takes them for an `int`, which must not overflow. -/
namespace RdmaperfIso.Mlx5
open FixedWidth OwnerRing

/-- The upper half of `op_own`; `other` is every value without a name. -/
inductive CqeOpcode where
  | req | respWrImm | respSend | respSendImm | respSendInv | resizeCq | noPacket
  | reqErr | respErr | invalid | other
  deriving DecidableEq, Repr

/-- A completion queue entry. The lower half of `op_own` has the owner bit and two bits for
data that comes with the entry. -/
structure Cqe where
  opcode : CqeOpcode
  owner : Bool
  inlineScatter32 : Bool
  inlineScatter64 : Bool
  sopDropQpn : UInt32
  srqnUidx : UInt32
  wqeCounter : UInt16
  byteCnt : UInt32
  immInvalPkey : UInt32
  syndrome : UInt8
  vendorErrSynd : UInt8
  deriving DecidableEq, Repr

namespace Cqe

/-- What a completion says, whoever owns its entry. -/
def view (c : Cqe) : Cqe := { c with owner := false }

/-- An entry that was never written has no owner. -/
def mark (c : Cqe) : Option Bool := if c.opcode = .invalid then none else some c.owner

/-- `mlx5_alloc_cq_buf` fills the ring with these. -/
def blank : Cqe := ⟨.invalid, false, false, false, 0, 0, 0, 0, 0, 0, 0⟩

/-- `is_responder`. -/
def isResponder (c : Cqe) : Bool :=
  c.opcode ∈ [.respWrImm, .respSend, .respSendImm, .respSendInv, .respErr]

/-- `is_equal_uidx` and `is_equal_rsn`, by the version of the entries. -/
def isEqual (v1 : Bool) (rsn : UInt32) (c : Cqe) : Bool :=
  rsn = (if v1 then c.srqnUidx else c.sopDropQpn) &&& 0xffffff

/-- The entry of the shared receive queue that `free_res_cqe` frees. -/
def freedWqe (v1 hasSrq : Bool) (c : Cqe) : List UInt16 :=
  if hasSrq ∧ (if v1 then c.isResponder else c.srqnUidx &&& 0xffffff ≠ 0) then [c.wqeCounter]
  else []

end Cqe

/-- The number of entries is a power of two, and less than what the doorbell record counts: of
2 ^ 24 entries it could not tell all from none. -/
structure Cq where
  buf : ℕ → Cqe
  ncqe : ℕ
  consIndex : UInt32
  setCi : UInt32
  dvOwned : Bool
  ncqe_eq : ∃ k ≤ 23, ncqe = 2 ^ k

/-- A word as an `int`. -/
def asInt (n : UInt32) : ℤ := toSigned 32 n.toNat

/-- Whether an `int` has the value. -/
def IsInt (z : ℤ) : Prop := -2 ^ 31 ≤ z ∧ z < 2 ^ 31

instance (z : ℤ) : Decidable (IsInt z) := inferInstanceAs (Decidable (_ ∧ _))

namespace Cq
variable (cq : Cq)

/-- The field `cqe`, which is one less than the number of entries. -/
def cqe : UInt32 := UInt32.ofNat (cq.ncqe - 1)

def slot (n : UInt32) : ℕ := (n &&& cq.cqe).toNat

/-- `get_sw_cqe`. -/
def getSwCqe (n : UInt32) : Option Cqe :=
  let c := cq.buf (cq.slot n)
  if c.opcode ≠ .invalid ∧ c.owner = decide (n &&& (cq.cqe + 1) ≠ 0) then some c else none

/-- `update_cons_index`. -/
def updateConsIndex : Cq := { cq with setCi := cq.consIndex &&& 0xffffff }

/-- `mlx5_get_next_cqe`. -/
def getNextCqe : Option (Cqe × Cq) :=
  (cq.getSwCqe cq.consIndex).map fun c => (c, { cq with consIndex := cq.consIndex + 1 })

/-- The first loop of `__mlx5_cq_clean`, from entry `j` on with `left` more at most: how far
the producer is ahead. -/
def prodCount : (j left : ℕ) → ℕ
  | j, 0 => j
  | j, left + 1 =>
    if (cq.getSwCqe (cq.consIndex + UInt32.ofNat j)).isSome then prodCount (j + 1) left else j

/-- The variables of the second loop. -/
structure Sweep where
  buf : ℕ → Cqe
  nfreed : ℕ
  freed : List UInt16

/-- One iteration at entry `m`. An entry that stays is copied over the freed ones, and the
owner bit of its new place is kept. -/
def sweepOne (v1 : Bool) (rsn : UInt32) (hasSrq : Bool) (st : Sweep) (m : ℕ) : Sweep :=
  let n := cq.consIndex + UInt32.ofNat m
  let c := st.buf (cq.slot n)
  if c.isEqual v1 rsn then
    { st with nfreed := st.nfreed + 1, freed := st.freed ++ c.freedWqe v1 hasSrq }
  else if st.nfreed = 0 then st
  else
    let dest := cq.slot (n + UInt32.ofNat st.nfreed)
    { st with buf := Function.update st.buf dest { c with owner := (st.buf dest).owner } }

/-- The test of the second loop subtracts two positions as an `int`: the difference is the
number of entries in front of this one, where it does not overflow, and ends the loop at -1. -/
def sweep (v1 : Bool) (rsn : UInt32) (hasSrq : Bool) : ℕ → Sweep → Option Sweep
  | 0, st => if IsInt (asInt (cq.consIndex - 1) - asInt cq.consIndex) then some st else none
  | m + 1, st =>
    if IsInt (asInt (cq.consIndex + UInt32.ofNat m) - asInt cq.consIndex) then
      sweep v1 rsn hasSrq m (cq.sweepOne v1 rsn hasSrq st m)
    else none

/-- `__mlx5_cq_clean`, with the entries of the shared receive queue that it frees. -/
def clean (v1 : Bool) (rsn : UInt32) (hasSrq : Bool) : Option (Cq × List UInt16) :=
  if cq.dvOwned then some (cq, [])
  else
    (cq.sweep v1 rsn hasSrq (cq.prodCount 0 cq.cqe.toNat) ⟨cq.buf, 0, []⟩).map fun st =>
      if st.nfreed = 0 then ({ cq with buf := st.buf }, st.freed)
      else
        (updateConsIndex
          { cq with buf := st.buf, consIndex := cq.consIndex + UInt32.ofNat st.nfreed }, st.freed)

/-- `is_hw`, which does not look at the opcode. -/
def isHw (c : Cqe) (n : UInt32) : Bool := c.owner != decide (n &&& (cq.cqe + 1) ≠ 0)

/-- The loop of `mlx5_cq_resize_copy_cqes`, from entry `j` on: the new ring, and whether the
entry that ends the old one was found. It goes around the old ring once at most. -/
def copyCqes (resizeCqes : ℕ) : (left j : ℕ) → (ℕ → Cqe) → Option ((ℕ → Cqe) × Bool)
  | 0, _, _ => none
  | left + 1, j, dst =>
    let i := cq.consIndex + UInt32.ofNat j
    let c := cq.buf (cq.slot i)
    if c.opcode = .resizeCq then some (dst, true)
    else if IsInt (asInt i + 1) then
      let swOwn := decide ((i + 1) &&& UInt32.ofNat resizeCqes ≠ 0)
      let dst := Function.update dst ((i + 1) &&& UInt32.ofNat (resizeCqes - 1)).toNat
        { c with owner := swOwn }
      if cq.isHw (cq.buf (cq.slot (i + 1))) (i + 1) then some (dst, false)
      else if cq.slot (i + 1) = cq.slot cq.consIndex then some (dst, false)
      else copyCqes resizeCqes left (j + 1) dst
    else none

/-- `mlx5_cq_resize_copy_cqes`. -/
def resizeCopyCqes (resizeCqes : ℕ) (dst : ℕ → Cqe) : Option ((ℕ → Cqe) × Bool) :=
  if cq.isHw (cq.buf (cq.slot cq.consIndex)) cq.consIndex then some (dst, false)
  else cq.copyCqes resizeCqes cq.ncqe 0 dst

/-- The end of `mlx5_resize_cq`, after the command to the device. The old ring is given up even
if the copy failed. -/
def swapBufs (resizeCqes : ℕ) (h : ∃ k ≤ 23, resizeCqes = 2 ^ k) : Option Cq :=
  (cq.resizeCopyCqes resizeCqes fun _ => .blank).map fun r =>
    { cq with
      buf := r.1
      ncqe := resizeCqes
      consIndex := if r.2 then cq.consIndex + 1 else cq.consIndex
      ncqe_eq := h }

end Cq

/-- A power of two that the device takes. Its limit is a logarithm. -/
theorem roundupPowOfTwo_of_le {n : ℕ} {logMaxCqSz : Fin 24}
    (h : roundupPowOfTwo n ≤ 2 ^ logMaxCqSz.val) : ∃ k ≤ 23, roundupPowOfTwo n = 2 ^ k := by
  obtain ⟨k, hk⟩ := roundupPowOfTwo_eq n
  have hle : k ≤ logMaxCqSz.val := (Nat.pow_le_pow_iff_right (by norm_num)).mp (hk ▸ h)
  exact ⟨k, by omega, hk⟩

/-- `create_cq`, on a device that takes rings of up to `2 ^ logMaxCqSz` entries. -/
def createCq (logMaxCqSz : Fin 24) (cqe : ℕ) (dvOwned : Bool) : Option Cq :=
  let ncqe := roundupPowOfTwo (cqe + 1)
  if cqe = 0 then none
  else if 2 ^ 24 < ncqe ∨ ncqe < cqe + 1 then none
  else if h : ncqe ≤ 2 ^ logMaxCqSz.val then
    some ⟨fun _ => .blank, ncqe, 0, 0, dvOwned, roundupPowOfTwo_of_le h⟩
  else none

/-- A position goes from the positive to the negative values of an `int` within `k` steps. -/
def Crosses (pos : UInt32) (k : ℕ) : Prop := pos.toNat < 2 ^ 31 ∧ 2 ^ 31 ≤ pos.toNat + k

instance (pos : UInt32) (k : ℕ) : Decidable (Crosses pos k) := inferInstanceAs (Decidable (_ ∧ _))

section Words
variable {n k : ℕ} {pos : UInt32}

theorem asInt_eq (pos : UInt32) :
    asInt pos = if pos.toNat < 2 ^ 31 then (pos.toNat : ℤ) else pos.toNat - 2 ^ 32 := by
  have hlt := pos.toNat_lt
  rw [asInt, toSigned, Int.bmod_def]
  split_ifs <;> omega

theorem toNat_add_ofNat (pos : UInt32) (k : ℕ) :
    (pos + UInt32.ofNat k).toNat = (pos.toNat + k) % 2 ^ 32 := by
  rw [UInt32.toNat_add, UInt32.toNat_ofNat']
  omega

/-- A difference of positions is an `int` unless the sign changes between them. -/
theorem isInt_sub (hk : k < 2 ^ 31) :
    IsInt (asInt (pos + UInt32.ofNat k) - asInt pos) ↔ ¬Crosses pos k := by
  have hlt := pos.toNat_lt
  rw [asInt_eq, asInt_eq, toNat_add_ofNat, IsInt, Crosses]
  split_ifs <;> omega

theorem isInt_pred : IsInt (asInt (pos - 1) - asInt pos) ↔ pos.toNat ≠ 2 ^ 31 := by
  have hlt := pos.toNat_lt
  have hpred : (pos - 1).toNat = (pos.toNat + (2 ^ 32 - 1)) % 2 ^ 32 := by
    rw [UInt32.toNat_sub, add_comm]
    rfl
  rw [asInt_eq, asInt_eq, hpred, IsInt]
  split_ifs <;> omega

theorem isInt_succ (hk : k < 2 ^ 31) :
    IsInt (asInt (pos + UInt32.ofNat k) + 1) ↔ pos.toNat + k + 1 ≠ 2 ^ 31 := by
  have hlt := pos.toNat_lt
  rw [asInt_eq, toNat_add_ofNat, IsInt]
  split_ifs <;> omega

theorem ofNat_succ (n : ℕ) : UInt32.ofNat (n + 1) = UInt32.ofNat n + 1 := UInt32.ofNat_add n 1

theorem and_sub_one_toNat (hk : k ≤ 32) :
    (UInt32.ofNat n &&& UInt32.ofNat (2 ^ k - 1)).toNat = n % 2 ^ k := by
  have hle : 2 ^ k ≤ 2 ^ 32 := Nat.pow_le_pow_right (by norm_num) hk
  rw [UInt32.toNat_and, UInt32.toNat_ofNat', UInt32.toNat_ofNat',
    Nat.mod_eq_of_lt (a := 2 ^ k - 1) (by omega), Nat.and_two_pow_sub_one_eq_mod,
    Nat.mod_mod_of_dvd _ (Nat.pow_dvd_pow 2 hk)]

/-- The bit above the slot is the parity of the lap. -/
theorem and_pow_ne_zero (hk : k ≤ 23) :
    decide (UInt32.ofNat n &&& UInt32.ofNat (2 ^ k) ≠ 0) = lap (2 ^ k) n := by
  have hle : 2 ^ k ≤ 2 ^ 23 := Nat.pow_le_pow_right (by norm_num) hk
  have hbit : (UInt32.ofNat n &&& UInt32.ofNat (2 ^ k)).toNat = (n.testBit k).toNat * 2 ^ k := by
    rw [UInt32.toNat_and, UInt32.toNat_ofNat', UInt32.toNat_ofNat',
      Nat.mod_eq_of_lt (a := 2 ^ k) (by omega), Nat.and_two_pow, Nat.testBit_mod_two_pow,
      decide_eq_true (show k < 32 by omega), Bool.true_and]
  simp only [ne_eq, ← UInt32.toNat_inj, hbit, lap, ← Nat.testBit_eq_decide_div_mod_eq]
  cases n.testBit k <;> simp

end Words

namespace Cqe
variable {c : Cqe} {v1 hasSrq : Bool} {rsn : UInt32}

theorem isEqual_view (c : Cqe) : c.view.isEqual v1 rsn = c.isEqual v1 rsn := rfl

theorem freedWqe_view (c : Cqe) : c.view.freedWqe v1 hasSrq = c.freedWqe v1 hasSrq := rfl

theorem opcode_view (c : Cqe) : c.view.opcode = c.opcode := rfl

theorem mark_eq_some {b : Bool} : c.mark = some b ↔ c.opcode ≠ .invalid ∧ c.owner = b := by
  unfold mark
  split_ifs <;> simp [*]

end Cqe

namespace Cq
variable {cq : Cq} {n m k : ℕ} {x : Cqe} {xs ws : List Cqe} {v1 hasSrq : Bool} {rsn : UInt32}

/-- The entries from a position on hold the completions, and no more. -/
abbrev Holds (cq : Cq) (n : ℕ) (xs : List Cqe) : Prop :=
  Pending cq.ncqe Cqe.mark Cqe.view cq.buf n xs

theorem ncqe_pos (cq : Cq) : 0 < cq.ncqe := by
  obtain ⟨k, -, hk⟩ := cq.ncqe_eq
  exact hk ▸ Nat.two_pow_pos k

theorem ncqe_le (cq : Cq) : cq.ncqe ≤ 2 ^ 23 := by
  obtain ⟨k, hle, hk⟩ := cq.ncqe_eq
  exact hk ▸ Nat.pow_le_pow_right (by norm_num) hle

theorem toNat_cqe (cq : Cq) : cq.cqe.toNat = cq.ncqe - 1 := by
  have hle := cq.ncqe_le
  rw [cqe, UInt32.toNat_ofNat', Nat.mod_eq_of_lt (by omega)]

theorem slot_ofNat (cq : Cq) (n : ℕ) : cq.slot (UInt32.ofNat n) = n % cq.ncqe := by
  obtain ⟨k, hle, hk⟩ := cq.ncqe_eq
  rw [slot, cqe, hk, and_sub_one_toNat (by omega)]

theorem and_cqe_succ (cq : Cq) (n : ℕ) :
    decide (UInt32.ofNat n &&& (cq.cqe + 1) ≠ 0) = lap cq.ncqe n := by
  obtain ⟨k, hle, hk⟩ := cq.ncqe_eq
  have hcqe : cq.cqe + 1 = UInt32.ofNat cq.ncqe := by
    rw [cqe, ← ofNat_succ, Nat.sub_add_cancel cq.ncqe_pos]
  rw [hcqe, hk, and_pow_ne_zero hle]

theorem getSwCqe_ofNat (cq : Cq) (n : ℕ) : cq.getSwCqe (UInt32.ofNat n) =
    if (cq.buf (n % cq.ncqe)).mark = some (lap cq.ncqe n) then some (cq.buf (n % cq.ncqe))
    else none := by
  simp only [getSwCqe, slot_ofNat, and_cqe_succ, Cqe.mark_eq_some]

theorem getNextCqe_nil (hcons : cq.consIndex = UInt32.ofNat n) (h : cq.Holds n []) :
    cq.getNextCqe = none := by
  rw [getNextCqe, hcons, getSwCqe_ofNat, if_neg (h.empty cq.ncqe_pos), Option.map_none]

theorem getNextCqe_cons (hcons : cq.consIndex = UInt32.ofNat n) (h : cq.Holds n (x :: xs)) :
    ∃ c, c.view = x ∧
      cq.getNextCqe = some (c, { cq with consIndex := UInt32.ofNat (n + 1) }) := by
  refine ⟨cq.buf (n % cq.ncqe), h.head.2, ?_⟩
  rw [getNextCqe, hcons, getSwCqe_ofNat, if_pos h.head.1, UInt32.ofNat_add]
  rfl

/-- The scan for the producer stops at the last entry of a ring that is full. -/
theorem prodCount_eq (hcons : cq.consIndex = UInt32.ofNat n) (h : cq.Holds n xs) :
    ∀ left j, j + left < cq.ncqe → j ≤ xs.length →
      cq.prodCount j left = min xs.length (j + left)
  | 0, j, _, hj => by
    rw [prodCount]
    omega
  | left + 1, j, hlt, hj => by
    rw [prodCount, hcons, ← UInt32.ofNat_add, getSwCqe_ofNat]
    rcases Nat.lt_or_ge j xs.length with hj' | hj'
    · rw [if_pos (h.held j hj').1, Option.isSome_some, if_pos rfl,
        prodCount_eq hcons h left (j + 1) (by omega) (by omega)]
      omega
    · rw [if_neg (h.beyond j hj' (by omega)), Option.isSome_none, if_neg Bool.false_ne_true]
      omega

section Sweeping

/-- The entries that the sweep keeps, of those that it has seen. -/
def kept (v1 : Bool) (rsn : UInt32) (ws : List Cqe) : List Cqe :=
  ws.filter fun c => !c.isEqual v1 rsn

/-- The entries of the shared receive queue that are freed, newest first. -/
def freed (v1 : Bool) (rsn : UInt32) (hasSrq : Bool) (ws : List Cqe) : List UInt16 :=
  (ws.reverse.filter (Cqe.isEqual v1 rsn)).flatMap (Cqe.freedWqe v1 hasSrq)

/-- The second loop in front of entry `m`: the entries behind it that stay have moved to the
end, and the others still have their old contents. -/
structure Swept (cq : Cq) (n : ℕ) (ws : List Cqe) (v1 : Bool) (rsn : UInt32) (hasSrq : Bool)
    (m : ℕ) (st : Sweep) : Prop where
  length_eq : m + st.nfreed + (kept v1 rsn (ws.drop m)).length = ws.length
  freed_eq : st.freed = freed v1 rsn hasSrq (ws.drop m)
  same : ∀ i, (i < m + st.nfreed ∨ ws.length ≤ i) → i < cq.ncqe →
    st.buf ((n + i) % cq.ncqe) = cq.buf ((n + i) % cq.ncqe)
  moved : ∀ i (hi : i < (kept v1 rsn (ws.drop m)).length) p, p = n + m + st.nfreed + i →
    (st.buf (p % cq.ncqe)).mark = some (lap cq.ncqe p) ∧
      (st.buf (p % cq.ncqe)).view = (kept v1 rsn (ws.drop m))[i]

theorem swept_init (cq : Cq) (n : ℕ) (ws : List Cqe) :
    Swept cq n ws v1 rsn hasSrq ws.length ⟨cq.buf, 0, []⟩ := by
  refine ⟨by simp [kept], by simp [freed], fun _ _ _ => rfl, fun i hi => ?_⟩
  simp [kept] at hi

variable {st : Sweep}

/-- An entry that matches makes room. -/
theorem Swept.free {c : Cqe} (h : Swept cq n ws v1 rsn hasSrq (m + 1) st)
    (hdrop : ws.drop m = c :: ws.drop (m + 1)) (hc : c.isEqual v1 rsn = true) :
    Swept cq n ws v1 rsn hasSrq m
      { st with nfreed := st.nfreed + 1, freed := st.freed ++ c.freedWqe v1 hasSrq } := by
  have hkept : kept v1 rsn (ws.drop m) = kept v1 rsn (ws.drop (m + 1)) := by
    simp [kept, hdrop, hc]
  have hlen := h.length_eq
  refine ⟨?_, ?_, fun i hi => h.same i ?_, ?_⟩
  · rw [hkept]
    dsimp only
    omega
  · simp [freed, hdrop, hc, h.freed_eq]
  · dsimp only at hi
    omega
  · rw [hkept]
    rintro i hi p rfl
    exact h.moved i hi _ (by dsimp only; omega)

/-- An entry that does not match stays, where nothing was freed behind it. -/
theorem Swept.stay {c : Cqe} (h : Swept cq n ws v1 rsn hasSrq (m + 1) st) (hst : st.nfreed = 0)
    (hdrop : ws.drop m = c :: ws.drop (m + 1)) (hc : c.isEqual v1 rsn = false)
    (hcell : (st.buf ((n + m) % cq.ncqe)).mark = some (lap cq.ncqe (n + m)) ∧
      (st.buf ((n + m) % cq.ncqe)).view = c) :
    Swept cq n ws v1 rsn hasSrq m st := by
  have hkept : kept v1 rsn (ws.drop m) = c :: kept v1 rsn (ws.drop (m + 1)) := by
    simp [kept, hdrop, hc]
  refine ⟨?_, ?_, fun i hi => h.same i (by omega), ?_⟩
  · have hlen := h.length_eq
    rw [hkept, List.length_cons]
    omega
  · simp [freed, hdrop, hc, h.freed_eq]
  · rw [hkept]
    rintro (_ | i) hi p rfl
    · rw [hst]
      exact hcell
    · exact h.moved i (by simpa using hi) _ (by omega)

/-- An entry that does not match is copied behind the freed ones, and only its place changes. -/
theorem Swept.move {c d : Cqe} (h : Swept cq n ws v1 rsn hasSrq (m + 1) st)
    (hws : ws.length < cq.ncqe) (hdrop : ws.drop m = c :: ws.drop (m + 1))
    (hc : c.isEqual v1 rsn = false) (hd : d.mark = some (lap cq.ncqe (n + m + st.nfreed)))
    (hview : d.view = c) :
    Swept cq n ws v1 rsn hasSrq m
      { st with buf := Function.update st.buf ((n + m + st.nfreed) % cq.ncqe) d } := by
  have hkept : kept v1 rsn (ws.drop m) = c :: kept v1 rsn (ws.drop (m + 1)) := by
    simp [kept, hdrop, hc]
  have hlen := h.length_eq
  refine ⟨?_, ?_, fun i hi hlt => ?_, ?_⟩
  · rw [hkept, List.length_cons]
    dsimp only
    omega
  · simp [freed, hdrop, hc, h.freed_eq]
  · dsimp only at hi ⊢
    have hne : (n + i) % cq.ncqe ≠ (n + m + st.nfreed) % cq.ncqe := by
      rcases hi with hi | hi
      · exact slot_ne (by omega) (by omega)
      · exact (slot_ne (by omega) (by omega)).symm
    rw [Function.update_of_ne hne]
    exact h.same i (by omega) hlt
  · rw [hkept]
    rintro (_ | i) hi p rfl
    · simpa using ⟨hd, hview⟩
    · dsimp only
      have hi' : i < (kept v1 rsn (ws.drop (m + 1))).length := by simpa using hi
      rw [Function.update_of_ne (slot_ne (by omega) (by omega)).symm]
      exact h.moved i hi' _ (by omega)

/-- Every iteration keeps the form of the ring. -/
theorem Swept.sweepOne (hcons : cq.consIndex = UInt32.ofNat n) (hws : ws.length < cq.ncqe)
    (hheld : ∀ i (hi : i < ws.length),
      (cq.buf ((n + i) % cq.ncqe)).mark = some (lap cq.ncqe (n + i)) ∧
        (cq.buf ((n + i) % cq.ncqe)).view = ws[i])
    (hm : m < ws.length) (h : Swept cq n ws v1 rsn hasSrq (m + 1) st) :
    Swept cq n ws v1 rsn hasSrq m (cq.sweepOne v1 rsn hasSrq st m) := by
  have hdrop : ws.drop m = ws[m] :: ws.drop (m + 1) := List.drop_eq_getElem_cons hm
  have hlen := h.length_eq
  obtain ⟨hmark, hview⟩ := hheld m hm
  rw [← h.same m (.inl (by omega)) (by omega)] at hmark hview
  have hequal : (st.buf ((n + m) % cq.ncqe)).isEqual v1 rsn = ws[m].isEqual v1 rsn := by
    rw [← hview, Cqe.isEqual_view]
  simp only [Cq.sweepOne, hcons, ← UInt32.ofNat_add, slot_ofNat, hequal]
  split_ifs with hc hst
  · rw [← Cqe.freedWqe_view, hview]
    exact h.free hdrop hc
  · exact h.stay hst hdrop (by simpa using hc) ⟨hmark, hview⟩
  · -- The place it goes to is still as it was, with the owner bit of its own lap.
    have hdest := (hheld (m + st.nfreed) (by omega)).1
    rw [← h.same (m + st.nfreed) (.inl (by omega)) (by omega), ← add_assoc] at hdest
    refine h.move hws hdrop (by simpa using hc) ?_ hview
    exact Cqe.mark_eq_some.mpr ⟨(Cqe.mark_eq_some.mp hmark).1, (Cqe.mark_eq_some.mp hdest).2⟩

/-- The loop without its test. -/
def sweepAll (cq : Cq) (v1 : Bool) (rsn : UInt32) (hasSrq : Bool) : ℕ → Sweep → Sweep
  | 0, st => st
  | m + 1, st => sweepAll cq v1 rsn hasSrq m (cq.sweepOne v1 rsn hasSrq st m)

/-- The test ends the loop where it should, unless it overflows. -/
theorem sweep_eq (hm : m < 2 ^ 31) :
    cq.sweep v1 rsn hasSrq m st =
      if cq.consIndex.toNat = 2 ^ 31 ∨ Crosses cq.consIndex (m - 1) then none
      else some (cq.sweepAll v1 rsn hasSrq m st) := by
  induction m generalizing st with
  | zero =>
    have hcross : ¬Crosses cq.consIndex 0 := fun h => absurd (h.1.trans_le h.2) (by simp)
    by_cases h : cq.consIndex.toNat = 2 ^ 31
    · rw [sweep, if_neg (by rw [isInt_pred]; simpa using h), if_pos (.inl h)]
    · rw [sweep, if_pos (isInt_pred.mpr h), if_neg (not_or.mpr ⟨h, hcross⟩), sweepAll]
  | succ m ih =>
    rw [sweep, sweepAll, ih (by omega)]
    simp only [isInt_sub (show m < 2 ^ 31 by omega), Nat.add_sub_cancel]
    by_cases h : Crosses cq.consIndex m
    · rw [if_neg (by simpa using h), if_pos (.inr h)]
    · have hpred : ¬Crosses cq.consIndex (m - 1) := fun h' => h ⟨h'.1, h'.2.trans (by omega)⟩
      simp only [h, hpred, or_false, not_false_eq_true, if_true]

theorem Swept.sweepAll (hcons : cq.consIndex = UInt32.ofNat n) (hws : ws.length < cq.ncqe)
    (hheld : ∀ i (hi : i < ws.length),
      (cq.buf ((n + i) % cq.ncqe)).mark = some (lap cq.ncqe (n + i)) ∧
        (cq.buf ((n + i) % cq.ncqe)).view = ws[i])
    (hm : m ≤ ws.length) (h : Swept cq n ws v1 rsn hasSrq m st) :
    Swept cq n ws v1 rsn hasSrq 0 (cq.sweepAll v1 rsn hasSrq m st) := by
  induction m generalizing st with
  | zero => exact h
  | succ m ih => exact ih (by omega) (h.sweepOne hcons hws hheld (by omega))

/-- At its end the loop has given up as many entries as it freed. -/
theorem Swept.pending (h : cq.Holds n xs) (hws : ws = xs.take (cq.ncqe - 1))
    (hst : Swept cq n ws v1 rsn hasSrq 0 st) :
    Pending cq.ncqe Cqe.mark Cqe.view st.buf (n + st.nfreed)
      (kept v1 rsn ws ++ xs.drop (cq.ncqe - 1)) := by
  obtain ⟨hlen, -, hsame, hmoved⟩ := hst
  rw [List.drop_zero, zero_add] at hlen
  simp only [List.drop_zero, zero_add, add_zero] at hsame hmoved
  have htake : ws.length = min (cq.ncqe - 1) xs.length := hws ▸ List.length_take
  refine h.rewrite st.nfreed ?_ (fun i hi => ?_) fun i hi => hsame i (by omega)
  · rw [List.length_append, List.length_drop]
    omega
  · rw [List.length_append, List.length_drop] at hi
    rcases Nat.lt_or_ge i (kept v1 rsn ws).length with hk | hk
    · rw [List.getElem_append_left hk]
      exact hmoved i hk _ rfl
    · -- The last entry of a full ring, which the loop does not reach.
      have hle := h.length_le
      rw [List.getElem_append_right hk, List.getElem_drop, add_assoc,
        hsame (st.nfreed + i) (.inr (by omega)) (by omega)]
      have hheld := h.held (st.nfreed + i) (by omega)
      refine ⟨hheld.1, hheld.2.trans ?_⟩
      congr 1
      omega

theorem prodCount_cqe (hcons : cq.consIndex = UInt32.ofNat n) (h : cq.Holds n xs)
    (hws : ws = xs.take (cq.ncqe - 1)) : cq.prodCount 0 cq.cqe.toNat = ws.length := by
  have hpos := cq.ncqe_pos
  rw [prodCount_eq hcons h _ 0 (by rw [toNat_cqe]; omega) (Nat.zero_le _), toNat_cqe, hws,
    List.length_take, zero_add, min_comm]

theorem length_sweep_lt (hws : ws = xs.take (cq.ncqe - 1)) : ws.length < 2 ^ 31 := by
  have hle := cq.ncqe_le
  rw [hws, List.length_take]
  omega

/-- What `__mlx5_cq_clean` does to the completions: those of the resource are dropped, but for
the last entry of a full ring. -/
theorem clean_eq (hcons : cq.consIndex = UInt32.ofNat n) (h : cq.Holds n xs)
    (hdv : cq.dvOwned = false) (hws : ws = xs.take (cq.ncqe - 1))
    (hdef : ¬(cq.consIndex.toNat = 2 ^ 31 ∨ Crosses cq.consIndex (ws.length - 1))) :
    ∃ buf d, d + (kept v1 rsn ws).length = ws.length ∧
      Pending cq.ncqe Cqe.mark Cqe.view buf (n + d)
        (kept v1 rsn ws ++ xs.drop (cq.ncqe - 1)) ∧
      cq.clean v1 rsn hasSrq = some (if d = 0 then { cq with buf := buf } else
        updateConsIndex { cq with buf := buf, consIndex := UInt32.ofNat (n + d) },
        freed v1 rsn hasSrq ws) := by
  have hpos := cq.ncqe_pos
  have htake : ws.length = min (cq.ncqe - 1) xs.length := hws ▸ List.length_take
  have hst : Swept cq n ws v1 rsn hasSrq 0
      (cq.sweepAll v1 rsn hasSrq ws.length ⟨cq.buf, 0, []⟩) :=
    (swept_init cq n ws).sweepAll hcons (by omega)
      (fun i hi => by subst hws; simpa using h.held i (by omega)) le_rfl
  have hsweep : cq.sweep v1 rsn hasSrq ws.length ⟨cq.buf, 0, []⟩ =
      some (cq.sweepAll v1 rsn hasSrq ws.length ⟨cq.buf, 0, []⟩) := by
    rw [sweep_eq (length_sweep_lt hws), if_neg hdef]
  generalize cq.sweepAll v1 rsn hasSrq ws.length ⟨cq.buf, 0, []⟩ = st at hst hsweep
  refine ⟨st.buf, st.nfreed, by simpa using hst.length_eq, hst.pending h hws, ?_⟩
  rw [clean, if_neg (by simp [hdv]), prodCount_cqe hcons h hws, hsweep, Option.map_some,
    hst.freed_eq, hcons, ← UInt32.ofNat_add]
  split_ifs <;> rfl

/-- The sweep has no result where its test overflows. -/
theorem clean_undefined (hcons : cq.consIndex = UInt32.ofNat n) (h : cq.Holds n xs)
    (hdv : cq.dvOwned = false) (hws : ws = xs.take (cq.ncqe - 1))
    (hdef : cq.consIndex.toNat = 2 ^ 31 ∨ Crosses cq.consIndex (ws.length - 1)) :
    cq.clean v1 rsn hasSrq = none := by
  rw [clean, if_neg (by simp [hdv]), prodCount_cqe hcons h hws, sweep_eq (length_sweep_lt hws),
    if_pos hdef, Option.map_none]

end Sweeping

section Resizing
variable {e : Cqe} {resizeCqes left j : ℕ} {dst : ℕ → Cqe}

/-- The copy of the entry `j`, where the one behind it is in use too. -/
theorem copyCqes_succ (hcons : cq.consIndex = UInt32.ofNat n) (h : cq.Holds n (xs ++ [e]))
    (hsize : ∃ k ≤ 23, resizeCqes = 2 ^ k) (hxs : ∀ c ∈ xs, c.opcode ≠ .resizeCq)
    (hj : j < xs.length) :
    cq.copyCqes resizeCqes (left + 1) j dst =
      if IsInt (asInt (cq.consIndex + UInt32.ofNat j) + 1) then
        cq.copyCqes resizeCqes left (j + 1)
          (Function.update dst ((n + j + 1) % resizeCqes)
            { cq.buf ((n + j) % cq.ncqe) with owner := lap resizeCqes (n + j + 1) })
      else none := by
  have hlen := h.length_le
  rw [List.length_append, List.length_singleton] at hlen
  obtain ⟨k, hk, rfl⟩ := hsize
  have hop : (cq.buf ((n + j) % cq.ncqe)).opcode ≠ .resizeCq := by
    have hview := (h.held j (by simp; omega)).2
    rw [List.getElem_append_left hj] at hview
    rw [← Cqe.opcode_view, hview]
    exact hxs _ (List.getElem_mem hj)
  have hnext := (Cqe.mark_eq_some.mp (h.held (j + 1) (by simpa using hj)).1).2
  have hstart : (n + j + 1) % cq.ncqe ≠ n % cq.ncqe :=
    (slot_ne (by omega) (by omega)).symm
  rw [← add_assoc] at hnext
  simp only [copyCqes, isHw, hcons, ← UInt32.ofNat_add, ← ofNat_succ,
    and_sub_one_toNat (show k ≤ 32 by omega), and_pow_ne_zero hk, and_cqe_succ, slot_ofNat, hnext,
    hop, hstart, bne_self_eq_false, Bool.false_eq_true, if_false]

/-- The copy ends at the entry that the device wrote for it. -/
theorem copyCqes_end (hcons : cq.consIndex = UInt32.ofNat n) (h : cq.Holds n (xs ++ [e]))
    (he : e.opcode = .resizeCq) :
    cq.copyCqes resizeCqes (left + 1) xs.length dst = some (dst, true) := by
  have hview := (h.held xs.length (by simp)).2
  rw [List.getElem_concat_length rfl] at hview
  have hop : (cq.buf ((n + xs.length) % cq.ncqe)).opcode = .resizeCq := by
    rw [← Cqe.opcode_view, hview, he]
  simp only [copyCqes, hcons, ← UInt32.ofNat_add, slot_ofNat, hop, if_true]

/-- All completions are copied, one place further on. -/
theorem copyCqes_eq (hcons : cq.consIndex = UInt32.ofNat n) (h : cq.Holds n (xs ++ [e]))
    (he : e.opcode = .resizeCq) (hxs : ∀ c ∈ xs, c.opcode ≠ .resizeCq)
    (hsize : ∃ k ≤ 23, resizeCqes = 2 ^ k) (hfit : xs.length ≤ resizeCqes)
    (hdef : ¬Crosses cq.consIndex xs.length) (hj : j ≤ xs.length) (hleft : xs.length < j + left)
    (hdst : Pending resizeCqes Cqe.mark Cqe.view dst (n + 1) (xs.take j)) :
    ∃ dst', cq.copyCqes resizeCqes left j dst = some (dst', true) ∧
      Pending resizeCqes Cqe.mark Cqe.view dst' (n + 1) xs := by
  induction left generalizing j dst with
  | zero => omega
  | succ left ih =>
    rcases hj.lt_or_eq with hj' | rfl
    · have hlt := h.length_le.trans cq.ncqe_le
      have hint : IsInt (asInt (cq.consIndex + UInt32.ofNat j) + 1) := by
        rw [List.length_append] at hlt
        refine (isInt_succ (by omega)).mpr fun hcross => hdef ⟨by omega, by omega⟩
      have hheld := h.held j (by simp; omega)
      have hpos : n + 1 + (xs.take j).length = n + j + 1 := by
        rw [List.length_take_of_le hj]
        omega
      rw [List.getElem_append_left hj'] at hheld
      rw [copyCqes_succ hcons h hsize hxs hj', if_pos hint]
      apply ih hj' (by omega)
      rw [List.take_succ_eq_append_getElem hj', ← hheld.2, ← hpos]
      exact hdst.produce (by omega) (Cqe.mark_eq_some.mpr ⟨(Cqe.mark_eq_some.mp hheld.1).1, rfl⟩)
    · refine ⟨dst, copyCqes_end hcons h he, ?_⟩
      rwa [List.take_length] at hdst

/-- The copy has no result where a position of it is the largest `int`. -/
theorem copyCqes_undefined (hcons : cq.consIndex = UInt32.ofNat n) (h : cq.Holds n (xs ++ [e]))
    (hxs : ∀ c ∈ xs, c.opcode ≠ .resizeCq) (hsize : ∃ k ≤ 23, resizeCqes = 2 ^ k)
    (hdef : Crosses cq.consIndex xs.length) (hj : cq.consIndex.toNat + j < 2 ^ 31) :
    cq.copyCqes resizeCqes left j dst = none := by
  induction left generalizing j dst with
  | zero => rfl
  | succ left ih =>
    have hcross := hdef.2
    rw [copyCqes_succ hcons h hsize hxs (by omega)]
    split_ifs with hint
    · rw [isInt_succ (by omega)] at hint
      exact ih (by omega)
    · rfl

/-- The check in front of the copy. -/
theorem resizeCopyCqes_eq (hcons : cq.consIndex = UInt32.ofNat n)
    (h : cq.Holds n (xs ++ [e])) :
    cq.resizeCopyCqes resizeCqes dst = cq.copyCqes resizeCqes cq.ncqe 0 dst := by
  have hhead := (Cqe.mark_eq_some.mp (h.held 0 (by simp)).1).2
  rw [add_zero] at hhead
  have hhw : cq.isHw (cq.buf (cq.slot cq.consIndex)) cq.consIndex = false := by
    rw [isHw, hcons, slot_ofNat, and_cqe_succ, hhead, bne_self_eq_false]
  rw [resizeCopyCqes, hhw, if_neg Bool.false_ne_true]

/-- What the last part of `mlx5_resize_cq` does to the completions: they are in the new ring,
and the entry that ended the old one is consumed. -/
theorem swapBufs_eq (hcons : cq.consIndex = UInt32.ofNat n) (h : cq.Holds n (xs ++ [e]))
    (he : e.opcode = .resizeCq) (hxs : ∀ c ∈ xs, c.opcode ≠ .resizeCq)
    (hsize : ∃ k ≤ 23, resizeCqes = 2 ^ k) (hfit : xs.length ≤ resizeCqes)
    (hdef : ¬Crosses cq.consIndex xs.length) :
    ∃ buf, Pending resizeCqes Cqe.mark Cqe.view buf (n + 1) xs ∧
      cq.swapBufs resizeCqes hsize =
        some ⟨buf, resizeCqes, UInt32.ofNat (n + 1), cq.setCi, cq.dvOwned, hsize⟩ := by
  have hlen := h.length_le
  rw [List.length_append, List.length_singleton] at hlen
  have hblank : Pending resizeCqes Cqe.mark Cqe.view (fun _ => Cqe.blank) (n + 1) (xs.take 0) :=
    ⟨by simp, by simp, fun i _ _ => by simp [Cqe.mark, Cqe.blank]⟩
  obtain ⟨buf, hbuf, hpending⟩ := copyCqes_eq hcons h he hxs hsize hfit hdef (Nat.zero_le _)
    (show xs.length < 0 + cq.ncqe by omega) hblank
  refine ⟨buf, hpending, ?_⟩
  rw [swapBufs, resizeCopyCqes_eq hcons h, hbuf, hcons, ofNat_succ]
  rfl

theorem swapBufs_undefined (hcons : cq.consIndex = UInt32.ofNat n) (h : cq.Holds n (xs ++ [e]))
    (hxs : ∀ c ∈ xs, c.opcode ≠ .resizeCq) (hsize : ∃ k ≤ 23, resizeCqes = 2 ^ k)
    (hdef : Crosses cq.consIndex xs.length) : cq.swapBufs resizeCqes hsize = none := by
  rw [swapBufs, resizeCopyCqes_eq hcons h, copyCqes_undefined hcons h hxs hsize hdef hdef.1]
  rfl

end Resizing
end Cq
end RdmaperfIso.Mlx5
