import RdmaperfIso.Lib.FixedWidth

/-! Send queues of the mlx5 provider: how `create_qp` sizes one, and when it is full. A
queue pair carries the bound on its gather entries that the sizing establishes. -/
namespace RdmaperfIso.Mlx5
open FixedWidth

inductive QpType where
  | rc | uc | ud | rawPacket | xrcSend | xrcRecv | driver
  deriving DecidableEq, Repr

/-- `align` for an `int`, which is converted to a word and back. -/
def align (val : ℤ) (alignment : ℕ) : ℤ := (val + alignment - 1) / alignment * alignment

def roundupPowOfTwo (n : ℕ) : ℕ := if n = 1 then 1 else 2 ^ (Nat.log2 (n - 1) + 1)

/-- Limits that the device reports. The longest descriptor holds the fixed segments of
every transport. -/
structure Context where
  maxSqDescSz : UInt16
  maxSendWqebb : UInt32
  atomicCap : Bool
  inlineModeNone : Bool
  fixed_le : 288 ≤ maxSqDescSz.toNat
  wqebb_lt : maxSendWqebb.toNat < 2 ^ 31

/-- The groups of `send_ops_flags` that `sq_overhead` tells apart. -/
structure SendOps where
  rdma : Bool
  atomic : Bool
  memoryWindow : Bool
  deriving DecidableEq, Repr

structure QpInitAttr where
  qpType : QpType
  maxSendWr : UInt32
  maxSendSge : UInt32
  maxInlineData : UInt32
  maxTsoHeader : Option UInt16 := none
  sendOps : Option SendOps := none
  umrOps : Bool := false
  dci : Bool := false
  sourceQpn : Bool := false
  sqSigAll : Bool := false
  deriving DecidableEq, Repr

/-- The operations of a queue pair that does not name them. -/
def QpType.defaultOps : QpType → SendOps
  | .ud | .rawPacket => ⟨false, false, false⟩
  | _ => ⟨true, true, true⟩

/-- Bytes of the segments before the data: control 16, remote address 16, atomic 16,
memory window 48 + 64 + 64; datagram 48, Ethernet 32 and its padding 16, XRC 16. -/
def sqOverhead (attr : QpInitAttr) : Option ℕ :=
  let ops := attr.sendOps.getD attr.qpType.defaultOps
  let rdmaSize := if ops.rdma then 16 + 16 else 0
  let atomicSize := if ops.atomic then 16 + 16 + 16 else 0
  let mwSize := if ops.memoryWindow || attr.umrOps then 16 + 48 + 64 + 64 else 0
  let size := max (max (max 16 rdmaSize) atomicSize) mwSize
  match attr.qpType with
  | .driver => if attr.dci then some (size + 48) else none
  | .ud => some (size + 48 + if attr.sourceQpn then 32 + 16 else 0)
  | .xrcRecv | .xrcSend => some (size + 16)
  | .rawPacket => some (size + 32)
  | .rc | .uc => some size

/-- The descriptor of an inline request. -/
def inlSize (attr : QpInitAttr) (overhead : ℕ) : ℤ :=
  if attr.maxInlineData = 0 then 0
  else toSigned 32 (overhead + align (4 + attr.maxInlineData.toNat : ℕ) 16)

/-- `mlx5_calc_send_wqe`. The quotient is taken of unsigned words, and each sum is stored
in an `int`. -/
def calcSendWqe (ctx : Context) (attr : QpInitAttr) : Option ℤ := do
  let overhead ← sqOverhead attr
  let size := match attr.maxTsoHeader with
    | some h => overhead + (align h.toNat 16).toNat
    | none => overhead
  let maxGather := wrapSub 64 ctx.maxSqDescSz.toNat size / 16
  if wrap 32 maxGather < attr.maxSendSge.toNat then none
  else
    let totSize := max (toSigned 32 (size + attr.maxSendSge.toNat * 16 : ℕ))
      (inlSize attr overhead)
    if (ctx.maxSqDescSz.toNat : ℤ) < totSize then none else some (align totSize 64)

structure SqSize where
  wqeCnt : UInt32
  maxPost : UInt32
  maxGs : ℤ
  maxInlineData : ℤ
  deriving DecidableEq, Repr

/-- `mlx5_calc_sq_size`. A queue for no requests keeps the zeroes of its allocation. -/
def calcSqSize (ctx : Context) (attr : QpInitAttr) : Option SqSize :=
  if attr.maxSendWr = 0 then some ⟨0, 0, 0, 0⟩
  else do
    let overhead ← sqOverhead attr
    let wqeSize ← calcSendWqe ctx attr
    if wqeSize < 0 ∨ (ctx.maxSqDescSz.toNat : ℤ) < wqeSize then none
    else if 0x7fffffff / ctx.maxSqDescSz.toNat < attr.maxSendWr.toNat then none
    else
      let wqSize := toSigned 32 (roundupPowOfTwo (attr.maxSendWr.toNat * wqeSize.toNat))
      let wqeCnt := UInt32.ofInt (wqSize.tdiv 64)
      if ctx.maxSendWqebb < wqeCnt then none
      else
        some
          { wqeCnt := wqeCnt
            maxPost := UInt32.ofInt (wqSize.tdiv wqeSize)
            maxGs := toSigned 32 attr.maxSendSge.toNat
            maxInlineData := wqeSize - overhead - 4 }

section Sizing
variable {ctx : Context} {attr : QpInitAttr} {overhead : ℕ} {wqeSize : ℤ} {s : SqSize}

theorem sqOverhead_le (h : sqOverhead attr = some overhead) : 16 ≤ overhead ∧ overhead ≤ 288 := by
  obtain ⟨hlow, hhigh⟩ : 16 ≤ 0 + overhead ∧ 0 + overhead ≤ 288 := by
    unfold sqOverhead at h
    simp only at h
    split at h <;> grind
  omega

theorem le_align (val : ℤ) {alignment : ℕ} (h : 0 < alignment) : val ≤ align val alignment := by
  have hdiv := Int.mul_ediv_add_emod (val + alignment - 1) alignment
  have hmod := Int.emod_lt_of_pos (val + alignment - 1) (by omega : (0 : ℤ) < alignment)
  unfold align
  rw [mul_comm] at hdiv
  omega

/-- Without a TSO header no sum overflows, and the descriptor holds all gather entries. -/
theorem calcSendWqe_gather (htso : attr.maxTsoHeader = none)
    (h : calcSendWqe ctx attr = some wqeSize) :
    attr.maxSendSge.toNat < 2 ^ 31 ∧ 16 * (attr.maxSendSge.toNat : ℤ) < wqeSize := by
  simp only [calcSendWqe, htso, Option.bind_eq_bind, Option.bind_eq_some_iff] at h
  obtain ⟨overhead, hover, h⟩ := h
  obtain ⟨hlow, hhigh⟩ := sqOverhead_le hover
  have hfixed := ctx.fixed_le
  have hdesc := ctx.maxSqDescSz.toNat_lt
  split_ifs at h with hgather htot
  obtain rfl := Option.some.inj h
  rw [wrapSub_of_le (by omega) (by omega), wrap_of_lt (by omega)] at hgather
  have hsum : toSigned 32 (overhead + attr.maxSendSge.toNat * 16 : ℕ) =
      (overhead + attr.maxSendSge.toNat * 16 : ℕ) := toSigned_of_lt (by omega) (by norm_num)
  rw [hsum]
  constructor
  · omega
  · apply lt_of_lt_of_le _ (le_align _ (by norm_num))
    apply lt_of_lt_of_le _ (le_max_left _ _)
    push_cast
    omega

theorem roundupPowOfTwo_eq (n : ℕ) : ∃ k, roundupPowOfTwo n = 2 ^ k := by
  unfold roundupPowOfTwo
  split_ifs
  · exact ⟨0, rfl⟩
  · exact ⟨_, rfl⟩

theorem le_roundupPowOfTwo {n : ℕ} (hn : 0 < n) : n ≤ roundupPowOfTwo n := by
  unfold roundupPowOfTwo
  split_ifs with h
  · omega
  · have hlt := Nat.lt_log2_self (n := n - 1)
    omega

theorem roundupPowOfTwo_le {n k : ℕ} (hn : 0 < n) (h : n ≤ 2 ^ k) : roundupPowOfTwo n ≤ 2 ^ k := by
  unfold roundupPowOfTwo
  split_ifs with h1
  · exact Nat.one_le_two_pow
  · refine Nat.pow_le_pow_right (by norm_num) ?_
    exact (Nat.log2_lt (by omega)).mpr (by omega)

theorem roundupPowOfTwo_double {n : ℕ} (hn : 0 < n) :
    roundupPowOfTwo (2 * n + 1) = 2 * roundupPowOfTwo (n + 1) := by
  have hlog : Nat.log2 (2 * n) = Nat.log2 n + 1 := by
    rw [Nat.log2_def, if_pos (by omega), Nat.mul_div_cancel_left n (by norm_num)]
  rw [roundupPowOfTwo, if_neg (by omega), roundupPowOfTwo, if_neg (by omega), Nat.add_sub_cancel,
    Nat.add_sub_cancel, hlog, pow_succ, mul_comm]

/-- Only one power of two is negative as an `int`. -/
theorem toSigned_two_pow (k : ℕ) :
    0 ≤ toSigned 32 (2 ^ k : ℕ) ∨ toSigned 32 (2 ^ k : ℕ) = -2 ^ 31 := by
  rcases lt_trichotomy k 31 with h | rfl | h
  · left
    rw [toSigned_of_lt (w := 32) (Nat.pow_lt_pow_right (by norm_num) h) (by norm_num)]
    positivity
  · right
    decide
  · left
    obtain ⟨m, rfl⟩ := Nat.exists_eq_add_of_le h
    have hmul : ((2 ^ (31 + 1 + m) : ℕ) : ℤ) = 2 ^ m * (2 ^ 32 : ℕ) := by
      push_cast
      ring
    rw [toSigned, hmul, Int.mul_bmod_left]

theorem toNat_ofInt_le (n : ℕ) : (UInt32.ofInt n).toNat ≤ n := by
  have heq : (UInt32.ofInt n).toNat = n % 2 ^ 32 := by
    simp [UInt32.ofInt]
    omega
  rw [heq]
  exact Nat.mod_le _ _

/-- The entries that fit in a full queue take less than two gigabytes of it. -/
theorem calcSqSize_gather (htso : attr.maxTsoHeader = none) (h : calcSqSize ctx attr = some s) :
    16 * s.maxGs.toNat * s.maxPost.toNat < 2 ^ 31 := by
  unfold calcSqSize at h
  split at h
  · obtain rfl := Option.some.inj h
    decide
  simp only [Option.bind_eq_bind, Option.bind_eq_some_iff] at h
  obtain ⟨overhead, -, wqeSize, hwqe, h⟩ := h
  obtain ⟨hsge, hgather⟩ := calcSendWqe_gather htso hwqe
  obtain ⟨k, hk⟩ := roundupPowOfTwo_eq (attr.maxSendWr.toNat * wqeSize.toNat)
  rw [hk] at h
  split_ifs at h with hsize hwr hcnt
  obtain rfl := Option.some.inj h
  have hmax : toSigned 32 attr.maxSendSge.toNat = attr.maxSendSge.toNat :=
    toSigned_of_lt hsge (by norm_num)
  simp only [hmax, Int.toNat_natCast]
  have hlt := toSigned_lt (w := 32) (by norm_num) (2 ^ k : ℕ)
  rcases toSigned_two_pow k with hpos | hneg
  · obtain ⟨wqSize, hwq⟩ := Int.eq_ofNat_of_zero_le hpos
    obtain ⟨wqe, rfl⟩ := Int.eq_ofNat_of_zero_le (by omega : 0 ≤ wqeSize)
    rw [hwq] at hlt ⊢
    have hpost : (UInt32.ofInt ((wqSize : ℤ).tdiv wqe)).toNat ≤ wqSize / wqe := by
      rw [← Int.ofNat_tdiv]
      exact toNat_ofInt_le _
    calc 16 * attr.maxSendSge.toNat * (UInt32.ofInt ((wqSize : ℤ).tdiv wqe)).toNat
        ≤ wqe * (wqSize / wqe) := Nat.mul_le_mul (by omega) hpost
      _ ≤ wqSize := Nat.mul_div_le wqSize wqe
      _ < 2 ^ 31 := by omega
  · -- The size that overflows to a negative `int` is refused for its number of blocks.
    have hwqebb := ctx.wqebb_lt
    rw [hneg] at hcnt
    have hbig : (UInt32.ofInt ((-2 ^ 31 : ℤ).tdiv 64)).toNat = 2 ^ 32 - 2 ^ 25 := by decide
    rw [UInt32.lt_iff_toNat_lt, hbig] at hcnt
    omega

end Sizing

/-- Fence bits of a control segment. -/
inductive Fence where
  | none
  | initiatorSmall
  | full
  deriving DecidableEq, Repr

/-- Capabilities that the port gives a queue pair when it is connected. -/
structure Caps where
  csumRaw : Bool := false
  csumUnderlay : Bool := false
  maxTso : ℕ := 0
  deriving DecidableEq, Repr

/-- What is fixed when a queue pair is created. -/
structure Qp extends SqSize, Caps where
  qpType : QpType
  qpNum : UInt32
  atomicsEnabled : Bool
  underlay : Bool
  sqSigAll : Bool
  maxTsoHeader : ℕ
  ethMinInlineSize : ℕ
  gather_lt : qpType ≠ .rawPacket → 16 * maxGs.toNat * maxPost.toNat < 2 ^ 31
  ethMinInlineSize_le : ethMinInlineSize ≤ 18
  deriving DecidableEq

/-- The part of `create_qp` that fixes the send queue. A TSO header is refused on all
types but raw packet, and a source number on all types but datagram. -/
def createQp (ctx : Context) (attr : QpInitAttr) (caps : Caps) (qpNum : UInt32) : Option Qp :=
  if htso : attr.maxTsoHeader.isSome ∧ attr.qpType ≠ .rawPacket then none
  else if attr.sourceQpn ∧ attr.qpType ≠ .ud then none
  else
    match hs : calcSqSize ctx attr with
    | none => none
    | some s => some
      { s, caps with
        qpType := attr.qpType
        qpNum := qpNum
        atomicsEnabled := ctx.atomicCap
        underlay := attr.sourceQpn
        sqSigAll := attr.sqSigAll
        maxTsoHeader := (attr.maxTsoHeader.map UInt16.toNat).getD 0
        ethMinInlineSize := if ctx.inlineModeNone then 0 else 18
        gather_lt := by
          intro hraw
          apply calcSqSize_gather _ hs
          cases h : attr.maxTsoHeader with
          | none => rfl
          | some _ => exact absurd ⟨by rw [h]; rfl, hraw⟩ htso
        ethMinInlineSize_le := by split_ifs <;> omega }

/-- The counters of a send queue, and the fence kept for the next request. -/
structure Sq where
  head : UInt32
  tail : UInt32
  curPost : UInt32
  fmCache : Fence
  deriving DecidableEq, Repr

/-- `mlx5_wq_overflow`, in unsigned arithmetic. -/
def wqOverflow (maxPost : UInt32) (sq : Sq) (nreq : ℕ) : Bool :=
  maxPost ≤ sq.head - sq.tail + UInt32.ofNat nreq

/-- A queue that takes one request after another runs full. -/
theorem le_maxPost_of_not_wqOverflow {maxPost : UInt32} {sq : Sq} {n : ℕ}
    (h : ∀ nreq < n, wqOverflow maxPost sq nreq = false) : n ≤ maxPost.toNat := by
  by_contra hn
  have hlt (k : ℕ) (hk : k < n) : ((sq.head - sq.tail).toNat + k) % 2 ^ 32 < maxPost.toNat := by
    have hk := h k hk
    rw [wqOverflow, decide_eq_false_iff_not, UInt32.le_iff_toNat_le, not_le, UInt32.toNat_add,
      UInt32.toNat_ofNat', Nat.add_mod_mod] at hk
    exact hk
  have hmax := maxPost.toNat_lt
  have h0 := hlt 0 (by omega)
  rw [add_zero, Nat.mod_eq_of_lt (UInt32.toNat_lt _)] at h0
  -- The request that brings the queue to its limit is one of them.
  have hlast := hlt (maxPost.toNat - (sq.head - sq.tail).toNat) (by omega)
  rw [Nat.add_sub_cancel' h0.le, Nat.mod_eq_of_lt hmax] at hlast
  omega

end RdmaperfIso.Mlx5
