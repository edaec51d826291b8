import RdmaperfIso.Mlx5.SendQueue
import RdmaperfIso.Verbs.PostSend

/-! Creation of queue pairs and the home buckets that they are given. `ibv_create_qp` draws
both indices from the shared buckets in turn; `ibv_create_qp_ex` goes through it for one
value of the mask only, and otherwise returns what the provider allocated. -/
namespace RdmaperfIso.CreateQp
open TokenBucket PostSend Run Mlx5

def initAttrPd : UInt32 := (1 : UInt32) <<< 0
def initAttrXrcd : UInt32 := (1 : UInt32) <<< 1
def initAttrCreateFlags : UInt32 := (1 : UInt32) <<< 2
def initAttrMaxTsoHeader : UInt32 := (1 : UInt32) <<< 3
def initAttrIndTable : UInt32 := (1 : UInt32) <<< 4
def initAttrRxHash : UInt32 := (1 : UInt32) <<< 5
def initAttrSendOpsFlags : UInt32 := (1 : UInt32) <<< 6

/-- `MLX5_CREATE_QP_SUP_COMP_MASK`. -/
def supCompMask : UInt32 :=
  initAttrPd ||| initAttrXrcd ||| initAttrCreateFlags ||| initAttrMaxTsoHeader |||
    initAttrIndTable ||| initAttrRxHash ||| initAttrSendOpsFlags

/-- The attributes that decide which creations the provider rejects at once. `sourceQpn` is
the flag of `create_flags`. -/
structure InitAttrEx where
  compMask : UInt32
  qpType : QpType
  sourceQpn : Bool
  deriving DecidableEq

def InitAttrEx.has (attr : InitAttrEx) (bit : UInt32) : Bool := attr.compMask &&& bit ≠ 0

/-- The checks of mlx5 `create_qp` without vendor attributes. -/
def accepts (attr : InitAttrEx) : Bool :=
  !attr.has (~~~supCompMask) &&
  !(attr.has initAttrMaxTsoHeader && attr.qpType ≠ .rawPacket) &&
  !(attr.has initAttrSendOpsFlags && attr.has initAttrRxHash) &&
  !(attr.has initAttrCreateFlags && attr.sourceQpn && attr.qpType ≠ .ud) &&
  attr.qpType ≠ .driver

/-- The queue pair of an accepted creation is zero-filled. Allocation, sizing and the
command to the kernel are taken to succeed. -/
def mlx5CreateQp (attr : InitAttrEx) : Option QpBuckets :=
  if accepts attr then some ⟨0, 0⟩ else none

/-- The two shared buckets and the queue pairs created so far, by all tasks. -/
structure Home where
  globalTb : TokenBucket
  requestTb : TokenBucket
  qps : List QpBuckets

/-- After `init_token_bucket` of both buckets. -/
def start (fl : ℚ → ℚ) (rate burstSize requestRate requestBurst : ℕ) : Home :=
  ⟨initTokenBucket fl rate burstSize, initTokenBucket fl requestRate requestBurst, []⟩

/-- `mlx5_create_qp` sets the mask to the protection domain alone. -/
def ibvCreateQp (h : Home) (attr : InitAttrEx) : Option Home :=
  (mlx5CreateQp { attr with compMask := initAttrPd }).map fun _ =>
    { globalTb := h.globalTb.getBaseBucket.2
      requestTb := h.requestTb.getBaseBucket.2
      qps := h.qps ++ [⟨h.globalTb.getBaseBucket.1, h.requestTb.getBaseBucket.1⟩] }

def ibvCreateQpEx (h : Home) (attr : InitAttrEx) : Option Home :=
  if attr.compMask = initAttrPd then ibvCreateQp h attr
  else (mlx5CreateQp attr).map fun qp => { h with qps := h.qps ++ [qp] }

inductive Call where
  | createQp (attr : InitAttrEx)
  | createQpEx (attr : InitAttrEx)
  deriving DecidableEq

def step (h : Home) : Call → Option Home
  | .createQp attr => ibvCreateQp h attr
  | .createQpEx attr => ibvCreateQpEx h attr

/-- The creation does not pass through `ibv_create_qp`. -/
def Call.bypasses : Call → Bool
  | .createQp _ => false
  | .createQpEx attr => attr.compMask ≠ initAttrPd

/-- How many of the queue pairs have bucket `j` as the home that `ix` reads. -/
def occupancy (ix : QpBuckets → ℤ) (qps : List QpBuckets) (j : Fin nrBucket) : ℕ :=
  qps.countP fun qp => ix qp = j.val

def Balanced (ix : QpBuckets → ℤ) (qps : List QpBuckets) : Prop :=
  ∀ i j, occupancy ix qps i ≤ occupancy ix qps j + 1

/-- Every index is one of a bucket, and both assignments are balanced. -/
structure HomesBalanced (qps : List QpBuckets) : Prop where
  bucketIndex_mem : ∀ qp ∈ qps, 0 ≤ qp.bucketIndex ∧ qp.bucketIndex < nrBucket
  localBucketIndex_mem : ∀ qp ∈ qps, 0 ≤ qp.localBucketIndex ∧ qp.localBucketIndex < nrBucket
  bucketIndex : Balanced QpBuckets.bucketIndex qps
  localBucketIndex : Balanced QpBuckets.localBucketIndex qps

/-- What bucket `j` holds after `a` drawn homes and `z` homes left at zero. -/
def share (a z : ℕ) (j : Fin nrBucket) : ℕ :=
  a / 16 + (if j.val < a % 16 then 1 else 0) + if j.val = 0 then z else 0

/-- The state of one limiter after `a` creations drew from it and `z` did not. -/
structure Assigned (a z : ℕ) (ix : QpBuckets → ℤ) (next : ℤ) (qps : List QpBuckets) : Prop where
  next_eq : (next + 1).tmod nrBucket = (a % 16 : ℕ)
  mem : ∀ qp ∈ qps, 0 ≤ ix qp ∧ ix qp < nrBucket
  occupancy_eq : ∀ j, occupancy ix qps j = share a z j

section Assigned
variable {a z : ℕ} {ix : QpBuckets → ℤ} {next : ℤ} {qps : List QpBuckets} {qp : QpBuckets}

theorem occupancy_concat (ix : QpBuckets → ℤ) (qps : List QpBuckets) (qp : QpBuckets)
    (j : Fin nrBucket) :
    occupancy ix (qps ++ [qp]) j = occupancy ix qps j + if ix qp = j.val then 1 else 0 := by
  by_cases h : ix qp = j.val <;> simp [occupancy, h]

theorem assigned_init : Assigned 0 0 ix (-1) [] where
  next_eq := by decide
  mem := by simp
  occupancy_eq := by simp [occupancy, share]

theorem Assigned.draw (h : Assigned a z ix next qps) (hqp : ix qp = (next + 1).tmod nrBucket) :
    Assigned (a + 1) z ix ((next + 1).tmod nrBucket) (qps ++ [qp]) where
  next_eq := by
    rw [h.next_eq, Int.tmod_eq_emod_of_nonneg (by omega)]
    unfold nrBucket
    omega
  mem := by
    simp only [List.forall_mem_append, List.forall_mem_singleton]
    refine ⟨h.mem, ?_⟩
    rw [hqp, h.next_eq]
    unfold nrBucket
    omega
  occupancy_eq j := by
    rw [occupancy_concat, h.occupancy_eq, hqp, h.next_eq]
    have hj : j.val < 16 := j.isLt
    unfold share
    split_ifs <;> omega

theorem Assigned.bypass (h : Assigned a z ix next qps) (hqp : ix qp = 0) :
    Assigned a (z + 1) ix next (qps ++ [qp]) where
  next_eq := h.next_eq
  mem := by
    simp only [List.forall_mem_append, List.forall_mem_singleton, hqp]
    exact ⟨h.mem, le_rfl, by decide⟩
  occupancy_eq j := by
    rw [occupancy_concat, h.occupancy_eq, hqp]
    unfold share
    split_ifs <;> omega

/-- Homes left at zero unbalance the buckets, except for a single one after whole rounds. -/
theorem Assigned.balanced_iff (h : Assigned a z ix next qps) :
    Balanced ix qps ↔ z = 0 ∨ z = 1 ∧ 16 ∣ a := by
  simp only [Balanced, h.occupancy_eq, share]
  constructor
  · intro hb
    have hends : a / 16 + (if 0 < a % 16 then 1 else 0) + z ≤
        a / 16 + (if 15 < a % 16 then 1 else 0) + 0 + 1 := hb ⟨0, by decide⟩ ⟨15, by decide⟩
    split_ifs at hends <;> omega
  · intro hz i j
    split_ifs <;> omega

end Assigned

/-- Both limiters advance together. -/
def Inv (a z : ℕ) (h : Home) : Prop :=
  Assigned a z QpBuckets.bucketIndex h.globalTb.nextBucket h.qps ∧
    Assigned a z QpBuckets.localBucketIndex h.requestTb.nextBucket h.qps

variable {h h' : Home} {calls : List Call} {a z : ℕ}

theorem ibvCreateQp_inv {attr : InitAttrEx} (hinv : Inv a z h)
    (hs : ibvCreateQp h attr = some h') : Inv (a + 1) z h' := by
  obtain ⟨qp, -, rfl⟩ := Option.map_eq_some_iff.mp hs
  exact ⟨hinv.1.draw rfl, hinv.2.draw rfl⟩

theorem step_inv (call : Call) (hinv : Inv a z h) (hs : step h call = some h') :
    Inv (if call.bypasses then a else a + 1) (if call.bypasses then z + 1 else z) h' := by
  cases call with
  | createQp attr => exact ibvCreateQp_inv hinv hs
  | createQpEx attr =>
    by_cases hmask : attr.compMask = initAttrPd
    · have hcall : (Call.createQpEx attr).bypasses = false := by simp [Call.bypasses, hmask]
      simp only [step, ibvCreateQpEx, if_pos hmask] at hs
      rw [hcall]
      exact ibvCreateQp_inv hinv hs
    · have hcall : (Call.createQpEx attr).bypasses = true := by simp [Call.bypasses, hmask]
      simp only [step, ibvCreateQpEx, if_neg hmask] at hs
      obtain ⟨qp, hqp, rfl⟩ := Option.map_eq_some_iff.mp hs
      have hzero : qp = ⟨0, 0⟩ := by
        unfold mlx5CreateQp at hqp
        split_ifs at hqp
        exact (Option.some.inj hqp).symm
      rw [hcall, hzero]
      exact ⟨hinv.1.bypass rfl, hinv.2.bypass rfl⟩

theorem run_inv (hinv : Inv a z h) (hr : run step h calls = some h') :
    Inv (a + calls.countP (!·.bypasses)) (z + calls.countP (·.bypasses)) h' := by
  induction calls generalizing a z h with
  | nil =>
    obtain rfl := Option.some.inj hr
    exact hinv
  | cons call calls ih =>
    obtain ⟨t, ht, hr⟩ := run_cons_eq_some.mp hr
    have hrest := ih (step_inv call hinv ht) hr
    cases hcall : call.bypasses with
    | true => simpa [hcall, Nat.add_assoc, Nat.add_comm 1] using hrest
    | false => simpa [hcall, Nat.add_assoc, Nat.add_comm 1] using hrest

/-- After any sequence of creations by any tasks the home buckets are in range and balanced
exactly when every creation drew its homes, or all but one did, in whole rounds. -/
theorem homesBalanced_iff {fl : ℚ → ℚ} {rate burstSize requestRate requestBurst : ℕ}
    (hr : run step (start fl rate burstSize requestRate requestBurst) calls = some h) :
    HomesBalanced h.qps ↔
      calls.countP (·.bypasses) = 0 ∨
        calls.countP (·.bypasses) = 1 ∧ 16 ∣ calls.countP (!·.bypasses) := by
  have hinit : Inv 0 0 (start fl rate burstSize requestRate requestBurst) :=
    ⟨assigned_init, assigned_init⟩
  have hinv := run_inv hinit hr
  simp only [Nat.zero_add] at hinv
  constructor
  · intro hb
    exact hinv.1.balanced_iff.mp hb.bucketIndex
  · intro hc
    exact ⟨hinv.1.mem, hinv.2.mem, hinv.1.balanced_iff.mpr hc, hinv.2.balanced_iff.mpr hc⟩

/-- A reliable connection with a protection domain alone, and one with send operations. -/
def plainRc : InitAttrEx := ⟨initAttrPd, .rc, false⟩

def extendedRc : InitAttrEx := ⟨initAttrPd ||| initAttrSendOpsFlags, .rc, false⟩

theorem homesBalanced_iff_threeCalls :
    ∃ h, run step (start id 1000000000 8388608 4000000 64)
        [.createQp plainRc, .createQpEx plainRc, .createQp plainRc] = some h ∧
      h.qps = [⟨0, 0⟩, ⟨1, 1⟩, ⟨2, 2⟩] ∧ HomesBalanced h.qps := by
  have hrun : (run step (start id 1000000000 8388608 4000000 64)
      [.createQp plainRc, .createQpEx plainRc, .createQp plainRc]).map Home.qps =
        some [⟨0, 0⟩, ⟨1, 1⟩, ⟨2, 2⟩] := by decide +kernel
  obtain ⟨h, hr, hqps⟩ := Option.map_eq_some_iff.mp hrun
  exact ⟨h, hr, hqps, (homesBalanced_iff hr).mpr (Or.inl (by decide))⟩

/-- Two queue pairs created with send operations share bucket zero, and fifteen buckets
have none. -/
theorem extended_creations_share_bucket :
    ∃ h, run step (start id 1000000000 8388608 4000000 64)
        [.createQpEx extendedRc, .createQpEx extendedRc] = some h ∧
      occupancy QpBuckets.bucketIndex h.qps ⟨0, by decide⟩ = 2 ∧
      occupancy QpBuckets.bucketIndex h.qps ⟨1, by decide⟩ = 0 ∧ ¬ HomesBalanced h.qps := by
  have hrun : (run step (start id 1000000000 8388608 4000000 64)
      [.createQpEx extendedRc, .createQpEx extendedRc]).map Home.qps =
        some [⟨0, 0⟩, ⟨0, 0⟩] := by decide +kernel
  obtain ⟨h, hr, hqps⟩ := Option.map_eq_some_iff.mp hrun
  refine ⟨h, hr, by rw [hqps]; decide, by rw [hqps]; decide, fun hb => ?_⟩
  have hcount := hb.bucketIndex ⟨0, by decide⟩ ⟨1, by decide⟩
  rw [hqps] at hcount
  revert hcount
  decide

end RdmaperfIso.CreateQp
