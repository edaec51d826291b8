import RdmaperfIso.Lib.FixedWidth

/-! Send work requests as the application passes them to the library. A linked list of
requests is a list; the pointer `next` is its order. -/
namespace RdmaperfIso
open FixedWidth

structure Sge where
  addr : UInt64
  length : UInt32
  lkey : UInt32
  deriving DecidableEq, Repr

/-- `other` is every value outside the enumeration. -/
inductive WrOpcode where
  | rdmaWrite | rdmaWriteWithImm | send | sendWithImm | rdmaRead
  | atomicCmpAndSwp | atomicFetchAndAdd | localInv | bindMw | sendWithInv | tso | driver1
  | other
  deriving DecidableEq, Repr

/-- Bits of `send_flags`. -/
structure SendFlags where
  fence : Bool := false
  signaled : Bool := false
  solicited : Bool := false
  inline : Bool := false
  ipCsum : Bool := false
  deriving DecidableEq, Repr

inductive MwType where
  | type1 | type2
  deriving DecidableEq, Repr

structure BindInfo where
  lkey : UInt32 := 0
  addr : UInt64 := 0
  length : UInt64 := 0
  accessFlags : UInt32 := 0
  deriving DecidableEq, Repr

/-- Arguments that the opcodes and queue pair types read besides the scatter list. The
fields of a C union that no opcode reads together are separate here. -/
structure WrArgs where
  immData : UInt32 := 0
  remoteAddr : UInt64 := 0
  rkey : UInt32 := 0
  compareAdd : UInt64 := 0
  swap : UInt64 := 0
  remoteQpn : UInt32 := 0
  remoteQkey : UInt32 := 0
  remoteSrqn : UInt32 := 0
  mwType : MwType := .type1
  mwRkey : UInt32 := 0
  bindRkey : UInt32 := 0
  bindInfo : BindInfo := {}
  hdrSz : UInt16 := 0
  mss : UInt16 := 0
  deriving DecidableEq, Repr

/-- The array at `sg_list` has at least `num_sge` entries. -/
structure SendWr where
  wrId : UInt64
  sgList : List Sge
  numSge : ℤ
  opcode : WrOpcode
  sendFlags : SendFlags
  args : WrArgs
  numSge_le : numSge ≤ sgList.length
  deriving DecidableEq

namespace SendWr

/-- The entries that a loop `for (i = 0; i < num_sge; i++)` visits. -/
def sges (wr : SendWr) : List Sge := wr.sgList.take wr.numSge.toNat

def bytes (wr : SendWr) : ℕ := (wr.sges.map fun s => s.length.toNat).sum

/-- A request over exactly the given entries. -/
def ofSges (sgList : List Sge) (opcode : WrOpcode) (sendFlags : SendFlags) : SendWr :=
  ⟨0, sgList, sgList.length, opcode, sendFlags, {}, le_rfl⟩

end SendWr

/-- The array at `sg_list` has at least `num_sge` entries. -/
structure RecvWr where
  wrId : UInt64
  sgList : List Sge
  numSge : ℤ
  numSge_le : numSge ≤ sgList.length
  deriving DecidableEq

/-- The entries that a loop `for (i = 0; i < num_sge; ++i)` visits. -/
def RecvWr.sges (wr : RecvWr) : List Sge := wr.sgList.take wr.numSge.toNat

theorem RecvWr.length_sges (wr : RecvWr) : wr.sges.length = wr.numSge.toNat := by
  have hle := wr.numSge_le
  rw [sges, List.length_take]
  omega

def totalBytes (wrs : List SendWr) : ℕ := (wrs.map SendWr.bytes).sum

@[simp] theorem totalBytes_nil : totalBytes [] = 0 := rfl

@[simp] theorem totalBytes_cons (wr : SendWr) (wrs : List SendWr) :
    totalBytes (wr :: wrs) = wr.bytes + totalBytes wrs := by
  simp [totalBytes]

@[simp] theorem totalBytes_append (l₁ l₂ : List SendWr) :
    totalBytes (l₁ ++ l₂) = totalBytes l₁ + totalBytes l₂ := by
  simp [totalBytes]

theorem totalBytes_flatten (ls : List (List SendWr)) :
    totalBytes ls.flatten = (ls.map totalBytes).sum := by
  induction ls with
  | nil => rfl
  | cons l ls ih => simp [ih]

/-- `size += cur->sg_list[i].length`, in 64 bits. -/
def addSges (size : ℕ) (sges : List Sge) : ℕ :=
  sges.foldl (fun size s => wrap 64 (size + s.length.toNat)) size

/-- The two loops of `ibv_post_send` over the requests and their entries. -/
def sendSize (wrs : List SendWr) : ℕ := wrs.foldl (fun size wr => addSges size wr.sges) 0

theorem addSges_wrap (n : ℕ) (sges : List Sge) :
    addSges (wrap 64 n) sges = wrap 64 (n + (sges.map fun s => s.length.toNat).sum) := by
  induction sges generalizing n with
  | nil => rfl
  | cons s sges ih =>
    have hstep : wrap 64 (wrap 64 n + s.length.toNat) = wrap 64 (n + s.length.toNat) :=
      Nat.mod_add_mod _ _ _
    simp only [addSges, List.foldl_cons, List.map_cons, List.sum_cons] at ih ⊢
    rw [hstep, ih, add_assoc]

/-- The computed size is the total length modulo the word. -/
theorem sendSize_eq (wrs : List SendWr) : sendSize wrs = wrap 64 (totalBytes wrs) := by
  have hgen (n : ℕ) : wrs.foldl (fun size wr => addSges size wr.sges) (wrap 64 n) =
      wrap 64 (n + totalBytes wrs) := by
    induction wrs generalizing n with
    | nil => rfl
    | cons wr wrs ih =>
      rw [List.foldl_cons, addSges_wrap, ih, totalBytes_cons, SendWr.bytes, add_assoc]
  simpa [sendSize, wrap] using hgen 0

end RdmaperfIso
