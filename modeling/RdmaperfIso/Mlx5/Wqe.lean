import RdmaperfIso.Lib.Outcome
import RdmaperfIso.Mlx5.SendQueue
import RdmaperfIso.Verbs.WorkRequest

/-! Work queue entries: the segments that describe a request to the device, and the
position at which the next one is written. Positions are bytes from the start of the
queue; writing past its end is undefined. -/
namespace RdmaperfIso.Mlx5

inductive Errno where
  | einval | enomem | eopnotsupp
  deriving DecidableEq, Repr

/-- Access rights that a memory window key gets, and the range they are for. -/
structure MkeyAccess where
  flags : UInt8
  startAddr : UInt64
  len : UInt64
  deriving DecidableEq, Repr

/-- The segments after the control segment. `mkeyContext` without rights frees the key, and
`eth` is followed by `room` bytes for the inline header. -/
inductive Segment where
  | xrc (srqn : UInt32)
  | raddr (raddr : UInt64) (rkey : UInt32)
  | atomic (swapAdd : UInt64) (compare : Option UInt64)
  | datagram (dqp qkey : UInt32)
  | umrCtrl (flags : UInt8) (klmOctowords : UInt16) (mkeyMask : UInt64)
  | mkeyContext (qpnMkey : UInt32) (access : Option MkeyAccess)
  | klm (byteCount mkey : UInt32) (address : UInt64)
  | ethPad
  | eth (csum : Bool) (mss : UInt16) (inlineHdrSz room : ℕ)
  | inlineData (byteCount : ℕ)
  | data (byteCount lkey : UInt32) (addr : UInt64)
  deriving DecidableEq, Repr

namespace Segment

/-- What the segment takes of the queue. -/
def bytes : Segment → ℕ
  | xrc _ | raddr _ _ | atomic _ _ | ethPad | data _ _ _ => 16
  | datagram _ _ | umrCtrl _ _ _ => 48
  | mkeyContext _ _ | klm _ _ _ => 64
  | eth _ _ _ room => room
  | inlineData n => (n + 4 + 15) / 16 * 16

/-- The bytes that the device is told to move. -/
def payload : Segment → ℕ
  | inlineData n => n
  | data byteCount _ _ => byteCount.toNat
  | _ => 0

end Segment

/-- Fields of the control segment; `ds` is the length of the entry in units of 16 bytes. An `imm`
that is not written stays as the memory of the queue has it. -/
structure Ctrl where
  wqeIndex : UInt32
  opcode : ℕ
  imm : Option UInt32
  fence : Fence
  cqUpdate : Bool
  solicited : Bool
  qpn : UInt32
  ds : ℕ
  deriving DecidableEq, Repr

structure Wqe where
  ctrl : Ctrl
  segs : List Segment
  deriving DecidableEq, Repr

def Wqe.payload (w : Wqe) : ℕ := (w.segs.map Segment.payload).sum

def payload (wqes : List Wqe) : ℕ := (wqes.map Wqe.payload).sum

@[simp] theorem payload_nil : payload [] = 0 := rfl

@[simp] theorem payload_append (l₁ l₂ : List Wqe) :
    payload (l₁ ++ l₂) = payload l₁ + payload l₂ := by
  simp [payload]

@[simp] theorem payload_singleton (w : Wqe) : payload [w] = w.payload := by
  simp [payload]

/-- `mlx5_ib_opcode`. A value outside of the table has no entry. -/
def ibOpcode : WrOpcode → Option ℕ
  | .send => some 0x0a
  | .sendWithInv => some 0x01
  | .sendWithImm => some 0x0b
  | .rdmaWrite => some 0x08
  | .rdmaWriteWithImm => some 0x09
  | .rdmaRead => some 0x10
  | .atomicCmpAndSwp => some 0x11
  | .atomicFetchAndAdd => some 0x12
  | .bindMw | .localInv | .driver1 => some 0x25
  | .tso => some 0x0e
  | .other => none

/-- Where the next segment goes, the length so far, and the segments written. -/
structure Cursor where
  seg : ℕ
  size : ℕ
  segs : List Segment
  deriving DecidableEq, Repr

namespace Cursor
variable {qend : ℕ} {c c' : Cursor} {s : Segment}

def payload (c : Cursor) : ℕ := (c.segs.map Segment.payload).sum

def put (qend : ℕ) (c : Cursor) (s : Segment) : Outcome Errno Cursor := do
  Outcome.require (c.seg + s.bytes ≤ qend)
  pure ⟨c.seg + s.bytes, c.size + s.bytes / 16, c.segs ++ [s]⟩

/-- Inline data at the cursor, which has been copied there already. -/
def addInline (c : Cursor) (byteCount : ℕ) : Cursor :=
  let s := Segment.inlineData byteCount
  ⟨c.seg, c.size + s.bytes / 16, c.segs ++ [s]⟩

/-- `if (seg == qend) seg = mlx5_get_send_wqe(qp, 0)`. -/
def wrap (qend : ℕ) (c : Cursor) : Cursor := if c.seg = qend then { c with seg := 0 } else c

@[simp] theorem payload_wrap : (c.wrap qend).payload = c.payload := by
  unfold wrap
  split_ifs <;> rfl

@[simp] theorem payload_addInline (n : ℕ) : (c.addInline n).payload = c.payload + n := by
  simp [payload, addInline, Segment.payload]

theorem payload_put (h : c.put qend s = .ok c') : c'.payload = c.payload + s.payload := by
  simp only [put, Outcome.bind_eq_ok, Outcome.require_eq_ok, Outcome.pure_eq_ok] at h
  obtain ⟨-, -, rfl⟩ := h
  simp [payload]

end Cursor

/-- Position in the scatter list from which data segments are built. -/
structure SgCopyPtr where
  index : ℕ
  offset : ℕ
  deriving DecidableEq, Repr

end RdmaperfIso.Mlx5
