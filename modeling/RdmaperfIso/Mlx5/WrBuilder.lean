import RdmaperfIso.Mlx5.PostSend

/-! The `ibv_wr_*` calls of an extended queue pair. A session starts with the lock of the
send queue; each request is opened by a builder, completed by its setters, and covered by
the doorbell of `wr_complete`. The counters of the queue stay as they are until then, so that
rolling back is forgetting the session. -/
namespace RdmaperfIso.Mlx5
open Outcome

/-- The builders, with the arguments that they store. -/
inductive WrOp where
  | send
  | sendImm (immData : UInt32)
  | sendInv (invalidateRkey : UInt32)
  | rdmaWrite (rkey : UInt32) (remoteAddr : UInt64)
  | rdmaWriteImm (rkey : UInt32) (remoteAddr : UInt64) (immData : UInt32)
  | rdmaRead (rkey : UInt32) (remoteAddr : UInt64)
  | atomicCmpSwp (rkey : UInt32) (remoteAddr compare swap : UInt64)
  | atomicFetchAdd (rkey : UInt32) (remoteAddr add : UInt64)
  | bindMw (mwRkey rkey : UInt32) (info : BindInfo)
  | localInv (invalidateRkey : UInt32)
  | sendTso (hdrSz mss : UInt16)
  deriving DecidableEq, Repr

namespace WrOp

def opcode : WrOp → WrOpcode
  | send => .send
  | sendImm _ => .sendWithImm
  | sendInv _ => .sendWithInv
  | rdmaWrite _ _ => .rdmaWrite
  | rdmaWriteImm _ _ _ => .rdmaWriteWithImm
  | rdmaRead _ _ => .rdmaRead
  | atomicCmpSwp _ _ _ _ => .atomicCmpAndSwp
  | atomicFetchAdd _ _ _ => .atomicFetchAndAdd
  | bindMw _ _ _ => .bindMw
  | localInv _ => .localInv
  | sendTso _ _ => .tso

def imm : WrOp → Option UInt32
  | sendImm i | sendInv i | rdmaWriteImm _ _ i | bindMw i _ _ | localInv i => some i
  | _ => none

end WrOp

/-- The functions that `mlx5_qp_fill_wr_pfns` sets; the other pointers are null. -/
def Qp.supports (qp : Qp) (op : WrOp) : Bool :=
  match qp.qpType with
  | .rc | .xrcSend | .driver => op.opcode ≠ .tso
  | .uc => op.opcode ∉ [.tso, .rdmaRead, .atomicCmpAndSwp, .atomicFetchAndAdd]
  | .ud => !qp.underlay && op.opcode ∈ [.send, .sendWithImm]
  | .rawPacket => op.opcode ∈ [.send, .tso]
  | .xrcRecv => false

/-- The address segment that a setter fills in: datagram or XRC. -/
def Qp.transportBytes (qp : Qp) : ℕ :=
  match qp.qpType with
  | .ud | .driver => 48
  | .xrcSend => 16
  | _ => 0

/-- Setters that complete a request; the address types need one for the address as well. -/
def Qp.requiredSetters (qp : Qp) : ℕ := if qp.transportBytes = 0 then 1 else 2

/-- The request that the setters are for. -/
structure OpenWqe where
  ctrl : Ctrl
  address : List Segment
  cur : Cursor
  inlineHeader : Bool
  hasData : Bool
  setters : ℕ
  deriving DecidableEq, Repr

/-- `built` are the finished entries, `err` the first error. -/
structure Session where
  curPost : UInt32
  fmCache : Fence
  err : Option Errno
  nreq : ℕ
  current : Option OpenWqe
  built : List Wqe
  deriving DecidableEq, Repr

/-- `_common_wqe_init`: the control segment, which starts at the block of `cur_post`. -/
def commonWqeInit (qp : Qp) (s : Session) (flags : SendFlags) (op : WrOp) : Ctrl where
  wqeIndex := s.curPost &&& 0xffff
  opcode := (ibOpcode op.opcode).getD 0
  imm := none
  fence := if flags.fence then .full else s.fmCache
  cqUpdate := qp.sqSigAll || flags.signaled
  solicited := flags.solicited
  qpn := qp.qpNum
  ds := 0

/-- `_common_wqe_finilize`. -/
def commonWqeFinilize (s : Session) (ctrl : Ctrl) (size : ℕ) (segs : List Segment) : Session :=
  { s with
    curPost := s.curPost + wqebbs size
    current := none
    built := s.built ++ [⟨{ ctrl with ds := size }, segs⟩] }

/-- The segments that a builder writes itself. `c` is behind the control segment. -/
def builderSegs (qp : Qp) (flags : SendFlags) (op : WrOp) (c : Cursor) : Outcome Errno Cursor :=
  let body : Cursor := ⟨c.seg + qp.transportBytes, c.size + qp.transportBytes / 16, []⟩
  let body := body.wrap qp.qend
  match op with
  | .send =>
    if qp.qpType = .rawPacket then do
      require (c.seg + 32 ≤ qp.qend)
      check (flags.ipCsum → qp.csumRaw) .einval
      c.put qp.qend (ethSeg qp flags.ipCsum)
    else pure body
  | .sendTso hdrSz mss => do
    require (c.seg + 32 ≤ qp.qend)
    check (flags.ipCsum → qp.csumRaw) .einval
    setTsoEthSeg qp flags.ipCsum hdrSz.toNat mss c
  | .sendImm _ | .sendInv _ => pure body
  | .rdmaWrite rkey raddr | .rdmaWriteImm rkey raddr _ | .rdmaRead rkey raddr =>
    body.put qp.qend (.raddr raddr rkey)
  | .atomicCmpSwp rkey raddr compare swap => do
    let c ← body.put qp.qend (.raddr raddr rkey)
    let c ← c.put qp.qend (.atomic swap (some compare))
    pure (c.wrap qp.qend)
  | .atomicFetchAdd rkey raddr add => do
    let c ← body.put qp.qend (.raddr raddr rkey)
    let c ← c.put qp.qend (.atomic add none)
    pure (c.wrap qp.qend)
  | .bindMw _ rkey info => setBindWr .type2 info qp rkey c
  | .localInv _ => setBindWr .type2 {} qp 0 c

/-- A builder. One that finds an unfinished request gives it up, because `cur_post` has not
moved past it; a memory window request has no setters. -/
def builder (qp : Qp) (sq : Sq) (flags : SendFlags) (op : WrOp) (s : Session) :
    Outcome Errno Session := do
  require (qp.supports op)
  check (wqOverflow qp.maxPost sq s.nreq = false) .enomem
  let pos := 64 * (s.curPost &&& (qp.wqeCnt - 1)).toNat
  require (pos + 16 ≤ qp.qend)
  let ctrl := { commonWqeInit qp s flags op with imm := op.imm }
  let c ← builderSegs qp flags op ⟨pos + 16, 1, []⟩
  if op.opcode = .bindMw ∨ op.opcode = .localInv then
    pure (commonWqeFinilize { s with fmCache := .initiatorSmall, nreq := s.nreq + 1 } ctrl c.size
      c.segs)
  else
    pure
      { s with
        fmCache := .none
        nreq := s.nreq + 1
        current := some
          ⟨ctrl, [], c, op.opcode = .send ∧ qp.qpType = .rawPacket ∧ qp.ethMinInlineSize ≠ 0,
            false, 0⟩ }

/-- The setters. Inline data is given by its lengths. -/
inductive Setter where
  | sge (s : Sge)
  | sgeList (sges : List Sge)
  | inlineData (length : ℕ)
  | inlineDataList (lengths : List ℕ)
  | udAddr (remoteQpn remoteQkey : UInt32)
  | xrcSrqn (remoteSrqn : UInt32)
  | dcAddr (remoteDctn : UInt32) (remoteDcKey : UInt64)
  deriving DecidableEq, Repr

/-- `memcpy_to_wqe_and_update`. -/
def memcpyToWqe (qp : Qp) (dest n : ℕ) : Outcome Errno ℕ :=
  if qp.qend < dest + n then do
    require (dest ≤ qp.qend ∧ dest + n - qp.qend ≤ qp.qend)
    pure (dest + n - qp.qend)
  else pure (dest + n)

/-- An `int` limit, compared with a `size_t`. -/
def asSize (limit : ℤ) : ℕ := (limit % 2 ^ 64).toNat

section Data
variable (qp : Qp)

/-- The start of the data after the inline header, if the request has one. -/
def headerPtr (o : OpenWqe) (lengths : List ℕ) : Outcome Errno SgCopyPtr :=
  if o.inlineHeader then copyEthInlineHeaders qp.ethMinInlineSize lengths.length lengths
  else pure ⟨0, 0⟩

def putSge (c : Cursor) (s : Sge) : Outcome Errno Cursor :=
  if s.length = 0 then pure c else c.put qp.qend (.data s.length s.lkey s.addr)

/-- What is left of an entry that starts at the offset. -/
def skip (offset : ℕ) (s : Sge) : Sge :=
  { s with length := s.length - UInt32.ofNat offset, addr := s.addr + UInt64.ofNat offset }

def skipFirst (offset : ℕ) : List Sge → List Sge
  | [] => []
  | s :: sges => skip offset s :: sges

/-- Entries one after another, around the end of the queue. -/
def putSgeList (sges : List Sge) (c : Cursor) : Outcome Errno Cursor :=
  sges.foldlM (fun c s => putSge qp (c.wrap qp.qend) s) c

/-- One buffer: the size so far and the position. -/
def copyBuf (e : Errno) (r : ℕ × ℕ) (n : ℕ) : Outcome Errno (ℕ × ℕ) := do
  check (r.1 + n ≤ asSize qp.maxInlineData) e
  let dest ← memcpyToWqe qp r.2 n
  pure (r.1 + n, dest)

def putInline (e : Errno) (lengths : List ℕ) (c : Cursor) : Outcome Errno Cursor := do
  let r ← lengths.foldlM (copyBuf qp e) (0, c.seg + 4)
  pure (if r.1 = 0 then c else c.addInline r.1)

def subFirst (offset : ℕ) : List ℕ → List ℕ
  | [] => []
  | n :: ns => (n - offset) :: ns

/-- The data setters. On raw packets an inline list that is too long is a different error. -/
def setData (o : OpenWqe) : Setter → Outcome Errno Cursor
  | .sge s => do
    let ptr ← headerPtr qp o [s.length.toNat]
    putSge qp o.cur (skip ptr.offset s)
  | .sgeList sges => do
    check (sges.length ≤ asSize qp.maxGs) .enomem
    let ptr ← headerPtr qp o (sges.map fun s => s.length.toNat)
    putSgeList qp (skipFirst ptr.offset (sges.drop ptr.index)) o.cur
  | .inlineData n => do
    let ptr ← headerPtr qp o [n]
    if n = ptr.offset then pure o.cur else putInline qp .enomem [n - ptr.offset] o.cur
  | .inlineDataList lengths => do
    let ptr ← headerPtr qp o lengths
    putInline qp (if qp.qpType = .rawPacket then .einval else .enomem)
      (subFirst ptr.offset (lengths.drop ptr.index)) o.cur
  | _ => undefined

end Data

/-- A setter. The address setters exist for one type each, and a second data setter would
write over the first. -/
def applySetter (qp : Qp) (o : OpenWqe) (setter : Setter) : Outcome Errno OpenWqe :=
  match setter with
  | .udAddr qpn qkey => do
    require (qp.qpType = .ud)
    pure { o with address := [.datagram (qpn ||| 0x80000000) qkey] }
  | .xrcSrqn srqn => do
    require (qp.qpType = .xrcSend)
    pure { o with address := [.xrc srqn] }
  | .dcAddr dctn key => do
    require (qp.qpType = .driver)
    pure { o with address := [.datagram (dctn ||| 0x80000000) key.toUInt32] }
  | _ => do
    require (o.hasData = false)
    let c ← setData qp o setter
    pure { o with cur := c, hasData := true }

/-- The last setter that a request needs finishes it. Without an open request a setter would
write into a finished entry and advance `cur_post` over blocks that hold old entries. -/
def setterCall (qp : Qp) (setter : Setter) (s : Session) : Outcome Errno Session := do
  match s.current with
  | none => undefined
  | some o =>
    let o ← applySetter qp o setter
    if o.setters + 1 < qp.requiredSetters then
      pure { s with current := some { o with setters := o.setters + 1 } }
    else pure (commonWqeFinilize s o.ctrl o.cur.size (o.address ++ o.cur.segs))

/-- An error is kept for `wr_complete`, and what is written after it is given up there. -/
def Session.perform (s : Session) (f : Session → Outcome Errno Session) : Option Session :=
  if s.err.isSome then some s
  else
    match f s with
    | ok s' => some s'
    | error e => some { s with err := some e }
    | undefined => none

/-- A send queue, and the session that holds its lock. -/
structure QpState where
  sq : Sq
  session : Option Session
  deriving DecidableEq, Repr

namespace QpState

/-- `wr_start` does not return while the lock is held. -/
def wrStart (q : QpState) : Option QpState :=
  if q.session.isSome then none
  else some { q with session := some ⟨q.sq.curPost, q.sq.fmCache, none, 0, none, []⟩ }

def wrCall (q : QpState) (f : Session → Outcome Errno Session) : Option QpState := do
  let s ← q.session
  let s ← s.perform f
  some { q with session := some s }

/-- `wr_complete`: the queue and the entries that its doorbell covers. A request that is
still open may reach the device unfinished, by the copy that the doorbell makes. -/
def wrComplete (q : QpState) : Option (QpState × List Wqe) := do
  let s ← q.session
  if s.err.isSome then some (⟨q.sq, none⟩, [])
  else if s.current.isSome then none
  else
    some (⟨{ q.sq with
        head := q.sq.head + UInt32.ofNat s.nreq
        curPost := s.curPost
        fmCache := s.fmCache }, none⟩, s.built)

def wrAbort (q : QpState) : Option QpState :=
  q.session.map fun _ => ⟨q.sq, none⟩

end QpState
end RdmaperfIso.Mlx5
