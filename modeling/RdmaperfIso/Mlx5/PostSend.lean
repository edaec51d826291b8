import RdmaperfIso.Mlx5.Wqe

/-! `_mlx5_post_send`: the encoding of a list of work requests as work queue entries. The
scatter position and the TSO budget are shared by all requests of the list. -/
namespace RdmaperfIso.Mlx5
open FixedWidth Outcome

def Qp.qend (qp : Qp) : ℕ := 64 * qp.wqeCnt.toNat

def isAtomic (op : WrOpcode) : Bool := op = .atomicCmpAndSwp || op = .atomicFetchAndAdd

/-- A request under construction. -/
structure Build where
  cur : Cursor
  ptr : SgCopyPtr
  maxTso : ℕ
  deriving DecidableEq, Repr

def align16 (n : ℕ) : ℕ := (n + 15) / 16 * 16

section MemoryWindow
variable (type : MwType) (info : BindInfo)

/-- Flags: translation offset and inline, check for a free key, check of the number. -/
def umrControlSeg : Segment :=
  let two := type = .type2
  if info.length = 0 then
    .umrCtrl (if two then 0x98 else 0x90) 0 (if two then 0x20006000 else 0x20002000)
  else .umrCtrl (if two then 0xb0 else 0x90) 4 (if two then 0x203c6041 else 0x203c2041)

/-- Access flags of a key, from those of the bind. -/
def mkeyAccessFlags (acc : UInt32) : UInt8 :=
  (if acc &&& 1 = 0 then 0 else 8) ||| (if acc &&& 2 = 0 then 0 else 32) |||
    (if acc &&& 4 = 0 then 0 else 16) ||| if acc &&& 8 = 0 then 0 else 64

def umrMkeySeg (rkey qpn : UInt32) : Segment :=
  let qpn : UInt32 := if type = .type1 ∨ info.length = 0 then 0xffffff00 else qpn <<< 8
  .mkeyContext ((rkey &&& (0xff : UInt32)) ||| qpn)
    (if info.length = 0 then none
      else some
        ⟨mkeyAccessFlags info.accessFlags,
          if info.accessFlags &&& 32 = 0 then info.addr else 0, info.length⟩)

/-- `set_bind_wr`. The comparison before the last segment is of the variable that holds the
position, so that this segment is never moved to the start of the queue. -/
def setBindWr (qp : Qp) (rkey : UInt32) (c : Cursor) : Outcome Errno Cursor := do
  check (info.length ≤ 0x80000000) .eopnotsupp
  let c ← c.put qp.qend (umrControlSeg type info)
  let c ← (c.wrap qp.qend).put qp.qend (umrMkeySeg type info rkey qp.qpNum)
  if info.length = 0 then pure c
  else c.put qp.qend (.klm info.length.toUInt32 info.lkey info.addr)

end MemoryWindow

/-- The inner switch of reliable connections, which XRC falls into. -/
def rcSegs (qp : Qp) (wr : SendWr) (c : Cursor) : Outcome Errno Cursor :=
  match wr.opcode with
  | .rdmaRead | .rdmaWrite | .rdmaWriteWithImm =>
    c.put qp.qend (.raddr wr.args.remoteAddr wr.args.rkey)
  | .atomicCmpAndSwp => do
    check qp.atomicsEnabled .eopnotsupp
    let c ← c.put qp.qend (.raddr wr.args.remoteAddr wr.args.rkey)
    c.put qp.qend (.atomic wr.args.swap (some wr.args.compareAdd))
  | .atomicFetchAndAdd => do
    check qp.atomicsEnabled .eopnotsupp
    let c ← c.put qp.qend (.raddr wr.args.remoteAddr wr.args.rkey)
    c.put qp.qend (.atomic wr.args.compareAdd none)
  | .bindMw => setBindWr wr.args.mwType wr.args.bindInfo qp wr.args.bindRkey c
  | .localInv => setBindWr .type2 {} qp 0 c
  | _ => pure c

def xrcSegs (qp : Qp) (wr : SendWr) (c : Cursor) : Outcome Errno Cursor :=
  if wr.opcode ≠ .bindMw ∧ wr.opcode ≠ .localInv then
    c.put qp.qend (.xrc wr.args.remoteSrqn)
  else pure c

def ucSegs (qp : Qp) (wr : SendWr) (c : Cursor) : Outcome Errno Cursor :=
  match wr.opcode with
  | .rdmaWrite | .rdmaWriteWithImm => c.put qp.qend (.raddr wr.args.remoteAddr wr.args.rkey)
  | .bindMw => setBindWr wr.args.mwType wr.args.bindInfo qp wr.args.bindRkey c
  | .localInv => setBindWr .type2 {} qp 0 c
  | _ => pure c

/-- The header that an underlay request copies out of its first entry: 18 bytes of an
inline request that has them, and 4 otherwise. -/
def underlayHeader (wr : SendWr) (length : ℕ) : ℕ :=
  if 18 ≤ length ∧ wr.sendFlags.inline then 18 else 4

/-- `mlx5_post_send_underlay`. The first entry is read whatever `num_sge` is. -/
def postSendUnderlay (qp : Qp) (wr : SendWr) (b : Build) : Outcome Errno Build := do
  check (wr.opcode ≠ .sendWithImm) .einval
  let c ← b.cur.put qp.qend .ethPad
  check (wr.sendFlags.ipCsum → qp.csumUnderlay) .einval
  match wr.sgList with
  | [] => undefined
  | s :: _ =>
    let hdr := underlayHeader wr s.length.toNat
    check (4 ≤ s.length.toNat) .einval
    let c ← c.put qp.qend (.eth wr.sendFlags.ipCsum 0 hdr 32)
    pure
      { b with
        cur := c
        ptr := if s.length.toNat = hdr then ⟨b.ptr.index + 1, b.ptr.offset⟩
          else ⟨b.ptr.index, hdr⟩ }

/-- `set_tso_eth_seg`, and the step over the segment that its caller makes. A header that
reaches the end of the queue goes on at its start. -/
def setTsoEthSeg (qp : Qp) (csum : Bool) (hdrSz : ℕ) (mss : UInt16) (c : Cursor) :
    Outcome Errno Cursor := do
  check (14 ≤ hdrSz ∧ hdrSz ≤ qp.maxTsoHeader) .einval
  let copySz := min (qp.qend - (c.seg + 14)) hdrSz
  let left := hdrSz - copySz
  require (c.seg + 32 ≤ qp.qend ∧ left ≤ qp.qend)
  let seg := if copySz < hdrSz then align16 left else c.seg + (align16 (copySz - 2) - 16)
  let room := align16 (copySz - 2) - 16 + align16 left + 32
  pure ⟨seg + 32, c.size + room / 16, c.segs ++ [.eth csum mss hdrSz room]⟩

/-- The loop of `copy_eth_inline_headers`: entries are used until the header is complete.
It returns the number of entries used, and the length and the part used of the last. -/
def copyHeaders : (nelem left : ℕ) → List ℕ → (j length copy : ℕ) → Outcome Errno (ℕ × ℕ × ℕ)
  | nelem, left, lengths, j, length, copy =>
    if nelem = 0 ∨ left = 0 then do
      check (left = 0) .einval
      pure (j, length, copy)
    else
      match lengths with
      | [] => undefined
      | l :: ls => copyHeaders (nelem - 1) (left - min l left) ls (j + 1) l (min l left)

/-- An entry that has been used up is not the one from which the data starts. -/
def headerEnd (j length copy : ℕ) : SgCopyPtr := if length = copy then ⟨j + 1, 0⟩ else ⟨j, copy⟩

/-- `copy_eth_inline_headers`, on the lengths of the readable entries. -/
def copyEthInlineHeaders (inlHdrSize nelem : ℕ) (lengths : List ℕ) : Outcome Errno SgCopyPtr := do
  check (1 ≤ nelem) .einval
  match lengths with
  | [] => undefined
  | l :: _ =>
    if 18 ≤ l then pure (headerEnd 0 l inlHdrSize)
    else
      let r ← copyHeaders nelem inlHdrSize lengths 0 l 0
      pure (headerEnd (r.1 - 1) r.2.1 r.2.2)

/-- The Ethernet segment of a raw packet without TSO. -/
def ethSeg (qp : Qp) (csum : Bool) : Segment :=
  .eth csum 0 qp.ethMinInlineSize ((16 + qp.ethMinInlineSize) / 16 * 16)

/-- The case of raw packets. A negative `num_sge` is a huge `nelem`. -/
def ethSegs (qp : Qp) (wr : SendWr) (b : Build) : Outcome Errno Build := do
  require (b.cur.seg + 32 ≤ qp.qend)
  check (wr.sendFlags.ipCsum → qp.csumRaw) .einval
  if wr.opcode = .tso then
    let c ← setTsoEthSeg qp wr.sendFlags.ipCsum wr.args.hdrSz.toNat wr.args.mss b.cur
    pure { b with cur := c, maxTso := qp.maxTso }
  else
    let ptr ← copyEthInlineHeaders qp.ethMinInlineSize (wr.numSge % 2 ^ 64).toNat
      (wr.sgList.map fun s => s.length.toNat)
    let c ← b.cur.put qp.qend (ethSeg qp wr.sendFlags.ipCsum)
    pure { b with cur := c, ptr := ptr }

/-- The switch on the type of the queue pair. -/
def transportSegs (qp : Qp) (wr : SendWr) (b : Build) : Outcome Errno Build :=
  match qp.qpType with
  | .xrcSend => do
    let c ← xrcSegs qp wr b.cur
    let c ← rcSegs qp wr c
    pure { b with cur := c }
  | .rc => do
    let c ← rcSegs qp wr b.cur
    pure { b with cur := c }
  | .uc => do
    let c ← ucSegs qp wr b.cur
    pure { b with cur := c }
  | .ud => do
    let c ← b.cur.put qp.qend (.datagram (wr.args.remoteQpn ||| 0x80000000) wr.args.remoteQkey)
    let b := { b with cur := c.wrap qp.qend }
    if qp.underlay then postSendUnderlay qp wr b else pure b
  | .rawPacket => ethSegs qp wr b
  | .xrcRecv | .driver => pure b

/-- A copy in progress: the position, the bytes so far, and the start in the next entry. -/
structure InlineCopy where
  wqe : ℕ
  inl : ℤ
  offset : ℕ
  deriving DecidableEq, Repr

/-- One iteration of `set_data_inl_seg`. The sum of lengths must not overflow an `int`, and
neither of the two copies may have a negative length or leave the queue. -/
def copyOne (qp : Qp) (r : InlineCopy) (s : Sge) : Outcome Errno InlineCopy := do
  let len := toSigned 32 (s.length.toNat - r.offset)
  require (r.inl + len < 2 ^ 31)
  check (r.inl + len ≤ qp.maxInlineData) .enomem
  if (qp.qend : ℤ) < r.wqe + len then
    let rest := len - (qp.qend - r.wqe)
    require (r.wqe ≤ qp.qend ∧ rest ≤ qp.qend)
    pure ⟨rest.toNat, r.inl + len, 0⟩
  else
    require (0 ≤ len)
    pure ⟨r.wqe + len.toNat, r.inl + len, 0⟩

/-- `set_data_inl_seg`, which leaves the scatter position as it was. -/
def setDataInlSeg (qp : Qp) (sges : List Sge) (b : Build) : Outcome Errno Build := do
  let r ← sges.foldlM (copyOne qp) ⟨b.cur.seg + 4, 0, b.ptr.offset⟩
  if r.inl = 0 then pure b else pure { b with cur := b.cur.addInline r.inl.toNat }

/-- One iteration of the loop over the gather entries. Empty entries are skipped, and an
atomic operation moves eight bytes whatever the length of its entry is. -/
def gatherOne (qp : Qp) (op : WrOpcode) (b : Build) (s : Sge) : Outcome Errno Build :=
  let c := b.cur.wrap qp.qend
  if s.length = 0 then pure { b with cur := c }
  else if isAtomic op then do
    let c ← c.put qp.qend (.data 8 s.lkey s.addr)
    pure { b with cur := c, ptr := ⟨b.ptr.index, 0⟩ }
  else do
    check (op = .tso → s.length.toNat ≤ b.maxTso) .einval
    let c ← c.put qp.qend (.data (s.length - UInt32.ofNat b.ptr.offset) s.lkey
      (s.addr + UInt64.ofNat b.ptr.offset))
    pure ⟨c, ⟨b.ptr.index, 0⟩, if op = .tso then b.maxTso - s.length.toNat else b.maxTso⟩

def dataSegs (qp : Qp) (wr : SendWr) (b : Build) : Outcome Errno Build :=
  let sges := wr.sges.drop b.ptr.index
  if wr.sendFlags.inline ∧ wr.numSge ≠ 0 then setDataInlSeg qp sges b
  else sges.foldlM (gatherOne qp wr.opcode) b

/-- Whether the request binds or invalidates a memory window key on this queue pair. -/
def isBind (qp : Qp) (op : WrOpcode) : Bool :=
  (qp.qpType = .rc || qp.qpType = .xrcSend || qp.qpType = .uc) && (op = .bindMw || op = .localInv)

/-- `send_ieth`, and what the bind operations store in its place. -/
def ctrlImm (qp : Qp) (wr : SendWr) : UInt32 :=
  match wr.opcode with
  | .sendWithImm | .rdmaWriteWithImm | .sendWithInv => wr.args.immData
  | .bindMw => if isBind qp wr.opcode then wr.args.mwRkey else 0
  | .localInv => if isBind qp wr.opcode then wr.args.immData else 0
  | _ => 0

/-- The variables of the loop over the requests. -/
structure PostState where
  curPost : UInt32
  nextFence : Fence
  ptr : SgCopyPtr
  maxTso : ℕ
  wqes : List Wqe
  deriving DecidableEq, Repr

/-- `DIV_ROUND_UP(size * 16, MLX5_SEND_WQE_BB)`. -/
def wqebbs (size : ℕ) : UInt32 := UInt32.ofNat ((size * 16 + 63) / 64)

def nextFence (qp : Qp) (wr : SendWr) : Fence :=
  if isBind qp wr.opcode then .initiatorSmall else .none

/-- The control segment of a request. -/
def ctrlSeg (qp : Qp) (st : PostState) (wr : SendWr) (opcode size : ℕ) : Ctrl where
  wqeIndex := st.curPost &&& 0xffff
  opcode := opcode
  imm := some (ctrlImm qp wr)
  fence := if wr.sendFlags.fence then .full else st.nextFence
  cqUpdate := qp.sqSigAll || wr.sendFlags.signaled
  solicited := wr.sendFlags.solicited
  qpn := qp.qpNum
  ds := size

/-- One accepted request: its entry starts at the block of `cur_post`. -/
def buildWqe (qp : Qp) (st : PostState) (wr : SendWr) (opcode : ℕ) : Outcome Errno PostState := do
  let ctrl := 64 * (st.curPost &&& (qp.wqeCnt - 1)).toNat
  require (ctrl + 16 ≤ qp.qend)
  let b ← transportSegs qp wr ⟨⟨ctrl + 16, 1, []⟩, st.ptr, st.maxTso⟩
  let b ← dataSegs qp wr b
  pure
    { curPost := st.curPost + wqebbs b.cur.size
      nextFence := nextFence qp wr
      ptr := b.ptr
      maxTso := b.maxTso
      wqes := st.wqes ++ [⟨ctrlSeg qp st wr opcode b.cur.size, b.cur.segs⟩] }

/-- One iteration of the loop over the requests. An error comes with the fence that is left
for the next call: it has been cleared or set by the time the segments are built. -/
def postOne (qp : Qp) (sq : Sq) (st : PostState) (wr : SendWr) :
    Outcome (Errno × Fence) PostState :=
  match ibOpcode wr.opcode with
  | none => error (.einval, st.nextFence)
  | some opcode => do
    check (wqOverflow qp.maxPost sq st.wqes.length = false) (.enomem, st.nextFence)
    check (wr.numSge ≤ qp.maxGs) (.enomem, st.nextFence)
    (buildWqe qp st wr opcode).mapError fun e => (e, nextFence qp wr)

/-- What a call leaves: the queue, the entries that its doorbell covers, and the error
with the requests from the refused one on. -/
structure Posted where
  sq : Sq
  rung : List Wqe
  failed : Option (Errno × List SendWr)

/-- The code after the loop. The doorbell is rung if there is an entry, also after an error. -/
def finish (sq : Sq) (st : PostState) (failed : Option (Errno × List SendWr)) : Posted where
  sq :=
    { sq with
      head := sq.head + UInt32.ofNat st.wqes.length
      curPost := st.curPost
      fmCache := st.nextFence }
  rung := st.wqes
  failed := failed

def postLoop (qp : Qp) (sq : Sq) : PostState → List SendWr → Option Posted
  | st, [] => some (finish sq st none)
  | st, wr :: wrs =>
    match postOne qp sq st wr with
    | ok st => postLoop qp sq st wrs
    | error (e, fence) => some (finish sq { st with nextFence := fence } (some (e, wr :: wrs)))
    | undefined => none

/-- `_mlx5_post_send`. There is no result when its behaviour is undefined. -/
def mlx5PostSend (qp : Qp) (sq : Sq) (wrs : List SendWr) : Option Posted :=
  postLoop qp sq ⟨sq.curPost, sq.fmCache, ⟨0, 0⟩, 0, []⟩ wrs

end RdmaperfIso.Mlx5
