import RdmaperfIso.Lib.BlockRing
import RdmaperfIso.Lib.Reactive
import RdmaperfIso.Mlx5.Payload
import RdmaperfIso.Mlx5.WorkCompletion
import RdmaperfIso.Mlx5.WqeSize

/-! The send queue as a ring. Posting keeps the `wr_id` of a request at the first block of its
entry, with the number of the request; a completion names that block, and everything up to its
request is given back. Completions then say what was posted, in order, and no entry that the
device still has to read is overwritten. -/
namespace RdmaperfIso.Mlx5.SendRing
open Outcome BlockRing Reactive

/-- What the arrays `wrid`, `wqe_head` and `wr_data` hold at a block, and the entry that begins
there, if nothing has been written over it. -/
structure Slot where
  wrid : UInt64
  wqeHead : UInt32
  wrData : WcOpcode
  entry : Option Wqe
  deriving DecidableEq, Repr

def idx (qp : Qp) (n : UInt32) : ℕ := (n &&& (qp.wqeCnt - 1)).toNat

/-- The completion opcode that is kept for a bind. -/
def bindData (op : WrOpcode) : WcOpcode := if op = .bindMw then .bindMw else .localInv

/-- `wr_data`, which only the bind operations set. -/
def storeData (qp : Qp) (st : PostState) (wr : SendWr) (ring : ℕ → Slot) : ℕ → Slot :=
  let i := idx qp st.curPost
  if isBind qp wr.opcode then Function.update ring i { ring i with wrData := bindData wr.opcode }
  else ring

/-- The entries that began in `n` blocks are written over. -/
def spoil (qp : Qp) (first : UInt32) : (n : ℕ) → (ℕ → Slot) → ℕ → Slot
  | 0, ring => ring
  | n + 1, ring =>
    let i := idx qp (first + UInt32.ofNat n)
    spoil qp first n (Function.update ring i { ring i with entry := none })

/-- `wrid` and `wqe_head`, when the entry is complete, and the entry. -/
def storeWr (qp : Qp) (sq : Sq) (st st' : PostState) (wr : SendWr) (ring : ℕ → Slot) : ℕ → Slot :=
  let i := idx qp st.curPost
  let ring := spoil qp st.curPost (st'.curPost - st.curPost).toNat ring
  Function.update ring i
    { ring i with
      wrid := wr.wrId
      wqeHead := sq.head + UInt32.ofNat st.wqes.length
      entry := st'.wqes.getLast? }

/-- Whether the request passes the checks in front of its entry. -/
def hasBegun (qp : Qp) (sq : Sq) (st : PostState) (wr : SendWr) : Bool :=
  (ibOpcode wr.opcode).isSome && !wqOverflow qp.maxPost sq st.wqes.length &&
    decide (wr.numSge ≤ qp.maxGs)

/-- Whether the switch on the type has been left, after which an error comes too late for
`wr_data`. -/
def hasTransport (qp : Qp) (st : PostState) (wr : SendWr) : Bool :=
  match transportSegs qp wr ⟨⟨64 * idx qp st.curPost + 16, 1, []⟩, st.ptr, st.maxTso⟩ with
  | ok _ => true
  | _ => false

/-- What a refused request leaves. Of its entry, parts may have been written, within the share
that a request has of the queue. -/
def storeRefused (qp : Qp) (sq : Sq) (st : PostState) (wr : SendWr) (ring : ℕ → Slot) :
    ℕ → Slot :=
  if hasBegun qp sq st wr then
    spoil qp st.curPost (qp.wqeCnt / qp.maxPost).toNat
      (if hasTransport qp st wr then storeData qp st wr ring else ring)
  else ring

/-- The loop of `_mlx5_post_send`, with the arrays and the entries that it writes. -/
def postLoop (qp : Qp) (sq : Sq) : PostState → (ℕ → Slot) → List SendWr →
    Option (Posted × (ℕ → Slot))
  | st, ring, [] => some (finish sq st none, ring)
  | st, ring, wr :: wrs =>
    match postOne qp sq st wr with
    | ok st' => postLoop qp sq st' (storeWr qp sq st st' wr (storeData qp st wr ring)) wrs
    | error (e, fence) =>
      some (finish sq { st with nextFence := fence } (some (e, wr :: wrs)),
        storeRefused qp sq st wr ring)
    | undefined => none

/-- The arrays do not influence what is posted. -/
theorem postLoop_fst (qp : Qp) (sq : Sq) (st : PostState) (ring : ℕ → Slot) (wrs : List SendWr) :
    (postLoop qp sq st ring wrs).map Prod.fst = Mlx5.postLoop qp sq st wrs := by
  induction wrs generalizing st ring with
  | nil => rfl
  | cons wr wrs ih =>
    rw [postLoop, Mlx5.postLoop]
    rcases postOne qp sq st wr with st' | e | _
    · exact ih _ _
    · rfl
    · rfl

/-- `handle_good_req`: the opcode, the flag and the length. -/
def handleGoodReq (c : Cqe) (slot : Slot) : Option WcOpcode × Bool × Option UInt32 :=
  match (c.sopDropQpn >>> 24).toNat with
  | 0x09 => (some .rdmaWrite, true, none)
  | 0x08 => (some .rdmaWrite, false, none)
  | 0x0b => (some .send, true, none)
  | 0x0a | 0x01 => (some .send, false, none)
  | 0x10 => (some .rdmaRead, false, some c.byteCnt)
  | 0x11 => (some .compSwap, false, some 8)
  | 0x12 => (some .fetchAdd, false, some 8)
  | 0x25 => (some slot.wrData, false, none)
  | 0x0e => (some .tso, false, none)
  | _ => (none, false, none)

/-- The segments in front of the scatter list of an entry, for the opcodes whose responses have
data. -/
def scatStart (opcode : ℕ) : Option ℕ :=
  match opcode with
  | 0x10 => some 1
  | 0x11 | 0x12 => some 2
  | _ => none

/-- The scatter list behind the first `n` segments of an entry, as `mlx5_copy_to_send_wqe` finds
it: six bits of the length say where it ends. -/
def sendScat (w : Wqe) (n : ℕ) : List (Option ℕ) :=
  ((w.segs.drop n).take (w.ctrl.ds % 64 - (n + 1))).map fun
    | .data byteCount _ _ => some byteCount.toNat
    | _ => none

/-- `mlx5_copy_to_send_wqe`, for the entry at a block. The list may go on at the start of the
queue. A size that is not an `int` has no result. -/
def copyToSendWqe (qp : Qp) (i : ℕ) (entry : Option Wqe) (size : ℕ) : Option WcStatus :=
  if qp.qpType ≠ .rc then some .generalErr
  else
    entry.bind fun w =>
      match scatStart w.ctrl.opcode with
      | none => some .remInvReqErr
      | some n =>
        if 2 ^ 31 ≤ size then none
        else
          let scat := sendScat w n
          let tmp := 4 * (qp.wqeCnt.toNat - i) - (n + 1)
          if tmp < scat.length then
            (copyToScat size (scat.take tmp)).bind fun r =>
              if r.1 = .success then some .success
              else (copyToScat r.2 (scat.drop tmp)).map Prod.fst
          else (copyToScat size scat).map Prod.fst

/-- `mlx5_parse_cqe`, for the completions of requests, good and bad. -/
def parseReq (qp : Qp) (ring : ℕ → Slot) (sq : Sq) (c : Cqe) : Option (Wc × Sq) :=
  let i := idx qp c.wqeCounter.toUInt32
  let slot := ring i
  let sq := { sq with tail := slot.wqeHead + 1 }
  let qpNum := c.sopDropQpn &&& 0xffffff
  if c.opcode = .reqErr then
    some ({ qpNum, wrId := slot.wrid, status := handleErrorCqe c.syndrome,
            vendorErr := some c.vendorErrSynd }, sq)
  else
    let (opcode, withImm, byteLen) := handleGoodReq c slot
    -- Where no length is set, the entry is not for data, and the copy refuses it at any size.
    let err := if c.inlineScatter32 || c.inlineScatter64 then
      copyToSendWqe qp i slot.entry (byteLen.getD 0).toNat else some .success
    err.map fun status =>
      ({ qpNum, wrId := slot.wrid, status, opcode, byteLen, withImm }, sq)

/-- How the device ends a request. Data of the response may come with the completion. -/
structure Ending where
  syndrome : Option UInt8 := none
  vendorErr : UInt8 := 0
  byteCnt : UInt32 := 0
  inlineScatter32 : Bool := false
  inlineScatter64 : Bool := false
  deriving DecidableEq, Repr

/-- The completion that the device writes. -/
def reqCqe (w : Wqe) (o : Ending) : Cqe where
  opcode := if o.syndrome.isSome then .reqErr else .req
  owner := false
  inlineScatter32 := o.inlineScatter32
  inlineScatter64 := o.inlineScatter64
  sopDropQpn := UInt32.ofNat w.ctrl.opcode <<< 24 ||| (w.ctrl.qpn &&& 0xffffff)
  srqnUidx := 0
  wqeCounter := w.ctrl.wqeIndex.toUInt16
  byteCnt := o.byteCnt
  immInvalPkey := 0
  syndrome := o.syndrome.getD 0
  vendorErrSynd := o.vendorErr

/-- The bytes of a response. -/
def responseSize (w : Wqe) (o : Ending) : ℕ := if w.ctrl.opcode = 0x10 then o.byteCnt.toNat else 8

/-- Data comes with a completion only if the request is for data, and only what its scatter list
takes. -/
def Ending.Sound (qp : Qp) (w : Wqe) (o : Ending) : Prop :=
  o.syndrome = none → (o.inlineScatter32 || o.inlineScatter64) = true →
    qp.qpType = .rc ∧ responseSize w o < 2 ^ 31 ∧
      ∃ n ∈ scatStart w.ctrl.opcode, responseSize w o ≤ scatRoom (sendScat w n)

instance (qp : Qp) (w : Wqe) (o : Ending) : Decidable (o.Sound qp w) :=
  decidable_of_iff (o.syndrome = none → (o.inlineScatter32 || o.inlineScatter64) = true →
    qp.qpType = .rc ∧ responseSize w o < 2 ^ 31 ∧
      (scatStart w.ctrl.opcode).any fun n => responseSize w o ≤ scatRoom (sendScat w n))
    (by simp [Ending.Sound, Option.any_eq_true])

inductive Event where
  /-- `_mlx5_post_send`. -/
  | post (wrs : List SendWr)
  /-- The device ends the first request that it has. -/
  | execute (o : Ending)
  /-- A completion is polled and parsed. -/
  | poll

inductive Answer where
  | posted (accepted : List SendWr) (err : Option Errno)
  | executed (o : Ending)
  | polled (wc : Option Wc)

/-- The variables of `_mlx5_post_send` at the beginning. -/
def start (sq : Sq) : PostState := ⟨sq.curPost, sq.fmCache, ⟨0, 0⟩, 0, []⟩

/-- The queue, the entries that the device has been told of, and the completions that it has
written. -/
structure Machine where
  qp : Qp
  sq : Sq
  ring : ℕ → Slot
  flight : List Wqe
  cqes : List Cqe

namespace Machine

/-- The arrays come from `malloc`. -/
def init (qp : Qp) (ring : ℕ → Slot) : Machine := ⟨qp, ⟨0, 0, 0, .none⟩, ring, [], []⟩

def step (m : Machine) : Event → Option (Machine × List Answer)
  | .post wrs =>
    (postLoop m.qp m.sq (start m.sq) m.ring wrs).map fun r =>
      ({ m with sq := r.1.sq, ring := r.2, flight := m.flight ++ r.1.rung },
        [.posted (wrs.take r.1.rung.length) (r.1.failed.map Prod.fst)])
  | .execute o =>
    match m.flight with
    | [] => none
    | w :: flight =>
      if o.Sound m.qp w then
        -- A request that fails is reported whether it was to be or not.
        let cqes := if w.ctrl.cqUpdate || o.syndrome.isSome then m.cqes ++ [reqCqe w o] else m.cqes
        some ({ m with flight := flight, cqes := cqes }, [.executed o])
      else none
  | .poll =>
    match m.cqes with
    | [] => some (m, [.polled none])
    | c :: cqes =>
      (parseReq m.qp m.ring m.sq c).map fun r =>
        ({ m with sq := r.2, cqes := cqes }, [.polled (some r.1)])

end Machine

/-- A request with the entry that was built for it. -/
abbrev Item := SendWr × Wqe

/-- The blocks of an entry. -/
def len (it : Item) : ℕ := (it.2.ctrl.ds * 16 + 63) / 64

/-- What the control segment of an entry says about its request. -/
structure Built (qp : Qp) (room : ℕ) (it : Item) : Prop where
  cqUpdate_eq : it.2.ctrl.cqUpdate = (qp.sqSigAll || it.1.sendFlags.signaled)
  opcode_eq : ibOpcode it.1.opcode = some it.2.ctrl.opcode
  qpn_eq : it.2.ctrl.qpn = qp.qpNum
  ds_pos : 0 < it.2.ctrl.ds
  ds_le : 16 * it.2.ctrl.ds ≤ 64 * room

/-- What the arrays say at the first block of an entry. -/
structure Describes (qp : Qp) (slot : Slot) (h p : ℕ) (it : Item) : Prop where
  wrid_eq : slot.wrid = it.1.wrId
  wqeHead_eq : slot.wqeHead = UInt32.ofNat h
  wrData_eq : isBind qp it.1.opcode = true → slot.wrData = bindData it.1.opcode
  entry_eq : slot.entry = some it.2
  index_eq : it.2.ctrl.wqeIndex = UInt32.ofNat p &&& 0xffff

section Posting
variable {qp : Qp} {room h p : ℕ} {sq : Sq} {st st' : PostState} {ring : ℕ → Slot} {wr : SendWr}
  {wrs : List SendWr} {items new : List Item}

theorem idx_ofNat (hfits : Fits qp room) (n : ℕ) :
    idx qp (UInt32.ofNat n) = n % qp.wqeCnt.toNat := by
  obtain ⟨k, hk⟩ := hfits.cnt_eq
  have hcnt : 2 ^ k < 2 ^ 32 := hk ▸ qp.wqeCnt.toNat_lt
  have hlt : k < 32 := (Nat.pow_lt_pow_iff_right (by norm_num)).mp hcnt
  have hpos := Nat.two_pow_pos k
  have hone : 1 ≤ qp.wqeCnt := by
    rw [UInt32.le_iff_toNat_le, hk]
    exact hpos
  have hmask : qp.wqeCnt - 1 = UInt32.ofNat (2 ^ k - 1) := by
    rw [← UInt32.toNat_inj, UInt32.toNat_sub_of_le _ _ hone, hk, UInt32.toNat_ofNat',
      Nat.mod_eq_of_lt (by omega)]
    rfl
  rw [idx, hmask, and_sub_one_toNat hlt.le, hk]

/-- The queue in front of a request: the entries that the device has, and the new ones. -/
structure Posting (qp : Qp) (room : ℕ) (sq : Sq) (h p : ℕ) (items : List Item) (st : PostState)
    (ring : ℕ → Slot) (new : List Item) : Prop where
  tail_eq : sq.tail = UInt32.ofNat h
  head_eq : sq.head = UInt32.ofNat (h + items.length)
  placed : Placed qp.wqeCnt.toNat len (Describes qp) ring h p (items ++ new)
  built : ∀ it ∈ items ++ new, Built qp room it
  curPost_eq : st.curPost = UInt32.ofNat (p + total len (items ++ new))
  wqes_eq : st.wqes = new.map Prod.snd
  length_le : (items ++ new).length ≤ qp.maxPost.toNat

theorem len_pos {it : Item} (hit : Built qp room it) : 0 < len it := by
  have hds := hit.ds_pos
  unfold len
  omega

theorem len_le {it : Item} (hit : Built qp room it) : len it ≤ room := by
  have hds := hit.ds_le
  unfold len
  omega

/-- With room for one more request there is room for an entry of any length. -/
theorem total_add_le (hfits : Fits qp room) (hbuilt : ∀ it ∈ items, Built qp room it)
    (hlt : items.length < qp.maxPost.toNat) : total len items + room ≤ qp.wqeCnt.toNat := by
  have htotal : total len items ≤ items.length * room :=
    total_le fun it hit => len_le (hbuilt it hit)
  have hmul : (items.length + 1) * room ≤ qp.maxPost.toNat * room := Nat.mul_le_mul_right room hlt
  have hposts := hfits.posts_le
  rw [add_mul, one_mul] at hmul
  omega

theorem total_lt (hfits : Fits qp room) (hbuilt : ∀ it ∈ items, Built qp room it)
    (hlt : items.length < qp.maxPost.toNat) : total len items < qp.wqeCnt.toNat := by
  have hle := total_add_le hfits hbuilt hlt
  obtain ⟨k, hk⟩ := hfits.cnt_eq
  have hpos := Nat.two_pow_pos k
  rcases Nat.eq_zero_or_pos room with rfl | hroom
  · have htotal : total len items ≤ items.length * 0 :=
      total_le fun it hit => len_le (hbuilt it hit)
    omega
  · omega

/-- The share of a request is behind the other entries, too. -/
theorem total_add_share_le (hfits : Fits qp room) (hbuilt : ∀ it ∈ items, Built qp room it)
    (hlt : items.length < qp.maxPost.toNat) :
    total len items + (qp.wqeCnt / qp.maxPost).toNat ≤ qp.wqeCnt.toNat := by
  have hroom : room ≤ qp.wqeCnt.toNat / qp.maxPost.toNat := by
    rw [Nat.le_div_iff_mul_le (by omega), mul_comm]
    exact hfits.posts_le
  have htotal : total len items ≤ items.length * (qp.wqeCnt.toNat / qp.maxPost.toNat) :=
    total_le fun it hit => (len_le (hbuilt it hit)).trans hroom
  have hmul : (items.length + 1) * (qp.wqeCnt.toNat / qp.maxPost.toNat) ≤
      qp.maxPost.toNat * (qp.wqeCnt.toNat / qp.maxPost.toNat) := Nat.mul_le_mul_right _ hlt
  have hshare := Nat.mul_div_le qp.wqeCnt.toNat qp.maxPost.toNat
  rw [add_mul, one_mul] at hmul
  rw [UInt32.toNat_div]
  omega

/-- The overflow check counts the requests that were not given back. -/
theorem Posting.room_left (hp : Posting qp room sq h p items st ring new)
    (hover : wqOverflow qp.maxPost sq st.wqes.length = false) :
    (items ++ new).length < qp.maxPost.toNat := by
  have hle := hp.length_le
  have hmax := qp.maxPost.toNat_lt
  have hlen : st.wqes.length = new.length := by rw [hp.wqes_eq, List.length_map]
  rw [List.length_append] at hle ⊢
  rw [wqOverflow, decide_eq_false_iff_not, UInt32.le_iff_toNat_le, not_le, hp.head_eq, hp.tail_eq,
    UInt32.ofNat_add, UInt32.add_comm (UInt32.ofNat h), UInt32.add_sub_cancel, ← UInt32.ofNat_add,
    UInt32.toNat_ofNat', hlen] at hover
  omega

/-- The blocks behind the entries can be written without harm. -/
theorem Posting.write (hfits : Fits qp room) (hp : Posting qp room sq h p items st ring new) {i : ℕ}
    (hi : total len (items ++ new) + i < qp.wqeCnt.toNat) (slot : Slot) :
    Posting qp room sq h p items st
      (Function.update ring (idx qp (st.curPost + UInt32.ofNat i)) slot) new := by
  have hplaced := hp.placed.write (fun it hit => len_pos (hp.built it hit)) hi slot
  rw [← idx_ofNat hfits, UInt32.ofNat_add, ← hp.curPost_eq] at hplaced
  exact { hp with placed := hplaced }

theorem Posting.spoil (hfits : Fits qp room) (hp : Posting qp room sq h p items st ring new) {n : ℕ}
    (hn : total len (items ++ new) + n ≤ qp.wqeCnt.toNat) :
    Posting qp room sq h p items st (spoil qp st.curPost n ring) new := by
  induction n generalizing ring with
  | zero => exact hp
  | succ n ih => exact ih (hp.write hfits (by omega) _) (by omega)

theorem Posting.storeData (hfits : Fits qp room) (hp : Posting qp room sq h p items st ring new)
    (hover : wqOverflow qp.maxPost sq st.wqes.length = false) (wr : SendWr) :
    Posting qp room sq h p items st (storeData qp st wr ring) new := by
  have hlt := total_lt hfits hp.built (hp.room_left hover)
  unfold SendRing.storeData
  simp only
  split_ifs
  · simpa using hp.write (i := 0) hfits hlt _
  · exact hp

/-- A refused request does not reach the entries in front of it. -/
theorem Posting.storeRefused (hfits : Fits qp room) (hp : Posting qp room sq h p items st ring new)
    (wr : SendWr) : Posting qp room sq h p items st (storeRefused qp sq st wr ring) new := by
  unfold SendRing.storeRefused
  split_ifs with hbegun htransport
  · simp only [hasBegun, Bool.and_eq_true, Bool.not_eq_true'] at hbegun
    exact (hp.storeData hfits hbegun.1.2 wr).spoil hfits
      (total_add_share_le hfits hp.built (hp.room_left hbegun.1.2))
  · simp only [hasBegun, Bool.and_eq_true, Bool.not_eq_true'] at hbegun
    exact hp.spoil hfits (total_add_share_le hfits hp.built (hp.room_left hbegun.1.2))
  · exact hp

theorem spoil_wrData (qp : Qp) (first : UInt32) (n : ℕ) (ring : ℕ → Slot) (i : ℕ) :
    (spoil qp first n ring i).wrData = (ring i).wrData := by
  induction n generalizing ring with
  | zero => rfl
  | succ n ih =>
    rw [SendRing.spoil, ih, Function.update_apply]
    split_ifs with hi
    · rw [hi]
    · rfl

/-- All writes of an accepted request to the arrays are to the same block. -/
theorem storeWr_storeData (qp : Qp) (sq : Sq) (st st' : PostState) (wr : SendWr)
    (ring : ℕ → Slot) :
    ∃ data, (isBind qp wr.opcode = true → data = bindData wr.opcode) ∧
      storeWr qp sq st st' wr (storeData qp st wr ring) =
        Function.update (spoil qp st.curPost (st'.curPost - st.curPost).toNat
          (storeData qp st wr ring)) (idx qp st.curPost)
          ⟨wr.wrId, sq.head + UInt32.ofNat st.wqes.length, data, st'.wqes.getLast?⟩ := by
  refine ⟨(storeData qp st wr ring (idx qp st.curPost)).wrData, fun hbind => ?_, ?_⟩
  · simp only [SendRing.storeData, if_pos hbind, Function.update_self]
  · simp only [storeWr, spoil_wrData]

/-- An accepted request is placed behind the others. -/
theorem Posting.step (hfits : Fits qp room) (hp : Posting qp room sq h p items st ring new)
    (hr : postOne qp sq st wr = ok st') :
    ∃ w, Posting qp room sq h p items st'
      (storeWr qp sq st st' wr (SendRing.storeData qp st wr ring)) (new ++ [(wr, w)]) := by
  unfold postOne at hr
  split at hr
  · cases hr
  next opcode hop =>
    simp only [bind_eq_ok, check_eq_ok, mapError_eq_ok] at hr
    obtain ⟨-, hover, -, hsge, hbuild⟩ := hr
    obtain ⟨segs, ds, hwqes, hpost, hpos, hle⟩ := hfits.wqe_le st wr opcode st' hsge hbuild
    have hroom := hp.room_left hover
    have hlt := total_lt hfits hp.built hroom
    have hlen : st.wqes.length = new.length := by rw [hp.wqes_eq, List.length_map]
    have hbuilt : Built qp room (wr, ⟨ctrlSeg qp st wr opcode ds, segs⟩) :=
      ⟨rfl, hop, rfl, hpos, hle⟩
    have hblocks : (st'.curPost - st.curPost).toNat ≤ room := by
      rw [hpost, UInt32.add_comm, UInt32.add_sub_cancel, wqebbs, UInt32.toNat_ofNat']
      omega
    have hspoiled := (hp.storeData hfits hover wr).spoil hfits
      ((Nat.add_le_add_left hblocks _).trans (total_add_le hfits hp.built hroom))
    obtain ⟨data, hdata, hstore⟩ := storeWr_storeData qp sq st st' wr ring
    have hdesc : Describes qp
        ⟨wr.wrId, sq.head + UInt32.ofNat st.wqes.length, data, st'.wqes.getLast?⟩
        (h + (items ++ new).length) (p + total len (items ++ new))
        (wr, ⟨ctrlSeg qp st wr opcode ds, segs⟩) := by
      refine ⟨rfl, ?_, hdata, ?_, ?_⟩
      · rw [hp.head_eq, ← UInt32.ofNat_add, List.length_append, hlen, add_assoc]
      · rw [hwqes, List.getLast?_concat]
      · rw [← hp.curPost_eq]
        rfl
    refine ⟨⟨ctrlSeg qp st wr opcode ds, segs⟩, hp.tail_eq, hp.head_eq, ?_, ?_, ?_, ?_, ?_⟩
    · have hidx : idx qp st.curPost = (p + total len (items ++ new)) % qp.wqeCnt.toNat := by
        rw [hp.curPost_eq, idx_ofNat hfits]
      rw [hstore, hidx, ← List.append_assoc]
      exact hspoiled.placed.push (fun it hit => len_pos (hp.built it hit)) hlt hdesc
    · rw [← List.append_assoc]
      exact List.forall_mem_append.mpr ⟨hp.built, by simpa using hbuilt⟩
    · have hnext : p + total len (items ++ (new ++ [(wr, ⟨ctrlSeg qp st wr opcode ds, segs⟩)])) =
          p + total len (items ++ new) + len (wr, ⟨ctrlSeg qp st wr opcode ds, segs⟩) := by
        simp [add_assoc]
      rw [hpost, hp.curPost_eq, hnext]
      exact (UInt32.ofNat_add _ _).symm
    · rw [hwqes, hp.wqes_eq, List.map_append, List.map_singleton]
    · rw [← List.append_assoc, List.length_append, List.length_singleton]
      omega

/-- The call places the requests in front of the refused one. -/
theorem Posting.loop (hfits : Fits qp room) (hp : Posting qp room sq h p items st ring new)
    {r : Posted × (ℕ → Slot)} (hr : SendRing.postLoop qp sq st ring wrs = some r) :
    ∃ st' more fence failed, Posting qp room sq h p items st' r.2 (new ++ more) ∧
      more.map Prod.fst = wrs.take more.length ∧
      r.1 = finish sq { st' with nextFence := fence } failed := by
  induction wrs generalizing st ring new with
  | nil =>
    obtain rfl := Option.some.inj hr
    exact ⟨st, [], st.nextFence, none, by simpa using hp, rfl, rfl⟩
  | cons wr wrs ih =>
    rw [SendRing.postLoop] at hr
    split at hr
    next st₁ h₁ =>
      obtain ⟨w, hstep⟩ := hp.step hfits h₁
      obtain ⟨st', more, fence, failed, hp', hmore, hfin⟩ := ih hstep hr
      refine ⟨st', (wr, w) :: more, fence, failed, by simpa using hp', ?_, hfin⟩
      simpa using hmore
    next e fence h₁ =>
      obtain rfl := Option.some.inj hr
      refine ⟨st, [], fence, _, ?_, rfl, rfl⟩
      rw [List.append_nil]
      exact hp.storeRefused hfits wr
    next => cases hr

/-- After the call the new entries are among those that the device has. -/
theorem Posting.finish (hp : Posting qp room sq h p items st ring new) (fence : Fence)
    (failed : Option (Errno × List SendWr)) :
    Posting qp room (Mlx5.finish sq { st with nextFence := fence } failed).sq h p (items ++ new)
      (start (Mlx5.finish sq { st with nextFence := fence } failed).sq) ring [] := by
  have hlen : st.wqes.length = new.length := by rw [hp.wqes_eq, List.length_map]
  refine ⟨hp.tail_eq, ?_, ?_, ?_, ?_, rfl, ?_⟩
  · rw [Mlx5.finish, hp.head_eq, hlen, ← UInt32.ofNat_add, List.length_append, add_assoc]
  · rw [List.append_nil]
    exact hp.placed
  · rw [List.append_nil]
    exact hp.built
  · rw [List.append_nil]
    exact hp.curPost_eq
  · rw [List.append_nil]
    exact hp.length_le

/-- Each entry is found at its first block. -/
theorem Posting.describes {before after : List Item} {it : Item}
    (hp : Posting qp room sq h p (before ++ it :: after) st ring []) :
    Built qp room it ∧ Describes qp (ring ((p + total len before) % qp.wqeCnt.toNat))
      (h + before.length) (p + total len before) it := by
  have hplaced := hp.placed
  rw [List.append_nil, placed_append] at hplaced
  exact ⟨hp.built it (by simp), hplaced.2.1⟩

/-- The entries up to a completion are given back. -/
theorem Posting.retire {done rest : List Item}
    (hp : Posting qp room sq h p (done ++ rest) (start sq) ring []) :
    Posting qp room { sq with tail := UInt32.ofNat (h + done.length) } (h + done.length)
      (p + total len done) rest (start { sq with tail := UInt32.ofNat (h + done.length) }) ring
      [] := by
  obtain ⟨-, hhead, hplaced, hbuilt, hcur, -, hle⟩ := hp
  rw [List.append_nil] at hplaced hbuilt hcur hle
  rw [List.length_append] at hhead hle
  refine ⟨rfl, ?_, ?_, ?_, ?_, rfl, ?_⟩
  · rw [add_assoc]
    exact hhead
  · rw [List.append_nil]
    exact (placed_append.mp hplaced).2
  · rw [List.append_nil]
    exact fun it hit => hbuilt it (List.mem_append_right done hit)
  · rw [List.append_nil, add_assoc, ← total_append]
    exact hcur
  · rw [List.append_nil]
    omega

end Posting

/-- The opcode that a successful completion reports. The user memory registration opcode stands
for several requests, of which the queue keeps only the binds apart. -/
def wcOpcode (qp : Qp) : WrOpcode → Option WcOpcode
  | .send | .sendWithImm | .sendWithInv => some .send
  | .rdmaWrite | .rdmaWriteWithImm => some .rdmaWrite
  | .rdmaRead => some .rdmaRead
  | .atomicCmpAndSwp => some .compSwap
  | .atomicFetchAndAdd => some .fetchAdd
  | .tso => some .tso
  | .bindMw => if isBind qp .bindMw then some .bindMw else none
  | .localInv => if isBind qp .localInv then some .localInv else none
  | .driver1 | .other => none

/-- A completion for a request that ended in this way. -/
structure Reports (qp : Qp) (wc : Wc) (r : SendWr × Ending) : Prop where
  qpNum_eq : wc.qpNum = qp.qpNum &&& 0xffffff
  wrId_eq : wc.wrId = r.1.wrId
  status_eq : wc.status = (r.2.syndrome.map handleErrorCqe).getD .success
  opcode_eq : r.2.syndrome = none → ∀ op ∈ wcOpcode qp r.1.opcode, wc.opcode = some op

section Parsing
variable {qp : Qp} {room h p : ℕ} {sq : Sq} {ring : ℕ → Slot} {slot : Slot} {it : Item} {o : Ending}

theorem shiftRight_opcode {n : ℕ} (hn : n < 256) (qpn : UInt32) :
    ((UInt32.ofNat n <<< 24 ||| (qpn &&& 0xffffff)) >>> 24).toNat = n := by
  have hmask : (0xffffff : UInt32).toNat = 2 ^ 24 - 1 := rfl
  have hshift : (24 : UInt32).toNat % 32 = 24 := rfl
  have hlow : qpn.toNat % 2 ^ 24 / 2 ^ 24 = 0 := Nat.div_eq_of_lt (Nat.mod_lt _ (by norm_num))
  rw [UInt32.toNat_shiftRight, UInt32.toNat_or, UInt32.toNat_and, hmask,
    Nat.and_two_pow_sub_one_eq_mod, UInt32.toNat_shiftLeft, UInt32.toNat_ofNat', hshift,
    Nat.shiftRight_or_distrib, Nat.shiftRight_eq_div_pow, Nat.shiftRight_eq_div_pow, hlow,
    Nat.or_zero, Nat.shiftLeft_eq]
  omega

theorem toNat_and_mask (n : UInt32) : (n &&& 0xffffff).toNat = n.toNat % 2 ^ 24 := by
  rw [UInt32.toNat_and, show (0xffffff : UInt32).toNat = 2 ^ 24 - 1 from rfl,
    Nat.and_two_pow_sub_one_eq_mod]

/-- The opcode does not reach into the number. -/
theorem reqCqe_qpn (w : Wqe) (o : Ending) :
    (reqCqe w o).sopDropQpn &&& 0xffffff = w.ctrl.qpn &&& 0xffffff := by
  have hhigh : (UInt32.ofNat w.ctrl.opcode <<< 24).toNat % 2 ^ 24 = 0 := by
    rw [UInt32.toNat_shiftLeft, show (24 : UInt32).toNat % 32 = 24 from rfl, Nat.shiftLeft_eq]
    omega
  rw [← UInt32.toNat_inj, toNat_and_mask, reqCqe, UInt32.toNat_or, Nat.or_mod_two_pow, hhigh,
    Nat.zero_or, toNat_and_mask, Nat.mod_mod]

/-- Sixteen bits of a position are enough to find its block. -/
theorem idx_wqeCounter (hfits : Fits qp room) (hcnt : qp.wqeCnt.toNat ≤ 2 ^ 16)
    (hindex : it.2.ctrl.wqeIndex = UInt32.ofNat p &&& 0xffff) :
    idx qp (reqCqe it.2 o).wqeCounter.toUInt32 = p % qp.wqeCnt.toNat := by
  have hmask : (0xffff : UInt32).toNat = 2 ^ 16 - 1 := rfl
  have hword : (reqCqe it.2 o).wqeCounter.toUInt32 = UInt32.ofNat (p % 2 ^ 16) := by
    rw [reqCqe, hindex, ← UInt32.toNat_inj, UInt16.toNat_toUInt32, UInt32.toNat_toUInt16,
      UInt32.toNat_and, hmask, Nat.and_two_pow_sub_one_eq_mod, UInt32.toNat_ofNat',
      UInt32.toNat_ofNat']
    omega
  obtain ⟨k, hk⟩ := hfits.cnt_eq
  have hk16 : k ≤ 16 := (Nat.pow_le_pow_iff_right (by norm_num)).mp (hk ▸ hcnt)
  rw [hword, idx_ofNat hfits, hk, Nat.mod_mod_of_dvd _ (Nat.pow_dvd_pow 2 hk16)]

theorem Built.opcode_lt (hbuilt : Built qp room it) : it.2.ctrl.opcode < 256 := by
  have hopcode := hbuilt.opcode_eq
  revert hopcode
  cases it.1.opcode <;> simp [ibOpcode] <;> omega

/-- The device returns the opcode of the entry, from which the driver finds that of the
completion. -/
theorem handleGoodReq_opcode (hbuilt : Built qp room it)
    (hdata : isBind qp it.1.opcode = true → slot.wrData = bindData it.1.opcode) :
    ∀ op ∈ wcOpcode qp it.1.opcode, (handleGoodReq (reqCqe it.2 o) slot).1 = some op := by
  have hopcode := hbuilt.opcode_eq
  have hshift : ((reqCqe it.2 o).sopDropQpn >>> 24).toNat = it.2.ctrl.opcode :=
    shiftRight_opcode hbuilt.opcode_lt _
  rw [handleGoodReq, hshift]
  clear hshift hbuilt
  intro op hop
  generalize it.1.opcode = wrOp, it.2.ctrl.opcode = n at hopcode hdata hop ⊢
  cases wrOp <;> cases hopcode <;> simp_all [wcOpcode, bindData]

/-- Data that the scatter list takes is copied, in one part or in two. -/
theorem copyToSendWqe_eq {w : Wqe} (i : ℕ) (hrc : qp.qpType = .rc) {size n : ℕ}
    (hstart : scatStart w.ctrl.opcode = some n) (hsize : size < 2 ^ 31)
    (hroom : size ≤ scatRoom (sendScat w n)) :
    copyToSendWqe qp i (some w) size = some .success := by
  have hcopy := copyToScat_of_le hroom
  simp only [copyToSendWqe, hrc, ne_eq, not_true_eq_false, if_false, Option.bind_some, hstart,
    not_le.mpr hsize]
  split_ifs with hwrap
  · generalize 4 * (qp.wqeCnt.toNat - i) - (n + 1) = tmp
    rw [← List.take_append_drop tmp (sendScat w n), copyToScat_append,
      Option.bind_eq_some_iff] at hcopy
    obtain ⟨r, hfirst, hrest⟩ := hcopy
    rw [hfirst, Option.bind_some]
    split_ifs at hrest ⊢ with hdone
    · rfl
    · rw [hrest]
      rfl
  · rw [hcopy]
    rfl

/-- The list of an entry in the last block goes on in the first. -/
example : copyToSendWqe smallQp 31 (some ⟨⟨31, 0x10, none, .none, true, false, 7, 6⟩,
    [.raddr 0 0, .data 4 1 0, .data 4 1 0, .data 4 1 0, .data 4 1 0]⟩) 10 = some .success := by
  decide

/-- The length that a completion reports is that of the response. -/
theorem handleGoodReq_byteLen {w : Wqe} {n : ℕ} (hlt : w.ctrl.opcode < 256)
    (hstart : scatStart w.ctrl.opcode = some n) :
    ((handleGoodReq (reqCqe w o) slot).2.2.getD 0).toNat = responseSize w o := by
  have hshift : ((reqCqe w o).sopDropQpn >>> 24).toNat = w.ctrl.opcode := shiftRight_opcode hlt _
  rw [handleGoodReq, hshift, responseSize]
  unfold scatStart at hstart
  split at hstart
  next hop => rw [hop]; rfl
  next hop => rw [hop]; rfl
  next hop => rw [hop]; rfl
  next => cases hstart

theorem parseReq_eq (hfits : Fits qp room) (hcnt : qp.wqeCnt.toNat ≤ 2 ^ 16)
    (hbuilt : Built qp room it) (hdesc : Describes qp (ring (p % qp.wqeCnt.toNat)) h p it)
    (hsound : o.Sound qp it.2) :
    ∃ wc, parseReq qp ring sq (reqCqe it.2 o) =
        some (wc, { sq with tail := UInt32.ofNat (h + 1) }) ∧ Reports qp wc (it.1, o) := by
  have hidx := idx_wqeCounter (o := o) hfits hcnt hdesc.index_eq
  have hqpn : (reqCqe it.2 o).sopDropQpn &&& 0xffffff = qp.qpNum &&& 0xffffff := by
    rw [reqCqe_qpn, hbuilt.qpn_eq]
  have htail : (ring (p % qp.wqeCnt.toNat)).wqeHead + 1 = UInt32.ofNat (h + 1) := by
    rw [hdesc.wqeHead_eq, ofNat_succ]
  simp only [parseReq, hidx, hqpn, htail, hdesc.wrid_eq]
  cases ho : o.syndrome with
  | none =>
    have hop : (reqCqe it.2 o).opcode ≠ .reqErr := by simp [reqCqe, ho]
    have herr : (if (reqCqe it.2 o).inlineScatter32 || (reqCqe it.2 o).inlineScatter64 then
        copyToSendWqe qp (p % qp.wqeCnt.toNat) (ring (p % qp.wqeCnt.toNat)).entry
          ((handleGoodReq (reqCqe it.2 o) (ring (p % qp.wqeCnt.toNat))).2.2.getD 0).toNat
        else some .success) = some .success := by
      split_ifs with hinline
      · obtain ⟨hrc, hsize, n, hstart, hroom⟩ := hsound ho hinline
        rw [hdesc.entry_eq, handleGoodReq_byteLen hbuilt.opcode_lt hstart]
        exact copyToSendWqe_eq _ hrc hstart hsize hroom
      · rfl
    rw [if_neg hop, herr]
    exact ⟨_, rfl, rfl, rfl, by simp [ho],
      fun _ => handleGoodReq_opcode hbuilt hdesc.wrData_eq⟩
  | some syndrome =>
    have hop : (reqCqe it.2 o).opcode = .reqErr := by simp [reqCqe, ho]
    rw [if_pos hop]
    exact ⟨_, rfl, rfl, rfl, by simp [reqCqe, ho], fun h => absurd h (by simp [ho])⟩

end Parsing

section History

/-- The requests that were accepted. -/
def posted (out : List Answer) : List SendWr :=
  out.flatMap fun | .posted accepted _ => accepted | _ => []

/-- How the device ended the first of them. -/
def executed (out : List Answer) : List Ending :=
  out.flatMap fun | .executed o => [o] | _ => []

/-- The completions that were polled. -/
def polled (out : List Answer) : List Wc :=
  out.flatMap fun | .polled wc => wc.toList | _ => []

theorem posted_append (out out' : List Answer) : posted (out ++ out') = posted out ++ posted out' :=
  List.flatMap_append

theorem executed_append (out out' : List Answer) :
    executed (out ++ out') = executed out ++ executed out' :=
  List.flatMap_append

theorem polled_append (out out' : List Answer) : polled (out ++ out') = polled out ++ polled out' :=
  List.flatMap_append

/-- The device reports the requests that ask for it, and those that fail. -/
def isReported (qp : Qp) (r : SendWr × Ending) : Bool :=
  qp.sqSigAll || r.1.sendFlags.signaled || r.2.syndrome.isSome

def reported (qp : Qp) (out : List Answer) : List (SendWr × Ending) :=
  ((posted out).zip (executed out)).filter (isReported qp)

variable {qp : Qp} {room p : ℕ} {m : Machine} {out : List Answer} {retired : List (SendWr × Ending)}
  {done : List (Item × Ending)} {flight : List Item}

/-- Where the accepted requests are: `retired` ones were given back, `done` ones ended and were
not, and the device has still to work on those in `flight`. -/
structure Ledger (room : ℕ) (m : Machine) (out : List Answer) (p : ℕ)
    (retired : List (SendWr × Ending)) (done : List (Item × Ending)) (flight : List Item) :
    Prop where
  posted_eq : posted out =
    retired.map Prod.fst ++ (done.map fun d => d.1.1) ++ flight.map Prod.fst
  executed_eq : executed out = retired.map Prod.snd ++ done.map Prod.snd
  polled_reports : List.Forall₂ (Reports m.qp) (polled out) (retired.filter (isReported m.qp))
  flight_eq : m.flight = flight.map Prod.snd
  cqes_eq : m.cqes =
    (done.filter fun d => isReported m.qp (d.1.1, d.2)).map fun d => reqCqe d.1.2 d.2
  posting : Posting m.qp room m.sq retired.length p (done.map Prod.fst ++ flight) (start m.sq)
    m.ring []
  sound : ∀ d ∈ done, d.2.Sound m.qp d.1.2

theorem Ledger.post {r : Posted × (ℕ → Slot)} {wrs : List SendWr} (hfits : Fits m.qp room)
    (h : Ledger room m out p retired done flight)
    (hr : SendRing.postLoop m.qp m.sq (start m.sq) m.ring wrs = some r) :
    ∃ flight', Ledger room
      { m with sq := r.1.sq, ring := r.2, flight := m.flight ++ r.1.rung }
      (out ++ [.posted (wrs.take r.1.rung.length) (r.1.failed.map Prod.fst)])
      p retired done flight' := by
  obtain ⟨st', more, fence, failed, hp, hmore, hfin⟩ := h.posting.loop hfits hr
  rw [List.nil_append] at hp
  have hrung : r.1.rung = more.map Prod.snd := by rw [hfin, ← hp.wqes_eq]; rfl
  refine ⟨flight ++ more, ?_, ?_, ?_, ?_, h.cqes_eq, ?_, h.sound⟩
  · rw [posted_append, h.posted_eq, hrung, List.length_map, ← hmore, List.map_append,
      ← List.append_assoc]
    simp [posted]
  · rw [executed_append, h.executed_eq]
    exact List.append_nil _
  · rw [polled_append]
    simpa [polled] using h.polled_reports
  · simp [h.flight_eq, hrung]
  · have hposting := hp.finish fence failed
    rw [← hfin, List.append_assoc] at hposting
    exact hposting

theorem Ledger.execute {it : Item} {o : Ending} (ho : o.Sound m.qp it.2)
    (h : Ledger room m out p retired done (it :: flight)) :
    Ledger room
      { m with
        flight := flight.map Prod.snd
        cqes := if it.2.ctrl.cqUpdate || o.syndrome.isSome then m.cqes ++ [reqCqe it.2 o]
          else m.cqes }
      (out ++ [.executed o]) p retired (done ++ [(it, o)]) flight := by
  have hbuilt : Built m.qp room it := h.posting.built it (by simp)
  have hreport : (it.2.ctrl.cqUpdate || o.syndrome.isSome) = isReported m.qp (it.1, o) := by
    rw [hbuilt.cqUpdate_eq]
    rfl
  refine ⟨?_, ?_, ?_, rfl, ?_, ?_, ?_⟩
  · rw [posted_append, h.posted_eq]
    simp [posted]
  · rw [executed_append, h.executed_eq]
    simp [executed]
  · rw [polled_append]
    simpa [polled] using h.polled_reports
  · rw [hreport, List.filter_append, List.map_append, ← h.cqes_eq]
    cases hrep : isReported m.qp (it.1, o) <;> simp [hrep]
  · have hposting := h.posting
    rw [List.append_cons] at hposting
    simpa using hposting
  · exact List.forall_mem_append.mpr ⟨h.sound, by simpa using ho⟩

theorem Ledger.poll {c : Cqe} {cqes : List Cqe} (hfits : Fits m.qp room)
    (hcnt : m.qp.wqeCnt.toNat ≤ 2 ^ 16)
    (h : Ledger room m out p retired done flight) (hc : m.cqes = c :: cqes) :
    ∃ r p' retired' done', parseReq m.qp m.ring m.sq c = some r ∧
      Ledger room { m with sq := r.2, cqes := cqes } (out ++ [.polled (some r.1)]) p' retired' done'
        flight := by
  rw [h.cqes_eq, List.map_eq_cons_iff] at hc
  obtain ⟨⟨it, o⟩, rest, hfilter, rfl, rfl⟩ := hc
  obtain ⟨before, after, rfl, hbefore, hit, rfl⟩ := List.filter_eq_cons_iff.mp hfilter
  have hposting := h.posting
  rw [List.map_append, List.map_cons, List.append_assoc, List.cons_append] at hposting
  obtain ⟨hbuilt, hdesc⟩ := hposting.describes
  obtain ⟨wc, hparse, hreports⟩ := @parseReq_eq _ _ _ _ m.sq _ _ o hfits hcnt hbuilt hdesc
    (h.sound (it, o) (by simp))
  -- The requests in front of it that were not reported are given back with it.
  refine ⟨_, p + total len (before.map Prod.fst ++ [it]),
    retired ++ (before.map fun d => (d.1.1, d.2)) ++ [(it.1, o)], after, hparse, ?_, ?_, ?_,
    h.flight_eq, rfl, ?_, fun d hd => h.sound d (by simp [hd])⟩
  · rw [posted_append, h.posted_eq]
    simp [posted]
  · rw [executed_append, h.executed_eq]
    simp [executed]
  · have hnone : (before.map fun d => (d.1.1, d.2)).filter (isReported m.qp) = [] := by
      rw [List.filter_map, List.map_eq_nil_iff, List.filter_eq_nil_iff]
      exact hbefore
    have hlast : [(it.1, o)].filter (isReported m.qp) = [(it.1, o)] := by
      simpa using hit
    rw [polled_append, List.filter_append, List.filter_append, hnone, hlast, List.append_nil]
    exact List.rel_append h.polled_reports (.cons hreports .nil)
  · have hnum : (retired ++ (before.map fun d => (d.1.1, d.2)) ++ [(it.1, o)]).length =
        retired.length + (before.map Prod.fst ++ [it]).length := by simp
    rw [List.append_cons] at hposting
    have hretire := hposting.retire
    dsimp only
    rw [hnum]
    simpa [add_assoc] using hretire

def Tracked (qp : Qp) (room : ℕ) (m : Machine) (out : List Answer) : Prop :=
  m.qp = qp ∧ ∃ p retired done flight, Ledger room m out p retired done flight

/-- Nothing is left of the requests when the counters start again. -/
theorem tracked_reset (qp : Qp) (room : ℕ) (ring : ℕ → Slot) (sq : Sq) :
    Tracked qp room ⟨qp, { sq with head := 0, tail := 0, curPost := 0 }, ring, [], []⟩ [] :=
  ⟨rfl, 0, [], [], [], rfl, rfl, .nil, rfl, rfl,
    ⟨rfl, rfl, trivial, by simp, rfl, rfl, Nat.zero_le _⟩, by simp⟩

theorem tracked_init (qp : Qp) (room : ℕ) (ring : ℕ → Slot) :
    Tracked qp room (Machine.init qp ring) [] :=
  tracked_reset qp room ring ⟨0, 0, 0, .none⟩

theorem tracked_step {e : Event} {r : Machine × List Answer} (hfits : Fits qp room)
    (hcnt : qp.wqeCnt.toNat ≤ 2 ^ 16) (h : Tracked qp room m out) (hr : m.step e = some r) :
    Tracked qp room r.1 (out ++ r.2) := by
  obtain ⟨rfl, p, retired, done, flight, h⟩ := h
  cases e with
  | post wrs =>
    obtain ⟨posted, hpost, rfl⟩ := Option.map_eq_some_iff.mp hr
    obtain ⟨flight', h'⟩ := h.post hfits hpost
    exact ⟨rfl, p, retired, done, flight', h'⟩
  | execute o =>
    rw [Machine.step, h.flight_eq] at hr
    cases flight with
    | nil => cases hr
    | cons it flight =>
      simp only [List.map_cons] at hr
      by_cases ho : o.Sound m.qp it.2
      · rw [if_pos ho] at hr
        obtain rfl := Option.some.inj hr
        exact ⟨rfl, p, retired, done ++ [(it, o)], flight, h.execute ho⟩
      · rw [if_neg ho] at hr
        cases hr
  | poll =>
    rw [Machine.step] at hr
    cases hc : m.cqes with
    | nil =>
      rw [hc] at hr
      obtain rfl := Option.some.inj hr
      refine ⟨rfl, p, retired, done, flight, ?_, ?_, ?_, h.flight_eq, h.cqes_eq, h.posting, h.sound⟩
      · rw [posted_append, h.posted_eq]
        exact List.append_nil _
      · rw [executed_append, h.executed_eq]
        exact List.append_nil _
      · rw [polled_append]
        simpa [polled] using h.polled_reports
    | cons c cqes =>
      obtain ⟨x, p', retired', done', hparse, h'⟩ := h.poll hfits hcnt hc
      simp only [hc, hparse, Option.map_some] at hr
      obtain rfl := Option.some.inj hr
      exact ⟨rfl, p', retired', done', flight, h'⟩

/-- The completions that are there already do not matter to the application and the device, and
the device adds one at most. -/
theorem Machine.step_append {e : Event} {r : Machine × List Answer} (m : Machine) (cqes : List Cqe)
    (he : e ≠ .poll) (hr : { m with cqes := [] }.step e = some r) :
    { m with cqes := cqes }.step e = some ({ r.1 with cqes := cqes ++ r.1.cqes }, r.2) ∧
      r.1.qp = m.qp ∧ (r.1.cqes = [] ∨ ∃ w ∈ m.flight, ∃ o, r.1.cqes = [reqCqe w o]) := by
  cases e with
  | poll => exact absurd rfl he
  | post wrs =>
    obtain ⟨x, hx, rfl⟩ := Option.map_eq_some_iff.mp hr
    exact ⟨Option.map_eq_some_iff.mpr ⟨x, hx, by simp⟩, rfl, .inl rfl⟩
  | execute o =>
    simp only [Machine.step] at hr ⊢
    cases hf : m.flight with
    | nil =>
      rw [hf] at hr
      cases hr
    | cons w flight =>
      simp only [hf] at hr ⊢
      by_cases ho : o.Sound m.qp w
      · rw [if_pos ho] at hr ⊢
        obtain rfl := Option.some.inj hr
        dsimp only
        cases w.ctrl.cqUpdate || o.syndrome.isSome with
        | false => exact ⟨by simp, rfl, .inl rfl⟩
        | true => exact ⟨rfl, rfl, .inr ⟨w, List.mem_cons_self, o, rfl⟩⟩
      · rw [if_neg ho] at hr
        cases hr

/-- The entries that the device has are for the queue pair. -/
theorem Tracked.flight_qpn {w : Wqe} (h : Tracked qp room m out) (hw : w ∈ m.flight) :
    w.ctrl.qpn = qp.qpNum := by
  obtain ⟨rfl, p, retired, done, flight, hledger⟩ := h
  rw [hledger.flight_eq] at hw
  obtain ⟨it, hit, rfl⟩ := List.mem_map.mp hw
  exact (hledger.posting.built it (by simp [hit])).qpn_eq

/-- What the device has reported is what was polled, and what can be. -/
theorem Ledger.reported_eq (h : Ledger room m out p retired done flight) :
    reported m.qp out = retired.filter (isReported m.qp) ++
      (done.map fun d => (d.1.1, d.2)).filter (isReported m.qp) := by
  have hposted : posted out =
      (retired ++ done.map fun d => (d.1.1, d.2)).map Prod.fst ++ flight.map Prod.fst := by
    rw [h.posted_eq]
    simp
  have hexecuted : executed out =
      (retired ++ done.map fun d => (d.1.1, d.2)).map Prod.snd ++ [] := by
    rw [h.executed_eq]
    simp
  rw [reported, hposted, hexecuted, List.zip_append (by simp), List.zip_nil_right, List.append_nil,
    ← List.unzip_fst, ← List.unzip_snd, List.zip_unzip, List.filter_append]

/-- What was polled are the first of the requests that the device has reported. -/
theorem Ledger.polled_take (h : Ledger room m out p retired done flight) :
    (polled out).length + m.cqes.length = (reported m.qp out).length ∧
      List.Forall₂ (Reports m.qp) (polled out)
        ((reported m.qp out).take (polled out).length) := by
  have hlen := h.polled_reports.length_eq
  rw [h.reported_eq, h.cqes_eq, hlen, List.take_left]
  refine ⟨?_, h.polled_reports⟩
  rw [List.length_append, List.length_map, List.filter_map, List.length_map]
  rfl

variable {ctx : Context} {attr : QpInitAttr} {caps : Caps} {qpNum : UInt32} {ring : ℕ → Slot}
  {es : List Event}

/-- The requests of a queue pair can be followed through every run. -/
theorem tracked_run (h : createQp ctx attr caps qpNum = some qp) (hops : attr.sendOps = none)
    (htso : attr.maxTsoHeader = none) (hwr : attr.maxSendWr ≠ 0)
    (hdev : ctx.maxSendWqebb.toNat ≤ 2 ^ 16)
    (hrun : exec Machine.step (Machine.init qp ring) es = some (m, out)) :
    qp.wqeCnt.toNat ≤ 2 ^ 16 ∧ ∃ room, Fits qp room ∧ Tracked qp room m out := by
  obtain ⟨hcnt, room, hfits⟩ := createQp_fits h hops htso hwr
  have hcnt16 : qp.wqeCnt.toNat ≤ 2 ^ 16 := (UInt32.le_iff_toNat_le.mp hcnt).trans hdev
  have htracked : Tracked qp room m ([] ++ out) :=
    exec_invariant (fun e _ m out r h hr => tracked_step hfits hcnt16 h hr)
      (tracked_init qp room ring) hrun
  exact ⟨hcnt16, room, hfits, by rwa [List.nil_append] at htracked⟩

/-- Every completion that is polled is for the next request that the device has reported, and
says its `wr_id`, how it ended, and what it was. None is lost, and none is made up. -/
theorem send_completions (h : createQp ctx attr caps qpNum = some qp) (hops : attr.sendOps = none)
    (htso : attr.maxTsoHeader = none) (hwr : attr.maxSendWr ≠ 0)
    (hdev : ctx.maxSendWqebb.toNat ≤ 2 ^ 16)
    (hrun : exec Machine.step (Machine.init qp ring) es = some (m, out)) :
    (polled out).length + m.cqes.length = (reported qp out).length ∧
      List.Forall₂ (Reports qp) (polled out) ((reported qp out).take (polled out).length) := by
  obtain ⟨-, room, -, rfl, p, retired, done, flight, hledger⟩ :=
    tracked_run h hops htso hwr hdev hrun
  exact hledger.polled_take

/-- A write that is not signaled, and a send that is: one completion gives both back. -/
def twoRequests : List SendWr :=
  [⟨11, [⟨0, 100, 1⟩], 1, .rdmaWrite, {}, {}, by decide⟩,
    ⟨12, [⟨4096, 200, 1⟩], 1, .send, { signaled := true }, {}, by decide⟩]

theorem send_completions_two :
    createQp smallContext smallAttr {} 7 = some smallQp ∧
      ∃ m out, exec Machine.step (Machine.init smallQp fun _ => ⟨0, 0, .other, none⟩)
          [.post twoRequests, .execute {}, .execute {}, .poll] = some (m, out) ∧
        m.sq.tail = 2 ∧ (polled out).map Wc.wrId = [12] ∧
        (polled out).length + m.cqes.length = (reported smallQp out).length ∧
        List.Forall₂ (Reports smallQp) (polled out)
          ((reported smallQp out).take (polled out).length) := by
  have hqp : createQp smallContext smallAttr {} 7 = some smallQp := by decide +kernel
  have hany : (exec Machine.step (Machine.init smallQp fun _ => ⟨0, 0, .other, none⟩)
      [.post twoRequests, .execute {}, .execute {}, .poll]).any
        fun r => r.1.sq.tail = 2 ∧ (polled r.2).map Wc.wrId = [12] := by
    decide +kernel
  obtain ⟨⟨m, out⟩, hrun, hend⟩ := (Option.any_eq_true _ _).mp hany
  obtain ⟨htail, hids⟩ := of_decide_eq_true hend
  exact ⟨hqp, m, out, hrun, htail, hids,
    send_completions hqp rfl rfl (by decide) (by decide) hrun⟩

/-- The blocks of an entry, from what its control segment tells the device. -/
def entryBlocks (qp : Qp) (w : Wqe) : Finset ℕ :=
  blocks qp.wqeCnt.toNat w.ctrl.wqeIndex.toNat ((w.ctrl.ds * 16 + 63) / 64)

/-- Whatever is posted, no two entries that the device still has to read overlap. -/
theorem send_disjoint (h : createQp ctx attr caps qpNum = some qp) (hops : attr.sendOps = none)
    (htso : attr.maxTsoHeader = none) (hwr : attr.maxSendWr ≠ 0)
    (hdev : ctx.maxSendWqebb.toNat ≤ 2 ^ 16)
    (hrun : exec Machine.step (Machine.init qp ring) es = some (m, out)) :
    m.flight.Pairwise fun w w' => Disjoint (entryBlocks qp w) (entryBlocks qp w') := by
  obtain ⟨hcnt16, room, hfits, rfl, p, retired, done, flight, hledger⟩ :=
    tracked_run h hops htso hwr hdev hrun
  obtain ⟨-, -, hplaced, hbuilt, -, -, hle⟩ := hledger.posting
  rw [List.append_nil] at hplaced hbuilt hle
  have htotal : total len (done.map Prod.fst ++ flight) ≤ m.qp.wqeCnt.toNat :=
    (total_le fun it hit => len_le (hbuilt it hit)).trans
      ((Nat.mul_le_mul_right room hle).trans hfits.posts_le)
  have hpos (slot : Slot) (n q : ℕ) (it : Item) (hd : Describes m.qp slot n q it) :
      it.2.ctrl.wqeIndex.toNat % m.qp.wqeCnt.toNat = q % m.qp.wqeCnt.toNat := by
    obtain ⟨k, hk⟩ := hfits.cnt_eq
    have hk16 : k ≤ 16 := (Nat.pow_le_pow_iff_right (by norm_num)).mp (hk ▸ hcnt16)
    have hmask : (0xffff : UInt32) = UInt32.ofNat (2 ^ 16 - 1) := rfl
    rw [hd.index_eq, hmask, and_sub_one_toNat (by norm_num), hk,
      Nat.mod_mod_of_dvd _ (Nat.pow_dvd_pow 2 hk16)]
  rw [hledger.flight_eq, List.pairwise_map]
  exact (hplaced.pairwise_disjoint hpos htotal).sublist (List.sublist_append_right _ _)

theorem send_disjoint_two :
    createQp smallContext smallAttr {} 7 = some smallQp ∧
      ∃ m out, exec Machine.step (Machine.init smallQp fun _ => ⟨0, 0, .other, none⟩)
          [.post twoRequests] = some (m, out) ∧ m.flight.length = 2 ∧
        m.flight.Pairwise fun w w' =>
          Disjoint (entryBlocks smallQp w) (entryBlocks smallQp w') := by
  have hqp : createQp smallContext smallAttr {} 7 = some smallQp := by decide +kernel
  have hany : (exec Machine.step (Machine.init smallQp fun _ => ⟨0, 0, .other, none⟩)
      [.post twoRequests]).any fun r => r.1.flight.length = 2 := by
    decide +kernel
  obtain ⟨⟨m, out⟩, hrun, hend⟩ := (Option.any_eq_true _ _).mp hany
  exact ⟨hqp, m, out, hrun, of_decide_eq_true hend,
    send_disjoint hqp rfl rfl (by decide) (by decide) hrun⟩

end History
end RdmaperfIso.Mlx5.SendRing
