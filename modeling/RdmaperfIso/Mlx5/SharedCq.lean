import RdmaperfIso.Mlx5.CompletionFifo
import RdmaperfIso.Mlx5.ObjectTable
import RdmaperfIso.Mlx5.RecvRing
import RdmaperfIso.Mlx5.SendRing

/-! Queue pairs that share a completion queue, and come and go. A completion only has the number
of its queue pair, which the driver looks up; a queue pair that is destroyed or reset takes its
completions out of the ring first. Each queue pair then sees what it would see with completion
queues of its own, and no completion leads to memory that was freed. -/
namespace RdmaperfIso.Mlx5.SharedCq
open Reactive Run ObjectTable
open SendRing (Slot Ending parseReq reqCqe)
open RecvRing (Delivery parseResp respCqe)

/-- What a queue pair is created from. It has a receive queue if it asks for requests there. -/
structure Config where
  ctx : Context
  attr : QpInitAttr
  caps : Caps
  lim : Srq.Limits
  sig : Bool
  maxRecvWr : ℕ
  maxRecvSge : ℕ

/-- A receive queue, with the lists of the requests that the device has to end. -/
structure Receiver where
  queue : RecvQueue.Machine
  sig : Bool
  held : List (List Sge)

/-- A queue pair in memory, with the entries that the device has still to read. The kernel has
destroyed or reset a `dead` one. -/
structure Pair where
  qp : Qp
  rsn : UInt32
  sq : Sq
  ring : ℕ → Slot
  flight : List Wqe
  recv : Option Receiver
  dead : Bool

/-- The receive queue with completions of its own. -/
def Receiver.machine (m : Receiver) (qpn : UInt32) (cqes : List Cqe) : RecvRing.Machine :=
  ⟨m.queue, m.sig, qpn, m.held, cqes⟩

def Receiver.ofMachine (m : RecvRing.Machine) : Receiver := ⟨m.queue, m.sig, m.held⟩

namespace Pair

/-- The send queue with completions of its own. -/
def machine (p : Pair) (cqes : List Cqe) : SendRing.Machine := ⟨p.qp, p.sq, p.ring, p.flight, cqes⟩

def ofMachine (p : Pair) (m : SendRing.Machine) : Pair :=
  { p with sq := m.sq, ring := m.ring, flight := m.flight }

/-- `mlx5_init_qp_indices`, and the doorbell record of the receive queue. -/
def initIndices (p : Pair) : Pair :=
  { p with
    sq := { p.sq with head := 0, tail := 0, curPost := 0 }
    flight := []
    recv := p.recv.map fun m => .ofMachine (m.machine p.qp.qpNum []).reset
    dead := false }

end Pair

/-- The table leads from numbers to addresses. -/
structure System where
  v1 : Bool
  fifo : CompletionFifo.Machine
  table : ObjectTable.Table ℕ
  heap : ℕ → Option Pair

inductive Event where
  | create (a : ℕ) (cfg : Config) (qpNum : UInt32) (ring : ℕ → Slot) (mem : Bool)
  | post (a : ℕ) (wrs : List SendWr)
  | execute (a : ℕ) (o : Ending)
  /-- What concerns the receive queue alone. -/
  | recv (a : ℕ) (e : RecvQueue.Event)
  | deliver (a : ℕ) (d : Delivery)
  /-- `poll_cq`. -/
  | poll (ne : ℕ)
  /-- The kernel destroys the queue pair, or resets it. -/
  | kill (a : ℕ)
  /-- The rest of `mlx5_modify_qp` for the reset state. -/
  | reset (a : ℕ)
  /-- The rest of `mlx5_destroy_qp`. -/
  | remove (a : ℕ)

/-- An answer of one of the queues of a pair. -/
abbrev Side := SendRing.Answer ⊕ RecvRing.Answer

inductive Answer where
  | created (a : ℕ)
  | refused (a : ℕ)
  | queue (a : ℕ) (x : Side)
  | pollErr
  | reset (a : ℕ)
  | removed (a : ℕ)

/-- The number by which a completion finds its queue pair. -/
def key (v1 : Bool) (c : Cqe) : UInt32 := (if v1 then c.srqnUidx else c.sopDropQpn) &&& 0xffffff

/-- The device puts the user index into a completion of the first version. -/
def tag (v1 : Bool) (rsn : UInt32) (c : Cqe) : Cqe := if v1 then { c with srqnUidx := rsn } else c

/-- Whether the completion is for a shared receive queue, which is not there. -/
def strays (v1 : Bool) (c : Cqe) : Bool :=
  c.opcode = .noPacket || (!v1 && c.isResponder && c.srqnUidx &&& 0xffffff ≠ 0)

/-- Whether the switch of `mlx5_parse_cqe` does nothing for the entry. -/
def isIdle (c : Cqe) : Bool := c.opcode ∈ [.resizeCq, .invalid, .other]

/-- What a pair without a receive queue answers. -/
def noRecv : RecvRing.Event → Option (List RecvRing.Answer)
  | .queue (.post wrs) => some [.queue (.posted [] (if wrs.isEmpty then none else some .enomem))]
  | .queue (.modify state) => if state = .reset then none else some []
  | .queue (.keep _) => some []
  | _ => none

/-- `mlx5_parse_cqe`, for the queue pair of the completion. -/
def Pair.parseCqe (p : Pair) (c : Cqe) : Option (Pair × Side) :=
  match c.opcode with
  | .req | .reqErr =>
    (parseReq p.qp p.ring p.sq c).map fun r => ({ p with sq := r.2 }, .inl (.polled (some r.1)))
  | .respWrImm | .respSend | .respSendImm | .respSendInv | .respErr =>
    p.recv.bind fun m =>
      (parseResp m.sig m.queue.rq c).map fun r =>
        let queue := { m.queue with rq := r.2, busy := m.queue.busy - 1 }
        ({ p with recv := some { m with queue } }, .inr (.polled (some r.1)))
  | _ => none

namespace System
variable (s : System)

def setPair (a : ℕ) (p : Option Pair) : System := { s with heap := Function.update s.heap a p }

/-- The number of a new queue pair: a user index, or the number from the kernel. -/
def register (a : ℕ) (qpNum : UInt32) (mem : Bool) : Option (ObjectTable.Table ℕ × Option UInt32) :=
  if s.v1 then (s.table.storeUidx mem a).map fun r => (r.1, r.2.map UInt32.ofNat)
  else
    match s.table.find qpNum.toNat with
    | some none =>
      (s.table.store mem qpNum.toNat a).map fun r => (r.1, if r.2 then some qpNum else none)
    | _ => none

/-- The receive queue of a new queue pair. Raw packet and underlay pairs wait with its doorbell. -/
def createRecv (cfg : Config) (qp : Qp) : Option (Option Receiver) :=
  if cfg.maxRecvWr = 0 then some none
  else
    (RecvQueue.calcRqSize cfg.lim cfg.sig cfg.maxRecvWr cfg.maxRecvSge).map fun rq =>
      some (.ofMachine (.init rq (qp.qpType = .rawPacket || qp.underlay) cfg.sig qp.qpNum))

/-- The part of `create_qp` that matters for completions. -/
def create (a : ℕ) (cfg : Config) (qpNum : UInt32) (ring : ℕ → Slot) (mem : Bool) :
    Option (System × List Answer) :=
  match createQp cfg.ctx cfg.attr cfg.caps qpNum with
  | none => some (s, [.refused a])
  | some qp =>
    match createRecv cfg qp with
    | none => some (s, [.refused a])
    | some recv =>
      (s.register a qpNum mem).map fun r =>
        let s := { s with table := r.1 }
        match r.2 with
        | none => (s, [.refused a])
        | some rsn =>
          (s.setPair a (some ⟨qp, rsn, ⟨0, 0, 0, .none⟩, ring, [], recv, false⟩), [.created a])

/-- The device writes what a step of the queue pair left, where the ring has room. -/
def produce (rsn : UInt32) : List Cqe → Option System
  | [] => some s
  | c :: _ => (s.fifo.step (.produce (tag s.v1 rsn c))).map fun r => { s with fifo := r.1 }

/-- A step of the send queue at an address. -/
def sendStep (a : ℕ) (e : SendRing.Event) : Option (System × List Answer) :=
  match s.heap a with
  | none => none
  | some p =>
    if p.dead then none
    else
      ((p.machine []).step e).bind fun r =>
        (s.produce p.rsn r.1.cqes).map fun s =>
          (s.setPair a (some (p.ofMachine r.1)), r.2.map fun x => .queue a (.inl x))

/-- A step of the receive queue at an address. -/
def recvStep (a : ℕ) (e : RecvRing.Event) : Option (System × List Answer) :=
  match s.heap a with
  | none => none
  | some p =>
    if p.dead then none
    else
      match p.recv with
      | none => (noRecv e).map fun ys => (s, ys.map fun x => .queue a (.inr x))
      | some m =>
        ((m.machine p.qp.qpNum []).step e).bind fun r =>
          (s.produce p.rsn r.1.cqes).map fun s =>
            (s.setPair a (some { p with recv := some (.ofMachine r.1) }),
              r.2.map fun x => .queue a (.inr x))

/-- `get_req_context`, and `get_cur_rsc` where there are no shared receive queues: the queue pair
of the last completion, or the one in the table. -/
def getContext (cur : Option ℕ) (rsn : UInt32) : Option (Option ℕ) :=
  match cur with
  | none => s.table.find rsn.toNat
  | some a =>
    match s.heap a with
    | none => none
    | some p => if p.rsn = rsn then some (some a) else s.table.find rsn.toNat

/-- The loop of `poll_cq`. An entry for which nothing is done leaves the completion of the
application unset, and has no result. -/
def pollLoop : (ne : ℕ) → System → (cur : Option ℕ) → Option (System × List Answer)
  | 0, s, _ => some (s, [])
  | ne + 1, s, cur =>
    match s.fifo.cq.getNextCqe with
    | none => some (s, [])
    | some (c, cq) =>
      let s := { s with fifo := { s.fifo with cq := cq } }
      if strays s.v1 c then some (s, [.pollErr])
      else if isIdle c then none
      else
        match s.getContext cur (key s.v1 c) with
        | none => none
        | some none => some (s, [.pollErr])
        | some (some a) =>
          match s.heap a with
          | none => none
          | some p =>
            (p.parseCqe c).bind fun r =>
              (pollLoop ne (s.setPair a (some r.1)) (some a)).map fun x =>
                (x.1, .queue a r.2 :: x.2)

def poll (ne : ℕ) : Option (System × List Answer) :=
  (pollLoop ne s none).map fun r =>
    ({ r.1 with fifo := { r.1.fifo with cq := r.1.fifo.cq.updateConsIndex } }, r.2)

/-- The completion queue is cleaned, and the queue pair starts again. -/
def reset (a : ℕ) (p : Pair) : Option (System × List Answer) :=
  (s.fifo.step (.clean s.v1 p.rsn false)).map fun r =>
    ({ s with fifo := r.1 }.setPair a (some p.initIndices), [.reset a])

/-- The completion queue is cleaned, and the number is given up. -/
def remove (a : ℕ) (p : Pair) : Option (System × List Answer) := do
  let r ← s.fifo.step (.clean s.v1 p.rsn false)
  let table ← s.table.clear p.rsn.toNat
  some ({ s with fifo := r.1, table := table }.setPair a none, [.removed a])

def step : Event → Option (System × List Answer)
  | .create a cfg qpNum ring mem =>
    match s.heap a with
    | some _ => none
    | none => s.create a cfg qpNum ring mem
  | .post a wrs => s.sendStep a (.post wrs)
  | .execute a o => s.sendStep a (.execute o)
  | .recv a e => s.recvStep a (.queue e)
  | .deliver a d => s.recvStep a (.deliver d)
  | .poll ne => s.poll ne
  | .kill a =>
    match s.heap a with
    | some p => some (s.setPair a (some { p with dead := true }), [])
    | none => none
  | .reset a =>
    match s.heap a with
    | some p => if p.dead then s.reset a p else none
    | none => none
  | .remove a =>
    match s.heap a with
    | some p => if p.dead then s.remove a p else none
    | none => none

/-- A completion queue without queue pairs. -/
def init (v1 : Bool) (logMaxCqSz : Fin 24) (cq : Cq) : System :=
  ⟨v1, CompletionFifo.Machine.init logMaxCqSz cq, ObjectTable.empty, fun _ => none⟩

end System

/-- A queue pair whose entries have the room that they need: it names no operations and has no
room for a header, has a send queue, and the device counts its blocks in 16 bits and its receives
in 15. -/
structure Config.Plain (cfg : Config) : Prop where
  sendOps_eq : cfg.attr.sendOps = none
  maxTsoHeader_eq : cfg.attr.maxTsoHeader = none
  maxSendWr_ne : cfg.attr.maxSendWr ≠ 0
  maxSendWqebb_le : cfg.ctx.maxSendWqebb.toNat ≤ 2 ^ 16
  maxRecvWr_le : cfg.lim.maxRecvWr ≤ 2 ^ 15

instance (cfg : Config) : Decidable cfg.Plain :=
  decidable_of_iff (cfg.attr.sendOps = none ∧ cfg.attr.maxTsoHeader = none ∧
    cfg.attr.maxSendWr ≠ 0 ∧ cfg.ctx.maxSendWqebb.toNat ≤ 2 ^ 16 ∧ cfg.lim.maxRecvWr ≤ 2 ^ 15)
    ⟨fun ⟨h₁, h₂, h₃, h₄, h₅⟩ => ⟨h₁, h₂, h₃, h₄, h₅⟩, fun h =>
      ⟨h.sendOps_eq, h.maxTsoHeader_eq, h.maxSendWr_ne, h.maxSendWqebb_le, h.maxRecvWr_le⟩⟩

/-- The application creates such queue pairs only, and destroys or resets one while the ring is not
full: the sweep would miss the last entry. -/
def Orderly (s : System) : Event → Prop
  | .create _ cfg _ _ _ => cfg.Plain
  | .reset _ | .remove _ => (s.fifo.pi - s.fifo.cq.consIndex).toNat < s.fifo.cq.ncqe
  | _ => True

instance (s : System) (e : Event) : Decidable (Orderly s e) := by
  cases e <;> unfold Orderly <;> infer_instance

@[simp] theorem System.setPair_self (s : System) (a : ℕ) (p : Option Pair) :
    (s.setPair a p).heap a = p := Function.update_self ..

theorem System.setPair_ne (s : System) {a b : ℕ} (h : b ≠ a) (p : Option Pair) :
    (s.setPair a p).heap b = s.heap b := Function.update_of_ne h ..

section History

/-- The answers of the queue pair at an address: they begin again with the pair. -/
def Answer.record (a : ℕ) (hist : List Side) : Answer → List Side
  | .created b | .reset b => if b = a then [] else hist
  | .queue b x => if b = a then hist ++ [x] else hist
  | _ => hist

def history (a : ℕ) (out : List Answer) : List Side := out.foldl (Answer.record a) []

/-- The answers of a send queue. -/
def sends (hist : List Side) : List SendRing.Answer := hist.filterMap Sum.getLeft?

/-- The answers of a receive queue. -/
def recvs (hist : List Side) : List RecvRing.Answer := hist.filterMap Sum.getRight?

variable (hist : List Side) (xs : List SendRing.Answer) (ys : List RecvRing.Answer)

@[simp] theorem sends_append_inl : sends (hist ++ xs.map .inl) = sends hist ++ xs := by
  simp [sends, Function.comp_def]

@[simp] theorem recvs_append_inl : recvs (hist ++ xs.map .inl) = recvs hist := by
  simp [recvs]

@[simp] theorem sends_append_inr : sends (hist ++ ys.map .inr) = sends hist := by
  simp [sends]

@[simp] theorem recvs_append_inr : recvs (hist ++ ys.map .inr) = recvs hist ++ ys := by
  simp [recvs, Function.comp_def]

theorem history_concat (a : ℕ) (out : List Answer) (x : Answer) :
    history a (out ++ [x]) = x.record a (history a out) := by
  rw [history, List.foldl_append]
  rfl

theorem history_queue (b a : ℕ) (out : List Answer) (xs : List Side) :
    history b (out ++ xs.map (.queue a)) = history b out ++ if a = b then xs else [] := by
  induction xs generalizing out with
  | nil => simp
  | cons x xs ih =>
    rw [List.map_cons, List.append_cons, ih, history_concat, Answer.record]
    split_ifs <;> simp

end History

section Keys
variable {v1 : Bool} {rsn : UInt32} {c : Cqe}

theorem isEqual_iff : c.isEqual v1 rsn = true ↔ key v1 c = rsn := by
  rw [Cqe.isEqual, decide_eq_true_iff, key, eq_comm]

theorem and_mask_of_lt (h : rsn.toNat < 2 ^ 24) : rsn &&& 0xffffff = rsn := by
  rw [← UInt32.toNat_inj, SendRing.toNat_and_mask, Nat.mod_eq_of_lt h]

/-- A completion is found under the number of its queue pair. -/
theorem key_tag (hrsn : rsn.toNat < 2 ^ 24)
    (hqpn : v1 = false → c.sopDropQpn &&& 0xffffff = rsn) : key v1 (tag v1 rsn c) = rsn := by
  cases v1 with
  | true => exact and_mask_of_lt hrsn
  | false => exact hqpn rfl

theorem parseReq_tag (qp : Qp) (ring : ℕ → Slot) (sq : Sq) :
    parseReq qp ring sq (tag v1 rsn c) = parseReq qp ring sq c := by
  cases v1 <;> rfl

theorem parseResp_tag (sig : Bool) (rq : RecvQueue.Rq) :
    parseResp sig rq (tag v1 rsn c) = parseResp sig rq c := by
  cases v1 <;> rfl

@[simp] theorem opcode_tag : (tag v1 rsn c).opcode = c.opcode := by
  cases v1 <;> rfl

@[simp] theorem isResponder_tag : (tag v1 rsn c).isResponder = c.isResponder := by
  rw [Cqe.isResponder, Cqe.isResponder, opcode_tag]

theorem reqCqe_opcode (w : Wqe) (o : Ending) :
    (reqCqe w o).opcode = .req ∨ (reqCqe w o).opcode = .reqErr := by
  rw [reqCqe]
  cases o.syndrome <;> simp

theorem reqCqe_isResponder (w : Wqe) (o : Ending) : (reqCqe w o).isResponder = false := by
  rw [Cqe.isResponder]
  rcases reqCqe_opcode w o with h | h <;> simp [h]

theorem respCqe_isResponder (qpn : UInt32) (d : Delivery) : (respCqe qpn d).isResponder = true := by
  rw [Cqe.isResponder, respCqe]
  cases d.syndrome <;> cases d.message <;> rfl

theorem not_idle_of_isResponder (h : c.isResponder = true) :
    isIdle c = false ∧ c.opcode ≠ .noPacket := by
  unfold Cqe.isResponder at h
  unfold isIdle
  cases hop : c.opcode <;> simp_all

end Keys

section Projection
variable {v1 : Bool} {pending : List Cqe} {p : Pair} {m : Receiver} {a : ℕ} {hist : List Side}

/-- The completions with a number. -/
def own (v1 : Bool) (rsn : UInt32) (pending : List Cqe) : List Cqe :=
  pending.filter (Cqe.isEqual v1 rsn)

/-- A send queue sees what it would see alone, where the ring has the completions of its
requests. -/
def SendFollowed (v1 : Bool) (p : Pair) (cqes : List Cqe) (hist : List SendRing.Answer) : Prop :=
  ∃ room cqes', Fits p.qp room ∧ SendRing.Tracked p.qp room (p.machine cqes') hist ∧
    cqes'.map (tag v1 p.rsn) = cqes

/-- The same for a receive queue. A pair without one has nothing to tell. -/
def RecvFollowed (v1 : Bool) (p : Pair) (cqes : List Cqe) (hist : List RecvRing.Answer) : Prop :=
  match p.recv with
  | none => cqes = [] ∧ RecvRing.accepted hist = [] ∧ RecvRing.delivered hist = [] ∧
      RecvRing.polled hist = []
  | some m => ∃ cqes', RecvRing.Tracked (m.machine p.qp.qpNum cqes') hist ∧
      cqes'.map (tag v1 p.rsn) = cqes

structure Followed (v1 : Bool) (pending : List Cqe) (p : Pair) (hist : List Side) : Prop where
  rsn_lt : p.rsn.toNat < 2 ^ 24
  rsn_eq : v1 = false → p.qp.qpNum = p.rsn
  cnt_le : p.qp.wqeCnt.toNat ≤ 2 ^ 16
  send : SendFollowed v1 p ((own v1 p.rsn pending).filter (!·.isResponder)) (sends hist)
  recv : RecvFollowed v1 p ((own v1 p.rsn pending).filter (·.isResponder)) (recvs hist)

/-- Only the completions with the number of the pair matter. -/
theorem Followed.congr {pending' : List Cqe} (h : Followed v1 pending p hist)
    (hp : own v1 p.rsn pending' = own v1 p.rsn pending) : Followed v1 pending' p hist :=
  ⟨h.rsn_lt, h.rsn_eq, h.cnt_le, hp ▸ h.send, hp ▸ h.recv⟩

/-- What the device leaves for a queue pair: one completion at most, with its number. -/
structure Left (v1 : Bool) (rsn : UInt32) (left : List Cqe) : Prop where
  length_le : left.length ≤ 1
  view_eq : ∀ c ∈ left, c.view = c
  key_eq : ∀ c ∈ left, key v1 (tag v1 rsn c) = rsn

theorem Left.own_append {rsn : UInt32} {left : List Cqe} (h : Left v1 rsn left)
    (pending : List Cqe) :
    own v1 rsn (pending ++ left.map (tag v1 rsn)) =
      own v1 rsn pending ++ left.map (tag v1 rsn) := by
  have hself : own v1 rsn (left.map (tag v1 rsn)) = left.map (tag v1 rsn) := by
    refine List.filter_eq_self.mpr fun c hc => ?_
    obtain ⟨c', hc', rfl⟩ := List.mem_map.mp hc
    exact isEqual_iff.mpr (h.key_eq c' hc')
  rw [own, List.filter_append]
  exact congrArg _ hself

/-- Completions of the kind are added to the others of the kind. -/
theorem Left.filter_append {rsn : UInt32} {left : List Cqe} (h : Left v1 rsn left)
    (pending : List Cqe) {kind : Cqe → Bool} (htag : ∀ c, kind (tag v1 rsn c) = kind c)
    (hkind : ∀ c ∈ left, kind c = true) :
    (own v1 rsn (pending ++ left.map (tag v1 rsn))).filter kind =
        (own v1 rsn pending).filter kind ++ left.map (tag v1 rsn) ∧
      (own v1 rsn (pending ++ left.map (tag v1 rsn))).filter (!kind ·) =
        (own v1 rsn pending).filter (!kind ·) := by
  have hmap (c : Cqe) (hc : c ∈ left.map (tag v1 rsn)) : kind c = true := by
    obtain ⟨c', hc', rfl⟩ := List.mem_map.mp hc
    rw [htag, hkind c' hc']
  have hself : (left.map (tag v1 rsn)).filter kind = left.map (tag v1 rsn) :=
    List.filter_eq_self.mpr hmap
  have hnone : (left.map (tag v1 rsn)).filter (!kind ·) = [] :=
    List.filter_eq_nil_iff.mpr fun c hc => by simp [hmap c hc]
  rw [h.own_append, List.filter_append, List.filter_append, hself, hnone, List.append_nil]
  exact ⟨rfl, rfl⟩

section Send
variable {e : SendRing.Event} {r : SendRing.Machine × List SendRing.Answer}

/-- What the application and the device do to a send queue. -/
theorem Followed.sendStep (h : Followed v1 pending p hist) (he : e ≠ .poll)
    (hr : (p.machine []).step e = some r) :
    Left v1 p.rsn r.1.cqes ∧
      Followed v1 (pending ++ r.1.cqes.map (tag v1 p.rsn)) (p.ofMachine r.1)
        (hist ++ r.2.map .inl) := by
  obtain ⟨room, cqes, hfits, htracked, hcqes⟩ := h.send
  obtain ⟨⟨qp, sq, ring, flight, left⟩, ys⟩ := r
  obtain ⟨hstep, hqp, hwrite⟩ := (p.machine cqes).step_append cqes he hr
  obtain rfl : qp = p.qp := hqp
  have hall : left.length ≤ 1 ∧ ∀ c ∈ left, ∃ w ∈ p.flight, ∃ o, c = reqCqe w o := by
    rcases hwrite with rfl | ⟨w, hw, o, rfl⟩
    · simp
    · exact ⟨le_rfl, by simpa using ⟨w, hw, o, rfl⟩⟩
  have hleft : Left v1 p.rsn left := by
    refine ⟨hall.1, fun c hc => ?_, fun c hc => ?_⟩ <;> obtain ⟨w, hw, o, rfl⟩ := hall.2 c hc
    · rfl
    · refine key_tag h.rsn_lt fun hv => ?_
      rw [SendRing.reqCqe_qpn, htracked.flight_qpn hw, h.rsn_eq hv, and_mask_of_lt h.rsn_lt]
  have hreq (c : Cqe) (hc : c ∈ left) : (!c.isResponder) = true := by
    obtain ⟨w, -, o, rfl⟩ := hall.2 c hc
    rw [reqCqe_isResponder, Bool.not_false]
  obtain ⟨hsends, hothers⟩ := hleft.filter_append pending (by simp) hreq
  simp only [Bool.not_not] at hothers
  refine ⟨hleft, h.rsn_lt, h.rsn_eq, h.cnt_le, ?_, ?_⟩
  · refine ⟨room, cqes ++ left, hfits, ?_, ?_⟩
    · rw [sends_append_inl]
      exact SendRing.tracked_step hfits h.cnt_le htracked hstep
    · show (cqes ++ left).map (tag v1 p.rsn) = _
      rw [List.map_append, hcqes]
      exact hsends.symm
  · rw [recvs_append_inl]
    exact hothers.symm ▸ h.recv

end Send

section Recv
variable {e : RecvRing.Event} {r : RecvRing.Machine × List RecvRing.Answer}

/-- What the application and the device do to a receive queue. -/
theorem Followed.recvStep (h : Followed v1 pending p hist) (hm : p.recv = some m) (he : e ≠ .poll)
    (hr : (m.machine p.qp.qpNum []).step e = some r) :
    Left v1 p.rsn r.1.cqes ∧
      Followed v1 (pending ++ r.1.cqes.map (tag v1 p.rsn)) { p with recv := some (.ofMachine r.1) }
        (hist ++ r.2.map .inr) := by
  have hrecv := h.recv
  rw [RecvFollowed, hm] at hrecv
  obtain ⟨cqes, htracked, hcqes⟩ := hrecv
  obtain ⟨⟨queue, sig, qpn, held, left⟩, ys⟩ := r
  obtain ⟨hstep, hqpn, hwrite⟩ := (m.machine p.qp.qpNum cqes).step_append cqes he hr
  obtain rfl : qpn = p.qp.qpNum := hqpn
  have hall : left.length ≤ 1 ∧ ∀ c ∈ left, ∃ d, c = respCqe p.qp.qpNum d := by
    rcases hwrite with rfl | ⟨d, rfl⟩
    · simp
    · exact ⟨le_rfl, by simpa using ⟨d, rfl⟩⟩
  have hleft : Left v1 p.rsn left := by
    refine ⟨hall.1, fun c hc => ?_, fun c hc => ?_⟩ <;> obtain ⟨d, rfl⟩ := hall.2 c hc
    · rfl
    · refine key_tag h.rsn_lt fun hv => ?_
      show p.qp.qpNum &&& 0xffffff &&& 0xffffff = p.rsn
      rw [h.rsn_eq hv, and_mask_of_lt h.rsn_lt, and_mask_of_lt h.rsn_lt]
  have hresp (c : Cqe) (hc : c ∈ left) : c.isResponder = true := by
    obtain ⟨d, rfl⟩ := hall.2 c hc
    exact respCqe_isResponder _ d
  obtain ⟨hrecvs, hothers⟩ := hleft.filter_append pending (by simp) hresp
  refine ⟨hleft, h.rsn_lt, h.rsn_eq, h.cnt_le, ?_, ?_⟩
  · rw [sends_append_inr]
    exact hothers.symm ▸ h.send
  · refine ⟨cqes ++ left, ?_, ?_⟩
    · rw [recvs_append_inr]
      exact RecvRing.tracked_step htracked hstep
    · rw [List.map_append, hcqes]
      exact hrecvs.symm

theorem Followed.noRecv (h : Followed v1 pending p hist) (hm : p.recv = none)
    {ys : List RecvRing.Answer} (hys : noRecv e = some ys) :
    Followed v1 pending p (hist ++ ys.map .inr) := by
  refine ⟨h.rsn_lt, h.rsn_eq, h.cnt_le, by simpa using h.send, ?_⟩
  have hrecv := h.recv
  rw [RecvFollowed, hm] at hrecv ⊢
  obtain ⟨hcqes, haccepted, hdelivered, hpolled⟩ := hrecv
  have hnothing : RecvRing.accepted ys = [] ∧ RecvRing.delivered ys = [] ∧
      RecvRing.polled ys = [] := by
    unfold SharedCq.noRecv at hys
    split at hys
    · obtain rfl := Option.some.inj hys
      exact ⟨rfl, rfl, rfl⟩
    · split_ifs at hys
      obtain rfl := Option.some.inj hys
      exact ⟨rfl, rfl, rfl⟩
    · obtain rfl := Option.some.inj hys
      exact ⟨rfl, rfl, rfl⟩
    · cases hys
  rw [recvs_append_inr]
  exact ⟨hcqes, by rw [RecvRing.accepted_append, haccepted, hnothing.1]; rfl,
    by rw [RecvRing.delivered_append, hdelivered, hnothing.2.1]; rfl,
    by rw [RecvRing.polled_append, hpolled, hnothing.2.2]; rfl⟩

end Recv

section Polling
variable {c : Cqe}

theorem own_cons (hc : key v1 c = p.rsn) :
    own v1 p.rsn (c :: pending) = c :: own v1 p.rsn pending :=
  List.filter_cons_of_pos (isEqual_iff.mpr hc)

theorem parseCqe_req (hc : c.opcode = .req ∨ c.opcode = .reqErr) :
    p.parseCqe c = (parseReq p.qp p.ring p.sq c).map fun r =>
      ({ p with sq := r.2 }, .inl (.polled (some r.1))) := by
  rcases hc with hc | hc <;> simp only [Pair.parseCqe, hc]

theorem parseCqe_resp (hm : p.recv = some m) (hc : c.isResponder = true) :
    p.parseCqe c = (parseResp m.sig m.queue.rq c).map fun r =>
      ({ p with recv := some { m with
          queue := { m.queue with rq := r.2, busy := m.queue.busy - 1 } } },
        .inr (.polled (some r.1))) := by
  unfold Pair.parseCqe
  cases hop : c.opcode <;> simp [Cqe.isResponder, hop, hm] at hc ⊢

/-- The next completion of a send queue is parsed. -/
theorem SendFollowed.poll {cqes : List Cqe} {hist : List SendRing.Answer}
    (h : SendFollowed v1 p (c :: cqes) hist) (hcnt : p.qp.wqeCnt.toNat ≤ 2 ^ 16) :
    (c.opcode = .req ∨ c.opcode = .reqErr) ∧ ∃ x, parseReq p.qp p.ring p.sq c = some x ∧
      SendFollowed v1 { p with sq := x.2 } cqes (hist ++ [.polled (some x.1)]) := by
  obtain ⟨room, cqes', hfits, htracked, hcqes⟩ := h
  obtain ⟨c', rest, rfl, rfl, hrest⟩ := List.map_eq_cons_iff.mp hcqes
  obtain ⟨-, pos, retired, done, flight, hledger⟩ := id htracked
  obtain ⟨x, -, -, -, hparse, -⟩ := hledger.poll hfits hcnt rfl
  have hmem : c' ∈ (p.machine (c' :: rest)).cqes := List.mem_cons_self
  rw [hledger.cqes_eq] at hmem
  obtain ⟨d, -, hd⟩ := List.mem_map.mp hmem
  have hstep := SendRing.tracked_step (e := .poll) hfits hcnt htracked
    (r := ({ p with sq := x.2 }.machine rest, [.polled (some x.1)]))
    (Option.map_eq_some_iff.mpr ⟨x, hparse, rfl⟩)
  rw [opcode_tag, parseReq_tag]
  exact ⟨hd ▸ reqCqe_opcode _ _, x, hparse, room, rest, hfits, hstep, hrest⟩

/-- The next completion of a receive queue is parsed. It is for no shared receive queue. -/
theorem RecvFollowed.poll {cqes : List Cqe} {hist : List RecvRing.Answer}
    (h : RecvFollowed v1 p (c :: cqes) hist) :
    (v1 = false → c.srqnUidx = 0) ∧ ∃ m x, p.recv = some m ∧
      parseResp m.sig m.queue.rq c = some x ∧
      RecvFollowed v1 { p with recv := some { m with
        queue := { m.queue with rq := x.2, busy := m.queue.busy - 1 } } } cqes
        (hist ++ [.polled (some x.1)]) := by
  unfold RecvFollowed at h
  split at h
  · exact absurd h.1 (List.cons_ne_nil _ _)
  next m hm =>
    obtain ⟨cqes', htracked, hcqes⟩ := h
    obtain ⟨c', rest, rfl, rfl, hrest⟩ := List.map_eq_cons_iff.mp hcqes
    obtain ⟨line, retired, done, held, hledger⟩ := id htracked
    obtain ⟨x, -, -, -, hparse, -⟩ := hledger.poll rfl
    let m' : Receiver := { m with queue := { m.queue with rq := x.2, busy := m.queue.busy - 1 } }
    have hstep := RecvRing.tracked_step (e := .poll) htracked
      (r := (m'.machine p.qp.qpNum rest, [.polled (some x.1)]))
      (Option.map_eq_some_iff.mpr ⟨x, hparse, rfl⟩)
    have hmem : c' ∈ (m.machine p.qp.qpNum (c' :: rest)).cqes := List.mem_cons_self
    rw [hledger.cqes_eq] at hmem
    obtain ⟨d, -, hd⟩ := List.mem_map.mp hmem
    refine ⟨?_, m, x, hm, ?_, rest, hstep, hrest⟩
    · rintro rfl
      exact hd ▸ rfl
    · rwa [parseResp_tag]

/-- The next completion of a pair is parsed, and is the next one of one of its queues. -/
theorem Followed.poll (h : Followed v1 (c :: pending) p hist) (hc : key v1 c = p.rsn) :
    (strays v1 c = false ∧ isIdle c = false) ∧
      ∃ p' x, p.parseCqe c = some (p', x) ∧ p'.rsn = p.rsn ∧
        Followed v1 pending p' (hist ++ [x]) := by
  obtain ⟨hlt, hrsn, hcnt, hsend, hrecv⟩ := h
  rw [own_cons hc] at hsend hrecv
  cases hresp : c.isResponder with
  | false =>
    rw [List.filter_cons_of_pos (by simp [hresp])] at hsend
    rw [List.filter_cons_of_neg (by simp [hresp])] at hrecv
    obtain ⟨hop, x, hparse, hsend'⟩ := hsend.poll hcnt
    have hsends := sends_append_inl hist [.polled (some x.1)]
    have hrecvs := recvs_append_inl hist [.polled (some x.1)]
    refine ⟨?_, { p with sq := x.2 }, .inl (.polled (some x.1)), ?_, rfl, hlt, hrsn, hcnt,
      hsends.symm ▸ hsend', hrecvs.symm ▸ hrecv⟩
    · rcases hop with hop | hop <;> simp [strays, isIdle, hop, hresp]
    · rw [parseCqe_req hop, hparse]
      rfl
  | true =>
    rw [List.filter_cons_of_neg (by simp [hresp])] at hsend
    rw [List.filter_cons_of_pos (by simp [hresp])] at hrecv
    obtain ⟨hsrqn, m, x, hm, hparse, hrecv'⟩ := hrecv.poll
    obtain ⟨hidle, hpacket⟩ := not_idle_of_isResponder hresp
    have hsends := sends_append_inr hist [.polled (some x.1)]
    have hrecvs := recvs_append_inr hist [.polled (some x.1)]
    let queue := { m.queue with rq := x.2, busy := m.queue.busy - 1 }
    refine ⟨⟨?_, hidle⟩, { p with recv := some { m with queue } }, .inr (.polled (some x.1)), ?_,
      rfl, hlt, hrsn, hcnt, hsends.symm ▸ hsend, hrecvs.symm ▸ hrecv'⟩
    · cases v1 with
      | true => simpa [strays] using hpacket
      | false => simpa [strays, hsrqn rfl] using hpacket
    · rw [parseCqe_resp hm hresp, hparse]
      rfl

end Polling

section Beginning

theorem createRecv_followed {cfg : Config} {qp : Qp} {rsn : UInt32} {recv : Option Receiver}
    {sq : Sq} {ring : ℕ → Slot} {flight : List Wqe} {dead : Bool} (hcfg : cfg.Plain)
    (h : System.createRecv cfg qp = some recv) :
    RecvFollowed v1 ⟨qp, rsn, sq, ring, flight, recv, dead⟩ [] [] := by
  unfold System.createRecv at h
  split_ifs at h with hwr
  · obtain rfl := Option.some.inj h
    exact ⟨rfl, rfl, rfl, rfl⟩
  · obtain ⟨rq, hrq, rfl⟩ := Option.map_eq_some_iff.mp h
    exact ⟨[], RecvRing.tracked_init hrq (Nat.pos_of_ne_zero hwr) hcfg.maxRecvWr_le _ _, rfl⟩

theorem followed_init {cfg : Config} {qp : Qp} {qpNum rsn : UInt32} {ring : ℕ → Slot}
    {recv : Option Receiver} (hcfg : cfg.Plain)
    (hqp : createQp cfg.ctx cfg.attr cfg.caps qpNum = some qp)
    (hrecv : System.createRecv cfg qp = some recv) (hlt : rsn.toNat < 2 ^ 24)
    (hrsn : v1 = false → rsn = qpNum) (hown : own v1 rsn pending = []) :
    Followed v1 pending ⟨qp, rsn, ⟨0, 0, 0, .none⟩, ring, [], recv, false⟩ [] := by
  obtain ⟨hcnt, room, hfits⟩ :=
    createQp_fits hqp hcfg.sendOps_eq hcfg.maxTsoHeader_eq hcfg.maxSendWr_ne
  obtain ⟨-, -, -, -, hnum⟩ := createQp_eq hqp
  refine ⟨hlt, fun hv => hnum.trans (hrsn hv).symm,
    (UInt32.le_iff_toNat_le.mp hcnt).trans hcfg.maxSendWqebb_le, ?_, ?_⟩
  · exact ⟨room, [], hfits, SendRing.tracked_init qp room ring, by rw [hown]; rfl⟩
  · rw [hown]
    exact createRecv_followed hcfg hrecv

/-- After a reset a queue pair is as good as new. -/
theorem Followed.initIndices {pending' : List Cqe} (h : Followed v1 pending p hist)
    (hown : own v1 p.rsn pending' = []) : Followed v1 pending' p.initIndices [] := by
  have hown' : own v1 p.initIndices.rsn pending' = [] := hown
  refine ⟨h.rsn_lt, h.rsn_eq, h.cnt_le, ?_, ?_⟩
  · obtain ⟨room, -, hfits, -⟩ := h.send
    exact ⟨room, [], hfits, SendRing.tracked_reset p.qp room p.ring p.sq, by rw [hown']; rfl⟩
  · rw [hown']
    have hrecv := h.recv
    unfold RecvFollowed Pair.initIndices at *
    cases hm : p.recv with
    | none => exact ⟨rfl, rfl, rfl, rfl⟩
    | some m =>
      rw [hm] at hrecv
      obtain ⟨cqes, htracked, -⟩ := hrecv
      have hreset := RecvRing.tracked_reset htracked
      exact ⟨[], hreset, rfl⟩

end Beginning
end Projection
end RdmaperfIso.Mlx5.SharedCq
