import RdmaperfIso.Mlx5.RecvQueue
import RdmaperfIso.Mlx5.WorkCompletion

/-! Completions of receives. The device ends the requests of a receive queue in the order in which
it took them, so a completion need not say which one it is for: the driver takes the oldest, and
copies data that came with the completion to where that request wants it. -/
namespace RdmaperfIso.Mlx5.RecvRing
open Srq RecvQueue

inductive Message where
  | writeImm | send | sendImm | sendInv
  deriving DecidableEq, Repr

/-- How the device ends a receive. The message itself may come with the completion. -/
structure Delivery where
  message : Message := .send
  syndrome : Option UInt8 := none
  vendorErr : UInt8 := 0
  byteCnt : UInt32 := 0
  immInval : UInt32 := 0
  inlineScatter32 : Bool := false
  inlineScatter64 : Bool := false
  deriving DecidableEq, Repr

def Message.cqeOpcode : Message → CqeOpcode
  | writeImm => .respWrImm
  | send => .respSend
  | sendImm => .respSendImm
  | sendInv => .respSendInv

/-- The completion that the device writes. -/
def respCqe (qpn : UInt32) (d : Delivery) : Cqe where
  opcode := if d.syndrome.isSome then .respErr else d.message.cqeOpcode
  owner := false
  inlineScatter32 := d.inlineScatter32
  inlineScatter64 := d.inlineScatter64
  sopDropQpn := qpn &&& 0xffffff
  srqnUidx := 0
  wqeCounter := 0
  byteCnt := d.byteCnt
  immInvalPkey := d.immInval
  syndrome := d.syndrome.getD 0
  vendorErrSynd := d.vendorErr

/-- A message comes with a completion only if the scatter list takes it. -/
def Delivery.Sound (sges : List Sge) (d : Delivery) : Prop :=
  d.syndrome = none → (d.inlineScatter32 || d.inlineScatter64) = true →
    d.byteCnt.toNat < 2 ^ 31 ∧ d.byteCnt.toNat ≤ (sges.map fun s => s.length.toNat).sum

instance (sges : List Sge) (d : Delivery) : Decidable (d.Sound sges) :=
  inferInstanceAs (Decidable (_ → _ → _ ∧ _))

/-- The scatter entries that `mlx5_copy_to_recv_wqe` goes through. With a signature they are one
more than the entry has. -/
def recvScat (sig : Bool) (rq : Rq) (i : ℕ) : List (Option ℕ) :=
  ((List.range rq.maxGs).map fun j => some (rq.scat i j).length.toNat) ++ if sig then [none] else []

/-- `mlx5_copy_to_recv_wqe`. A size that is not an `int` has no result. -/
def copyToRecvWqe (sig : Bool) (rq : Rq) (i size : ℕ) : Option WcStatus :=
  if 2 ^ 31 ≤ size then none else (copyToScat size (recvScat sig rq i)).map Prod.fst

/-- What `handle_responder` says about a message that was received. -/
def describe (c : Cqe) (wc : Wc) : Wc :=
  match c.opcode with
  | .respWrImm =>
    { wc with opcode := some .recvRdmaWithImm, withImm := true, immInval := some c.immInvalPkey }
  | .respSend => { wc with opcode := some .recv }
  | .respSendImm =>
    { wc with opcode := some .recv, withImm := true, immInval := some c.immInvalPkey }
  | .respSendInv =>
    { wc with opcode := some .recv, withInv := true, immInval := some c.immInvalPkey }
  | _ => wc

/-- `handle_responder`, for a queue pair with a receive queue of its own. -/
def handleResponder (sig : Bool) (rq : Rq) (c : Cqe) : Option (Wc × Rq) :=
  let err := if c.inlineScatter32 || c.inlineScatter64 then
    copyToRecvWqe sig rq (rq.idx rq.tail).toNat c.byteCnt.toNat else some .success
  err.map fun status =>
    let wc : Wc :=
      { qpNum := c.sopDropQpn &&& 0xffffff, wrId := rq.retire.1, status, byteLen := some c.byteCnt }
    (if status = .success then describe c wc else wc, rq.retire.2)

/-- `mlx5_parse_cqe`, for the completions of receives, good and bad. -/
def parseResp (sig : Bool) (rq : Rq) (c : Cqe) : Option (Wc × Rq) :=
  if c.opcode = .respErr then
    some ({ qpNum := c.sopDropQpn &&& 0xffffff, wrId := rq.retire.1,
            status := handleErrorCqe c.syndrome, vendorErr := some c.vendorErrSynd }, rq.retire.2)
  else handleResponder sig rq c

inductive Event where
  /-- What concerns the queue alone. -/
  | queue (e : RecvQueue.Event)
  /-- The device ends the first request that it has. -/
  | deliver (d : Delivery)
  /-- A completion is polled and parsed. -/
  | poll

inductive Answer where
  | queue (x : RecvQueue.Answer)
  | delivered (d : Delivery)
  | polled (wc : Option Wc)

/-- The queue, the requests that the device has taken and not ended, and the completions that it
has written. -/
structure Machine where
  queue : RecvQueue.Machine
  sig : Bool
  qpn : UInt32
  held : List (List Sge)
  cqes : List Cqe

def takenLists (ys : List RecvQueue.Answer) : List (List Sge) :=
  ys.flatMap fun | .taken sges => [sges] | _ => []

/-- Whether the event neither ends a request nor forgets them all. -/
def isOwn : RecvQueue.Event → Bool
  | .complete => false
  | .modify state => state ≠ .reset
  | _ => true

namespace Machine

def init (rq : Rq) (gated sig : Bool) (qpn : UInt32) : Machine :=
  ⟨RecvQueue.Machine.init rq gated, sig, qpn, [], []⟩

def step (m : Machine) : Event → Option (Machine × List Answer)
  | .queue e =>
    if isOwn e then
      (m.queue.step e).map fun r =>
        ({ m with queue := r.1, held := m.held ++ takenLists r.2 }, r.2.map .queue)
    else none
  | .deliver d =>
    match m.held with
    | [] => none
    | sges :: held =>
      if d.Sound sges then
        some ({ m with held := held, cqes := m.cqes ++ [respCqe m.qpn d] }, [.delivered d])
      else none
  | .poll =>
    match m.cqes with
    | [] => some (m, [.polled none])
    | c :: cqes =>
      (parseResp m.sig m.queue.rq c).map fun r =>
        ({ m with queue := { m.queue with rq := r.2, busy := m.queue.busy - 1 }, cqes := cqes },
          [.polled (some r.1)])

/-- The change to the reset state, after which nothing is left of the requests. -/
def reset (m : Machine) : Machine :=
  { m with
    queue := { m.queue with rq := m.queue.rq.modifyQp m.queue.gated .reset, taken := 0, busy := 0 }
    held := []
    cqes := [] }

end Machine

section History

/-- The requests that were accepted. -/
def accepted (out : List Answer) : List UInt64 :=
  out.flatMap fun | .queue (.posted wrIds _) => wrIds | _ => []

/-- How the device ended the first of them. -/
def delivered (out : List Answer) : List Delivery :=
  out.flatMap fun | .delivered d => [d] | _ => []

/-- The completions that were polled. -/
def polled (out : List Answer) : List Wc :=
  out.flatMap fun | .polled wc => wc.toList | _ => []

theorem accepted_append (out out' : List Answer) :
    accepted (out ++ out') = accepted out ++ accepted out' :=
  List.flatMap_append

theorem delivered_append (out out' : List Answer) :
    delivered (out ++ out') = delivered out ++ delivered out' :=
  List.flatMap_append

theorem polled_append (out out' : List Answer) : polled (out ++ out') = polled out ++ polled out' :=
  List.flatMap_append

/-- The opcode of a completion for a message. -/
def Message.wcOpcode : Message → WcOpcode
  | writeImm => .recvRdmaWithImm
  | _ => .recv

/-- A completion for a request that ended in this way. -/
structure Reports (qpn : UInt32) (wc : Wc) (r : UInt64 × Delivery) : Prop where
  qpNum_eq : wc.qpNum = qpn &&& 0xffffff
  wrId_eq : wc.wrId = r.1
  status_eq : wc.status = (r.2.syndrome.map handleErrorCqe).getD .success
  message_eq : r.2.syndrome = none → wc.byteLen = some r.2.byteCnt ∧
    wc.opcode = some r.2.message.wcOpcode ∧
    wc.immInval = if r.2.message = .send then none else some r.2.immInval

end History

section Lines
variable {p p' : Line} {e : RecvQueue.Event} {ys : List RecvQueue.Answer}

/-- The requests that a list of requests adds to a line. -/
theorem post_all (p : Line) (nreq : ℕ) (wrs : List RecvWr) :
    ∃ k, (p.post nreq wrs).2.nreq = nreq + k ∧ (p.post nreq wrs).1.flight = p.flight ∧
      (p.post nreq wrs).1.all.map Recv.wrId =
        p.all.map Recv.wrId ++ (wrs.take k).map RecvWr.wrId := by
  induction wrs generalizing p nreq with
  | nil => exact ⟨0, rfl, rfl, by simp [Line.post]⟩
  | cons wr wrs ih =>
    rw [Line.post]
    split_ifs
    · exact ⟨0, rfl, rfl, by simp⟩
    · exact ⟨0, rfl, rfl, by simp⟩
    · obtain ⟨k, hk, hflight, hall⟩ :=
        ih { p with hidden := p.hidden ++ [⟨wr.wrId, validSges (Rq.dataSges wr)⟩] } (nreq + 1)
      refine ⟨k + 1, by omega, hflight, hall.trans ?_⟩
      simp [Line.all]

/-- What a line does on its own: requests are added at its end, and the device takes them from
the front. -/
theorem line_step (he : isOwn e = true) (h : p.step e = some (p', ys)) :
    p'.all.map Recv.wrId = p.all.map Recv.wrId ++ accepted (ys.map .queue) ∧
      ∃ new, p'.flight = p.flight ++ new ∧ takenLists ys = new.map Recv.sges := by
  cases e with
  | post wrs =>
    obtain ⟨rfl, rfl⟩ := Prod.mk.inj (Option.some.inj h)
    obtain ⟨k, hk, hflight, hall⟩ := post_all p 0 wrs
    have haccepted : accepted [.queue (posting wrs (p.post 0 wrs).2)] =
        (wrs.take k).map RecvWr.wrId := by
      simp [accepted, posting, hk]
    rw [List.map_singleton, haccepted, ← hall]
    split_ifs
    · exact ⟨rfl, [], by simp [hflight], rfl⟩
    · exact ⟨by rw [Line.all_announce], [], by simp [Line.announce, hflight], rfl⟩
  | modify state =>
    cases state with
    | reset => cases he
    | rtr =>
      obtain ⟨rfl, rfl⟩ := Prod.mk.inj (Option.some.inj h)
      split_ifs
      · exact ⟨by simp [Line.all_announce, accepted], [], by simp [Line.announce], rfl⟩
      · exact ⟨by simp [accepted], [], by simp, rfl⟩
    | init | rts | sqd | sqe | err =>
      obtain ⟨rfl, rfl⟩ := Prod.mk.inj (Option.some.inj h)
      exact ⟨by simp [accepted], [], by simp, rfl⟩
  | keep state =>
    obtain ⟨rfl, rfl⟩ := Prod.mk.inj (Option.some.inj h)
    exact ⟨by simp [accepted, Line.all], [], by simp, rfl⟩
  | take =>
    rw [Line.step] at h
    split at h
    · cases h
    next r waiting hw =>
      obtain ⟨rfl, rfl⟩ := Prod.mk.inj (Option.some.inj h)
      exact ⟨by simp [accepted, Line.all, hw], [r], rfl, rfl⟩
  | complete => cases he

end Lines

section Parsing
variable {sig : Bool} {rq : Rq} {qpn : UInt32} {d : Delivery} {r : Recv}

theorem scatRoom_append (ns : List ℕ) (rest : List (Option ℕ)) :
    ns.sum ≤ scatRoom (ns.map some ++ rest) := by
  induction ns with
  | nil => exact Nat.zero_le _
  | cons n ns ih =>
    rw [List.sum_cons, List.map_cons, List.cons_append, scatRoom]
    omega

/-- The copy has at least the room of the list that the device was given. -/
theorem le_recvScat {i : ℕ} (hr : rq.content i = r) :
    (r.sges.map fun s => s.length.toNat).sum ≤ scatRoom (recvScat sig rq i) := by
  obtain rfl := hr
  have hlist : recvScat sig rq i = (((List.range rq.maxGs).map (rq.scat i)).map
      fun s => s.length.toNat).map some ++ if sig then [none] else [] := by
    simp [recvScat, Function.comp_def]
  have hsub :
      (scatterList rq.maxGs (rq.scat i)).Sublist ((List.range rq.maxGs).map (rq.scat i)) :=
    List.takeWhile_sublist _
  rw [hlist]
  exact ((hsub.map _).sum_le_sum (by simp)).trans (scatRoom_append _ _)

theorem copyToRecvWqe_eq {i size : ℕ} (hr : rq.content i = r) (hint : size < 2 ^ 31)
    (hle : size ≤ (r.sges.map fun s => s.length.toNat).sum) :
    copyToRecvWqe sig rq i size = some .success := by
  rw [copyToRecvWqe, if_neg (not_le.mpr hint), copyToScat_of_le (hle.trans (le_recvScat hr))]
  rfl

theorem describe_eq {c : Cqe} {message : Message} {wc : Wc} (hop : c.opcode = message.cqeOpcode)
    (himm : wc.immInval = none) :
    ((describe c wc).qpNum = wc.qpNum ∧ (describe c wc).wrId = wc.wrId ∧
      (describe c wc).status = wc.status ∧ (describe c wc).byteLen = wc.byteLen) ∧
      (describe c wc).opcode = some message.wcOpcode ∧
      (describe c wc).immInval = if message = .send then none else some c.immInvalPkey := by
  rw [describe, hop]
  cases message <;> exact ⟨⟨rfl, rfl, rfl, rfl⟩, rfl, by simp [Message.cqeOpcode, himm]⟩

/-- The completion of a request that is at the tail. -/
theorem parseResp_eq (hr : rq.content (rq.idx rq.tail).toNat = r) (hd : d.Sound r.sges) :
    ∃ wc, parseResp sig rq (respCqe qpn d) = some (wc, rq.retire.2) ∧
      Reports qpn wc (r.wrId, d) := by
  have hqpn : (respCqe qpn d).sopDropQpn &&& 0xffffff = qpn &&& 0xffffff := by
    simp [respCqe, UInt32.and_assoc]
  have hid : rq.retire.1 = r.wrId := by
    rw [← hr]
    rfl
  rw [parseResp]
  cases hs : d.syndrome with
  | some syndrome =>
    rw [if_pos (by simp [respCqe, hs])]
    exact ⟨_, rfl, hqpn, hid, by simp [respCqe, hs], fun h => absurd h (by simp [hs])⟩
  | none =>
    have hop : (respCqe qpn d).opcode = d.message.cqeOpcode := by simp [respCqe, hs]
    have hne : (respCqe qpn d).opcode ≠ .respErr := by
      rw [hop]
      cases d.message <;> simp [Message.cqeOpcode]
    have herr : (if (respCqe qpn d).inlineScatter32 || (respCqe qpn d).inlineScatter64 then
        copyToRecvWqe sig rq (rq.idx rq.tail).toNat (respCqe qpn d).byteCnt.toNat
        else some .success) = some .success := by
      split_ifs with hinline
      · obtain ⟨hint, hle⟩ := hd hs hinline
        exact copyToRecvWqe_eq hr hint hle
      · rfl
    rw [if_neg hne, handleResponder, herr]
    obtain ⟨⟨hnum, hwr, hstatus, hlen⟩, hopcode, himm⟩ := @describe_eq _ _
      { qpNum := (respCqe qpn d).sopDropQpn &&& 0xffffff, wrId := rq.retire.1, status := .success,
        byteLen := some (respCqe qpn d).byteCnt } hop rfl
    exact ⟨_, rfl, hnum.trans hqpn, hwr.trans hid, hstatus.trans (by simp [hs]),
      fun _ => ⟨hlen, hopcode, himm⟩⟩

end Parsing

section Tracking
variable {m : Machine} {p : Line} {out : List Answer} {retired : List (UInt64 × Delivery)}
  {done : List (Recv × Delivery)} {held : List Recv}

/-- Where the accepted requests are: `retired` ones were given back, `done` ones were ended and
were not, and the device has those in `held`. -/
structure Ledger (m : Machine) (p : Line) (out : List Answer) (retired : List (UInt64 × Delivery))
    (done : List (Recv × Delivery)) (held : List Recv) : Prop where
  sim : Sim m.queue p
  flight_eq : p.flight = done.map Prod.fst ++ held
  held_eq : m.held = held.map Recv.sges
  cqes_eq : m.cqes = done.map fun d => respCqe m.qpn d.2
  accepted_eq : accepted out = retired.map Prod.fst ++ p.all.map Recv.wrId
  delivered_eq : delivered out = retired.map Prod.snd ++ done.map Prod.snd
  polled_reports : List.Forall₂ (Reports m.qpn) (polled out) retired
  sound : ∀ d ∈ done, d.2.Sound d.1.sges

theorem Ledger.queue {e : RecvQueue.Event} (he : isOwn e = true)
    (h : Ledger m p out retired done held) {r : RecvQueue.Machine × List RecvQueue.Answer}
    (hr : m.queue.step e = some r) :
    ∃ p' held', Ledger { m with queue := r.1, held := m.held ++ takenLists r.2 } p'
      (out ++ r.2.map .queue) retired done held' := by
  have hagree := h.sim.step e
  rw [hr] at hagree
  obtain ⟨p', hp', hsim⟩ := hagree.matched
  obtain ⟨hall, new, hflight, htaken⟩ := line_step he hp'
  refine ⟨p', held ++ new, hsim, ?_, ?_, h.cqes_eq, ?_, ?_, ?_, h.sound⟩
  · rw [hflight, h.flight_eq, List.append_assoc]
  · simp [h.held_eq, htaken]
  · rw [accepted_append, h.accepted_eq, hall, List.append_assoc]
  · rw [delivered_append, h.delivered_eq]
    simp [delivered]
  · have hnone : polled (r.2.map .queue) = [] := by simp [polled]
    rw [polled_append, hnone, List.append_nil]
    exact h.polled_reports

theorem Ledger.deliver {r : Recv} {d : Delivery} (hd : d.Sound r.sges)
    (h : Ledger m p out retired done (r :: held)) :
    Ledger { m with held := held.map Recv.sges, cqes := m.cqes ++ [respCqe m.qpn d] } p
      (out ++ [.delivered d]) retired (done ++ [(r, d)]) held := by
  refine ⟨h.sim, ?_, rfl, ?_, ?_, ?_, ?_, ?_⟩
  · simp [h.flight_eq]
  · simp [h.cqes_eq]
  · rw [accepted_append, h.accepted_eq]
    exact List.append_nil _
  · rw [delivered_append, h.delivered_eq]
    simp [delivered]
  · rw [polled_append]
    simpa [polled] using h.polled_reports
  · exact List.forall_mem_append.mpr ⟨h.sound, by simpa using hd⟩

theorem Ledger.poll {c : Cqe} {cqes : List Cqe} (h : Ledger m p out retired done held)
    (hc : m.cqes = c :: cqes) :
    ∃ x p' retired' done', parseResp m.sig m.queue.rq c = some x ∧
      Ledger { m with queue := { m.queue with rq := x.2, busy := m.queue.busy - 1 }, cqes := cqes }
        p' (out ++ [.polled (some x.1)]) retired' done' held := by
  rw [h.cqes_eq, List.map_eq_cons_iff] at hc
  obtain ⟨⟨r, d⟩, done, rfl, rfl, rfl⟩ := hc
  have hflight : p.flight = r :: (done.map Prod.fst ++ held) := h.flight_eq
  have hagree := h.sim.complete
  obtain ⟨⟨n, hm, -⟩, -, -, hbusy⟩ := id h.sim
  have hne : m.queue.busy ≠ 0 := by
    rw [hbusy, hflight]
    simp
  obtain ⟨wc, hparse, hreports⟩ := @parseResp_eq m.sig _ m.qpn _ _ (hm.content_tail hflight)
    (h.sound (r, d) (by simp))
  simp only [RecvQueue.Machine.step, if_neg hne, Line.step, hflight] at hagree
  obtain ⟨p', hp', hsim⟩ := hagree.matched
  obtain ⟨rfl, -⟩ := Prod.mk.inj (Option.some.inj hp')
  refine ⟨_, _, retired ++ [(r.wrId, d)], done, hparse, hsim, rfl, h.held_eq, rfl, ?_, ?_, ?_,
    fun x hx => h.sound x (by simp [hx])⟩
  · rw [accepted_append, h.accepted_eq]
    simp [accepted, Line.all, hflight]
  · rw [delivered_append, h.delivered_eq]
    simp [delivered]
  · rw [polled_append]
    exact List.rel_append h.polled_reports (.cons hreports .nil)

def Tracked (m : Machine) (out : List Answer) : Prop :=
  ∃ p retired done held, Ledger m p out retired done held

theorem tracked_step {e : Event} {r : Machine × List Answer} (h : Tracked m out)
    (hr : m.step e = some r) : Tracked r.1 (out ++ r.2) := by
  obtain ⟨p, retired, done, held, h⟩ := h
  cases e with
  | queue e =>
    rw [Machine.step] at hr
    split_ifs at hr with he
    obtain ⟨x, hx, rfl⟩ := Option.map_eq_some_iff.mp hr
    obtain ⟨p', held', h'⟩ := h.queue he hx
    exact ⟨p', retired, done, held', h'⟩
  | deliver d =>
    rw [Machine.step, h.held_eq] at hr
    cases held with
    | nil => cases hr
    | cons r held =>
      simp only [List.map_cons] at hr
      split_ifs at hr with hd
      obtain rfl := Option.some.inj hr
      exact ⟨p, retired, done ++ [(r, d)], held, h.deliver hd⟩
  | poll =>
    rw [Machine.step] at hr
    cases hc : m.cqes with
    | nil =>
      rw [hc] at hr
      obtain rfl := Option.some.inj hr
      refine ⟨p, retired, done, held, h.sim, h.flight_eq, h.held_eq, h.cqes_eq, ?_, ?_, ?_, h.sound⟩
      · rw [accepted_append, h.accepted_eq]
        exact List.append_nil _
      · rw [delivered_append, h.delivered_eq]
        exact List.append_nil _
      · rw [polled_append]
        simpa [polled] using h.polled_reports
    | cons c cqes =>
      obtain ⟨x, p', retired', done', hparse, h'⟩ := h.poll hc
      simp only [hc, hparse, Option.map_some] at hr
      obtain rfl := Option.some.inj hr
      exact ⟨p', retired', done', held, h'⟩

/-- The completions that are there already do not matter to the application and the device, and
the device adds one at most. -/
theorem Machine.step_append {e : Event} {r : Machine × List Answer} (m : Machine) (cqes : List Cqe)
    (he : e ≠ .poll) (hr : { m with cqes := [] }.step e = some r) :
    { m with cqes := cqes }.step e = some ({ r.1 with cqes := cqes ++ r.1.cqes }, r.2) ∧
      r.1.qpn = m.qpn ∧ (r.1.cqes = [] ∨ ∃ d, r.1.cqes = [respCqe m.qpn d]) := by
  cases e with
  | poll => exact absurd rfl he
  | queue e =>
    simp only [Machine.step] at hr ⊢
    split_ifs at hr ⊢
    obtain ⟨x, hx, rfl⟩ := Option.map_eq_some_iff.mp hr
    exact ⟨by simp [hx], rfl, .inl rfl⟩
  | deliver d =>
    simp only [Machine.step] at hr ⊢
    cases hh : m.held with
    | nil =>
      rw [hh] at hr
      cases hr
    | cons sges held =>
      simp only [hh] at hr ⊢
      split_ifs at hr ⊢
      obtain rfl := Option.some.inj hr
      exact ⟨rfl, rfl, .inr ⟨d, rfl⟩⟩

theorem tracked_of_sim (hsim : Sim m.queue p) (hall : p.all = []) (hheld : m.held = [])
    (hcqes : m.cqes = []) : Tracked m [] := by
  have hflight : p.flight = [] := (List.append_eq_nil_iff.mp hall).1
  exact ⟨p, [], [], [], hsim, hflight, hheld, hcqes, by simp [accepted, hall], rfl, .nil, by simp⟩

theorem tracked_init {lim : Limits} {sig : Bool} {maxWr maxSge : ℕ} {rq : Rq}
    (h : calcRqSize lim sig maxWr maxSge = some rq) (hpos : 0 < maxWr)
    (hmax : lim.maxRecvWr ≤ 2 ^ 15) (gated : Bool) (qpn : UInt32) :
    Tracked (Machine.init rq gated sig qpn) [] :=
  tracked_of_sim (calcRqSize_sim h hpos hmax gated).2.2 rfl rfl rfl

/-- After a reset the queue is as good as new. -/
theorem tracked_reset (h : Tracked m out) : Tracked m.reset [] := by
  obtain ⟨p, retired, done, held, h⟩ := h
  have hagree := h.sim.modify .reset
  simp only [RecvQueue.Machine.step, Line.step, if_true] at hagree
  obtain ⟨p', hp', hsim⟩ := hagree.matched
  obtain ⟨rfl, -⟩ := Prod.mk.inj (Option.some.inj hp')
  exact tracked_of_sim hsim rfl rfl rfl

/-- What was polled are the first requests in the order of acceptance, as the device ended them. -/
theorem Ledger.polled_take (h : Ledger m p out retired done held) :
    (polled out).length + m.cqes.length = (delivered out).length ∧
      List.Forall₂ (Reports m.qpn) (polled out)
        (((accepted out).zip (delivered out)).take (polled out).length) := by
  have hlen := h.polled_reports.length_eq
  refine ⟨by simp [h.cqes_eq, h.delivered_eq, hlen], ?_⟩
  rw [hlen, h.accepted_eq, h.delivered_eq, List.zip_append (by simp), ← List.unzip_fst,
    ← List.unzip_snd, List.zip_unzip, List.take_left]
  exact h.polled_reports

end Tracking

end RdmaperfIso.Mlx5.RecvRing
