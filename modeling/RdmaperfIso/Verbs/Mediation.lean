import RdmaperfIso.Mlx5.PayloadBound
import RdmaperfIso.Mlx5.WrBuilder
import RdmaperfIso.Verbs.Charging

/-! All the ways in which a task can send: `ibv_post_send`, the `ibv_wr_*` calls, and the
`post_send` of the first version of the library. The payload that doorbells have been rung
for is compared with the byte tokens that were granted. -/
namespace RdmaperfIso.Mediation
open PostSend Mlx5 Run

variable {ι : Type*} [DecidableEq ι]

/-- The queue pairs of a task, and the burst size of `global_tb`, of which every bucket
gets a share. -/
structure Config (ι : Type*) where
  qp : ι → Qp
  buckets : ι → QpBuckets
  burstSize : ℕ
  burst_le : 16 ≤ burstSize
  burst_lt : burstSize < 2 ^ 64

/-- `consumed` are the byte tokens granted so far, and `rung` the payload of all entries
that a doorbell was rung for. -/
structure Sender (ι : Type*) where
  queue : ι → QpState
  consumed : ℕ
  rung : ℕ

/-- The calls that an application makes. `pollCq` stands for the completions that move the
tail of a queue; `waits` are the events of the two waits inside `ibv_post_send`. -/
inductive Event (ι : Type*) where
  | ibvPostSend (q : ι) (wrs : List SendWr) (waits : List PostSend.Event)
  | postSendWrapper10 (q : ι) (wrs : List SendWr)
  | wrStart (q : ι)
  | wrBuilder (q : ι) (flags : SendFlags) (op : WrOp)
  | wrSetter (q : ι) (setter : Setter)
  | wrComplete (q : ι)
  | wrAbort (q : ι)
  | pollCq (q : ι) (tail : UInt32)

namespace Sender

/-- A sender with open queues that has sent nothing. -/
def start (sq : ι → Sq) : Sender ι := ⟨fun q => ⟨sq q, none⟩, 0, 0⟩

def set (s : Sender ι) (q : ι) (state : QpState) : Sender ι :=
  { s with queue := Function.update s.queue q state }

def consume (s : Sender ι) (tokens : ℕ) : Sender ι := { s with consumed := s.consumed + tokens }

def ring (s : Sender ι) (wqes : List Wqe) : Sender ι := { s with rung := s.rung + payload wqes }

/-- The provider's `post_send`, which does not return while a session holds the lock. -/
def postSend (cfg : Config ι) (s : Sender ι) (q : ι) (wrs : List SendWr) : Option (Sender ι) :=
  if (s.queue q).session.isSome then none
  else (mlx5PostSend (cfg.qp q) (s.queue q).sq wrs).map fun p =>
    (s.set q ⟨p.sq, none⟩).ring p.rung

end Sender

/-- One call. `ibv_post_send` reaches the provider with what its waits were granted; the
compatibility wrapper copies the list and calls the provider at once. -/
def step (cfg : Config ι) (s : Sender ι) : Event ι → Option (Sender ι)
  | .ibvPostSend q wrs waits =>
    (run (PostSend.step Floating.binary64.round cfg.burstSize)
      (PostSend.start (PostSend.ibvPostSend .secondary (cfg.buckets q) wrs)) waits).bind fun t =>
    if t.posted = [wrs] then (s.consume (t.amounts .global).sum).postSend cfg q wrs else none
  | .postSendWrapper10 q wrs => s.postSend cfg q wrs
  | .wrStart q => (s.queue q).wrStart.map (s.set q)
  | .wrBuilder q flags op =>
    ((s.queue q).wrCall (builder (cfg.qp q) (s.queue q).sq flags op)).map (s.set q)
  | .wrSetter q setter => ((s.queue q).wrCall (setterCall (cfg.qp q) setter)).map (s.set q)
  | .wrComplete q => (s.queue q).wrComplete.map fun r => (s.set q r.1).ring r.2
  | .wrAbort q => (s.queue q).wrAbort.map (s.set q)
  | .pollCq q tail =>
    some (s.set q { s.queue q with sq := { (s.queue q).sq with tail := tail } })

section Accounting
variable {cfg : Config ι} {s s' : Sender ι}

omit [DecidableEq ι] in
@[simp] theorem rung_ring (wqes : List Wqe) : (s.ring wqes).rung = s.rung + payload wqes := rfl

omit [DecidableEq ι] in
@[simp] theorem consumed_ring (wqes : List Wqe) : (s.ring wqes).consumed = s.consumed := rfl

omit [DecidableEq ι] in
@[simp] theorem rung_consume (n : ℕ) : (s.consume n).rung = s.rung := rfl

omit [DecidableEq ι] in
@[simp] theorem consumed_consume (n : ℕ) : (s.consume n).consumed = s.consumed + n := rfl

@[simp] theorem rung_set (q : ι) (state : QpState) : (s.set q state).rung = s.rung := rfl

/-- What the provider rings for is in the list that it was given. -/
theorem postSend_rung_le {q : ι} {wrs : List SendWr} (hreg : Regular (cfg.qp q) wrs)
    (h : s.postSend cfg q wrs = some s') :
    s'.rung ≤ s.rung + totalBytes wrs ∧ s'.consumed = s.consumed := by
  unfold Sender.postSend at h
  split_ifs at h
  obtain ⟨p, hp, rfl⟩ := Option.map_eq_some_iff.mp h
  constructor
  · rw [rung_ring, rung_set]
    exact Nat.add_le_add_left (mlx5PostSend_payload_le hreg hp) _
  · rfl

omit [DecidableEq ι] in
/-- When a call gets through to the provider its size has been charged, if it fits the
counters of the wait. -/
theorem waits_amounts {q : ι} {wrs : List SendWr} {waits : List PostSend.Event} {t : Task}
    (hfit : Fits cfg.burstSize (totalBytes wrs))
    (hrun : run (PostSend.step Floating.binary64.round cfg.burstSize)
      (PostSend.start (PostSend.ibvPostSend .secondary (cfg.buckets q) wrs)) waits = some t)
    (hposted : t.posted = [wrs]) : (t.amounts .global).sum = totalBytes wrs := by
  have hdone : Completed cfg.burstSize (PostSend.ibvPostSend .secondary (cfg.buckets q) wrs) t := by
    constructor
    · exact ⟨waits, hrun⟩
    · rw [hposted]
      rfl
  rw [ibvPostSend_amounts cfg.burst_le cfg.burst_lt hdone]
  exact (sum_cut_sendSize_iff cfg.burst_le wrs).mpr hfit

/-- Payload goes through `ibv_post_send` only, in lists whose size is charged in full and
whose entries hold what is described. -/
def Mediated (cfg : Config ι) (s : Sender ι) : Event ι → Prop
  | .ibvPostSend q wrs _ => Fits cfg.burstSize (totalBytes wrs) ∧ Regular (cfg.qp q) wrs
  | .postSendWrapper10 q wrs => totalBytes wrs = 0 ∧ Regular (cfg.qp q) wrs
  | .wrComplete q => ∀ t ∈ (s.queue q).session, t.err = none → payload t.built = 0
  | _ => True

omit [DecidableEq ι] in
instance (cfg : Config ι) (s : Sender ι) : (e : Event ι) → Decidable (Mediated cfg s e)
  | .ibvPostSend _ _ _ => inferInstanceAs (Decidable (_ ∧ _))
  | .postSendWrapper10 _ _ => inferInstanceAs (Decidable (_ ∧ _))
  | .wrComplete q => inferInstanceAs (Decidable (∀ t ∈ (s.queue q).session, _))
  | .wrStart _ | .wrBuilder _ _ _ | .wrSetter _ _ | .wrAbort _ | .pollCq _ _ => isTrue trivial

theorem wrComplete_payload {q q' : QpState} {wqes : List Wqe}
    (hzero : ∀ t ∈ q.session, t.err = none → payload t.built = 0)
    (h : q.wrComplete = some (q', wqes)) : payload wqes = 0 := by
  simp only [QpState.wrComplete, Option.bind_eq_bind, Option.bind_eq_some_iff] at h
  obtain ⟨t, ht, h⟩ := h
  split_ifs at h with herr hopen
  · obtain ⟨-, rfl⟩ := Prod.mk.inj (Option.some.inj h)
    rfl
  · obtain ⟨-, rfl⟩ := Prod.mk.inj (Option.some.inj h)
    exact hzero t ht (by simpa using herr)

theorem step_paid (e : Event ι) (hs : s.rung ≤ s.consumed) (hc : Mediated cfg s e)
    (h : step cfg s e = some s') : s'.rung ≤ s'.consumed := by
  cases e with
  | ibvPostSend q wrs waits =>
    obtain ⟨hfit, hreg⟩ := hc
    obtain ⟨t, hrun, h⟩ := Option.bind_eq_some_iff.mp h
    split_ifs at h with hposted
    obtain ⟨hrung, hcons⟩ := postSend_rung_le hreg h
    have hpaid := waits_amounts hfit hrun hposted
    rw [rung_consume] at hrung
    rw [consumed_consume] at hcons
    omega
  | postSendWrapper10 q wrs =>
    obtain ⟨hrung, hcons⟩ := postSend_rung_le hc.2 h
    have hzero := hc.1
    omega
  | wrComplete q =>
    obtain ⟨r, hr, rfl⟩ := Option.map_eq_some_iff.mp h
    have hzero := wrComplete_payload hc hr
    rw [rung_ring, consumed_ring, hzero]
    exact hs
  | wrStart | wrBuilder | wrSetter | wrAbort =>
    obtain ⟨state, -, rfl⟩ := Option.map_eq_some_iff.mp h
    exact hs
  | pollCq q tail =>
    obtain rfl := Option.some.inj h
    exact hs

/-- In a run that sends payload through `ibv_post_send` only, the doorbells never get ahead
of the tokens. -/
theorem rung_le_consumed (cfg : Config ι) (sq : ι → Sq) (es : List (Event ι)) (s : Sender ι)
    (hm : Meets (step cfg) (Mediated cfg) (Sender.start sq) es)
    (hr : run (step cfg) (Sender.start sq) es = some s) : s.rung ≤ s.consumed := by
  apply run_invariant _ _ hm hr
  · intro s e s' hs hc h
    exact step_paid e hs hc h
  · exact le_rfl

/-- One queue pair at the last block of its queue, and the burst size of the monitor. -/
def oneQueue : Config Unit := ⟨fun _ => smallQp, fun _ => ⟨0, 0⟩, 8388608, by decide, by decide⟩

/-- Payload through `ibv_post_send` after a refusal, a session with an empty send, one with
payload that is given up, and an empty request through the wrapper. -/
def mediatedEvents : List (Event Unit) :=
  [.ibvPostSend () wrappingRequests
      [.enter, .consume true, .enter, .consume false, .consume true, .enter],
    .wrStart (), .wrBuilder () {} .send, .wrSetter () (.sge ⟨0, 0, 1⟩), .wrComplete (),
    .wrStart (), .wrBuilder () {} .send, .wrSetter () (.sge ⟨0, 4096, 1⟩), .wrAbort (),
    .pollCq () 34, .postSendWrapper10 () [oneSge 0]]

theorem rung_le_consumed_mediatedEvents :
    ∃ s, run (step oneQueue) (Sender.start fun _ => atLastBlock) mediatedEvents = some s ∧
      s.rung ≤ s.consumed ∧ s.rung = 630 ∧ s.consumed = 630 := by
  have hany : (run (step oneQueue) (Sender.start fun _ => atLastBlock) mediatedEvents).any
      fun s => s.rung = 630 ∧ s.consumed = 630 := by
    decide +kernel
  obtain ⟨s, hrun, hs⟩ := (Option.any_eq_true _ _).mp hany
  obtain ⟨hrung, hconsumed⟩ := of_decide_eq_true hs
  have hmeets : Meets (step oneQueue) (Mediated oneQueue) (Sender.start fun _ => atLastBlock)
      mediatedEvents := by
    decide +kernel
  exact ⟨s, hrun, rung_le_consumed oneQueue _ _ s hmeets hrun, hrung, hconsumed⟩

/-- One byte sent by the `ibv_wr_*` calls, and one by the compatibility wrapper, for which
no token was taken. -/
theorem unmediated_sends :
    (∃ s, run (step oneQueue) (Sender.start fun _ => atLastBlock)
        [.wrStart (), .wrBuilder () {} .send, .wrSetter () (.sge ⟨0, 1, 1⟩), .wrComplete ()] =
          some s ∧ s.consumed = 0 ∧ s.rung = 1) ∧
      ∃ s, run (step oneQueue) (Sender.start fun _ => atLastBlock)
        [.postSendWrapper10 () [oneSge 1]] = some s ∧ s.consumed = 0 ∧ s.rung = 1 := by
  have hwr : (run (step oneQueue) (Sender.start fun _ => atLastBlock)
      [.wrStart (), .wrBuilder () {} .send, .wrSetter () (.sge ⟨0, 1, 1⟩), .wrComplete ()]).any
        fun s => s.consumed = 0 ∧ s.rung = 1 := by
    decide +kernel
  have hcompat : (run (step oneQueue) (Sender.start fun _ => atLastBlock)
      [.postSendWrapper10 () [oneSge 1]]).any fun s => s.consumed = 0 ∧ s.rung = 1 := by
    decide +kernel
  constructor
  · obtain ⟨s, hrun, hs⟩ := (Option.any_eq_true _ _).mp hwr
    exact ⟨s, hrun, of_decide_eq_true hs⟩
  · obtain ⟨s, hrun, hs⟩ := (Option.any_eq_true _ _).mp hcompat
    exact ⟨s, hrun, of_decide_eq_true hs⟩

end Accounting
end RdmaperfIso.Mediation
