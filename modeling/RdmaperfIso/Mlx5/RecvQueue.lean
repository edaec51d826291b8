import Mathlib.Data.UInt
import RdmaperfIso.Lib.BlockRing
import RdmaperfIso.Lib.Reactive
import RdmaperfIso.Mlx5.CompletionQueue
import RdmaperfIso.Mlx5.Srq

/-! The receive queue of a queue pair. Requests are written into a ring, and the device learns of
them from a doorbell record of sixteen bits. For a raw packet queue pair the record waits until
the pair is ready to receive. What the queue is for is a line that hides the requests which were
not announced. -/
namespace RdmaperfIso.Mlx5.RecvQueue
open FixedWidth Reactive BlockRing Srq

inductive QpState where
  | reset | init | rtr | rts | sqd | sqe | err
  deriving DecidableEq, Repr

/-- The negation of `state < IBV_QPS_RTR`. -/
def QpState.canReceive (s : QpState) : Bool := s ≠ .reset && s ≠ .init

structure Rq where
  scat : ℕ → ℕ → Sge
  wrid : ℕ → UInt64
  wqeCnt : UInt32
  maxPost : UInt32
  maxGs : ℕ
  head : UInt32
  tail : UInt32
  db : UInt32

namespace Rq

def idx (rq : Rq) (n : UInt32) : UInt32 := n &&& (rq.wqeCnt - 1)

/-- `mlx5_wq_overflow`, which reads the counters only. -/
def overflow (rq : Rq) (nreq : ℕ) : Bool := wqOverflow rq.maxPost ⟨rq.head, rq.tail, 0, .none⟩ nreq

/-- The entries of a request that are written: those with a length. -/
def dataSges (wr : RecvWr) : List Sge := wr.sges.filter fun s => s.length ≠ 0

def fill (rq : Rq) (ind : UInt32) (wr : RecvWr) : Rq :=
  { rq with
    wrid := Function.update rq.wrid ind.toNat wr.wrId
    scat := Function.update rq.scat ind.toNat
      (writeScat rq.maxGs (dataSges wr) (rq.scat ind.toNat)) }

/-- The loop of `mlx5_post_recv`. -/
def postLoop : Rq → (ind : UInt32) → (nreq : ℕ) → List RecvWr → Rq × Receipt
  | rq, _, nreq, [] => (rq, ⟨nreq, none⟩)
  | rq, ind, nreq, wr :: wrs =>
    if rq.overflow nreq then (rq, ⟨nreq, some .enomem⟩)
    else if (rq.maxGs : ℤ) < wr.numSge then (rq, ⟨nreq, some .einval⟩)
    else postLoop (rq.fill ind wr) (rq.idx (ind + 1)) (nreq + 1) wrs

def ring (rq : Rq) : Rq := { rq with db := rq.head &&& 0xffff }

/-- `mlx5_post_recv`. The doorbell of a gated queue waits for the state. -/
def postRecv (gated : Bool) (state : QpState) (rq : Rq) (wrs : List RecvWr) : Rq × Receipt :=
  let (rq, receipt) := postLoop rq (rq.idx rq.head) 0 wrs
  if receipt.nreq = 0 then (rq, receipt)
  else
    let rq := { rq with head := rq.head + UInt32.ofNat receipt.nreq }
    (if gated && !state.canReceive then rq else rq.ring, receipt)

/-- What `mlx5_modify_qp` does to the queue when the kernel has accepted the state. -/
def modifyQp (gated : Bool) (rq : Rq) : QpState → Rq
  | .reset => { rq with head := 0, tail := 0, db := 0 }
  | .rtr => if gated then rq.ring else rq
  | _ => rq

/-- The request that a responder completion is for, as `handle_responder` finds it. -/
def retire (rq : Rq) : UInt64 × Rq :=
  (rq.wrid (rq.idx rq.tail).toNat, { rq with tail := rq.tail + 1 })

/-- The request that the device and the application find in an entry. -/
def content (rq : Rq) (i : ℕ) : Recv := ⟨rq.wrid i, scatterList rq.maxGs (rq.scat i)⟩

end Rq

/-- `mlx5_calc_rcv_wqe`, in 32 bits. A size that wraps to zero has no logarithm. -/
def calcRcvWqe (lim : Limits) (sig : Bool) (maxSge : ℕ) : Option ℕ :=
  let size := wrap 32 (16 * max maxSge 1 + if sig then 16 else 0)
  if lim.maxRqDescSz < size ∨ size = 0 then none else some (roundupPowOfTwo size)

/-- `mlx5_calc_rq_size`, for a queue pair with a receive queue of its own. The product is taken
in signed arithmetic. -/
def calcRqSize (lim : Limits) (sig : Bool) (maxWr maxSge : ℕ) : Option Rq :=
  if lim.maxRecvWr < maxWr then none
  else do
    let wqeSize ← calcRcvWqe lim sig maxSge
    let wqSize := max (roundupPowOfTwo maxWr * wqeSize) 64
    if lim.maxRqDescSz < wqeSize ∨ 2 ^ 31 ≤ wqSize then none
    else
      some
        { scat := fun _ _ => ⟨0, 0, 0⟩
          wrid := fun _ => 0
          wqeCnt := UInt32.ofNat (wqSize / wqeSize)
          maxPost := UInt32.ofNat (roundupPowOfTwo (wqSize / wqeSize))
          maxGs := (wqeSize - if sig then 16 else 0) / 16
          head := 0
          tail := 0
          db := 0 }

/-- What the application and the device do, in any order. A change of the state is seen by the
provider first, and kept by the library after that. -/
inductive Event where
  | post (wrs : List RecvWr)
  | modify (state : QpState)
  | keep (state : QpState)
  | take
  | complete

inductive Answer where
  | posted (wrIds : List UInt64) (err : Option Errno)
  | taken (sges : List Sge)
  | completed (wrId : UInt64)
  deriving DecidableEq, Repr

def posting (wrs : List RecvWr) (receipt : Receipt) : Answer :=
  .posted ((wrs.take receipt.nreq).map RecvWr.wrId) receipt.err

/-- The device counts the entries that it took, and works on the last ones of them. -/
structure Machine where
  rq : Rq
  gated : Bool
  state : QpState
  taken : UInt16
  busy : ℕ

/-- The device takes entries up to the doorbell record, and completes them in order. A reset
makes it forget all entries. -/
def Machine.step (m : Machine) : Event → Option (Machine × List Answer)
  | .post wrs =>
    let r := Rq.postRecv m.gated m.state m.rq wrs
    some ({ m with rq := r.1 }, [posting wrs r.2])
  | .modify state =>
    let m := { m with rq := m.rq.modifyQp m.gated state }
    some (if state = .reset then { m with taken := 0, busy := 0 } else m, [])
  | .keep state => some ({ m with state := state }, [])
  | .take =>
    if m.taken = m.rq.db.toUInt16 then none
    else
      some ({ m with taken := m.taken + 1, busy := m.busy + 1 },
        [.taken (m.rq.content (m.rq.idx m.taken.toUInt32).toNat).sges])
  | .complete =>
    if m.busy = 0 then none
    else
      some ({ m with rq := m.rq.retire.2, busy := m.busy - 1 }, [.completed m.rq.retire.1])

def Machine.init (rq : Rq) (gated : Bool) : Machine := ⟨rq, gated, .reset, 0, 0⟩

/-- Requests in the hands of the device, those that wait for it, and those that it does not know
of. -/
structure Line where
  cap : ℕ
  maxGs : ℕ
  gated : Bool
  state : QpState
  flight : List Recv
  waiting : List Recv
  hidden : List Recv

namespace Line

def all (p : Line) : List Recv := p.flight ++ (p.waiting ++ p.hidden)

def post (p : Line) : ℕ → List RecvWr → Line × Receipt
  | nreq, [] => (p, ⟨nreq, none⟩)
  | nreq, wr :: wrs =>
    if p.cap ≤ p.all.length then (p, ⟨nreq, some .enomem⟩)
    else if (p.maxGs : ℤ) < wr.numSge then (p, ⟨nreq, some .einval⟩)
    else
      post { p with hidden := p.hidden ++ [⟨wr.wrId, validSges (Rq.dataSges wr)⟩] } (nreq + 1) wrs

def announce (p : Line) : Line := { p with waiting := p.waiting ++ p.hidden, hidden := [] }

/-- A gated line announces requests when it becomes ready to receive, and from then on as every
other line does when one is posted. -/
def step (p : Line) : Event → Option (Line × List Answer)
  | .post wrs =>
    let r := p.post 0 wrs
    some (if r.2.nreq = 0 ∨ (p.gated ∧ ¬p.state.canReceive) then r.1 else r.1.announce,
      [posting wrs r.2])
  | .modify .reset => some ({ p with flight := [], waiting := [], hidden := [] }, [])
  | .modify .rtr => some (if p.gated then p.announce else p, [])
  | .modify _ => some (p, [])
  | .keep state => some ({ p with state := state }, [])
  | .take =>
    match p.waiting with
    | [] => none
    | r :: waiting =>
      some ({ p with flight := p.flight ++ [r], waiting := waiting }, [.taken r.sges])
  | .complete =>
    match p.flight with
    | [] => none
    | r :: flight => some ({ p with flight := flight }, [.completed r.wrId])

def init (cap maxGs : ℕ) (gated : Bool) : Line := ⟨cap, maxGs, gated, .reset, [], [], []⟩

end Line

section Simulation
variable {rq : Rq} {m : Machine} {p : Line} {n : ℕ} {xs ys : List Recv}

theorem total_one (xs : List Recv) : total (fun _ => 1) xs = xs.length := by simp [total]

/-- Every request is in the slot of its position, as it was posted. -/
abbrev Lies (size : ℕ) (rq : Rq) (n : ℕ) (xs : List Recv) : Prop :=
  Placed size (fun _ => 1) (fun c _ _ r => c = r) rq.content n n xs

theorem Rq.fill_content {wr : RecvWr} (hgs : wr.numSge ≤ rq.maxGs) (ind : UInt32) :
    (rq.fill ind wr).content =
      Function.update rq.content ind.toNat ⟨wr.wrId, validSges (dataSges wr)⟩ := by
  have hlen : (dataSges wr).length ≤ rq.maxGs := by
    have hle := List.length_filter_le (fun s : Sge => decide (s.length ≠ 0)) wr.sges
    rw [wr.length_sges] at hle
    exact hle.trans (by omega)
  funext i
  simp only [content, fill, Function.update_apply]
  split_ifs with hi
  · rw [scatterList_writeScat hlen]
  · rfl

/-- The ring and its counters hold the line, with the tail at a position. -/
structure Mirror (rq : Rq) (n : ℕ) (p : Line) : Prop where
  cap_eq : ∃ k ≤ 15, p.cap = 2 ^ k
  cnt_eq : rq.wqeCnt = UInt32.ofNat p.cap
  maxPost_eq : rq.maxPost = UInt32.ofNat p.cap
  maxGs_eq : rq.maxGs = p.maxGs
  tail_eq : rq.tail = UInt32.ofNat n
  lies : Lies p.cap rq n p.all
  length_le : p.all.length ≤ p.cap

namespace Mirror

theorem cap_le (h : Mirror rq n p) : 0 < p.cap ∧ p.cap ≤ 2 ^ 15 := by
  obtain ⟨k, hk, hcap⟩ := h.cap_eq
  rw [hcap]
  exact ⟨Nat.two_pow_pos k, Nat.pow_le_pow_right (by norm_num) hk⟩

theorem idx_ofNat (h : Mirror rq n p) (i : ℕ) : (rq.idx (UInt32.ofNat i)).toNat = i % p.cap := by
  obtain ⟨hpos, hle⟩ := h.cap_le
  obtain ⟨k, hk, hcap⟩ := h.cap_eq
  have hmask : rq.wqeCnt - 1 = UInt32.ofNat (2 ^ k - 1) := by
    rw [h.cnt_eq, ← hcap, ← Nat.sub_add_cancel hpos, ofNat_succ, UInt32.add_sub_cancel,
      Nat.add_sub_cancel]
  rw [Rq.idx, hmask, and_sub_one_toNat (by omega), hcap]

/-- The overflow check counts all requests that were not retired. -/
theorem overflow_iff (h : Mirror rq n p) {nreq : ℕ} (hnreq : nreq ≤ p.all.length)
    (hhead : rq.head = UInt32.ofNat (n + (p.all.length - nreq))) :
    rq.overflow nreq = true ↔ p.cap ≤ p.all.length := by
  have hcap := h.cap_le.2
  have hlen := h.length_le
  have hsum : p.all.length - nreq + nreq = p.all.length := by omega
  rw [Rq.overflow, wqOverflow, decide_eq_true_iff, h.maxPost_eq, h.tail_eq, hhead,
    UInt32.ofNat_add, UInt32.add_comm (UInt32.ofNat n), UInt32.add_sub_cancel,
    ← UInt32.ofNat_add, hsum, UInt32.le_iff_toNat_le, UInt32.toNat_ofNat', UInt32.toNat_ofNat',
    Nat.mod_eq_of_lt (by omega), Nat.mod_eq_of_lt (by omega)]

/-- A request is written behind the others. -/
theorem fill {wr : RecvWr} (h : Mirror rq n p) (hgs : wr.numSge ≤ rq.maxGs)
    (hroom : p.all.length < p.cap) {ind : UInt32}
    (hind : ind.toNat = (n + p.all.length) % p.cap) :
    Mirror (rq.fill ind wr) n
      { p with hidden := p.hidden ++ [⟨wr.wrId, validSges (Rq.dataSges wr)⟩] } := by
  have hall : Line.all { p with hidden := p.hidden ++ [⟨wr.wrId, validSges (Rq.dataSges wr)⟩] } =
      p.all ++ [⟨wr.wrId, validSges (Rq.dataSges wr)⟩] := by simp [Line.all]
  refine ⟨h.cap_eq, h.cnt_eq, h.maxPost_eq, h.maxGs_eq, h.tail_eq, ?_, ?_⟩
  · rw [hall, Lies, Rq.fill_content hgs, hind]
    have hpush := h.lies.push (c := ⟨wr.wrId, validSges (Rq.dataSges wr)⟩)
      (x := ⟨wr.wrId, validSges (Rq.dataSges wr)⟩) (fun _ _ => Nat.one_pos)
      (by rwa [total_one]) rfl
    rwa [total_one] at hpush
  · rw [hall, List.length_append]
    exact hroom

end Mirror

/-- The loop over the requests is the one of the line. -/
theorem postLoop_mirror (wrs : List RecvWr) {nreq : ℕ} {ind : UInt32} (h : Mirror rq n p)
    (hnreq : nreq ≤ p.all.length)
    (hhead : rq.head = UInt32.ofNat (n + (p.all.length - nreq)))
    (hind : ind = rq.idx (UInt32.ofNat (n + p.all.length))) :
    (rq.postLoop ind nreq wrs).2 = (p.post nreq wrs).2 ∧
      Mirror (rq.postLoop ind nreq wrs).1 n (p.post nreq wrs).1 ∧
      (p.post nreq wrs).1.all.length + nreq = p.all.length + (p.post nreq wrs).2.nreq ∧
      (rq.postLoop ind nreq wrs).1.head = rq.head ∧ (rq.postLoop ind nreq wrs).1.db = rq.db := by
  induction wrs generalizing rq p nreq ind with
  | nil => exact ⟨rfl, h, rfl, rfl, rfl⟩
  | cons wr wrs ih =>
    rw [Rq.postLoop, Line.post]
    simp only [h.overflow_iff hnreq hhead, h.maxGs_eq]
    split_ifs with hfull hgs
    · exact ⟨rfl, h, rfl, rfl, rfl⟩
    · exact ⟨rfl, h, rfl, rfl, rfl⟩
    · have hindN : ind.toNat = (n + p.all.length) % p.cap := by rw [hind, h.idx_ofNat]
      have hnext : (rq.idx (ind + 1)).toNat = (n + (p.all.length + 1)) % p.cap := by
        rw [← UInt32.ofNat_toNat (x := ind), ← ofNat_succ, h.idx_ofNat, hindN, Nat.mod_add_mod,
          add_assoc]
      have hfill := h.fill (h.maxGs_eq ▸ not_lt.mp hgs) (not_le.mp hfull) hindN
      have hall : (Line.all { p with
          hidden := p.hidden ++ [⟨wr.wrId, validSges (Rq.dataSges wr)⟩] }).length =
            p.all.length + 1 := by
        simp only [Line.all, List.length_append, List.length_singleton, add_assoc]
      have hhead' : (rq.fill ind wr).head = UInt32.ofNat (n + (p.all.length + 1 - (nreq + 1))) := by
        rw [Nat.add_sub_add_right]
        exact hhead
      have hind' : rq.idx (ind + 1) =
          (rq.fill ind wr).idx (UInt32.ofNat (n + (p.all.length + 1))) := by
        rw [← UInt32.toNat_inj, hnext, hfill.idx_ofNat]
      rw [← hall] at hhead' hind'
      obtain ⟨hreceipt, hm, hcount, hh, hdb⟩ := ih hfill (by omega) hhead' hind'
      exact ⟨hreceipt, hm, by omega, hh, hdb⟩

/-- The other fields of the queue, and which part of the line a request is in, do not matter. -/
theorem Mirror.regroup {q : Line} (h : Mirror rq n p) (hcap : q.cap = p.cap)
    (hgs : q.maxGs = p.maxGs) (hall : q.all = p.all) (head db : UInt32) :
    Mirror { rq with head := head, db := db } n q := by
  refine ⟨?_, ?_, ?_, ?_, h.tail_eq, ?_, ?_⟩
  · rw [hcap]
    exact h.cap_eq
  · rw [hcap]
    exact h.cnt_eq
  · rw [hcap]
    exact h.maxPost_eq
  · rw [hgs]
    exact h.maxGs_eq
  · rw [hcap, hall]
    exact h.lies
  · rw [hcap, hall]
    exact h.length_le

/-- The device counts in sixteen bits, which is enough to find the slot. -/
theorem Mirror.idx_toUInt32 (h : Mirror rq n p) (i : ℕ) :
    (rq.idx (UInt16.ofNat i).toUInt32).toNat = i % p.cap := by
  obtain ⟨k, hk, hcap⟩ := h.cap_eq
  have hdvd : 2 ^ k ∣ 2 ^ 16 := Nat.pow_dvd_pow 2 (by omega)
  rw [← UInt32.ofNat_toNat (x := (UInt16.ofNat i).toUInt32), h.idx_ofNat, UInt16.toNat_toUInt32,
    UInt16.toNat_ofNat', hcap, Nat.mod_mod_of_dvd _ hdvd]

/-- The oldest request is at the tail. -/
theorem Mirror.content_tail {r : Recv} {flight : List Recv} (h : Mirror rq n p)
    (hflight : p.flight = r :: flight) : rq.content (rq.idx rq.tail).toNat = r := by
  have hlies := h.lies
  rw [Lies, Line.all, hflight, List.cons_append] at hlies
  rw [h.tail_eq, h.idx_ofNat]
  exact hlies.1

theorem Mirror.retire {r : Recv} {flight : List Recv} (h : Mirror rq n p)
    (hflight : p.flight = r :: flight) :
    rq.retire.1 = r.wrId ∧ Mirror rq.retire.2 (n + 1) { p with flight := flight } := by
  have hall : p.all = r :: Line.all { p with flight := flight } := by
    simp [Line.all, hflight]
  have hlies := h.lies
  have hlen := h.length_le
  rw [hall] at hlies hlen
  refine ⟨?_, h.cap_eq, h.cnt_eq, h.maxPost_eq, h.maxGs_eq, ?_, hlies.2,
    Nat.le_of_succ_le hlen⟩
  · rw [← h.content_tail hflight]
    rfl
  · rw [ofNat_succ, ← h.tail_eq]
    rfl

theorem toUInt16_mask (i : ℕ) : (UInt32.ofNat i &&& 0xffff).toUInt16 = UInt16.ofNat i := by
  rw [← UInt16.toNat_inj, UInt32.toNat_toUInt16, UInt16.toNat_ofNat',
    show (0xffff : UInt32) = UInt32.ofNat (2 ^ 16 - 1) from rfl, and_sub_one_toNat (by norm_num),
    Nat.mod_mod]

/-- The queue holds the line, the doorbell record announces the requests that wait, and the
device has counted those that it took. -/
structure Sim (m : Machine) (p : Line) : Prop where
  mirror : ∃ n, Mirror m.rq n p ∧ m.rq.head = UInt32.ofNat (n + p.all.length) ∧
    m.rq.db.toUInt16 = UInt16.ofNat (n + (p.flight ++ p.waiting).length) ∧
    m.taken = UInt16.ofNat (n + p.flight.length)
  gated_eq : m.gated = p.gated
  state_eq : m.state = p.state
  busy_eq : m.busy = p.flight.length

theorem Line.all_announce (p : Line) : p.announce.all = p.all := by
  simp [Line.all, Line.announce]

theorem Line.post_fst (p : Line) (nreq : ℕ) (wrs : List RecvWr) :
    ∃ hidden, (p.post nreq wrs).1 = { p with hidden := hidden } := by
  induction wrs generalizing p nreq with
  | nil => exact ⟨p.hidden, rfl⟩
  | cons wr wrs ih =>
    rw [Line.post]
    split_ifs
    · exact ⟨p.hidden, rfl⟩
    · exact ⟨p.hidden, rfl⟩
    · exact ih _ _

/-- Ringing the doorbell announces every request. -/
theorem Sim.ring (h : Sim m p) : Sim { m with rq := m.rq.ring } p.announce := by
  obtain ⟨⟨n, hm, hhead, -, htaken⟩, hgated, hstate, hbusy⟩ := h
  refine ⟨⟨n, hm.regroup (q := p.announce) rfl rfl p.all_announce _ _, ?_, ?_, htaken⟩, hgated,
    hstate, hbusy⟩
  · rw [p.all_announce]
    exact hhead
  · show (m.rq.head &&& 0xffff).toUInt16 = _
    rw [hhead, toUInt16_mask, Line.all, Line.announce]

theorem Sim.post (h : Sim m p) (wrs : List RecvWr) :
    Agree Sim (m.step (.post wrs)) (p.step (.post wrs)) := by
  obtain ⟨⟨n, hm, hhead, hdb, htaken⟩, hgated, hstate, hbusy⟩ := h
  obtain ⟨hreceipt, hm', hcount, hhead', hdb'⟩ := postLoop_mirror wrs hm
    (Nat.zero_le (p.all.length)) (by rw [hhead, Nat.sub_zero]) (by rw [← hhead])
  obtain ⟨hidden, hpost⟩ := p.post_fst 0 wrs
  simp only [Machine.step, Rq.postRecv, Line.step, hreceipt]
  generalize m.rq.postLoop (m.rq.idx m.rq.head) 0 wrs = r, p.post 0 wrs = r' at *
  obtain ⟨rq, receipt⟩ := r
  obtain ⟨p', receipt'⟩ := r'
  simp only at hm' hcount hhead' hdb' hpost
  have hloop (head : UInt32) (hh : head = UInt32.ofNat (n + p'.all.length)) :
      Sim { m with rq := { rq with head := head } } p' := by
    refine ⟨⟨n, hm'.regroup rfl rfl rfl _ _, hh, ?_, ?_⟩, ?_, ?_, ?_⟩ <;> subst hpost
    · rw [← hdb]
      exact congrArg _ hdb'
    · exact htaken
    · exact hgated
    · exact hstate
    · exact hbusy
  by_cases hnone : receipt'.nreq = 0
  · rw [if_pos hnone, if_pos (.inl hnone)]
    refine .some ⟨hloop rq.head ?_, rfl⟩
    rw [hhead', hhead]
    congr 2
    omega
  · have hsim := hloop (rq.head + UInt32.ofNat receipt'.nreq) (by
      rw [hhead', hhead, ← UInt32.ofNat_add, add_assoc, ← hcount, add_zero])
    rw [if_neg hnone, ← hgated, ← hstate]
    by_cases hwait : m.gated = true ∧ ¬m.state.canReceive = true
    · rw [if_pos (by simpa using hwait), if_pos (.inr hwait)]
      exact .some ⟨hsim, rfl⟩
    · rw [if_neg (by simpa using hwait), if_neg (not_or.mpr ⟨hnone, hwait⟩)]
      exact .some ⟨hsim.ring, rfl⟩

theorem Sim.modify (h : Sim m p) (state : QpState) :
    Agree Sim (m.step (.modify state)) (p.step (.modify state)) := by
  cases state with
  | reset =>
    obtain ⟨⟨n, hm, -, -, -⟩, hgated, hstate, -⟩ := h
    refine .some ⟨⟨⟨0, ⟨hm.cap_eq, hm.cnt_eq, hm.maxPost_eq, hm.maxGs_eq, rfl, trivial, ?_⟩,
      rfl, rfl, rfl⟩, hgated, hstate, rfl⟩, rfl⟩
    exact Nat.zero_le _
  | rtr =>
    simp only [Machine.step, Rq.modifyQp, Line.step, ← h.gated_eq, reduceCtorEq, if_false]
    split_ifs
    · exact .some ⟨h.ring, rfl⟩
    · exact .some ⟨h, rfl⟩
  | init | rts | sqd | sqe | err => exact .some ⟨h, rfl⟩

theorem Sim.take (h : Sim m p) : Agree Sim (m.step .take) (p.step .take) := by
  obtain ⟨⟨n, hm, hhead, hdb, htaken⟩, hgated, hstate, hbusy⟩ := h
  obtain ⟨hpos, hcap⟩ := hm.cap_le
  have hlen := hm.length_le
  have hlies := hm.lies
  simp only [Machine.step, Line.step]
  cases hw : p.waiting with
  | nil =>
    rw [hw, List.append_nil, ← htaken] at hdb
    rw [if_pos hdb.symm]
    exact .none
  | cons r waiting =>
    let q : Line := { p with flight := p.flight ++ [r], waiting := waiting }
    have hall : q.all = p.all := by simp [q, Line.all, hw]
    simp only [Line.all, hw, List.length_append, List.length_cons] at hlen
    have hne : m.taken ≠ m.rq.db.toUInt16 := by
      rw [hdb, htaken, List.length_append, ← add_assoc, UInt16.ofNat_add (n + _), ne_eq,
        UInt16.left_eq_add, UInt16.ofNat_eq_iff_mod_eq_toNat, hw, List.length_cons,
        Nat.mod_eq_of_lt (by omega)]
      simp
    have hr : m.rq.content ((n + p.flight.length) % p.cap) = r := by
      rw [Lies, Line.all, placed_append, total_one, hw] at hlies
      exact hlies.2.1
    rw [if_neg hne, htaken, hm.idx_toUInt32, hr]
    refine .some ⟨⟨⟨n, hm.regroup (q := q) rfl rfl hall _ _, ?_, ?_, ?_⟩, hgated, hstate, ?_⟩, rfl⟩
    · exact hall ▸ hhead
    · rw [hw] at hdb
      simpa using hdb
    · show UInt16.ofNat _ + 1 = _
      rw [List.length_append, ← add_assoc, UInt16.ofNat_add (n + _)]
      rfl
    · show m.busy + 1 = _
      rw [hbusy, List.length_append, List.length_singleton]

theorem Sim.complete (h : Sim m p) : Agree Sim (m.step .complete) (p.step .complete) := by
  obtain ⟨⟨n, hm, hhead, hdb, htaken⟩, hgated, hstate, hbusy⟩ := h
  simp only [Machine.step, Line.step]
  cases hf : p.flight with
  | nil =>
    rw [if_pos (by rw [hbusy, hf, List.length_nil])]
    exact .none
  | cons r flight =>
    obtain ⟨hid, hm'⟩ := hm.retire hf
    rw [if_neg (by rw [hbusy, hf]; simp), hid]
    have hcount (xs : List Recv) : n + (r :: xs).length = n + 1 + xs.length := by
      rw [List.length_cons]
      omega
    simp only [Line.all, hf, List.cons_append, hcount] at hhead hdb htaken
    refine .some ⟨⟨⟨n + 1, hm', hhead, hdb, htaken⟩, hgated, hstate, ?_⟩, rfl⟩
    show m.busy - 1 = _
    rw [hbusy, hf, List.length_cons, Nat.add_sub_cancel]

theorem Sim.step (h : Sim m p) (e : Event) : Agree Sim (m.step e) (p.step e) := by
  cases e with
  | post wrs => exact h.post wrs
  | modify state => exact h.modify state
  | keep state =>
    obtain ⟨n, hm, hcounters⟩ := h.mirror
    let q : Line := { p with state := state }
    exact .some ⟨⟨⟨n, hm.regroup (q := q) rfl rfl rfl _ _, hcounters⟩, h.gated_eq, rfl,
      h.busy_eq⟩, rfl⟩
  | take => exact h.take
  | complete => exact h.complete

end Simulation

section Creation
variable {lim : Limits} {sig : Bool} {maxWr maxSge wqeSize : ℕ} {rq : Rq}

theorem calcRcvWqe_eq (h : calcRcvWqe lim sig maxSge = some wqeSize) :
    (∃ a, wqeSize = 2 ^ a) ∧
      (maxSge < 2 ^ 28 - 1 → 16 * maxSge + (if sig then 16 else 0) ≤ wqeSize) := by
  have hpad : (if sig then 16 else 0) ≤ 16 := by split_ifs <;> omega
  simp only [calcRcvWqe] at h
  generalize (if sig then 16 else 0) = pad at *
  split_ifs at h with hsize
  obtain rfl := Option.some.inj h
  refine ⟨roundupPowOfTwo_eq _, fun hsge => le_trans ?_ (le_roundupPowOfTwo (by omega))⟩
  rw [wrap, Nat.mod_eq_of_lt (by omega)]
  omega

/-- The number of entries is a power of two that has room for the requests. -/
theorem wqeCnt_eq (a : ℕ) (hpos : 0 < maxWr) (hwr : maxWr ≤ 2 ^ 15) :
    ∃ k ≤ 15, max (roundupPowOfTwo maxWr * 2 ^ a) 64 / 2 ^ a = 2 ^ k ∧ maxWr ≤ 2 ^ k := by
  obtain ⟨b, hb⟩ := roundupPowOfTwo_eq maxWr
  have hle := roundupPowOfTwo_le hpos hwr
  have hge := le_roundupPowOfTwo hpos
  rw [hb] at hle hge ⊢
  have hb15 : b ≤ 15 := (Nat.pow_le_pow_iff_right (by norm_num)).mp hle
  have hpow : 2 ^ b * 2 ^ a = 2 ^ (b + a) := (pow_add 2 b a).symm
  rw [hpow, show (64 : ℕ) = 2 ^ 6 from rfl]
  rcases Nat.lt_or_ge (b + a) 6 with hlt | hge6
  · have hmax : 2 ^ (b + a) ≤ 2 ^ 6 := Nat.pow_le_pow_right (by norm_num) hlt.le
    refine ⟨6 - a, by omega, ?_, hge.trans (Nat.pow_le_pow_right (by norm_num) (by omega))⟩
    rw [max_eq_right hmax]
    exact Nat.pow_div (by omega) (by norm_num)
  · have hmax : 2 ^ 6 ≤ 2 ^ (b + a) := Nat.pow_le_pow_right (by norm_num) hge6
    refine ⟨b, hb15, ?_, hge⟩
    rw [max_eq_left hmax, ← hpow, Nat.mul_div_cancel _ (Nat.two_pow_pos a)]

theorem calcRqSize_sim (h : calcRqSize lim sig maxWr maxSge = some rq) (hpos : 0 < maxWr)
    (hmax : lim.maxRecvWr ≤ 2 ^ 15) (gated : Bool) :
    maxWr ≤ rq.wqeCnt.toNat ∧ (maxSge < 2 ^ 28 - 1 → maxSge ≤ rq.maxGs) ∧
      Sim (Machine.init rq gated) (Line.init rq.wqeCnt.toNat rq.maxGs gated) := by
  unfold calcRqSize at h
  split at h
  · cases h
  next hwr =>
    obtain ⟨wqeSize, hwqe, h⟩ := Option.bind_eq_some_iff.mp h
    obtain ⟨⟨a, rfl⟩, hsge⟩ := calcRcvWqe_eq hwqe
    obtain ⟨k, hk, hcnt, hle⟩ := wqeCnt_eq a hpos (by omega)
    have hk15 : 2 ^ k ≤ 2 ^ 15 := Nat.pow_le_pow_right (by norm_num) hk
    have hround : roundupPowOfTwo (2 ^ k) = 2 ^ k :=
      le_antisymm (roundupPowOfTwo_le (Nat.two_pow_pos k) le_rfl)
        (le_roundupPowOfTwo (Nat.two_pow_pos k))
    have htoNat : (UInt32.ofNat (2 ^ k)).toNat = 2 ^ k := by
      rw [UInt32.toNat_ofNat', Nat.mod_eq_of_lt (by omega)]
    simp only [hcnt, hround] at h
    split at h
    · cases h
    · obtain rfl := Option.some.inj h
      dsimp only
      rw [htoNat]
      refine ⟨hle, fun hs => ?_, ⟨0, ⟨⟨k, hk, rfl⟩, rfl, rfl, rfl, rfl, trivial, ?_⟩, rfl, rfl,
        rfl⟩, rfl, rfl, rfl⟩
      · have hbytes := hsge hs
        rw [Nat.le_div_iff_mul_le (by norm_num)]
        split_ifs at hbytes ⊢ <;> omega
      · exact Nat.zero_le _

/-- Whatever the application and the device do, a receive queue answers like the line: a request
is refused only when the queue is full or when it is too long, the device gets requests in the
order of posting and none that was not announced, and each completion names the oldest request
that the device has. -/
theorem rq_answers (h : calcRqSize lim sig maxWr maxSge = some rq) (hpos : 0 < maxWr)
    (hmax : lim.maxRecvWr ≤ 2 ^ 15) (gated : Bool) :
    maxWr ≤ rq.wqeCnt.toNat ∧ (maxSge < 2 ^ 28 - 1 → maxSge ≤ rq.maxGs) ∧
      ∀ es, answers Machine.step (Machine.init rq gated) es =
        answers Line.step (Line.init rq.wqeCnt.toNat rq.maxGs gated) es := by
  obtain ⟨hwr, hsge, hsim⟩ := calcRqSize_sim h hpos hmax gated
  exact ⟨hwr, hsge, fun es => answers_eq (fun m p e h => h.step e) hsim⟩

/-- A request that is posted between the two halves of the change to RTR is not announced before
the next one. -/
theorem rq_answers_race : ∃ rq, calcRqSize ⟨64, 256, 64, by decide⟩ false 4 1 = some rq ∧
    answers Machine.step (Machine.init rq true)
        [.modify .init, .keep .init, .post [⟨7, [], 0, by decide⟩], .modify .rtr,
          .post [⟨8, [], 0, by decide⟩], .keep .rtr, .take, .post [⟨9, [], 0, by decide⟩], .take,
          .take, .complete, .complete, .complete] =
      some [.posted [7] none, .posted [8] none, .taken [], .posted [9] none, .taken [], .taken [],
        .completed 7, .completed 8, .completed 9] := by
  refine ⟨_, rfl, ?_⟩
  rw [(@rq_answers ⟨64, 256, 64, by decide⟩ false 4 1 _ rfl (by norm_num) (by norm_num) true).2.2]
  decide

end Creation

end RdmaperfIso.Mlx5.RecvQueue
