import Mathlib.Data.UInt
import RdmaperfIso.Lib.Reactive
import RdmaperfIso.Mlx5.Srq

/-! A shared receive queue while the device works on it, and what it is for: a pool that hands
requests to the device in the order of posting and returns each of them once. The pool knows
nothing of entries and links. -/
namespace RdmaperfIso.Mlx5.SrqPool
open Reactive Outcome Srq Links

/-- What the application and the device do, in any order. A request in the hands of the device
is given by its position among those. -/
inductive Event where
  | post (wrs : List RecvWr)
  | take
  | complete (k : ℕ)
  | fault (k : ℕ)

inductive Answer where
  | posted (wrIds : List UInt64) (err : Option Errno)
  | taken (sges : List Sge)
  | completed (wrId : UInt64)
  deriving DecidableEq, Repr

/-- The requests that a call accepted. -/
def posting (wrs : List RecvWr) (receipt : Receipt) : Answer :=
  .posted ((wrs.take receipt.nreq).map RecvWr.wrId) receipt.err

/-- The device has a position in the linked list, counts the entries that it took, and works
on some of them. -/
structure Machine where
  srq : Srq
  pos : ℕ
  taken : UInt16
  flight : List ℕ

/-- The device takes entries up to the number in the doorbell record. The index in a completion
is that of the entry, which is freed when the completion is polled. -/
def Machine.step (m : Machine) : Event → Option (Machine × List Answer)
  | .post wrs => do
    let r ← m.srq.postSrqRecv wrs
    some ({ m with srq := r.1 }, [posting wrs r.2])
  | .take =>
    if m.taken = m.srq.db.toUInt16 then none
    else
      some
        ({ m with
            pos := m.srq.link m.pos
            taken := m.taken + 1
            flight := m.flight ++ [m.pos] },
          [.taken (m.srq.content m.pos).sges])
  | .complete k => do
    let i ← m.flight[k]?
    let srq ← m.srq.freeSrqWqe i
    some ({ m with srq := srq, flight := m.flight.eraseIdx k }, [.completed (m.srq.wrid i)])
  | .fault k => do
    let i ← m.flight[k]?
    let srq ← m.srq.completeOdpFault i
    some ({ m with srq := srq, flight := m.flight.eraseIdx k }, [])

/-- A queue that has just been allocated. -/
def Machine.init (srq : Srq) : Machine := ⟨srq, srq.head, 0, []⟩

/-- Requests that wait for the device, in order, and those that it works on. -/
structure Pool where
  cap : ℕ
  maxGs : ℕ
  waiting : List Recv
  flight : List Recv

namespace Pool

/-- Requests are accepted one by one, while there is room. -/
def post (p : Pool) : ℕ → List RecvWr → Pool × Receipt
  | nreq, [] => (p, ⟨nreq, none⟩)
  | nreq, wr :: wrs =>
    if (p.maxGs : ℤ) < wr.numSge then (p, ⟨nreq, some .einval⟩)
    else if p.cap ≤ p.waiting.length + p.flight.length then (p, ⟨nreq, some .enomem⟩)
    else
      post { p with waiting := p.waiting ++ [⟨wr.wrId, validSges wr.sges⟩] } (nreq + 1) wrs

/-- A page fault sends the request to the end of the line. -/
def step (p : Pool) : Event → Option (Pool × List Answer)
  | .post wrs => some ((p.post 0 wrs).1, [posting wrs (p.post 0 wrs).2])
  | .take =>
    match p.waiting with
    | [] => none
    | r :: waiting =>
      some ({ p with waiting := waiting, flight := p.flight ++ [r] }, [.taken r.sges])
  | .complete k => do
    let r ← p.flight[k]?
    some ({ p with flight := p.flight.eraseIdx k }, [.completed r.wrId])
  | .fault k => do
    let r ← p.flight[k]?
    some ({ p with waiting := p.waiting ++ [r], flight := p.flight.eraseIdx k }, [])

def init (cap maxGs : ℕ) : Pool := ⟨cap, maxGs, [], []⟩

end Pool

section Simulation
variable {s s' : Srq} {p : Pool} {pos i : ℕ} {flight posted free resting free' resting' : List ℕ}
  {r : Recv} {m : Machine}

/-- The lists of the queue hold the requests of the pool. -/
structure Mirror (s : Srq) (pos : ℕ) (flight : List ℕ) (p : Pool)
    (posted free resting : List ℕ) : Prop where
  lists : s.Lists posted free resting flight
  pos_eq : (posted ++ free).head? = some pos
  cap_eq : resting.length + (p.cap + 1) = s.max
  maxGs_eq : s.maxGs = p.maxGs
  waiting_eq : p.waiting = posted.map s.content
  flight_eq : p.flight = flight.map s.content

namespace Mirror

/-- The free entries are those that the pool has room for, and one more. -/
theorem length_free (h : Mirror s pos flight p posted free resting) :
    p.waiting.length + p.flight.length + free.length = p.cap + 1 := by
  have hlen := h.lists.perm.length_eq
  have hcap := h.cap_eq
  simp only [List.length_append, List.length_range] at hlen
  rw [h.waiting_eq, h.flight_eq, List.length_map, List.length_map]
  omega

/-- A request that is written at the head waits last in the pool. `flight` is what the device
still works on. -/
theorem of_fills (hf : s.Fills s' r) (hl : s'.Lists (posted ++ [s.head]) free' resting' flight)
    (hhead : free.head? = some s.head) (hpos : (posted ++ free).head? = some pos)
    (hcap : resting'.length + (p.cap + 1) = s.max) (hgs : s.maxGs = p.maxGs)
    (hwaiting : p.waiting = posted.map s.content) (hflight : p.flight = flight.map s.content) :
    Mirror s' pos flight { p with waiting := p.waiting ++ [r] } (posted ++ [s.head]) free'
      resting' := by
  have hkeep (l : List ℕ) (hl : s.head ∉ l) : l.map s'.content = l.map s.content := by
    refine List.map_congr_left fun j hj => hf.others j ?_
    rintro rfl
    exact hl hj
  have hposted : s.head ∉ posted := by
    have hnodup : (posted ++ [s.head]).Nodup := hl.nodup.sublist (by simp)
    exact fun hmem => List.disjoint_of_nodup_append hnodup hmem (by simp)
  have hbusy : s.head ∉ flight := by
    exact fun hmem => List.disjoint_of_nodup_append hl.nodup (by simp) hmem
  refine ⟨hl, ?_, hf.max ▸ hcap, hf.maxGs.trans hgs, ?_, ?_⟩
  · rw [← hpos, List.append_assoc, List.head?_append, List.head?_append, List.head?_append, hhead]
    rfl
  · rw [hwaiting, List.map_append, hkeep posted hposted, List.map_singleton, hf.filled]
  · rw [hflight, hkeep flight hbusy]

end Mirror

theorem perm_cons_eraseIdx {α : Type} {l : List α} {a : α} {k : ℕ} (h : l[k]? = some a) :
    l.Perm (a :: l.eraseIdx k) := by
  obtain ⟨hk, rfl⟩ := List.getElem?_eq_some_iff.mp h
  exact (List.getElem_cons_eraseIdx_perm hk).symm

theorem Mirror.setCounter (h : Mirror s pos flight p posted free resting) (c : UInt16)
    (d : UInt32) : Mirror { s with counter := c, db := d } pos flight p posted free resting :=
  ⟨⟨h.lists.linked, h.lists.head_eq, h.lists.tail_eq, h.lists.waitq, h.lists.perm,
      h.lists.max_le⟩,
    h.pos_eq, h.cap_eq, h.maxGs_eq, h.waiting_eq, h.flight_eq⟩

/-- The device goes on to the next entry. -/
theorem Mirror.take (h : Mirror s i flight p (i :: posted) free resting) :
    Mirror s (s.link i) (flight ++ [i])
      { p with waiting := posted.map s.content, flight := p.flight ++ [s.content i] }
      posted free resting := by
  have hfree := h.lists.head_eq
  refine ⟨⟨h.lists.linked.tail, hfree, h.lists.tail_eq, h.lists.waitq, ?_, h.lists.max_le⟩,
    h.lists.linked.head?_tail ?_, h.cap_eq, h.maxGs_eq, rfl, ?_⟩
  · refine List.Perm.trans ?_ h.lists.perm
    rw [List.perm_iff_count]
    intro a
    simp only [List.count_append, List.count_cons, List.cons_append, List.count_nil]
    omega
  · simp [List.ne_nil_of_mem h.lists.head_mem]
  · rw [h.flight_eq, List.map_append, List.map_singleton]

/-- The loop over the requests is the one of the pool, and posts as many as it says. -/
theorem postLoop_mirror (wrs : List RecvWr) (nreq : ℕ)
    (h : Mirror s pos flight p posted free resting) :
    ∃ s' posted' free', s.postLoop nreq wrs = some (s', (p.post nreq wrs).2) ∧
      Mirror s' pos flight (p.post nreq wrs).1 posted' free' resting ∧
      posted'.length + nreq = posted.length + (p.post nreq wrs).2.nreq ∧
      s'.counter = s.counter ∧ s'.db = s.db := by
  induction wrs generalizing s p posted free nreq with
  | nil => exact ⟨s, posted, free, rfl, h, rfl, rfl, rfl⟩
  | cons wr wrs ih =>
    have hlen := h.length_free
    simp only [Pool.post, Srq.postLoop]
    split_ifs with hgs hfull
    · rw [← h.maxGs_eq, ← not_le] at hgs
      rw [Srq.postOne, check_bind_neg hgs]
      exact ⟨s, posted, free, rfl, h, rfl, rfl, rfl⟩
    · rw [← h.maxGs_eq, not_lt] at hgs
      have hpos := List.length_pos_of_mem h.lists.head_mem
      have heq := h.lists.head_eq_tail_iff.mpr (by omega)
      rw [Srq.postOne, check_bind_pos hgs, check_bind_neg (not_not.mpr heq)]
      exact ⟨s, posted, free, rfl, h, rfl, rfl, rfl⟩
    · rw [← h.maxGs_eq, not_lt] at hgs
      obtain ⟨t, ht, hfills, hlists, hcounter, hdb⟩ := h.lists.postOne hgs (by omega)
      have ht' := Mirror.of_fills hfills hlists h.lists.head_eq h.pos_eq h.cap_eq h.maxGs_eq
        h.waiting_eq h.flight_eq
      obtain ⟨s', posted', free', hs', hm, hcount, hcounter', hdb'⟩ := ih (nreq + 1) ht'
      refine ⟨s', posted', free', ?_, hm, ?_, hcounter'.trans hcounter, hdb'.trans hdb⟩
      · rw [ht]
        exact hs'
      · rw [List.length_append, List.length_singleton] at hcount
        omega

/-- The queue and the pool agree, and so do the counters of the driver and the device. -/
structure Sim (m : Machine) (p : Pool) : Prop where
  mirror : ∃ posted free resting, Mirror m.srq m.pos m.flight p posted free resting ∧
    m.srq.counter = m.taken + UInt16.ofNat posted.length
  db_eq : m.srq.db = m.srq.counter.toUInt32

theorem Sim.post (h : Sim m p) (wrs : List RecvWr) :
    Agree Sim (m.step (.post wrs)) (p.step (.post wrs)) := by
  obtain ⟨⟨posted, free, resting, hmirror, hcounter⟩, hdb⟩ := h
  obtain ⟨s', posted', free', hs', hm, hcount, hc, hd⟩ := postLoop_mirror wrs 0 hmirror
  have hcount' : posted.length + (p.post 0 wrs).2.nreq = posted'.length := by omega
  simp only [Machine.step, Srq.postSrqRecv, hs', Pool.step, Option.bind_eq_bind, Option.bind_some]
  split_ifs with hn
  · refine .some ⟨⟨⟨posted', free', resting, hm, ?_⟩, ?_⟩, rfl⟩
    · rw [← hcount', hn]
      exact hc.trans hcounter
    · rw [hc, hd, hdb]
  · refine .some ⟨⟨⟨posted', free', resting, ?_, ?_⟩, rfl⟩, rfl⟩
    · exact hm.setCounter _ _
    · show s'.counter + UInt16.ofNat _ = m.taken + _
      rw [hc, hcounter, ← hcount', UInt16.ofNat_add, UInt16.add_assoc]

theorem Sim.take (h : Sim m p) : Agree Sim (m.step .take) (p.step .take) := by
  obtain ⟨⟨posted, free, resting, hmirror, hcounter⟩, hdb⟩ := h
  have hwaiting := hmirror.waiting_eq
  have hdb' : m.srq.db.toUInt16 = m.srq.counter := by
    rw [hdb]
    simp
  simp only [Machine.step, Pool.step, hdb', hcounter]
  cases posted with
  | nil =>
    rw [List.map_nil] at hwaiting
    rw [hwaiting, if_pos (by simp)]
    exact .none
  | cons i posted =>
    obtain rfl : i = m.pos := by simpa using hmirror.pos_eq
    rw [List.map_cons] at hwaiting
    have hlen := hmirror.lists.perm.length_eq
    have hmax := hmirror.lists.max_le
    have hfree := List.length_pos_of_mem hmirror.lists.head_mem
    simp only [List.length_append, List.length_cons, List.length_range] at hlen
    have hne : m.taken ≠ m.taken + UInt16.ofNat (m.pos :: posted).length := by
      rw [ne_eq, UInt16.left_eq_add, UInt16.ofNat_eq_iff_mod_eq_toNat, List.length_cons,
        Nat.mod_eq_of_lt (by omega)]
      simp
    rw [hwaiting, if_neg hne]
    refine .some ⟨⟨⟨posted, free, resting, hmirror.take, ?_⟩, hdb⟩, rfl⟩
    show m.srq.counter = m.taken + 1 + _
    rw [hcounter, List.length_cons, UInt16.add_assoc, ← UInt16.ofNat_one, ← UInt16.ofNat_add,
      Nat.add_comm 1]

theorem Sim.complete (h : Sim m p) (k : ℕ) :
    Agree Sim (m.step (.complete k)) (p.step (.complete k)) := by
  obtain ⟨⟨posted, free, resting, hmirror, hcounter⟩, hdb⟩ := h
  simp only [Machine.step, Pool.step, hmirror.flight_eq, List.getElem?_map]
  cases hk : m.flight[k]? with
  | none => exact .none
  | some i =>
    have hperm := perm_cons_eraseIdx hk
    obtain ⟨s', hs', hsame, hlists⟩ := (hmirror.lists.perm_busy hperm).freeSrqWqe
    simp only [Option.map_some, Option.bind_eq_bind, Option.bind_some, hs']
    refine .some ⟨⟨⟨posted, free ++ [i], resting, ⟨hlists, ?_, ?_, ?_, ?_, ?_⟩, ?_⟩, ?_⟩, rfl⟩
    · rw [← List.append_assoc, List.head?_append, hmirror.pos_eq]
      rfl
    · rw [hsame.max]
      exact hmirror.cap_eq
    · rw [hsame.maxGs]
      exact hmirror.maxGs_eq
    · rw [hsame.content]
      exact hmirror.waiting_eq
    · rw [hsame.content, ← List.eraseIdx_map]
    · rw [hsame.counter]
      exact hcounter
    · rw [hsame.counter, hsame.db]
      exact hdb

theorem Sim.fault (h : Sim m p) (k : ℕ) :
    Agree Sim (m.step (.fault k)) (p.step (.fault k)) := by
  obtain ⟨⟨posted, free, resting, hmirror, hcounter⟩, hdb⟩ := h
  simp only [Machine.step, Pool.step, hmirror.flight_eq, List.getElem?_map]
  cases hk : m.flight[k]? with
  | none => exact .none
  | some i =>
    have hperm := perm_cons_eraseIdx hk
    obtain ⟨s', free', resting', hs', hfills, hlists, hlen, hcounter', hdb'⟩ :=
      (hmirror.lists.perm_busy hperm).completeOdpFault
    simp only [Option.map_some, Option.bind_eq_bind, Option.bind_some, hs']
    refine .some ⟨⟨⟨posted ++ [m.srq.head], free', resting', ?_, ?_⟩, hdb'⟩, rfl⟩
    · exact Mirror.of_fills (p := { p with flight := (m.flight.map m.srq.content).eraseIdx k })
        hfills hlists hmirror.lists.head_eq hmirror.pos_eq (hlen ▸ hmirror.cap_eq)
        hmirror.maxGs_eq hmirror.waiting_eq (List.eraseIdx_map _ _ _)
    · show s'.counter = m.taken + _
      rw [hcounter', hcounter, List.length_append, List.length_singleton, UInt16.ofNat_add,
        UInt16.add_assoc]
      rfl

theorem Sim.step (h : Sim m p) (e : Event) : Agree Sim (m.step e) (p.step e) := by
  cases e with
  | post wrs => exact h.post wrs
  | take => exact h.take
  | complete k => exact h.complete k
  | fault k => exact h.fault k

end Simulation

section Creation
variable {lim : Limits} {maxWr maxSge : ℕ} {s : Srq}

theorem createSrq_sim (h : createSrq lim maxWr maxSge = some s) (hpos : 0 < maxWr) :
    maxWr ≤ s.tail ∧ maxSge ≤ s.maxGs ∧ Sim (Machine.init s) (Pool.init s.tail s.maxGs) := by
  unfold createSrq at h
  split_ifs at h with hwr hsge
  obtain ⟨htail, hgs, hcounter, hdb⟩ := allocSrqBuf_sizes h
  obtain ⟨resting, hlists, hlen⟩ := allocSrqBuf_lists h hpos (by omega)
  refine ⟨htail, hgs, ⟨[], List.range (s.tail + 1), resting, ?_, hcounter⟩, ?_⟩
  · exact ⟨hlists, hlists.head_eq, hlen, rfl, rfl, rfl⟩
  · show s.db = s.counter.toUInt32
    rw [hdb, hcounter]
    rfl

/-- Whatever the application and the device do, a shared receive queue answers like the pool,
and does nothing undefined: a request is refused only when it is too long or when as many are
outstanding as the queue reported, the device gets requests in the order of posting, and each
completion names the request that the device was given. -/
theorem srq_answers (h : createSrq lim maxWr maxSge = some s) (hpos : 0 < maxWr) :
    maxWr ≤ s.tail ∧ maxSge ≤ s.maxGs ∧
      ∀ es, answers Machine.step (Machine.init s) es =
        answers Pool.step (Pool.init s.tail s.maxGs) es := by
  obtain ⟨hwr, hsge, hsim⟩ := createSrq_sim h hpos
  exact ⟨hwr, hsge, fun es => answers_eq (fun m p e h => h.step e) hsim⟩

/-- Two requests share a queue, and the first meets a page fault. -/
theorem srq_answers_fault : ∃ s, createSrq ⟨64, 256, 64, by decide⟩ 2 1 = some s ∧
    answers Machine.step (Machine.init s)
        [.post [⟨7, [], 0, by decide⟩, ⟨8, [], 0, by decide⟩], .take, .fault 0, .take, .complete 0,
          .take, .complete 0] =
      some [.posted [7, 8] none, .taken [], .taken [], .completed 8, .taken [], .completed 7] := by
  refine ⟨_, rfl, ?_⟩
  rw [(@srq_answers ⟨64, 256, 64, by decide⟩ 2 1 _ rfl (by norm_num)).2.2]
  decide

end Creation

/-- The requests that were accepted, and those that were completed. -/
def accepted (out : List Answer) : List UInt64 :=
  out.flatMap fun | .posted wrIds _ => wrIds | _ => []

def completed (out : List Answer) : List UInt64 :=
  out.flatMap fun | .completed wrId => [wrId] | _ => []

namespace Pool
variable {p : Pool} {out : List Answer}

/-- The requests that a call accepts wait behind the others. -/
theorem post_waiting (wrs : List RecvWr) (nreq : ℕ) :
    ∃ k, (p.post nreq wrs).2.nreq = nreq + k ∧ (p.post nreq wrs).1.flight = p.flight ∧
      (p.post nreq wrs).1.waiting.map Recv.wrId =
        p.waiting.map Recv.wrId ++ (wrs.take k).map RecvWr.wrId := by
  induction wrs generalizing p nreq with
  | nil => exact ⟨0, rfl, rfl, by simp [post]⟩
  | cons wr wrs ih =>
    rw [post]
    split_ifs
    · exact ⟨0, rfl, rfl, by simp⟩
    · exact ⟨0, rfl, rfl, by simp⟩
    · obtain ⟨k, hk, hflight, hwaiting⟩ :=
        ih (p := { p with waiting := p.waiting ++ [⟨wr.wrId, validSges wr.sges⟩] }) (nreq + 1)
      refine ⟨k + 1, by omega, hflight, ?_⟩
      rw [hwaiting]
      simp

/-- No request is lost, and none is completed twice. -/
def Conserves (p : Pool) (out : List Answer) : Prop :=
  (accepted out).Perm (completed out ++ (p.flight ++ p.waiting).map Recv.wrId)

theorem conserves_step {e : Event} {r : Pool × List Answer} (h : p.Conserves out)
    (hr : p.step e = some r) : r.1.Conserves (out ++ r.2) := by
  unfold Conserves at h ⊢
  rw [List.perm_iff_count] at h ⊢
  intro a
  have ha := h a
  cases e with
  | post wrs =>
    obtain rfl := Option.some.inj hr
    obtain ⟨k, hk, hflight, hwaiting⟩ := post_waiting (p := p) wrs 0
    simp only [accepted, completed, posting, List.flatMap_append, List.flatMap_singleton, hk,
      hflight, List.map_append, hwaiting, List.count_append, List.append_nil, zero_add] at ha ⊢
    omega
  | take =>
    simp only [step] at hr
    split at hr
    · simp at hr
    next r' waiting hw =>
      obtain rfl := Option.some.inj hr
      simp only [accepted, completed, List.flatMap_append, List.flatMap_singleton, hw,
        List.map_append, List.map_cons, List.count_append, List.count_cons, List.append_nil,
        List.map_nil, List.count_nil] at ha ⊢
      omega
  | complete k =>
    obtain ⟨r', hk, hr⟩ := Option.bind_eq_some_iff.mp hr
    obtain rfl := Option.some.inj hr
    have hperm := ((perm_cons_eraseIdx hk).map Recv.wrId).count_eq a
    simp only [accepted, completed, List.flatMap_append, List.flatMap_singleton, List.map_append,
      List.count_append, List.map_cons, List.count_cons, List.append_nil, List.count_nil]
      at ha hperm ⊢
    omega
  | fault k =>
    obtain ⟨r', hk, hr⟩ := Option.bind_eq_some_iff.mp hr
    obtain rfl := Option.some.inj hr
    have hperm := ((perm_cons_eraseIdx hk).map Recv.wrId).count_eq a
    simp only [accepted, completed, List.map_append, List.map_nil, List.count_nil,
      List.count_append, List.map_cons, List.count_cons, List.append_nil] at ha hperm ⊢
    omega

end Pool

section Conservation
variable {lim : Limits} {maxWr maxSge : ℕ} {s : Srq} {m : Machine} {p : Pool} {es : List Event}
  {out : List Answer}

/-- The requests that wait are found along the links, up to the doorbell. -/
theorem Sim.waiting_eq (h : Sim m p) :
    p.waiting.map Recv.wrId =
      (walk m.srq.link m.pos (m.srq.db.toUInt16 - m.taken).toNat).map m.srq.wrid := by
  obtain ⟨⟨posted, free, resting, hmirror, hcounter⟩, hdb⟩ := h
  have hlen := hmirror.lists.perm.length_eq
  have hmax := hmirror.lists.max_le
  have hfree := List.length_pos_of_mem hmirror.lists.head_mem
  simp only [List.length_append, List.length_range] at hlen
  have hcount : (m.srq.db.toUInt16 - m.taken).toNat = posted.length := by
    rw [hdb, UInt16.toUInt16_toUInt32, hcounter, UInt16.add_comm, UInt16.add_sub_cancel,
      UInt16.toNat_ofNat', Nat.mod_eq_of_lt (by omega)]
  rw [hcount, hmirror.lists.linked.walk_eq hmirror.pos_eq, hmirror.waiting_eq, List.map_map]
  rfl

/-- At any time, the requests that were accepted are the completed ones, those that the device
works on, and those that it will find along the links. -/
theorem srq_conserves (h : createSrq lim maxWr maxSge = some s) (hpos : 0 < maxWr)
    (hrun : exec Machine.step (Machine.init s) es = some (m, out)) :
    (accepted out).Perm (completed out ++
      (m.flight ++ walk m.srq.link m.pos (m.srq.db.toUInt16 - m.taken).toNat).map m.srq.wrid) := by
  obtain ⟨-, -, hinit⟩ := createSrq_sim h hpos
  obtain ⟨p, hp, hsim⟩ := exec_simulates (fun m p e h => h.step e) hinit hrun
  have hempty : (Pool.init s.tail s.maxGs).Conserves [] := List.Perm.refl []
  have hcons : p.Conserves ([] ++ out) :=
    exec_invariant (fun e _ p out r h hr => Pool.conserves_step h hr) hempty hp
  obtain ⟨⟨posted, free, resting, hmirror, -⟩, -⟩ := id hsim
  rw [Pool.Conserves, List.nil_append, List.map_append, hsim.waiting_eq, hmirror.flight_eq,
    List.map_map] at hcons
  rw [List.map_append]
  exact hcons

/-- One request is completed, and one is still on the links. -/
theorem srq_conserves_two : ∃ s m, createSrq ⟨64, 256, 64, by decide⟩ 2 1 = some s ∧
    exec Machine.step (Machine.init s)
        [.post [⟨7, [], 0, by decide⟩, ⟨8, [], 0, by decide⟩], .take, .complete 0] =
      some (m, [.posted [7, 8] none, .taken [], .completed 7]) ∧
    [7, 8].Perm ([7] ++
      (m.flight ++ walk m.srq.link m.pos (m.srq.db.toUInt16 - m.taken).toNat).map m.srq.wrid) := by
  obtain ⟨s, m, hs, hm⟩ : ∃ s m, createSrq ⟨64, 256, 64, by decide⟩ 2 1 = some s ∧
      exec Machine.step (Machine.init s)
          [.post [⟨7, [], 0, by decide⟩, ⟨8, [], 0, by decide⟩], .take, .complete 0] =
        some (m, [.posted [7, 8] none, .taken [], .completed 7]) := ⟨_, _, rfl, rfl⟩
  exact ⟨s, m, hs, hm, srq_conserves hs (by norm_num) hm⟩

end Conservation
end RdmaperfIso.Mlx5.SrqPool
