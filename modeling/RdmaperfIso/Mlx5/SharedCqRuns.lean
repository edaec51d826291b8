import RdmaperfIso.Mlx5.SharedCq

/-! Runs of queue pairs on a shared completion queue. The ring, the table of numbers and the queue
pairs in memory fit together after every step. -/
namespace RdmaperfIso.Mlx5.SharedCq
open Reactive Run ObjectTable
open SendRing (Slot twoRequests)

section Ring
variable {m : CompletionFifo.Machine} {q : CompletionFifo.Queue} {c : Cqe} {pending : List Cqe}

theorem getNextCqe_nil (h : CompletionFifo.Sim m q) (hq : q.pending = []) :
    m.cq.getNextCqe = none := by
  obtain ⟨n, hm⟩ := h
  exact Cq.getNextCqe_nil hm.cons_eq (hq ▸ hm.holds)

theorem getNextCqe_cons (h : CompletionFifo.Sim m q) (hq : q.pending = c :: pending) :
    ∃ c' cq, m.cq.getNextCqe = some (c', cq) ∧ c'.view = c ∧
      CompletionFifo.Sim { m with cq := cq }
        { q with pos := q.pos + 1, pending := pending, owed := q.owed + 1 } := by
  have hagree := h.step .next
  obtain ⟨n, hm⟩ := h
  obtain ⟨c', hview, hnext⟩ := Cq.getNextCqe_cons hm.cons_eq (hq ▸ hm.holds)
  rw [CompletionFifo.Machine.step, CompletionFifo.Queue.step, hq, hnext] at hagree
  obtain ⟨q', hq', hsim⟩ := hagree.matched
  obtain ⟨rfl, -⟩ := Prod.mk.inj (Option.some.inj hq')
  exact ⟨c', _, hnext, hview, hsim⟩

end Ring

section Numbers
variable {t : ObjectTable.Table ℕ} {live : Names ℕ} {a : ℕ} {mem : Bool}

/-- A number that is free is taken, unless memory fails. -/
theorem store_cases (h : ObjectTable.Sim t live) {n : ℕ} (hn : InTable n) (hnone : live n = none)
    {r : ObjectTable.Table ℕ × Bool} (hr : t.store mem n a = some r) :
    (r.2 = false ∧ ObjectTable.Sim r.1 live) ∨
      (r.2 = true ∧ ObjectTable.Sim r.1 (Function.update live n (some a))) := by
  obtain ⟨t', ht', hsim⟩ := h.store hn hnone a mem
  obtain rfl := Option.some.inj (ht'.symm.trans hr)
  unfold Names.store at hsim ⊢
  split_ifs at hsim ⊢
  · exact .inl ⟨rfl, hsim⟩
  · exact .inr ⟨rfl, hsim⟩

theorem storeUidx_cases (h : ObjectTable.Sim t live) {r : ObjectTable.Table ℕ × Option ℕ}
    (hr : t.storeUidx mem a = some r) :
    (r.2 = none ∧ ObjectTable.Sim r.1 live) ∨
      ∃ n, r.2 = some n ∧ InTable n ∧ live n = none ∧
        ObjectTable.Sim r.1 (Function.update live n (some a)) := by
  simp only [ObjectTable.Table.storeUidx, h.getFreeUidx, Option.bind_eq_bind,
    Option.bind_some] at hr
  cases hfree : live.free with
  | none =>
    rw [hfree] at hr
    obtain rfl := Option.some.inj hr
    exact .inl ⟨rfl, h⟩
  | some n =>
    rw [hfree] at hr
    obtain ⟨⟨t', ok⟩, ht', hr⟩ := Option.bind_eq_some_iff.mp hr
    obtain rfl := Option.some.inj hr
    obtain ⟨hn, hnone⟩ := Names.free_spec hfree
    rcases store_cases h hn hnone ht' with ⟨rfl, hsim⟩ | ⟨rfl, hsim⟩
    · exact .inl ⟨rfl, hsim⟩
    · exact .inr ⟨n, rfl, hn, hnone, hsim⟩

end Numbers

section Invariant
variable {s s' : System} {q q' : CompletionFifo.Queue} {live : Names ℕ} {out xs : List Answer}
  {a : ℕ} {p p' : Pair}

/-- The ring, the table and the memory fit together: every completion leads to a queue pair, and
every queue pair sees its own completions. -/
structure Inv (s : System) (q : CompletionFifo.Queue) (live : Names ℕ) (out : List Answer) :
    Prop where
  fifo : CompletionFifo.Sim s.fifo q
  dvOwned_eq : q.dvOwned = false
  table : ObjectTable.Sim s.table live
  named : ∀ n a, live n = some a → ∃ p, s.heap a = some p ∧ p.rsn.toNat = n
  pairs : ∀ a p, s.heap a = some p → live p.rsn.toNat = some a ∧
    Followed s.v1 q.pending p (history a out)
  known : ∀ c ∈ q.pending, live (key s.v1 c).toNat ≠ none
  noErr : .pollErr ∉ out

/-- Two queue pairs have different numbers. -/
theorem Inv.rsn_inj (h : Inv s q live out) {b : ℕ} (ha : s.heap a = some p)
    (hb : s.heap b = some p') (hrsn : p.rsn = p'.rsn) : a = b := by
  have hla := (h.pairs a p ha).1
  have hlb := (h.pairs b p' hb).1
  rw [hrsn, hlb] at hla
  exact (Option.some.inj hla).symm

/-- What a step at one queue pair has to keep. -/
theorem Inv.onPair (h : Inv s q live out) (p' : Pair) (ha : s.heap a = some p)
    (hrsn : p'.rsn = p.rsn)
    {fifo : CompletionFifo.Machine} (hfifo : CompletionFifo.Sim fifo q')
    (hdv : q'.dvOwned = q.dvOwned)
    (hothers : ∀ rsn, rsn ≠ p.rsn → own s.v1 rsn q'.pending = own s.v1 rsn q.pending)
    (hkeys : ∀ c ∈ q'.pending, c ∈ q.pending ∨ key s.v1 c = p.rsn)
    (hout : ∀ b, b ≠ a → history b (out ++ xs) = history b out)
    (hfollowed : Followed s.v1 q'.pending p' (history a (out ++ xs))) (hxs : .pollErr ∉ xs) :
    Inv ({ s with fifo := fifo }.setPair a (some p')) q' live (out ++ xs) := by
  refine ⟨hfifo, hdv.trans h.dvOwned_eq, h.table, ?_, ?_, ?_, ?_⟩
  · intro n b hb
    obtain ⟨p₀, hp₀, hn⟩ := h.named n b hb
    by_cases hba : b = a
    · subst hba
      obtain rfl : p₀ = p := Option.some.inj (hp₀.symm.trans ha)
      exact ⟨p', System.setPair_self .., hrsn ▸ hn⟩
    · exact ⟨p₀, (System.setPair_ne _ hba _).trans hp₀, hn⟩
  · intro b p₀ hp₀
    by_cases hba : b = a
    · subst hba
      rw [System.setPair_self] at hp₀
      obtain rfl := Option.some.inj hp₀
      exact ⟨hrsn ▸ (h.pairs b p ha).1, hfollowed⟩
    · have hb : s.heap b = some p₀ := (System.setPair_ne _ hba _).symm.trans hp₀
      obtain ⟨hlive, hold⟩ := h.pairs b p₀ hb
      rw [hout b hba]
      exact ⟨hlive, hold.congr (hothers _ fun heq => hba (h.rsn_inj hb ha heq))⟩
  · intro c hc
    rcases hkeys c hc with hmem | hkey
    · exact h.known c hmem
    · show live (key s.v1 c).toNat ≠ none
      rw [hkey, (h.pairs a p ha).1]
      simp
  · exact fun hmem => (List.mem_append.mp hmem).elim h.noErr hxs

theorem history_queue_ne {b : ℕ} (hb : b ≠ a) (out : List Answer) (xs : List Side) :
    history b (out ++ xs.map (.queue a)) = history b out := by
  rw [history_queue, if_neg hb.symm, List.append_nil]

theorem history_queue_self (a : ℕ) (out : List Answer) (xs : List Side) :
    history a (out ++ xs.map (.queue a)) = history a out ++ xs := by
  rw [history_queue, if_pos rfl]

/-- What the device leaves goes to the end of the ring. -/
theorem Inv.produce (h : Inv s q live out) {rsn : UInt32} {left : List Cqe}
    (hleft : Left s.v1 rsn left) (hs' : s.produce rsn left = some s') :
    ∃ fifo q', s' = { s with fifo := fifo } ∧ CompletionFifo.Sim fifo q' ∧
      q'.dvOwned = q.dvOwned ∧ q'.pending = q.pending ++ left.map (tag s.v1 rsn) := by
  cases left with
  | nil =>
    obtain rfl := Option.some.inj hs'
    exact ⟨s.fifo, q, rfl, h.fifo, rfl, by simp⟩
  | cons c rest =>
    obtain rfl : rest = [] := List.length_eq_zero_iff.mp (by simpa using hleft.length_le)
    have hview : (tag s.v1 rsn c).view = tag s.v1 rsn c := by
      have hc := hleft.view_eq c List.mem_cons_self
      rw [← hc]
      cases s.v1 <;> rfl
    obtain ⟨⟨fifo, ys⟩, hfifo, rfl⟩ := Option.map_eq_some_iff.mp hs'
    have hagree := h.fifo.step (.produce (tag s.v1 rsn c))
    rw [hfifo] at hagree
    obtain ⟨q', hq', hsim⟩ := hagree.matched
    rw [CompletionFifo.Queue.step] at hq'
    split_ifs at hq'
    obtain ⟨rfl, -⟩ := Prod.mk.inj (Option.some.inj hq')
    exact ⟨fifo, _, rfl, hsim, rfl, by rw [hview]; rfl⟩

/-- A step of a queue of a pair, with what the device leaves. -/
theorem Inv.queueStep (h : Inv s q live out) (p' : Pair) (ha : s.heap a = some p)
    (hrsn : p'.rsn = p.rsn)
    {left : List Cqe} {xs : List Side} (hleft : Left s.v1 p.rsn left)
    (hs' : s.produce p.rsn left = some s')
    (hfollowed : Followed s.v1 (q.pending ++ left.map (tag s.v1 p.rsn)) p' (history a out ++ xs)) :
    ∃ q', Inv (s'.setPair a (some p')) q' live (out ++ xs.map (.queue a)) := by
  obtain ⟨fifo, q', rfl, hfifo, hdv, hpending⟩ := h.produce hleft hs'
  refine ⟨q', h.onPair p' ha hrsn hfifo hdv ?_ ?_ (fun b hb => history_queue_ne hb _ _) ?_
    (by simp)⟩
  · intro rsn hne
    rw [hpending, own, List.filter_append, own, List.append_right_eq_self, List.filter_eq_nil_iff]
    intro c hc heq
    obtain ⟨c', hc', rfl⟩ := List.mem_map.mp hc
    exact hne ((isEqual_iff.mp heq).symm.trans (hleft.key_eq c' hc'))
  · intro c hc
    rw [hpending] at hc
    rcases List.mem_append.mp hc with hc | hc
    · exact .inl hc
    · obtain ⟨c', hc', rfl⟩ := List.mem_map.mp hc
      exact .inr (hleft.key_eq c' hc')
  · rwa [hpending, history_queue_self]

theorem Inv.sendStep (h : Inv s q live out) {e : SendRing.Event} (he : e ≠ .poll)
    {r : System × List Answer} (hr : s.sendStep a e = some r) :
    ∃ q', Inv r.1 q' live (out ++ r.2) := by
  unfold System.sendStep at hr
  split at hr
  · cases hr
  next p ha =>
    split_ifs at hr
    obtain ⟨x, hx, hr⟩ := Option.bind_eq_some_iff.mp hr
    obtain ⟨s', hs', rfl⟩ := Option.map_eq_some_iff.mp hr
    obtain ⟨hleft, hfollowed⟩ := (h.pairs a p ha).2.sendStep he hx
    obtain ⟨q', h'⟩ := h.queueStep (p.ofMachine x.1) ha rfl hleft hs' hfollowed
    rw [List.map_map] at h'
    exact ⟨q', h'⟩

theorem Inv.recvStep (h : Inv s q live out) {e : RecvRing.Event} (he : e ≠ .poll)
    {r : System × List Answer} (hr : s.recvStep a e = some r) :
    ∃ q', Inv r.1 q' live (out ++ r.2) := by
  unfold System.recvStep at hr
  split at hr
  · cases hr
  next p ha =>
    split_ifs at hr
    split at hr
    next hm =>
      obtain ⟨ys, hys, rfl⟩ := Option.map_eq_some_iff.mp hr
      have hfollowed := (h.pairs a p ha).2.noRecv hm hys
      have hset : s.setPair a (some p) = s := by
        rw [System.setPair, ← ha, Function.update_eq_self]
      have h' := h.onPair p ha rfl h.fifo rfl (fun _ _ => rfl) (fun c hc => .inl hc)
        (fun b hb => history_queue_ne hb out (ys.map .inr))
        (by rwa [history_queue_self]) (by simp)
      rw [List.map_map] at h'
      exact ⟨q, hset ▸ h'⟩
    next m hm =>
      obtain ⟨x, hx, hr⟩ := Option.bind_eq_some_iff.mp hr
      obtain ⟨s', hs', rfl⟩ := Option.map_eq_some_iff.mp hr
      obtain ⟨hleft, hfollowed⟩ := (h.pairs a p ha).2.recvStep hm he hx
      obtain ⟨q', h'⟩ := h.queueStep { p with recv := some (.ofMachine x.1) } ha rfl hleft hs'
        hfollowed
      rw [List.map_map] at h'
      exact ⟨q', h'⟩

theorem Inv.kill (h : Inv s q live out) (ha : s.heap a = some p) :
    Inv (s.setPair a (some { p with dead := true })) q live out := by
  have hfollowed := (h.pairs a p ha).2
  have hnil : out ++ [] = out := List.append_nil out
  rw [← hnil]
  refine h.onPair { p with dead := true } ha rfl h.fifo rfl (fun _ _ => rfl)
    (fun c hc => .inl hc) (fun b _ => by rw [hnil]) ?_ (by simp)
  rw [hnil]
  exact ⟨hfollowed.rsn_lt, hfollowed.rsn_eq, hfollowed.cnt_le, hfollowed.send, hfollowed.recv⟩

/-- The queue pair of the last completion is the right one exactly when its number is. -/
theorem Inv.getContext (h : Inv s q live out) {cur : Option ℕ}
    (hcur : ∀ b, cur = some b → s.heap b ≠ none) {c : Cqe} (hc : c ∈ q.pending) :
    ∃ a p, s.getContext cur (key s.v1 c) = some (some a) ∧ s.heap a = some p ∧
      p.rsn = key s.v1 c := by
  obtain ⟨a, ha⟩ := Option.ne_none_iff_exists'.mp (h.known c hc)
  obtain ⟨p, hp, hrsn⟩ := h.named _ a ha
  have hlt := (h.pairs a p hp).2.rsn_lt
  have hkey : p.rsn = key s.v1 c := UInt32.toNat_inj.mp hrsn
  have hfind : s.table.find (key s.v1 c).toNat = some (some a) := by
    rw [h.table.find (by unfold InTable; omega), ha]
  refine ⟨a, p, ?_, hp, hkey⟩
  cases cur with
  | none => exact hfind
  | some b =>
    obtain ⟨p', hb⟩ := Option.ne_none_iff_exists'.mp (hcur b rfl)
    simp only [System.getContext, hb]
    split_ifs with hsame
    · rw [h.rsn_inj hb hp (hsame.trans hkey.symm)]
    · exact hfind

/-- One round of the loop: the completion goes to its queue pair. -/
theorem Inv.pollOne (h : Inv s q live out) {c : Cqe} {pending : List Cqe}
    (hq : q.pending = c :: pending) (ha : s.heap a = some p) (hc : key s.v1 c = p.rsn)
    {fifo : CompletionFifo.Machine}
    (hfifo : CompletionFifo.Sim fifo
      { q with pos := q.pos + 1, pending := pending, owed := q.owed + 1 }) :
    (strays s.v1 c = false ∧ isIdle c = false) ∧ ∃ p' x, p.parseCqe c = some (p', x) ∧
      Inv ({ s with fifo := fifo }.setPair a (some p'))
        { q with pos := q.pos + 1, pending := pending, owed := q.owed + 1 } live
        (out ++ [.queue a x]) := by
  have hfollowed := (h.pairs a p ha).2
  rw [hq] at hfollowed
  obtain ⟨hcase, p', x, hparse, hrsn, hfollowed'⟩ := hfollowed.poll hc
  refine ⟨hcase, p', x, hparse, ?_⟩
  refine h.onPair p' ha hrsn hfifo rfl ?_ ?_ (fun b hb => history_queue_ne hb out [x]) ?_ (by simp)
  · intro rsn hne
    have hnot : ¬c.isEqual s.v1 rsn = true := by
      rw [isEqual_iff, hc]
      exact hne.symm
    rw [hq, own, own, List.filter_cons_of_neg hnot]
  · exact fun d hd => .inl (hq ▸ List.mem_cons_of_mem c hd)
  · have hself := history_queue_self a out [x]
    rw [List.map_singleton] at hself
    rwa [hself]

/-- The loop over completions is defined, and leads to each queue pair. -/
theorem Inv.pollLoop (ne : ℕ) (h : Inv s q live out) {cur : Option ℕ}
    (hcur : ∀ b, cur = some b → s.heap b ≠ none) :
    ∃ s' xs q', System.pollLoop ne s cur = some (s', xs) ∧ Inv s' q' live (out ++ xs) := by
  induction ne generalizing s q out cur with
  | zero => exact ⟨s, [], q, rfl, by rwa [List.append_nil]⟩
  | succ ne ih =>
    rw [System.pollLoop]
    cases hq : q.pending with
    | nil =>
      rw [getNextCqe_nil h.fifo hq]
      exact ⟨s, [], q, rfl, by rwa [List.append_nil]⟩
    | cons c pending =>
      obtain ⟨c', cq, hnext, rfl, hfifo⟩ := getNextCqe_cons h.fifo hq
      have hmem : c'.view ∈ q.pending := hq ▸ List.mem_cons_self
      obtain ⟨a, p, hctx, hp, hkey⟩ := h.getContext hcur hmem
      obtain ⟨⟨hstray, hidle⟩, p', x, hparse, hone⟩ := h.pollOne hq hp hkey.symm hfifo
      obtain ⟨s', xs, q', hloop, hinv⟩ := ih hone fun b (hb : some a = some b) => by
        obtain rfl := Option.some.inj hb
        rw [System.setPair_self]
        exact Option.some_ne_none _
      -- The owner bit, which is all that a view hides, is not read.
      have hctx' : System.getContext { s with fifo := { s.fifo with cq := cq } } cur
          (key s.v1 c') = some (some a) := hctx
      have hstray' : strays s.v1 c' = false := hstray
      have hidle' : isIdle c' = false := hidle
      have hparse' : p.parseCqe c' = some (p', x) := hparse
      refine ⟨s', .queue a x :: xs, q', ?_, ?_⟩
      · simp only [hnext, hstray', hidle', hctx', hp, hparse', Option.bind_some, hloop,
          Option.map_some, Bool.false_eq_true, if_false]
      · rwa [List.append_assoc, List.singleton_append] at hinv

theorem Inv.poll (h : Inv s q live out) (ne : ℕ) :
    ∃ s' xs q', s.poll ne = some (s', xs) ∧ Inv s' q' live (out ++ xs) := by
  obtain ⟨s', xs, q', hloop, hinv⟩ := h.pollLoop ne fun b (hb : none = some b) => nomatch hb
  refine ⟨_, xs, { q' with owed := 0 }, by rw [System.poll, hloop]; rfl, ?_⟩
  have hagree := hinv.fifo.step .publish
  obtain ⟨q'', hq'', hsim⟩ := hagree.matched
  obtain ⟨rfl, -⟩ := Prod.mk.inj (Option.some.inj hq'')
  exact ⟨hsim, hinv.dvOwned_eq, hinv.table, hinv.named, hinv.pairs, hinv.known, hinv.noErr⟩

/-- An answer that says nothing about queue pairs. -/
theorem Inv.silent (h : Inv s q live out) {x : Answer} (hx : ∀ b hist, x.record b hist = hist)
    (herr : x ≠ .pollErr) : Inv s q live (out ++ [x]) := by
  refine { h with pairs := fun b p hb => ?_, noErr := ?_ }
  · rw [history_concat, hx]
    exact h.pairs b p hb
  · simpa using ⟨h.noErr, herr.symm⟩

/-- A new number is in no completion. -/
theorem Inv.register (h : Inv s q live out) {qpNum : UInt32} {mem : Bool}
    {r : ObjectTable.Table ℕ × Option UInt32} (hr : s.register a qpNum mem = some r) :
    (r.2 = none ∧ ObjectTable.Sim r.1 live) ∨
      ∃ rsn, r.2 = some rsn ∧ rsn.toNat < 2 ^ 24 ∧ (s.v1 = false → rsn = qpNum) ∧
        live rsn.toNat = none ∧
        ObjectTable.Sim r.1 (Function.update live rsn.toNat (some a)) := by
  rw [System.register] at hr
  split_ifs at hr with hv
  · obtain ⟨⟨t, num⟩, ht, rfl⟩ := Option.map_eq_some_iff.mp hr
    rcases storeUidx_cases h.table ht with ⟨rfl, hsim⟩ | ⟨n, rfl, hn, hnone, hsim⟩
    · exact .inl ⟨rfl, hsim⟩
    · have hlt : n < 2 ^ 24 := by
        unfold InTable at hn
        omega
      have htoNat : (UInt32.ofNat n).toNat = n := by
        rw [UInt32.toNat_ofNat', Nat.mod_eq_of_lt (by omega)]
      refine .inr ⟨UInt32.ofNat n, rfl, htoNat.symm ▸ hlt, fun hf => ?_, ?_, ?_⟩
      · rw [hv] at hf
        cases hf
      · rw [htoNat, hnone]
      · rw [htoNat]
        exact hsim
  · split at hr
    next hfind =>
      obtain ⟨⟨t, ok⟩, ht, rfl⟩ := Option.map_eq_some_iff.mp hr
      have hn : InTable qpNum.toNat := by
        by_contra hn
        rw [ObjectTable.Table.find_of_not_inTable _ hn] at hfind
        cases hfind
      rw [h.table.find hn] at hfind
      have hnone : live qpNum.toNat = none := Option.some.inj hfind
      rcases store_cases h.table hn hnone ht with ⟨rfl, hsim⟩ | ⟨rfl, hsim⟩
      · exact .inl ⟨rfl, hsim⟩
      · refine .inr ⟨qpNum, rfl, ?_, fun _ => rfl, hnone, hsim⟩
        unfold InTable at hn
        omega
    next => cases hr

theorem Inv.create (h : Inv s q live out) (ha : s.heap a = none) {cfg : Config} (hcfg : cfg.Plain)
    {qpNum : UInt32} {ring : ℕ → Slot} {mem : Bool} {r : System × List Answer}
    (hr : s.create a cfg qpNum ring mem = some r) : ∃ live', Inv r.1 q live' (out ++ r.2) := by
  rw [System.create] at hr
  split at hr
  · obtain rfl := Option.some.inj hr
    exact ⟨live, h.silent (fun _ _ => rfl) (by simp)⟩
  next qp hqp =>
    split at hr
    · obtain rfl := Option.some.inj hr
      exact ⟨live, h.silent (fun _ _ => rfl) (by simp)⟩
    next recv hrecv =>
      obtain ⟨⟨t, num⟩, ht, rfl⟩ := Option.map_eq_some_iff.mp hr
      rcases h.register ht with ⟨rfl, hsim⟩ | ⟨rsn, rfl, hlt, hrsn, hnone, hsim⟩
      · have hsame : Inv { s with table := t } q live out := { h with table := hsim }
        exact ⟨live, hsame.silent (fun _ _ => rfl) (by simp)⟩
      · have hfresh {c : Cqe} (hc : c ∈ q.pending) : key s.v1 c ≠ rsn :=
          fun heq => h.known c hc (heq ▸ hnone)
        refine ⟨Function.update live rsn.toNat (some a), h.fifo, h.dvOwned_eq, hsim, ?_, ?_, ?_, ?_⟩
        · intro n b hb
          by_cases hn : n = rsn.toNat
          · subst hn
            rw [Function.update_self] at hb
            obtain rfl := Option.some.inj hb
            exact ⟨_, System.setPair_self .., rfl⟩
          · rw [Function.update_of_ne hn] at hb
            obtain ⟨p, hp, hpn⟩ := h.named n b hb
            have hba : b ≠ a := by
              rintro rfl
              rw [ha] at hp
              cases hp
            exact ⟨p, (System.setPair_ne _ hba _).trans hp, hpn⟩
        · intro b p hp
          rw [history_concat, Answer.record]
          by_cases hba : b = a
          · subst hba
            rw [System.setPair_self] at hp
            obtain rfl := Option.some.inj hp
            rw [if_pos rfl]
            refine ⟨Function.update_self .., followed_init hcfg hqp hrecv hlt hrsn ?_⟩
            rw [own, List.filter_eq_nil_iff]
            exact fun c hc heq => hfresh hc (isEqual_iff.mp heq)
          · have hb : s.heap b = some p := (System.setPair_ne _ hba _).symm.trans hp
            obtain ⟨hlive, hfollowed⟩ := h.pairs b p hb
            have hne : p.rsn.toNat ≠ rsn.toNat := by
              intro heq
              rw [heq, hnone] at hlive
              cases hlive
            rw [Function.update_of_ne hne, if_neg (Ne.symm hba)]
            exact ⟨hlive, hfollowed⟩
        · intro c hc
          have hne : (key s.v1 c).toNat ≠ rsn.toNat :=
            fun heq => hfresh hc (UInt32.toNat_inj.mp heq)
          show Function.update live rsn.toNat (some a) (key s.v1 c).toNat ≠ none
          rw [Function.update_of_ne hne]
          exact h.known c hc
        · simpa using h.noErr

/-- Cleaning takes the completions of the pair out of a ring that is not full, and leaves the
others. -/
theorem Inv.clean (h : Inv s q live out)
    (hroom : (s.fifo.pi - s.fifo.cq.consIndex).toNat < s.fifo.cq.ncqe) {rsn : UInt32}
    {r : CompletionFifo.Machine × List CompletionFifo.Answer}
    (hr : s.fifo.step (.clean s.v1 rsn false) = some r) :
    ∃ q', CompletionFifo.Sim r.1 q' ∧ q'.dvOwned = false ∧ own s.v1 rsn q'.pending = [] ∧
      (∀ rsn', rsn' ≠ rsn → own s.v1 rsn' q'.pending = own s.v1 rsn' q.pending) ∧
      ∀ c ∈ q'.pending, c ∈ q.pending ∧ key s.v1 c ≠ rsn := by
  have hagree := h.fifo.step (.clean s.v1 rsn false)
  rw [hr] at hagree
  obtain ⟨q', hq', hsim⟩ := hagree.matched
  have hlt : q.pending.length < q.ncqe := by
    obtain ⟨n, hmirror⟩ := id h.fifo
    rwa [h.fifo.length_pending, hmirror.ncqe_eq]
  obtain ⟨hpending, -, hdv⟩ := CompletionFifo.Queue.clean_pending h.dvOwned_eq hlt hq'
  have hkept (c : Cqe) (hc : c ∈ q'.pending) : c ∈ q.pending ∧ key s.v1 c ≠ rsn := by
    rwa [hpending, Cq.kept, List.mem_filter, Bool.not_eq_true', ← Bool.not_eq_true,
      isEqual_iff] at hc
  refine ⟨q', hsim, hdv, ?_, fun rsn' hne => ?_, hkept⟩
  · rw [own, List.filter_eq_nil_iff]
    exact fun c hc heq => (hkept c hc).2 (isEqual_iff.mp heq)
  · rw [own, own, hpending, Cq.kept, List.filter_filter]
    refine List.filter_congr fun c _ => ?_
    cases hequal : c.isEqual s.v1 rsn' with
    | false => rfl
    | true =>
      have hnot : ¬c.isEqual s.v1 rsn = true := by
        rw [isEqual_iff, isEqual_iff.mp hequal]
        exact hne
      simp [Bool.not_eq_true _ ▸ hnot]

/-- A queue pair that is reset loses its completions, and starts again. -/
theorem Inv.reset (h : Inv s q live out) (ha : s.heap a = some p)
    (hroom : (s.fifo.pi - s.fifo.cq.consIndex).toNat < s.fifo.cq.ncqe) {r : System × List Answer}
    (hr : s.reset a p = some r) : ∃ q', Inv r.1 q' live (out ++ r.2) := by
  obtain ⟨⟨fifo, ys⟩, hfifo, rfl⟩ := Option.map_eq_some_iff.mp hr
  obtain ⟨q', hsim, hdv, hown, hothers, hkept⟩ := h.clean hroom hfifo
  refine ⟨q', h.onPair p.initIndices ha rfl hsim (hdv.trans h.dvOwned_eq.symm) hothers
    (fun c hc => .inl (hkept c hc).1) (fun b hb => ?_) ?_ (by simp)⟩
  · rw [history_concat, Answer.record, if_neg hb.symm]
  · rw [history_concat, Answer.record, if_pos rfl]
    exact (h.pairs a p ha).2.initIndices hown

/-- A queue pair leaves with its completions and its number. -/
theorem Inv.remove (h : Inv s q live out) (ha : s.heap a = some p)
    (hroom : (s.fifo.pi - s.fifo.cq.consIndex).toNat < s.fifo.cq.ncqe) {r : System × List Answer}
    (hr : s.remove a p = some r) : ∃ q' live', Inv r.1 q' live' (out ++ r.2) := by
  simp only [System.remove, Option.bind_eq_bind, Option.bind_eq_some_iff] at hr
  obtain ⟨⟨fifo, ys⟩, hfifo, t, ht, hr⟩ := hr
  obtain rfl := Option.some.inj hr
  obtain ⟨hlive, hfollowed⟩ := h.pairs a p ha
  obtain ⟨q', hsim, hdv, -, hothers, hkept⟩ := h.clean hroom hfifo
  have htable : InTable p.rsn.toNat := by
    have hrsn := hfollowed.rsn_lt
    unfold InTable
    omega
  obtain ⟨t', ht', htsim⟩ := h.table.clear htable (by simp [hlive])
  obtain rfl : t = t' := Option.some.inj (ht.symm.trans ht')
  refine ⟨q', Function.update live p.rsn.toNat none, hsim, hdv, htsim, ?_, ?_, ?_, ?_⟩
  · intro n b hb
    by_cases hn : n = p.rsn.toNat
    · subst hn
      rw [Function.update_self] at hb
      cases hb
    · rw [Function.update_of_ne hn] at hb
      obtain ⟨p', hp', hpn⟩ := h.named n b hb
      have hba : b ≠ a := by
        rintro rfl
        obtain rfl : p = p' := Option.some.inj (ha.symm.trans hp')
        exact hn hpn.symm
      exact ⟨p', (System.setPair_ne _ hba _).trans hp', hpn⟩
  · intro b p' hp'
    have hba : b ≠ a := by
      rintro rfl
      rw [System.setPair_self] at hp'
      cases hp'
    have hb : s.heap b = some p' := (System.setPair_ne _ hba _).symm.trans hp'
    obtain ⟨hlive', hfollowed'⟩ := h.pairs b p' hb
    have hrsn : p'.rsn ≠ p.rsn := fun heq => hba (h.rsn_inj hb ha heq)
    rw [Function.update_of_ne fun heq => hrsn (UInt32.toNat_inj.mp heq), history_concat]
    exact ⟨hlive', hfollowed'.congr (hothers _ hrsn)⟩
  · intro c hc
    obtain ⟨hmem, hne⟩ := hkept c hc
    show Function.update live p.rsn.toNat none (key s.v1 c).toNat ≠ none
    rw [Function.update_of_ne fun heq => hne (UInt32.toNat_inj.mp heq)]
    exact h.known c hmem
  · simpa using h.noErr

theorem Inv.step (h : Inv s q live out) {e : Event} (he : Orderly s e) {r : System × List Answer}
    (hr : s.step e = some r) : ∃ q' live', Inv r.1 q' live' (out ++ r.2) := by
  cases e with
  | create a cfg qpNum ring mem =>
    rw [System.step] at hr
    split at hr
    · cases hr
    next ha =>
      obtain ⟨live', h'⟩ := h.create ha he hr
      exact ⟨q, live', h'⟩
  | post a wrs =>
    obtain ⟨q', h'⟩ := h.sendStep (by simp) hr
    exact ⟨q', live, h'⟩
  | execute a o =>
    obtain ⟨q', h'⟩ := h.sendStep (by simp) hr
    exact ⟨q', live, h'⟩
  | recv a e =>
    obtain ⟨q', h'⟩ := h.recvStep (by simp) hr
    exact ⟨q', live, h'⟩
  | deliver a d =>
    obtain ⟨q', h'⟩ := h.recvStep (by simp) hr
    exact ⟨q', live, h'⟩
  | poll ne =>
    obtain ⟨s', xs, q', hpoll, h'⟩ := h.poll ne
    obtain rfl := Option.some.inj (hpoll.symm.trans hr)
    exact ⟨q', live, h'⟩
  | kill a =>
    rw [System.step] at hr
    split at hr
    next p ha =>
      obtain rfl := Option.some.inj hr
      rw [List.append_nil]
      exact ⟨q, live, h.kill ha⟩
    · cases hr
  | reset a =>
    rw [System.step] at hr
    split at hr
    next p ha =>
      split_ifs at hr
      obtain ⟨q', h'⟩ := h.reset ha he hr
      exact ⟨q', live, h'⟩
    · cases hr
  | remove a =>
    rw [System.step] at hr
    split at hr
    next p ha =>
      split_ifs at hr
      exact h.remove ha he hr
    · cases hr

end Invariant

section Runs
variable {v1 : Bool} {logMaxCqSz : Fin 24} {cqe : ℕ} {cq : Cq} {es : List Event} {s : System}
  {out : List Answer}

theorem inv_run (hcq : createCq logMaxCqSz cqe false = some cq)
    (horderly : Meets (next System.step) Orderly (System.init v1 logMaxCqSz cq) es)
    (hrun : exec System.step (System.init v1 logMaxCqSz cq) es = some (s, out)) :
    ∃ q live, Inv s q live out := by
  obtain ⟨-, hsim⟩ := CompletionFifo.createCq_sim hcq
  have hinit : Inv (System.init v1 logMaxCqSz cq)
      (CompletionFifo.Queue.init logMaxCqSz cq.ncqe false) (fun _ => none) [] :=
    ⟨hsim, rfl, sim_empty, by simp, by simp [System.init], by simp [CompletionFifo.Queue.init],
      by simp⟩
  have hinv : ∃ q live, Inv s q live ([] ++ out) :=
    exec_invariant_of_meets (I := fun s out => ∃ q live, Inv s q live out)
      (fun s e out r h he hr => by
        obtain ⟨q, live, h⟩ := h
        exact h.step he hr)
      ⟨_, _, hinit⟩ horderly hrun
  rwa [List.nil_append] at hinv

def smallConfig : Config := ⟨smallContext, smallAttr, {}, ⟨64, 256, 64, by decide⟩, false, 4, 1⟩

/-- Two queue pairs share a ring; one is destroyed with a completion in it, and the next one gets
its number. The other one receives a message that comes with its completion. -/
def handOver : List Event :=
  [.create 1 smallConfig 7 (fun _ => ⟨0, 0, .other, none⟩) true,
    .create 2 smallConfig 8 (fun _ => ⟨0, 0, .other, none⟩) true, .post 1 twoRequests,
    .post 2 twoRequests, .recv 2 (.post [⟨21, [⟨8192, 64, 1⟩], 1, by decide⟩]), .recv 2 .take,
    .execute 1 {}, .execute 1 {}, .execute 2 {}, .execute 2 {},
    .deliver 2 { byteCnt := 10, inlineScatter32 := true }, .kill 1, .remove 1,
    .create 3 smallConfig 9 (fun _ => ⟨0, 0, .other, none⟩) true]

/-- Whatever the queue pairs that share a ring did, polling it is defined and does not fail: no
completion leads to a queue pair that is gone. -/
theorem shared_poll (hcq : createCq logMaxCqSz cqe false = some cq)
    (horderly : Meets (next System.step) Orderly (System.init v1 logMaxCqSz cq) es)
    (hrun : exec System.step (System.init v1 logMaxCqSz cq) es = some (s, out)) (ne : ℕ) :
    .pollErr ∉ out ∧ ∃ s' xs, s.step (.poll ne) = some (s', xs) ∧ .pollErr ∉ xs := by
  obtain ⟨q, live, hinv⟩ := inv_run hcq horderly hrun
  obtain ⟨s', xs, q', hpoll, hinv'⟩ := hinv.poll ne
  exact ⟨hinv.noErr, s', xs, hpoll, fun hmem => hinv'.noErr (List.mem_append_right out hmem)⟩

theorem shared_poll_handOver : ∃ cq s out, createCq 22 3 false = some cq ∧
    Meets (next System.step) Orderly (System.init true 22 cq) handOver ∧
    exec System.step (System.init true 22 cq) handOver = some (s, out) ∧
    .pollErr ∉ out ∧ ∃ s' xs, s.step (.poll 2) = some (s', xs) ∧ .pollErr ∉ xs := by
  have hany : (createCq 22 3 false).any fun cq =>
      decide (Meets (next System.step) Orderly (System.init true 22 cq) handOver) &&
        (exec System.step (System.init true 22 cq) handOver).isSome := by
    decide +kernel
  obtain ⟨cq, hcq, hboth⟩ := (Option.any_eq_true _ _).mp hany
  obtain ⟨horderly, hsome⟩ := Bool.and_eq_true_iff.mp hboth
  obtain ⟨⟨s, out⟩, hrun⟩ := Option.isSome_iff_exists.mp hsome
  have hmeets := of_decide_eq_true horderly
  exact ⟨cq, s, out, hcq, hmeets, hrun, shared_poll hcq hmeets hrun 2⟩

section Drained
variable {p : Pair} {cqes : List Cqe}

/-- What a send queue was told of its requests, with the completions that are still in the ring. -/
theorem SendFollowed.polled_take {hist : List SendRing.Answer} (h : SendFollowed v1 p cqes hist) :
    (SendRing.polled hist).length + cqes.length = (SendRing.reported p.qp hist).length ∧
      List.Forall₂ (SendRing.Reports p.qp) (SendRing.polled hist)
        ((SendRing.reported p.qp hist).take (SendRing.polled hist).length) := by
  obtain ⟨room, cqes', -, ⟨-, pos, retired, done, flight, hledger⟩, rfl⟩ := h
  rw [List.length_map]
  exact hledger.polled_take

theorem RecvFollowed.polled_take {hist : List RecvRing.Answer} (h : RecvFollowed v1 p cqes hist) :
    (RecvRing.polled hist).length + cqes.length = (RecvRing.delivered hist).length ∧
      List.Forall₂ (RecvRing.Reports p.qp.qpNum) (RecvRing.polled hist)
        (((RecvRing.accepted hist).zip (RecvRing.delivered hist)).take
          (RecvRing.polled hist).length) := by
  unfold RecvFollowed at h
  split at h
  · obtain ⟨rfl, haccepted, hdelivered, hpolled⟩ := h
    rw [haccepted, hdelivered, hpolled]
    exact ⟨rfl, .nil⟩
  · obtain ⟨cqes', ⟨line, retired, done, held, hledger⟩, rfl⟩ := h
    rw [List.length_map]
    exact hledger.polled_take

end Drained

/-- Each queue pair gets the completions of its own requests and receives in order, since it was
created or reset, and all of them by the time the ring is empty. -/
theorem shared_completions (hcq : createCq logMaxCqSz cqe false = some cq)
    (horderly : Meets (next System.step) Orderly (System.init v1 logMaxCqSz cq) es)
    (hrun : exec System.step (System.init v1 logMaxCqSz cq) es = some (s, out)) {a : ℕ} {p : Pair}
    (ha : s.heap a = some p) :
    let sent := sends (history a out)
    let received := recvs (history a out)
    List.Forall₂ (SendRing.Reports p.qp) (SendRing.polled sent)
        ((SendRing.reported p.qp sent).take (SendRing.polled sent).length) ∧
      List.Forall₂ (RecvRing.Reports p.qp.qpNum) (RecvRing.polled received)
        (((RecvRing.accepted received).zip (RecvRing.delivered received)).take
          (RecvRing.polled received).length) ∧
      (s.fifo.pi = s.fifo.cq.consIndex →
        (SendRing.polled sent).length = (SendRing.reported p.qp sent).length ∧
          (RecvRing.polled received).length = (RecvRing.delivered received).length) := by
  obtain ⟨q, live, hinv⟩ := inv_run hcq horderly hrun
  obtain ⟨-, hfollowed⟩ := hinv.pairs a p ha
  obtain ⟨hsent, hsends⟩ := hfollowed.send.polled_take
  obtain ⟨hreceived, hrecvs⟩ := hfollowed.recv.polled_take
  refine ⟨hsends, hrecvs, fun hdrained => ?_⟩
  have hpending : q.pending = [] := by
    rw [← List.length_eq_zero_iff, hinv.fifo.length_pending, hdrained, UInt32.sub_self]
    rfl
  rw [hpending] at hsent hreceived
  exact ⟨hsent, hreceived⟩

theorem shared_completions_handOver : ∃ cq s out p, createCq 22 3 false = some cq ∧
    Meets (next System.step) Orderly (System.init true 22 cq) (handOver ++ [.poll 5]) ∧
    exec System.step (System.init true 22 cq) (handOver ++ [.poll 5]) = some (s, out) ∧
    s.heap 2 = some p ∧ (SendRing.polled (sends (history 2 out))).map Wc.wrId = [12] ∧
    (RecvRing.polled (recvs (history 2 out))).map Wc.wrId = [21] ∧ history 3 out = [] ∧
    List.Forall₂ (SendRing.Reports p.qp) (SendRing.polled (sends (history 2 out)))
      ((SendRing.reported p.qp (sends (history 2 out))).take
        (SendRing.polled (sends (history 2 out))).length) ∧
    List.Forall₂ (RecvRing.Reports p.qp.qpNum) (RecvRing.polled (recvs (history 2 out)))
      (((RecvRing.accepted (recvs (history 2 out))).zip
        (RecvRing.delivered (recvs (history 2 out)))).take
          (RecvRing.polled (recvs (history 2 out))).length) := by
  have hany : (createCq 22 3 false).any fun cq =>
      decide (Meets (next System.step) Orderly (System.init true 22 cq) (handOver ++ [.poll 5])) &&
        (exec System.step (System.init true 22 cq) (handOver ++ [.poll 5])).any fun r =>
          decide ((SendRing.polled (sends (history 2 r.2))).map Wc.wrId = [12] ∧
            (RecvRing.polled (recvs (history 2 r.2))).map Wc.wrId = [21] ∧
            (history 3 r.2).length = 0) && (r.1.heap 2).isSome := by
    decide +kernel
  obtain ⟨cq, hcq, hboth⟩ := (Option.any_eq_true _ _).mp hany
  obtain ⟨horderly, hr⟩ := Bool.and_eq_true_iff.mp hboth
  obtain ⟨⟨s, out⟩, hrun, hend⟩ := (Option.any_eq_true _ _).mp hr
  obtain ⟨hids, hsome⟩ := Bool.and_eq_true_iff.mp hend
  obtain ⟨hsent, hreceived, hnone⟩ := of_decide_eq_true hids
  obtain ⟨p, hp⟩ := Option.isSome_iff_exists.mp hsome
  have hmeets := of_decide_eq_true horderly
  obtain ⟨hsends, hrecvs, -⟩ := shared_completions hcq hmeets hrun hp
  exact ⟨cq, s, out, p, hcq, hmeets, hrun, hp, hsent, hreceived,
    List.length_eq_zero_iff.mp hnone, hsends, hrecvs⟩

end Runs

end RdmaperfIso.Mlx5.SharedCq
