import RdmaperfIso.Lib.Reactive
import RdmaperfIso.Mlx5.CompletionQueue

/-! A completion queue is a queue. The device writes completions into the ring while the driver
polls it, drops the completions of a resource and moves to rings of other sizes; whatever the
order of these, the answers are those of a list that the device appends to. -/
namespace RdmaperfIso.Mlx5.CompletionFifo
open FixedWidth OwnerRing Reactive

inductive Event where
  /-- The device writes a completion. -/
  | produce (c : Cqe)
  /-- `mlx5_get_next_cqe`. -/
  | next
  /-- `update_cons_index`. -/
  | publish
  /-- `__mlx5_cq_clean`. -/
  | clean (v1 : Bool) (rsn : UInt32) (hasSrq : Bool)
  /-- `mlx5_resize_cq`. -/
  | resize (cqe : ℤ)

inductive Answer where
  | polled (c : Option Cqe)
  | freed (wqes : List UInt16)
  | resized (ok : Bool)
  deriving DecidableEq, Repr

/-- The queue with the position at which the device writes, and the largest ring that it takes. -/
structure Machine where
  cq : Cq
  pi : UInt32
  logMaxCqSz : Fin 24

namespace Machine
variable (m : Machine)

def init (logMaxCqSz : Fin 24) (cq : Cq) : Machine := ⟨cq, 0, logMaxCqSz⟩

/-- The entries that the device takes for not yet consumed. -/
def outstanding : ℕ := ((m.pi - m.cq.setCi) &&& 0xffffff).toNat

/-- The device writes an entry with the owner bit of its lap. -/
def write (c : Cqe) : Machine where
  cq := { m.cq with
    buf := Function.update m.cq.buf (m.cq.slot m.pi)
      { c with owner := decide (m.pi &&& (m.cq.cqe + 1) ≠ 0) } }
  pi := m.pi + 1
  logMaxCqSz := m.logMaxCqSz

/-- The entry with which the device ends a ring. -/
def endCqe : Cqe := { Cqe.blank with opcode := .resizeCq }

/-- `mlx5_resize_cq`. The device takes the command when the old ring has room for the entry
that ends it, and the new ring for all entries. -/
def resizeCq (cqe : ℤ) : Option (Machine × List Answer) :=
  let resizeCqes := roundupPowOfTwo (cqe.toNat + 1)
  if cqe < 0 ∨ 2 ^ 31 - 1 < cqe * 64 then some (m, [.resized false])
  else if resizeCqes = m.cq.ncqe then some (m, [.resized true])
  else if h : resizeCqes ≤ 2 ^ m.logMaxCqSz.val ∧ m.outstanding < m.cq.ncqe ∧
      m.outstanding < resizeCqes then
    ((m.write endCqe).cq.swapBufs resizeCqes (roundupPowOfTwo_of_le h.1)).map fun cq =>
      ({ m.write endCqe with cq := cq }, [.resized true])
  else some (m, [.resized false])

def step : Event → Option (Machine × List Answer)
  | .produce c =>
    if c.opcode ≠ .invalid ∧ c.opcode ≠ .resizeCq ∧ m.outstanding < m.cq.ncqe then
      some (m.write c, [])
    else none
  | .next =>
    match m.cq.getNextCqe with
    | none => some (m, [.polled none])
    | some (c, cq) => some ({ m with cq := cq }, [.polled (some c.view)])
  | .publish => some ({ m with cq := m.cq.updateConsIndex }, [])
  | .clean v1 rsn hasSrq =>
    (m.cq.clean v1 rsn hasSrq).map fun r => ({ m with cq := r.1 }, [.freed r.2])
  | .resize cqe => m.resizeCq cqe

end Machine

/-- Completions in the order in which they were written. The device counts those that were
polled as well until it is told, and `pos` says where an `int` overflows. -/
structure Queue where
  logMaxCqSz : Fin 24
  ncqe : ℕ
  dvOwned : Bool
  pos : UInt32
  pending : List Cqe
  owed : ℕ
  deriving DecidableEq, Repr

namespace Queue
variable (q : Queue)

def init (logMaxCqSz : Fin 24) (ncqe : ℕ) (dvOwned : Bool) : Queue :=
  ⟨logMaxCqSz, ncqe, dvOwned, 0, [], 0⟩

def outstanding : ℕ := q.pending.length + q.owed

/-- The completions of the resource leave the queue. The sweep does not reach the last entry of
a ring that is full. -/
def clean (v1 : Bool) (rsn : UInt32) (hasSrq : Bool) : Option (Queue × List Answer) :=
  let swept := q.pending.take (q.ncqe - 1)
  let kept := Cq.kept v1 rsn swept
  let out := [.freed (Cq.freed v1 rsn hasSrq swept)]
  if q.dvOwned then some (q, [.freed []])
  else if q.pos.toNat = 2 ^ 31 ∨ Crosses q.pos (swept.length - 1) then none
  else if kept.length = swept.length then some (q, out)
  else
    some ({ q with
      pos := q.pos + UInt32.ofNat (swept.length - kept.length)
      pending := kept ++ q.pending.drop (q.ncqe - 1)
      owed := 0 }, out)

/-- The completions stay, and the entry that ended the old ring is owed. -/
def resize (cqe : ℤ) : Option (Queue × List Answer) :=
  let resizeCqes := roundupPowOfTwo (cqe.toNat + 1)
  if cqe < 0 ∨ 2 ^ 31 - 1 < cqe * 64 then some (q, [.resized false])
  else if resizeCqes = q.ncqe then some (q, [.resized true])
  else if resizeCqes ≤ 2 ^ q.logMaxCqSz.val ∧ q.outstanding < q.ncqe ∧
      q.outstanding < resizeCqes then
    if Crosses q.pos q.pending.length then none
    else some ({ q with ncqe := resizeCqes, pos := q.pos + 1, owed := q.owed + 1 }, [.resized true])
  else some (q, [.resized false])

def step : Event → Option (Queue × List Answer)
  | .produce c =>
    if c.opcode ≠ .invalid ∧ c.opcode ≠ .resizeCq ∧ q.outstanding < q.ncqe then
      some ({ q with pending := q.pending ++ [c.view] }, [])
    else none
  | .next =>
    match q.pending with
    | [] => some (q, [.polled none])
    | c :: pending =>
      some ({ q with pos := q.pos + 1, pending := pending, owed := q.owed + 1 },
        [.polled (some c)])
  | .publish => some ({ q with owed := 0 }, [])
  | .clean v1 rsn hasSrq => q.clean v1 rsn hasSrq
  | .resize cqe => q.resize cqe

end Queue

/-- The ring holds the completions of the queue, and the device is told where the ones that are
owed begin. -/
structure Mirror (m : Machine) (q : Queue) (n : ℕ) : Prop where
  logMaxCqSz_eq : q.logMaxCqSz = m.logMaxCqSz
  ncqe_eq : q.ncqe = m.cq.ncqe
  dvOwned_eq : q.dvOwned = m.cq.dvOwned
  pos_eq : q.pos = m.cq.consIndex
  cons_eq : m.cq.consIndex = UInt32.ofNat (n + q.owed)
  setCi_eq : m.cq.setCi = UInt32.ofNat n &&& 0xffffff
  pi_eq : m.pi = UInt32.ofNat (n + q.owed + q.pending.length)
  holds : m.cq.Holds (n + q.owed) q.pending
  outstanding_le : q.outstanding ≤ m.cq.ncqe
  not_resize : ∀ c ∈ q.pending, c.opcode ≠ .resizeCq

def Sim (m : Machine) (q : Queue) : Prop := ∃ n, Mirror m q n

/-- A sweep that frees nothing leaves the completions as they are. -/
theorem kept_append_drop {ncqe : ℕ} {v1 : Bool} {rsn : UInt32} {xs : List Cqe}
    (h : (Cq.kept v1 rsn (xs.take (ncqe - 1))).length = (xs.take (ncqe - 1)).length) :
    Cq.kept v1 rsn (xs.take (ncqe - 1)) ++ xs.drop (ncqe - 1) = xs := by
  have hsub : (Cq.kept v1 rsn (xs.take (ncqe - 1))).Sublist (xs.take (ncqe - 1)) :=
    List.filter_sublist
  rw [hsub.eq_of_length h, List.take_append_drop]

namespace Mirror
variable {m : Machine} {q : Queue} {n : ℕ} {c : Cqe}

/-- The device counts right, although it is told only 24 bits. -/
theorem outstanding_eq (h : Mirror m q n) : m.outstanding = q.outstanding := by
  have hle := h.outstanding_le.trans m.cq.ncqe_le
  have hmask : (0xffffff : UInt32).toNat = 2 ^ 24 - 1 := rfl
  rw [Machine.outstanding, h.pi_eq, h.setCi_eq, UInt32.toNat_and, hmask,
    Nat.and_two_pow_sub_one_eq_mod, UInt32.toNat_sub, UInt32.toNat_and, hmask,
    Nat.and_two_pow_sub_one_eq_mod, UInt32.toNat_ofNat', UInt32.toNat_ofNat']
  rw [Queue.outstanding] at hle ⊢
  omega

theorem owner_eq (h : Mirror m q n) : decide (m.pi &&& (m.cq.cqe + 1) ≠ 0) =
    lap m.cq.ncqe (n + q.owed + q.pending.length) := by
  rw [h.pi_eq, Cq.and_cqe_succ]

/-- What the device writes is at the end of the list. -/
theorem write_holds (h : Mirror m q n) (hc : c.opcode ≠ .invalid)
    (hlt : q.outstanding < m.cq.ncqe) :
    (m.write c).cq.Holds (n + q.owed) (q.pending ++ [c.view]) := by
  have hlen : q.pending.length < m.cq.ncqe := by
    rw [Queue.outstanding] at hlt
    omega
  have hproduce := h.holds.produce hlen
    (c := { c with owner := decide (m.pi &&& (m.cq.cqe + 1) ≠ 0) })
    (Cqe.mark_eq_some.mpr ⟨hc, h.owner_eq⟩)
  rw [← Cq.slot_ofNat, ← h.pi_eq] at hproduce
  exact hproduce

theorem write_pi (h : Mirror m q n) :
    (m.write c).pi = UInt32.ofNat (n + q.owed + q.pending.length + 1) := by
  rw [ofNat_succ, ← h.pi_eq]
  rfl

theorem produce (h : Mirror m q n) (c : Cqe) :
    Agree Sim (m.step (.produce c)) (q.step (.produce c)) := by
  rw [Machine.step, Queue.step, h.outstanding_eq, ← h.ncqe_eq]
  split_ifs with hc
  · obtain ⟨hvalid, hresize, hlt⟩ := hc
    rw [h.ncqe_eq] at hlt
    refine .some ⟨⟨n, h.logMaxCqSz_eq, h.ncqe_eq, h.dvOwned_eq, h.pos_eq, h.cons_eq, h.setCi_eq, ?_,
      h.write_holds hvalid hlt, ?_, ?_⟩, rfl⟩
    · rw [h.write_pi, List.length_append, List.length_singleton]
      rfl
    · rw [Queue.outstanding, List.length_append, List.length_singleton]
      rw [Queue.outstanding] at hlt
      show q.pending.length + 1 + q.owed ≤ m.cq.ncqe
      omega
    · intro d hd
      rcases List.mem_append.mp hd with hd | hd
      · exact h.not_resize d hd
      · exact List.mem_singleton.mp hd ▸ hresize
  · exact .none

theorem next (h : Mirror m q n) : Agree Sim (m.step .next) (q.step .next) := by
  rw [Machine.step, Queue.step]
  have hholds := h.holds
  cases hq : q.pending with
  | nil =>
    rw [hq] at hholds
    rw [Cq.getNextCqe_nil h.cons_eq hholds]
    exact .some ⟨⟨n, h⟩, rfl⟩
  | cons c pending =>
    rw [hq] at hholds
    obtain ⟨c, rfl, hnext⟩ := Cq.getNextCqe_cons h.cons_eq hholds
    rw [hnext]
    have hle := h.outstanding_le
    have hpi := h.pi_eq
    rw [Queue.outstanding, hq, List.length_cons] at hle
    rw [hq, List.length_cons] at hpi
    refine .some ⟨⟨n, h.logMaxCqSz_eq, h.ncqe_eq, h.dvOwned_eq, ?_, rfl, h.setCi_eq, ?_,
      hholds.consume, ?_, ?_⟩, rfl⟩
    · rw [h.pos_eq, h.cons_eq, ofNat_succ]
    · rw [hpi]
      congr 1
      dsimp only
      omega
    · rw [Queue.outstanding]
      dsimp only
      omega
    · exact fun c' hc' => h.not_resize c' (hq ▸ List.mem_cons_of_mem _ hc')

theorem publish (h : Mirror m q n) : Agree Sim (m.step .publish) (q.step .publish) := by
  have hle := h.outstanding_le
  rw [Queue.outstanding] at hle
  refine .some ⟨⟨n + q.owed, h.logMaxCqSz_eq, h.ncqe_eq, h.dvOwned_eq, h.pos_eq, h.cons_eq, ?_,
    h.pi_eq, h.holds, ?_, h.not_resize⟩, rfl⟩
  · rw [Cq.updateConsIndex, h.cons_eq]
  · exact (Nat.le_add_right _ _).trans hle

theorem clean (h : Mirror m q n) (v1 : Bool) (rsn : UInt32) (hasSrq : Bool) :
    Agree Sim (m.step (.clean v1 rsn hasSrq)) (q.step (.clean v1 rsn hasSrq)) := by
  rw [Machine.step, Queue.step, Queue.clean]
  cases hdv : m.cq.dvOwned with
  | true =>
    rw [Cq.clean, if_pos hdv, if_pos (h.dvOwned_eq.trans hdv)]
    exact .some ⟨⟨n, h⟩, rfl⟩
  | false =>
    rw [if_neg (by simp [h.dvOwned_eq, hdv]), h.pos_eq, h.ncqe_eq]
    by_cases hdef : m.cq.consIndex.toNat = 2 ^ 31 ∨
        Crosses m.cq.consIndex ((q.pending.take (m.cq.ncqe - 1)).length - 1)
    · rw [Cq.clean_undefined h.cons_eq h.holds hdv rfl hdef, if_pos hdef]
      exact .none
    obtain ⟨buf, d, hd, hpending, hclean⟩ :=
      @Cq.clean_eq _ _ _ _ v1 hasSrq rsn h.cons_eq h.holds hdv rfl hdef
    rw [hclean, if_neg hdef]
    by_cases hkept : (Cq.kept v1 rsn (q.pending.take (m.cq.ncqe - 1))).length =
        (q.pending.take (m.cq.ncqe - 1)).length
    · obtain rfl : d = 0 := by omega
      rw [if_pos rfl, if_pos hkept]
      rw [kept_append_drop hkept, add_zero] at hpending
      exact .some ⟨⟨n, h.logMaxCqSz_eq, h.ncqe_eq, h.dvOwned_eq, h.pos_eq, h.cons_eq, h.setCi_eq,
        h.pi_eq, hpending, h.outstanding_le, h.not_resize⟩, rfl⟩
    · rw [if_neg (show d ≠ 0 by omega), if_neg hkept, ← hd, Nat.add_sub_cancel]
      have hle := h.outstanding_le
      have htotal : d + (Cq.kept v1 rsn (q.pending.take (m.cq.ncqe - 1)) ++
          q.pending.drop (m.cq.ncqe - 1)).length = q.pending.length := by
        rw [List.length_append, ← add_assoc, hd, ← List.length_append, List.take_append_drop]
      rw [Queue.outstanding] at hle
      refine .some ⟨⟨n + q.owed + d, h.logMaxCqSz_eq, rfl, h.dvOwned_eq, ?_, rfl, rfl, ?_, hpending,
        ?_, ?_⟩, rfl⟩
      · rw [h.cons_eq, ← UInt32.ofNat_add]
        rfl
      · rw [h.pi_eq, ← htotal, add_zero, add_assoc (n + q.owed)]
      · have hlen : (Cq.kept v1 rsn (q.pending.take (m.cq.ncqe - 1)) ++
            q.pending.drop (m.cq.ncqe - 1)).length ≤ m.cq.ncqe := by omega
        exact hlen
      · intro c hc
        rcases List.mem_append.mp hc with hc | hc
        · exact h.not_resize c (List.mem_of_mem_take (List.mem_of_mem_filter hc))
        · exact h.not_resize c (List.mem_of_mem_drop hc)

theorem resize (h : Mirror m q n) (cqe : ℤ) :
    Agree Sim (m.step (.resize cqe)) (q.step (.resize cqe)) := by
  rw [Machine.step, Queue.step, Machine.resizeCq, Queue.resize]
  by_cases hbad : cqe < 0 ∨ 2 ^ 31 - 1 < cqe * 64
  · rw [if_pos hbad, if_pos hbad]
    exact .some ⟨⟨n, h⟩, rfl⟩
  rw [if_neg hbad, if_neg hbad, h.ncqe_eq]
  by_cases hsame : roundupPowOfTwo (cqe.toNat + 1) = m.cq.ncqe
  · rw [if_pos hsame, if_pos hsame]
    exact .some ⟨⟨n, h⟩, rfl⟩
  rw [if_neg hsame, if_neg hsame]
  rw [h.logMaxCqSz_eq]
  by_cases hfit : roundupPowOfTwo (cqe.toNat + 1) ≤ 2 ^ m.logMaxCqSz.val ∧
      q.outstanding < m.cq.ncqe ∧ q.outstanding < roundupPowOfTwo (cqe.toNat + 1)
  · rw [dif_pos (h.outstanding_eq.symm ▸ hfit), if_pos hfit, h.pos_eq]
    have hholds : (m.write Machine.endCqe).cq.Holds (n + q.owed) (q.pending ++ [_]) :=
      h.write_holds (by decide) hfit.2.1
    have hcons : (m.write Machine.endCqe).cq.consIndex = _ := h.cons_eq
    obtain ⟨hle, hroom, hroom'⟩ := hfit
    rw [Queue.outstanding] at hroom'
    by_cases hdef : Crosses m.cq.consIndex q.pending.length
    · rw [Cq.swapBufs_undefined hcons hholds h.not_resize _ hdef, if_pos hdef]
      exact .none
    · obtain ⟨buf, hbuf, hswap⟩ := Cq.swapBufs_eq hcons hholds rfl h.not_resize
        (roundupPowOfTwo_of_le hle) (by omega) hdef
      rw [hswap, if_neg hdef]
      refine .some ⟨⟨n, rfl, rfl, h.dvOwned_eq, ?_, rfl, h.setCi_eq, ?_, hbuf, ?_, h.not_resize⟩,
        rfl⟩
      · rw [h.cons_eq, ← ofNat_succ]
      · rw [h.write_pi, add_right_comm]
        rfl
      · show q.pending.length + (q.owed + 1) ≤ roundupPowOfTwo (cqe.toNat + 1)
        omega
  · rw [dif_neg (h.outstanding_eq.symm ▸ hfit), if_neg hfit]
    exact .some ⟨⟨n, h⟩, rfl⟩

end Mirror

theorem Sim.step {m : Machine} {q : Queue} (h : Sim m q) (e : Event) :
    Agree Sim (m.step e) (q.step e) := by
  obtain ⟨n, h⟩ := h
  cases e with
  | produce c => exact h.produce c
  | next => exact h.next
  | publish => exact h.publish
  | clean v1 rsn hasSrq => exact h.clean v1 rsn hasSrq
  | resize cqe => exact h.resize cqe

section Creation
variable {logMaxCqSz : Fin 24} {cqe : ℕ} {dvOwned : Bool} {cq : Cq}

/-- A new ring is an empty queue, with one entry more than was asked for. -/
theorem createCq_sim (h : createCq logMaxCqSz cqe dvOwned = some cq) :
    cqe < cq.ncqe ∧
      Sim (Machine.init logMaxCqSz cq) (Queue.init logMaxCqSz cq.ncqe dvOwned) := by
  simp only [createCq] at h
  split_ifs at h
  obtain rfl := Option.some.inj h
  refine ⟨le_roundupPowOfTwo (Nat.succ_pos cqe), 0, rfl, rfl, rfl, rfl, rfl, rfl, rfl, ?_,
    Nat.zero_le _, by simp [Queue.init]⟩
  exact ⟨Nat.zero_le _, by simp [Queue.init],
    fun i _ _ => by simp [Machine.init, Cqe.mark, Cqe.blank]⟩

/-- Whatever the device and the application do, polling, cleaning and resizing answer as for a
list of completions, and have no result at the same point. -/
theorem cq_answers (h : createCq logMaxCqSz cqe dvOwned = some cq) :
    cqe < cq.ncqe ∧
      ∀ es, answers Machine.step (Machine.init logMaxCqSz cq) es =
        answers Queue.step (Queue.init logMaxCqSz cq.ncqe dvOwned) es := by
  obtain ⟨hcqe, hsim⟩ := createCq_sim h
  exact ⟨hcqe, fun es => answers_eq (fun m q e h => h.step e) hsim⟩

/-- A ring of two entries is polled around, cleaned and resized. -/
theorem cq_answers_resize : ∃ cq, createCq 22 1 false = some cq ∧
    answers Machine.step (Machine.init 22 cq)
        [.produce ⟨.req, true, false, false, 7, 0, 3, 0, 0, 0, 0⟩, .next, .next, .publish,
          .produce ⟨.respSend, true, false, false, 9, 5, 4, 0, 0, 0, 0⟩, .resize 3, .publish,
          .produce ⟨.req, false, false, false, 7, 0, 6, 0, 0, 0, 0⟩, .clean false 9 true, .next] =
      some [.polled (some ⟨.req, false, false, false, 7, 0, 3, 0, 0, 0, 0⟩), .polled none,
        .resized true, .freed [4],
        .polled (some ⟨.req, false, false, false, 7, 0, 6, 0, 0, 0, 0⟩)] := by
  refine ⟨_, rfl, ?_⟩
  rw [(@cq_answers 22 1 false _ rfl).2]
  decide

end Creation

section Cleaning
variable {logMaxCqSz : Fin 24} {cqe : ℕ} {dvOwned : Bool} {cq : Cq} {m m' m'' : Machine}
  {q : Queue} {es es' : List Event} {out out' out'' : List Answer} {v1 hasSrq : Bool} {rsn : UInt32}

/-- No completion of the resource is in the queue, or was polled. -/
def Queue.Cleaned (v1 : Bool) (rsn : UInt32) (q : Queue) (out : List Answer) : Prop :=
  (∀ c ∈ q.pending, c.isEqual v1 rsn = false) ∧
    ∀ c, Answer.polled (some c) ∈ out → c.isEqual v1 rsn = false

theorem Queue.clean_subset {r : Queue × List Answer} (hr : q.clean v1 rsn hasSrq = some r) :
    r.1.pending ⊆ q.pending ∧ ∃ wqes, r.2 = [.freed wqes] := by
  rw [Queue.clean] at hr
  split_ifs at hr
  · obtain rfl := Option.some.inj hr
    exact ⟨List.Subset.refl _, _, rfl⟩
  · obtain rfl := Option.some.inj hr
    exact ⟨List.Subset.refl _, _, rfl⟩
  · obtain rfl := Option.some.inj hr
    refine ⟨List.append_subset.mpr ⟨?_, List.drop_subset _ _⟩, _, rfl⟩
    exact List.Subset.trans (List.filter_subset_self _) (List.take_subset _ _)

theorem Queue.resize_pending {cqe : ℤ} {r : Queue × List Answer} (hr : q.resize cqe = some r) :
    r.1.pending = q.pending ∧ ∃ ok, r.2 = [.resized ok] := by
  rw [Queue.resize] at hr
  split_ifs at hr <;> obtain rfl := Option.some.inj hr <;> exact ⟨rfl, _, rfl⟩

theorem Queue.cleaned_step {e : Event} {r : Queue × List Answer} (h : q.Cleaned v1 rsn out)
    (he : ∀ c, e = .produce c → c.isEqual v1 rsn = false) (hr : q.step e = some r) :
    r.1.Cleaned v1 rsn (out ++ r.2) := by
  obtain ⟨hpending, hout⟩ := h
  cases e with
  | produce c =>
    rw [Queue.step] at hr
    split_ifs at hr
    obtain rfl := Option.some.inj hr
    refine ⟨fun d hd => ?_, by simpa using hout⟩
    rcases List.mem_append.mp hd with hd | hd
    · exact hpending d hd
    · rw [List.mem_singleton.mp hd, Cqe.isEqual_view]
      exact he c rfl
  | next =>
    rw [Queue.step] at hr
    cases hq : q.pending with
    | nil =>
      rw [hq] at hr
      obtain rfl := Option.some.inj hr
      exact ⟨hpending, by simpa using hout⟩
    | cons c pending =>
      rw [hq] at hr hpending
      obtain rfl := Option.some.inj hr
      refine ⟨fun d hd => hpending d (List.mem_cons_of_mem c hd), fun d hd => ?_⟩
      rcases List.mem_append.mp hd with hd | hd
      · exact hout d hd
      · obtain rfl : d = c := by simpa using hd
        exact hpending d List.mem_cons_self
  | publish =>
    obtain rfl := Option.some.inj hr
    exact ⟨hpending, by simpa using hout⟩
  | clean v1' rsn' hasSrq =>
    obtain ⟨hsub, wqes, hwqes⟩ := Queue.clean_subset hr
    exact ⟨fun d hd => hpending d (hsub hd), by simpa [hwqes] using hout⟩
  | resize cqe =>
    obtain ⟨hsame, ok, hok⟩ := Queue.resize_pending hr
    exact ⟨hsame ▸ hpending, by simpa [hok] using hout⟩

/-- A ring that is not full is cleaned. -/
theorem Queue.clean_pending {r : Queue × List Answer} (hdv : q.dvOwned = false)
    (hlt : q.pending.length < q.ncqe) (hr : q.clean v1 rsn hasSrq = some r) :
    r.1.pending = Cq.kept v1 rsn q.pending ∧ r.1.ncqe = q.ncqe ∧ r.1.dvOwned = false := by
  have htake : q.pending.take (q.ncqe - 1) = q.pending := List.take_of_length_le (by omega)
  have hdrop : q.pending.drop (q.ncqe - 1) = [] := List.drop_of_length_le (by omega)
  rw [Queue.clean, if_neg (by simp [hdv]), htake, hdrop, List.append_nil] at hr
  split_ifs at hr with hdef hlen
  · obtain rfl := Option.some.inj hr
    have hsub : (Cq.kept v1 rsn q.pending).Sublist q.pending := List.filter_sublist
    exact ⟨(hsub.eq_of_length hlen).symm, rfl, hdv⟩
  · obtain rfl := Option.some.inj hr
    exact ⟨rfl, rfl, hdv⟩

theorem Sim.length_pending (h : Sim m q) :
    q.pending.length = (m.pi - m.cq.consIndex).toNat := by
  obtain ⟨n, h⟩ := h
  have hle := h.holds.length_le.trans m.cq.ncqe_le
  rw [h.pi_eq, h.cons_eq, UInt32.ofNat_add, UInt32.add_comm, UInt32.add_sub_cancel,
    UInt32.toNat_ofNat', Nat.mod_eq_of_lt (by omega)]

/-- After a resource was cleaned from a ring that was not full, polling never gives one of its
completions, unless the device writes new ones. -/
theorem polled_after_clean (h : createCq logMaxCqSz cqe dvOwned = some cq)
    (hrun : exec Machine.step (Machine.init logMaxCqSz cq) es = some (m, out))
    (hdv : m.cq.dvOwned = false) (hfull : (m.pi - m.cq.consIndex).toNat < m.cq.ncqe)
    (hclean : m.step (.clean v1 rsn hasSrq) = some (m', out'))
    (hrun' : exec Machine.step m' es' = some (m'', out''))
    (hes' : ∀ c, .produce c ∈ es' → c.isEqual v1 rsn = false) :
    ∀ c, .polled (some c) ∈ out'' → c.isEqual v1 rsn = false := by
  obtain ⟨-, hinit⟩ := createCq_sim h
  obtain ⟨q, hq, hsim⟩ := exec_simulates (fun m q e h => h.step e) hinit hrun
  have hagree : Agree Sim (some (m', out')) (q.clean v1 rsn hasSrq) := hclean ▸ hsim.step _
  obtain ⟨q', hq', hsim'⟩ := hagree.matched
  obtain ⟨q'', hq'', -⟩ := exec_simulates (fun m q e h => h.step e) hsim' hrun'
  obtain ⟨n, hmirror⟩ := id hsim
  have hcleaned : q'.Cleaned v1 rsn [] := by
    have hlt : q.pending.length < q.ncqe := by rwa [hsim.length_pending, hmirror.ncqe_eq]
    obtain ⟨hpending, -⟩ := Queue.clean_pending (hmirror.dvOwned_eq.trans hdv) hlt hq'
    refine ⟨fun c hc => ?_, by simp⟩
    rw [hpending] at hc
    simpa using List.of_mem_filter hc
  have hend : q''.Cleaned v1 rsn ([] ++ out'') :=
    exec_invariant (fun e he q out r h hr => Queue.cleaned_step h
      (fun c hc => hes' c (hc ▸ he)) hr) hcleaned hq''
  exact hend.2

/-- Of two completions, the one of the resource is dropped and the other polled. -/
theorem polled_after_clean_next : ∃ cq m m' m'' c, createCq 22 3 false = some cq ∧
    exec Machine.step (Machine.init 22 cq)
        [.produce ⟨.respSend, true, false, false, 9, 5, 4, 0, 0, 0, 0⟩,
          .produce ⟨.req, false, false, false, 7, 0, 6, 0, 0, 0, 0⟩] = some (m, []) ∧
    m.step (.clean false 9 true) = some (m', [.freed [4]]) ∧
    exec Machine.step m' [.next] = some (m'', [.polled (some c)]) ∧
    c.isEqual false 9 = false := by
  obtain ⟨cq, m, m', m'', c, hcq, hm, hdv, hfull, hm', hm''⟩ :
      ∃ cq m m' m'' c, createCq 22 3 false = some cq ∧
        exec Machine.step (Machine.init 22 cq)
            [.produce ⟨.respSend, true, false, false, 9, 5, 4, 0, 0, 0, 0⟩,
              .produce ⟨.req, false, false, false, 7, 0, 6, 0, 0, 0, 0⟩] = some (m, []) ∧
        m.cq.dvOwned = false ∧ (m.pi - m.cq.consIndex).toNat < m.cq.ncqe ∧
        m.step (.clean false 9 true) = some (m', [.freed [4]]) ∧
        exec Machine.step m' [.next] = some (m'', [.polled (some c)]) :=
    ⟨_, _, _, _, _, rfl, rfl, rfl, by decide, rfl, rfl⟩
  exact ⟨cq, m, m', m'', c, hcq, hm, hm', hm'',
    polled_after_clean hcq hm hdv hfull hm' hm'' (by simp) c (by simp)⟩

end Cleaning
end RdmaperfIso.Mlx5.CompletionFifo
