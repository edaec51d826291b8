import RdmaperfIso.Lib.Links
import RdmaperfIso.Lib.Outcome
import RdmaperfIso.Mlx5.Wqe
import RdmaperfIso.Verbs.WorkRequest

/-! Shared receive queues. The entries of the buffer are linked by their indices. The driver
posts from the head of the list of free entries and returns entries at its tail; the device
follows the same links. An entry that met a page fault rests in a wait queue, and its request
is posted again. -/
namespace RdmaperfIso.Mlx5
open Links Outcome

/-- `MLX5_INVALID_LKEY`, which ends a scatter list. -/
def invalidLkey : UInt32 := 0x100

/-- An entry of the buffer is its link and its scatter list. The wait queue is given by the
indices of its ends, if there is one. -/
structure Srq where
  next : ℕ → UInt16
  scat : ℕ → ℕ → Sge
  wrid : ℕ → UInt64
  max : ℕ
  maxGs : ℕ
  head : ℕ
  tail : ℕ
  waitq : Option (ℕ × ℕ)
  counter : UInt16
  db : UInt32

namespace Srq

def setNext (s : Srq) (i ind : ℕ) : Srq :=
  { s with next := Function.update s.next i (UInt16.ofNat ind) }

/-- `mlx5_free_srq_wqe`. There is no result when an access leaves the buffer. -/
def freeSrqWqe (s : Srq) (ind : ℕ) : Option Srq :=
  if s.tail < s.max then some { s.setNext s.tail ind with tail := ind } else none

/-- `srq_put_in_waitq`. -/
def putInWaitq (s : Srq) (w : ℕ × ℕ) (ind : ℕ) : Option Srq :=
  if w.2 < s.max then some { s.setNext w.2 ind with waitq := some (w.1, ind) } else none

/-- `srq_get_from_waitq`. -/
def getFromWaitq (s : Srq) (w : ℕ × ℕ) : Option Srq :=
  if s.tail < s.max ∧ w.1 < s.max then
    let s := s.setNext s.tail w.1
    some { s with tail := w.1, waitq := some ((s.next w.1).toNat, w.2) }
  else none

/-- `srq_cooldown_wqe`. -/
def cooldownWqe (s : Srq) (ind : ℕ) : Option (Bool × Srq) :=
  match s.waitq with
  | none => some (false, s)
  | some w => do
    let s ← s.putInWaitq w ind
    let s ← s.getFromWaitq (w.1, ind)
    some (true, s)

/-- The copy loop of `srq_repost`, which stops after the end of the list. -/
def copyScat (src : ℕ → Sge) : (dst : ℕ → Sge) → (i left : ℕ) → ℕ → Sge
  | dst, _, 0 => dst
  | dst, i, left + 1 =>
    let dst := Function.update dst i (src i)
    if (src i).lkey = invalidLkey then dst else copyScat src dst (i + 1) left

/-- `srq_repost`. -/
def repost (s : Srq) (ind : ℕ) : Option Srq :=
  if ind < s.max ∧ s.head < s.max then
    some
      { s with
        wrid := Function.update s.wrid s.head (s.wrid ind)
        scat := Function.update s.scat s.head (copyScat (s.scat ind) (s.scat s.head) 0 s.maxGs)
        head := (s.next s.head).toNat
        counter := s.counter + 1
        db := (s.counter + 1).toUInt32 }
  else none

/-- The first half of `mlx5_complete_odp_fault`. Without a wait queue the entry goes to the
tail. -/
def setAside (s : Srq) (ind : ℕ) : Option Srq := do
  let r ← s.cooldownWqe ind
  if r.1 then some r.2 else r.2.freeSrqWqe ind

/-- `mlx5_complete_odp_fault`. -/
def completeOdpFault (s : Srq) (ind : ℕ) : Option Srq := do
  let s ← s.setAside ind
  s.repost ind

/-- The scatter list of a posted request, and its end if there is room for one. -/
def writeScat (maxGs : ℕ) (sges : List Sge) (dst : ℕ → Sge) : ℕ → Sge :=
  let dst := fun j => (sges[j]?).getD (dst j)
  if sges.length < maxGs then Function.update dst sges.length ⟨0, 0, invalidLkey⟩ else dst

/-- The entry at the head gets the request. -/
def fill (s : Srq) (wr : RecvWr) : Srq :=
  { s with
    wrid := Function.update s.wrid s.head wr.wrId
    scat := Function.update s.scat s.head (writeScat s.maxGs wr.sges (s.scat s.head))
    head := (s.next s.head).toNat }

/-- One iteration of the loop of `mlx5_post_srq_recv`. -/
def postOne (s : Srq) (wr : RecvWr) : Outcome Errno Srq := do
  check (wr.numSge ≤ s.maxGs) .einval
  check (s.head ≠ s.tail) .enomem
  require (s.head < s.max)
  pure (s.fill wr)

/-- The requests that were accepted, and the error at the next one. -/
structure Receipt where
  nreq : ℕ
  err : Option Errno
  deriving DecidableEq, Repr

def postLoop : Srq → ℕ → List RecvWr → Option (Srq × Receipt)
  | s, nreq, [] => some (s, ⟨nreq, none⟩)
  | s, nreq, wr :: wrs =>
    match s.postOne wr with
    | ok s => postLoop s (nreq + 1) wrs
    | error e => some (s, ⟨nreq, some e⟩)
    | undefined => none

/-- `mlx5_post_srq_recv`. -/
def postSrqRecv (s : Srq) (wrs : List RecvWr) : Option (Srq × Receipt) := do
  let (s, receipt) ← postLoop s 0 wrs
  if receipt.nreq = 0 then some (s, receipt)
  else
    let counter := s.counter + UInt16.ofNat receipt.nreq
    some ({ s with counter := counter, db := counter.toUInt32 }, receipt)

/-- `set_srq_buf_ll`. -/
def setSrqBufLl (next : ℕ → UInt16) (first last : ℕ) : ℕ → UInt16 :=
  fun i => if first ≤ i ∧ i < last then UInt16.ofNat (i + 1) else next i

/-- Limits that the device reports. -/
structure Limits where
  maxSrqRecvWr : ℕ
  maxRecvWr : ℕ
  maxRqDescSz : ℕ
  maxSrqRecvWr_le : maxSrqRecvWr ≤ 2 ^ 15

/-- `mlx5_alloc_srq_buf`, on a buffer that is filled with zeroes. The wait queue takes as many
entries as the application may post, where the device has that many. -/
def allocSrqBuf (lim : Limits) (maxGs maxWr : ℕ) : Option Srq :=
  let haveWq := 2 * maxWr + 1 ≤ lim.maxSrqRecvWr
  let size := roundupPowOfTwo (Max.max 32 (16 + maxGs * 16))
  if lim.maxRecvWr < size then none
  else
    let max := roundupPowOfTwo (if haveWq then 2 * maxWr + 1 else maxWr + 1)
    let tail := roundupPowOfTwo (maxWr + 1) - 1
    let next := setSrqBufLl (fun _ => 0) 0 tail
    some
      { next := if haveWq then setSrqBufLl next (tail + 1) (max - 1) else next
        scat := fun _ _ => ⟨0, 0, 0⟩
        wrid := fun _ => 0
        max := max
        maxGs := (size - 16) / 16
        head := 0
        tail := tail
        waitq := if haveWq then some (tail + 1, max - 1) else none
        counter := 0
        db := 0 }

/-- The checks of `mlx5_create_srq`. The number of entries that it reports is the tail. -/
def createSrq (lim : Limits) (maxWr maxSge : ℕ) : Option Srq :=
  if lim.maxSrqRecvWr < maxWr then none
  else if lim.maxRqDescSz / 16 < maxSge then none
  else allocSrqBuf lim maxSge maxWr

/-- A receive request as the device and the application see it. -/
structure Recv where
  wrId : UInt64
  sges : List Sge
  deriving DecidableEq, Repr

/-- The list in front of the first key that ends it. -/
def validSges (sges : List Sge) : List Sge := sges.takeWhile fun s => s.lkey ≠ invalidLkey

/-- The scatter list that the device reads in an entry. -/
def scatterList (maxGs : ℕ) (scat : ℕ → Sge) : List Sge :=
  validSges ((List.range maxGs).map scat)

def content (s : Srq) (i : ℕ) : Recv := ⟨s.wrid i, scatterList s.maxGs (s.scat i)⟩

def link (s : Srq) (i : ℕ) : ℕ := (s.next i).toNat

section Scatter
variable {maxGs : ℕ} {f g : ℕ → Sge}

theorem validSges_append_end (sges rest : List Sge) :
    validSges (sges ++ ⟨0, 0, invalidLkey⟩ :: rest) = validSges sges := by
  induction sges with
  | nil => simp [validSges]
  | cons s sges ih =>
    by_cases hs : s.lkey = invalidLkey
    · simp [validSges, hs]
    · simpa [validSges, hs] using ih

/-- The first entries of the buffer are those of the request. -/
theorem map_range_writeScat (sges : List Sge) :
    (List.range sges.length).map (writeScat maxGs sges f) = sges := by
  refine List.ext_getElem (by simp) fun i hi _ => ?_
  have hlen : i < sges.length := by simpa using hi
  simp only [List.getElem_map, List.getElem_range, writeScat]
  split
  · rw [Function.update_of_ne (by omega)]
    simp [hlen]
  · simp [hlen]

theorem scatterList_writeScat {sges : List Sge} (h : sges.length ≤ maxGs) :
    scatterList maxGs (writeScat maxGs sges f) = validSges sges := by
  obtain ⟨n, rfl⟩ := Nat.exists_eq_add_of_le h
  rw [scatterList, List.range_add, List.map_append, map_range_writeScat]
  cases n with
  | zero => simp
  | succ n =>
    have hend : writeScat (sges.length + (n + 1)) sges f sges.length = ⟨0, 0, invalidLkey⟩ := by
      simp [writeScat]
    rw [List.range_succ_eq_map, List.map_cons, List.map_cons, add_zero, hend]
    exact validSges_append_end _ _

/-- The copy loop, from an entry on: up to the end of the list it copies, and it does not
write in front of it. -/
theorem validSges_copyScat (i left : ℕ) :
    validSges ((List.range' i left).map (copyScat f g i left)) =
        validSges ((List.range' i left).map f) ∧
      ∀ j < i, copyScat f g i left j = g j := by
  induction left generalizing g i with
  | zero => simp [copyScat]
  | succ left ih =>
    obtain ⟨hlist, hbefore⟩ := ih (g := Function.update g i (f i)) (i + 1)
    simp only [copyScat, List.range'_succ, List.map_cons]
    split_ifs with hend
    · refine ⟨?_, fun j hj => Function.update_of_ne (by omega) ..⟩
      simp [validSges, hend]
    · have hi : copyScat f (Function.update g i (f i)) (i + 1) left i = f i := by
        rw [hbefore i (by omega), Function.update_self]
      refine ⟨?_, fun j hj => ?_⟩
      · simp only [validSges] at hlist ⊢
        rw [List.takeWhile_cons, List.takeWhile_cons, hi, hlist]
      · rw [hbefore j (by omega), Function.update_of_ne (by omega)]

theorem scatterList_copyScat : scatterList maxGs (copyScat f g 0 maxGs) = scatterList maxGs f := by
  simpa [scatterList, List.range_eq_range'] using (validSges_copyScat (f := f) (g := g) 0 maxGs).1

end Scatter

section Lists
variable {s s' : Srq} {posted free resting busy busy' : List ℕ} {i t b : ℕ} {w : ℕ × ℕ}
  {link : ℕ → ℕ} {waitq : Option (ℕ × ℕ)}

/-- The wait queue between the two indices is the linked list. -/
def WaitqIs (link : ℕ → ℕ) (waitq : Option (ℕ × ℕ)) (resting : List ℕ) : Prop :=
  match waitq with
  | none => resting = []
  | some w => resting.head? = some w.1 ∧ resting.getLast? = some w.2 ∧ Linked link resting

theorem WaitqIs.update (h : WaitqIs link waitq resting) (ht : t ∉ resting) :
    WaitqIs (Function.update link t b) waitq resting := by
  cases waitq with
  | none => exact h
  | some w => exact ⟨h.1, h.2.1, h.2.2.update ht⟩

/-- Every entry of the buffer is posted, free, resting or in the hands of the device. -/
structure Lists (s : Srq) (posted free resting busy : List ℕ) : Prop where
  linked : Linked s.link (posted ++ free)
  head_eq : free.head? = some s.head
  tail_eq : free.getLast? = some s.tail
  waitq : WaitqIs s.link s.waitq resting
  perm : (posted ++ free ++ resting ++ busy).Perm (List.range s.max)
  max_le : s.max ≤ 2 ^ 16

namespace Lists

theorem lt (h : s.Lists posted free resting busy)
    (hi : i ∈ posted ++ free ++ resting ++ busy) : i < s.max :=
  List.mem_range.mp (h.perm.mem_iff.mp hi)

theorem nodup (h : s.Lists posted free resting busy) :
    (posted ++ free ++ resting ++ busy).Nodup :=
  h.perm.nodup_iff.mpr List.nodup_range

theorem perm_busy (h : s.Lists posted free resting busy) (hp : busy.Perm busy') :
    s.Lists posted free resting busy' :=
  { h with perm := (List.Perm.append_left _ hp).symm.trans h.perm }

theorem tail_mem (h : s.Lists posted free resting busy) : s.tail ∈ free :=
  List.mem_of_getLast? h.tail_eq

theorem head_mem (h : s.Lists posted free resting busy) : s.head ∈ free :=
  List.mem_of_head? h.head_eq

theorem getLast?_eq (h : s.Lists posted free resting busy) :
    (posted ++ free).getLast? = some s.tail := by
  rw [List.getLast?_append, h.tail_eq]
  rfl

theorem tail_notMem (h : s.Lists posted free resting busy) : s.tail ∉ resting := by
  have hnodup : (free ++ resting).Nodup := h.nodup.sublist (by simp)
  exact List.disjoint_of_nodup_append hnodup h.tail_mem

/-- The driver takes the list for empty when one entry is left. -/
theorem head_eq_tail_iff (h : s.Lists posted free resting busy) :
    s.head = s.tail ↔ free.length = 1 := by
  obtain ⟨l, rfl⟩ : ∃ l, free = s.head :: l := ⟨_, List.eq_cons_of_mem_head? h.head_eq⟩
  have htail := h.tail_eq
  have hnodup : (s.head :: l).Nodup := h.nodup.sublist (by simp)
  cases l with
  | nil => simpa using htail
  | cons a l =>
    rw [List.getLast?_cons_cons] at htail
    have hmem := List.mem_of_getLast? htail
    simp only [List.length_cons]
    constructor
    · intro heq
      exact absurd (heq ▸ hmem) (List.nodup_cons.mp hnodup).1
    · omega

end Lists

/-- Only links have changed, and the tail and the wait queue with them. -/
structure SameContents (s s' : Srq) : Prop where
  scat : s'.scat = s.scat
  wrid : s'.wrid = s.wrid
  max : s'.max = s.max
  maxGs : s'.maxGs = s.maxGs
  head : s'.head = s.head
  counter : s'.counter = s.counter
  db : s'.db = s.db

theorem SameContents.trans {t : Srq} (h : s.SameContents t) (h' : t.SameContents s') :
    s.SameContents s' :=
  ⟨h'.scat.trans h.scat, h'.wrid.trans h.wrid, h'.max.trans h.max, h'.maxGs.trans h.maxGs,
    h'.head.trans h.head, h'.counter.trans h.counter, h'.db.trans h.db⟩

theorem SameContents.content (h : s.SameContents s') : s'.content = s.content := by
  funext j
  rw [Srq.content, Srq.content, h.scat, h.wrid, h.maxGs]

/-- The request has been written into the entry at the head. -/
structure Fills (s s' : Srq) (r : Recv) : Prop where
  filled : s'.content s.head = r
  others : ∀ j ≠ s.head, s'.content j = s.content j
  max : s'.max = s.max
  maxGs : s'.maxGs = s.maxGs

theorem link_setNext (s : Srq) {ind : ℕ} (t : ℕ) (h : ind < 2 ^ 16) :
    (s.setNext t ind).link = Function.update s.link t ind := by
  funext j
  by_cases hj : j = t
  · subst hj
    simpa [Srq.link, setNext] using Nat.mod_eq_of_lt h
  · simp [Srq.link, setNext, hj]

/-- An entry that the device has finished goes to the tail. -/
theorem Lists.freeSrqWqe (h : s.Lists posted free resting (i :: busy)) :
    ∃ s', s.freeSrqWqe i = some s' ∧ s.SameContents s' ∧
      s'.Lists posted (free ++ [i]) resting busy := by
  have hlt : s.tail < s.max := h.lt (by simp [h.tail_mem])
  have hi : i < 2 ^ 16 := lt_of_lt_of_le (h.lt (by simp)) h.max_le
  have hnodup : (posted ++ free).Nodup := h.nodup.sublist (by simp)
  have hlink : Srq.link { s.setNext s.tail i with tail := i } =
      Function.update s.link s.tail i := link_setNext s s.tail hi
  refine ⟨_, if_pos hlt,
    ⟨rfl, rfl, rfl, rfl, rfl, rfl, rfl⟩, ?_, ?_, by simp, ?_, ?_, h.max_le⟩
  · rw [hlink, ← List.append_assoc]
    exact h.linked.append hnodup h.getLast?_eq i
  · rw [List.head?_append, h.head_eq]
    rfl
  · rw [hlink]
    exact h.waitq.update h.tail_notMem
  · refine List.Perm.trans ?_ h.perm
    rw [List.perm_iff_count]
    intro a
    simp only [List.count_append, List.count_cons, List.count_nil]
    omega

/-- The entry joins the wait queue. -/
theorem Lists.putInWaitq (h : s.Lists posted free resting (i :: busy)) (hw : s.waitq = some w) :
    ∃ s', s.putInWaitq w i = some s' ∧ s.SameContents s' ∧ s'.waitq = some (w.1, i) ∧
      s'.Lists posted free (resting ++ [i]) busy := by
  have hwait := h.waitq
  rw [hw] at hwait
  obtain ⟨hhead, hlast, hlinked⟩ := hwait
  have hmem : w.2 ∈ resting := List.mem_of_getLast? hlast
  have hlt : w.2 < s.max := h.lt (by simp [hmem])
  have hi : i < 2 ^ 16 := lt_of_lt_of_le (h.lt (by simp)) h.max_le
  have hnodup : (posted ++ free ++ resting).Nodup := h.nodup.sublist (by simp)
  have hlink : Srq.link { s.setNext w.2 i with waitq := some (w.1, i) } =
      Function.update s.link w.2 i := link_setNext s w.2 hi
  refine ⟨_, if_pos hlt,
    ⟨rfl, rfl, rfl, rfl, rfl, rfl, rfl⟩, rfl, ?_, h.head_eq, h.tail_eq, ?_, ?_, h.max_le⟩
  · rw [hlink]
    exact h.linked.update fun hin => List.disjoint_of_nodup_append hnodup hin hmem
  · rw [hlink]
    refine ⟨?_, by simp, hlinked.append (hnodup.sublist (by simp)) hlast i⟩
    rw [List.head?_append, hhead]
    rfl
  · simpa [setNext] using h.perm

/-- The oldest entry of the wait queue goes to the tail. -/
theorem Lists.getFromWaitq (h : s.Lists posted free (i :: resting) busy) (hne : resting ≠ [])
    (hw : s.waitq = some w) :
    ∃ s', s.getFromWaitq w = some s' ∧ s.SameContents s' ∧
      s'.Lists posted (free ++ [i]) resting busy := by
  have hwait := h.waitq
  rw [hw] at hwait
  obtain ⟨hhead, hlast, hlinked⟩ := hwait
  obtain rfl : i = w.1 := by simpa using hhead
  have htail : s.tail < s.max := h.lt (by simp [h.tail_mem])
  have hlt : w.1 < s.max := h.lt (by simp)
  have hnodup : (posted ++ free).Nodup := h.nodup.sublist (by simp)
  have hlink := link_setNext s s.tail (lt_of_lt_of_le hlt h.max_le)
  obtain ⟨hne', hnot⟩ : w.1 ≠ s.tail ∧ s.tail ∉ resting := by
    have hnot := h.tail_notMem
    simp only [List.mem_cons, not_or] at hnot
    exact ⟨fun he => hnot.1 he.symm, hnot.2⟩
  let t := s.setNext s.tail w.1
  refine ⟨_, if_pos ⟨htail, hlt⟩, ⟨rfl, rfl, rfl, rfl, rfl, rfl, rfl⟩, ?_, ?_, by simp, ?_, ?_,
    h.max_le⟩
  · rw [← List.append_assoc]
    show Linked t.link _
    rw [hlink]
    exact h.linked.append hnodup h.getLast?_eq w.1
  · rw [List.head?_append, h.head_eq]
    rfl
  · -- The link of the entry is read after the tail has been written, which is another entry.
    have hkeep : t.link w.1 = s.link w.1 := by
      rw [hlink, Function.update_of_ne hne']
    refine ⟨?_, ?_, ?_⟩
    · show resting.head? = some (t.link w.1)
      rw [hkeep]
      exact hlinked.head?_tail hne
    · rw [← hlast]
      exact (List.getLast?_cons_of_ne_nil hne).symm
    · show Linked t.link resting
      rw [hlink]
      exact hlinked.tail.update hnot
  · simpa [t, setNext] using h.perm

/-- Advancing the head moves a free entry to the posted ones. -/
theorem Lists.advance (h : s.Lists posted free resting busy) (hne : s.head ≠ s.tail)
    (hnext : s'.next = s.next) (hmax : s'.max = s.max) (htail : s'.tail = s.tail)
    (hwaitq : s'.waitq = s.waitq) (hhead : s'.head = s.link s.head) :
    s'.Lists (posted ++ [s.head]) free.tail resting busy := by
  have hlink : s'.link = s.link := by
    funext j
    rw [Srq.link, hnext, Srq.link]
  obtain ⟨free, rfl⟩ : ∃ l, free = s.head :: l := ⟨_, List.eq_cons_of_mem_head? h.head_eq⟩
  have hne' : free ≠ [] := by
    rintro rfl
    exact hne (by simpa using h.tail_eq)
  rw [List.tail_cons]
  refine ⟨?_, ?_, ?_, ?_, ?_, hmax ▸ h.max_le⟩
  · rw [hlink, List.append_assoc]
    exact h.linked
  · rw [hhead]
    exact h.linked.right.head?_tail hne'
  · rw [htail, ← h.tail_eq]
    exact (List.getLast?_cons_of_ne_nil hne').symm
  · rw [hlink, hwaitq]
    exact h.waitq
  · rw [hmax]
    simpa using h.perm

/-- An entry that rested long enough takes the place of the one that met a page fault. -/
theorem Lists.cooldownWqe (h : s.Lists posted free resting (i :: busy)) (hw : s.waitq = some w) :
    ∃ s', s.cooldownWqe i = some (true, s') ∧ s.SameContents s' ∧
      s'.Lists posted (free ++ [w.1]) (resting.tail ++ [i]) busy := by
  obtain ⟨t, ht, hsame, hwt, hlists⟩ := h.putInWaitq hw
  have hhead : resting.head? = some w.1 := by
    have hwait := h.waitq
    rw [hw] at hwait
    exact hwait.1
  obtain ⟨rest, rfl⟩ : ∃ l, resting = w.1 :: l := ⟨_, List.eq_cons_of_mem_head? hhead⟩
  obtain ⟨s', hs', hsame', hlists'⟩ := hlists.getFromWaitq (by simp) hwt
  exact ⟨s', by simp [Srq.cooldownWqe, hw, ht, hs'], hsame.trans hsame', hlists'⟩

/-- The entry is put aside, at the tail if there is no wait queue, and another one is free. -/
theorem Lists.setAside (h : s.Lists posted free resting (i :: busy)) :
    ∃ s' j resting', s.setAside i = some s' ∧ s.SameContents s' ∧
      s'.Lists posted (free ++ [j]) resting' busy ∧ resting'.length = resting.length := by
  cases hw : s.waitq with
  | none =>
    obtain ⟨s', hs', hsame, hlists⟩ := h.freeSrqWqe
    exact ⟨s', i, resting, by simp [Srq.setAside, Srq.cooldownWqe, hw, hs'], hsame, hlists, rfl⟩
  | some w =>
    obtain ⟨s', hs', hsame, hlists⟩ := h.cooldownWqe hw
    refine ⟨s', w.1, _, by simp [Srq.setAside, hs'], hsame, hlists, ?_⟩
    have hwait := h.waitq
    rw [hw] at hwait
    obtain ⟨rest, rfl⟩ : ∃ l, resting = w.1 :: l := ⟨_, List.eq_cons_of_mem_head? hwait.1⟩
    simp

theorem Lists.repost (h : s.Lists posted free resting busy) (hne : s.head ≠ s.tail)
    (hi : i < s.max) :
    ∃ s', s.repost i = some s' ∧ s.Fills s' (s.content i) ∧
      s'.Lists (posted ++ [s.head]) free.tail resting busy ∧
      s'.counter = s.counter + 1 ∧ s'.db = s'.counter.toUInt32 := by
  have hhead : s.head < s.max := h.lt (by simp [h.head_mem])
  refine ⟨_, if_pos ⟨hi, hhead⟩, ?_, h.advance hne rfl rfl rfl rfl rfl, rfl, rfl⟩
  refine ⟨?_, fun j hj => ?_, rfl, rfl⟩
  · simp [Srq.content, scatterList_copyScat]
  · simp [Srq.content, hj]

/-- After a page fault the request is at the end of the posted ones, in another entry. -/
theorem Lists.completeOdpFault (h : s.Lists posted free resting (i :: busy)) :
    ∃ s' free' resting', s.completeOdpFault i = some s' ∧ s.Fills s' (s.content i) ∧
      s'.Lists (posted ++ [s.head]) free' resting' busy ∧ resting'.length = resting.length ∧
      s'.counter = s.counter + 1 ∧ s'.db = s'.counter.toUInt32 := by
  obtain ⟨t, j, resting', ht, hsame, hlists, hlen⟩ := h.setAside
  have hi : i < t.max := by
    rw [hsame.max]
    exact h.lt (by simp)
  have hne : t.head ≠ t.tail := by
    have hpos := List.length_pos_of_mem h.head_mem
    rw [ne_eq, hlists.head_eq_tail_iff, List.length_append, List.length_singleton]
    omega
  obtain ⟨s', hs', ⟨hfilled, hothers, hmax, hmaxGs⟩, hlists', hcounter, hdb⟩ :=
    hlists.repost hne hi
  rw [hsame.head] at hfilled hothers hlists'
  rw [hsame.content] at hfilled hothers
  exact ⟨s', (free ++ [j]).tail, resting', by simp [Srq.completeOdpFault, ht, hs'],
    ⟨hfilled, hothers, hmax.trans hsame.max, hmaxGs.trans hsame.maxGs⟩, hlists', hlen,
    by rw [hcounter, hsame.counter], hdb⟩

/-- A request is refused when it is too long or when only one entry is free. -/
theorem Lists.postOne {wr : RecvWr} (h : s.Lists posted free resting busy)
    (hgs : wr.numSge ≤ s.maxGs) (hfree : free.length ≠ 1) :
    ∃ s', s.postOne wr = ok s' ∧ s.Fills s' ⟨wr.wrId, validSges wr.sges⟩ ∧
      s'.Lists (posted ++ [s.head]) free.tail resting busy ∧
      s'.counter = s.counter ∧ s'.db = s.db := by
  have hhead : s.head < s.max := h.lt (by simp [h.head_mem])
  have hne : s.head ≠ s.tail := fun heq => hfree (h.head_eq_tail_iff.mp heq)
  have hlen : wr.sges.length ≤ s.maxGs := by
    rw [wr.length_sges]
    omega
  refine ⟨s.fill wr, by simp [Srq.postOne, hgs, hne, hhead], ⟨?_, fun j hj => ?_, rfl, rfl⟩,
    h.advance hne rfl rfl rfl rfl rfl, rfl, rfl⟩
  · simp [Srq.content, fill, scatterList_writeScat hlen]
  · simp [Srq.content, fill, hj]

end Lists

section Creation
variable {lim : Limits} {maxWr maxSge : ℕ} {s : Srq}

theorem setSrqBufLl_toNat {next : ℕ → UInt16} {first last i : ℕ} (hlast : last < 2 ^ 16)
    (hfirst : first ≤ i) (hi : i < last) : (setSrqBufLl next first last i).toNat = i + 1 := by
  rw [setSrqBufLl, if_pos ⟨hfirst, hi⟩, UInt16.toNat_ofNat', Nat.mod_eq_of_lt (by omega)]

theorem allocSrqBuf_sizes (h : allocSrqBuf lim maxSge maxWr = some s) :
    maxWr ≤ s.tail ∧ maxSge ≤ s.maxGs ∧ s.counter = 0 ∧ s.db = 0 := by
  have hwr : maxWr + 1 ≤ roundupPowOfTwo (maxWr + 1) := le_roundupPowOfTwo (by omega)
  have hsge : 16 + maxSge * 16 ≤ roundupPowOfTwo (Max.max 32 (16 + maxSge * 16)) :=
    (le_max_right _ _).trans (le_roundupPowOfTwo (lt_max_of_lt_left (by norm_num)))
  simp only [allocSrqBuf] at h
  split_ifs at h
  all_goals
    obtain rfl := Option.some.inj h
    exact ⟨Nat.le_sub_one_of_lt hwr, (Nat.le_div_iff_mul_le (by norm_num)).mpr (by omega), rfl, rfl⟩

/-- Entries up to the tail are linked, and those behind it if they are a wait queue. -/
theorem allocSrqBuf_links (h : allocSrqBuf lim maxSge maxWr = some s) (hpos : 0 < maxWr)
    (hle : maxWr ≤ lim.maxSrqRecvWr) :
    s.max ≤ 2 ^ 16 ∧ s.head = 0 ∧ (∀ i < s.tail, s.link i = i + 1) ∧
      (s.waitq = none ∧ s.max = s.tail + 1 ∨
        s.waitq = some (s.tail + 1, s.max - 1) ∧ s.max = 2 * (s.tail + 1) ∧
          ∀ i, s.tail < i → i + 1 < s.max → s.link i = i + 1) := by
  have hlim := lim.maxSrqRecvWr_le
  obtain ⟨n, hn⟩ : ∃ n, roundupPowOfTwo (maxWr + 1) = n + 1 :=
    Nat.exists_eq_add_of_le' (Nat.zero_lt_of_lt (le_roundupPowOfTwo (Nat.succ_pos maxWr)))
  have hone : roundupPowOfTwo (maxWr + 1) ≤ 2 ^ 16 := roundupPowOfTwo_le (by omega) (by omega)
  simp only [allocSrqBuf] at h
  split_ifs at h with hsize hwq
  · have htwo : roundupPowOfTwo (2 * maxWr + 1) ≤ 2 ^ 16 :=
      roundupPowOfTwo_le (by omega) (by omega)
    rw [roundupPowOfTwo_double hpos] at h htwo
    rw [hn] at h htwo
    obtain rfl := Option.some.inj h
    refine ⟨htwo, rfl, fun i hi => ?_, .inr ⟨rfl, rfl, fun i hi hlt => ?_⟩⟩
    · have hi' : i < n := hi
      show (setSrqBufLl _ _ _ i).toNat = _
      rw [setSrqBufLl, if_neg (by omega)]
      exact setSrqBufLl_toNat (by omega) (Nat.zero_le i) hi
    · have hlt' : i + 1 < 2 * (n + 1) := hlt
      exact setSrqBufLl_toNat (by omega) hi (by omega)
  · rw [hn] at h hone
    obtain rfl := Option.some.inj h
    refine ⟨hone, rfl, fun i hi => ?_, .inl ⟨rfl, rfl⟩⟩
    exact setSrqBufLl_toNat (by omega) (Nat.zero_le i) hi

/-- The lists of a new queue: everything that does not rest is free. -/
theorem allocSrqBuf_lists (h : allocSrqBuf lim maxSge maxWr = some s) (hpos : 0 < maxWr)
    (hle : maxWr ≤ lim.maxSrqRecvWr) :
    ∃ resting, s.Lists [] (List.range (s.tail + 1)) resting [] ∧
      resting.length + (s.tail + 1) = s.max := by
  obtain ⟨hmax, hhead, hlink, hwaitq⟩ := allocSrqBuf_links h hpos hle
  have hlinked : Linked s.link ([] ++ List.range (s.tail + 1)) := by
    rw [List.nil_append, List.range_eq_range']
    exact linked_range' fun i _ hi => hlink i (by omega)
  have hfirst : (List.range (s.tail + 1)).head? = some s.head := by
    rw [List.range_succ_eq_map, List.head?_cons, hhead]
  have hlast : (List.range (s.tail + 1)).getLast? = some s.tail := by
    rw [List.range_succ, List.getLast?_concat]
  rcases hwaitq with ⟨hnone, hmax'⟩ | ⟨hsome, hmax', hrest⟩
  · refine ⟨[], ⟨hlinked, hfirst, hlast, ?_, by simp [hmax'], hmax⟩, by simp [hmax']⟩
    rw [hnone]
    rfl
  · refine ⟨List.range' (s.tail + 1) (s.tail + 1), ⟨hlinked, hfirst, hlast, ?_, ?_, hmax⟩, ?_⟩
    · rw [hsome]
      refine ⟨by simp [List.head?_range'], ?_, linked_range' fun i hi hlt => hrest i hi (by omega)⟩
      rw [List.getLast?_range', if_neg (by omega), hmax']
      congr 1
      omega
    · have happend : List.range' 0 (s.tail + 1) ++ List.range' (0 + (s.tail + 1)) (s.tail + 1) =
          List.range' 0 (s.tail + 1 + (s.tail + 1)) := List.range'_append_1
      rw [zero_add] at happend
      rw [List.nil_append, List.append_nil, hmax', List.range_eq_range', List.range_eq_range',
        two_mul, happend]
    · rw [List.length_range', hmax', two_mul]
end Creation

end Srq
end RdmaperfIso.Mlx5
