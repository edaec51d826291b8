import RdmaperfIso.Mlx5.PayloadBound
import RdmaperfIso.TokenBucket.Admission
import RdmaperfIso.Verbs.Charging

/-! The limits on a whole host. Any number of secondary tasks send through `ibv_post_send`, on
queue pairs of the provider, and share the two token buckets. What their doorbells were rung for
is then bounded by the rate and the burst, and so is the number of their calls. Doubles are read
exactly, and a `consume` call is one step. -/
namespace RdmaperfIso.Isolation
open PostSend Mlx5 Run TokenBucket
open scoped BigOperators

variable {ι κ : Type}

/-- The queue pairs of all tasks, and the parameters of the two buckets. -/
structure Config (κ : Type) where
  qp : κ → Qp
  buckets : κ → QpBuckets
  rate : Limiter → ℕ
  burstSize : Limiter → ℕ
  home : ∀ q, 0 ≤ (buckets q).bucketIndex ∧ (buckets q).bucketIndex < nrBucket ∧
    0 ≤ (buckets q).localBucketIndex ∧ (buckets q).localBucketIndex < nrBucket
  rate_pos : ∀ l, 1 ≤ rate l
  burst_le : ∀ l, 16 ≤ burstSize l
  burst_lt : ∀ l, burstSize l < 2 ^ 64

/-- The calls that are ahead of each task, with their queue pair. `rung` is the payload of all
entries that a doorbell was rung for, and `calls` counts the calls of the provider. -/
structure Host (ι κ : Type) where
  arena : Limiter → Admission.Arena ι
  todo : ι → List (κ × Call)
  queue : κ → Sq
  rung : ℕ
  calls : ℕ

inductive Event (ι κ : Type) where
  /-- A task makes its next call. -/
  | enter (p : ι)
  /-- A task that waits asks a bucket. -/
  | consume (p : ι) (l : Limiter) (now : ℕ)
  | pollCq (q : κ) (tail : UInt32)

/-- `ibv_post_send` for one list after another. -/
def program (cfg : Config κ) (sends : List (κ × List SendWr)) : List (κ × Call) :=
  sends.flatMap fun x => (ibvPostSend .secondary (cfg.buckets x.1) x.2).map (Prod.mk x.1)

namespace Host

def start (cfg : Config κ) (sq : κ → Sq) (sends : ι → List (κ × List SendWr)) : Host ι κ where
  arena l := Admission.start (initTokenBucket id (cfg.rate l) (cfg.burstSize l))
  todo p := program cfg (sends p)
  queue := sq
  rung := 0
  calls := 0

def setArena (h : Host ι κ) (l : Limiter) (a : Admission.Arena ι) : Host ι κ :=
  { h with arena := Function.update h.arena l a }

def setTodo [DecidableEq ι] (h : Host ι κ) (p : ι) (todo : List (κ × Call)) : Host ι κ :=
  { h with todo := Function.update h.todo p todo }

/-- The provider is called. -/
def postSend [DecidableEq κ] (cfg : Config κ) (h : Host ι κ) (q : κ) (wrs : List SendWr) :
    Option (Host ι κ) :=
  (mlx5PostSend (cfg.qp q) (h.queue q) wrs).map fun posted =>
    { h with
      queue := Function.update h.queue q posted.sq
      rung := h.rung + payload posted.rung
      calls := h.calls + 1 }

/-- No wait of the task has a call left. -/
def Idle (h : Host ι κ) (p : ι) : Prop := ∀ l, ((h.arena l).waits p).amount = none

instance (h : Host ι κ) (p : ι) : Decidable (h.Idle p) :=
  decidable_of_iff (((h.arena .request).waits p).amount = none ∧
      ((h.arena .global).waits p).amount = none)
    ⟨fun hi l => by cases l <;> simp [hi], fun hi => ⟨hi _, hi _⟩⟩

end Host

/-- One step of a task. A `consume` call is a step as a whole; the accesses that it is made of, and
the retry after a lost race, are those of `Contention`. -/
def step [DecidableEq ι] [DecidableEq κ] (cfg : Config κ) (h : Host ι κ) :
    Event ι κ → Option (Host ι κ)
  | .enter p =>
    if h.Idle p then
      match h.todo p with
      | [] => none
      | (_, .waitForRequestToken start) :: todo =>
        (Admission.step id (h.arena .request) (.waitForRequestToken p start)).map fun a =>
          (h.setArena .request a).setTodo p todo
      | (_, .waitForToken tokens start) :: todo =>
        (Admission.step id (h.arena .global) (.waitForToken p tokens start)).map fun a =>
          (h.setArena .global a).setTodo p todo
      | (q, .postSend wrs) :: todo => (h.setTodo p todo).postSend cfg q wrs
    else none
  | .consume p l now => (Admission.step id (h.arena l) (.consume p now)).map (h.setArena l)
  | .pollCq q tail =>
    some { h with queue := Function.update h.queue q { h.queue q with tail := tail } }

/-- Tokens of a bucket that the call in progress has waited for, or waits for. -/
def ahead : Limiter → List (κ × Call) → ℕ
  | .request, (_, .waitForToken _ _) :: _ => 1
  | .request, (_, .postSend _) :: _ => 1
  | .global, (_, .postSend wrs) :: _ => sendSize wrs
  | _, _ => 0

namespace Host

/-- What the tokens of a bucket stand for. -/
def used (h : Host ι κ) : Limiter → ℕ
  | .request => h.calls
  | .global => h.rung

/-- Tokens that the wait of a task still has to be granted. -/
def owed (h : Host ι κ) (l : Limiter) (p : ι) : ℕ := ((h.arena l).waits p).chunks.sum

def granted (h : Host ι κ) (l : Limiter) : ℕ := ((h.arena l).grants.map Admission.Grant.tokens).sum

end Host

/-- Lists for which the charge is exact: `send_size` and the number of chunks do not wrap, and
the payload does not exceed the bytes of the list. -/
structure Fits (cfg : Config κ) (x : κ × List SendWr) : Prop where
  regular : Regular (cfg.qp x.1) x.2
  size_lt : totalBytes x.2 < 2 ^ 64
  chunks_lt : totalBytes x.2 / (cfg.burstSize .global / 16) < 2 ^ 31

/-- What can be ahead of a task. -/
inductive Reached (cfg : Config κ) : List (κ × Call) → Prop
  | between {sends} (hs : ∀ x ∈ sends, Fits cfg x) : Reached cfg (program cfg sends)
  | requested {q wrs sends} (hx : Fits cfg (q, wrs)) (hs : ∀ x ∈ sends, Fits cfg x) :
    Reached cfg ((q, .waitForToken (sendSize wrs) (cfg.buckets q).bucketIndex) ::
      (q, .postSend wrs) :: program cfg sends)
  | waited {q wrs sends} (hx : Fits cfg (q, wrs)) (hs : ∀ x ∈ sends, Fits cfg x) :
    Reached cfg ((q, .postSend wrs) :: program cfg sends)

theorem program_cons (cfg : Config κ) (q : κ) (wrs : List SendWr)
    (sends : List (κ × List SendWr)) :
    program cfg ((q, wrs) :: sends) =
      (q, .waitForRequestToken (cfg.buckets q).localBucketIndex) ::
      (q, .waitForToken (sendSize wrs) (cfg.buckets q).bucketIndex) ::
      (q, .postSend wrs) :: program cfg sends := by
  simp [program, ibvPostSend]

theorem ahead_program (l : Limiter) (cfg : Config κ) (sends : List (κ × List SendWr)) :
    ahead l (program cfg sends) = 0 := by
  cases sends with
  | nil => cases l <;> rfl
  | cons x sends =>
    rw [program_cons]
    cases l <;> rfl

/-- The chunks of a request that fits add up to it. -/
theorem waitForToken_sum {burstSize tokens : ℕ} {start : ℤ} {w : WaitLoop} (hs : 16 ≤ burstSize)
    (hb : burstSize < 2 ^ 64) (hfit : tokens / (burstSize / 16) < 2 ^ 31)
    (hw : WaitLoop.waitForToken id burstSize tokens start = some w) : w.chunks.sum = tokens := by
  have hpos : 0 < burstSize / 16 := by omega
  have hcut : w.chunks = cut (burstSize / 16) tokens := by
    simp only [WaitLoop.waitForToken, Admission.smallBurstSize_id hb, Option.bind_eq_bind,
      Option.bind_some, hpos.ne', if_false] at hw
    by_cases h : tokens ≤ burstSize / 16
    · rw [if_pos h] at hw
      obtain rfl := Option.some.inj hw
      simp [WaitLoop.chunks, cut, h]
    · rw [if_neg h] at hw
      obtain rfl := Option.some.inj hw
      simp [WaitLoop.chunks, cut, h]
  rw [hcut]
  exact (sum_cut_eq_iff hpos).mpr hfit

section Arena
variable [DecidableEq ι] {a a' : Admission.Arena ι} {p : ι} {now : ℕ}

/-- What a `consume` call does to the wait of its task. -/
theorem consume_cases (h : Admission.step id a (.consume p now) = some a') :
    a' = a ∨ ∃ w, a'.waits = Function.update a.waits p w ∧
      ((a'.grants = a.grants ∧ w.chunks = (a.waits p).chunks) ∨
        ∃ n b t, (a.waits p).chunks = n :: w.chunks ∧
          a'.grants = a.grants ++ [⟨b, n, now, t⟩]) := by
  simp only [Admission.step] at h
  split at h
  next => exact .inl (Option.some.inj h).symm
  next n hn =>
    rw [WaitLoop.amount_eq_head] at hn
    obtain ⟨rest, hrest⟩ := List.head?_eq_some_iff.mp hn
    simp only [Option.bind_eq_bind, Option.bind_eq_some_iff] at h
    obtain ⟨⟨ok, tb⟩, -, b, -, h⟩ := h
    obtain rfl := Option.some.inj h
    refine .inr ⟨_, rfl, ?_⟩
    cases ok with
    | false => exact .inl ⟨rfl, WaitLoop.chunks_next_refused _⟩
    | true =>
      refine .inr ⟨n, b, _, ?_, rfl⟩
      rw [WaitLoop.chunks_next_granted, hrest, List.tail_cons]

end Arena

/-- The buckets keep what bounds them, and no task waits for more than its call needs. -/
structure Inv (cfg : Config κ) (h : Host ι κ) : Prop where
  arenas : ∀ l, Admission.Inv (cfg.rate l) (cfg.burstSize l) (h.arena l)
  reached : ∀ p, Reached cfg (h.todo p)
  owed_le : ∀ l p, h.owed l p ≤ ahead l (h.todo p)

theorem start_inv {cfg : Config κ} {sq : κ → Sq} {sends : ι → List (κ × List SendWr)}
    (hs : ∀ p, ∀ x ∈ sends p, Fits cfg x) : Inv cfg (Host.start cfg sq sends) where
  arenas l := Admission.start_inv (cfg.rate_pos l)
  reached p := .between (hs p)
  owed_le l p := by simp [Host.owed, Host.start, Admission.start, WaitLoop.chunks]

section Owed
variable {h : Host ι κ} {l : Limiter} {p : ι}

theorem Host.Idle.owed_eq (hi : h.Idle p) (l : Limiter) : h.owed l p = 0 := by
  have hl := hi l
  rw [WaitLoop.amount_eq_head, List.head?_eq_none_iff] at hl
  rw [Host.owed, hl, List.sum_nil]

variable [DecidableEq ι]

theorem owed_setTodo (todo : List (κ × Call)) (q : ι) :
    (h.setTodo p todo).owed l q = h.owed l q := rfl

theorem owed_enter (l₀ : Limiter) (w : WaitLoop) (q : ι) :
    (h.setArena l₀ ((h.arena l₀).enter p w)).owed l q =
      if l = l₀ ∧ q = p then w.chunks.sum else h.owed l q := by
  by_cases hl : l = l₀
  · subst hl
    by_cases hq : q = p
    · subst hq
      simp [Host.owed, Host.setArena, Admission.Arena.enter]
    · simp [Host.owed, Host.setArena, Admission.Arena.enter, hq]
  · simp [Host.owed, Host.setArena, hl]

end Owed

section Steps
variable [Fintype ι] {cfg : Config κ} {h h' : Host ι κ} {l : Limiter} {p : ι} {t₁ t₂ : ℕ}

/-- What is used from one state to the other was granted between them, at times in the
window, or before them to a call that was in progress. -/
structure Covered (t₁ t₂ : ℕ) (l : Limiter) (h h' : Host ι κ) : Prop where
  paid : h'.used l + ∑ p, ahead l (h'.todo p) + h.granted l + ∑ p, h.owed l p ≤
    h.used l + ∑ p, ahead l (h.todo p) + h'.granted l + ∑ p, h'.owed l p
  grants : ∃ new, (h'.arena l).grants = (h.arena l).grants ++ new ∧
    ∀ g ∈ new, t₁ ≤ g.now ∧ g.now ≤ t₂

theorem Covered.refl (h : Host ι κ) : Covered t₁ t₂ l h h :=
  ⟨by omega, [], by simp, by simp⟩

theorem Covered.trans {h'' : Host ι κ} (h₁ : Covered t₁ t₂ l h h') (h₂ : Covered t₁ t₂ l h' h'') :
    Covered t₁ t₂ l h h'' := by
  obtain ⟨hp₁, n₁, hg₁, hn₁⟩ := h₁
  obtain ⟨hp₂, n₂, hg₂, hn₂⟩ := h₂
  refine ⟨by omega, n₁ ++ n₂, by rw [hg₂, hg₁, List.append_assoc], ?_⟩
  intro g hg
  rcases List.mem_append.mp hg with hg | hg
  · exact hn₁ g hg
  · exact hn₂ g hg

variable [DecidableEq ι]

/-- It is enough to look at the task that a step is of. -/
theorem paid_of_task (htodo : ∀ q ≠ p, h'.todo q = h.todo q)
    (howed : ∀ q ≠ p, h'.owed l q = h.owed l q)
    (hp : h'.used l + ahead l (h'.todo p) + h.granted l + h.owed l p ≤
      h.used l + ahead l (h.todo p) + h'.granted l + h'.owed l p) :
    h'.used l + ∑ p, ahead l (h'.todo p) + h.granted l + ∑ p, h.owed l p ≤
      h.used l + ∑ p, ahead l (h.todo p) + h'.granted l + ∑ p, h'.owed l p := by
  have h₁ := Charges.sum_add_eq_of_eqOff (f := fun p => ahead l (h'.todo p))
    (g := fun p => ahead l (h.todo p)) fun q hq => by rw [htodo q hq]
  have h₂ := Charges.sum_add_eq_of_eqOff howed
  omega

/-- A task enters a wait for what its call needs from then on. -/
theorem Inv.enter (hinv : Inv cfg h) (hi : h.Idle p) {l₀ : Limiter} {w : WaitLoop}
    {todo : List (κ × Call)} (hw : w.Within (cfg.burstSize l₀ / 16)) (hr : Reached cfg todo)
    (ha : ∀ l, ahead l todo = ahead l (h.todo p) + if l = l₀ then w.chunks.sum else 0)
    (hh : h' = (h.setArena l₀ ((h.arena l₀).enter p w)).setTodo p todo) :
    Inv cfg h' ∧ ∀ l, Covered t₁ t₂ l h h' := by
  subst hh
  have hgrants (l : Limiter) : ((h.setArena l₀ ((h.arena l₀).enter p w)).arena l).grants =
      (h.arena l).grants := by
    by_cases hl : l = l₀
    · subst hl
      simp [Host.setArena, Admission.Arena.enter]
    · simp [Host.setArena, hl]
  constructor
  · constructor
    · refine (Function.forall_update_iff h.arena fun l a =>
        Admission.Inv (cfg.rate l) (cfg.burstSize l) a).mpr ⟨?_, fun l _ => hinv.arenas l⟩
      exact (hinv.arenas l₀).enter p hw
    · exact (Function.forall_update_iff h.todo fun _ t => Reached cfg t).mpr
        ⟨hr, fun q _ => hinv.reached q⟩
    · intro l q
      have hq := hinv.owed_le l q
      rw [owed_setTodo, owed_enter]
      by_cases hqp : q = p
      · subst hqp
        have hal := ha l
        simp only [Host.setTodo, Function.update_self]
        split_ifs at hal ⊢ <;> simp_all
      · simpa [Host.setTodo, Host.setArena, hqp] using hq
  · intro l
    refine ⟨paid_of_task (p := p) ?_ ?_ ?_, [], ?_, by simp⟩
    · intro q hq
      simp [Host.setTodo, Host.setArena, hq]
    · intro q hq
      rw [owed_setTodo, owed_enter, if_neg fun h => hq h.2]
    · have hal := ha l
      have h0 := hi.owed_eq l
      have hg : ((h.setArena l₀ ((h.arena l₀).enter p w)).setTodo p todo).granted l =
          h.granted l := congrArg (fun gs => (gs.map Admission.Grant.tokens).sum) (hgrants l)
      have hu : ((h.setArena l₀ ((h.arena l₀).enter p w)).setTodo p todo).used l = h.used l := by
        cases l <;> rfl
      rw [owed_setTodo, owed_enter, hg, hu]
      simp only [Host.setTodo, Function.update_self, and_true]
      split_ifs at hal ⊢ <;> omega
    · rw [List.append_nil]
      exact hgrants l

/-- A call of the provider uses what its task was granted. -/
theorem Inv.postSend [DecidableEq κ] (hinv : Inv cfg h) (hi : h.Idle p) {q : κ}
    {wrs : List SendWr} {sends : List (κ × List SendWr)} (hx : Fits cfg (q, wrs))
    (hs : ∀ x ∈ sends, Fits cfg x) (htodo : h.todo p = (q, .postSend wrs) :: program cfg sends)
    (hp : (h.setTodo p (program cfg sends)).postSend cfg q wrs = some h') :
    Inv cfg h' ∧ ∀ l, Covered t₁ t₂ l h h' := by
  obtain ⟨posted, hposted, rfl⟩ := Option.map_eq_some_iff.mp hp
  have hle : payload posted.rung ≤ totalBytes wrs := mlx5PostSend_payload_le hx.regular hposted
  have hsize : sendSize wrs = totalBytes wrs := by
    rw [sendSize_eq, FixedWidth.wrap_of_lt hx.size_lt]
  constructor
  · refine ⟨hinv.arenas, ?_, ?_⟩
    · exact (Function.forall_update_iff h.todo fun _ t => Reached cfg t).mpr
        ⟨.between hs, fun q _ => hinv.reached q⟩
    · intro l r
      by_cases hr : r = p
      · subst hr
        exact (hi.owed_eq l).le.trans (Nat.zero_le _)
      · simpa [Host.setTodo, Host.owed, hr] using hinv.owed_le l r
  · intro l
    refine ⟨paid_of_task (p := p) ?_ (fun _ _ => rfl) ?_, [], by simp [Host.setTodo], by simp⟩
    · intro r hr
      simp [Host.setTodo, hr]
    · have h0 := hi.owed_eq l
      simp only [Host.setTodo, Function.update_self, ahead_program, htodo]
      cases l with
      | request =>
        show h.calls + 1 + 0 + h.granted .request + h.owed .request p ≤
          h.calls + 1 + h.granted .request + h.owed .request p
        omega
      | global =>
        show h.rung + payload posted.rung + 0 + h.granted .global + h.owed .global p ≤
          h.rung + sendSize wrs + h.granted .global + h.owed .global p
        omega

/-- A bucket is asked on behalf of a task that waits. -/
theorem Inv.consume (hinv : Inv cfg h) {l₀ : Limiter} {now : ℕ} {a : Admission.Arena ι}
    (hnow : Admission.burstNs (cfg.rate l₀) (cfg.burstSize l₀) ≤ now ∧ now < 2 ^ 63)
    (hw : t₁ ≤ now ∧ now ≤ t₂)
    (hs : Admission.step id (h.arena l₀) (.consume p now) = some a) :
    Inv cfg (h.setArena l₀ a) ∧ ∀ l, Covered t₁ t₂ l h (h.setArena l₀ a) := by
  obtain ⟨a', ha', hain⟩ := Admission.step_inv (cfg.burst_le l₀) (cfg.burst_lt l₀) (h.arena l₀)
    (.consume p now) (hinv.arenas l₀) hnow
  obtain rfl : a = a' := Option.some.inj (hs.symm.trans ha')
  have howed (l : Limiter) (q : ι) (hq : l = l₀ → q ≠ p) :
      (h.setArena l₀ a).owed l q = h.owed l q := by
    by_cases hl : l = l₀
    · subst hl
      rcases consume_cases hs with rfl | ⟨w, hwaits, -⟩
      · simp [Host.owed, Host.setArena]
      · simp [Host.owed, Host.setArena, hwaits, hq rfl]
    · simp [Host.owed, Host.setArena, hl]
  -- Granted tokens are tokens that the task no longer waits for.
  have hpay : h.granted l₀ + h.owed l₀ p =
        (h.setArena l₀ a).granted l₀ + (h.setArena l₀ a).owed l₀ p ∧
      ∃ new, a.grants = (h.arena l₀).grants ++ new ∧ ∀ g ∈ new, t₁ ≤ g.now ∧ g.now ≤ t₂ := by
    simp only [Host.granted, Host.owed, Host.setArena, Function.update_self]
    rcases consume_cases hs with rfl | ⟨w, hwaits, ⟨hg, hc⟩ | ⟨n, b, t, hc, hg⟩⟩
    · exact ⟨rfl, [], by simp, by simp⟩
    · exact ⟨by rw [hwaits, Function.update_self, hg, hc], [], by simp [hg], by simp⟩
    · refine ⟨?_, _, hg, by simpa using hw⟩
      rw [hwaits, Function.update_self, hg, hc]
      simp
      omega
  have hused (l : Limiter) : (h.setArena l₀ a).used l = h.used l := by cases l <;> rfl
  constructor
  · refine ⟨?_, hinv.reached, ?_⟩
    · exact (Function.forall_update_iff h.arena fun l a =>
        Admission.Inv (cfg.rate l) (cfg.burstSize l) a).mpr ⟨hain, fun l _ => hinv.arenas l⟩
    · intro l q
      have hq := hinv.owed_le l q
      by_cases h' : l = l₀ ∧ q = p
      · obtain ⟨rfl, rfl⟩ := h'
        obtain ⟨hsum, new, hnew, -⟩ := hpay
        have hmono : h.granted l ≤ (h.setArena l a).granted l := by
          simp [Host.granted, Host.setArena, hnew]
        show (h.setArena l a).owed l q ≤ ahead l (h.todo q)
        omega
      · rw [howed l q fun hl hq => h' ⟨hl, hq⟩]
        exact hq
  · intro l
    by_cases hl : l = l₀
    · subst hl
      obtain ⟨hsum, new, hnew, hin⟩ := hpay
      refine ⟨paid_of_task (p := p) (fun _ _ => rfl) (fun q hq => howed l q fun _ => hq) ?_, new,
        by simpa [Host.setArena] using hnew, hin⟩
      rw [hused]
      show h.used l + ahead l (h.todo p) + h.granted l + h.owed l p ≤ _
      omega
    · have hg : ((h.setArena l₀ a).arena l).grants = (h.arena l).grants := by
        simp [Host.setArena, hl]
      refine ⟨paid_of_task (p := p) (fun _ _ => rfl)
        (fun q _ => howed l q fun hl' => absurd hl' hl) ?_, [], by simp [hg], by simp⟩
      rw [hused, howed l p fun hl' => absurd hl' hl]
      simp only [Host.granted, hg]
      exact le_rfl

/-- What a run assumes of its clock readings: they are past one burst, below half of the
64-bit range, and in the window. -/
def InWindow (cfg : Config κ) (t₁ t₂ : ℕ) : Event ι κ → Prop
  | .consume _ l now =>
    (Admission.burstNs (cfg.rate l) (cfg.burstSize l) ≤ now ∧ now < 2 ^ 63) ∧ t₁ ≤ now ∧ now ≤ t₂
  | _ => True

theorem step_inv [DecidableEq κ] (hinv : Inv cfg h) (e : Event ι κ) (he : InWindow cfg t₁ t₂ e)
    (hs : step cfg h e = some h') : Inv cfg h' ∧ ∀ l, Covered t₁ t₂ l h h' := by
  cases e with
  | consume p l₀ now =>
    obtain ⟨a, ha, rfl⟩ := Option.map_eq_some_iff.mp hs
    exact hinv.consume he.1 he.2 ha
  | pollCq q tail =>
    obtain rfl := Option.some.inj hs
    exact ⟨⟨hinv.arenas, hinv.reached, hinv.owed_le⟩, fun l =>
      ⟨by cases l <;> exact le_rfl, [], by simp, by simp⟩⟩
  | enter p =>
    simp only [step] at hs
    split_ifs at hs with hi
    obtain ⟨todo, htodo⟩ : ∃ todo, todo = h.todo p := ⟨_, rfl⟩
    have hr := hinv.reached p
    rw [← htodo] at hr
    cases hr with
    | @between sends hsends =>
      cases sends with
      | nil =>
        rw [← htodo] at hs
        simp [program] at hs
      | cons x sends =>
        obtain ⟨q, wrs⟩ := x
        rw [program_cons] at htodo
        simp only [← htodo, Admission.step, hi .request, if_true, Option.map_some] at hs
        obtain ⟨hx, hsends⟩ := List.forall_mem_cons.mp hsends
        have hhome := cfg.home q
        have hburst := cfg.burst_le .request
        refine hinv.enter hi ⟨fun _ => ?_, Nat.zero_le _, hhome.2.2.1, hhome.2.2.2⟩
          (.requested hx hsends) ?_ (Option.some.inj hs).symm
        · show 1 ≤ cfg.burstSize .request / 16
          omega
        · intro l
          rw [← htodo]
          cases l <;> simp [ahead, WaitLoop.waitForRequestToken, WaitLoop.chunks]
    | @requested q wrs sends hx hsends =>
      have hhome := cfg.home q
      obtain ⟨w, hw, hin⟩ := Admission.waitForToken_within (sendSize wrs) (cfg.burst_le .global)
        (cfg.burst_lt .global) hhome.1 hhome.2.1
      have hsum := waitForToken_sum (cfg.burst_le .global) (cfg.burst_lt .global)
        (by rw [sendSize_eq, FixedWidth.wrap_of_lt hx.size_lt]; exact hx.chunks_lt) hw
      simp only [← htodo, Admission.step, hi .global, if_true, (hinv.arenas .global).steady.size,
        hw, Option.map_some] at hs
      refine hinv.enter hi hin (.waited hx hsends) ?_ (Option.some.inj hs).symm
      intro l
      rw [← htodo]
      cases l <;> simp [ahead, hsum]
    | @waited q wrs sends hx hsends =>
      rw [← htodo] at hs
      exact hinv.postSend hi hx hsends htodo.symm hs

end Steps

section Run
variable [Fintype ι] {cfg : Config κ} {h h' : Host ι κ} {t₁ t₂ : ℕ}

end Run

end RdmaperfIso.Isolation
