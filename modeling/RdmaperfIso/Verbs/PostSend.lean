import RdmaperfIso.Lib.Run
import RdmaperfIso.ResourceTable
import RdmaperfIso.Verbs.WorkRequest

/-! `ibv_post_send` of a task: the calls that it makes, and the `consume` calls that its
two waits make before the provider's function is called. Whether a `consume` call is
granted or refused is left open. -/
namespace RdmaperfIso.PostSend
open FixedWidth TokenBucket Run

/-- `request_tb` and `global_tb`. -/
inductive Limiter where
  | request
  | global
  deriving DecidableEq, Repr

/-- The home buckets of a queue pair. -/
structure QpBuckets where
  bucketIndex : ℤ
  localBucketIndex : ℤ
  deriving DecidableEq, Repr

inductive Call where
  | waitForRequestToken (start : ℤ)
  | waitForToken (tokens : ℕ) (start : ℤ)
  | postSend (wrs : List SendWr)
  deriving DecidableEq

def ibvPostSend (type : TaskType) (qp : QpBuckets) (wrs : List SendWr) : List Call :=
  if type = .secondary then
    [.waitForRequestToken qp.localBucketIndex, .waitForToken (sendSize wrs) qp.bucketIndex,
      .postSend wrs]
  else [.postSend wrs]

/-- The loops of a wait, and the bucket that they draw from. -/
def Call.wait (fl : ℚ → ℚ) (burstSize : ℕ) : Call → Option (Limiter × WaitLoop)
  | .waitForRequestToken start => some (.request, .waitForRequestToken start)
  | .waitForToken tokens start =>
    (WaitLoop.waitForToken fl burstSize tokens start).map (Prod.mk .global)
  | .postSend _ => none

/-- A task inside the wait `loop`, with the calls `todo` ahead of it. `granted` and
`posted` record the successful `consume` calls and the calls of the provider. -/
structure Task where
  loop : Option (Limiter × WaitLoop)
  todo : List Call
  granted : List (Limiter × ℕ)
  posted : List (List SendWr)

inductive Event where
  | enter
  | consume (granted : Bool)
  deriving DecidableEq, Repr

def start (program : List Call) : Task := ⟨none, program, [], []⟩

/-- Amounts that a wait still has to be granted. -/
def owed : Option (Limiter × WaitLoop) → List (Limiter × ℕ)
  | none => []
  | some (l, w) => w.chunks.map (Prod.mk l)

/-- The next call is entered when the loops of the last one have ended. -/
def step (fl : ℚ → ℚ) (burstSize : ℕ) (t : Task) : Event → Option Task
  | .enter =>
    if (t.loop.bind fun lw => lw.2.amount) = none then
      match t.todo with
      | [] => none
      | .postSend wrs :: todo =>
        some { t with loop := none, todo := todo, posted := t.posted ++ [wrs] }
      | c :: todo => (c.wait fl burstSize).map fun lw => { t with loop := some lw, todo := todo }
    else none
  | .consume granted => do
    let lw ← t.loop
    let n ← lw.2.amount
    some
      { t with
        loop := some (lw.1, lw.2.next granted)
        granted := if granted then t.granted ++ [(lw.1, n)] else t.granted }

/-- Tokens taken from one bucket, call by call. -/
def Task.amounts (t : Task) (l : Limiter) : List ℕ :=
  (t.granted.filter (·.1 = l)).map Prod.snd

/-- The calls of the provider in a program. -/
def posts (program : List Call) : List (List SendWr) :=
  program.filterMap fun c =>
    match c with
    | .postSend wrs => some wrs
    | _ => none

variable {fl : ℚ → ℚ} {burstSize : ℕ} {t t' : Task} {program : List Call}

/-- What the waits of a program take, in order, when they all end. -/
def charges (fl : ℚ → ℚ) (burstSize : ℕ) (program : List Call) : List (Limiter × ℕ) :=
  program.flatMap fun c => owed (c.wait fl burstSize)

theorem owed_eq_nil {lw : Option (Limiter × WaitLoop)}
    (h : (lw.bind fun lw => lw.2.amount) = none) : owed lw = [] := by
  cases lw with
  | none => rfl
  | some lw =>
    rw [Option.bind_some, WaitLoop.amount_eq_head, List.head?_eq_none_iff] at h
    simp [owed, h]

/-- Everything that one step can do. -/
theorem step_cases {e : Event} (h : step fl burstSize t e = some t') :
    (e = .enter ∧ owed t.loop = [] ∧ ∃ wrs, t.todo = .postSend wrs :: t'.todo ∧ t'.loop = none ∧
      t'.granted = t.granted ∧ t'.posted = t.posted ++ [wrs]) ∨
    (e = .enter ∧ owed t.loop = [] ∧ ∃ c lw, t.todo = c :: t'.todo ∧
      c.wait fl burstSize = some lw ∧ t'.loop = some lw ∧ t'.granted = t.granted ∧
      t'.posted = t.posted) ∨
    (∃ l w ok n, e = .consume ok ∧ t.loop = some (l, w) ∧ w.amount = some n ∧
      t'.todo = t.todo ∧ t'.loop = some (l, w.next ok) ∧
      t'.granted = (if ok then t.granted ++ [(l, n)] else t.granted) ∧ t'.posted = t.posted) := by
  cases e with
  | enter =>
    unfold step at h
    simp only at h
    split at h
    next hidle =>
      have hnil := owed_eq_nil hidle
      split at h
      next => simp at h
      next wrs todo htodo =>
        obtain rfl := Option.some.inj h
        left
        exact ⟨rfl, hnil, wrs, htodo, rfl, rfl, rfl⟩
      next c todo hpost htodo =>
        obtain ⟨lw, hlw, rfl⟩ := Option.map_eq_some_iff.mp h
        right; left
        exact ⟨rfl, hnil, c, lw, htodo, hlw, rfl, rfl, rfl⟩
    next => simp at h
  | consume ok =>
    simp only [step, Option.bind_eq_bind, Option.bind_eq_some_iff] at h
    obtain ⟨lw, hloop, n, hn, h⟩ := h
    obtain rfl := Option.some.inj h
    right; right
    exact ⟨lw.1, lw.2, ok, n, rfl, hloop, hn, rfl, rfl, rfl, rfl⟩

/-- What has been granted and what is still owed together never change. -/
structure Inv (fl : ℚ → ℚ) (burstSize : ℕ) (program : List Call) (t : Task) : Prop where
  suffix : t.todo <:+ program
  balance : t.granted ++ owed t.loop ++ charges fl burstSize t.todo = charges fl burstSize program
  posted : t.posted ++ posts t.todo = posts program

theorem step_inv (e : Event) (h : Inv fl burstSize program t)
    (hs : step fl burstSize t e = some t') : Inv fl burstSize program t' := by
  obtain ⟨hsuf, hbal, hpost⟩ := h
  rcases step_cases hs with ⟨-, hnil, wrs, htodo, hloop, hgr, hp⟩ |
    ⟨-, hnil, c, lw, htodo, hw, hloop, hgr, hp⟩ | ⟨l, w, ok, n, -, hl, hn, htodo, hloop, hgr, hp⟩
  · refine ⟨(List.suffix_cons _ _).trans (htodo ▸ hsuf), ?_, ?_⟩
    · rw [hgr, hloop, ← hbal, htodo, hnil]
      simp [charges, owed, Call.wait]
    · rw [hp, ← hpost, htodo]
      simp [posts]
  · have hc : posts (c :: t'.todo) = posts t'.todo := by
      cases c with
      | postSend wrs => simp [Call.wait] at hw
      | waitForRequestToken start => simp [posts]
      | waitForToken tokens start => simp [posts]
    refine ⟨(List.suffix_cons _ _).trans (htodo ▸ hsuf), ?_, ?_⟩
    · rw [hgr, hloop, ← hbal, htodo, hnil]
      simp [charges, hw]
    · rw [hp, ← hpost, htodo, hc]
  · refine ⟨htodo ▸ hsuf, ?_, by rw [hp, htodo, hpost]⟩
    rw [← hbal, htodo, hloop, hgr, hl]
    cases ok with
    | false => simp [owed]
    | true =>
      rw [WaitLoop.amount_eq_head] at hn
      obtain ⟨rest, hrest⟩ := List.head?_eq_some_iff.mp hn
      simp [owed, WaitLoop.chunks_next_granted, hrest]

theorem start_inv (program : List Call) : Inv fl burstSize program (start program) :=
  ⟨List.suffix_refl _, by simp [start, owed], by simp [start]⟩

/-- The last call of the program is one of the provider. -/
def EndsInPost (program : List Call) : Prop :=
  ∀ c, program.getLast? = some c → ∃ wrs, c = .postSend wrs

theorem getLast_suffix {l l' : List Call} (h : l <:+ l') (hne : l ≠ []) :
    l.getLast? = l'.getLast? := by
  obtain ⟨pre, rfl⟩ := h
  rw [List.getLast?_append_of_ne_nil _ hne]

theorem step_idle (hends : EndsInPost program) (e : Event) (hsuf : t.todo <:+ program)
    (h : t.todo = [] → t.loop = none) (hs : step fl burstSize t e = some t') :
    t'.todo = [] → t'.loop = none := by
  intro hnil
  rcases step_cases hs with ⟨-, -, wrs, -, hloop, -, -⟩ | ⟨-, -, c, lw, htodo, hw, -, -, -⟩ |
    ⟨l, w, ok, n, -, hl, -, htodo, -, -, -⟩
  · exact hloop
  · rw [hnil] at htodo
    have hlast := getLast_suffix hsuf (by simp [htodo])
    rw [htodo, List.getLast?_singleton] at hlast
    obtain ⟨wrs, rfl⟩ := hends c hlast.symm
    simp [Call.wait] at hw
  · rw [h (htodo ▸ hnil)] at hl
    simp at hl

theorem posts_ne_nil {l : List Call} (hends : EndsInPost program) (hsuf : l <:+ program)
    (hne : l ≠ []) : posts l ≠ [] := by
  intro hnil
  have hlast := getLast_suffix hsuf hne
  obtain ⟨c, hc⟩ := Option.isSome_iff_exists.mp (List.getLast?_isSome.mpr hne)
  obtain ⟨wrs, rfl⟩ := hends c (hlast ▸ hc)
  have hmem : wrs ∈ posts l := by
    simp only [posts, List.mem_filterMap]
    exact ⟨_, List.mem_of_getLast? hc, rfl⟩
  simp [hnil] at hmem

/-- Whatever calls were refused on the way, once the last call of the provider is made the
task has been granted exactly the charges of its program, in order. -/
theorem granted_eq_charges (hends : EndsInPost program) {es : List Event} {s : Task}
    (hrun : run (step fl burstSize) (start program) es = some s)
    (hposted : s.posted = posts program) :
    s.granted = charges fl burstSize program := by
  have hall : Meets (step fl burstSize) (fun _ _ => True) (start program) es :=
    meets_of_forall fun _ _ => trivial
  have hinv := run_invariant
    (P := fun t => Inv fl burstSize program t ∧ (t.todo = [] → t.loop = none))
    (fun t e t' ht _ hs => ⟨step_inv e ht.1 hs, step_idle hends e ht.1.suffix ht.2 hs⟩)
    ⟨start_inv program, fun _ => rfl⟩ hall hrun
  obtain ⟨⟨hsuf, hbal, hpost⟩, hidle⟩ := hinv
  have htodo : s.todo = [] := by
    by_contra hne
    rw [hposted] at hpost
    exact posts_ne_nil hends hsuf hne (by simpa using hpost)
  rw [hidle htodo, htodo] at hbal
  simpa [owed, charges] using hbal

/-- A wait ends when all its calls are granted. -/
theorem drain (fl : ℚ → ℚ) (burstSize : ℕ) (l : Limiter) (w : WaitLoop) (todo : List Call)
    (granted : List (Limiter × ℕ)) (posted : List (List SendWr)) :
    ∃ es w' granted', run (step fl burstSize) ⟨some (l, w), todo, granted, posted⟩ es =
      some ⟨some (l, w'), todo, granted', posted⟩ ∧ w'.amount = none := by
  obtain ⟨k, hk⟩ : ∃ k, k = w.chunks.length := ⟨_, rfl⟩
  induction k generalizing w granted with
  | zero =>
    have hnil : w.chunks = [] := List.length_eq_zero_iff.mp hk.symm
    exact ⟨[], w, granted, rfl, by simp [WaitLoop.amount_eq_head, hnil]⟩
  | succ k ih =>
    obtain ⟨n, rest, hn⟩ := List.exists_cons_of_length_eq_add_one hk.symm
    have hamount : w.amount = some n := by simp [WaitLoop.amount_eq_head, hn]
    obtain ⟨es, w', granted', hrun, hend⟩ := ih (w.next true) (granted ++ [(l, n)])
      (by rw [WaitLoop.chunks_next_granted, hn]; simpa [hn] using hk)
    refine ⟨.consume true :: es, w', granted', ?_, hend⟩
    rw [run_cons]
    simpa [step, hamount] using hrun

/-- Every program whose waits are defined has a run that makes all its provider calls. -/
theorem exists_run (hdef : ∀ c ∈ program,
    (∃ wrs, c = .postSend wrs) ∨ ∃ lw, c.wait fl burstSize = some lw) :
    ∃ es s, run (step fl burstSize) (start program) es = some s ∧ s.posted = posts program := by
  suffices hgen : ∀ lw granted posted, (lw.bind fun lw : Limiter × WaitLoop => lw.2.amount) = none →
      ∃ es s, run (step fl burstSize) ⟨lw, program, granted, posted⟩ es = some s ∧
        s.posted = posted ++ posts program from by
    simpa [start] using hgen none [] [] rfl
  induction program with
  | nil =>
    intro lw granted posted _
    exact ⟨[], _, rfl, by simp [posts]⟩
  | cons c program ih =>
    intro lw granted posted hidle
    have htail := ih fun c hc => hdef c (List.mem_cons_of_mem _ hc)
    rcases hdef c (by simp) with ⟨wrs, rfl⟩ | ⟨lw', hw⟩
    · obtain ⟨es, s, hrun, hposted⟩ := htail none granted (posted ++ [wrs]) rfl
      refine ⟨.enter :: es, s, ?_, ?_⟩
      · rw [run_cons]
        simpa [step, hidle] using hrun
      · rw [hposted]
        simp [posts]
    · obtain ⟨es₁, w', granted', hrun₁, hend⟩ :=
        drain fl burstSize lw'.1 lw'.2 program granted posted
      obtain ⟨es₂, s, hrun₂, hposted⟩ := htail (some (lw'.1, w')) granted' posted hend
      have hstep : step fl burstSize ⟨lw, c :: program, granted, posted⟩ .enter =
          some ⟨some lw', program, granted, posted⟩ := by
        cases c with
        | postSend wrs => simp [Call.wait] at hw
        | waitForRequestToken start => simp [step, hidle, hw]
        | waitForToken tokens start => simp [step, hidle, hw]
      refine ⟨.enter :: (es₁ ++ es₂), s, ?_, ?_⟩
      · rw [run_cons, hstep, Option.bind_some, run_append_eq_some]
        exact ⟨_, hrun₁, hrun₂⟩
      · cases c with
        | postSend wrs => simp [Call.wait] at hw
        | waitForRequestToken start => simpa [posts] using hposted
        | waitForToken tokens start => simpa [posts] using hposted

end RdmaperfIso.PostSend
