import RdmaperfIso.Lib.Binary64
import RdmaperfIso.Lib.Charges
import RdmaperfIso.Lib.Run
import RdmaperfIso.TokenBucket.Admission

/-! `consume` under contention: the calls on one bucket, each broken into its atomic
accesses to the clock and to the shared bucket time, interleaved in any order. The rate
of the token bucket does not change during the run. -/
namespace RdmaperfIso.Contention
open FixedWidth Floating TokenBucket Charges Run

/-- The local variables `now`, `time_needed` and `min_time` of a call. -/
structure Frame where
  now : ℕ
  timeNeeded : ℕ
  minTime : ℕ
  deriving DecidableEq, Repr

/-- Where a call stands: before its clock reading, before its first load, before a
compare-and-swap from `oldTime` to `newTime`, before the reload that follows a lost
compare-and-swap, or finished. -/
inductive Pc where
  | entered
  | clocked (f : Frame)
  | trying (f : Frame) (oldTime newTime : ℕ)
  | lost (f : Frame)
  | returned (granted : Bool)
  deriving DecidableEq, Repr

/-- A successful compare-and-swap. -/
structure Grant (ι : Type) where
  caller : ι
  now : ℕ
  timeNeeded : ℕ
  oldTime : ℕ
  newTime : ℕ
  deriving DecidableEq, Repr

/-- The bucket time around one atomic step. -/
structure Move (ι : Type) where
  caller : ι
  before : ℕ
  after : ℕ
  deriving DecidableEq, Repr

/-- `grants` and `moves` are history variables: no step reads them. -/
structure State (ι : Type) where
  time : ℕ
  pc : ι → Pc
  grants : List (Grant ι)
  moves : List (Move ι)

inductive Action where
  | readClock (now : ℕ)
  | load
  | compareAndSwap
  | reload
  deriving DecidableEq, Repr

variable {ι : Type}

def Action.reading : Action → Option ℕ
  | .readClock now => some now
  | _ => none

/-- The clock readings of a run, in order. -/
def readings (es : List (ι × Action)) : List ℕ := es.filterMap fun e => e.2.reading

theorem mem_readings {es : List (ι × Action)} {p : ι} {now : ℕ}
    (h : (p, Action.readClock now) ∈ es) : now ∈ readings es :=
  List.mem_filterMap.mpr ⟨_, h, rfl⟩

def start (time : ℕ) : State ι := ⟨time, fun _ => .entered, [], []⟩

/-- A candidate past the clock reading ends the call with `false`. -/
def attempt (f : Frame) (oldTime newTime : ℕ) : Pc :=
  if f.now < newTime then .returned false else .trying f oldTime newTime

variable [DecidableEq ι]

def State.goto (s : State ι) (p : ι) (pc : Pc) : State ι :=
  { s with
    pc := Function.update s.pc p pc
    moves := s.moves ++ [⟨p, s.time, s.time⟩] }

def State.swap (s : State ι) (p : ι) (f : Frame) (oldTime newTime : ℕ) : State ι where
  time := newTime
  pc := Function.update s.pc p (.returned true)
  grants := s.grants ++ [⟨p, f.now, f.timeNeeded, oldTime, newTime⟩]
  moves := s.moves ++ [⟨p, s.time, newTime⟩]

/-- One atomic step of the call `e.1`, which asks for `tokens e.1`. A step that is not
the next one of its call is not taken. -/
def step (fl : ℚ → ℚ) (tb : TokenBucket) (tokens : ι → ℕ) (s : State ι) (e : ι × Action) :
    Option (State ι) :=
  match s.pc e.1, e.2 with
  | .entered, .readClock now => do
    let needed ← tb.timeNeeded fl (tokens e.1)
    let least ← tb.minTime fl now
    some (s.goto e.1 (.clocked ⟨now, needed, least⟩))
  | .clocked f, .load =>
    some (s.goto e.1 (attempt f s.time (firstCandidate s.time f.minTime f.timeNeeded)))
  | .trying f oldTime newTime, .compareAndSwap =>
    if s.time = oldTime then some (s.swap e.1 f oldTime newTime) else some (s.goto e.1 (.lost f))
  | .lost f, .reload =>
    some (s.goto e.1 (attempt f s.time (retryCandidate s.time f.timeNeeded)))
  | _, _ => none

variable {fl : ℚ → ℚ} {tb : TokenBucket} {tokens : ι → ℕ} {s s' : State ι} {p : ι} {a : Action}

/-- Everything that one step can do. -/
theorem step_cases (h : step fl tb tokens s (p, a) = some s') :
    (∃ now n l, a = .readClock now ∧ s.pc p = .entered ∧ tb.timeNeeded fl (tokens p) = some n ∧
      tb.minTime fl now = some l ∧ s' = s.goto p (.clocked ⟨now, n, l⟩)) ∨
    (∃ f, a = .load ∧ s.pc p = .clocked f ∧
      s' = s.goto p (attempt f s.time (firstCandidate s.time f.minTime f.timeNeeded))) ∨
    (∃ f new, a = .compareAndSwap ∧ s.pc p = .trying f s.time new ∧
      s' = s.swap p f s.time new) ∨
    (∃ f old new, a = .compareAndSwap ∧ s.pc p = .trying f old new ∧ s.time ≠ old ∧
      s' = s.goto p (.lost f)) ∨
    (∃ f, a = .reload ∧ s.pc p = .lost f ∧
      s' = s.goto p (attempt f s.time (retryCandidate s.time f.timeNeeded))) := by
  unfold step at h
  cases a with
  | readClock now =>
    cases hp : s.pc p <;> simp only [hp, reduceCtorEq] at h
    left
    simp only [Option.bind_eq_bind, Option.bind_eq_some_iff] at h
    obtain ⟨n, hn, l, hl, hs⟩ := h
    exact ⟨now, n, l, rfl, rfl, hn, hl, (Option.some.inj hs).symm⟩
  | load =>
    cases hp : s.pc p <;> simp only [hp, reduceCtorEq] at h
    right; left
    exact ⟨_, rfl, rfl, (Option.some.inj h).symm⟩
  | compareAndSwap =>
    cases hp : s.pc p <;> simp only [hp, reduceCtorEq] at h
    right; right
    split_ifs at h with hold
    · subst hold
      left
      exact ⟨_, _, rfl, rfl, (Option.some.inj h).symm⟩
    · right; left
      exact ⟨_, _, _, rfl, rfl, hold, (Option.some.inj h).symm⟩
  | reload =>
    cases hp : s.pc p <;> simp only [hp, reduceCtorEq] at h
    right; right; right; right
    exact ⟨_, rfl, rfl, (Option.some.inj h).symm⟩

section Accounting

variable (fl : ℚ → ℚ) (tb : TokenBucket) (tokens : ι → ℕ) (T₀ : ℕ) (es : List (ι × Action))

/-- No charge of the run overflows: neither on top of the initial bucket time, nor on
top of a clock reading, nor on top of the caller's own clamp. -/
structure NoOverflow : Prop where
  initial : ∀ p m n, (p, Action.readClock m) ∈ es → tb.timeNeeded fl (tokens p) = some n →
    T₀ + n < 2 ^ 64
  reading : ∀ p m n q now, (p, Action.readClock m) ∈ es →
    tb.timeNeeded fl (tokens p) = some n → (q, Action.readClock now) ∈ es → now + n < 2 ^ 64
  clamp : ∀ p m n l, (p, Action.readClock m) ∈ es → tb.timeNeeded fl (tokens p) = some n →
    tb.minTime fl m = some l → l + n < 2 ^ 64

/-- The frame holds what the call `p` computed after one of the run's clock readings. -/
structure Frame.Valid (p : ι) (f : Frame) : Prop where
  read : (p, Action.readClock f.now) ∈ es
  needed : tb.timeNeeded fl (tokens p) = some f.timeNeeded
  least : tb.minTime fl f.now = some f.minTime

def PcOk (p : ι) : Pc → Prop
  | .entered | .returned _ => True
  | .clocked f | .lost f => f.Valid fl tb tokens es p
  | .trying f oldTime newTime =>
    f.Valid fl tb tokens es p ∧ oldTime + f.timeNeeded ≤ newTime ∧ newTime ≤ f.now

def Grant.lo (g : Grant ι) : ℕ := g.newTime - g.timeNeeded

/-- The interval of bucket time that the grant charges ends at the stored time and by
the caller's clock reading. -/
structure Grant.Ok (time : ℕ) (g : Grant ι) : Prop where
  read : (g.caller, Action.readClock g.now) ∈ es
  needed : tb.timeNeeded fl (tokens g.caller) = some g.timeNeeded
  initial_le : T₀ ≤ g.oldTime
  charge_le : g.oldTime + g.timeNeeded ≤ g.newTime
  le_now : g.newTime ≤ g.now
  le_time : g.newTime ≤ time

/-- Exactly one of the recorded steps of `p` moves the time, by at least `n`. -/
def MovedOnce (moves : List (Move ι)) (p : ι) (n : ℕ) : Prop :=
  ∃ xs m ys, moves = xs ++ m :: ys ∧ m.caller = p ∧ m.before + n ≤ m.after ∧
    ∀ m' ∈ xs ++ ys, m'.caller = p → m'.after = m'.before

structure Inv (s : State ι) : Prop where
  pcs : ∀ p, PcOk fl tb tokens es p (s.pc p)
  low : T₀ ≤ s.time
  top : s.time = T₀ ∨ ∃ g ∈ s.grants, s.time = g.newTime
  granted : ∀ g ∈ s.grants, g.Ok fl tb tokens T₀ es s.time
  stacked : Stacked Grant.lo Grant.timeNeeded s.grants
  once : ∀ p, (s.grants.filter (·.caller = p)).length = if s.pc p = .returned true then 1 else 0
  still : ∀ p, s.pc p ≠ .returned true → ∀ m ∈ s.moves, m.caller = p → m.after = m.before
  moved : ∀ p, s.pc p = .returned true →
    ∃ n, tb.timeNeeded fl (tokens p) = some n ∧ MovedOnce s.moves p n

end Accounting

section Preservation
variable {T₀ : ℕ} {es : List (ι × Action)}

theorem start_inv : Inv fl tb tokens T₀ es (start T₀) where
  pcs := fun _ => trivial
  low := le_rfl
  top := Or.inl rfl
  granted := by simp [start]
  stacked := List.Pairwise.nil
  once := by simp [start]
  still := by simp [start]
  moved := by simp [start]

omit [DecidableEq ι] in
/-- A further step of the call, which does not move the time, changes nothing. -/
theorem MovedOnce.concat {moves : List (Move ι)} {m : Move ι} {n : ℕ} (h : MovedOnce moves p n)
    (hm : m.caller = p → m.after = m.before) : MovedOnce (moves ++ [m]) p n := by
  obtain ⟨xs, m₁, ys, rfl, hcaller, hle, hrest⟩ := h
  refine ⟨xs, m₁, ys ++ [m], by simp, hcaller, hle, ?_⟩
  rw [← List.append_assoc, List.forall_mem_append, List.forall_mem_singleton]
  exact ⟨hrest, hm⟩

/-- A step of `p` that leaves the bucket time alone keeps the accounting. -/
theorem Inv.goto (h : Inv fl tb tokens T₀ es s) {pc : Pc} (hp : s.pc p ≠ .returned true)
    (hpc : pc ≠ .returned true) (hok : PcOk fl tb tokens es p pc) :
    Inv fl tb tokens T₀ es (s.goto p pc) where
  pcs := (Function.forall_update_iff s.pc (PcOk fl tb tokens es)).mpr ⟨hok, fun q _ => h.pcs q⟩
  low := h.low
  top := h.top
  granted := h.granted
  stacked := h.stacked
  once q := by
    by_cases hqp : q = p
    · subst hqp
      simpa only [State.goto, Function.update_self, if_neg hpc, if_neg hp] using h.once q
    · simpa only [State.goto, Function.update_of_ne hqp] using h.once q
  still q hq := by
    have hold : s.pc q ≠ .returned true := by
      by_cases hqp : q = p
      · rw [hqp]
        exact hp
      · simpa only [State.goto, Function.update_of_ne hqp] using hq
    rw [State.goto, List.forall_mem_append, List.forall_mem_singleton]
    exact ⟨h.still q hold, fun _ => rfl⟩
  moved q hq := by
    have hqp : q ≠ p := by
      rintro rfl
      simp only [State.goto, Function.update_self] at hq
      exact hpc hq
    simp only [State.goto, Function.update_of_ne hqp] at hq
    obtain ⟨n, hn, hmoved⟩ := h.moved q hq
    exact ⟨n, hn, hmoved.concat fun _ => rfl⟩

/-- A successful compare-and-swap charges an interval above all earlier ones. -/
theorem Inv.swap (h : Inv fl tb tokens T₀ es s) {f : Frame} {newTime : ℕ}
    (hp : s.pc p = .trying f s.time newTime) :
    Inv fl tb tokens T₀ es (s.swap p f s.time newTime) := by
  have hok := h.pcs p
  simp only [hp, PcOk] at hok
  obtain ⟨hf, hcharge, hnow⟩ := hok
  have hne : s.pc p ≠ .returned true := by simp [hp]
  have hgrow : s.time ≤ newTime := by omega
  constructor
  case pcs =>
    have hdone : PcOk fl tb tokens es p (.returned true) := trivial
    exact (Function.forall_update_iff s.pc (PcOk fl tb tokens es)).mpr
      ⟨hdone, fun q _ => h.pcs q⟩
  case low => exact h.low.trans hgrow
  case top =>
    right
    exact ⟨⟨p, f.now, f.timeNeeded, s.time, newTime⟩, by simp [State.swap], rfl⟩
  case granted =>
    simp only [State.swap, List.forall_mem_append, List.forall_mem_singleton]
    constructor
    · intro g hg
      have hold := h.granted g hg
      exact { hold with le_time := hold.le_time.trans hgrow }
    · exact ⟨hf.read, hf.needed, h.low, hcharge, hnow, le_rfl⟩
  case stacked =>
    apply stacked_concat.mpr
    constructor
    · exact h.stacked
    · intro g hg
      have hend := (h.granted g hg).charge_le
      have htime := (h.granted g hg).le_time
      simp only [Grant.lo]
      omega
  case once =>
    intro q
    simp only [State.swap, List.filter_append, List.length_append, h.once q]
    by_cases hqp : q = p
    · subst hqp
      simp [hne]
    · simp [Function.update_of_ne hqp, Ne.symm hqp]
  case still =>
    intro q hq
    have hqp : q ≠ p := by
      rintro rfl
      simp only [State.swap, Function.update_self, ne_eq, not_true_eq_false] at hq
    simp only [State.swap, Function.update_of_ne hqp] at hq
    simp only [State.swap, List.forall_mem_append, List.forall_mem_singleton]
    exact ⟨h.still q hq, fun hpq => absurd hpq.symm hqp⟩
  case moved =>
    intro q hq
    by_cases hqp : q = p
    · subst hqp
      refine ⟨f.timeNeeded, hf.needed, s.moves, ⟨q, s.time, newTime⟩, [], rfl, rfl, hcharge, ?_⟩
      simpa using h.still q hne
    · simp only [State.swap, Function.update_of_ne hqp] at hq
      obtain ⟨n, hn, hmoved⟩ := h.moved q hq
      exact ⟨n, hn, hmoved.concat fun hpq => absurd hpq.symm hqp⟩

/-- On top of the current bucket time no charge of the run overflows. -/
theorem Inv.time_add_lt (h : Inv fl tb tokens T₀ es s) (hno : NoOverflow fl tb tokens T₀ es)
    {f : Frame} (hf : f.Valid fl tb tokens es p) : s.time + f.timeNeeded < 2 ^ 64 := by
  rcases h.top with ht | ⟨g, hg, ht⟩
  · rw [ht]
    exact hno.initial p f.now _ hf.read hf.needed
  · have hok := h.granted g hg
    have hlt := hno.reading p f.now _ g.caller g.now hf.read hf.needed hok.read
    have hle := hok.le_now
    omega

/-- So the first candidate of a call is the exact sum. -/
theorem Inv.firstCandidate_eq (h : Inv fl tb tokens T₀ es s) (hno : NoOverflow fl tb tokens T₀ es)
    {f : Frame} (hf : f.Valid fl tb tokens es p) :
    firstCandidate s.time f.minTime f.timeNeeded = max s.time f.minTime + f.timeNeeded := by
  have htime := h.time_add_lt hno hf
  have hclamp := hno.clamp p f.now _ _ hf.read hf.needed hf.least
  exact TokenBucket.firstCandidate_eq s.time f.minTime f.timeNeeded (by omega)

omit [DecidableEq ι] in
theorem attempt_ok {f : Frame} {oldTime newTime : ℕ} (hf : f.Valid fl tb tokens es p)
    (hle : oldTime + f.timeNeeded ≤ newTime) :
    PcOk fl tb tokens es p (attempt f oldTime newTime) := by
  unfold attempt
  split_ifs with hnow
  · trivial
  · exact ⟨hf, hle, not_lt.mp hnow⟩

theorem attempt_ne (f : Frame) (oldTime newTime : ℕ) :
    attempt f oldTime newTime ≠ .returned true := by
  unfold attempt
  split_ifs <;> simp

theorem step_inv (hno : NoOverflow fl tb tokens T₀ es) (e : ι × Action) (he : e ∈ es)
    (h : Inv fl tb tokens T₀ es s) (hs : step fl tb tokens s e = some s') :
    Inv fl tb tokens T₀ es s' := by
  obtain ⟨p, a⟩ := e
  have hpc := h.pcs p
  rcases step_cases hs with ⟨now, n, l, rfl, hp, hn, hl, rfl⟩ | ⟨f, rfl, hp, rfl⟩ |
    ⟨f, new, rfl, hp, rfl⟩ | ⟨f, old, new, rfl, hp, hold, rfl⟩ | ⟨f, rfl, hp, rfl⟩
  · exact h.goto (by simp [hp]) (by simp) ⟨he, hn, hl⟩
  · simp only [hp, PcOk] at hpc
    have hc := h.firstCandidate_eq hno hpc
    exact h.goto (by simp [hp]) (attempt_ne _ _ _) (attempt_ok hpc (by omega))
  · exact h.swap hp
  · simp only [hp, PcOk] at hpc
    exact h.goto (by simp [hp]) (by simp) hpc.1
  · simp only [hp, PcOk] at hpc
    have hc := retryCandidate_eq (h.time_add_lt hno hpc)
    exact h.goto (by simp [hp]) (attempt_ne _ _ _) (attempt_ok hpc hc.ge)

end Preservation

/-- Every step of the run is recorded in `moves`, in order. -/
theorem run_moves {es : List (ι × Action)} (h : run (step fl tb tokens) s es = some s') :
    s'.moves.map Move.caller = s.moves.map Move.caller ++ es.map Prod.fst := by
  induction es generalizing s with
  | nil =>
    obtain rfl := Option.some.inj h
    simp
  | cons e es ih =>
    obtain ⟨t, ht, hr⟩ := run_cons_eq_some.mp h
    have hone : t.moves.map Move.caller = s.moves.map Move.caller ++ [e.1] := by
      obtain ⟨p, a⟩ := e
      rcases step_cases ht with ⟨now, n, l, -, -, -, -, rfl⟩ | ⟨f, -, -, rfl⟩ |
        ⟨f, new, -, -, rfl⟩ | ⟨f, old, new, -, -, -, rfl⟩ | ⟨f, -, -, rfl⟩ <;>
        simp [State.goto, State.swap]
    rw [ih hr, hone]
    simp

/-- What the history of a run from bucket time `T₀` to the state `s` accounts for. -/
structure Accounted (fl : ℚ → ℚ) (tb : TokenBucket) (tokens : ι → ℕ) (T₀ : ℕ)
    (es : List (ι × Action)) (s : State ι) : Prop where
  recorded : s.moves.map Move.caller = es.map Prod.fst
  never_decreases : ∀ es₁ es₂ s₁, es = es₁ ++ es₂ →
    run (step fl tb tokens) (start T₀) es₁ = some s₁ → T₀ ≤ s₁.time ∧ s₁.time ≤ s.time
  bounded : s.time ≤ T₀ ∨ ∃ g ∈ s.grants, s.time ≤ g.now
  refused : ∀ p, s.pc p = .returned false →
    (∀ m ∈ s.moves, m.caller = p → m.after = m.before) ∧ ∀ g ∈ s.grants, g.caller ≠ p
  granted : ∀ p, s.pc p = .returned true →
    (∃ n, tb.timeNeeded fl (tokens p) = some n ∧ MovedOnce s.moves p n) ∧
      (s.grants.filter (·.caller = p)).length = 1
  successful : ∀ g ∈ s.grants, s.pc g.caller = .returned true ∧
    tb.timeNeeded fl (tokens g.caller) = some g.timeNeeded ∧ g.oldTime + g.timeNeeded ≤ g.newTime
  disjoint : s.grants.Pairwise fun g g' => Disjoint
    (Set.Ico (g.newTime - g.timeNeeded) g.newTime) (Set.Ico (g'.newTime - g'.timeNeeded) g'.newTime)
  total : (s.grants.map Grant.timeNeeded).sum + T₀ ≤ s.time

section Runs
variable {T₀ : ℕ} {es es' : List (ι × Action)}

theorem run_inv (hno : NoOverflow fl tb tokens T₀ es') (hsub : es ⊆ es')
    (h : Inv fl tb tokens T₀ es' s) (hrun : run (step fl tb tokens) s es = some s') :
    Inv fl tb tokens T₀ es' s' ∧ s.time ≤ s'.time := by
  have hmem : Meets (step fl tb tokens) (fun _ e => e ∈ es') s es := meets_of_forall fun e he =>
    hsub he
  refine run_invariant (P := fun t => Inv fl tb tokens T₀ es' t ∧ s.time ≤ t.time) ?_ ⟨h, le_rfl⟩
    hmem hrun
  rintro t e t' ⟨ht, hle⟩ he hs
  have ht' := step_inv hno e he ht hs
  refine ⟨ht', hle.trans ?_⟩
  obtain ⟨p, a⟩ := e
  rcases step_cases hs with ⟨now, n, l, -, -, -, -, rfl⟩ | ⟨f, -, -, rfl⟩ |
    ⟨f, new, -, hp, rfl⟩ | ⟨f, old, new, -, -, -, rfl⟩ | ⟨f, -, -, rfl⟩
  · exact le_rfl
  · exact le_rfl
  · have hok := ht.pcs p
    simp only [hp, PcOk] at hok
    exact (Nat.le_add_right _ _).trans hok.2.1
  · exact le_rfl
  · exact le_rfl

omit [DecidableEq ι] in
theorem Grant.Ok.lo_add {time : ℕ} {g : Grant ι} (h : g.Ok fl tb tokens T₀ es time) :
    g.lo + g.timeNeeded = g.newTime :=
  Nat.sub_add_cancel ((Nat.le_add_left _ _).trans h.charge_le)

theorem Inv.returned_of_mem (h : Inv fl tb tokens T₀ es s) {g : Grant ι} (hg : g ∈ s.grants) :
    s.pc g.caller = .returned true := by
  by_contra hne
  have hcount := h.once g.caller
  rw [if_neg hne, List.length_eq_zero_iff, List.filter_eq_nil_iff] at hcount
  exact hcount g hg (by simp)

/-- In every interleaving without overflow no charge is lost or counted twice. -/
theorem charges_accounted (hno : NoOverflow fl tb tokens T₀ es)
    (hrun : run (step fl tb tokens) (start T₀) es = some s) :
    Accounted fl tb tokens T₀ es s := by
  have h := (run_inv hno (List.Subset.refl es) start_inv hrun).1
  refine ⟨by simpa [start] using run_moves hrun, ?_, ?_, ?_, ?_, ?_, ?_, ?_⟩
  · rintro es₁ es₂ s₁ rfl hs₁
    obtain ⟨t, ht, hrest⟩ := run_append_eq_some.mp hrun
    obtain rfl : t = s₁ := Option.some.inj (ht.symm.trans hs₁)
    have h₁ := run_inv hno (List.subset_append_left es₁ es₂) start_inv ht
    exact ⟨h₁.1.low, (run_inv hno (List.subset_append_right es₁ es₂) h₁.1 hrest).2⟩
  · rcases h.top with ht | ⟨g, hg, ht⟩
    · exact Or.inl ht.le
    · exact Or.inr ⟨g, hg, ht.le.trans (h.granted g hg).le_now⟩
  · intro p hp
    refine ⟨h.still p (by simp [hp]), ?_⟩
    rintro g hg rfl
    simp [h.returned_of_mem hg] at hp
  · intro p hp
    exact ⟨h.moved p hp, by rw [h.once p, if_pos hp]⟩
  · intro g hg
    exact ⟨h.returned_of_mem hg, (h.granted g hg).needed, (h.granted g hg).charge_le⟩
  · refine List.Pairwise.imp_of_mem (fun {g g'} hg hg' hd => ?_) h.stacked.disjoint
    rwa [(h.granted g hg).lo_add, (h.granted g' hg').lo_add] at hd
  · refine h.stacked.sum_width_le (fun g hg => ?_) (fun g hg => ?_) h.low
    · have hok := h.granted g hg
      have h1 := hok.initial_le
      have h2 := hok.charge_le
      simp only [Grant.lo]
      omega
    · rw [(h.granted g hg).lo_add]
      exact (h.granted g hg).le_time

end Runs

section Instances

omit [DecidableEq ι] in
/-- Charges bounded by `N` and clock readings bounded by `M` leave the word its room. -/
theorem noOverflow_of_le {T₀ M N : ℕ} {es : List (ι × Action)} (h₀ : T₀ ≤ M)
    (hM : ∀ m ∈ readings es, m ≤ M) (hl : ∀ m ∈ readings es, ∀ l ∈ tb.minTime fl m, l ≤ m)
    (hN : ∀ p, ∀ n ∈ tb.timeNeeded fl (tokens p), n ≤ N) (hMN : M + N < 2 ^ 64) :
    NoOverflow fl tb tokens T₀ es := by
  constructor
  · intro p m n _ hn
    have := hN p n hn
    omega
  · intro p m n q now _ hn hq
    have := hN p n hn
    have := hM now (mem_readings hq)
    omega
  · intro p m n l hp hn hlm
    have := hl m (mem_readings hp) l hlm
    have := hN p n hn
    have := hM m (mem_readings hp)
    omega

/-- A bucket that charges one nanosecond for a token and holds sixteen of them. -/
def nanosecondBucket : TokenBucket := initTokenBucket id 16000000000 256

/-- The same bucket with the `double` fields of C. -/
def nanosecondDouble : TokenBucket := initTokenBucket binary64.round 16000000000 256

/-- Two calls load the same bucket time; the second one loses the race and retries. -/
def raceEvents : List (Fin 2 × Action) :=
  [(0, .readClock 100), (1, .readClock 100), (0, .load), (1, .load), (0, .compareAndSwap),
    (1, .compareAndSwap), (1, .reload), (1, .compareAndSwap)]

theorem charges_accounted_race :
    NoOverflow id nanosecondBucket ![3, 4] 90 raceEvents ∧
      ∃ s, run (step id nanosecondBucket ![3, 4]) (start 90) raceEvents = some s ∧
        s.time = 97 ∧ Accounted id nanosecondBucket ![3, 4] 90 raceEvents s := by
  have hno : NoOverflow id nanosecondBucket ![3, 4] 90 raceEvents :=
    noOverflow_of_le (M := 100) (N := 4) (by norm_num) (by decide) (by decide +kernel)
      (by decide +kernel) (by norm_num)
  have hrun : ((run (step id nanosecondBucket ![3, 4]) (start 90) raceEvents).map State.time) =
      some 97 := by decide +kernel
  obtain ⟨s, hs, ht⟩ := Option.map_eq_some_iff.mp hrun
  exact ⟨hno, s, hs, ht, charges_accounted hno hs⟩

/-- Each clock reading is past one burst, and the caller's own charge on top of it fits
the 64-bit word. Nothing is said about the bucket time. -/
def OwnReadingFits (fl : ℚ → ℚ) (tb : TokenBucket) (tokens : ι → ℕ) (es : List (ι × Action)) :
    Prop :=
  ∀ e ∈ es, ∀ now ∈ e.2.reading, (∃ t ∈ tb.timePerBurst, t ≤ now) ∧
    ∃ n ∈ tb.timeNeeded fl (tokens e.1), now + n < 2 ^ 64

/-- A single call on a bucket whose time is the last 64-bit value. -/
def lastValueEvents : List (Fin 1 × Action) :=
  [(0, .readClock 16), (0, .load), (0, .compareAndSwap)]

/-- One nanosecond for a token, and sixteen times 65536 tokens. -/
def wideBucket : TokenBucket := initTokenBucket binary64.round 16000000000 (2 ^ 20)

/-- From bucket time zero: call 1 reads the clock, call 0 reads it much later and charges
the bucket, and call 1 goes on from there. -/
def staleEvents : List (Fin 2 × Action) :=
  [(1, .readClock (2 ^ 62)), (0, .readClock (2 ^ 63)), (0, .load), (0, .compareAndSwap),
    (1, .load), (1, .compareAndSwap)]

/-- That each caller's own reading leaves room for its charge does not keep the bucket
time from wrapping around and falling back. -/
theorem own_reading_fits_rewinds :
    (OwnReadingFits binary64.round nanosecondDouble ![1] lastValueEvents ∧
      ∃ s, run (step binary64.round nanosecondDouble ![1]) (start (2 ^ 64 - 1)) lastValueEvents =
          some s ∧ s.time < 2 ^ 64 - 1) ∧
    OwnReadingFits binary64.round wideBucket ![65536, 2 ^ 63] staleEvents ∧
      ∃ s, run (step binary64.round wideBucket ![65536, 2 ^ 63]) (start 0) staleEvents = some s ∧
        ∃ m ∈ s.moves, m.after < m.before := by
  refine ⟨⟨?_, ?_⟩, ?_, ?_⟩
  · unfold OwnReadingFits
    decide +kernel
  · have hrun : ((run (step binary64.round nanosecondDouble ![1]) (start (2 ^ 64 - 1))
        lastValueEvents).map State.time) = some 0 := by decide +kernel
    obtain ⟨s, hs, ht⟩ := Option.map_eq_some_iff.mp hrun
    exact ⟨s, hs, by rw [ht]; norm_num⟩
  · unfold OwnReadingFits
    decide +kernel
  · have hrun : ((run (step binary64.round wideBucket ![65536, 2 ^ 63]) (start 0)
        staleEvents).map fun s => s.moves.getLast?) = some (some ⟨1, 2 ^ 63, 0⟩) := by
      decide +kernel
    obtain ⟨s, hs, hm⟩ := Option.map_eq_some_iff.mp hrun
    exact ⟨s, hs, _, List.mem_of_getLast? hm, by norm_num⟩

end Instances

section Solo

/-- The steps of a call that nobody interrupts. -/
def soloCall (p : ι) (now : ℕ) (granted : Bool) : List (ι × Action) :=
  (p, .readClock now) :: (p, .load) :: if granted then [(p, .compareAndSwap)] else []

/-- A call that nobody interrupts does what `consume` does as a whole: it leaves the
bucket with the same time and returns the same answer. -/
theorem run_soloCall {b : Fin nrBucket} {bucket : ℤ} {now : ℕ} {granted : Bool} {tb' : TokenBucket}
    (hb : bucketIndex bucket = some b)
    (h : tb.consume fl (tokens p) bucket now = some (granted, tb')) :
    (run (step fl tb tokens) (start (tb.buckets b)) (soloCall p now granted)).map
      (fun s => (s.pc p, s.time)) = some (.returned granted, tb'.buckets b) := by
  simp only [consume, hb, Option.bind_eq_bind, Option.bind_some, Option.bind_eq_some_iff] at h
  obtain ⟨n, hn, l, hl, h⟩ := h
  obtain ⟨new, hnew⟩ : ∃ t, t = firstCandidate (tb.buckets b) l n := ⟨_, rfl⟩
  rw [← hnew] at h
  split_ifs at h with hnow
  · obtain ⟨rfl, rfl⟩ := Prod.mk.inj (Option.some.inj h)
    simp [soloCall, run_cons, step, start, hn, hl, State.goto, attempt, ← hnew, hnow]
  · obtain ⟨rfl, rfl⟩ := Prod.mk.inj (Option.some.inj h)
    simp [soloCall, run_cons, step, start, hn, hl, State.goto, State.swap, attempt, ← hnew, hnow]

end Solo

end RdmaperfIso.Contention
