import RdmaperfIso.Lib.Binary64
import RdmaperfIso.TokenBucket.Contention

/-! The burst limit of one bucket under contention. Only the first attempt of `consume`
clamps the bucket time to the caller's burst window; a retry after a lost race does not. -/
namespace RdmaperfIso.Contention
open FixedWidth Floating TokenBucket Charges Run

variable {ι : Type} [DecidableEq ι] {fl : ℚ → ℚ} {tb : TokenBucket} {tokens : ι → ℕ}
  {s s' : State ι} {p : ι}

/-- A caller that lost a race reloads a bucket time inside its own burst window, so that
leaving the clamp out makes no difference. -/
def Fresh (s : State ι) (e : ι × Action) : Prop :=
  match s.pc e.1, e.2 with
  | .lost f, .reload => f.minTime ≤ s.time
  | _, _ => True

instance (s : State ι) (e : ι × Action) : Decidable (Fresh s e) := by
  unfold Fresh
  split <;> infer_instance

/-- No pending or granted charge draws on time before the clamp of its caller. -/
structure Clamped (fl : ℚ → ℚ) (tb : TokenBucket) (s : State ι) : Prop where
  tries : ∀ p f old new, s.pc p = .trying f old new → f.minTime + f.timeNeeded ≤ new
  grants : ∀ g ∈ s.grants, ∃ l, tb.minTime fl g.now = some l ∧ l ≤ g.lo

variable {T₀ : ℕ} {es : List (ι × Action)}

theorem Clamped.goto (h : Clamped fl tb s) {pc : Pc}
    (hpc : ∀ f old new, pc = .trying f old new → f.minTime + f.timeNeeded ≤ new) :
    Clamped fl tb (s.goto p pc) := by
  constructor
  · intro q f old new hq
    by_cases hqp : q = p
    · subst hqp
      simp only [State.goto, Function.update_self] at hq
      exact hpc f old new hq
    · simp only [State.goto, Function.update_of_ne hqp] at hq
      exact h.tries q f old new hq
  · exact h.grants

theorem attempt_clamped {f f' : Frame} {oldTime newTime old new : ℕ}
    (h : attempt f oldTime newTime = .trying f' old new)
    (hle : f.minTime + f.timeNeeded ≤ newTime) : f'.minTime + f'.timeNeeded ≤ new := by
  unfold attempt at h
  split_ifs at h
  obtain ⟨rfl, -, rfl⟩ := Pc.trying.inj h
  exact hle

theorem step_clamped (hno : NoOverflow fl tb tokens T₀ es) (e : ι × Action)
    (hinv : Inv fl tb tokens T₀ es s) (hfresh : Fresh s e) (h : Clamped fl tb s)
    (hs : step fl tb tokens s e = some s') : Clamped fl tb s' := by
  obtain ⟨p, a⟩ := e
  have hpc := hinv.pcs p
  rcases step_cases hs with ⟨now, n, l, rfl, hp, hn, hl, rfl⟩ | ⟨f, rfl, hp, rfl⟩ |
    ⟨f, new, rfl, hp, rfl⟩ | ⟨f, old, new, rfl, hp, hold, rfl⟩ | ⟨f, rfl, hp, rfl⟩
  · apply h.goto
    intro f old new hf
    exact absurd hf (by simp)
  · simp only [hp, PcOk] at hpc
    have hc := hinv.firstCandidate_eq hno hpc
    apply h.goto
    intro f' old new hf
    exact attempt_clamped hf (by omega)
  · simp only [hp, PcOk] at hpc
    have hnew := h.tries p f s.time new hp
    constructor
    · intro q f' old' new' hq
      by_cases hqp : q = p
      · subst hqp
        simp only [State.swap, Function.update_self, reduceCtorEq] at hq
      · simp only [State.swap, Function.update_of_ne hqp] at hq
        exact h.tries q f' old' new' hq
    · simp only [State.swap, List.forall_mem_append, List.forall_mem_singleton]
      exact ⟨h.grants, f.minTime, hpc.1.least, by simp only [Grant.lo]; omega⟩
  · apply h.goto
    intro f' old' new' hf
    exact absurd hf (by simp)
  · simp only [hp, PcOk] at hpc
    have hle : f.minTime ≤ s.time := by simpa only [Fresh, hp] using hfresh
    have hc := retryCandidate_eq (hinv.time_add_lt hno hpc)
    apply h.goto
    intro f' old new hf
    exact attempt_clamped hf (by omega)

theorem run_clamped (hno : NoOverflow fl tb tokens T₀ es)
    (hfresh : Meets (step fl tb tokens) Fresh (start T₀) es)
    (hrun : run (step fl tb tokens) (start T₀) es = some s) :
    Inv fl tb tokens T₀ es s ∧ Clamped fl tb s := by
  have hmem : Meets (step fl tb tokens) (fun _ e => e ∈ es) (start T₀) es :=
    meets_of_forall fun _ he => he
  refine run_invariant (P := fun t => Inv fl tb tokens T₀ es t ∧ Clamped fl tb t) ?_
    ⟨start_inv, by simp [start], by simp [start]⟩ (hmem.and hfresh) hrun
  rintro t e t' ⟨ht, hc⟩ ⟨he, hf⟩ hs
  exact ⟨step_inv hno e he ht hs, step_clamped hno e ht hf hc hs⟩

section Doubles
variable {t : ℚ} {now l rate burstSize : ℕ}

theorem timePerBurst_nonneg
    (h : (initTokenBucket binary64.round rate burstSize).timePerBurst = some t) : 0 ≤ t := by
  obtain ⟨u, hu, rfl⟩ := Option.map_eq_some_iff.mp h
  have hu0 : 0 ≤ u := by
    unfold tokenTime at hu
    split_ifs at hu
    obtain rfl := Option.some.inj hu
    have hrate : 0 ≤ perBucketRate binary64.round rate :=
      binary64.round_nonneg (div_nonneg (binary64.round_nonneg (Nat.cast_nonneg rate)) (by simp))
    exact binary64.round_nonneg (by positivity)
  have hburst : 0 ≤ binary64.round (binary64.round burstSize / nrBucket) :=
    binary64.round_nonneg (div_nonneg (binary64.round_nonneg (Nat.cast_nonneg burstSize)) (by simp))
  exact binary64.round_nonneg (mul_nonneg hburst hu0)

/-- Below 2^53 a clock reading is a `double`, and rounding the difference does not carry the clamp
below the window. -/
theorem windowStart_le_minTime (hburst : tb.timePerBurst = some t) (ht : 0 ≤ t)
    (hnow : now < 2 ^ 53) (hl : tb.minTime binary64.round now = some l) :
    windowStart t now ≤ l := by
  rw [minTime, hburst, Option.bind_some, binary64_round_natCast hnow] at hl
  obtain ⟨-, -, rfl⟩ := truncate_eq_some hl
  rcases le_or_gt 0 ((now : ℚ) - t) with h0 | hneg
  · have hlt : (now : ℚ) - t < 2 ^ 53 := by
      have hq : (now : ℚ) < 2 ^ 53 := by exact_mod_cast hnow
      linarith
    exact Nat.le_floor (binary64_natCast_le_round h0 hlt (Nat.floor_le h0))
  · rw [windowStart, Nat.floor_of_nonpos hneg.le]
    exact Nat.zero_le _

end Doubles

/-- In every interleaving in which no caller retries from a bucket time behind its own
burst window, the successful calls with a clock reading in a window charge no more than
the window and one burst allow, and none of them draws older credit. The clock is below 2^53. -/
theorem burst_limit (rate burstSize : ℕ) {t : ℚ}
    (hburst : (initTokenBucket binary64.round rate burstSize).timePerBurst = some t)
    (hno : NoOverflow binary64.round (initTokenBucket binary64.round rate burstSize) tokens T₀ es)
    (hnow : ∀ now ∈ readings es, now < 2 ^ 53)
    (hfresh : Meets (step binary64.round (initTokenBucket binary64.round rate burstSize) tokens)
      Fresh (start T₀) es)
    (hrun : run (step binary64.round (initTokenBucket binary64.round rate burstSize) tokens)
      (start T₀) es = some s) :
    (∀ t₁ t₂ : ℕ, t₁ ≤ t₂ →
      (((s.grants.filter fun g => t₁ ≤ g.now ∧ g.now ≤ t₂).map Grant.timeNeeded).sum : ℚ) ≤
        (t₂ - t₁ : ℚ) + t + 1) ∧
    ∀ g ∈ s.grants, (g.now : ℚ) - t < (g.newTime - g.timeNeeded : ℕ) + 1 := by
  obtain ⟨hinv, hclamp⟩ := run_clamped hno hfresh hrun
  have ht : 0 ≤ t := timePerBurst_nonneg hburst
  have hlo {g : Grant ι} (hg : g ∈ s.grants) : windowStart t g.now ≤ g.lo := by
    obtain ⟨l, hl, hle⟩ := hclamp.grants g hg
    have hread := mem_readings (hinv.granted g hg).read
    exact (windowStart_le_minTime hburst ht (hnow _ hread) hl).trans hle
  constructor
  · intro t₁ t₂ hle
    have hmem {g : Grant ι} (hg : g ∈ s.grants.filter fun g => t₁ ≤ g.now ∧ g.now ≤ t₂) :
        g ∈ s.grants ∧ t₁ ≤ g.now ∧ g.now ≤ t₂ := by
      obtain ⟨hg, hw⟩ := List.mem_filter.mp hg
      exact ⟨hg, of_decide_eq_true hw⟩
    apply sum_charges_le ht hle (hinv.stacked.sublist List.filter_sublist)
    · intro g hg
      exact (hmem hg).2
    · intro g hg
      exact hlo (hmem hg).1
    · intro g hg
      have hok := hinv.granted g (hmem hg).1
      rw [hok.lo_add]
      exact hok.le_now
  · intro g hg
    have hstart := lt_windowStart_add_one t g.now
    have hle : (windowStart t g.now : ℚ) ≤ (g.newTime - g.timeNeeded : ℕ) := by
      exact_mod_cast hlo hg
    linarith

theorem burst_limit_race :
    nanosecondDouble.timePerBurst = some 16 ∧
      Meets (step binary64.round nanosecondDouble ![3, 4]) Fresh (start 90) raceEvents ∧
      ∃ s, run (step binary64.round nanosecondDouble ![3, 4]) (start 90) raceEvents = some s ∧
        s.grants.length = 2 ∧
        (((s.grants.filter fun g => 100 ≤ g.now ∧ g.now ≤ 100).map Grant.timeNeeded).sum : ℚ) ≤
          ((100 : ℕ) - (100 : ℕ) : ℚ) + 16 + 1 := by
  have hburst : nanosecondDouble.timePerBurst = some 16 := by decide +kernel
  have hno : NoOverflow binary64.round nanosecondDouble ![3, 4] 90 raceEvents :=
    noOverflow_of_le (M := 100) (N := 4) (by norm_num) (by decide) (by decide +kernel)
      (by decide +kernel) (by norm_num)
  have hfresh : Meets (step binary64.round nanosecondDouble ![3, 4]) Fresh (start 90)
      raceEvents := by decide +kernel
  have hrun : ((run (step binary64.round nanosecondDouble ![3, 4]) (start 90) raceEvents).map
      fun s => s.grants.length) = some 2 := by decide +kernel
  obtain ⟨s, hs, hl⟩ := Option.map_eq_some_iff.mp hrun
  have hlimit := burst_limit 16000000000 256 hburst hno (by decide) hfresh hs
  exact ⟨hburst, hfresh, s, hs, hl, hlimit.1 100 100 le_rfl⟩

/-- Call 1 loads the bucket time zero and is clamped to 100, but loses the race to a call
that read the clock long before; its retry starts from that call's time. -/
def staleRetryEvents : List (Fin 3 × Action) :=
  [(0, .readClock 16), (1, .readClock 116), (1, .load), (0, .load), (0, .compareAndSwap),
    (1, .compareAndSwap), (1, .reload), (1, .compareAndSwap), (2, .readClock 116), (2, .load),
    (2, .compareAndSwap)]

/-- A retry without the clamp is granted credit from before the burst window, and the
charges at one clock reading exceed the burst. -/
theorem stale_retry_exceeds_burst :
    nanosecondDouble.timePerBurst = some 16 ∧
    (readings staleRetryEvents).Pairwise (· ≤ ·) ∧
    (∀ now ∈ readings staleRetryEvents, 16 ≤ now ∧ now < 2 ^ 53) ∧
    NoOverflow binary64.round nanosecondDouble ![1, 16, 16] 0 staleRetryEvents ∧
    ∃ s, run (step binary64.round nanosecondDouble ![1, 16, 16]) (start 0) staleRetryEvents =
        some s ∧
      ((116 : ℕ) - (116 : ℕ) : ℚ) + 16 + 1 <
        ((s.grants.filter fun g => 116 ≤ g.now ∧ g.now ≤ 116).map Grant.timeNeeded).sum ∧
      ∃ g ∈ s.grants, g.caller = 1 ∧ (g.newTime : ℚ) < g.now - 16 := by
  refine ⟨by decide +kernel, by decide, by decide, ?_, ?_⟩
  · exact noOverflow_of_le (M := 116) (N := 16) (by norm_num) (by decide) (by decide +kernel)
      (by decide +kernel) (by norm_num)
  · have hrun : ((run (step binary64.round nanosecondDouble ![1, 16, 16]) (start 0)
        staleRetryEvents).map State.grants) =
          some [⟨0, 16, 1, 0, 1⟩, ⟨1, 116, 16, 1, 17⟩, ⟨2, 116, 16, 17, 116⟩] := by
      decide +kernel
    obtain ⟨s, hs, hg⟩ := Option.map_eq_some_iff.mp hrun
    refine ⟨s, hs, ?_, ⟨1, 116, 16, 1, 17⟩, by simp [hg], rfl, by norm_num⟩
    rw [hg]
    decide +kernel

end RdmaperfIso.Contention
