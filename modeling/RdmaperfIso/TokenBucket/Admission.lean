import RdmaperfIso.Lib.Run
import RdmaperfIso.TokenBucket.Basic
import Mathlib.Algebra.Order.Floor.Semifield

/-! Admission by one token bucket shared by any number of tenants. Each tenant runs
`wait_for_token` or `wait_for_request_token`; the `consume` calls of all of them are
interleaved in any order, each one taken as a whole. -/
namespace RdmaperfIso.Admission
open FixedWidth TokenBucket Charges Run
open scoped BigOperators

/-- Nanoseconds that one bucket charges for a token. -/
def tokenNs (rate : ℕ) : ℚ := 16000000000 / rate

/-- Nanoseconds of credit that one bucket may hold. -/
def burstNs (rate burstSize : ℕ) : ℚ := burstSize / 16 * tokenNs rate

/-- Whole nanoseconds charged for a grant of `tokens`. -/
def chargeNs (rate tokens : ℕ) : ℕ := ⌊tokens * tokenNs rate⌋₊

/-- The earliest time from which a call at `now` may draw credit. -/
def clampNs (rate burstSize now : ℕ) : ℕ := windowStart (burstNs rate burstSize) now

/-- A successful `consume` call and the bucket time that it stored. -/
structure Grant where
  bucket : Fin nrBucket
  tokens : ℕ
  now : ℕ
  newTime : ℕ
  deriving DecidableEq

structure Arena (ι : Type) where
  tb : TokenBucket
  waits : ι → WaitLoop
  grants : List Grant

inductive Event (ι : Type) where
  | waitForToken (tenant : ι) (tokens : ℕ) (start : ℤ)
  | waitForRequestToken (tenant : ι) (start : ℤ)
  | consume (tenant : ι) (now : ℕ)

variable {ι : Type}

def Arena.enter [DecidableEq ι] (a : Arena ι) (p : ι) (w : WaitLoop) : Arena ι :=
  { a with waits := Function.update a.waits p w }

/-- A tenant inside a call makes its next `consume` call; an idle one may enter a
new call. An event that does not apply to the tenant changes nothing. -/
def step [DecidableEq ι] (fl : ℚ → ℚ) (a : Arena ι) : Event ι → Option (Arena ι)
  | .waitForToken p tokens start =>
    if (a.waits p).amount = none then
      (WaitLoop.waitForToken fl a.tb.burstSize tokens start).map (a.enter p)
    else some a
  | .waitForRequestToken p start =>
    if (a.waits p).amount = none then some (a.enter p (.waitForRequestToken start)) else some a
  | .consume p now =>
    match (a.waits p).amount with
    | none => some a
    | some tokens => do
      let (granted, tb) ← a.tb.consume fl tokens (a.waits p).start now
      let b ← bucketIndex (a.waits p).start
      some
        { tb := tb
          waits := Function.update a.waits p ((a.waits p).next granted)
          grants := if granted then a.grants ++ [⟨b, tokens, now, tb.buckets b⟩] else a.grants }

/-- No tenant is inside a call. -/
def start (tb : TokenBucket) : Arena ι := ⟨tb, fun _ => ⟨0, 0, 0, 0⟩, []⟩

/-- What the run assumes of its events: arguments of the C types, start buckets in the
array, and clock readings past one burst and below half of the 64-bit range. -/
def Admissible (rate burstSize : ℕ) : Event ι → Prop
  | .waitForToken _ tokens start => tokens < 2 ^ 64 ∧ 0 ≤ start ∧ start < nrBucket
  | .waitForRequestToken _ start => 0 ≤ start ∧ start < nrBucket
  | .consume _ now => burstNs rate burstSize ≤ now ∧ now < 2 ^ 63

/-- Successful calls whose clock reading lies in the window. -/
def window (grants : List Grant) (t₁ t₂ : ℕ) : List Grant :=
  grants.filter fun g => t₁ ≤ g.now ∧ g.now ≤ t₂

section Exact
variable {rate burstSize tokens now : ℕ}

theorem tokenNs_pos (hr : 1 ≤ rate) : 0 < tokenNs rate := by
  have : (0 : ℚ) < rate := by exact_mod_cast hr
  unfold tokenNs
  positivity

theorem burstNs_nonneg (rate burstSize : ℕ) : 0 ≤ burstNs rate burstSize := by
  unfold burstNs tokenNs
  positivity

/-- Read exactly, the double computation of a positive rate is `tokenNs`. -/
theorem tokenTime_id (hr : 1 ≤ rate) : tokenTime id rate = some (tokenNs rate) := by
  have hq : (0 : ℚ) < rate := by exact_mod_cast hr
  have hne : perBucketRate id rate ≠ 0 := by
    simp only [perBucketRate, nrBucket, id]
    positivity
  rw [tokenTime, if_neg hne]
  simp only [perBucketRate, nrBucket, id, tokenNs, Option.some.injEq]
  push_cast
  field_simp
  norm_num

theorem init_timePerBurst (hr : 1 ≤ rate) :
    (initTokenBucket id rate burstSize).timePerBurst = some (burstNs rate burstSize) := by
  simp [initTokenBucket, tokenTime_id hr, burstTime, burstNs, nrBucket]

/-- A chunk of one bucket's share of the burst never costs more than the burst time. -/
theorem chunk_le_burstNs (rate : ℕ) (h : tokens ≤ burstSize / 16) :
    tokens * tokenNs rate ≤ burstNs rate burstSize := by
  have hq : (tokens : ℚ) ≤ burstSize / 16 := by
    have h1 : (tokens : ℚ) ≤ (burstSize / 16 : ℕ) := by exact_mod_cast h
    exact h1.trans Nat.cast_div_le
  have h0 : 0 ≤ tokenNs rate := by unfold tokenNs; positivity
  exact mul_le_mul_of_nonneg_right hq h0

theorem lt_chargeNs_add_one (rate tokens : ℕ) :
    tokens * tokenNs rate ≤ chargeNs rate tokens + 1 := (Nat.lt_floor_add_one _).le

theorem clampNs_le (rate burstSize now : ℕ) : clampNs rate burstSize now ≤ now :=
  windowStart_le (burstNs_nonneg rate burstSize) now

/-- The state of a bucket that keeps the rate and burst it was initialised with. -/
structure Steady (rate burstSize : ℕ) (tb : TokenBucket) : Prop where
  token : tb.timePerToken = some (tokenNs rate)
  burst : tb.timePerBurst = some (burstNs rate burstSize)
  size : tb.burstSize = burstSize
  time_lt : ∀ b, tb.buckets b < 2 ^ 63

theorem init_steady (hr : 1 ≤ rate) : Steady rate burstSize (initTokenBucket id rate burstSize) :=
  ⟨tokenTime_id hr, init_timePerBurst hr, rfl, fun _ => by simp [initTokenBucket]⟩

/-- On admissible arguments one call charges its bucket from the clamped time on, and
is granted exactly when the charge ends by the clock reading. -/
theorem consume_steady {tb : TokenBucket} (h : Steady rate burstSize tb) {bucket : ℤ}
    {b : Fin nrBucket} (hb : bucketIndex bucket = some b) (ht : tokens ≤ burstSize / 16)
    (hnow : burstNs rate burstSize ≤ now) (hmax : now < 2 ^ 63) {newTime : ℕ}
    (hnew : newTime = max (tb.buckets b) (clampNs rate burstSize now) + chargeNs rate tokens) :
    tb.consume id tokens bucket now = some (if now < newTime then (false, tb)
      else (true, { tb with buckets := Function.update tb.buckets b newTime })) := by
  have hmaxq : (now : ℚ) < 2 ^ 63 := by exact_mod_cast hmax
  have hcost := chunk_le_burstNs rate ht
  have hpos : 0 ≤ tokens * tokenNs rate := by unfold tokenNs; positivity
  have hneed : timeNeeded id tb tokens = some (chargeNs rate tokens) := by
    simp only [timeNeeded, h.token, Option.bind_some, id]
    exact truncate_of_nonneg hpos (by linarith)
  have hleast : minTime id tb now = some (clampNs rate burstSize now) := by
    simp only [minTime, h.burst, Option.bind_some, id]
    exact truncate_of_nonneg (by linarith) (by linarith [burstNs_nonneg rate burstSize])
  have hcharge : chargeNs rate tokens < 2 ^ 63 := by
    have hq : (chargeNs rate tokens : ℚ) < 2 ^ 63 := (Nat.floor_le hpos).trans_lt (by linarith)
    exact_mod_cast hq
  have hclamp := clampNs_le rate burstSize now
  have hold := h.time_lt b
  have hfirst := firstCandidate_eq (tb.buckets b) (clampNs rate burstSize now)
    (chargeNs rate tokens) (by omega)
  simp only [consume, hneed, hleast, hb, Option.bind_eq_bind, Option.bind_some, hfirst, ← hnew]
  split_ifs <;> rfl

end Exact

section Invariant
variable {rate burstSize : ℕ}

/-- Start of the interval of bucket time that a grant was charged for. -/
def Grant.lo (rate : ℕ) (g : Grant) : ℕ := g.newTime - chargeNs rate g.tokens

def Grant.width (rate : ℕ) (g : Grant) : ℕ := chargeNs rate g.tokens

/-- Every grant was charged after its clamp and before its clock reading, and grants of
one bucket occupy disjoint intervals below the current bucket time. -/
structure Inv (rate burstSize : ℕ) (a : Arena ι) : Prop where
  steady : Steady rate burstSize a.tb
  loops : ∀ p, (a.waits p).Within (burstSize / 16)
  clamped : ∀ g ∈ a.grants, clampNs rate burstSize g.now ≤ g.lo rate
  paid : ∀ g ∈ a.grants, g.lo rate + g.width rate = g.newTime ∧ g.newTime ≤ g.now
  below : ∀ g ∈ a.grants, g.newTime ≤ a.tb.buckets g.bucket
  stacked : ∀ b, Stacked (Grant.lo rate) (Grant.width rate) (a.grants.filter (·.bucket = b))

theorem start_inv (hr : 1 ≤ rate) :
    Inv rate burstSize (start (initTokenBucket id rate burstSize) : Arena ι) where
  steady := init_steady hr
  loops := fun _ =>
    ⟨fun h => absurd h (lt_irrefl _), Nat.zero_le _, le_rfl, by simp [start, nrBucket]⟩
  clamped := by simp [start]
  paid := by simp [start]
  below := by simp [start]
  stacked := by simp [start, Stacked]

theorem smallBurstSize_id (hb : burstSize < 2 ^ 64) :
    WaitLoop.smallBurstSize id burstSize = some (burstSize / 16) := by
  have hq : (burstSize : ℚ) < 2 ^ 64 := by exact_mod_cast hb
  simp only [WaitLoop.smallBurstSize, id, nrBucket]
  rw [truncate_of_nonneg (by positivity) (by push_cast; linarith), Nat.floor_div_eq_div]

/-- `wait_for_token` cuts every request into chunks of at most one bucket's share. -/
theorem waitForToken_within (tokens : ℕ) {p : ℤ} (hs : 16 ≤ burstSize) (hb : burstSize < 2 ^ 64)
    (h0 : 0 ≤ p) (h1 : p < nrBucket) :
    ∃ w, WaitLoop.waitForToken id burstSize tokens p = some w ∧ w.Within (burstSize / 16) := by
  have hsmall : burstSize / 16 ≠ 0 := by omega
  simp only [WaitLoop.waitForToken, smallBurstSize_id hb, Option.bind_eq_bind, Option.bind_some,
    hsmall, if_false]
  split_ifs with ht
  · exact ⟨_, rfl, fun _ => ht, Nat.zero_le _, h0, h1⟩
  · refine ⟨_, rfl, fun _ => le_rfl, ?_, h0, h1⟩
    exact (Nat.mod_lt _ (Nat.pos_of_ne_zero hsmall)).le

theorem Inv.enter [DecidableEq ι] {a : Arena ι} (h : Inv rate burstSize a) {w : WaitLoop} (p : ι)
    (hw : w.Within (burstSize / 16)) : Inv rate burstSize (a.enter p w) := by
  have hloops : ∀ q, ((a.enter p w).waits q).Within (burstSize / 16) :=
    (Function.forall_update_iff a.waits fun _ w => w.Within (burstSize / 16)).mpr
      ⟨hw, fun q _ => h.loops q⟩
  exact ⟨h.steady, hloops, h.clamped, h.paid, h.below, h.stacked⟩

/-- A granted call appends the interval between the clamped old time and the new one. -/
theorem Inv.grant [DecidableEq ι] {a : Arena ι} (h : Inv rate burstSize a) {p : ι} {tokens now : ℕ}
    {b : Fin nrBucket} {newTime : ℕ}
    (hnew : newTime = max (a.tb.buckets b) (clampNs rate burstSize now) + chargeNs rate tokens)
    (hle : newTime ≤ now) (hmax : now < 2 ^ 63) :
    Inv rate burstSize
      { tb := { a.tb with buckets := Function.update a.tb.buckets b newTime }
        waits := Function.update a.waits p ((a.waits p).next true)
        grants := a.grants ++ [⟨b, tokens, now, newTime⟩] : Arena ι } := by
  have hlo : Grant.lo rate ⟨b, tokens, now, newTime⟩ =
      max (a.tb.buckets b) (clampNs rate burstSize now) := by
    simp only [Grant.lo]
    omega
  have hgrow (c : Fin nrBucket) : a.tb.buckets c ≤ Function.update a.tb.buckets b newTime c := by
    by_cases hc : c = b
    · subst hc
      rw [Function.update_self]
      omega
    · rw [Function.update_of_ne hc]
  have hsteady : Steady rate burstSize
      { a.tb with buckets := Function.update a.tb.buckets b newTime } :=
    { h.steady with
      time_lt := (Function.forall_update_iff a.tb.buckets fun _ t => t < 2 ^ 63).mpr
        ⟨hle.trans_lt hmax, fun c _ => h.steady.time_lt c⟩ }
  constructor
  case steady => exact hsteady
  case loops => exact (h.enter p ((h.loops p).next true)).loops
  case clamped =>
    simp only [List.forall_mem_append, List.forall_mem_singleton]
    exact ⟨h.clamped, hlo ▸ le_max_right _ _⟩
  case paid =>
    simp only [List.forall_mem_append, List.forall_mem_singleton]
    exact ⟨h.paid, by rw [hlo, hnew]; rfl, hle⟩
  case below =>
    simp only [List.forall_mem_append, List.forall_mem_singleton, Function.update_self, le_refl,
      and_true]
    exact fun g hg => (h.below g hg).trans (hgrow g.bucket)
  case stacked =>
    -- Only the list of the charged bucket grows, by an interval above all earlier ones.
    refine stacked_filter_concat h.stacked fun g hg hb => ?_
    have hbelow := h.below g hg
    rw [hb] at hbelow
    rw [(h.paid g hg).1, hlo]
    exact hbelow.trans (le_max_left _ _)

theorem step_inv [DecidableEq ι] (hs : 16 ≤ burstSize) (hb : burstSize < 2 ^ 64) (a : Arena ι)
    (e : Event ι) (h : Inv rate burstSize a) (he : Admissible rate burstSize e) :
    ∃ a', step id a e = some a' ∧ Inv rate burstSize a' := by
  cases e with
  | waitForToken p tokens q =>
    simp only [step, h.steady.size]
    split_ifs
    · obtain ⟨w, hw, hin⟩ := waitForToken_within tokens hs hb he.2.1 he.2.2
      exact ⟨_, by rw [hw, Option.map_some], h.enter p hin⟩
    · exact ⟨a, rfl, h⟩
  | waitForRequestToken p q =>
    simp only [step]
    split_ifs
    · have hsmall : 1 ≤ burstSize / 16 := by omega
      exact ⟨_, rfl, h.enter p ⟨fun _ => hsmall, Nat.zero_le _, he.1, he.2⟩⟩
    · exact ⟨a, rfl, h⟩
  | consume p now =>
    simp only [step]
    split
    · exact ⟨a, rfl, h⟩
    next tokens ha =>
      have hin := h.loops p
      obtain ⟨b, hbucket⟩ := bucketIndex_of_mem hin.start_nonneg hin.start_lt
      obtain ⟨newTime, hnew⟩ : ∃ t, t = max (a.tb.buckets b) (clampNs rate burstSize now) +
          chargeNs rate tokens := ⟨_, rfl⟩
      have hc := consume_steady h.steady hbucket (hin.amount_le ha) he.1 he.2 hnew
      by_cases hnow : now < newTime
      · rw [if_pos hnow] at hc
        simp only [hc, hbucket, Option.bind_eq_bind, Option.bind_some]
        exact ⟨_, rfl, h.enter p (hin.next false)⟩
      · rw [if_neg hnow] at hc
        simp only [hc, hbucket, Option.bind_eq_bind, Option.bind_some, if_true,
          Function.update_self]
        exact ⟨_, rfl, h.grant hnew (not_lt.mp hnow) he.2⟩

end Invariant

section Bound
variable {rate burstSize : ℕ} {t₁ t₂ : ℕ}

/-- One bucket charges no more inside a window than the window and one burst allow. -/
theorem Inv.bucket_window {a : Arena ι} (h : Inv rate burstSize a) (ht : t₁ ≤ t₂)
    (b : Fin nrBucket) :
    ((((window a.grants t₁ t₂).filter (·.bucket = b)).map (Grant.width rate)).sum : ℚ) ≤
      (t₂ - t₁ : ℚ) + burstNs rate burstSize + 1 := by
  have hmem {g : Grant} (hg : g ∈ (window a.grants t₁ t₂).filter (·.bucket = b)) :
      g ∈ a.grants ∧ t₁ ≤ g.now ∧ g.now ≤ t₂ := by
    obtain ⟨hg, hw⟩ := List.mem_filter.mp (List.mem_filter.mp hg).1
    exact ⟨hg, of_decide_eq_true hw⟩
  have hsub : ((window a.grants t₁ t₂).filter (·.bucket = b)).Sublist
      (a.grants.filter (·.bucket = b)) := List.Sublist.filter _ List.filter_sublist
  apply sum_charges_le (burstNs_nonneg _ _) ht ((h.stacked b).sublist hsub)
  · intro g hg
    exact (hmem hg).2
  · intro g hg
    exact h.clamped g (hmem hg).1
  · intro g hg
    obtain ⟨hend, hnow⟩ := h.paid g (hmem hg).1
    exact hend.trans_le hnow

theorem tokens_le_charges (rate : ℕ) (gs : List Grant) :
    ((gs.map Grant.tokens).sum : ℚ) * tokenNs rate ≤
      ((gs.map (Grant.width rate)).sum : ℚ) + gs.length := by
  induction gs with
  | nil => simp
  | cons g gs ih =>
    have hg := lt_chargeNs_add_one rate g.tokens
    simp only [List.map_cons, List.sum_cons, List.length_cons, Nat.cast_add, Nat.cast_one,
      Grant.width] at ih ⊢
    linarith

theorem Inv.window_charges {a : Arena ι} (h : Inv rate burstSize a) (ht : t₁ ≤ t₂) :
    (((window a.grants t₁ t₂).map (Grant.width rate)).sum : ℚ) ≤
      16 * ((t₂ - t₁ : ℚ) + burstNs rate burstSize + 1) := by
  have hsum := Finset.sum_le_sum (s := Finset.univ) fun b _ => h.bucket_window ht b
  rw [Finset.sum_const, Finset.card_univ, Fintype.card_fin, nsmul_eq_mul] at hsum
  rw [sum_fiberwise Grant.bucket (Grant.width rate), Nat.cast_sum]
  exact hsum

end Bound

/-- For every interleaving of the calls of all tenants each `consume` is defined, and
the tokens granted in any window stay within the burst, the tokens that the rate refills
in the window, and the truncation slack of the grants and of the sixteen clamps. -/
theorem admission_bound [DecidableEq ι] (rate burstSize : ℕ) (hr : 1 ≤ rate)
    (hs : 16 ≤ burstSize) (hb : burstSize < 2 ^ 64) (es : List (Event ι))
    (he : ∀ e ∈ es, Admissible rate burstSize e) :
    ∃ a, run (step id) (start (initTokenBucket id rate burstSize)) es = some a ∧
      ∀ t₁ t₂, t₁ ≤ t₂ →
        (((window a.grants t₁ t₂).map Grant.tokens).sum : ℚ) ≤
          burstSize + rate * (t₂ - t₁ : ℚ) / 1000000000 +
            ((window a.grants t₁ t₂).length + 16) * rate / 16000000000 := by
  obtain ⟨a, hrun, hinv⟩ := run_total (step_inv hs hb) (start_inv (ι := ι) hr) he
  refine ⟨a, hrun, fun t₁ t₂ ht => ?_⟩
  have hq : (0 : ℚ) < rate := by exact_mod_cast hr
  have htok := (tokens_le_charges rate (window a.grants t₁ t₂)).trans
    (add_le_add_left (hinv.window_charges ht) _)
  rw [← le_div_iff₀ (tokenNs_pos hr)] at htok
  refine htok.trans (le_of_eq ?_)
  unfold burstNs tokenNs
  field_simp
  ring

/-- Two tenants share the bucket at one clock reading; the first draws two chunks. -/
def twoTenants : List (Event Bool) :=
  [.waitForToken false 3 15, .consume false 100, .waitForRequestToken true 0, .consume true 100,
    .consume false 100]

theorem admission_bound_twoTenants :
    (∀ e ∈ twoTenants, Admissible 16000000000 32 e) ∧
      ∃ a, run (step id) (start (initTokenBucket id 16000000000 32)) twoTenants = some a ∧
        (((window a.grants 100 100).map Grant.tokens).sum : ℚ) ≤
          (32 : ℕ) + (16000000000 : ℕ) * ((100 : ℕ) - (100 : ℕ) : ℚ) / 1000000000 +
            ((window a.grants 100 100).length + 16) * (16000000000 : ℕ) / 16000000000 := by
  have he : ∀ e ∈ twoTenants, Admissible 16000000000 32 e := by
    simp [twoTenants, Admissible, burstNs, tokenNs, nrBucket]
    norm_num
  obtain ⟨a, hrun, hbound⟩ :=
    admission_bound 16000000000 32 (by norm_num) (by norm_num) (by norm_num) twoTenants he
  exact ⟨he, a, hrun, hbound 100 100 le_rfl⟩

end RdmaperfIso.Admission
