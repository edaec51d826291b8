import RdmaperfIso.ResourceTable
import RdmaperfIso.TokenBucket.Rate

/-! The allocator of the monitor: `retrieve_resource` takes a fraction of the shared rate
away and `alloc_resource` adds one, each rounded up to a whole token per second. -/
namespace RdmaperfIso.Allocator
open FixedWidth TokenBucket Admission Rate Run Table

/-- `ceil` of the fraction, converted to a word. -/
def fraction (fl : ℚ → ℚ) (rate : ℕ) (ratio : ℚ) : Option ℕ :=
  truncate 64 (⌈fl (fl rate * ratio)⌉ : ℤ)

/-- Both functions change the rate of the first entry by the fraction. -/
def adjust (fl : ℚ → ℚ) (change : TokenBucket → ℕ → TokenBucket) (table : Table) (ratio : ℚ) :
    Option Table :=
  (fraction fl (table primary).tb.rate ratio).map fun rate =>
    table.modify primary fun r => { r with tb := change r.tb rate }

def retrieveResource (fl : ℚ → ℚ) (table : Table) (ratio : ℚ) : Option Table :=
  adjust fl (downRate fl) table ratio

def allocResource (fl : ℚ → ℚ) (table : Table) (ratio : ℚ) : Option Table :=
  adjust fl (upRate fl) table ratio

inductive Call where
  | retrieve (ratio : ℚ)
  | alloc (ratio : ℚ)
  deriving DecidableEq

def Call.ratio : Call → ℚ
  | .retrieve ratio => ratio
  | .alloc ratio => ratio

def step (fl : ℚ → ℚ) (table : Table) : Call → Option Table
  | .retrieve ratio => retrieveResource fl table ratio
  | .alloc ratio => allocResource fl table ratio

/-- The difference or the sum of the call fits the 64-bit rate. -/
def NoWrap (fl : ℚ → ℚ) (table : Table) : Call → Prop
  | .retrieve ratio => ∀ n ∈ fraction fl (table primary).tb.rate ratio, n ≤ (table primary).tb.rate
  | .alloc ratio =>
    ∀ n ∈ fraction fl (table primary).tb.rate ratio, (table primary).tb.rate + n < 2 ^ 64

/-- A positive rate, with the times of a token and of a burst that belong to it. -/
structure Intact (tb : TokenBucket) : Prop where
  rate_pos : 1 ≤ tb.rate
  derived : ∃ t, tb.timePerToken = some t ∧ t * tb.rate = 16000000000 ∧
    tb.timePerBurst = some (tb.burstSize / 16 * t)

/-- A decrease leaves at least one token per second, and an increase stays in 64 bits. -/
def Leaves (table : Table) : Call → Prop
  | .retrieve ratio => (table primary).tb.rate * ratio ≤ (table primary).tb.rate - 1
  | .alloc ratio => (table primary).tb.rate + ⌈(table primary).tb.rate * ratio⌉₊ < 2 ^ 64

instance (table : Table) : (call : Call) → Decidable (Leaves table call)
  | .retrieve _ => inferInstanceAs (Decidable (_ ≤ _))
  | .alloc _ => inferInstanceAs (Decidable (_ < _))

section Steps
variable {table table' : Table} {ratio : ℚ} {rate : ℕ}

theorem fraction_id (h0 : 0 ≤ ratio) (h1 : ratio < 1) (hr : rate < 2 ^ 64) :
    fraction id rate ratio = some ⌈rate * ratio⌉₊ := by
  have hq : (0 : ℚ) ≤ rate := Nat.cast_nonneg rate
  have hle : (⌈(rate : ℚ) * ratio⌉ : ℤ) ≤ rate := by
    apply Int.ceil_le.mpr
    push_cast
    nlinarith
  have hnonneg : 0 ≤ ⌈(rate : ℚ) * ratio⌉ := Int.ceil_nonneg (mul_nonneg hq h0)
  rw [fraction, id, id, truncate_intCast hnonneg (by omega), Int.ceil_toNat]

theorem ceil_mul_le (h1 : ratio < 1) : ⌈(rate : ℚ) * ratio⌉₊ ≤ rate := by
  have hq : (0 : ℚ) ≤ rate := Nat.cast_nonneg rate
  apply Nat.ceil_le.mpr
  nlinarith

/-- The whole rate is taken exactly when the fraction rounds up to it. -/
theorem ceil_mul_lt_iff (hr : 1 ≤ rate) :
    ⌈(rate : ℚ) * ratio⌉₊ < rate ↔ (rate : ℚ) * ratio ≤ rate - 1 := by
  obtain ⟨n, rfl⟩ : ∃ n, rate = n + 1 := ⟨rate - 1, by omega⟩
  rw [Nat.lt_succ_iff, Nat.ceil_le]
  push_cast
  simp

theorem adjust_tb {fl : ℚ → ℚ} (change : TokenBucket → ℕ → TokenBucket) {n : ℕ}
    (hn : fraction fl (table primary).tb.rate ratio = some n) :
    ∃ table', adjust fl change table ratio = some table' ∧
      (table' primary).tb = change (table primary).tb n := by
  refine ⟨_, by rw [adjust, hn, Option.map_some], ?_⟩
  simp [modify_apply]

theorem intact_of_tuned {tb : TokenBucket} (h : Tuned tb) : Intact tb where
  rate_pos := h.rate_pos
  derived := by
    have hq : (0 : ℚ) < tb.rate := by exact_mod_cast h.rate_pos
    refine ⟨tokenNs tb.rate, h.token, ?_, h.burst⟩
    unfold tokenNs
    field_simp

theorem intact_setRate_iff (tb : TokenBucket) : Intact (tb.setRate id rate) ↔ 1 ≤ rate := by
  constructor
  · intro h
    exact h.rate_pos
  · intro hr
    exact intact_of_tuned (setRate_tuned tb hr)

/-- What the allocator finds before a call. -/
structure Ready (table : Table) : Prop where
  tuned : Tuned (table primary).tb
  rate_lt : (table primary).tb.rate < 2 ^ 64

/-- From an intact rate, one call keeps it intact exactly when it leaves enough. -/
theorem step_intact_iff (call : Call) (h : Ready table) (h0 : 0 ≤ call.ratio)
    (h1 : call.ratio < 1) :
    (∃ table', step id table call = some table' ∧
      (NoWrap id table call ∧ Intact (table' primary).tb)) ↔ Leaves table call := by
  cases call with
  | retrieve ratio =>
    have hn : fraction id (table primary).tb.rate ratio = some ⌈(table primary).tb.rate * ratio⌉₊ :=
      fraction_id h0 h1 h.rate_lt
    have hle : ⌈((table primary).tb.rate : ℚ) * ratio⌉₊ ≤ (table primary).tb.rate :=
      ceil_mul_le h1
    obtain ⟨t, ht, htb⟩ := adjust_tb (downRate id) hn
    have hrate := wrapSub_of_le hle h.rate_lt
    simp only [step, retrieveResource, ht, Option.some.injEq, exists_eq_left', NoWrap, hn,
      Option.mem_def, forall_eq', hle, true_and, htb, downRate, hrate, intact_setRate_iff, Leaves]
    rw [← ceil_mul_lt_iff h.tuned.rate_pos]
    omega
  | alloc ratio =>
    have hn : fraction id (table primary).tb.rate ratio = some ⌈(table primary).tb.rate * ratio⌉₊ :=
      fraction_id h0 h1 h.rate_lt
    obtain ⟨t, ht, htb⟩ := adjust_tb (upRate id) hn
    simp only [step, allocResource, ht, Option.some.injEq, exists_eq_left', NoWrap, hn,
      Option.mem_def, forall_eq', htb, upRate, intact_setRate_iff, Leaves]
    constructor
    · intro hfit
      exact hfit.1
    · intro hfit
      have hpos := h.tuned.rate_pos
      rw [wrap_of_lt hfit]
      exact ⟨hfit, by omega⟩

theorem step_ready (call : Call) (h : Ready table) (h0 : 0 ≤ call.ratio) (h1 : call.ratio < 1)
    (hl : Leaves table call) (hs : step id table call = some table') : Ready table' := by
  have hrate : ∃ rate < 2 ^ 64, (table' primary).tb = (table primary).tb.setRate id rate := by
    cases call with
    | retrieve ratio =>
      obtain ⟨t, ht, htb⟩ := adjust_tb (downRate id) (fraction_id h0 h1 h.rate_lt)
      obtain rfl : t = table' := Option.some.inj (ht.symm.trans hs)
      exact ⟨_, wrap_lt _ _, htb⟩
    | alloc ratio =>
      obtain ⟨t, ht, htb⟩ := adjust_tb (upRate id) (fraction_id h0 h1 h.rate_lt)
      obtain rfl : t = table' := Option.some.inj (ht.symm.trans hs)
      exact ⟨_, wrap_lt _ _, htb⟩
  obtain ⟨rate, hlt, htb⟩ := hrate
  obtain ⟨t, ht, -, hintact⟩ := (step_intact_iff call h h0 h1).mpr hl
  obtain rfl : t = table' := Option.some.inj (ht.symm.trans hs)
  rw [htb, intact_setRate_iff] at hintact
  constructor
  · rw [htb]
    exact setRate_tuned _ hintact
  · rw [htb]
    exact hlt

end Steps

/-- In every sequence of calls no operation on the rate wraps, and after every call the rate
is positive with the times that belong to it, exactly when every decrease leaves a token per
second and every increase stays in 64 bits. -/
theorem rate_intact_iff {rate burstSize : ℕ} (hr : 1 ≤ rate) (hlt : rate < 2 ^ 64) {table : Table}
    (htb : (table primary).tb = initTokenBucket id rate burstSize) {calls : List Call}
    (hratio : ∀ call ∈ calls, 0 ≤ call.ratio ∧ call.ratio < 1) :
    Delivers (step id) (fun t call t' => NoWrap id t call ∧ Intact (t' primary).tb) table calls ↔
      Meets (step id) Leaves table calls := by
  have hready : Ready table := by
    constructor
    · rw [htb]
      exact init_tuned hr
    · rw [htb]
      exact hlt
  apply delivers_iff_meets (P := Ready) (c := fun call => 0 ≤ call.ratio ∧ call.ratio < 1) _ _
    hready hratio
  · intro t call ht hc
    exact step_intact_iff call ht hc.1 hc.2
  · intro t call t' ht hc hl hs
    exact step_ready call ht hc.1 hc.2 hl hs

/-- A zero-filled table whose first entry has a bucket of the given rate. -/
def tableAt (rate : ℕ) : Table :=
  Table.modify (fun _ => .zero) primary fun r => { r with tb := initTokenBucket id rate 8388608 }

theorem tableAt_tb (rate : ℕ) : (tableAt rate primary).tb = initTokenBucket id rate 8388608 := by
  simp [tableAt, modify_apply]

theorem rate_intact_iff_halved :
    Delivers (step id) (fun t call t' => NoWrap id t call ∧ Intact (t' primary).tb)
      (tableAt 1000000000) [.retrieve (1 / 2), .alloc (1 / 4), .retrieve (9 / 10)] := by
  have hratio : ∀ call ∈ [Call.retrieve (1 / 2), .alloc (1 / 4), .retrieve (9 / 10)],
      0 ≤ call.ratio ∧ call.ratio < 1 := by decide +kernel
  exact (rate_intact_iff (by norm_num) (by norm_num) (tableAt_tb _) hratio).mpr (by decide +kernel)

/-- Half of a rate of one token per second rounds up to the whole rate, and the next division
has a zero divisor; half of the largest rate makes the sum wrap. -/
theorem rounded_fraction_destroys_rate :
    ((step id (tableAt 1) (.retrieve (1 / 2))).any fun t =>
      (t primary).tb.rate = 0 ∧ (t primary).tb.timePerToken = none) ∧
    ((step id (tableAt (2 ^ 64 - 1)) (.alloc (1 / 2))).any fun t =>
      (t primary).tb.rate = 2 ^ 63 - 1) ∧
    ¬ Delivers (step id) (fun t call t' => NoWrap id t call ∧ Intact (t' primary).tb) (tableAt 1)
      [.retrieve (1 / 2)] := by
  refine ⟨by decide +kernel, by decide +kernel, ?_⟩
  rintro ⟨t, ht, ⟨-, hintact⟩, -⟩
  have hzero : (step id (tableAt 1) (.retrieve (1 / 2))).map (fun t => (t primary).tb.rate) =
      some 0 := by decide +kernel
  rw [ht, Option.map_some, Option.some.injEq] at hzero
  have hpos := hintact.rate_pos
  omega

end RdmaperfIso.Allocator
