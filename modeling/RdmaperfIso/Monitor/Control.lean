import RdmaperfIso.Monitor.Reservation
import RdmaperfIso.TokenBucket.Rate

/-! The control loop of the monitor and the tasks that it limits, at the level of single accesses
to the shared table. The primary task reports its bandwidth; `network_monitor` reads the report
and stores the new rate field by field; the calls of `consume` read those fields one after the
other, and race for the buckets. Doubles are read exactly. -/
namespace RdmaperfIso.Control
open FixedWidth TokenBucket Charges Run Table Reservation Admission
open scoped BigOperators

/-- Where a `consume` call stands: before the clock is read, before `time_per_token` is, before
`time_per_burst` is, before the first load of the bucket time, before a compare-and-swap, or
before the load that follows a lost one. -/
inductive Pc where
  | idle
  | clocked (now : ℕ)
  | priced (now timeNeeded : ℕ)
  | clamped (now timeNeeded minTime : ℕ)
  | trying (now timeNeeded oldTime newTime : ℕ)
  | lost (now timeNeeded : ℕ)
  deriving DecidableEq, Repr

/-- Where `network_monitor` stands: before the report is read, or before one of the three
stores of `set_rate`. -/
inductive MonitorPc where
  | sleeping
  | computed (beBw : ℕ)
  | rateStored (beBw : ℕ)
  | tokenStored
  deriving DecidableEq, Repr

/-- A successful compare-and-swap. -/
structure Spent where
  bucket : Fin nrBucket
  tokens : ℕ
  timeNeeded : ℕ
  newTime : ℕ
  deriving DecidableEq, Repr

/-- `grants` is a history variable. -/
structure State (ι : Type) where
  table : Table
  monitor : MonitorPc
  waits : ι → WaitLoop
  pc : ι → Pc
  grants : List Spent

inductive Event (ι : Type) where
  | reportBw (task : Fin tableSize) (bandwidth : ℕ)
  | monitor
  | waitForToken (p : ι) (tokens : ℕ) (start : ℤ)
  | readClock (p : ι) (now : ℕ)
  /-- The next access of a `consume` call that has read the clock. -/
  | advance (p : ι)

variable {ι : Type}

namespace State

def start (table : Table) : State ι :=
  ⟨table, .sleeping, fun _ => ⟨0, 0, 0, 0⟩, fun _ => .idle, []⟩

def tb (s : State ι) : TokenBucket := (s.table primary).tb

/-- The monitor stores to the bucket and goes on. -/
def store (s : State ι) (tb : TokenBucket) (monitor : MonitorPc) : State ι :=
  { s with
    table := s.table.modify primary fun r => { r with tb := tb }
    monitor := monitor }

def monitorStep (fl : ℚ → ℚ) (s : State ι) : Option (State ι) :=
  match s.monitor with
  | .sleeping =>
    (beBw fl (s.table.getBw primary)).map fun rate => { s with monitor := .computed rate }
  | .computed rate => some (s.store { s.tb with rate := rate } (.rateStored rate))
  | .rateStored rate => some (s.store { s.tb with timePerToken := tokenTime fl rate } .tokenStored)
  | .tokenStored =>
    some (s.store { s.tb with timePerBurst := burstTime fl s.tb.burstSize s.tb.timePerToken }
      .sleeping)

variable [DecidableEq ι]

def goto (s : State ι) (p : ι) (pc : Pc) : State ι :=
  { s with pc := Function.update s.pc p pc }

/-- The call returns to its loop. -/
def answer (s : State ι) (p : ι) (granted : Bool) : State ι :=
  { s with
    waits := Function.update s.waits p ((s.waits p).next granted)
    pc := Function.update s.pc p .idle }

/-- A candidate past the clock reading ends the call with `false`. -/
def attempt (s : State ι) (p : ι) (now timeNeeded oldTime newTime : ℕ) : State ι :=
  if now < newTime then s.answer p false else s.goto p (.trying now timeNeeded oldTime newTime)

def swap (s : State ι) (p : ι) (b : Fin nrBucket) (tokens timeNeeded newTime : ℕ) : State ι :=
  let s' := s.answer p true
  { s' with
    table := s.table.modify primary fun r =>
      { r with tb := { r.tb with buckets := Function.update r.tb.buckets b newTime } }
    grants := s.grants ++ [⟨b, tokens, timeNeeded, newTime⟩] }

def advance (fl : ℚ → ℚ) (s : State ι) (p : ι) : Option (State ι) :=
  match (s.waits p).amount with
  | none => some s
  | some tokens => do
    let b ← bucketIndex (s.waits p).start
    let time := s.tb.buckets b
    match s.pc p with
    | .idle => some s
    | .clocked now =>
      (s.tb.timeNeeded fl tokens).map fun timeNeeded => s.goto p (.priced now timeNeeded)
    | .priced now timeNeeded =>
      (s.tb.minTime fl now).map fun minTime => s.goto p (.clamped now timeNeeded minTime)
    | .clamped now timeNeeded minTime =>
      some (s.attempt p now timeNeeded time (firstCandidate time minTime timeNeeded))
    | .trying now timeNeeded oldTime newTime =>
      if time = oldTime then some (s.swap p b tokens timeNeeded newTime)
      else some (s.goto p (.lost now timeNeeded))
    | .lost now timeNeeded =>
      some (s.attempt p now timeNeeded time (retryCandidate time timeNeeded))

end State

/-- An event that does not apply to its task changes nothing. -/
def step [DecidableEq ι] (fl : ℚ → ℚ) (s : State ι) : Event ι → Option (State ι)
  | .reportBw task bandwidth => some { s with table := s.table.reportBw task bandwidth }
  | .monitor => s.monitorStep fl
  | .waitForToken p tokens start =>
    if s.pc p = .idle ∧ (s.waits p).amount = none then
      (WaitLoop.waitForToken fl s.tb.burstSize tokens start).map fun w =>
        { s with waits := Function.update s.waits p w }
    else some s
  | .readClock p now =>
    if s.pc p = .idle ∧ (s.waits p).amount ≠ none then some (s.goto p (.clocked now)) else some s
  | .advance p => s.advance fl p

/-- Uninterrupted, the four steps of the monitor are an iteration of its loop. -/
theorem monitor_iteration [DecidableEq ι] (fl : ℚ → ℚ) (s : State ι) (hs : s.monitor = .sleeping) :
    run (step fl) s [.monitor, .monitor, .monitor, .monitor] =
      (networkMonitor fl s.table).map fun table => { s with table := table } := by
  simp only [run, step, State.monitorStep, hs, networkMonitor, Option.map_map]
  cases hr : beBw fl (s.table.getBw primary) with
  | none => rfl
  | some rate =>
    simp only [Option.bind_some, Option.map_some, State.store, State.tb, modify_modify,
      modify_apply, if_true]
    rfl

/-- Bounds that a run stays within: the reports of the primary task, in megabytes per second,
and the clock readings. The reports leave a positive rate. -/
structure Regime where
  low : ℕ
  high : ℕ
  burstSize : ℕ
  t₁ : ℕ
  t₂ : ℕ
  low_le : low ≤ high
  high_lt : high < 5250
  burst_le : 16 ≤ burstSize
  burst_lt : burstSize < 2 ^ 64
  t₁_le : t₁ ≤ t₂
  t₂_lt : t₂ < 2 ^ 63
  burst_ns : burstNs ((5250 - high) * 1000000) burstSize ≤ t₁

namespace Regime

/-- The rate that a report leaves to the other tasks. -/
def leftover (b : ℕ) : ℕ := (5250 - b) * 1000000

def least (g : Regime) : ℕ := leftover g.high

def most (g : Regime) : ℕ := leftover g.low

/-- The earliest time that is charged for. -/
def floor (g : Regime) : ℕ := windowStart (burstNs g.least g.burstSize) g.t₁

def Clocked (g : Regime) (now : ℕ) : Prop := g.t₁ ≤ now ∧ now ≤ g.t₂

def Allows (g : Regime) (rate : ℕ) : Prop := g.least ≤ rate ∧ rate ≤ g.most

instance (g : Regime) (rate : ℕ) : Decidable (g.Allows rate) :=
  inferInstanceAs (Decidable (_ ∧ _))

variable {g : Regime} {rate tokens : ℕ}

theorem least_pos (g : Regime) : 1 ≤ g.least := by
  have h := g.high_lt
  unfold least leftover
  omega

theorem allows_leftover {b : ℕ} (h : g.low ≤ b ∧ b ≤ g.high) : g.Allows (leftover b) := by
  have hh := g.high_lt
  unfold Allows least most leftover
  omega

theorem Allows.pos (h : g.Allows rate) : 1 ≤ rate := g.least_pos.trans h.1

end Regime

theorem beBw_id {n : ℕ} (h : n < 5250) : beBw id n = some (Regime.leftover n) := by
  have hused : wrap 64 (n * 1000000) = n * 1000000 := wrap_of_lt (by omega)
  have hfree : wrapSub 64 totalBw (n * 1000000) = 7000000000 - n * 1000000 := by
    rw [wrapSub_of_le] <;> norm_num [totalBw]
    omega
  have hq : (n : ℚ) < 5250 := by exact_mod_cast h
  have hshare : ((n * 1000000 : ℕ) : ℚ) * (1 / 10) < (totalBw : ℚ) * (1 / 4) := by
    push_cast [totalBw]
    linarith
  have heq : ((7000000000 - n * 1000000 : ℕ) : ℚ) - (totalBw : ℚ) * (1 / 4) =
      ((Regime.leftover n : ℤ) : ℚ) := by
    have h1 : 7000000000 - n * 1000000 = Regime.leftover n + 1750000000 := by
      unfold Regime.leftover
      omega
    rw [h1]
    push_cast [totalBw]
    ring
  have hlt : Regime.leftover n < 2 ^ 64 := by
    unfold Regime.leftover
    omega
  simp only [beBw, hused, hfree, id, hshare, if_true, heq]
  generalize Regime.leftover n = rate at hlt ⊢
  rw [truncate_intCast (Int.natCast_nonneg rate) (by omega), Int.toNat_natCast]

section Prices
variable {g : Regime} {rate tokens now : ℕ} {tb : TokenBucket}

theorem tokenNs_anti {r r' : ℕ} (hr : 1 ≤ r) (h : r ≤ r') : tokenNs r' ≤ tokenNs r := by
  have hq : (0 : ℚ) < r := by exact_mod_cast hr
  have hle : (r : ℚ) ≤ r' := by exact_mod_cast h
  exact div_le_div_of_nonneg_left (by norm_num) hq hle

theorem burstNs_anti {r r' : ℕ} (hr : 1 ≤ r) (h : r ≤ r') (n : ℕ) : burstNs r' n ≤ burstNs r n :=
  mul_le_mul_of_nonneg_left (tokenNs_anti hr h) (by positivity)

/-- A charge at the price of an allowed rate. -/
structure Charged (g : Regime) (tokens timeNeeded : ℕ) : Prop where
  tokens_le : tokens * tokenNs g.most ≤ timeNeeded + 1
  le_burst : (timeNeeded : ℚ) ≤ burstNs g.least g.burstSize

theorem Charged.lt {timeNeeded : ℕ} (h : Charged g tokens timeNeeded) : timeNeeded < 2 ^ 63 := by
  have hq : (timeNeeded : ℚ) ≤ g.t₁ := h.le_burst.trans g.burst_ns
  have hn : timeNeeded ≤ g.t₁ := by exact_mod_cast hq
  exact hn.trans_lt (g.t₁_le.trans_lt g.t₂_lt)

theorem timeNeeded_of_allows (hr : g.Allows rate) (ht : tokens ≤ g.burstSize / 16)
    (hp : tb.timePerToken = some (tokenNs rate)) :
    ∃ timeNeeded, tb.timeNeeded id tokens = some timeNeeded ∧ Charged g tokens timeNeeded := by
  have hpos : 0 ≤ tokens * tokenNs rate := mul_nonneg (Nat.cast_nonneg _) (tokenNs_pos hr.pos).le
  have hle : tokens * tokenNs rate ≤ burstNs g.least g.burstSize :=
    (chunk_le_burstNs rate ht).trans (burstNs_anti g.least_pos hr.1 _)
  have hmax : (g.t₁ : ℚ) < 2 ^ 63 := by exact_mod_cast g.t₁_le.trans_lt g.t₂_lt
  have hburst := g.burst_ns
  change burstNs g.least g.burstSize ≤ g.t₁ at hburst
  refine ⟨chargeNs rate tokens, ?_, ?_, (Nat.floor_le hpos).trans hle⟩
  · simp only [timeNeeded, hp, Option.bind_some, id]
    exact truncate_of_nonneg hpos (by linarith)
  · have hmost := mul_le_mul_of_nonneg_left (tokenNs_anti hr.pos hr.2)
      (Nat.cast_nonneg (α := ℚ) tokens)
    exact hmost.trans (lt_chargeNs_add_one rate tokens)

theorem minTime_of_allows (hr : g.Allows rate) (hnow : g.Clocked now)
    (hb : tb.timePerBurst = some (burstNs rate g.burstSize)) :
    ∃ minTime, tb.minTime id now = some minTime ∧ g.floor ≤ minTime ∧ minTime ≤ now := by
  have hle : burstNs rate g.burstSize ≤ burstNs g.least g.burstSize :=
    burstNs_anti g.least_pos hr.1 _
  have h0 := burstNs_nonneg rate g.burstSize
  have ht : (g.t₁ : ℚ) ≤ now := by exact_mod_cast hnow.1
  have hmax : (now : ℚ) < 2 ^ 63 := by exact_mod_cast hnow.2.trans_lt g.t₂_lt
  have hburst := g.burst_ns
  change burstNs g.least g.burstSize ≤ g.t₁ at hburst
  refine ⟨windowStart (burstNs rate g.burstSize) now, ?_, ?_, windowStart_le h0 now⟩
  · simp only [minTime, hb, Option.bind_some, id]
    exact truncate_of_nonneg (by linarith) (by linarith)
  · apply Nat.floor_mono
    linarith

theorem floor_le (g : Regime) : g.floor ≤ g.t₂ :=
  (windowStart_le (burstNs_nonneg _ _) _).trans g.t₁_le

end Prices

section Calls
variable {g : Regime} {tokens time time' : ℕ}

/-- What holds of a call for `tokens` on a bucket with the given time. A lost race means that
another call has brought the bucket past the floor. -/
def Pc.Sound (g : Regime) (tokens time : ℕ) : Pc → Prop
  | .idle => True
  | .clocked now => g.Clocked now
  | .priced now timeNeeded => g.Clocked now ∧ Charged g tokens timeNeeded
  | .clamped now timeNeeded minTime =>
    g.Clocked now ∧ Charged g tokens timeNeeded ∧ g.floor ≤ minTime ∧ minTime ≤ now
  | .trying now timeNeeded oldTime newTime =>
    g.Clocked now ∧ Charged g tokens timeNeeded ∧ newTime ≤ now ∧
      (∃ base, oldTime ≤ base ∧ g.floor ≤ base ∧ newTime = base + timeNeeded) ∧
      (time = oldTime ∨ g.floor ≤ time)
  | .lost now timeNeeded => g.Clocked now ∧ Charged g tokens timeNeeded ∧ g.floor ≤ time

theorem Pc.Sound.mono {pc : Pc} (h : pc.Sound g tokens time)
    (ht : time' = time ∨ g.floor ≤ time') : pc.Sound g tokens time' := by
  rcases ht with rfl | ht
  · exact h
  · cases pc with
    | trying now n old new => exact ⟨h.1, h.2.1, h.2.2.1, h.2.2.2.1, .inr ht⟩
    | lost now n => exact ⟨h.1, h.2.1, ht⟩
    | _ => exact h

/-- All loops ask for a share of the burst at most, and all calls are sound. -/
structure Calls (g : Regime) (times : Fin nrBucket → ℕ) (waits : ι → WaitLoop) (pc : ι → Pc) :
    Prop where
  loops : ∀ p, (waits p).Within (g.burstSize / 16)
  sound : ∀ p tokens b, (waits p).amount = some tokens →
    bucketIndex (waits p).start = some b → (pc p).Sound g tokens (times b)

variable {times : Fin nrBucket → ℕ} {waits : ι → WaitLoop} {pc : ι → Pc}

theorem Calls.mono {times' : Fin nrBucket → ℕ} (h : Calls g times waits pc)
    (ht : ∀ b, times' b = times b ∨ g.floor ≤ times' b) : Calls g times' waits pc :=
  ⟨h.loops, fun p tokens b ha hb => (h.sound p tokens b ha hb).mono (ht b)⟩

variable [DecidableEq ι] {p : ι}

theorem Calls.goto (h : Calls g times waits pc) {c : Pc}
    (hc : ∀ tokens b, (waits p).amount = some tokens → bucketIndex (waits p).start = some b →
      c.Sound g tokens (times b)) : Calls g times waits (Function.update pc p c) := by
  refine ⟨h.loops, fun q => ?_⟩
  by_cases hq : q = p
  · subst hq
    rw [Function.update_self]
    exact hc
  · rw [Function.update_of_ne hq]
    exact h.sound q

/-- A task that is in no call takes up another loop. -/
theorem Calls.loop (h : Calls g times waits pc) {w : WaitLoop}
    (hw : w.Within (g.burstSize / 16)) :
    Calls g times (Function.update waits p w) (Function.update pc p .idle) := by
  refine ⟨fun q => ?_, fun q => ?_⟩
  · by_cases hq : q = p
    · subst hq
      rw [Function.update_self]
      exact hw
    · rw [Function.update_of_ne hq]
      exact h.loops q
  · by_cases hq : q = p
    · subst hq
      rw [Function.update_self, Function.update_self]
      exact fun _ _ _ _ => trivial
    · rw [Function.update_of_ne hq, Function.update_of_ne hq]
      exact h.sound q

/-- A candidate that starts at the bucket time or later, and above the floor. -/
theorem Calls.attempt {s : State ι} (h : Calls g s.tb.buckets s.waits s.pc) {b : Fin nrBucket}
    {now n base : ℕ} (ha : (s.waits p).amount = some tokens)
    (hb : bucketIndex (s.waits p).start = some b) (hnow : g.Clocked now) (hn : Charged g tokens n)
    (hbase : s.tb.buckets b ≤ base) (hfloor : g.floor ≤ base) :
    Calls g s.tb.buckets (s.attempt p now n (s.tb.buckets b) (base + n)).waits
      (s.attempt p now n (s.tb.buckets b) (base + n)).pc := by
  unfold State.attempt
  split_ifs with hlt
  · exact h.loop ((h.loops p).next false)
  · refine h.goto fun tokens' b' ha' hb' => ?_
    obtain rfl := Option.some.inj (ha.symm.trans ha')
    obtain rfl := Option.some.inj (hb.symm.trans hb')
    exact ⟨hnow, hn, not_lt.mp hlt, ⟨base, hbase, hfloor, rfl⟩, .inl rfl⟩

end Calls

section Ledger
variable {g : Regime}

/-- Start of the interval of bucket time that was charged. -/
def Spent.lo (x : Spent) : ℕ := x.newTime - x.timeNeeded

/-- The grants of one bucket occupy disjoint intervals, above the floor and below the current
bucket time. -/
structure Ledger (g : Regime) (times : Fin nrBucket → ℕ) (grants : List Spent) : Prop where
  time_lt : ∀ b, times b < 2 ^ 63
  charged : ∀ x ∈ grants, Charged g x.tokens x.timeNeeded
  placed : ∀ x ∈ grants, g.floor ≤ x.lo ∧ x.lo + x.timeNeeded = x.newTime ∧ x.newTime ≤ g.t₂
  below : ∀ x ∈ grants, x.newTime ≤ times x.bucket
  stacked : ∀ b, Stacked Spent.lo Spent.timeNeeded (grants.filter (·.bucket = b))

theorem Ledger.grant {times : Fin nrBucket → ℕ} {grants : List Spent} (h : Ledger g times grants)
    {b : Fin nrBucket} {tokens n base : ℕ} (hn : Charged g tokens n) (hbase : times b ≤ base)
    (hfloor : g.floor ≤ base) (hle : base + n ≤ g.t₂) :
    Ledger g (Function.update times b (base + n)) (grants ++ [⟨b, tokens, n, base + n⟩]) := by
  have hlo : Spent.lo ⟨b, tokens, n, base + n⟩ = base := Nat.add_sub_cancel ..
  have hgrow (c : Fin nrBucket) : times c ≤ Function.update times b (base + n) c := by
    by_cases hc : c = b
    · subst hc
      rw [Function.update_self]
      omega
    · rw [Function.update_of_ne hc]
  constructor
  case time_lt =>
    exact (Function.forall_update_iff times fun _ t => t < 2 ^ 63).mpr
      ⟨hle.trans_lt g.t₂_lt, fun c _ => h.time_lt c⟩
  case charged =>
    simp only [List.forall_mem_append, List.forall_mem_singleton]
    exact ⟨h.charged, hn⟩
  case placed =>
    simp only [List.forall_mem_append, List.forall_mem_singleton, hlo]
    exact ⟨h.placed, hfloor, trivial, hle⟩
  case below =>
    simp only [List.forall_mem_append, List.forall_mem_singleton, Function.update_self, le_refl,
      and_true]
    exact fun x hx => (h.below x hx).trans (hgrow x.bucket)
  case stacked =>
    refine stacked_filter_concat h.stacked fun x hx hb => ?_
    have hbelow := h.below x hx
    rw [hb] at hbelow
    rw [(h.placed x hx).2.1, hlo]
    exact hbelow.trans hbase

end Ledger

section Invariant
variable {g : Regime} {s : State ι}

/-- The two prices in the table belong to allowed rates, possibly to different ones. -/
structure Rates (g : Regime) (s : State ι) : Prop where
  token : ∃ r, g.Allows r ∧ s.tb.timePerToken = some (tokenNs r)
  burst : ∃ r, g.Allows r ∧ s.tb.timePerBurst = some (burstNs r g.burstSize)
  size : s.tb.burstSize = g.burstSize
  report : g.low ≤ s.table.getBw primary ∧ s.table.getBw primary ≤ g.high
  monitor : ∀ r, s.monitor = .computed r ∨ s.monitor = .rateStored r → g.Allows r

theorem Rates.congr {s' : State ι} (h : Rates g s)
    (htoken : s'.tb.timePerToken = s.tb.timePerToken)
    (hburst : s'.tb.timePerBurst = s.tb.timePerBurst) (hsize : s'.tb.burstSize = s.tb.burstSize)
    (hreport : g.low ≤ s'.table.getBw primary ∧ s'.table.getBw primary ≤ g.high)
    (hm : s'.monitor = s.monitor) : Rates g s' where
  token := htoken ▸ h.token
  burst := hburst ▸ h.burst
  size := hsize.trans h.size
  report := hreport
  monitor := hm ▸ h.monitor

structure Inv (g : Regime) (s : State ι) : Prop where
  rates : Rates g s
  calls : Calls g s.tb.buckets s.waits s.pc
  ledger : Ledger g s.tb.buckets s.grants

/-- What a run assumes of its events. -/
def Admissible (g : Regime) : Event ι → Prop
  | .reportBw task b => task = primary → g.low ≤ b ∧ b ≤ g.high
  | .waitForToken _ _ start => 0 ≤ start ∧ start < nrBucket
  | .readClock _ now => g.Clocked now
  | _ => True

theorem reportBw_tb (table : Table) (task : Fin tableSize) (b : ℕ) :
    (table.reportBw task b primary).tb = (table primary).tb := by
  simp only [Table.reportBw, modify_apply]
  split_ifs with h <;> simp [h]

@[simp] theorem store_tb (s : State ι) (tb : TokenBucket) (m : MonitorPc) :
    (s.store tb m).tb = tb := by
  simp [State.store, State.tb, modify_apply]

theorem store_getBw (s : State ι) (tb : TokenBucket) (m : MonitorPc) :
    (s.store tb m).table.getBw primary = s.table.getBw primary := by
  simp [State.store, getBw, modify_apply]

theorem Inv.reportBw (h : Inv g s) {task : Fin tableSize} {b : ℕ}
    (hb : task = primary → g.low ≤ b ∧ b ≤ g.high) :
    Inv g { s with table := s.table.reportBw task b } := by
  have htb : (State.mk (s.table.reportBw task b) s.monitor s.waits s.pc s.grants).tb = s.tb :=
    reportBw_tb s.table task b
  have hreport : g.low ≤ (s.table.reportBw task b).getBw primary ∧
      (s.table.reportBw task b).getBw primary ≤ g.high := by
    by_cases ht : task = primary
    · subst ht
      have hh := g.high_lt
      have hbw : (s.table.reportBw primary b).getBw primary = b := by
        simp only [getBw, Table.reportBw, modify_apply, if_true]
        exact wrap_of_lt (by have := hb rfl; omega)
      rw [hbw]
      exact hb rfl
    · have hbw : (s.table.reportBw task b).getBw primary = s.table.getBw primary := by
        simp [getBw, Table.reportBw, modify_apply, Ne.symm ht]
      rw [hbw]
      exact h.rates.report
  constructor
  · exact h.rates.congr (by rw [htb]) (by rw [htb]) (by rw [htb]) hreport rfl
  · rw [htb]
    exact h.calls
  · rw [htb]
    exact h.ledger

/-- A store of the monitor that leaves the bucket times and the burst size alone. -/
theorem Inv.store (h : Inv g s) {tb : TokenBucket} {m : MonitorPc}
    (hbuckets : tb.buckets = s.tb.buckets) (hsize : tb.burstSize = s.tb.burstSize)
    (htoken : ∃ r, g.Allows r ∧ tb.timePerToken = some (tokenNs r))
    (hburst : ∃ r, g.Allows r ∧ tb.timePerBurst = some (burstNs r g.burstSize))
    (hm : ∀ r, m = .computed r ∨ m = .rateStored r → g.Allows r) : Inv g (s.store tb m) := by
  refine ⟨⟨?_, ?_, ?_, ?_, hm⟩, ?_, ?_⟩
  · rwa [store_tb]
  · rwa [store_tb]
  · rw [store_tb, hsize, h.rates.size]
  · rw [store_getBw]
    exact h.rates.report
  · rw [store_tb, hbuckets]
    exact h.calls
  · rw [store_tb, hbuckets]
    exact h.ledger

theorem Inv.monitorStep (h : Inv g s) : ∃ s', s.monitorStep id = some s' ∧ Inv g s' := by
  have hr := h.rates
  unfold State.monitorStep
  split
  next =>
    have hlow := hr.report
    have hbw := beBw_id (hlow.2.trans_lt g.high_lt)
    rw [hbw]
    refine ⟨_, rfl, ⟨hr.token, hr.burst, hr.size, hr.report, ?_⟩, h.calls, h.ledger⟩
    rintro r (hc | hc)
    · cases hc
      exact Regime.allows_leftover hlow
    · cases hc
  next rate hm =>
    have ha := hr.monitor rate (.inl hm)
    refine ⟨_, rfl, h.store rfl rfl hr.token hr.burst ?_⟩
    rintro r (hc | hc)
    · cases hc
    · cases hc
      exact ha
  next rate hm =>
    have ha := hr.monitor rate (.inr hm)
    refine ⟨_, rfl, h.store rfl rfl ⟨rate, ha, tokenTime_id ha.pos⟩ hr.burst ?_⟩
    rintro r (hc | hc) <;> cases hc
  next =>
    obtain ⟨r, ha, htok⟩ := hr.token
    refine ⟨_, rfl, h.store rfl rfl ⟨r, ha, htok⟩ ⟨r, ha, ?_⟩ ?_⟩
    · rw [htok, hr.size]
      simp [burstTime, burstNs, nrBucket]
    · rintro r (hc | hc) <;> cases hc

variable [DecidableEq ι] {p : ι}

theorem Inv.goto (h : Inv g s) {c : Pc}
    (hc : ∀ tokens b, (s.waits p).amount = some tokens →
      bucketIndex (s.waits p).start = some b → c.Sound g tokens (s.tb.buckets b)) :
    Inv g (s.goto p c) :=
  ⟨h.rates.congr rfl rfl rfl h.rates.report rfl, h.calls.goto hc, h.ledger⟩

theorem Inv.attempt (h : Inv g s) {b : Fin nrBucket} {tokens now n base : ℕ}
    (ha : (s.waits p).amount = some tokens) (hb : bucketIndex (s.waits p).start = some b)
    (hnow : g.Clocked now) (hn : Charged g tokens n) (hbase : s.tb.buckets b ≤ base)
    (hfloor : g.floor ≤ base) : Inv g (s.attempt p now n (s.tb.buckets b) (base + n)) := by
  have hcalls := h.calls.attempt ha hb hnow hn hbase hfloor
  have htable : (s.attempt p now n (s.tb.buckets b) (base + n)).table = s.table ∧
      (s.attempt p now n (s.tb.buckets b) (base + n)).monitor = s.monitor ∧
      (s.attempt p now n (s.tb.buckets b) (base + n)).grants = s.grants := by
    unfold State.attempt
    split_ifs <;> exact ⟨rfl, rfl, rfl⟩
  have htb : (s.attempt p now n (s.tb.buckets b) (base + n)).tb = s.tb :=
    congrArg (fun t : Table => (t primary).tb) htable.1
  have hreport := h.rates.report
  rw [← htable.1] at hreport
  constructor
  · exact h.rates.congr (by rw [htb]) (by rw [htb]) (by rw [htb]) hreport htable.2.1
  · rw [htb]
    exact hcalls
  · rw [htb, htable.2.2]
    exact h.ledger

theorem Inv.swap (h : Inv g s) {b : Fin nrBucket} {tokens n base : ℕ} (hn : Charged g tokens n)
    (hbase : s.tb.buckets b ≤ base) (hfloor : g.floor ≤ base) (hle : base + n ≤ g.t₂) :
    Inv g (s.swap p b tokens n (base + n)) := by
  have htb : (s.swap p b tokens n (base + n)).tb =
      { s.tb with buckets := Function.update s.tb.buckets b (base + n) } := by
    simp [State.swap, State.tb, modify_apply]
  have hbw : (s.swap p b tokens n (base + n)).table.getBw primary = s.table.getBw primary := by
    simp [State.swap, getBw, modify_apply]
  have hreport := h.rates.report
  rw [← hbw] at hreport
  constructor
  · exact h.rates.congr (by rw [htb]) (by rw [htb]) (by rw [htb]) hreport rfl
  · rw [htb]
    refine (h.calls.loop ((h.calls.loops p).next true)).mono fun c => ?_
    by_cases hc : c = b
    · subst hc
      right
      show g.floor ≤ Function.update s.tb.buckets c (base + n) c
      rw [Function.update_self]
      omega
    · left
      exact Function.update_of_ne hc _ _
  · rw [htb]
    exact h.ledger.grant hn hbase hfloor hle

/-- Every access of a call is defined and keeps the invariant. -/
theorem Inv.advance (h : Inv g s) (p : ι) : ∃ s', s.advance id p = some s' ∧ Inv g s' := by
  unfold State.advance
  split
  next => exact ⟨s, rfl, h⟩
  next tokens ha =>
    have hin := h.calls.loops p
    have htok := hin.amount_le ha
    obtain ⟨b, hb⟩ := bucketIndex_of_mem hin.start_nonneg hin.start_lt
    have hs := h.calls.sound p tokens b ha hb
    have htime := h.ledger.time_lt b
    have hcall {c : Pc} (hc : c.Sound g tokens (s.tb.buckets b)) (tokens' : ℕ)
        (b' : Fin nrBucket) (ha' : (s.waits p).amount = some tokens')
        (hb' : bucketIndex (s.waits p).start = some b') : c.Sound g tokens' (s.tb.buckets b') := by
      obtain rfl := Option.some.inj (ha.symm.trans ha')
      obtain rfl := Option.some.inj (hb.symm.trans hb')
      exact hc
    simp only [hb, Option.bind_eq_bind, Option.bind_some]
    split
    next => exact ⟨s, rfl, h⟩
    next now hpc =>
      rw [hpc] at hs
      obtain ⟨r, hr, hp⟩ := h.rates.token
      obtain ⟨n, hn, hch⟩ := timeNeeded_of_allows hr htok hp
      exact ⟨_, by rw [hn, Option.map_some], h.goto (hcall (c := .priced now n) ⟨hs, hch⟩)⟩
    next now n hpc =>
      rw [hpc] at hs
      obtain ⟨r, hr, hp⟩ := h.rates.burst
      obtain ⟨m, hm, hfloor, hle⟩ := minTime_of_allows hr hs.1 hp
      exact ⟨_, by rw [hm, Option.map_some],
        h.goto (hcall (c := .clamped now n m) ⟨hs.1, hs.2, hfloor, hle⟩)⟩
    next now n m hpc =>
      rw [hpc] at hs
      obtain ⟨hnow, hch, hfloor, hle⟩ := hs
      have hlt := hch.lt
      have hmax := hnow.2.trans_lt g.t₂_lt
      rw [firstCandidate_eq _ _ _ (by omega)]
      exact ⟨_, rfl, h.attempt ha hb hnow hch (le_max_left _ _) (hfloor.trans (le_max_right _ _))⟩
    next now n old new hpc =>
      rw [hpc] at hs
      obtain ⟨hnow, hch, hle, ⟨base, hbase, hfloor, rfl⟩, htried⟩ := hs
      split_ifs with hold
      · exact ⟨_, rfl, h.swap hch (hold.le.trans hbase) hfloor (hle.trans hnow.2)⟩
      · exact ⟨_, rfl, h.goto (hcall ⟨hnow, hch, htried.resolve_left hold⟩)⟩
    next now n hpc =>
      rw [hpc] at hs
      obtain ⟨hnow, hch, hfloor⟩ := hs
      have hlt := hch.lt
      rw [retryCandidate_eq (by omega)]
      exact ⟨_, rfl, h.attempt ha hb hnow hch le_rfl hfloor⟩

theorem step_inv (s : State ι) (e : Event ι) (h : Inv g s) (he : Admissible g e) :
    ∃ s', step id s e = some s' ∧ Inv g s' := by
  cases e with
  | reportBw task b => exact ⟨_, rfl, h.reportBw he⟩
  | monitor => exact h.monitorStep
  | advance p => exact h.advance p
  | waitForToken p tokens start =>
    simp only [step]
    split_ifs with hi
    · rw [h.rates.size]
      obtain ⟨w, hw, hin⟩ := waitForToken_within tokens g.burst_le g.burst_lt he.1 he.2
      have hcalls := h.calls.loop (p := p) hin
      rw [← hi.1, Function.update_eq_self] at hcalls
      rw [hw, Option.map_some]
      exact ⟨_, rfl, h.rates.congr rfl rfl rfl h.rates.report rfl, hcalls, h.ledger⟩
    · exact ⟨s, rfl, h⟩
  | readClock p now =>
    simp only [step]
    split_ifs with hi
    · exact ⟨_, rfl, h.goto fun _ _ _ _ => he⟩
    · exact ⟨s, rfl, h⟩

end Invariant

section Bound
variable {g : Regime} {times : Fin nrBucket → ℕ} {grants : List Spent}

theorem Ledger.bucket_le (h : Ledger g times grants) (b : Fin nrBucket) :
    (((grants.filter (·.bucket = b)).map Spent.timeNeeded).sum : ℚ) ≤
      (g.t₂ - g.t₁ : ℚ) + burstNs g.least g.burstSize + 1 := by
  have hplaced {x : Spent} (hx : x ∈ grants.filter (·.bucket = b)) :=
    h.placed x (List.mem_filter.mp hx).1
  have hsum : ((grants.filter (·.bucket = b)).map Spent.timeNeeded).sum + g.floor ≤ g.t₂ := by
    apply (h.stacked b).sum_width_le
    · intro x hx
      exact (hplaced hx).1
    · intro x hx
      obtain ⟨-, hend, hle⟩ := hplaced hx
      exact hend.trans_le hle
    · exact floor_le g
  have hfloor := lt_windowStart_add_one (burstNs g.least g.burstSize) g.t₁
  have hq : (((grants.filter (·.bucket = b)).map Spent.timeNeeded).sum : ℚ) + g.floor ≤ g.t₂ := by
    exact_mod_cast hsum
  unfold Regime.floor at hq
  linarith

theorem Ledger.time_le (h : Ledger g times grants) :
    ((grants.map Spent.timeNeeded).sum : ℚ) ≤
      16 * ((g.t₂ - g.t₁ : ℚ) + burstNs g.least g.burstSize + 1) := by
  have hsum := Finset.sum_le_sum (s := Finset.univ) fun b _ => h.bucket_le b
  rw [Finset.sum_const, Finset.card_univ, Fintype.card_fin, nsmul_eq_mul] at hsum
  rw [sum_fiberwise Spent.bucket Spent.timeNeeded, Nat.cast_sum]
  exact hsum

theorem tokens_le_time (hg : ∀ x ∈ grants, Charged g x.tokens x.timeNeeded) :
    ((grants.map Spent.tokens).sum : ℚ) * tokenNs g.most ≤
      ((grants.map Spent.timeNeeded).sum : ℚ) + grants.length := by
  induction grants with
  | nil => simp
  | cons x grants ih =>
    obtain ⟨hx, hrest⟩ := List.forall_mem_cons.mp hg
    have hx := hx.tokens_le
    have ih := ih hrest
    simp only [List.map_cons, List.sum_cons, List.length_cons, Nat.cast_add, Nat.cast_one] at ih ⊢
    linarith

theorem Ledger.tokens_le (h : Ledger g times grants) :
    ((grants.map Spent.tokens).sum : ℚ) ≤
      g.most * (g.t₂ - g.t₁ : ℚ) / 1000000000 + g.burstSize * (g.most / g.least : ℚ) +
        (grants.length + 16) * g.most / 16000000000 := by
  have hmost : 1 ≤ g.most := (g.least_pos.trans (Regime.allows_leftover ⟨g.low_le, le_rfl⟩).2)
  have hmq : (0 : ℚ) < g.most := by exact_mod_cast hmost
  have hlq : (0 : ℚ) < g.least := by exact_mod_cast g.least_pos
  have htok := (tokens_le_time h.charged).trans (add_le_add_left h.time_le _)
  rw [← le_div_iff₀ (tokenNs_pos hmost)] at htok
  refine htok.trans (le_of_eq ?_)
  unfold burstNs tokenNs
  field_simp
  ring

end Bound

/-- A table in which the rate and the last report of the primary task are within the bounds. -/
structure Ready (g : Regime) (table : Table) : Prop where
  tuned : Rate.Tuned (table primary).tb
  rate : g.Allows (table primary).tb.rate
  size : (table primary).tb.burstSize = g.burstSize
  time_lt : ∀ b, (table primary).tb.buckets b < 2 ^ 63
  report : g.low ≤ table.getBw primary ∧ table.getBw primary ≤ g.high

theorem Ready.inv {g : Regime} {table : Table} (h : Ready g table) :
    Inv g (State.start table : State ι) where
  rates := ⟨⟨_, h.rate, h.tuned.token⟩, ⟨_, h.rate, h.size ▸ h.tuned.burst⟩, h.size, h.report,
    fun r hr => by rcases hr with hr | hr <;> cases hr⟩
  calls := ⟨fun _ => ⟨fun hl => absurd hl (lt_irrefl _), Nat.zero_le _, le_rfl,
    by simp [State.start, nrBucket]⟩, fun _ _ _ _ _ => trivial⟩
  ledger := ⟨h.time_lt, by simp [State.start], by simp [State.start], by simp [State.start],
    by simp [State.start, Stacked]⟩

/-- While the primary task reports at least `low` and at most `high` megabytes per second, every
interleaving of its reports, of the stores of the monitor and of the accesses of the other tasks
is defined, and the tokens that these are granted stay within the bandwidth that the lowest report
leaves, the burst, scaled by how far the rate can move, and the truncation slack. -/
theorem reserved_bound [DecidableEq ι] (g : Regime) (table : Table) (hready : Ready g table)
    (es : List (Event ι)) (he : ∀ e ∈ es, Admissible g e) :
    ∃ s, run (step id) (State.start table) es = some s ∧
      ((s.grants.map Spent.tokens).sum : ℚ) ≤
        g.most * (g.t₂ - g.t₁ : ℚ) / 1000000000 + g.burstSize * (g.most / g.least : ℚ) +
          (s.grants.length + 16) * g.most / 16000000000 := by
  obtain ⟨s, hrun, hinv⟩ := run_total step_inv hready.inv he
  exact ⟨s, hrun, hinv.ledger.tokens_le⟩

/-- Reports between one and five gigabytes per second, in a window of a microsecond. -/
def microsecond : Regime where
  low := 1000
  high := 5000
  burstSize := 32
  t₁ := 1000
  t₂ := 2000
  low_le := by decide
  high_lt := by decide
  burst_le := by decide
  burst_lt := by decide
  t₁_le := by decide
  t₂_lt := by decide
  burst_ns := by norm_num [burstNs, tokenNs]

def oneGigabyte : Table := fun i =>
  if i = primary then
    { Resource.zero with
      tb := initTokenBucket id 4250000000 32
      stat := { Resource.zero.stat with bandwidth := 1000 } }
  else Resource.zero

/-- One task is granted tokens at the old price, the other one reads the new price, loses the race
for the bucket, and is granted its tokens by the next one. -/
def slowDown : List (Event Bool) :=
  [.waitForToken false 2 0, .waitForToken true 2 0, .readClock false 1000, .advance false,
    .reportBw primary 5000, .monitor, .monitor, .monitor, .readClock true 1000, .advance true,
    .advance false, .monitor, .advance false, .advance true, .advance true, .advance false,
    .advance true, .advance true, .readClock true 1010, .advance true, .advance true,
    .advance true, .advance true]

theorem reserved_bound_slowDown :
    Ready microsecond oneGigabyte ∧ (∀ e ∈ slowDown, Admissible microsecond e) ∧
      ∃ s, run (step id) (State.start oneGigabyte) slowDown = some s ∧ s.grants.length = 2 ∧
        ((s.grants.map Spent.tokens).sum : ℚ) ≤
          microsecond.most * (microsecond.t₂ - microsecond.t₁ : ℚ) / 1000000000 +
            microsecond.burstSize * (microsecond.most / microsecond.least : ℚ) +
            (s.grants.length + 16) * microsecond.most / 16000000000 := by
  have hready : Ready microsecond oneGigabyte := by
    refine ⟨Rate.init_tuned (by norm_num), by decide, rfl, fun b => ?_, by decide⟩
    show 0 < 2 ^ 63
    norm_num
  have he : ∀ e ∈ slowDown, Admissible microsecond e := by
    simp [slowDown, Admissible, microsecond, Regime.Clocked, nrBucket]
  have hany : (run (step id) (State.start oneGigabyte) slowDown).any (·.grants.length = 2) := by
    decide +kernel
  obtain ⟨s, hrun, hlen⟩ := (Option.any_eq_true _ _).mp hany
  obtain ⟨s', hrun', hbound⟩ := reserved_bound microsecond oneGigabyte hready slowDown he
  obtain rfl := Option.some.inj (hrun.symm.trans hrun')
  exact ⟨hready, he, s, hrun, of_decide_eq_true hlen, hbound⟩

end RdmaperfIso.Control
