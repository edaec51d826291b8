import RdmaperfIso.Lib.Charges
import RdmaperfIso.Lib.FixedWidth

/-! The sharded token bucket: initialisation, rate changes, one `consume` call and
the two busy-wait loops. The parameter `fl` is the rounding of every `double`
operation: `id` reads doubles as exact rationals, binary64 rounding reads them as C
does. A conversion, index or division that C leaves undefined has no result. -/
namespace RdmaperfIso
open FixedWidth

def nrBucket : ℕ := 16

/-- The field `time` of each bucket is kept in `buckets`. A `double` field that is
not a finite number is `none`; arithmetic on it never becomes finite again. -/
structure TokenBucket where
  buckets : Fin nrBucket → ℕ
  rate : ℕ
  burstSize : ℕ
  timePerToken : Option ℚ
  timePerBurst : Option ℚ
  nextBucket : ℤ

namespace TokenBucket

def perBucketRate (fl : ℚ → ℚ) (rate : ℕ) : ℚ := fl (fl rate / nrBucket)

/-- Division by a zero rate gives an infinite `double`. -/
def tokenTime (fl : ℚ → ℚ) (rate : ℕ) : Option ℚ :=
  if perBucketRate fl rate = 0 then none else some (fl (1000000000 / perBucketRate fl rate))

def burstTime (fl : ℚ → ℚ) (burstSize : ℕ) (timePerToken : Option ℚ) : Option ℚ :=
  timePerToken.map fun t => fl (fl (fl burstSize / nrBucket) * t)

/-- The memory of a zero-filled resource table entry. -/
def zero : TokenBucket := ⟨fun _ => 0, 0, 0, some 0, some 0, 0⟩

def initTokenBucket (fl : ℚ → ℚ) (rate burstSize : ℕ) : TokenBucket where
  buckets := fun _ => 0
  rate := rate
  burstSize := burstSize
  timePerToken := tokenTime fl rate
  timePerBurst := burstTime fl burstSize (tokenTime fl rate)
  nextBucket := -1

def setRate (fl : ℚ → ℚ) (tb : TokenBucket) (rate : ℕ) : TokenBucket :=
  { tb with
    rate := rate
    timePerToken := tokenTime fl rate
    timePerBurst := burstTime fl tb.burstSize (tokenTime fl rate) }

def upRate (fl : ℚ → ℚ) (tb : TokenBucket) (rate : ℕ) : TokenBucket :=
  tb.setRate fl (wrap 64 (tb.rate + rate))

def downRate (fl : ℚ → ℚ) (tb : TokenBucket) (rate : ℕ) : TokenBucket :=
  tb.setRate fl (wrapSub 64 tb.rate rate)

/-- The bucket that is handed out and the bucket array that remembers it. -/
def getBaseBucket (tb : TokenBucket) : ℤ × TokenBucket :=
  let next := (tb.nextBucket + 1).tmod nrBucket
  (next, { tb with nextBucket := next })

/-- The index expression `tb->buckets[bucket]` is defined inside the array only. -/
def bucketIndex (bucket : ℤ) : Option (Fin nrBucket) :=
  if h : 0 ≤ bucket ∧ bucket < nrBucket then some ⟨bucket.toNat, by omega⟩ else none

def timeNeeded (fl : ℚ → ℚ) (tb : TokenBucket) (tokens : ℕ) : Option ℕ :=
  tb.timePerToken.bind fun t => truncate 64 (fl (fl tokens * t))

def minTime (fl : ℚ → ℚ) (tb : TokenBucket) (now : ℕ) : Option ℕ :=
  tb.timePerBurst.bind fun t => truncate 64 (fl (fl now - t))

/-- The candidate of the first attempt is clamped to the burst window. -/
def firstCandidate (oldTime minTime timeNeeded : ℕ) : ℕ :=
  wrap 64 ((if oldTime < minTime then minTime else oldTime) + timeNeeded)

/-- After a lost race the candidate restarts from the reloaded time as it is. -/
def retryCandidate (oldTime timeNeeded : ℕ) : ℕ := wrap 64 (oldTime + timeNeeded)

/-- One `consume` call that no other caller interrupts, so that its
compare-and-swap succeeds at the first attempt. -/
def consume (fl : ℚ → ℚ) (tb : TokenBucket) (tokens : ℕ) (bucket : ℤ) (now : ℕ) :
    Option (Bool × TokenBucket) := do
  let needed ← timeNeeded fl tb tokens
  let least ← minTime fl tb now
  let b ← bucketIndex bucket
  let newTime := firstCandidate (tb.buckets b) least needed
  if now < newTime then some (false, tb)
  else some (true, { tb with buckets := Function.update tb.buckets b newTime })

/-- Everything that one `consume` call can do. -/
theorem consume_cases {fl : ℚ → ℚ} {tb tb' : TokenBucket} {tokens now : ℕ} {bucket : ℤ}
    {granted : Bool} (h : tb.consume fl tokens bucket now = some (granted, tb')) :
    ∃ needed least b, tb.timeNeeded fl tokens = some needed ∧ tb.minTime fl now = some least ∧
      bucketIndex bucket = some b ∧
      (granted = false ∧ now < firstCandidate (tb.buckets b) least needed ∧ tb' = tb ∨
        granted = true ∧ firstCandidate (tb.buckets b) least needed ≤ now ∧
          tb' = { tb with
            buckets := Function.update tb.buckets b
              (firstCandidate (tb.buckets b) least needed) }) := by
  simp only [consume, Option.bind_eq_bind, Option.bind_eq_some_iff] at h
  obtain ⟨needed, hneeded, least, hleast, b, hb, h⟩ := h
  refine ⟨needed, least, b, hneeded, hleast, hb, ?_⟩
  split_ifs at h with hnow
  · obtain ⟨rfl, rfl⟩ := Prod.mk.inj (Option.some.inj h)
    exact Or.inl ⟨rfl, hnow, rfl⟩
  · obtain ⟨rfl, rfl⟩ := Prod.mk.inj (Option.some.inj h)
    exact Or.inr ⟨rfl, not_lt.mp hnow, rfl⟩

/-- Read exactly, the earliest time from which a call at `now` may draw credit. -/
def windowStart (timePerBurst : ℚ) (now : ℕ) : ℕ := ⌊now - timePerBurst⌋₊

theorem lt_windowStart_add_one (t : ℚ) (now : ℕ) : now - t < windowStart t now + 1 :=
  Nat.lt_floor_add_one _

theorem windowStart_mono {t : ℚ} {now now' : ℕ} (h : now ≤ now') :
    windowStart t now ≤ windowStart t now' := by
  apply Nat.floor_mono
  have : (now : ℚ) ≤ now' := by exact_mod_cast h
  linarith

theorem windowStart_le {t : ℚ} (ht : 0 ≤ t) (now : ℕ) : windowStart t now ≤ now := by
  have h : (now : ℚ) - t ≤ now := by linarith
  simpa [windowStart] using Nat.floor_mono h

/-- Charges that do not overlap, each lying between the window start and the clock reading
of its call, fill no more than the span of the readings and one burst. -/
theorem sum_charges_le {α : Type*} {lo width now : α → ℕ} {l : List α} {t : ℚ} {t₁ t₂ : ℕ}
    (ht : 0 ≤ t) (hle : t₁ ≤ t₂) (h : Charges.Stacked lo width l)
    (hnow : ∀ a ∈ l, t₁ ≤ now a ∧ now a ≤ t₂) (hlo : ∀ a ∈ l, windowStart t (now a) ≤ lo a)
    (hhi : ∀ a ∈ l, lo a + width a ≤ now a) :
    ((l.map width).sum : ℚ) ≤ (t₂ - t₁ : ℚ) + t + 1 := by
  have hsum : (l.map width).sum + windowStart t t₁ ≤ t₂ := by
    apply h.sum_width_le
    · intro a ha
      exact (windowStart_mono (hnow a ha).1).trans (hlo a ha)
    · intro a ha
      exact (hhi a ha).trans (hnow a ha).2
    · exact (windowStart_le ht t₁).trans hle
  have hstart := lt_windowStart_add_one t t₁
  have hq : ((l.map width).sum : ℚ) + windowStart t t₁ ≤ t₂ := by exact_mod_cast hsum
  linarith

theorem bucketIndex_of_mem {bucket : ℤ} (h0 : 0 ≤ bucket) (h : bucket < nrBucket) :
    ∃ b : Fin nrBucket, bucketIndex bucket = some b := by
  exact ⟨_, dif_pos ⟨h0, h⟩⟩

theorem eq_of_bucketIndex {bucket : ℤ} {b : Fin nrBucket} (h : bucketIndex bucket = some b) :
    bucket = b.val := by
  unfold bucketIndex at h
  split_ifs at h with hmem
  obtain rfl := Option.some.inj h
  exact (Int.toNat_of_nonneg hmem.1).symm

theorem firstCandidate_eq (oldTime minTime timeNeeded : ℕ)
    (h : max oldTime minTime + timeNeeded < 2 ^ 64) :
    firstCandidate oldTime minTime timeNeeded = max oldTime minTime + timeNeeded := by
  have hm : (if oldTime < minTime then minTime else oldTime) = max oldTime minTime := by
    split_ifs <;> omega
  rw [firstCandidate, hm, wrap_of_lt h]

theorem retryCandidate_eq {oldTime timeNeeded : ℕ} (h : oldTime + timeNeeded < 2 ^ 64) :
    retryCandidate oldTime timeNeeded = oldTime + timeNeeded := wrap_of_lt h

end TokenBucket

/-- The loops of `wait_for_token` and `wait_for_request_token` between two `consume`
calls. `left` counts the iterations of the first loop still to run. -/
structure WaitLoop where
  smallToken : ℕ
  left : ℕ
  rem : ℕ
  start : ℤ
  deriving DecidableEq, Repr

namespace WaitLoop
open TokenBucket

def smallBurstSize (fl : ℚ → ℚ) (burstSize : ℕ) : Option ℕ :=
  truncate 64 (fl (fl burstSize / nrBucket))

/-- The set-up of `wait_for_token`. `iteration` is an `int`; a quotient that does not
fit is narrowed, and a negative count runs no iteration. -/
def waitForToken (fl : ℚ → ℚ) (burstSize tokens : ℕ) (start : ℤ) : Option WaitLoop := do
  let small ← smallBurstSize fl burstSize
  if tokens ≤ small then some ⟨tokens, 1, 0, start⟩
  else if small = 0 then none
  else
    let iteration := toSigned 32 (tokens / small : ℕ)
    some ⟨small, iteration.toNat, tokens % small, start⟩

/-- The only loop of `wait_for_request_token` asks for one token. -/
def waitForRequestToken (start : ℤ) : WaitLoop := ⟨1, 1, 0, start⟩

/-- The amount of the next `consume` call; the loops have ended when there is none. -/
def amount (w : WaitLoop) : Option ℕ :=
  if 0 < w.left then some w.smallToken else if w.rem ≠ 0 then some w.rem else none

/-- A granted call ends one iteration, a refused one moves to the next bucket. -/
def next (w : WaitLoop) (granted : Bool) : WaitLoop :=
  if granted then
    if 0 < w.left then { w with left := w.left - 1 } else { w with rem := 0 }
  else { w with start := (w.start + 1).tmod nrBucket }

/-- The amounts of the calls that still have to be granted, in order. -/
def chunks (w : WaitLoop) : List ℕ :=
  List.replicate w.left w.smallToken ++ if w.rem ≠ 0 then [w.rem] else []

/-- No later call of the loops asks for more than `n` tokens, or for a bucket outside the array. -/
structure Within (n : ℕ) (w : WaitLoop) : Prop where
  small_le : 0 < w.left → w.smallToken ≤ n
  rem_le : w.rem ≤ n
  start_nonneg : 0 ≤ w.start
  start_lt : w.start < nrBucket

variable {w : WaitLoop} {n m : ℕ}

theorem Within.amount_le (h : Within n w) (ha : w.amount = some m) : m ≤ n := by
  unfold amount at ha
  split_ifs at ha with hl hr
  · obtain rfl := Option.some.inj ha
    exact h.small_le hl
  · obtain rfl := Option.some.inj ha
    exact h.rem_le

theorem Within.next (h : Within n w) (granted : Bool) : Within n (w.next granted) := by
  obtain ⟨hs, hr, h0, h1⟩ := h
  unfold WaitLoop.next
  split_ifs with hg hl
  · exact ⟨fun _ => hs hl, hr, h0, h1⟩
  · exact ⟨fun hl' => absurd hl' hl, Nat.zero_le _, h0, h1⟩
  · refine ⟨hs, hr, Int.tmod_nonneg _ (by omega), ?_⟩
    exact Int.tmod_lt_of_pos _ (by decide)

theorem amount_eq_head (w : WaitLoop) : w.amount = w.chunks.head? := by
  obtain ⟨small, left, rem, start⟩ := w
  cases left with
  | zero =>
    by_cases hr : rem = 0 <;> simp [amount, chunks, hr]
  | succ left => simp [amount, chunks, List.replicate_succ]

@[simp] theorem chunks_next_refused (w : WaitLoop) : (w.next false).chunks = w.chunks := by
  simp [WaitLoop.next, chunks]

theorem chunks_next_granted (w : WaitLoop) : (w.next true).chunks = w.chunks.tail := by
  obtain ⟨small, left, rem, start⟩ := w
  cases left with
  | zero =>
    by_cases hr : rem = 0 <;> simp [WaitLoop.next, chunks, hr]
  | succ left => simp [WaitLoop.next, chunks, List.replicate_succ]

end WaitLoop
end RdmaperfIso
