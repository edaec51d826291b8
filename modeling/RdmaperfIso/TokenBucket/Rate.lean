import RdmaperfIso.TokenBucket.Admission

/-! Changes of the rate. A bucket stores the time up to which it has been spent, so that a
new price of a token revalues the credit that is left. -/
namespace RdmaperfIso.Rate
open FixedWidth TokenBucket Admission Run

/-- The times of a token and of a burst belong to a positive rate. -/
structure Tuned (tb : TokenBucket) : Prop where
  rate_pos : 1 ≤ tb.rate
  token : tb.timePerToken = some (tokenNs tb.rate)
  burst : tb.timePerBurst = some (burstNs tb.rate tb.burstSize)

inductive Change where
  | setRate (rate : ℕ)
  | upRate (rate : ℕ)
  | downRate (rate : ℕ)
  deriving DecidableEq, Repr

def Change.apply (fl : ℚ → ℚ) (tb : TokenBucket) : Change → TokenBucket
  | .setRate rate => tb.setRate fl rate
  | .upRate rate => tb.upRate fl rate
  | .downRate rate => tb.downRate fl rate

/-- Tokens that bucket `b` could grant at the clock reading `now`. -/
def credit (tb : TokenBucket) (b : Fin nrBucket) (now : ℕ) : Option ℚ :=
  tb.timePerToken.bind fun t => tb.timePerBurst.map fun burst : ℚ =>
    min burst (now - tb.buckets b) / t

/-- The tokens that a bucket accumulates in a nanosecond. -/
def tokensPerNs (rate : ℕ) : ℚ := rate / 16000000000

section Tuning
variable {tb : TokenBucket} {b : Fin nrBucket} {rate burstSize now : ℕ}

theorem setRate_tuned (tb : TokenBucket) (hr : 1 ≤ rate) : Tuned (tb.setRate id rate) where
  rate_pos := hr
  token := tokenTime_id hr
  burst := by simp [setRate, tokenTime_id hr, burstTime, burstNs, nrBucket]

theorem init_tuned (hr : 1 ≤ rate) : Tuned (initTokenBucket id rate burstSize) :=
  ⟨hr, tokenTime_id hr, init_timePerBurst hr⟩

theorem Change.apply_eq (fl : ℚ → ℚ) (tb : TokenBucket) (c : Change) :
    c.apply fl tb = tb.setRate fl (c.apply fl tb).rate := by
  cases c <;> rfl

theorem Change.apply_tuned (c : Change) (hr : 1 ≤ (c.apply id tb).rate) :
    Tuned (c.apply id tb) := by
  rw [c.apply_eq]
  exact setRate_tuned tb hr

theorem tokensPerNs_mul_tokenNs (hr : 1 ≤ rate) : tokensPerNs rate * tokenNs rate = 1 := by
  have hq : (0 : ℚ) < rate := by exact_mod_cast hr
  unfold tokensPerNs tokenNs
  field_simp

theorem tokensPerNs_pos (hr : 1 ≤ rate) : 0 < tokensPerNs rate := by
  have hq : (0 : ℚ) < rate := by exact_mod_cast hr
  unfold tokensPerNs
  positivity

theorem div_tokenNs (rate : ℕ) (x : ℚ) : x / tokenNs rate = x * tokensPerNs rate := by
  unfold tokensPerNs tokenNs
  field_simp

theorem burstNs_mul_tokensPerNs (hr : 1 ≤ rate) :
    burstNs rate burstSize * tokensPerNs rate = burstSize / 16 := by
  have h := tokensPerNs_mul_tokenNs hr
  unfold burstNs
  linear_combination (burstSize / 16 : ℚ) * h

/-- Up to a share of the burst, the credit is the unspent time at the current price. -/
theorem Tuned.credit_eq (h : Tuned tb) :
    credit tb b now =
      some (min (tb.burstSize / 16 : ℚ) ((now - tb.buckets b) * tokensPerNs tb.rate)) := by
  simp only [credit, h.token, h.burst, Option.bind_some, Option.map_some, Option.some.injEq]
  rw [← min_div_div_right (tokenNs_pos h.rate_pos).le, div_tokenNs, div_tokenNs,
    burstNs_mul_tokensPerNs h.rate_pos]

end Tuning

/-- A change that leaves bucket `b` no more credit: the rate does not rise, or the bucket
has none, or it holds a whole burst. -/
def Frugal (tb : TokenBucket) (b : Fin nrBucket) (now : ℕ) (c : Change) : Prop :=
  (c.apply id tb).rate ≤ tb.rate ∨ now = tb.buckets b ∨
    burstNs tb.rate tb.burstSize ≤ now - tb.buckets b

/-- The credit after the change is at most the credit before it. -/
def MintsNothing (tb : TokenBucket) (b : Fin nrBucket) (now : ℕ) (c : Change) : Prop :=
  ∃ before after, credit tb b now = some before ∧ credit (c.apply id tb) b now = some after ∧
    after ≤ before

section Minting
variable {tb : TokenBucket} {b : Fin nrBucket} {now : ℕ} {c : Change}

theorem min_mul_le_iff {m x r r' : ℚ} (hx : 0 ≤ x) :
    min m (x * r') ≤ min m (x * r) ↔ r' ≤ r ∨ x = 0 ∨ m ≤ x * r := by
  constructor
  · intro h
    by_contra hcon
    push Not at hcon
    obtain ⟨hr', hx0, hm⟩ := hcon
    have hxpos : 0 < x := lt_of_le_of_ne hx (Ne.symm hx0)
    have hgrow : x * r < x * r' := mul_lt_mul_of_pos_left hr' hxpos
    rw [min_eq_right hm.le] at h
    exact absurd h (not_le.mpr (lt_min hm hgrow))
  · rintro (h | rfl | h)
    · exact min_le_min_left m (mul_le_mul_of_nonneg_left h hx)
    · simp
    · rw [min_eq_left h]
      exact min_le_left _ _

theorem mintsNothing_iff (h : Tuned tb) (hnow : tb.buckets b ≤ now)
    (hr : 1 ≤ (c.apply id tb).rate) : MintsNothing tb b now c ↔ Frugal tb b now c := by
  have hafter := c.apply_tuned hr
  have hbuckets : (c.apply id tb).buckets = tb.buckets := by rw [c.apply_eq]; rfl
  have hsize : (c.apply id tb).burstSize = tb.burstSize := by rw [c.apply_eq]; rfl
  have hx : (0 : ℚ) ≤ now - tb.buckets b := by
    have hq : (tb.buckets b : ℚ) ≤ now := by exact_mod_cast hnow
    linarith
  have hiff : MintsNothing tb b now c ↔
      min (tb.burstSize / 16 : ℚ) ((now - tb.buckets b) * tokensPerNs (c.apply id tb).rate) ≤
        min (tb.burstSize / 16 : ℚ) ((now - tb.buckets b) * tokensPerNs tb.rate) := by
    simp only [MintsNothing, h.credit_eq, hafter.credit_eq, hbuckets, hsize, Option.some.injEq,
      exists_and_left, exists_eq_left']
  have hrate : tokensPerNs (c.apply id tb).rate ≤ tokensPerNs tb.rate ↔
      (c.apply id tb).rate ≤ tb.rate := by
    unfold tokensPerNs
    rw [div_le_div_iff_of_pos_right (by norm_num), Nat.cast_le]
  have hempty : (now - tb.buckets b : ℚ) = 0 ↔ now = tb.buckets b := by
    rw [sub_eq_zero, Nat.cast_inj]
  have hfull : (tb.burstSize / 16 : ℚ) ≤ (now - tb.buckets b) * tokensPerNs tb.rate ↔
      burstNs tb.rate tb.burstSize ≤ now - tb.buckets b := by
    rw [← burstNs_mul_tokensPerNs h.rate_pos,
      mul_le_mul_iff_of_pos_right (tokensPerNs_pos h.rate_pos)]
  rw [hiff, min_mul_le_iff hx, hrate, hempty, hfull]
  rfl

end Minting

/-- A successful call: the rate that it was charged at, and whether its bucket held a whole
burst, so that it was charged from the start of the burst window. -/
structure Grant where
  bucket : Fin nrBucket
  tokens : ℕ
  rate : ℕ
  full : Bool
  deriving DecidableEq

/-- Tokens that truncation may give away: a time unit of the charge, and one of the start of
the burst window. -/
def Grant.slack (g : Grant) : ℚ := (if g.full then 2 else 1) * tokensPerNs g.rate

/-- A token bucket at one clock reading, and the calls granted so far. -/
structure Session where
  tb : TokenBucket
  grants : List Grant

inductive Event where
  | consume (tokens : ℕ) (bucket : ℤ)
  | change (c : Change)
  deriving DecidableEq

def step (now : ℕ) (s : Session) : Event → Option Session
  | .consume tokens bucket => do
    let (granted, tb) ← s.tb.consume id tokens bucket now
    let b ← bucketIndex bucket
    let least ← s.tb.minTime id now
    some ⟨tb, if granted then s.grants ++ [⟨b, tokens, s.tb.rate, s.tb.buckets b ≤ least⟩]
      else s.grants⟩
  | .change c => some ⟨c.apply id s.tb, s.grants⟩

/-- No charge of bucket `b` overflows, and no change mints credit in it. -/
def Sound (b : Fin nrBucket) (now : ℕ) (s : Session) : Event → Prop
  | .consume tokens bucket => bucketIndex bucket = some b →
    ∀ needed ∈ s.tb.timeNeeded id tokens, now + needed < 2 ^ 64
  | .change c => 1 ≤ (c.apply id s.tb).rate ∧ Frugal s.tb b now c

instance (b : Fin nrBucket) (now : ℕ) (s : Session) : (e : Event) → Decidable (Sound b now s e)
  | .consume _ _ => inferInstanceAs (Decidable (_ → _))
  | .change _ => inferInstanceAs (Decidable (_ ∧ (_ ∨ _ ∨ _)))

/-- Tokens granted by bucket `b`. -/
def granted (b : Fin nrBucket) (grants : List Grant) : ℕ :=
  ((grants.filter (·.bucket = b)).map Grant.tokens).sum

def slack (b : Fin nrBucket) (grants : List Grant) : ℚ :=
  ((grants.filter (·.bucket = b)).map Grant.slack).sum

/-- What the bucket granted and what it could still grant is a share of the burst. -/
structure Inv (b : Fin nrBucket) (now burstSize : ℕ) (s : Session) : Prop where
  tuned : Tuned s.tb
  size : s.tb.burstSize = burstSize
  le_now : s.tb.buckets b ≤ now
  covered : ∀ c, credit s.tb b now = some c →
    granted b s.grants + c ≤ burstSize / 16 + slack b s.grants

section Runs
variable {b : Fin nrBucket} {now burstSize : ℕ} {s s' : Session}

theorem granted_concat (g : Grant) (gs : List Grant) :
    granted b (gs ++ [g]) = granted b gs + if g.bucket = b then g.tokens else 0 := by
  by_cases h : g.bucket = b <;> simp [granted, h]

theorem slack_concat (g : Grant) (gs : List Grant) :
    slack b (gs ++ [g]) = slack b gs + if g.bucket = b then g.slack else 0 := by
  by_cases h : g.bucket = b <;> simp [slack, h]

/-- The credit spent by a grant pays for its tokens, up to truncation. -/
theorem credit_grant {tb : TokenBucket} (h : Tuned tb) {tokens needed least newTime : ℕ}
    (hneeded : tb.timeNeeded id tokens = some needed) (hleast : tb.minTime id now = some least)
    (hnew : newTime = max (tb.buckets b) least + needed) {c c' : ℚ}
    (hc : credit tb b now = some c)
    (hc' : credit { tb with buckets := Function.update tb.buckets b newTime } b now = some c') :
    tokens + c' ≤ c + Grant.slack ⟨b, tokens, tb.rate, tb.buckets b ≤ least⟩ := by
  have htuned : Tuned { tb with buckets := Function.update tb.buckets b newTime } :=
    ⟨h.rate_pos, h.token, h.burst⟩
  rw [h.credit_eq] at hc
  rw [htuned.credit_eq] at hc'
  obtain rfl := Option.some.inj hc
  obtain rfl := Option.some.inj hc'
  simp only [timeNeeded, h.token, Option.bind_some, id] at hneeded
  simp only [minTime, h.burst, Option.bind_some, id] at hleast
  have hu := tokensPerNs_pos h.rate_pos
  have hone := tokensPerNs_mul_tokenNs h.rate_pos
  have hburst : burstNs tb.rate tb.burstSize * tokensPerNs tb.rate = tb.burstSize / 16 :=
    burstNs_mul_tokensPerNs h.rate_pos
  have htokens : (tokens : ℚ) ≤ (needed + 1) * tokensPerNs tb.rate := by
    have hlt := lt_truncate_add_one hneeded
    calc (tokens : ℚ) = tokens * tokenNs tb.rate * tokensPerNs tb.rate := by
          linear_combination -(tokens : ℚ) * hone
      _ ≤ (needed + 1) * tokensPerNs tb.rate := mul_le_mul_of_nonneg_right hlt.le hu.le
  have hwindow := lt_truncate_add_one hleast
  have hold : (now - newTime : ℚ) * tokensPerNs tb.rate ≤
      (now - tb.buckets b - needed) * tokensPerNs tb.rate := by
    have hle : tb.buckets b + needed ≤ newTime := by omega
    have hq : (tb.buckets b + needed : ℚ) ≤ newTime := by exact_mod_cast hle
    exact mul_le_mul_of_nonneg_right (by linarith) hu.le
  have hstart : (now - newTime : ℚ) * tokensPerNs tb.rate ≤
      (burstNs tb.rate tb.burstSize + 1 - needed) * tokensPerNs tb.rate := by
    have hle : least + needed ≤ newTime := by omega
    have hq : (least + needed : ℚ) ≤ newTime := by exact_mod_cast hle
    exact mul_le_mul_of_nonneg_right (by linarith) hu.le
  have hafter : min (tb.burstSize / 16 : ℚ) ((now - newTime) * tokensPerNs tb.rate) ≤
      (now - newTime) * tokensPerNs tb.rate := min_le_right _ _
  simp only [Function.update_self, Grant.slack]
  by_cases hfull : tb.buckets b ≤ least
  · simp only [hfull, decide_true, if_true]
    rw [← sub_le_iff_le_add, le_min_iff]
    constructor <;> linarith
  · -- The bucket time lies inside the window, so that nothing was lost at its start.
    have hlt : (least + 1 : ℚ) ≤ tb.buckets b := by exact_mod_cast not_le.mp hfull
    have hinside : (now - tb.buckets b : ℚ) * tokensPerNs tb.rate ≤
        burstNs tb.rate tb.burstSize * tokensPerNs tb.rate :=
      mul_le_mul_of_nonneg_right (by linarith) hu.le
    simp only [hfull, decide_false, Bool.false_eq_true, if_false]
    rw [← sub_le_iff_le_add, le_min_iff]
    constructor <;> linarith

theorem start_inv {tb : TokenBucket} (h : Tuned tb) (hnow : tb.buckets b ≤ now) :
    Inv b now tb.burstSize ⟨tb, []⟩ where
  tuned := h
  size := rfl
  le_now := hnow
  covered c hc := by
    rw [h.credit_eq] at hc
    obtain rfl := Option.some.inj hc
    simp only [granted, slack, List.filter_nil, List.map_nil, List.sum_nil, Nat.cast_zero,
      zero_add, add_zero]
    exact min_le_left _ _

theorem Inv.grant (h : Inv b now burstSize s) {tokens needed least newTime : ℕ}
    (hneeded : s.tb.timeNeeded id tokens = some needed)
    (hleast : s.tb.minTime id now = some least)
    (hnew : newTime = max (s.tb.buckets b) least + needed) (hle : newTime ≤ now) :
    Inv b now burstSize
      ⟨{ s.tb with buckets := Function.update s.tb.buckets b newTime },
        s.grants ++ [⟨b, tokens, s.tb.rate, s.tb.buckets b ≤ least⟩]⟩ where
  tuned := ⟨h.tuned.rate_pos, h.tuned.token, h.tuned.burst⟩
  size := h.size
  le_now := by simpa only [Function.update_self] using hle
  covered c' hc' := by
    have hpaid := credit_grant h.tuned hneeded hleast hnew h.tuned.credit_eq hc'
    have hold := h.covered _ h.tuned.credit_eq
    rw [granted_concat, slack_concat]
    simp only [if_true]
    push_cast
    linarith

/-- Grants of the other buckets do not touch bucket `b`. -/
theorem Inv.other (h : Inv b now burstSize s) {g : Grant} (hg : g.bucket ≠ b) (newTime : ℕ) :
    Inv b now burstSize
      ⟨{ s.tb with buckets := Function.update s.tb.buckets g.bucket newTime },
        s.grants ++ [g]⟩ where
  tuned := ⟨h.tuned.rate_pos, h.tuned.token, h.tuned.burst⟩
  size := h.size
  le_now := by simpa only [Function.update_of_ne (Ne.symm hg)] using h.le_now
  covered c hc := by
    have hsame : credit s.tb b now = some c := by
      simpa only [credit, Function.update_of_ne (Ne.symm hg)] using hc
    rw [granted_concat, slack_concat]
    simpa only [hg, if_false, add_zero] using h.covered c hsame

theorem step_inv (e : Event) (h : Inv b now burstSize s) (he : Sound b now s e)
    (hs : step now s e = some s') : Inv b now burstSize s' := by
  cases e with
  | consume tokens bucket =>
    simp only [step, Option.bind_eq_bind, Option.bind_eq_some_iff] at hs
    obtain ⟨⟨ok, tb'⟩, hc, i, hi, least, hleast, hs⟩ := hs
    obtain ⟨needed, least', i', hneeded, hleast', hi', hcase⟩ := consume_cases hc
    obtain rfl : least = least' := Option.some.inj (hleast.symm.trans hleast')
    obtain rfl : i = i' := Option.some.inj (hi.symm.trans hi')
    obtain rfl := Option.some.inj hs
    rcases hcase with ⟨rfl, -, rfl⟩ | ⟨rfl, hle, rfl⟩
    · simpa using h
    · by_cases hib : i = b
      · subst hib
        have hwindow : least ≤ now := by
          simp only [minTime, h.tuned.burst, Option.bind_some, id] at hleast
          obtain ⟨-, -, rfl⟩ := truncate_eq_some hleast
          exact windowStart_le (burstNs_nonneg _ _) now
        have hfit := he hi needed hneeded
        have htime := h.le_now
        exact h.grant hneeded hleast (firstCandidate_eq _ _ _ (by omega)) hle
      · exact h.other (g := ⟨i, tokens, s.tb.rate, s.tb.buckets i ≤ least⟩) hib _
  | change c =>
    obtain rfl := Option.some.inj hs
    obtain ⟨hr, hfrugal⟩ := he
    obtain ⟨before, after, hbefore, hafter, hle⟩ :=
      (mintsNothing_iff h.tuned h.le_now hr).mpr hfrugal
    have hbuckets : (c.apply id s.tb).buckets = s.tb.buckets := by rw [c.apply_eq]; rfl
    have hsize : (c.apply id s.tb).burstSize = s.tb.burstSize := by rw [c.apply_eq]; rfl
    refine ⟨c.apply_tuned hr, hsize.trans h.size, ?_, ?_⟩
    · rw [hbuckets]
      exact h.le_now
    · intro x hx
      obtain rfl : after = x := Option.some.inj (hafter.symm.trans hx)
      exact (add_le_add_right hle _).trans (h.covered before hbefore)

theorem run_inv {es : List Event} (h : Inv b now burstSize s)
    (hm : Meets (step now) (Sound b now) s es) (hr : run (step now) s es = some s') :
    Inv b now burstSize s' := by
  apply run_invariant _ h hm hr
  intro t e t' ht he hs
  exact step_inv e ht he hs

end Runs

/-- A change of the rate leaves a bucket no more credit exactly when it is frugal; and in
every sequence of calls and frugal changes at one clock reading, a bucket grants no more
than its share of the burst and what truncation gives away. -/
theorem frugal_changes_keep_credit {tb : TokenBucket} (h : Tuned tb) {b : Fin nrBucket} {now : ℕ}
    (hnow : tb.buckets b ≤ now) :
    (∀ c : Change, 1 ≤ (c.apply id tb).rate → (MintsNothing tb b now c ↔ Frugal tb b now c)) ∧
    ∀ es s, Meets (step now) (Sound b now) ⟨tb, []⟩ es → run (step now) ⟨tb, []⟩ es = some s →
      (granted b s.grants : ℚ) ≤ tb.burstSize / 16 + slack b s.grants := by
  constructor
  · intro c hr
    exact mintsNothing_iff h hnow hr
  · intro es s hm hr
    have hinv := run_inv (start_inv h hnow) hm hr
    have hcovered := hinv.covered _ hinv.tuned.credit_eq
    have hle : (0 : ℚ) ≤ now - s.tb.buckets b := by
      have hq : (s.tb.buckets b : ℚ) ≤ now := by exact_mod_cast hinv.le_now
      linarith
    have hcredit : 0 ≤ min (s.tb.burstSize / 16 : ℚ)
        ((now - s.tb.buckets b) * tokensPerNs s.tb.rate) :=
      le_min (by positivity) (mul_nonneg hle (tokensPerNs_pos hinv.tuned.rate_pos).le)
    linarith

/-- Half of a share of the burst, then a quarter of it at half the rate. -/
def loweredEvents : List Event := [.consume 50 0, .change (.setRate 8000000000), .consume 25 0]

theorem frugal_changes_keep_credit_lowered :
    ∃ s, run (step 1000) ⟨initTokenBucket id 16000000000 1600, []⟩ loweredEvents = some s ∧
      granted ⟨0, by decide⟩ s.grants = 75 ∧
      (granted ⟨0, by decide⟩ s.grants : ℚ) ≤ (1600 : ℕ) / 16 + slack ⟨0, by decide⟩ s.grants := by
  have hany : (run (step 1000) ⟨initTokenBucket id 16000000000 1600, []⟩ loweredEvents).any
      fun s => granted ⟨0, by decide⟩ s.grants = 75 := by
    decide +kernel
  have hm : Meets (step 1000) (Sound ⟨0, by decide⟩ 1000)
      ⟨initTokenBucket id 16000000000 1600, []⟩ loweredEvents := by
    decide +kernel
  obtain ⟨s, hrun, hs⟩ := (Option.any_eq_true _ _).mp hany
  have h : Tuned (initTokenBucket id 16000000000 1600) := init_tuned (by norm_num)
  have hbound := (frugal_changes_keep_credit h (Nat.zero_le 1000)).2 loweredEvents s hm hrun
  exact ⟨s, hrun, of_decide_eq_true hs, hbound⟩

/-- Twice the rate doubles the credit of a half spent bucket, and a bucket that is spent to
one half before the change grants half a share too much. Without any change, three calls that
each lose almost a time unit exceed the share by more than three time units, since the
start of the burst window is truncated as well; and a charge that wraps is granted. -/
theorem raised_rate_mints_tokens :
    (credit { initTokenBucket id 16000000000 1600 with buckets := fun _ => 950 } ⟨0, by decide⟩ 1000
        = some 50 ∧
      credit ({ initTokenBucket id 16000000000 1600 with buckets := fun _ => 950 }.setRate id
        32000000000) ⟨0, by decide⟩ 1000 = some 100) ∧
    ((run (step 1000) ⟨initTokenBucket id 16000000000 1600, []⟩
        [.consume 50 0, .change (.setRate 32000000000), .consume 100 0]).any fun s =>
      (1600 : ℚ) / 16 + ((s.grants.map fun g => tokensPerNs g.rate).sum) <
        granted ⟨0, by decide⟩ s.grants) ∧
    ((run (step 100) ⟨initTokenBucket id 1600000000000 4000, []⟩
        [.consume 199 0, .consume 199 0, .consume 199 0]).any fun s =>
      (4000 : ℚ) / 16 + ((s.grants.map fun g => tokensPerNs g.rate).sum) <
        granted ⟨0, by decide⟩ s.grants) ∧
    ((run (step (2 ^ 63))
        ⟨{ initTokenBucket id 16000000000 16 with buckets := fun _ => 2 ^ 63 }, []⟩
        [.consume (2 ^ 63) 0]).any fun s =>
      (16 : ℚ) / 16 + ((s.grants.map fun g => tokensPerNs g.rate).sum) <
        granted ⟨0, by decide⟩ s.grants) := by
  refine ⟨⟨?_, ?_⟩, ?_, ?_, ?_⟩ <;> decide +kernel

end RdmaperfIso.Rate
