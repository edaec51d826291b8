import RdmaperfIso.TokenBucket.Rate

/-! The busy-wait loops run by one consumer alone, one probe of a bucket a clock reading.
The clock and the bucket times are read as unbounded numbers; `consume_eq_consumeNat` says
where that reading is the 64-bit one. -/
namespace RdmaperfIso.Waiting
open FixedWidth TokenBucket Admission Rate Run

/-- `consume` with its clock reading, charge and bucket time as unbounded numbers. -/
def consumeNat (tb : TokenBucket) (tokens : ℕ) (bucket : ℤ) (now : ℕ) :
    Option (Bool × TokenBucket) := do
  let needed ← tb.timePerToken.bind fun t => truncateNat (tokens * t)
  let least ← tb.timePerBurst.bind fun t => truncateNat (now - t)
  let b ← bucketIndex bucket
  let newTime := max (tb.buckets b) least + needed
  if now < newTime then some (false, tb)
  else some (true, { tb with buckets := Function.update tb.buckets b newTime })

/-- A caller in one of the loops, and the buckets that it draws from. -/
structure Waiter where
  tb : TokenBucket
  loop : WaitLoop

/-- One `consume` call of the loops. Once they have ended there is none. -/
def probe (consume : TokenBucket → ℕ → ℤ → ℕ → Option (Bool × TokenBucket)) (w : Waiter)
    (now : ℕ) : Option Waiter := do
  let tokens ← w.loop.amount
  let (granted, tb) ← consume w.tb tokens w.loop.start now
  some ⟨tb, w.loop.next granted⟩

/-- The `k` clock readings from number `i` on. -/
def readings (clock : ℕ → ℕ) (i k : ℕ) : List ℕ := (List.range k).map fun j => clock (i + j)

/-- A token bucket of the given rate and burst with arbitrary bucket times. -/
def bucketAt (rate burstSize : ℕ) (times : Fin nrBucket → ℕ) : TokenBucket :=
  { initTokenBucket id rate burstSize with buckets := times }

/-- The loops end after finitely many probes, all of them inside the array. -/
def Ends (tb : TokenBucket) (loop : WaitLoop) (clock : ℕ → ℕ) : Prop :=
  ∃ k v, run (probe consumeNat) ⟨tb, loop⟩ (readings clock 0 k) = some v ∧ v.loop.amount = none ∧
    ∀ m ≤ k, ∃ u, run (probe consumeNat) ⟨tb, loop⟩ (readings clock 0 m) = some u ∧
      0 ≤ u.loop.start ∧ u.loop.start < nrBucket

section Consume
variable {tb : TokenBucket} {tokens now : ℕ} {bucket : ℤ} {b : Fin nrBucket}

/-- The bucket time that a granted call stores. -/
def finish (tb : TokenBucket) (tokens now : ℕ) (b : Fin nrBucket) : ℕ :=
  max (tb.buckets b) (clampNs tb.rate tb.burstSize now) + chargeNs tb.rate tokens

theorem consumeNat_eq (tokens : ℕ) (h : Tuned tb) (hb : bucketIndex bucket = some b)
    (hnow : burstNs tb.rate tb.burstSize ≤ now) :
    consumeNat tb tokens bucket now = some (if now < finish tb tokens now b then (false, tb)
      else (true, { tb with
        buckets := Function.update tb.buckets b (finish tb tokens now b) })) := by
  have hpos : 0 ≤ tokens * tokenNs tb.rate := by unfold tokenNs; positivity
  have hneeded : (tb.timePerToken.bind fun t => truncateNat (tokens * t)) =
      some (chargeNs tb.rate tokens) := by
    rw [h.token, Option.bind_some, truncateNat_of_nonneg hpos, chargeNs]
  have hleast : (tb.timePerBurst.bind fun t => truncateNat (now - t)) =
      some (clampNs tb.rate tb.burstSize now) := by
    rw [h.burst, Option.bind_some, truncateNat_of_nonneg (sub_nonneg.mpr hnow)]
    rfl
  simp only [consumeNat, hneeded, hleast, hb, Option.bind_eq_bind, Option.bind_some, finish]
  exact (apply_ite some _ _ _).symm

/-- A 64-bit call whose charge has a value: only the sum with the bucket time may wrap. -/
theorem consume_tuned (h : Tuned tb) (hb : bucketIndex bucket = some b)
    (hcost : tokens * tokenNs tb.rate < 2 ^ 64) (hnow : burstNs tb.rate tb.burstSize ≤ now)
    (hlt : now < 2 ^ 64) {newTime : ℕ}
    (hnew : newTime = firstCandidate (tb.buckets b) (clampNs tb.rate tb.burstSize now)
      (chargeNs tb.rate tokens)) :
    tb.consume id tokens bucket now = some (if now < newTime then (false, tb)
      else (true, { tb with buckets := Function.update tb.buckets b newTime })) := by
  subst hnew
  have hq : (now : ℚ) < 2 ^ 64 := by exact_mod_cast hlt
  have hpos : 0 ≤ tokens * tokenNs tb.rate := by unfold tokenNs; positivity
  have hleast : minTime id tb now = some (clampNs tb.rate tb.burstSize now) := by
    simp only [minTime, h.burst, Option.bind_some, id]
    exact truncate_of_nonneg (by linarith) (by linarith [burstNs_nonneg tb.rate tb.burstSize])
  have hneeded : timeNeeded id tb tokens = some (chargeNs tb.rate tokens) := by
    simp only [timeNeeded, h.token, Option.bind_some, id]
    exact truncate_of_nonneg hpos hcost
  simp only [consume, hneeded, hleast, hb, Option.bind_eq_bind, Option.bind_some]
  exact (apply_ite some _ _ _).symm

/-- While nothing leaves 64 bits, the unbounded reading is what the code computes. -/
theorem consume_eq_consumeNat (h : Tuned tb) (hb : bucketIndex bucket = some b)
    (hnow : burstNs tb.rate tb.burstSize ≤ now) (hlt : now < 2 ^ 64)
    (hfit : finish tb tokens now b < 2 ^ 64) :
    tb.consume id tokens bucket now = consumeNat tb tokens bucket now := by
  have hcost : tokens * tokenNs tb.rate < 2 ^ 64 := by
    have hcharge : chargeNs tb.rate tokens + 1 ≤ 2 ^ 64 := by unfold finish at hfit; omega
    have hcast : ((chargeNs tb.rate tokens + 1 : ℕ) : ℚ) ≤ 2 ^ 64 := by exact_mod_cast hcharge
    push_cast at hcast
    exact (Nat.lt_floor_add_one _).trans_le hcast
  have hnew := firstCandidate_eq _ _ _ hfit
  rw [consumeNat_eq tokens h hb hnow, consume_tuned h hb hcost hnow hlt hnew.symm, finish]

/-- The charge of a chunk of its share fits between the window start and the clock reading. -/
theorem clampNs_add_chargeNs_le {rate burstSize : ℕ} (ht : tokens ≤ burstSize / 16)
    (hnow : burstNs rate burstSize ≤ now) :
    clampNs rate burstSize now + chargeNs rate tokens ≤ now := by
  have hcost := chunk_le_burstNs rate ht
  have hpos : 0 ≤ tokens * tokenNs rate := by unfold tokenNs; positivity
  have hwindow : (clampNs rate burstSize now : ℚ) ≤ now - burstNs rate burstSize :=
    Nat.floor_le (sub_nonneg.mpr hnow)
  have hcharge : (chargeNs rate tokens : ℚ) ≤ tokens * tokenNs rate := Nat.floor_le hpos
  have hq : ((clampNs rate burstSize now + chargeNs rate tokens : ℕ) : ℚ) ≤ now := by
    push_cast
    linarith
  exact_mod_cast hq

/-- A bucket whose time leaves room for the charge grants a chunk of its share. -/
theorem finish_le (ht : tokens ≤ tb.burstSize / 16) (hnow : burstNs tb.rate tb.burstSize ≤ now)
    (hfree : tb.buckets b + chargeNs tb.rate tokens ≤ now) : finish tb tokens now b ≤ now := by
  have hclamp := clampNs_add_chargeNs_le ht hnow
  unfold finish
  omega

end Consume

section Rotation
variable {s : ℤ} {b : Fin nrBucket} {d : ℕ}

/-- How many refusals move the probes from bucket `s` to bucket `b`. -/
def ahead (s : ℤ) (b : Fin nrBucket) : ℕ := ((b.val - s) % 16).toNat

theorem ahead_lt (s : ℤ) (b : Fin nrBucket) : ahead s b < 16 := by
  unfold ahead
  omega

theorem eq_of_ahead_eq_zero (h0 : 0 ≤ s) (h1 : s < nrBucket) (h : ahead s b = 0) :
    s = b.val := by
  have hb : b.val < 16 := b.isLt
  unfold ahead at h
  unfold nrBucket at h1
  omega

theorem ahead_next (h0 : 0 ≤ s) (h : ahead s b = d + 1) :
    ahead ((s + 1).tmod nrBucket) b = d := by
  rw [Int.tmod_eq_emod_of_nonneg (by omega)]
  unfold ahead at h ⊢
  unfold nrBucket
  omega

theorem ahead_of_next (h0 : 0 ≤ s) (h : ahead ((s + 1).tmod nrBucket) b = d) (hd : d < 15) :
    ahead s b = d + 1 := by
  rw [Int.tmod_eq_emod_of_nonneg (by omega)] at h
  unfold ahead at h ⊢
  unfold nrBucket at h
  omega

theorem ahead_self (b : Fin nrBucket) : ahead b.val b = 0 := by
  rw [ahead, sub_self]
  rfl

end Rotation

section Probes
variable {rate burstSize n now : ℕ} {w v : Waiter}

/-- A waiter at a bucket of the array, which keeps its rate and burst size. -/
structure Ready (rate burstSize : ℕ) (w : Waiter) : Prop where
  tuned : Tuned w.tb
  rate_eq : w.tb.rate = rate
  size_eq : w.tb.burstSize = burstSize
  start_nonneg : 0 ≤ w.loop.start
  start_lt : w.loop.start < nrBucket

theorem bucketAt_ready (hr : 1 ≤ rate) (times : Fin nrBucket → ℕ) {loop : WaitLoop}
    (h0 : 0 ≤ loop.start) (h1 : loop.start < nrBucket) :
    Ready rate burstSize ⟨bucketAt rate burstSize times, loop⟩ :=
  ⟨⟨hr, tokenTime_id hr, init_timePerBurst hr⟩, rfl, rfl, h0, h1⟩

theorem Ready.refused (h : Ready rate burstSize w) :
    Ready rate burstSize ⟨w.tb, w.loop.next false⟩ where
  tuned := h.tuned
  rate_eq := h.rate_eq
  size_eq := h.size_eq
  start_nonneg := Int.tmod_nonneg _ (by linarith [h.start_nonneg])
  start_lt := Int.tmod_lt_of_pos _ (by decide)

theorem start_granted (w : WaitLoop) : (w.next true).start = w.start := by
  simp only [WaitLoop.next, if_true]
  split_ifs <;> rfl

theorem amount_refused (w : WaitLoop) : (w.next false).amount = w.amount := by
  rw [WaitLoop.amount_eq_head, WaitLoop.amount_eq_head, WaitLoop.chunks_next_refused]

theorem Ready.granted (h : Ready rate burstSize w) (times : Fin nrBucket → ℕ) :
    Ready rate burstSize ⟨{ w.tb with buckets := times }, w.loop.next true⟩ where
  tuned := ⟨h.tuned.rate_pos, h.tuned.token, h.tuned.burst⟩
  rate_eq := h.rate_eq
  size_eq := h.size_eq
  start_nonneg := (start_granted w.loop).symm ▸ h.start_nonneg
  start_lt := (start_granted w.loop).symm ▸ h.start_lt

/-- Everything that one probe can do. -/
theorem probe_cases (h : Ready rate burstSize w) (ha : w.loop.amount = some n)
    (hnow : burstNs rate burstSize ≤ now) :
    ∃ b : Fin nrBucket, w.loop.start = b.val ∧
      (now < finish w.tb n now b ∧
          consumeNat w.tb n w.loop.start now = some (false, w.tb) ∧
          probe consumeNat w now = some ⟨w.tb, w.loop.next false⟩ ∨
        ∃ tb', consumeNat w.tb n w.loop.start now = some (true, tb') ∧
          probe consumeNat w now = some ⟨tb', w.loop.next true⟩ ∧
          Ready rate burstSize ⟨tb', w.loop.next true⟩) := by
  obtain ⟨b, hb⟩ := bucketIndex_of_mem h.start_nonneg h.start_lt
  have hburst : burstNs w.tb.rate w.tb.burstSize ≤ now := by rwa [h.rate_eq, h.size_eq]
  have hc := consumeNat_eq n h.tuned hb hburst
  refine ⟨b, eq_of_bucketIndex hb, ?_⟩
  by_cases hlt : now < finish w.tb n now b
  · left
    rw [if_pos hlt] at hc
    exact ⟨hlt, hc, by simp [probe, ha, hc]⟩
  · right
    rw [if_neg hlt] at hc
    exact ⟨_, hc, by simp [probe, ha, hc], h.granted _⟩

end Probes

section Clock
variable {rate burstSize n m i : ℕ} {w : Waiter} {clock : ℕ → ℕ}

theorem readings_cons (clock : ℕ → ℕ) (i k : ℕ) :
    readings clock i (k + 1) = clock i :: readings clock (i + 1) k := by
  simp only [readings, List.range_succ_eq_map, List.map_cons, List.map_map, Nat.add_zero,
    List.cons.injEq, true_and]
  refine List.map_congr_left fun j _ => ?_
  simp only [Function.comp_apply, Nat.succ_eq_add_one]
  congr 1
  omega

theorem readings_add (clock : ℕ → ℕ) (i k m : ℕ) :
    readings clock i (k + m) = readings clock i k ++ readings clock (i + k) m := by
  simp [readings, List.range_add, Function.comp_def, Nat.add_assoc]

theorem run_readings_cons {k : ℕ} {u v : Waiter} (hp : probe consumeNat w (clock i) = some u)
    (hr : run (probe consumeNat) u (readings clock (i + 1) k) = some v) :
    run (probe consumeNat) w (readings clock i (k + 1)) = some v := by
  rw [readings_cons, run_cons_eq_some]
  exact ⟨u, hp, hr⟩

theorem run_readings_add {k j : ℕ} {u v : Waiter}
    (h : run (probe consumeNat) w (readings clock i k) = some u)
    (hr : run (probe consumeNat) u (readings clock (i + k) j) = some v) :
    run (probe consumeNat) w (readings clock i (k + j)) = some v := by
  rw [readings_add, run_append_eq_some]
  exact ⟨u, h, hr⟩

theorem burstNs_le_clock (hclock : StrictMono clock) (hnow : burstNs rate burstSize ≤ clock 0)
    (j : ℕ) : burstNs rate burstSize ≤ clock j := by
  have hle : (clock 0 : ℚ) ≤ clock j := by exact_mod_cast hclock.monotone (Nat.zero_le j)
  exact hnow.trans hle

/-- While a bucket has room for the chunk, there are no more refusals before the grant than
buckets ahead of it. -/
theorem grants_within (hclock : StrictMono clock) (hnow : burstNs rate burstSize ≤ clock 0)
    (h : Ready rate burstSize w) (ha : w.loop.amount = some n) (hn : n ≤ burstSize / 16)
    {b : Fin nrBucket} {d : ℕ} (hd : ahead w.loop.start b = d)
    (hfree : w.tb.buckets b + chargeNs rate n ≤ clock i) :
    ∃ k ≤ d, ∃ v tb', run (probe consumeNat) w (readings clock i k) = some v ∧
      v.loop.chunks = w.loop.chunks ∧
      consumeNat v.tb n v.loop.start (clock (i + k)) = some (true, tb') ∧
      probe consumeNat v (clock (i + k)) = some ⟨tb', v.loop.next true⟩ ∧
      Ready rate burstSize ⟨tb', v.loop.next true⟩ := by
  have hburst := burstNs_le_clock hclock hnow i
  induction d generalizing i w with
  | zero =>
    obtain ⟨c, hc, ⟨hlt, -, -⟩ | ⟨tb', hgrant, hprobe, hready⟩⟩ := probe_cases h ha hburst
    · -- The bucket with room is the one that is probed.
      have hstart := eq_of_ahead_eq_zero h.start_nonneg h.start_lt hd
      obtain rfl : c = b := Fin.ext (by omega)
      have hle : finish w.tb n (clock i) c ≤ clock i := by
        refine finish_le (h.size_eq ▸ hn) ?_ ?_
        · rwa [h.rate_eq, h.size_eq]
        · rwa [h.rate_eq]
      omega
    · exact ⟨0, le_rfl, w, tb', rfl, rfl, hgrant, hprobe, hready⟩
  | succ d ih =>
    obtain ⟨c, hc, ⟨-, -, hprobe⟩ | ⟨tb', hgrant, hprobe, hready⟩⟩ := probe_cases h ha hburst
    · have hnext : ahead (w.loop.next false).start b = d := ahead_next h.start_nonneg hd
      obtain ⟨k, hk, v, tb', hrun, hchunks, hrest⟩ := ih h.refused
        ((amount_refused w.loop).trans ha) hnext
        (hfree.trans (hclock.monotone (Nat.le_succ i))) (burstNs_le_clock hclock hnow _)
      refine ⟨k + 1, by omega, v, tb', run_readings_cons hprobe hrun, ?_, ?_⟩
      · rw [hchunks, WaitLoop.chunks_next_refused]
      · rwa [show i + (k + 1) = i + 1 + k by omega]
    · exact ⟨0, Nat.zero_le _, w, tb', rfl, rfl, hgrant, hprobe, hready⟩

/-- Every chunk is granted: the clock passes the time at which bucket zero has room. -/
theorem chunk_ends (hclock : StrictMono clock) (hnow : burstNs rate burstSize ≤ clock 0)
    (h : Ready rate burstSize w) (ha : w.loop.amount = some n) (hn : n ≤ burstSize / 16) (i : ℕ) :
    ∃ k v, run (probe consumeNat) w (readings clock i k) = some v ∧ Ready rate burstSize v ∧
      v.loop.chunks = w.loop.chunks.tail := by
  have hzero : 0 < nrBucket := by decide
  -- What is missing at bucket zero shrinks with every refusal.
  induction hgap : w.tb.buckets ⟨0, hzero⟩ + chargeNs rate n - clock i using Nat.strong_induction_on
    generalizing i w with
  | h gap ih =>
    by_cases hfree : w.tb.buckets ⟨0, hzero⟩ + chargeNs rate n ≤ clock i
    · obtain ⟨k, -, v, tb', hrun, hchunks, -, hprobe, hready⟩ :=
        grants_within hclock hnow h ha hn rfl hfree
      refine ⟨k + 1, ⟨tb', v.loop.next true⟩,
        run_readings_add hrun (run_readings_cons hprobe rfl), hready, ?_⟩
      rw [WaitLoop.chunks_next_granted, hchunks]
    · obtain ⟨c, -, ⟨-, -, hprobe⟩ | ⟨tb', -, hprobe, hready⟩⟩ :=
        probe_cases h ha (burstNs_le_clock hclock hnow i)
      · have hstep : clock i < clock (i + 1) := hclock (Nat.lt_succ_self i)
        obtain ⟨k, v, hrun, hready, hchunks⟩ :=
          ih (w.tb.buckets ⟨0, hzero⟩ + chargeNs rate n - clock (i + 1)) (by omega) h.refused
            ((amount_refused w.loop).trans ha) (i + 1) rfl
        refine ⟨k + 1, v, run_readings_cons hprobe hrun, hready, ?_⟩
        rw [hchunks, WaitLoop.chunks_next_refused]
      · exact ⟨1, ⟨tb', w.loop.next true⟩, run_readings_cons hprobe rfl, hready,
          WaitLoop.chunks_next_granted _⟩

theorem loops_end (hclock : StrictMono clock) (hnow : burstNs rate burstSize ≤ clock 0)
    (h : Ready rate burstSize w) (hle : ∀ n ∈ w.loop.chunks, n ≤ burstSize / 16) (i : ℕ) :
    ∃ k v, run (probe consumeNat) w (readings clock i k) = some v ∧ v.loop.amount = none := by
  induction hc : w.loop.chunks generalizing i w with
  | nil => exact ⟨0, w, rfl, by rw [WaitLoop.amount_eq_head, hc, List.head?_nil]⟩
  | cons n chunks ih =>
    rw [hc] at hle
    have ha : w.loop.amount = some n := by rw [WaitLoop.amount_eq_head, hc, List.head?_cons]
    obtain ⟨k, v, hrun, hready, hchunks⟩ :=
      chunk_ends hclock hnow h ha (hle n List.mem_cons_self) i
    rw [hc, List.tail_cons] at hchunks
    have hrest : ∀ a ∈ v.loop.chunks, a ≤ burstSize / 16 := by
      rw [hchunks]
      exact fun a hm => hle a (List.mem_cons_of_mem n hm)
    obtain ⟨m, u, hrun', hend⟩ := ih hready hrest (i + k) hchunks
    exact ⟨k + m, u, run_readings_add hrun hrun', hend⟩

theorem probe_ready (h : Ready rate burstSize w) {now : ℕ} (hnow : burstNs rate burstSize ≤ now)
    {v : Waiter} (hp : probe consumeNat w now = some v) : Ready rate burstSize v := by
  cases ha : w.loop.amount with
  | none => simp [probe, ha] at hp
  | some n =>
    obtain ⟨b, -, ⟨-, -, hprobe⟩ | ⟨tb', -, hprobe, hready⟩⟩ := probe_cases h ha hnow
    · obtain rfl := Option.some.inj (hprobe.symm.trans hp)
      exact h.refused
    · obtain rfl := Option.some.inj (hprobe.symm.trans hp)
      exact hready

theorem run_ready (hclock : StrictMono clock) (hnow : burstNs rate burstSize ≤ clock 0)
    (h : Ready rate burstSize w) {k : ℕ} {v : Waiter}
    (hrun : run (probe consumeNat) w (readings clock i k) = some v) : Ready rate burstSize v := by
  have hlate : ∀ now ∈ readings clock i k, burstNs rate burstSize ≤ (now : ℕ) := by
    intro now hmem
    obtain ⟨j, -, rfl⟩ := List.mem_map.mp hmem
    exact burstNs_le_clock hclock hnow _
  have hmeets : Meets (probe consumeNat) (fun _ now => burstNs rate burstSize ≤ (now : ℕ)) w
      (readings clock i k) := meets_of_forall hlate
  exact run_invariant (fun _ _ _ hs hc hp => probe_ready hs hc hp) h hmeets hrun

theorem ends_of_ready {tb : TokenBucket} {loop : WaitLoop} (hclock : StrictMono clock)
    (hnow : burstNs rate burstSize ≤ clock 0) (h : Ready rate burstSize ⟨tb, loop⟩)
    (hle : ∀ n ∈ loop.chunks, n ≤ burstSize / 16) : Ends tb loop clock := by
  obtain ⟨k, v, hrun, hend⟩ := loops_end hclock hnow h hle 0
  refine ⟨k, v, hrun, hend, fun m hm => ?_⟩
  obtain ⟨j, rfl⟩ := Nat.exists_eq_add_of_le hm
  rw [readings_add, run_append_eq_some] at hrun
  obtain ⟨u, hu, -⟩ := hrun
  have hready := run_ready hclock hnow h hu
  exact ⟨u, hu, hready.start_nonneg, hready.start_lt⟩

theorem mem_chunks_le {loop : WaitLoop} (h : loop.Within m) (hn : n ∈ loop.chunks) : n ≤ m := by
  simp only [WaitLoop.chunks, List.mem_append, List.mem_replicate] at hn
  obtain ⟨hleft, rfl⟩ | hrem := hn
  · exact h.small_le (Nat.pos_of_ne_zero hleft)
  · split_ifs at hrem
    · obtain rfl := List.mem_singleton.mp hrem
      exact h.rem_le
    · cases hrem

/-- With a running clock and no other consumer the loops of both calls end, and a bucket that
has room for a chunk is found within one turn of the buckets. -/
theorem waiting_ends {rate burstSize : ℕ} {times : Fin nrBucket → ℕ} {start : ℤ}
    {clock : ℕ → ℕ} (hr : 1 ≤ rate) (hs : 16 ≤ burstSize) (hb : burstSize < 2 ^ 64)
    (h0 : 0 ≤ start) (h1 : start < nrBucket) (hclock : StrictMono clock)
    (hnow : burstNs rate burstSize ≤ clock 0) :
    (∀ tokens, ∃ loop, WaitLoop.waitForToken id burstSize tokens start = some loop ∧
        Ends (bucketAt rate burstSize times) loop clock) ∧
      Ends (bucketAt rate burstSize times) (.waitForRequestToken start) clock ∧
      ∀ (loop : WaitLoop) (n i : ℕ), loop.start = start → loop.amount = some n →
        n ≤ burstSize / 16 → (∃ b, times b + chargeNs rate n ≤ clock i) →
        ∃ k < 16, ∃ v tb', run (probe consumeNat) ⟨bucketAt rate burstSize times, loop⟩
            (readings clock i k) = some v ∧ v.loop.amount = some n ∧
          consumeNat v.tb n v.loop.start (clock (i + k)) = some (true, tb') := by
  refine ⟨fun tokens => ?_, ?_, ?_⟩
  · obtain ⟨loop, hloop, hin⟩ := waitForToken_within tokens hs hb h0 h1
    have hend := ends_of_ready hclock hnow (bucketAt_ready hr times hin.start_nonneg hin.start_lt)
      fun n => mem_chunks_le hin
    exact ⟨loop, hloop, hend⟩
  · refine ends_of_ready hclock hnow (bucketAt_ready hr times h0 h1) fun n hn => ?_
    obtain rfl : n = 1 := by simpa [WaitLoop.waitForRequestToken, WaitLoop.chunks] using hn
    omega
  · rintro loop n i rfl ha hn ⟨b, hfree⟩
    obtain ⟨k, hk, v, tb', hrun, hchunks, hgrant, -⟩ :=
      grants_within (i := i) hclock hnow (bucketAt_ready hr times h0 h1) ha hn rfl hfree
    refine ⟨k, hk.trans_lt (ahead_lt _ b), v, tb', hrun, ?_, hgrant⟩
    rw [WaitLoop.amount_eq_head, hchunks, ← WaitLoop.amount_eq_head, ha]

theorem waiting_ends_busyBuckets :
    (∃ loop, WaitLoop.waitForToken id 32 5 3 = some loop ∧
        Ends (bucketAt 16000000000 32 fun b => 100 + b.val) loop (2 + ·)) ∧
      Ends (bucketAt 16000000000 32 fun b => 100 + b.val) (.waitForRequestToken 3) (2 + ·) := by
  have hclock : StrictMono fun k : ℕ => 2 + k := fun _ _ h => Nat.add_lt_add_left h 2
  have hnow : burstNs 16000000000 32 ≤ ((2 + 0 : ℕ) : ℚ) := by norm_num [burstNs, tokenNs]
  obtain ⟨hbytes, hrequest, -⟩ := @waiting_ends 16000000000 32 (fun b => 100 + b.val) 3 _
    (by decide) (by decide) (by decide) (by decide) (by decide) hclock hnow
  exact ⟨hbytes 5, hrequest⟩

end Clock

section Frozen
variable {rate burstSize n now u : ℕ} {w : Waiter}

/-- The state of a consumer alone at one clock reading: no bucket is ahead of the clock, and
the next `u` buckets still hold a whole burst. -/
structure Frozen (rate burstSize now u : ℕ) (w : Waiter) : Prop where
  fewer : u < 16
  ready : Ready rate burstSize w
  chunks_le : ∀ n ∈ w.loop.chunks, n ≤ burstSize / 16
  times_le : ∀ b, w.tb.buckets b ≤ now
  fresh : ∀ b, 1 ≤ ahead w.loop.start b → ahead w.loop.start b ≤ u →
    w.tb.buckets b ≤ clampNs rate burstSize now

/-- Everything that one probe at the reading can do: a bucket that holds a whole burst grants,
and no grant passes the reading, even where its sum wraps. -/
theorem Frozen.probe_cases (h : Frozen rate burstSize now u w) (ha : w.loop.amount = some n)
    (hnow : burstNs rate burstSize ≤ now) (hlt : now < 2 ^ 64) :
    (∃ v, probe (consume id) w now = some v ∧ v.loop.chunks = w.loop.chunks.tail ∧
        v.loop.start = w.loop.start ∧ Frozen rate burstSize now u v) ∨
      (probe (consume id) w now = some ⟨w.tb, w.loop.next false⟩ ∧
        ∀ b : Fin nrBucket, w.loop.start = b.val →
          clampNs rate burstSize now < w.tb.buckets b) := by
  obtain ⟨hu, hready, hchunks, htimes, hfresh⟩ := h
  obtain ⟨b, hb⟩ := bucketIndex_of_mem hready.start_nonneg hready.start_lt
  have hstart := eq_of_bucketIndex hb
  have hn : n ≤ burstSize / 16 := by
    rw [WaitLoop.amount_eq_head] at ha
    exact hchunks n (List.mem_of_mem_head? ha)
  have hclamp := clampNs_add_chargeNs_le hn hnow
  have hq : (now : ℚ) < 2 ^ 64 := by exact_mod_cast hlt
  obtain ⟨newTime, hnew⟩ : ∃ t, t = firstCandidate (w.tb.buckets b)
      (clampNs w.tb.rate w.tb.burstSize now) (chargeNs w.tb.rate n) := ⟨_, rfl⟩
  have hcost : n * tokenNs w.tb.rate < 2 ^ 64 := by
    rw [hready.rate_eq]
    linarith [chunk_le_burstNs rate hn]
  have hc := consume_tuned hready.tuned hb hcost (by rwa [hready.rate_eq, hready.size_eq]) hlt hnew
  rw [hready.rate_eq, hready.size_eq] at hnew
  by_cases hle : now < newTime
  · right
    rw [if_pos hle] at hc
    refine ⟨by simp [probe, ha, hc], fun c hcs => ?_⟩
    obtain rfl : c = b := Fin.ext (by omega)
    by_contra hold
    rw [firstCandidate_eq _ _ _ (by omega)] at hnew
    omega
  · left
    rw [if_neg hle] at hc
    refine ⟨⟨{ w.tb with buckets := Function.update w.tb.buckets b newTime }, w.loop.next true⟩,
      by simp [probe, ha, hc], WaitLoop.chunks_next_granted _, start_granted _,
      hu, hready.granted _, ?_, ?_, ?_⟩
    · rw [WaitLoop.chunks_next_granted]
      exact fun m hm => hchunks m (List.mem_of_mem_tail hm)
    · exact (Function.forall_update_iff w.tb.buckets fun _ t => t ≤ now).mpr
        ⟨not_lt.mp hle, fun c _ => htimes c⟩
    · intro c hc1 hcu
      rw [start_granted] at hc1 hcu
      have hne : c ≠ b := by
        rintro rfl
        rw [hstart, ahead_self] at hc1
        omega
      exact (Function.update_of_ne hne _ w.tb.buckets).trans_le (hfresh c hc1 hcu)

/-- After a refusal the next bucket holds a whole burst and one fresh bucket fewer is ahead. -/
theorem Frozen.refused (h : Frozen rate burstSize now (u + 1) w) :
    Frozen rate burstSize now u ⟨w.tb, w.loop.next false⟩ ∧
      ∃ b : Fin nrBucket, (w.loop.next false).start = b.val ∧
        w.tb.buckets b ≤ clampNs rate burstSize now := by
  have hready := h.ready.refused
  have hu := h.fewer
  have hfresh (b : Fin nrBucket) (hb : ahead (w.loop.next false).start b ≤ u) :
      w.tb.buckets b ≤ clampNs rate burstSize now := by
    have hd := ahead_of_next h.ready.start_nonneg (b := b) rfl (hb.trans_lt (by omega))
    exact h.fresh b (by omega) (hd.trans_le (Nat.succ_le_succ hb))
  obtain ⟨b, hb⟩ := bucketIndex_of_mem hready.start_nonneg hready.start_lt
  have hstart := eq_of_bucketIndex hb
  refine ⟨⟨by omega, hready, ?_, h.times_le, fun c _ hc => hfresh c hc⟩, b, hstart, hfresh b ?_⟩
  · rw [WaitLoop.chunks_next_refused]
    exact h.chunks_le
  · rw [hstart, ahead_self]
    exact Nat.zero_le u

theorem Frozen.ends (h : Frozen rate burstSize now u w) (hlen : w.loop.chunks.length ≤ u)
    (hnow : burstNs rate burstSize ≤ now) (hlt : now < 2 ^ 64) :
    ∃ k v, run (probe (consume id)) w (List.replicate k now) = some v ∧ v.loop.amount = none ∧
      ∀ b, v.tb.buckets b ≤ now := by
  -- Every chunk uses up at most one fresh bucket, and there are as many as chunks.
  induction hc : w.loop.chunks generalizing w u with
  | nil =>
    exact ⟨0, w, rfl, by rw [WaitLoop.amount_eq_head, hc, List.head?_nil], h.times_le⟩
  | cons n chunks ih =>
    have ha : w.loop.amount = some n := by rw [WaitLoop.amount_eq_head, hc, List.head?_cons]
    rw [hc, List.length_cons] at hlen
    obtain ⟨v, hv, hchunks, -, hfrozen⟩ | ⟨hrefused, -⟩ := h.probe_cases ha hnow hlt
    · rw [hc, List.tail_cons] at hchunks
      obtain ⟨k, u', hrun, hend⟩ := ih hfrozen (by rw [hchunks]; omega) hchunks
      exact ⟨k + 1, u', run_cons_eq_some.mpr ⟨v, hv, hrun⟩, hend⟩
    · obtain ⟨u, rfl⟩ := Nat.exists_eq_add_of_le' (Nat.le_of_add_left_le hlen)
      obtain ⟨hfrozen, b, hstart, hfresh⟩ := h.refused
      obtain ⟨v, hv, hchunks, -, hfrozen⟩ | ⟨-, hold⟩ :=
        hfrozen.probe_cases ((amount_refused w.loop).trans ha) hnow hlt
      · rw [WaitLoop.chunks_next_refused, hc, List.tail_cons] at hchunks
        obtain ⟨k, u', hrun, hend⟩ := ih hfrozen (by rw [hchunks]; omega) hchunks
        exact ⟨k + 2, u', run_cons_eq_some.mpr
          ⟨_, hrefused, run_cons_eq_some.mpr ⟨v, hv, hrun⟩⟩, hend⟩
      · exact absurd (hold b hstart) (not_lt.mpr hfresh)

theorem chunks_length_le {tokens : ℕ} {start : ℤ} {loop : WaitLoop} (hb : burstSize < 2 ^ 64)
    (hs : 16 ≤ burstSize) (ht : tokens ≤ 16 * (burstSize / 16))
    (hloop : WaitLoop.waitForToken id burstSize tokens start = some loop) :
    loop.chunks.length ≤ 16 := by
  have hsmall : burstSize / 16 ≠ 0 := by omega
  simp only [WaitLoop.waitForToken, smallBurstSize_id hb, Option.bind_eq_bind, Option.bind_some,
    hsmall, if_false] at hloop
  split_ifs at hloop with hone
  · obtain rfl := Option.some.inj hloop
    simp [WaitLoop.chunks]
  · obtain rfl := Option.some.inj hloop
    have hdiv : tokens / (burstSize / 16) ≤ 16 := Nat.div_le_of_le_mul (by linarith)
    have hsigned : toSigned 32 (tokens / (burstSize / 16) : ℕ) = (tokens / (burstSize / 16) : ℕ) :=
      toSigned_of_lt (by omega) (by decide)
    simp only [WaitLoop.chunks, hsigned, Int.toNat_natCast, List.length_append,
      List.length_replicate]
    split_ifs with hrem
    · -- A remainder is left only when fewer than sixteen whole shares fit.
      have hlt : tokens / (burstSize / 16) ≠ 16 := by
        intro heq
        have hmod := Nat.div_add_mod tokens (burstSize / 16)
        rw [heq] at hmod
        omega
      simp
      omega
    · simpa using hdiv

/-- A request of up to the whole burst is admitted at one clock reading from buckets that all
hold their share of it, and leaves no bucket ahead of the clock. -/
theorem burst_admitted {rate burstSize now tokens : ℕ} {times : Fin nrBucket → ℕ} {start : ℤ}
    (hr : 1 ≤ rate) (hs : 16 ≤ burstSize) (hb : burstSize < 2 ^ 64) (h0 : 0 ≤ start)
    (h1 : start < nrBucket) (hlt : now < 2 ^ 64) (ht : tokens ≤ 16 * (burstSize / 16))
    (hfull : ∀ b, (times b : ℚ) ≤ now - burstNs rate burstSize) :
    ∃ loop k v, WaitLoop.waitForToken id burstSize tokens start = some loop ∧
      run (probe (consume id)) ⟨bucketAt rate burstSize times, loop⟩ (List.replicate k now) =
        some v ∧ v.loop.amount = none ∧ ∀ b, v.tb.buckets b ≤ now := by
  obtain ⟨loop, hloop, hin⟩ := waitForToken_within tokens hs hb h0 h1
  obtain ⟨b, hbucket⟩ := bucketIndex_of_mem hin.start_nonneg hin.start_lt
  have hnow : burstNs rate burstSize ≤ now := by
    have htime : (0 : ℚ) ≤ times b := Nat.cast_nonneg _
    linarith [hfull b]
  have hclamp (c : Fin nrBucket) : times c ≤ clampNs rate burstSize now := Nat.le_floor (hfull c)
  have hfrozen : Frozen rate burstSize now 15 ⟨bucketAt rate burstSize times, loop⟩ :=
    { fewer := by decide
      ready := bucketAt_ready hr times hin.start_nonneg hin.start_lt
      chunks_le := fun n => mem_chunks_le hin
      times_le := fun c => (hclamp c).trans (clampNs_le rate burstSize now)
      fresh := fun c _ _ => hclamp c }
  have hlen := chunks_length_le hb hs ht hloop
  cases ha : loop.amount with
  | none => exact ⟨loop, 0, _, hloop, rfl, ha, hfrozen.times_le⟩
  | some n =>
    obtain ⟨v, hv, hchunks, -, hfrozen⟩ | ⟨-, hold⟩ := hfrozen.probe_cases ha hnow hlt
    · have htail : v.loop.chunks.length ≤ 15 := by
        rw [hchunks, List.length_tail]
        exact Nat.sub_le_sub_right hlen 1
      obtain ⟨k, u, hrun, hend⟩ := hfrozen.ends htail hnow hlt
      exact ⟨loop, k + 1, u, hloop, run_cons_eq_some.mpr ⟨v, hv, hrun⟩, hend⟩
    · exact absurd (hold b (eq_of_bucketIndex hbucket)) (not_lt.mpr (hclamp b))

theorem burst_admitted_wholeBurst :
    ∃ loop k v, WaitLoop.waitForToken id 40 32 5 = some loop ∧
      run (probe (consume id)) ⟨bucketAt 16000000000 40 fun _ => 0, loop⟩ (List.replicate k 3) =
        some v ∧ v.loop.amount = none ∧ ∀ b, v.tb.buckets b ≤ 3 :=
  burst_admitted (by decide) (by decide) (by decide) (by decide) (by decide) (by decide)
    (by decide) (fun _ => by norm_num [burstNs, tokenNs])

end Frozen
end RdmaperfIso.Waiting
