import Mathlib.Algebra.Order.Floor.Semifield
import Mathlib.Data.UInt
import RdmaperfIso.Lib.Binary64
import RdmaperfIso.Verbs.PostSend

/-! What `ibv_post_send` charges: the amounts taken from the two buckets by one call, by
the retries after a failed call, and by a list of requests grouped into calls. -/
namespace RdmaperfIso.PostSend
open FixedWidth Floating TokenBucket Run WaitLoop

/-- How `wait_for_token` cuts a request, given one bucket's share of the burst. -/
def cut (small tokens : ℕ) : List ℕ :=
  if tokens ≤ small then [tokens]
  else List.replicate (toSigned 32 (tokens / small : ℕ)).toNat small ++
    if tokens % small ≠ 0 then [tokens % small] else []

section Cut
variable {small n b : ℕ}

theorem toNat_toSigned_le (m : ℕ) : (toSigned 32 m).toNat ≤ m := by
  unfold toSigned
  rw [Int.bmod_def]
  split_ifs <;> omega

theorem toNat_toSigned_eq_iff (m : ℕ) : (toSigned 32 m).toNat = m ↔ m < 2 ^ 31 := by
  constructor
  · intro h
    have hlt := toSigned_lt (w := 32) (by norm_num) m
    omega
  · intro h
    rw [toSigned_of_lt (w := 32) h (by norm_num), Int.toNat_natCast]

theorem sum_cut_of_lt (h : small < n) :
    (cut small n).sum = (toSigned 32 (n / small : ℕ)).toNat * small + n % small := by
  rw [cut, if_neg (by omega)]
  by_cases hr : n % small = 0 <;> simp [hr]

/-- The chunks add up to the request unless their number overflows an `int`. -/
theorem sum_cut_eq_iff (h0 : 0 < small) : (cut small n).sum = n ↔ n / small < 2 ^ 31 := by
  rcases le_or_gt n small with h | h
  · have hq : n / small ≤ 1 := Nat.div_le_of_le_mul (by omega)
    have hs : (cut small n).sum = n := by simp [cut, h]
    exact ⟨fun _ => by omega, fun _ => hs⟩
  · rw [sum_cut_of_lt h, ← toNat_toSigned_eq_iff]
    have hdiv := Nat.div_add_mod n small
    constructor
    · intro hsum
      have hmul : (toSigned 32 (n / small : ℕ)).toNat * small = n / small * small := by
        rw [Nat.mul_comm (n / small)]
        omega
      exact Nat.eq_of_mul_eq_mul_right h0 hmul
    · intro heq
      rw [heq, Nat.mul_comm]
      exact hdiv

theorem sum_cut_le (small n : ℕ) : (cut small n).sum ≤ n := by
  rcases le_or_gt n small with h | h
  · simp [cut, h]
  · rw [sum_cut_of_lt h]
    have hmul := Nat.mul_le_mul_right small (toNat_toSigned_le (n / small))
    have hdiv := Nat.div_add_mod n small
    rw [Nat.mul_comm small] at hdiv
    omega

/-- When the number of chunks fits, the largest one is the smaller of request and share. -/
theorem cut_le_iff (h0 : 0 < small) (hn : n / small < 2 ^ 31) :
    (∀ m ∈ cut small n, m ≤ b) ↔ min n small ≤ b := by
  unfold cut
  rw [(toNat_toSigned_eq_iff _).mpr hn]
  split_ifs with h hr
  · simp only [List.mem_singleton, forall_eq]
    omega
  · have hmod := Nat.mod_lt n h0
    have hpos : n / small ≠ 0 := (Nat.div_pos (by omega) h0).ne'
    simp only [List.mem_append, List.mem_replicate, List.mem_singleton]
    constructor
    · intro hall
      have := hall small (Or.inl ⟨hpos, rfl⟩)
      omega
    · rintro hle m (⟨-, rfl⟩ | rfl) <;> omega
  · have hpos : n / small ≠ 0 := (Nat.div_pos (by omega) h0).ne'
    simp only [List.append_nil, List.mem_replicate]
    constructor
    · intro hall
      have := hall small ⟨hpos, rfl⟩
      omega
    · rintro hle m ⟨-, rfl⟩
      omega

end Cut

section Share
variable {burstSize : ℕ}

/-- One bucket's share of the burst, from the burst size as a `double`. -/
def burstShare (burstSize : ℕ) : ℕ := ⌊binary64.round burstSize / 16⌋₊

theorem burstShare_of_lt (h : burstSize < 2 ^ 53) : burstShare burstSize = burstSize / 16 := by
  have hdiv := Nat.floor_div_eq_div (K := ℚ) burstSize 16
  rw [burstShare, binary64_round_natCast h]
  exact_mod_cast hdiv

theorem burstShare_pos (h : 16 ≤ burstSize) : 0 < burstShare burstSize := by
  rcases lt_or_ge burstSize (2 ^ 53) with hb | hb
  · rw [burstShare_of_lt hb]
    omega
  · have hq : (2 ^ 53 : ℚ) ≤ burstSize := by exact_mod_cast hb
    have herr := abs_le.mp (binary64_abs_round_sub_le (q := burstSize) (by linarith))
    apply Nat.floor_pos.mpr
    linarith [herr.1]

theorem smallBurstSize_binary64 (h : burstSize < 2 ^ 64) :
    smallBurstSize binary64.round burstSize = some (burstShare burstSize) := by
  have hq : (burstSize : ℚ) < 2 ^ 64 := by exact_mod_cast h
  have hround : 0 ≤ binary64.round burstSize ∧ binary64.round burstSize ≤ 2 * burstSize := by
    rcases lt_or_ge burstSize (2 ^ 53) with hb | hb
    · rw [binary64_round_natCast hb]
      constructor <;> linarith [(Nat.cast_nonneg burstSize : (0 : ℚ) ≤ burstSize)]
    · have hbq : (2 ^ 53 : ℚ) ≤ burstSize := by exact_mod_cast hb
      have herr := abs_le.mp (binary64_abs_round_sub_le (q := burstSize) (by linarith))
      constructor <;> linarith [herr.1, herr.2]
  simp only [smallBurstSize, nrBucket, Nat.cast_ofNat, binary64_round_sixteenth]
  exact truncate_of_nonneg (by linarith [hround.1]) (by linarith [hround.2])

end Share

section Session
variable {burstSize : ℕ} {type : TaskType} {qp : QpBuckets} {calls : List (List SendWr)} {s : Task}

/-- Several calls of `ibv_post_send`, one after another. -/
def session (type : TaskType) (qp : QpBuckets) (calls : List (List SendWr)) : List Call :=
  calls.flatMap (ibvPostSend type qp)

/-- The state of a task that has made all provider calls of its program. -/
def Completed (burstSize : ℕ) (program : List Call) (s : Task) : Prop :=
  (∃ es, run (step binary64.round burstSize) (start program) es = some s) ∧
    s.posted = posts program

theorem session_endsInPost : EndsInPost (session type qp calls) := by
  intro c hc
  induction calls using List.reverseRecOn with
  | nil => simp [session] at hc
  | append_singleton calls wrs _ =>
    refine ⟨wrs, ?_⟩
    simp only [session, List.flatMap_append, List.flatMap_singleton] at hc
    unfold ibvPostSend at hc
    split_ifs at hc <;> simpa using hc.symm

theorem Completed.granted (h : Completed burstSize (session type qp calls) s) :
    s.granted = charges binary64.round burstSize (session type qp calls) := by
  obtain ⟨⟨es, hrun⟩, hposted⟩ := h
  exact granted_eq_charges session_endsInPost hrun hposted

variable (hb : 16 ≤ burstSize) (hB : burstSize < 2 ^ 64)

include hb hB in
theorem waitForToken_chunks (tokens : ℕ) (start : ℤ) :
    ∃ w, waitForToken binary64.round burstSize tokens start = some w ∧
      w.chunks = cut (burstShare burstSize) tokens := by
  have hpos := burstShare_pos hb
  simp only [waitForToken, smallBurstSize_binary64 hB, Option.bind_eq_bind, Option.bind_some,
    hpos.ne', if_false]
  by_cases h : tokens ≤ burstShare burstSize
  · rw [if_pos h]
    exact ⟨_, rfl, by simp [chunks, cut, h]⟩
  · rw [if_neg h]
    exact ⟨_, rfl, by simp [chunks, cut, h]⟩

include hb hB in
/-- A completed session has taken one request token a call, and the chunks of the
requests of each call. -/
theorem Completed.amounts (h : Completed burstSize (session .secondary qp calls) s) :
    s.amounts .global = calls.flatMap (fun wrs => cut (burstShare burstSize) (sendSize wrs)) ∧
      s.amounts .request = List.replicate calls.length 1 := by
  have hcharge (l : Limiter) : s.amounts l =
      ((charges binary64.round burstSize (session .secondary qp calls)).filter (·.1 = l)).map
        Prod.snd := by
    rw [Task.amounts, h.granted]
  rw [hcharge, hcharge]
  clear hcharge h
  induction calls with
  | nil => simp [session, charges]
  | cons wrs calls ih =>
    obtain ⟨w, hw, hchunks⟩ := waitForToken_chunks hb hB (sendSize wrs) qp.bucketIndex
    have hone : charges binary64.round burstSize (ibvPostSend .secondary qp wrs) =
        (.request, 1) :: (cut (burstShare burstSize) (sendSize wrs)).map (Prod.mk .global) := by
      simp [charges, ibvPostSend, Call.wait, owed, waitForRequestToken, hw, ← hchunks, chunks]
    have hsplit : charges binary64.round burstSize (session .secondary qp (wrs :: calls)) =
        charges binary64.round burstSize (ibvPostSend .secondary qp wrs) ++
          charges binary64.round burstSize (session .secondary qp calls) := by
      simp [session, charges]
    rw [hsplit, hone]
    simp [List.filter_map, Function.comp_def, ih, List.replicate_succ]

include hb hB in
theorem exists_completed (type : TaskType) (qp : QpBuckets) (calls : List (List SendWr)) :
    ∃ s, Completed burstSize (session type qp calls) s := by
  have hdef : ∀ c ∈ session type qp calls, (∃ wrs, c = .postSend wrs) ∨
      ∃ lw, c.wait binary64.round burstSize = some lw := by
    intro c hc
    obtain ⟨wrs, -, hc⟩ := List.mem_flatMap.mp hc
    cases c with
    | postSend wrs => exact Or.inl ⟨wrs, rfl⟩
    | waitForRequestToken start => exact Or.inr ⟨_, rfl⟩
    | waitForToken tokens start =>
      obtain ⟨w, hw, -⟩ := waitForToken_chunks hb hB tokens start
      exact Or.inr ⟨_, by rw [Call.wait, hw, Option.map_some]⟩
  obtain ⟨es, s, hrun, hposted⟩ := exists_run hdef
  exact ⟨s, ⟨es, hrun⟩, hposted⟩

@[simp] theorem session_singleton (type : TaskType) (qp : QpBuckets) (wrs : List SendWr) :
    session type qp [wrs] = ibvPostSend type qp wrs := by
  simp [session]

end Session

section Exact
variable {burstSize n : ℕ} {qp : QpBuckets} {s : Task}

/-- The size fits its 64-bit counter, and the number of chunks its `int`. -/
def Fits (burstSize n : ℕ) : Prop := n < 2 ^ 64 ∧ n / burstShare burstSize < 2 ^ 31

instance (burstSize n : ℕ) : Decidable (Fits burstSize n) := inferInstanceAs (Decidable (_ ∧ _))

theorem Fits.mono {m : ℕ} (h : Fits burstSize n) (hle : m ≤ n) : Fits burstSize m :=
  ⟨hle.trans_lt h.1, (Nat.div_le_div_right hle).trans_lt h.2⟩

theorem sum_cut_sendSize_iff (hb : 16 ≤ burstSize) (wrs : List SendWr) :
    (cut (burstShare burstSize) (sendSize wrs)).sum = totalBytes wrs ↔
      Fits burstSize (totalBytes wrs) := by
  have hpos := burstShare_pos hb
  rw [sendSize_eq]
  constructor
  · intro h
    have hlt : totalBytes wrs < 2 ^ 64 := by
      have hle := sum_cut_le (burstShare burstSize) (wrap 64 (totalBytes wrs))
      have hw := wrap_lt 64 (totalBytes wrs)
      omega
    rw [wrap_of_lt hlt, sum_cut_eq_iff hpos] at h
    exact ⟨hlt, h⟩
  · rintro ⟨hlt, h⟩
    rw [wrap_of_lt hlt, sum_cut_eq_iff hpos]
    exact h

theorem ibvPostSend_amounts (hb : 16 ≤ burstSize) (hB : burstSize < 2 ^ 64) {wrs : List SendWr}
    (h : Completed burstSize (ibvPostSend .secondary qp wrs) s) :
    s.amounts .global = cut (burstShare burstSize) (sendSize wrs) := by
  rw [← session_singleton] at h
  simpa using (h.amounts hb hB).1

/-- The posting of `wrs` is charged exactly: the provider is reached, whenever it is
reached the granted amounts add up to the bytes of the list in pieces of at most one
bucket's share, and nothing is consumed for a latency task. -/
structure ExactlyCharged (burstSize : ℕ) (qp : QpBuckets) (wrs : List SendWr) : Prop where
  reached : ∃ s, Completed burstSize (ibvPostSend .secondary qp wrs) s
  charged : ∀ s, Completed burstSize (ibvPostSend .secondary qp wrs) s →
    (s.amounts .global).sum = totalBytes wrs ∧ ∀ n ∈ s.amounts .global, n ≤ burstSize / 16
  latency : ∀ es s, run (step binary64.round burstSize) (start (ibvPostSend .latency qp wrs)) es =
    some s → s.granted = []

/-- A task without waits is granted nothing, because it asks for nothing. -/
theorem latency_granted (qp : QpBuckets) (wrs : List SendWr) {es : List Event}
    (hrun : run (step binary64.round burstSize) (start (ibvPostSend .latency qp wrs)) es = some s) :
    s.granted = [] := by
  have hall : Meets (step binary64.round burstSize) (fun _ _ => True)
      (start (ibvPostSend .latency qp wrs)) es := meets_of_forall fun _ _ => trivial
  have hinv := run_invariant
    (P := Inv binary64.round burstSize (ibvPostSend .latency qp wrs))
    (fun t e t' ht _ hs => step_inv e ht hs) (start_inv _) hall hrun
  have hbal := hinv.balance
  have hnone : charges binary64.round burstSize (ibvPostSend .latency qp wrs) = [] := by
    simp [charges, ibvPostSend, Call.wait, owed]
  rw [hnone] at hbal
  simp only [List.append_eq_nil_iff] at hbal
  exact hbal.1.1

/-- Charging is exact exactly when the total size fits the counters of the two loops and
the rounding of the burst size to a `double` does not enlarge a chunk. -/
theorem exactlyCharged_iff (hb : 16 ≤ burstSize) (hB : burstSize < 2 ^ 64) (qp : QpBuckets)
    (wrs : List SendWr) :
    ExactlyCharged burstSize qp wrs ↔
      Fits burstSize (totalBytes wrs) ∧
        min (totalBytes wrs) (burstShare burstSize) ≤ burstSize / 16 := by
  have hpos := burstShare_pos hb
  have hreach : ∃ s, Completed burstSize (ibvPostSend .secondary qp wrs) s := by
    simpa using exists_completed hb hB .secondary qp [wrs]
  have hbound (hfit : Fits burstSize (totalBytes wrs)) :
      (∀ m ∈ cut (burstShare burstSize) (sendSize wrs), m ≤ burstSize / 16) ↔
        min (totalBytes wrs) (burstShare burstSize) ≤ burstSize / 16 := by
    rw [sendSize_eq, wrap_of_lt hfit.1]
    exact cut_le_iff hpos hfit.2
  constructor
  · intro h
    obtain ⟨s, hs⟩ := h.reached
    obtain ⟨hsum, hle⟩ := h.charged s hs
    rw [ibvPostSend_amounts hb hB hs] at hsum hle
    have hfit := (sum_cut_sendSize_iff hb wrs).mp hsum
    exact ⟨hfit, (hbound hfit).mp hle⟩
  · rintro ⟨hfit, hmin⟩
    refine ⟨hreach, ?_, fun es s => latency_granted qp wrs⟩
    intro s hs
    rw [ibvPostSend_amounts hb hB hs]
    exact ⟨(sum_cut_sendSize_iff hb wrs).mpr hfit, (hbound hfit).mpr hmin⟩

/-- A send request over one entry of the given length. -/
def oneSge (length : UInt32) : SendWr := .ofSges [⟨0, length, 0⟩] .send {}

theorem exactlyCharged_iff_threeChunks :
    totalBytes [oneSge 1000000, oneSge 500000] = 1500000 ∧
      ExactlyCharged 8388608 ⟨0, 0⟩ [oneSge 1000000, oneSge 500000] := by
  have hshare : burstShare 8388608 = 524288 := burstShare_of_lt (by norm_num)
  have htotal : totalBytes [oneSge 1000000, oneSge 500000] = 1500000 := by decide
  constructor
  · exact htotal
  · apply (exactlyCharged_iff (by norm_num) (by norm_num) _ _).mpr
    rw [Fits, hshare, htotal]
    decide

/-- With the burst size of the monitor, a list of 2 ^ 19 requests of two gigabytes each
overflows the number of chunks, and is posted without a single byte token. With the
smallest burst one request of two gigabytes does. -/
theorem chunk_count_overflow_charges_nothing :
    (totalBytes (List.replicate (2 ^ 19) (oneSge (2 ^ 31))) = 2 ^ 50 ∧
      ∃ s, Completed 8388608
          (ibvPostSend .secondary ⟨0, 0⟩ (List.replicate (2 ^ 19) (oneSge (2 ^ 31)))) s ∧
        (s.amounts .global).sum = 0) ∧
    totalBytes [oneSge (2 ^ 31)] = 2 ^ 31 ∧
      ∃ s, Completed 16 (ibvPostSend .secondary ⟨0, 0⟩ [oneSge (2 ^ 31)]) s ∧
        (s.amounts .global).sum = 0 := by
  have hone : (oneSge (2 ^ 31)).bytes = 2 ^ 31 := by decide
  have hmany : totalBytes (List.replicate (2 ^ 19) (oneSge (2 ^ 31))) = 2 ^ 50 := by
    rw [totalBytes, List.map_replicate, hone, List.sum_replicate]
    norm_num
  have hshare : burstShare 8388608 = 524288 := burstShare_of_lt (by norm_num)
  have hshare' : burstShare 16 = 1 := burstShare_of_lt (by norm_num)
  refine ⟨⟨hmany, ?_⟩, by decide, ?_⟩
  · obtain ⟨s, hs⟩ := exists_completed (by norm_num : 16 ≤ 8388608) (by norm_num) .secondary
      ⟨0, 0⟩ [List.replicate (2 ^ 19) (oneSge (2 ^ 31))]
    rw [session_singleton] at hs
    refine ⟨s, hs, ?_⟩
    rw [ibvPostSend_amounts (by norm_num) (by norm_num) hs, sendSize_eq, hmany, hshare]
    decide
  · obtain ⟨s, hs⟩ := exists_completed (by norm_num : 16 ≤ 16) (by norm_num) .secondary
      ⟨0, 0⟩ [[oneSge (2 ^ 31)]]
    rw [session_singleton] at hs
    refine ⟨s, hs, ?_⟩
    rw [ibvPostSend_amounts (by norm_num) (by norm_num) hs, hshare']
    decide

end Exact

section Retry
variable {burstSize : ℕ} {qp : QpBuckets} {s : Task}

/-- The lists that a task passes when it retries from `*bad_wr`: each failing attempt
posts the given number of requests, and the last attempt is accepted. -/
def attempts : List ℕ → List SendWr → List (List SendWr)
  | [], wrs => [wrs]
  | k :: ks, wrs => wrs :: attempts ks (wrs.drop k)

/-- The lists that are passed a second time. -/
def resubmitted : List ℕ → List SendWr → List (List SendWr)
  | [], _ => []
  | k :: ks, wrs => attempts ks (wrs.drop k)

theorem totalBytes_drop_le (k : ℕ) (wrs : List SendWr) :
    totalBytes (wrs.drop k) ≤ totalBytes wrs := by
  have h := totalBytes_append (wrs.take k) (wrs.drop k)
  rw [List.take_append_drop] at h
  omega

theorem totalBytes_le_of_mem_attempts {ks : List ℕ} {wrs l : List SendWr}
    (h : l ∈ attempts ks wrs) : totalBytes l ≤ totalBytes wrs := by
  induction ks generalizing wrs with
  | nil =>
    rw [attempts, List.mem_singleton] at h
    rw [h]
  | cons k ks ih =>
    rw [attempts, List.mem_cons] at h
    rcases h with rfl | h
    · exact le_rfl
    · exact (ih h).trans (totalBytes_drop_le k wrs)

theorem sum_attempts (ks : List ℕ) (wrs : List SendWr) :
    ((attempts ks wrs).map totalBytes).sum =
      totalBytes wrs + ((resubmitted ks wrs).map totalBytes).sum := by
  cases ks <;> simp [attempts, resubmitted]

/-- The bytes charged to a session whose calls all fit. -/
theorem Completed.bytes (hb : 16 ≤ burstSize) (hB : burstSize < 2 ^ 64)
    {calls : List (List SendWr)} (hfit : ∀ l ∈ calls, Fits burstSize (totalBytes l))
    (h : Completed burstSize (session .secondary qp calls) s) :
    (s.amounts .global).sum = (calls.map totalBytes).sum := by
  rw [(h.amounts hb hB).1]
  clear h
  induction calls with
  | nil => rfl
  | cons l calls ih =>
    have hl := (sum_cut_sendSize_iff hb l).mpr (hfit l (by simp))
    rw [List.flatMap_cons, List.sum_append, hl, List.map_cons, List.sum_cons,
      ih fun l' hl' => hfit l' (by simp [hl'])]

/-- The tokens are taken for the whole list before the provider sees it, and none are
given back: a retry pays for every request that it passes again. -/
theorem retry_charge (hb : 16 ≤ burstSize) (hB : burstSize < 2 ^ 64) {wrs : List SendWr}
    (hfit : Fits burstSize (totalBytes wrs)) (ks : List ℕ) :
    (∀ s, Completed burstSize (ibvPostSend .secondary qp wrs) s →
      (s.amounts .global).sum = totalBytes wrs) ∧
    (∃ s, Completed burstSize (session .secondary qp (attempts ks wrs)) s) ∧
    ∀ s, Completed burstSize (session .secondary qp (attempts ks wrs)) s →
      (s.amounts .global).sum = totalBytes wrs + ((resubmitted ks wrs).map totalBytes).sum := by
  refine ⟨?_, exists_completed hb hB .secondary qp _, ?_⟩
  · intro s hs
    rw [ibvPostSend_amounts hb hB hs]
    exact (sum_cut_sendSize_iff hb wrs).mpr hfit
  · intro s hs
    rw [hs.bytes hb hB fun l hl => hfit.mono (totalBytes_le_of_mem_attempts hl), sum_attempts]

theorem fits_burst (n : ℕ) (h : n < 2 ^ 50) : Fits 8388608 n := by
  have hshare : burstShare 8388608 = 524288 := burstShare_of_lt (by norm_num)
  rw [Fits, hshare]
  omega

/-- Two requests of three and of five bytes, the second of which is passed twice. -/
theorem retry_charge_second_again :
    Fits 8388608 (totalBytes [oneSge 3, oneSge 5]) ∧
      ∃ s, Completed 8388608 (session .secondary ⟨0, 0⟩ (attempts [1] [oneSge 3, oneSge 5])) s ∧
        (s.amounts .global).sum = 13 := by
  have hfit : Fits 8388608 (totalBytes [oneSge 3, oneSge 5]) := fits_burst _ (by decide)
  obtain ⟨-, ⟨s, hs⟩, hsum⟩ := retry_charge (by norm_num) (by norm_num) hfit [1]
  exact ⟨hfit, s, hs, hsum s hs⟩

/-- Two requests of one byte, the second of which the provider rejects at first: the
failing call costs two tokens where one byte was posted, the retry costs a third. -/
theorem failed_post_charged_in_full :
    (∃ s, Completed 8388608 (ibvPostSend .secondary ⟨0, 0⟩ [oneSge 1, oneSge 1]) s ∧
      (s.amounts .global).sum ≠ totalBytes ([oneSge 1, oneSge 1].take 1)) ∧
    ∃ s, Completed 8388608 (session .secondary ⟨0, 0⟩ (attempts [1] [oneSge 1, oneSge 1])) s ∧
      (s.amounts .global).sum ≠ totalBytes [oneSge 1, oneSge 1] := by
  have hb : 16 ≤ 8388608 := by norm_num
  have hB : 8388608 < 2 ^ 64 := by norm_num
  constructor
  · obtain ⟨s, hs⟩ := exists_completed hb hB .secondary ⟨0, 0⟩ [[oneSge 1, oneSge 1]]
    have hsum := hs.bytes hb hB fun l hl => by
      rw [List.mem_singleton.mp hl]
      exact fits_burst _ (by decide)
    rw [session_singleton] at hs
    refine ⟨s, hs, ?_⟩
    rw [hsum]
    decide
  · obtain ⟨s, hs⟩ :=
      exists_completed hb hB .secondary ⟨0, 0⟩ (attempts [1] [oneSge 1, oneSge 1])
    have hsum := hs.bytes hb hB fun l hl =>
      (fits_burst (totalBytes [oneSge 1, oneSge 1]) (by decide)).mono
        (totalBytes_le_of_mem_attempts hl)
    refine ⟨s, hs, ?_⟩
    rw [hsum]
    decide

end Retry

section Grouping
variable {burstSize : ℕ} {qp : QpBuckets}

/-- However the requests are grouped into calls, and in whatever order, the calls can
complete, their bytes are charged once, and each call costs one request token. -/
theorem grouping_charge (hb : 16 ≤ burstSize) (hB : burstSize < 2 ^ 64)
    {calls calls' : List (List SendWr)} (hperm : calls.flatten.Perm calls'.flatten)
    (hfit : Fits burstSize (totalBytes calls.flatten)) :
    (∃ s, Completed burstSize (session .secondary qp calls) s) ∧
    (∃ s', Completed burstSize (session .secondary qp calls') s') ∧
    ∀ s s', Completed burstSize (session .secondary qp calls) s →
      Completed burstSize (session .secondary qp calls') s' →
      (s.amounts .global).sum = totalBytes calls.flatten ∧
        (s'.amounts .global).sum = (s.amounts .global).sum ∧
        (s.amounts .request).sum = calls.length ∧ (s'.amounts .request).sum = calls'.length := by
  have htotal : totalBytes calls'.flatten = totalBytes calls.flatten :=
    ((hperm.map SendWr.bytes).sum_eq).symm
  have hbytes {ls : List (List SendWr)} {t : Task} (hls : Fits burstSize (totalBytes ls.flatten))
      (ht : Completed burstSize (session .secondary qp ls) t) :
      (t.amounts .global).sum = totalBytes ls.flatten := by
    rw [totalBytes_flatten] at hls ⊢
    apply ht.bytes hb hB
    intro l hl
    exact hls.mono (List.single_le_sum (by simp) _ (List.mem_map_of_mem hl))
  have hreq {ls : List (List SendWr)} {t : Task}
      (ht : Completed burstSize (session .secondary qp ls) t) :
      (t.amounts .request).sum = ls.length := by
    rw [(ht.amounts hb hB).2, List.sum_replicate, smul_eq_mul, mul_one]
  refine ⟨exists_completed hb hB .secondary qp calls,
    exists_completed hb hB .secondary qp calls', ?_⟩
  intro s s' h h'
  refine ⟨hbytes hfit h, ?_, hreq h, hreq h'⟩
  rw [hbytes hfit h, hbytes (htotal ▸ hfit) h', htotal]

theorem grouping_charge_pair :
    ∃ s s', Completed 8388608 (session .secondary ⟨0, 0⟩ [[oneSge 1, oneSge 2]]) s ∧
      Completed 8388608 (session .secondary ⟨0, 0⟩ [[oneSge 2], [oneSge 1]]) s' ∧
      (s.amounts .global).sum = 3 ∧ (s'.amounts .global).sum = 3 ∧
      (s.amounts .request).sum = 1 ∧ (s'.amounts .request).sum = 2 := by
  have hb : 16 ≤ 8388608 := by norm_num
  have hB : 8388608 < 2 ^ 64 := by norm_num
  have hperm : [[oneSge 1, oneSge 2]].flatten.Perm [[oneSge 2], [oneSge 1]].flatten :=
    List.Perm.swap _ _ _
  obtain ⟨⟨s, hs⟩, ⟨s', hs'⟩, hcharge⟩ := grouping_charge hb hB hperm (fits_burst _ (by decide))
  obtain ⟨h1, h2, h3, h4⟩ := hcharge s s' hs hs'
  refine ⟨s, s', hs, hs', h1.trans (by decide), (h2.trans h1).trans (by decide), h3, h4⟩

/-- Two lists of one request each: one call takes one request token, two calls take two. -/
theorem split_call_costs_request_token :
    ∃ s s', Completed 8388608 (session .secondary ⟨0, 0⟩ [[oneSge 1] ++ [oneSge 1]]) s ∧
      Completed 8388608 (session .secondary ⟨0, 0⟩ [[oneSge 1], [oneSge 1]]) s' ∧
      (s.amounts .request).sum ≠ (s'.amounts .request).sum := by
  have hb : 16 ≤ 8388608 := by norm_num
  have hB : 8388608 < 2 ^ 64 := by norm_num
  obtain ⟨s, hs⟩ := exists_completed hb hB .secondary ⟨0, 0⟩ [[oneSge 1] ++ [oneSge 1]]
  obtain ⟨s', hs'⟩ := exists_completed hb hB .secondary ⟨0, 0⟩ [[oneSge 1], [oneSge 1]]
  refine ⟨s, s', hs, hs', ?_⟩
  rw [(hs.amounts hb hB).2, (hs'.amounts hb hB).2]
  decide

end Grouping

end RdmaperfIso.PostSend
