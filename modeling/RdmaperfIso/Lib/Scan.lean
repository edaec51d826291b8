import Mathlib.Data.Int.Notation
import Mathlib.Data.List.Basic
import Mathlib.Order.Lattice
import Mathlib.Order.Nat
import Mathlib.Tactic.Common

/-! The scan for the first position with a largest key. The loop goes over the positions
below a bound, skips those that have no key, and keeps the best key together with its
position, which is -1 at first. -/
namespace RdmaperfIso.Scan

variable {β : Type*} [LinearOrder β]

/-- Only a larger key takes over from the best one. -/
def visit (key : ℕ → Option β) (best : β × ℤ) (i : ℕ) : β × ℤ :=
  match key i with
  | none => best
  | some k => if best.1 < k then (k, i) else best

def scan (key : ℕ → Option β) (init : β) (n : ℕ) : β × ℤ :=
  (List.range n).foldl (visit key) (init, -1)

/-- Among the keys below `n`, position `i` is the first that has the largest one. -/
structure IsFirstMax (key : ℕ → Option β) (n i : ℕ) (k : β) : Prop where
  lt : i < n
  key_eq : key i = some k
  le : ∀ j < n, ∀ l ∈ key j, l ≤ k
  first : ∀ j < n, k ∈ key j → i ≤ j

/-- What the loop knows after `n` rounds: no key has beaten the initial one, or the best key
is at its first position. -/
def Known (key : ℕ → Option β) (init : β) (n : ℕ) (best : β × ℤ) : Prop :=
  (best = (init, -1) ∧ ∀ j < n, ∀ l ∈ key j, l ≤ init) ∨
    ∃ (i : ℕ) (k : β), best = (k, (i : ℤ)) ∧ init < k ∧ IsFirstMax key n i k

variable {key : ℕ → Option β} {init k : β} {n i : ℕ} {best : β × ℤ}

theorem visit_of_none (h : key i = none) : visit key best i = best := by
  rw [visit, h]

theorem visit_of_some (h : key i = some k) :
    visit key best i = if best.1 < k then (k, (i : ℤ)) else best := by
  rw [visit, h]

theorem Known.le_best (h : Known key init n best) :
    init ≤ best.1 ∧ ∀ j < n, ∀ l ∈ key j, l ≤ best.1 := by
  rcases h with ⟨rfl, hle⟩ | ⟨i, k, rfl, hk, hmax⟩
  · exact ⟨le_rfl, hle⟩
  · exact ⟨hk.le, hmax.le⟩

/-- A position that does not beat the best key changes nothing. -/
theorem Known.keep (h : Known key init n best) (hn : ∀ l ∈ key n, l ≤ best.1) :
    Known key init (n + 1) best := by
  rcases h with ⟨rfl, hle⟩ | ⟨i, k, rfl, hk, hmax⟩
  · exact .inl ⟨rfl, Nat.forall_lt_succ_right.mpr ⟨hle, hn⟩⟩
  · refine .inr ⟨i, k, rfl, hk, hmax.lt.trans n.lt_succ_self, hmax.key_eq, ?_, ?_⟩
    · exact Nat.forall_lt_succ_right.mpr ⟨hmax.le, hn⟩
    · exact Nat.forall_lt_succ_right.mpr ⟨hmax.first, fun _ => hmax.lt.le⟩

/-- A key above the best one is the only one of its size so far. -/
theorem Known.replace (h : Known key init n best) (hn : key n = some k) (hk : best.1 < k) :
    Known key init (n + 1) (k, n) := by
  obtain ⟨hinit, hle⟩ := h.le_best
  refine .inr ⟨n, k, rfl, hinit.trans_lt hk, n.lt_succ_self, hn, ?_, ?_⟩
  · refine Nat.forall_lt_succ_right.mpr ⟨fun j hj l hl => (hle j hj l hl).trans hk.le, ?_⟩
    intro l hl
    rw [hn] at hl
    exact (Option.some.inj hl).ge
  · refine Nat.forall_lt_succ_right.mpr ⟨fun j hj hl => ?_, fun _ => le_rfl⟩
    exact absurd (hle j hj k hl) hk.not_ge

theorem Known.visit (h : Known key init n best) : Known key init (n + 1) (visit key best n) := by
  cases hn : key n with
  | none =>
    rw [visit_of_none hn]
    exact h.keep (by simp [hn])
  | some k =>
    rw [visit_of_some hn]
    split_ifs with hk
    · exact h.replace hn hk
    · exact h.keep (by simpa [hn] using hk)

theorem scan_known (key : ℕ → Option β) (init : β) (n : ℕ) :
    Known key init n (scan key init n) := by
  induction n with
  | zero => exact .inl ⟨rfl, fun j hj => absurd hj j.not_lt_zero⟩
  | succ n ih =>
    rw [scan, List.range_succ, List.foldl_append]
    exact ih.visit

end RdmaperfIso.Scan
