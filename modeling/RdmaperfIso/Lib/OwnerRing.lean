import Mathlib.Data.List.Basic
import Mathlib.Data.Nat.ModEq
import Mathlib.Logic.Function.Basic
import Mathlib.Tactic

/-! Rings whose cells say who owns them. A producer marks a cell with the parity of its lap;
the consumer takes a cell for its own when the mark has the parity of the lap that it is in
itself. Both positions are numbers that only grow, and a cell may also hold no mark. -/
namespace RdmaperfIso.OwnerRing

variable {γ α : Type*} {size cons : ℕ} {mark : γ → Option Bool} {view : γ → α}
  {cells cells' : ℕ → γ} {c : γ} {x : α} {xs ys : List α}

/-- The parity of the lap of a position. -/
def lap (size n : ℕ) : Bool := n / size % 2 = 1

theorem lap_add_size (hsize : 0 < size) (n : ℕ) : lap size (n + size) = !lap size n := by
  rw [lap, lap, Nat.add_div_right n hsize]
  rcases Nat.mod_two_eq_zero_or_one (n / size) with h | h <;> simp [Nat.succ_mod_two_eq_one_iff, h]

/-- Positions less than a lap apart have different cells. -/
theorem slot_ne {i j : ℕ} (hij : i < j) (hj : j < i + size) : i % size ≠ j % size := by
  intro h
  have hdvd := (Nat.modEq_iff_dvd' hij.le).mp h
  have hle := Nat.le_of_dvd (by omega) hdvd
  omega

/-- The cells from the consumer's position on hold the list, and no more. -/
structure Pending (size : ℕ) (mark : γ → Option Bool) (view : γ → α) (cells : ℕ → γ)
    (cons : ℕ) (xs : List α) : Prop where
  length_le : xs.length ≤ size
  held : ∀ i (hi : i < xs.length),
    mark (cells ((cons + i) % size)) = some (lap size (cons + i)) ∧
      view (cells ((cons + i) % size)) = xs[i]
  beyond : ∀ i, xs.length ≤ i → i < size →
    mark (cells ((cons + i) % size)) ≠ some (lap size (cons + i))

/-- The consumer finds the first element. -/
theorem Pending.head (h : Pending size mark view cells cons (x :: xs)) :
    mark (cells (cons % size)) = some (lap size cons) ∧ view (cells (cons % size)) = x :=
  h.held 0 (by simp)

/-- The consumer of an empty list finds nothing. -/
theorem Pending.empty (h : Pending size mark view cells cons []) (hsize : 0 < size) :
    mark (cells (cons % size)) ≠ some (lap size cons) :=
  h.beyond 0 (Nat.zero_le 0) hsize

theorem Pending.consume (h : Pending size mark view cells cons (x :: xs)) :
    Pending size mark view cells (cons + 1) xs := by
  have hlen := h.length_le
  rw [List.length_cons] at hlen
  refine ⟨by omega, fun i hi => ?_, fun i hi hlt => ?_⟩
  · have hheld := h.held (i + 1) (by simpa using hi)
    rw [← add_assoc, add_right_comm] at hheld
    simpa using hheld
  · rw [add_right_comm, add_assoc]
    rcases Nat.lt_or_ge (i + 1) size with hi' | hi'
    · exact h.beyond (i + 1) (by simpa using hi) hi'
    · -- The cell that was consumed is the last one of the next lap, with the other parity.
      obtain rfl : i + 1 = size := by omega
      rw [Nat.add_mod_right, h.head.1, lap_add_size (by omega)]
      simp

theorem Pending.produce (h : Pending size mark view cells cons xs) (hlen : xs.length < size)
    (hc : mark c = some (lap size (cons + xs.length))) :
    Pending size mark view (Function.update cells ((cons + xs.length) % size) c) cons
      (xs ++ [view c]) := by
  refine ⟨by simpa using hlen, fun i hi => ?_, fun i hi hlt => ?_⟩
  · rw [List.length_append, List.length_singleton] at hi
    rcases Nat.lt_succ_iff_lt_or_eq.mp hi with hi' | rfl
    · rw [Function.update_of_ne (slot_ne (by omega) (by omega)), List.getElem_append_left hi']
      exact h.held i hi'
    · rw [Function.update_self, List.getElem_concat_length rfl]
      exact ⟨hc, rfl⟩
  · rw [List.length_append, List.length_singleton] at hi
    rw [Function.update_of_ne (slot_ne (by omega) (by omega)).symm]
    exact h.beyond i (by omega) hlt

/-- The first cells may be given up, and the others rewritten with their marks kept. -/
theorem Pending.rewrite (h : Pending size mark view cells cons xs) (d : ℕ)
    (hlen : ys.length + d = xs.length)
    (hheld : ∀ i (hi : i < ys.length),
      mark (cells' ((cons + d + i) % size)) = some (lap size (cons + d + i)) ∧
        view (cells' ((cons + d + i) % size)) = ys[i])
    (hkeep : ∀ i, (i < d ∨ xs.length ≤ i) → i < size →
      cells' ((cons + i) % size) = cells ((cons + i) % size)) :
    Pending size mark view cells' (cons + d) ys := by
  have hle := h.length_le
  refine ⟨by omega, hheld, fun i hi hlt => ?_⟩
  rcases Nat.lt_or_ge (d + i) size with hd | hd
  · rw [add_assoc, hkeep (d + i) (.inr (by omega)) hd]
    exact h.beyond (d + i) (by omega) hd
  · -- The position is that of a cell which was given up, one lap later.
    obtain ⟨j, rfl⟩ : ∃ j, i = j + size - d := ⟨d + i - size, by omega⟩
    have hpos : cons + d + (j + size - d) = cons + j + size := by omega
    rw [hpos, Nat.add_mod_right, hkeep j (.inl (by omega)) (by omega),
      (h.held j (by omega)).1, lap_add_size (by omega)]
    simp

end RdmaperfIso.OwnerRing
