import Mathlib.Data.List.Chain
import Mathlib.Data.List.Nodup
import Mathlib.Logic.Function.Basic
import Mathlib.Tactic.Common

/-! Lists of slots that are linked through an array of successors. The successor of the last
slot is free, so that a list grows at its end by one write, and a slot is taken from its front
by following a link. -/
namespace RdmaperfIso.Links

variable {ι : Type*} {next next' : ι → ι} {a b t : ι} {l l₁ l₂ : List ι}

/-- Each slot of the list is followed by its successor. -/
def Linked (next : ι → ι) (l : List ι) : Prop := l.IsChain fun a b => next a = b

/-- The slots that are reached in a number of steps. -/
def walk (next : ι → ι) : ι → ℕ → List ι
  | _, 0 => []
  | a, n + 1 => a :: walk next (next a) n

theorem linked_nil : Linked next [] := List.isChain_nil

theorem linked_cons_cons : Linked next (a :: b :: l) ↔ next a = b ∧ Linked next (b :: l) :=
  List.isChain_cons_cons

theorem Linked.tail (h : Linked next (a :: l)) : Linked next l := List.IsChain.tail h

theorem Linked.right (h : Linked next (l₁ ++ l₂)) : Linked next l₂ :=
  List.IsChain.right_of_append h

/-- Following the link of the first slot leads to the second one. -/
theorem Linked.head?_tail (h : Linked next (a :: l)) (hl : l ≠ []) : l.head? = some (next a) := by
  obtain ⟨b, l, rfl⟩ := List.exists_cons_of_ne_nil hl
  rw [List.head?_cons, (linked_cons_cons.mp h).1]

theorem Linked.congr (h : Linked next l) (heq : ∀ a ∈ l, next' a = next a) : Linked next' l :=
  List.IsChain.imp_of_mem_imp (fun a _ ha _ hab => (heq a ha).trans hab) h

/-- Walking along the links from the first slot meets the slots in order. -/
theorem Linked.walk_eq (h : Linked next (l₁ ++ l₂)) (ha : (l₁ ++ l₂).head? = some a) :
    walk next a l₁.length = l₁ := by
  induction l₁ generalizing a with
  | nil => rfl
  | cons x l₁ ih =>
    obtain rfl : x = a := by simpa using ha
    rw [List.length_cons, walk]
    congr 1
    by_cases hnil : l₁ = []
    · subst hnil
      rfl
    · exact ih h.tail (h.head?_tail (by simp [hnil]))

/-- Slots that are linked to their neighbours. -/
theorem linked_range' {next : ℕ → ℕ} {a n : ℕ} (h : ∀ i, a ≤ i → i + 1 < a + n → next i = i + 1) :
    Linked next (List.range' a n) := by
  induction n generalizing a with
  | zero => exact linked_nil
  | succ n ih =>
    cases n with
    | zero => exact List.isChain_singleton a
    | succ n =>
      rw [List.range'_succ, List.range'_succ]
      refine linked_cons_cons.mpr ⟨h a le_rfl (by omega), ?_⟩
      rw [← List.range'_succ]
      exact ih fun i hi hlt => h i (by omega) (by omega)

variable [DecidableEq ι]

/-- A write to a slot outside the list keeps its links. -/
theorem Linked.update (h : Linked next l) (ht : t ∉ l) :
    Linked (Function.update next t b) l := by
  refine h.congr fun a ha => Function.update_of_ne ?_ ..
  rintro rfl
  exact ht ha

/-- A write to the last slot appends a slot. -/
theorem Linked.append (h : Linked next l) (hl : l.Nodup) (ht : l.getLast? = some t) (b : ι) :
    Linked (Function.update next t b) (l ++ [b]) := by
  obtain ⟨l, rfl⟩ := List.getLast?_eq_some_iff.mp ht
  have hnot : t ∉ l := fun hmem => (List.nodup_append.mp hl).2.2 t hmem t (by simp) rfl
  have hparts := List.isChain_append.mp h
  rw [List.append_assoc]
  refine List.IsChain.append (Linked.update hparts.1 hnot) ?_ ?_
  · exact List.isChain_pair.mpr (Function.update_self ..)
  · intro x hx y hy
    -- The link into the last slot is read from an earlier one, which is not written.
    have hxt : x ≠ t := by
      rintro rfl
      exact hnot (List.mem_of_getLast? hx)
    rw [Function.update_of_ne hxt]
    exact hparts.2.2 x hx y (by simpa using hy)

end RdmaperfIso.Links
