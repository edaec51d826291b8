import Mathlib.Algebra.BigOperators.Fin
import Mathlib.Order.Interval.Set.Basic
import Mathlib.Tactic
import Mathlib.Order.CompletePartialOrder

/-! Half-open intervals laid end to end. Each element of a list occupies
`[lo, lo + width)`; a stacked list never reuses a point of the line. -/
namespace RdmaperfIso.Charges
open scoped BigOperators

variable {α : Type*} {lo width : α → ℕ} {l : List α} {L H : ℕ}

/-- Every element starts no earlier than all previous ones end. -/
def Stacked (lo width : α → ℕ) (l : List α) : Prop :=
  l.Pairwise fun a b => lo a + width a ≤ lo b

theorem Stacked.sublist {l' : List α} (h : Stacked lo width l) (hs : l'.Sublist l) :
    Stacked lo width l' :=
  List.Pairwise.sublist hs h

theorem stacked_concat {a : α} :
    Stacked lo width (l ++ [a]) ↔ Stacked lo width l ∧ ∀ b ∈ l, lo b + width b ≤ lo a := by
  simp [Stacked, List.pairwise_append]

/-- Where the elements of each class are stacked, an element above those of its own class can
be added. -/
theorem stacked_filter_concat {κ : Type*} [DecidableEq κ] {key : α → κ} {a : α}
    (h : ∀ k, Stacked lo width (l.filter (key · = k)))
    (ha : ∀ b ∈ l, key b = key a → lo b + width b ≤ lo a) (k : κ) :
    Stacked lo width ((l ++ [a]).filter (key · = k)) := by
  rw [List.filter_append]
  by_cases hk : key a = k
  · subst hk
    simp only [List.filter_cons, decide_true, if_true, List.filter_nil]
    refine stacked_concat.mpr ⟨h (key a), fun b hb => ?_⟩
    obtain ⟨hb, hkey⟩ := List.mem_filter.mp hb
    exact ha b hb (of_decide_eq_true hkey)
  · simpa [List.filter_cons, hk] using h k

/-- Intervals inside `[L, H]` that do not overlap have total width at most `H - L`. -/
theorem Stacked.sum_width_le (h : Stacked lo width l) (hL : ∀ a ∈ l, L ≤ lo a)
    (hH : ∀ a ∈ l, lo a + width a ≤ H) (hLH : L ≤ H) : (l.map width).sum + L ≤ H := by
  induction l generalizing L with
  | nil => simpa using hLH
  | cons a l ih =>
    obtain ⟨hrel, htail⟩ := List.pairwise_cons.mp h
    have hrest := ih htail hrel (fun b hb => hH b (by simp [hb])) (hH a (by simp))
    have ha := hL a (by simp)
    simp only [List.map_cons, List.sum_cons]
    omega

theorem Stacked.disjoint (h : Stacked lo width l) :
    l.Pairwise fun a b => Disjoint (Set.Ico (lo a) (lo a + width a))
      (Set.Ico (lo b) (lo b + width b)) := by
  refine List.Pairwise.imp (fun {a b} hab => ?_) h
  rw [Set.disjoint_left]
  intro x hx hy
  exact absurd (hx.2.trans_le hab) (not_lt.mpr hy.1)

/-- A sum over a list splits along any classification of its elements. -/
theorem sum_fiberwise {ι M : Type*} [Fintype ι] [DecidableEq ι] [AddCommMonoid M]
    (key : α → ι) (f : α → M) (l : List α) :
    (l.map f).sum = ∑ i, ((l.filter fun a => key a = i).map f).sum := by
  induction l with
  | nil => simp
  | cons a l ih =>
    have hsplit (i : ι) : (((a :: l).filter fun b => key b = i).map f).sum =
        (if key a = i then f a else 0) + ((l.filter fun b => key b = i).map f).sum := by
      by_cases h : key a = i <;> simp [h]
    simp only [hsplit, Finset.sum_add_distrib, Finset.sum_ite_eq, Finset.mem_univ, if_true,
      List.map_cons, List.sum_cons, ih]

/-- Families that agree outside one index have sums that differ as they do there. -/
theorem sum_add_eq_of_eqOff {ι : Type*} [Fintype ι] [DecidableEq ι] {f g : ι → ℕ} {i : ι}
    (h : ∀ j ≠ i, f j = g j) : ∑ j, f j + g i = ∑ j, g j + f i := by
  have hrest : ∑ j ∈ Finset.univ.erase i, f j = ∑ j ∈ Finset.univ.erase i, g j :=
    Finset.sum_congr rfl fun j hj => h j (Finset.ne_of_mem_erase hj)
  rw [← Finset.add_sum_erase _ f (Finset.mem_univ i),
    ← Finset.add_sum_erase _ g (Finset.mem_univ i), hrest]
  omega

end RdmaperfIso.Charges
