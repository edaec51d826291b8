import Mathlib.Logic.Relation
import Mathlib.Order.Nat
import Mathlib.Tactic.Common

/-! Functions that answer at once or end in a call of another one, run with fuel. A cycle of
calls has no result for any fuel; a rank that every call lowers excludes cycles. -/
namespace RdmaperfIso.TailCalls

/-- A call through a pointer that is not set is undefined. -/
inductive Body (φ ρ : Type*) where
  | answer (r : ρ)
  | call (f : φ)
  | undefined

variable {φ ρ : Type*} {body : φ → Body φ ρ} {f g : φ} {r : ρ}

def exec (body : φ → Body φ ρ) : ℕ → φ → Option ρ
  | 0, _ => none
  | fuel + 1, f =>
    match body f with
    | .answer r => some r
    | .call g => exec body fuel g
    | .undefined => none

/-- The call comes back with a result. -/
def Returns (body : φ → Body φ ρ) (f : φ) (r : ρ) : Prop := ∃ fuel, exec body fuel f = some r

def Calls (body : φ → Body φ ρ) (f g : φ) : Prop := body f = .call g

theorem exec_answer (h : body f = .answer r) (fuel : ℕ) : exec body (fuel + 1) f = some r := by
  rw [exec, h]

theorem exec_call (h : Calls body f g) (fuel : ℕ) :
    exec body (fuel + 1) f = exec body fuel g := by
  rw [exec, h]

theorem returns_answer (h : body f = .answer r) : Returns body f r := ⟨1, exec_answer h 0⟩

theorem returns_call (h : Calls body f g) (hg : Returns body g r) : Returns body f r := by
  obtain ⟨fuel, hfuel⟩ := hg
  exact ⟨fuel + 1, (exec_call h fuel).trans hfuel⟩

/-- A function that calls itself has no result for any fuel. -/
theorem exec_eq_none_of_self (h : Calls body f f) (fuel : ℕ) : exec body fuel f = none := by
  induction fuel with
  | zero => rfl
  | succ fuel ih => exact (exec_call h fuel).trans ih

section Rank
variable {P : φ → Prop} {rank : φ → ℕ}
  (hrank : ∀ f g, P f → Calls body f g → P g ∧ rank g < rank f)
include hrank

theorem rank_lt_of_transGen (hf : P f) (h : Relation.TransGen (Calls body) f g) :
    P g ∧ rank g < rank f := by
  induction h with
  | single h => exact hrank _ _ hf h
  | tail _ h ih =>
    obtain ⟨hg, hlt⟩ := hrank _ _ ih.1 h
    exact ⟨hg, hlt.trans ih.2⟩

/-- Where every call lowers the rank and no pointer is unset, every function comes back. -/
theorem exists_returns_of_rank (hset : ∀ f, P f → body f ≠ .undefined) (hf : P f) :
    ∃ r, Returns body f r := by
  induction hn : rank f using Nat.strong_induction_on generalizing f with
  | _ n ih =>
    cases hb : body f with
    | answer r => exact ⟨r, returns_answer hb⟩
    | call g =>
      obtain ⟨hg, hlt⟩ := hrank f g hf hb
      obtain ⟨r, hr⟩ := ih (rank g) (hn ▸ hlt) hg rfl
      exact ⟨r, returns_call hb hr⟩
    | undefined => exact absurd hb (hset f hf)

end Rank
end RdmaperfIso.TailCalls
