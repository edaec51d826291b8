import Mathlib.Tactic.Common

/-! Calls that return a value, return an error code, or do something that the language
leaves undefined. A sequence of calls stops at the first one that does not return a value. -/
namespace RdmaperfIso

inductive Outcome (ε α : Type*) where
  | ok (a : α)
  | error (e : ε)
  | undefined
  deriving DecidableEq, Repr

namespace Outcome
variable {ε ε' α β : Type*}

protected def bind : Outcome ε α → (α → Outcome ε β) → Outcome ε β
  | ok a, f => f a
  | error e, _ => error e
  | undefined, _ => undefined

instance : Monad (Outcome ε) where
  pure := ok
  bind := Outcome.bind

def mapError (f : ε → ε') : Outcome ε α → Outcome ε' α
  | ok a => ok a
  | error e => error (f e)
  | undefined => undefined

/-- An error when the check fails. -/
def check (p : Prop) [Decidable p] (e : ε) : Outcome ε Unit := if p then ok () else error e

/-- Undefined when the requirement fails. -/
def require (p : Prop) [Decidable p] : Outcome ε Unit := if p then ok () else undefined

@[simp] theorem pure_eq_ok {a b : α} : (pure a : Outcome ε α) = ok b ↔ a = b := by
  constructor
  · intro h
    injection h
  · rintro rfl
    rfl

@[simp] theorem bind_eq_ok {α β : Type _} {x : Outcome ε α} {f : α → Outcome ε β} {b : β} :
    x >>= f = ok b ↔ ∃ a, x = ok a ∧ f a = ok b := by
  show x.bind f = ok b ↔ _
  cases x <;> simp [Outcome.bind]

section Fold
variable {σ α : Type _} {f : σ → α → Outcome ε σ} {s s' : σ} {a : α} {as : List α}

theorem foldlM_nil_eq_ok : [].foldlM f s = ok s' ↔ s = s' := by
  rw [List.foldlM_nil, pure_eq_ok]

/-- A fold with results takes its first step, and goes on from there. -/
theorem foldlM_cons_eq_ok :
    (a :: as).foldlM f s = ok s' ↔ ∃ t, f s a = ok t ∧ as.foldlM f t = ok s' := by
  rw [List.foldlM_cons, bind_eq_ok]

end Fold

@[simp] theorem mapError_eq_ok {f : ε → ε'} {x : Outcome ε α} {a : α} :
    x.mapError f = ok a ↔ x = ok a := by
  cases x <;> simp [mapError]

@[simp] theorem check_eq_ok {p : Prop} [Decidable p] {e : ε} {u : Unit} :
    check p e = ok u ↔ p := by
  by_cases h : p <;> simp [check, h]

@[simp] theorem require_eq_ok {p : Prop} [Decidable p] {u : Unit} :
    (require p : Outcome ε Unit) = ok u ↔ p := by
  by_cases h : p <;> simp [require, h]

section Check
variable {ε α : Type _} {p : Prop} [Decidable p] {e : ε} {f : Unit → Outcome ε α}

theorem check_bind_pos (h : p) : check p e >>= f = f () := by
  rw [check, if_pos h]
  rfl

theorem check_bind_neg (h : ¬ p) : check p e >>= f = error e := by
  rw [check, if_neg h]
  rfl

end Check

end Outcome
end RdmaperfIso
