import Mathlib.Data.List.Basic
import Mathlib.Tactic.Common
import RdmaperfIso.Lib.Run

/-! Systems that answer the events they are given. Two systems refine each other when related
states accept the same events with the same answers: then whole runs have the same answers,
and one of them stops exactly where the other does. -/
namespace RdmaperfIso.Reactive
open Run

variable {σ τ ε ω : Type*} {step : σ → ε → Option (σ × List ω)}
  {step' : τ → ε → Option (τ × List ω)} {R : σ → τ → Prop} {s : σ} {t : τ} {es : List ε}

/-- The state after all events, and the answers in order. -/
def exec (step : σ → ε → Option (σ × List ω)) : σ → List ε → Option (σ × List ω)
  | s, [] => some (s, [])
  | s, e :: es =>
    (step s e).bind fun r => (exec step r.1 es).map fun r' => (r'.1, r.2 ++ r'.2)

/-- The answers of a run. -/
def answers (step : σ → ε → Option (σ × List ω)) (s : σ) (es : List ε) : Option (List ω) :=
  (exec step s es).map Prod.snd

/-- Results with related states and the same answers. -/
abbrev Agree (R : σ → τ → Prop) : Option (σ × List ω) → Option (τ × List ω) → Prop :=
  Option.Rel fun x y => R x.1 y.1 ∧ x.2 = y.2

theorem exec_agree (hstep : ∀ s t e, R s t → Agree R (step s e) (step' t e)) (h : R s t) :
    Agree R (exec step s es) (exec step' t es) := by
  induction es generalizing s t with
  | nil => exact .some ⟨h, rfl⟩
  | cons e es ih =>
    have he := hstep s t e h
    rw [exec, exec]
    generalize step s e = x, step' t e = y at he
    cases he with
    | none => exact .none
    | @some x y hxy =>
      have hrest := ih hxy.1
      simp only [Option.bind_some]
      generalize exec step x.1 es = x', exec step' y.1 es = y' at hrest
      cases hrest with
      | none => exact .none
      | some hxy' => exact .some ⟨hxy'.1, congrArg₂ _ hxy.2 hxy'.2⟩

theorem Agree.matched {y : Option (τ × List ω)} {s' : σ} {out : List ω}
    (h : Agree R (some (s', out)) y) : ∃ t', y = some (t', out) ∧ R s' t' := by
  cases h with
  | @some _ y hxy =>
    obtain ⟨hrel, rfl⟩ : R s' y.1 ∧ out = y.2 := hxy
    exact ⟨y.1, rfl, hrel⟩

/-- A run of one system is matched by a run of the other. -/
theorem exec_simulates {s' : σ} {out : List ω}
    (hstep : ∀ s t e, R s t → Agree R (step s e) (step' t e)) (h : R s t)
    (hr : exec step s es = some (s', out)) : ∃ t', exec step' t es = some (t', out) ∧ R s' t' :=
  Agree.matched (hr ▸ exec_agree hstep h)

/-- Systems that agree step by step give the same answers. -/
theorem answers_eq (hstep : ∀ s t e, R s t → Agree R (step s e) (step' t e)) (h : R s t) :
    answers step s es = answers step' t es := by
  have hagree : Agree R (exec step s es) (exec step' t es) := exec_agree hstep h
  rw [answers, answers]
  generalize exec step s es = x, exec step' t es = y at hagree
  cases hagree with
  | none => rfl
  | some hxy => rw [Option.map_some, Option.map_some, hxy.2]

/-- The states of a run, without the answers. -/
def next (step : σ → ε → Option (σ × List ω)) (s : σ) (e : ε) : Option σ :=
  (step s e).map Prod.fst

/-- A property of the state and of the answers so far, kept by every step that meets the
condition. -/
theorem exec_invariant_of_meets {cond : σ → ε → Prop} {I : σ → List ω → Prop} {hist : List ω}
    {r : σ × List ω}
    (hstep : ∀ s e hist r, I s hist → cond s e → step s e = some r → I r.1 (hist ++ r.2))
    (h : I s hist) (hm : Meets (next step) cond s es) (hr : exec step s es = some r) :
    I r.1 (hist ++ r.2) := by
  induction es generalizing s hist r with
  | nil =>
    obtain rfl := Option.some.inj hr
    simpa using h
  | cons e es ih =>
    obtain ⟨r₁, h₁, hr⟩ := Option.bind_eq_some_iff.mp hr
    obtain ⟨r₂, h₂, rfl⟩ := Option.map_eq_some_iff.mp hr
    have hnext : next step s e = some r₁.1 := by rw [next, h₁, Option.map_some]
    rw [← List.append_assoc]
    exact ih (hstep s e hist r₁ h hm.head h₁) (hm.tail hnext) h₂

/-- The same, for a condition on the events. -/
theorem exec_invariant {I : σ → List ω → Prop} {hist : List ω} {r : σ × List ω}
    (hstep : ∀ e ∈ es, ∀ s hist r, I s hist → step s e = some r → I r.1 (hist ++ r.2))
    (h : I s hist) (hr : exec step s es = some r) : I r.1 (hist ++ r.2) := by
  have hm : Meets (next step) (fun _ e => e ∈ es) s es := meets_of_forall fun _ he => he
  exact exec_invariant_of_meets (fun s e hist r hi he hs => hstep e he s hist r hi hs) h hm hr

end RdmaperfIso.Reactive
