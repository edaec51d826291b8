import Mathlib.Data.List.Basic
import Mathlib.Tactic.Common

/-! Finite runs of a partial transition function. A step that has no result stops
the run; `Meets` states a condition on every state in which a step is taken, `Delivers`
that every step has a result and what is true of it. -/
namespace RdmaperfIso.Run

variable {σ ε : Type*} {step : σ → ε → Option σ} {s s' : σ} {e : ε} {es fs : List ε}

/-- Execute events from left to right. -/
def run (step : σ → ε → Option σ) : σ → List ε → Option σ
  | s, [] => some s
  | s, e :: es => (step s e).bind fun s' => run step s' es

/-- Every event of the list is taken in a state that meets the condition. -/
def Meets (step : σ → ε → Option σ) (cond : σ → ε → Prop) : σ → List ε → Prop
  | _, [] => True
  | s, e :: es => cond s e ∧
      match step s e with
      | none => True
      | some s' => Meets step cond s' es

/-- Every event of the list has a result, which satisfies the postcondition. -/
def Delivers (step : σ → ε → Option σ) (post : σ → ε → σ → Prop) : σ → List ε → Prop
  | _, [] => True
  | s, e :: es => ∃ s', step s e = some s' ∧ post s e s' ∧ Delivers step post s' es

def decidableMeets (step : σ → ε → Option σ) (cond : σ → ε → Prop)
    [∀ s e, Decidable (cond s e)] : (s : σ) → (es : List ε) → Decidable (Meets step cond s es)
  | _, [] => isTrue trivial
  | s, e :: es =>
    match h : step s e with
    | none => decidable_of_iff (cond s e) (by simp [Meets, h])
    | some s' =>
      have := decidableMeets step cond s' es
      decidable_of_iff (cond s e ∧ Meets step cond s' es) (by simp [Meets, h])

instance (step : σ → ε → Option σ) (cond : σ → ε → Prop) [∀ s e, Decidable (cond s e)]
    (s : σ) (es : List ε) : Decidable (Meets step cond s es) := decidableMeets step cond s es

theorem Meets.head {cond : σ → ε → Prop} (h : Meets step cond s (e :: es)) : cond s e := h.1

theorem Meets.tail {cond : σ → ε → Prop} (h : Meets step cond s (e :: es))
    (hs : step s e = some s') : Meets step cond s' es := by
  have h2 := h.2
  rwa [hs] at h2

@[simp] theorem run_nil : run step s [] = some s := rfl

theorem run_cons : run step s (e :: es) = (step s e).bind fun s' => run step s' es := rfl

theorem run_cons_eq_some :
    run step s (e :: es) = some s' ↔ ∃ t, step s e = some t ∧ run step t es = some s' := by
  rw [run_cons, Option.bind_eq_some_iff]

theorem run_append : run step s (es ++ fs) = (run step s es).bind fun t => run step t fs := by
  induction es generalizing s with
  | nil => rfl
  | cons e es ih =>
    simp only [List.cons_append, run_cons, Option.bind_assoc]
    congr 1
    funext t
    exact ih

theorem run_append_eq_some :
    run step s (es ++ fs) = some s' ↔ ∃ t, run step s es = some t ∧ run step t fs = some s' := by
  rw [run_append, Option.bind_eq_some_iff]

/-- A property preserved by every step that meets the condition holds at the end. -/
theorem run_invariant {cond : σ → ε → Prop} {P : σ → Prop}
    (hstep : ∀ s e s', P s → cond s e → step s e = some s' → P s')
    (hs : P s) (hm : Meets step cond s es) (hr : run step s es = some s') : P s' := by
  induction es generalizing s with
  | nil =>
    obtain rfl := Option.some.inj hr
    exact hs
  | cons e es ih =>
    obtain ⟨t, ht, hr⟩ := run_cons_eq_some.mp hr
    exact ih (hstep s e t hs hm.head ht) (hm.tail ht) hr

/-- A property that each step keeps exactly under the condition, and that no step restores,
holds at the end exactly when every step met the condition. -/
theorem run_iff_meets {cond : σ → ε → Prop} {P Q : σ → Prop}
    (hstep : ∀ s e s', P s → step s e = some s' → P s' ∧ (Q s' ↔ Q s ∧ cond s e))
    (hs : P s) (hr : run step s es = some s') : Q s' ↔ Q s ∧ Meets step cond s es := by
  induction es generalizing s with
  | nil =>
    obtain rfl := Option.some.inj hr
    exact (and_iff_left trivial).symm
  | cons e es ih =>
    obtain ⟨t, ht, hr⟩ := run_cons_eq_some.mp hr
    obtain ⟨hp, hq⟩ := hstep s e t hs ht
    rw [ih hp hr, hq, and_assoc]
    simp only [Meets, ht]

/-- When every step from a good state has a good result, so has the whole run. -/
theorem run_total {cond : ε → Prop} {P : σ → Prop}
    (hstep : ∀ s e, P s → cond e → ∃ s', step s e = some s' ∧ P s')
    (hs : P s) (hc : ∀ e ∈ es, cond e) : ∃ s', run step s es = some s' ∧ P s' := by
  induction es generalizing s with
  | nil => exact ⟨s, rfl, hs⟩
  | cons e es ih =>
    obtain ⟨t, ht, hp⟩ := hstep s e hs (hc e (by simp))
    obtain ⟨s', hr, hp'⟩ := ih hp (fun f hf => hc f (by simp [hf]))
    exact ⟨s', run_cons_eq_some.mpr ⟨t, ht, hr⟩, hp'⟩

/-- A run whose steps all have the results of a total function is a fold. -/
theorem run_eq_foldl {f : σ → ε → σ} (h : ∀ s, ∀ e ∈ es, step s e = some (f s e)) :
    run step s es = some (es.foldl f s) := by
  induction es generalizing s with
  | nil => rfl
  | cons e es ih =>
    rw [run_cons, h s e (by simp), Option.bind_some, List.foldl_cons]
    exact ih fun t e' he' => h t e' (by simp [he'])

/-- A condition on events alone is met by every run of such events. -/
theorem meets_of_forall {cond : ε → Prop} (h : ∀ e ∈ es, cond e) :
    Meets step (fun _ e => cond e) s es := by
  induction es generalizing s with
  | nil => trivial
  | cons e es ih =>
    refine ⟨h e (by simp), ?_⟩
    split
    · trivial
    · exact ih fun f hf => h f (by simp [hf])

theorem Meets.and {c d : σ → ε → Prop} (hc : Meets step c s es) (hd : Meets step d s es) :
    Meets step (fun s e => c s e ∧ d s e) s es := by
  induction es generalizing s with
  | nil => trivial
  | cons e es ih =>
    refine ⟨⟨hc.head, hd.head⟩, ?_⟩
    split
    next => trivial
    next s' hs => exact ih (hc.tail hs) (hd.tail hs)

/-- Where a condition decides, from every good state, whether a step delivers, it decides
whether the run does. -/
theorem delivers_iff_meets {c : ε → Prop} {P : σ → Prop} {cond : σ → ε → Prop}
    {post : σ → ε → σ → Prop}
    (hiff : ∀ s e, P s → c e → ((∃ s', step s e = some s' ∧ post s e s') ↔ cond s e))
    (hstep : ∀ s e s', P s → c e → cond s e → step s e = some s' → P s')
    (hs : P s) (hc : ∀ e ∈ es, c e) : Delivers step post s es ↔ Meets step cond s es := by
  induction es generalizing s with
  | nil => exact Iff.rfl
  | cons e es ih =>
    have he := hc e (by simp)
    have hes : ∀ f ∈ es, c f := fun f hf => hc f (by simp [hf])
    constructor
    · rintro ⟨t, ht, hpost, hrest⟩
      have hcond := (hiff s e hs he).mp ⟨t, ht, hpost⟩
      refine ⟨hcond, ?_⟩
      rw [ht]
      exact (ih (hstep s e t hs he hcond ht) hes).mp hrest
    · intro hm
      obtain ⟨t, ht, hpost⟩ := (hiff s e hs he).mpr hm.head
      exact ⟨t, ht, hpost, (ih (hstep s e t hs he hm.head ht) hes).mpr (hm.tail ht)⟩

end RdmaperfIso.Run
