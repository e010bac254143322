import Mathlib.Data.List.Basic

/-!
# Machines with a partial step function

A machine is a step function `σ → ε → Option σ`: `none` says that the event is not enabled in
the state. `run` replays a list of events, `Reach` collects the states reached by runs whose
steps all satisfy a side condition, and the rules below turn a property that one step keeps into
a property of every state a run reaches.
-/

/-- A transition system given by its partial step function. -/
abbrev Machine (σ ε : Type*) := σ → ε → Option σ

namespace Machine

variable {σ ε : Type*} {m : Machine σ ε} {ok ok' : σ → ε → Prop} {s s' s₀ : σ} {e : ε}

/-- Replay a list of events; `none` as soon as one of them is not enabled. -/
def run (m : Machine σ ε) : σ → List ε → Option σ
  | s, [] => some s
  | s, e :: es => (m s e).bind fun s' => m.run s' es

/-- States reached from `s₀` by steps that satisfy `ok` in the state they start from. -/
inductive Reach (m : Machine σ ε) (ok : σ → ε → Prop) (s₀ : σ) : σ → Prop
  | refl : Reach m ok s₀ s₀
  | step {s s' : σ} {e : ε} : Reach m ok s₀ s → ok s e → m s e = some s' → Reach m ok s₀ s'

/-- A property of the start that every admissible step keeps holds in every reached state. -/
theorem Reach.invariant {P : σ → Prop} (h : m.Reach ok s₀ s) (h₀ : P s₀)
    (hstep : ∀ s e s', P s → ok s e → m s e = some s' → P s') : P s := by
  induction h with
  | refl => exact h₀
  | step _ hok he ih => exact hstep _ _ _ ih hok he

/-- Weakening the side condition keeps reachability. -/
theorem Reach.mono (h : m.Reach ok s₀ s) (hok : ∀ s e, ok s e → ok' s e) :
    m.Reach ok' s₀ s := by
  induction h with
  | refl => exact .refl
  | step _ hs he ih => exact .step ih (hok _ _ hs) he

/-- Reachability composes. -/
theorem Reach.trans (h : m.Reach ok s₀ s) (h' : m.Reach ok s s') : m.Reach ok s₀ s' := by
  induction h' with
  | refl => exact h
  | step _ hs he ih => exact .step ih hs he

/-- A run from `s₀` to `s` went through a state that satisfies `P`. -/
def Passed (m : Machine σ ε) (ok : σ → ε → Prop) (s₀ s : σ) (P : σ → Prop) : Prop :=
  ∃ s₁, m.Reach ok s₀ s₁ ∧ P s₁ ∧ m.Reach ok s₁ s

theorem Passed.step {P : σ → Prop} (h : m.Passed ok s₀ s P) (hok : ok s e) (he : m s e = some s') :
    m.Passed ok s₀ s' P := by
  obtain ⟨s₁, h₁, hP, hs⟩ := h
  exact ⟨s₁, h₁, hP, hs.step hok he⟩

/-- The state before the last step of a run is one that it went through. -/
theorem Passed.last {P : σ → Prop} (hs : m.Reach ok s₀ s) (hP : P s) (hok : ok s e)
    (he : m s e = some s') : m.Passed ok s₀ s' P :=
  ⟨s, hs, hP, .step .refl hok he⟩

@[simp]
theorem run_nil (m : Machine σ ε) (s : σ) : m.run s [] = some s := rfl

@[simp]
theorem run_cons (m : Machine σ ε) (s : σ) (e : ε) (es : List ε) :
    m.run s (e :: es) = (m s e).bind fun s' => m.run s' es := rfl

theorem run_append (m : Machine σ ε) (s : σ) (es es' : List ε) :
    m.run s (es ++ es') = (m.run s es).bind fun s' => m.run s' es' := by
  induction es generalizing s with
  | nil => rfl
  | cons e es ih =>
    rw [List.cons_append, run_cons, run_cons, Option.bind_assoc]
    exact congrArg _ (funext ih)

/-- A property that every step of the machine keeps survives a whole run. -/
theorem run_invariant {P : σ → Prop} {es : List ε}
    (hstep : ∀ s e s', e ∈ es → P s → m s e = some s' → P s') (h₀ : P s)
    (h : m.run s es = some s') : P s' := by
  induction es generalizing s with
  | nil => exact Option.some.inj h ▸ h₀
  | cons e es ih =>
    obtain ⟨t, ht, hrest⟩ := Option.bind_eq_some_iff.mp h
    exact ih (fun s e s' he => hstep s e s' (by simp [he]))
      (hstep s e t (by simp) h₀ ht) hrest

/-- The states of a replayed run whose events satisfy `ok` in every state are reached. -/
theorem Reach.of_run {es : List ε} (hok : ∀ s, ∀ e ∈ es, ok s e) (h : m.run s es = some s') :
    m.Reach ok s s' :=
  run_invariant (P := fun t => m.Reach ok s t) (fun t e _ he ht hs => .step ht (hok t e he) hs)
    .refl h

/-- Replay a list of events as long as each satisfies `ok` in the state it starts from. -/
def runWhile (m : Machine σ ε) (ok : σ → ε → Prop) [∀ s e, Decidable (ok s e)] :
    σ → List ε → Option σ
  | s, [] => some s
  | s, e :: es => if ok s e then (m s e).bind fun s' => m.runWhile ok s' es else none

/-- A checked replay ends in a reached state. -/
theorem Reach.of_runWhile [∀ s e, Decidable (ok s e)] {es : List ε}
    (h : m.runWhile ok s es = some s') : m.Reach ok s s' := by
  induction es generalizing s with
  | nil => exact Option.some.inj h ▸ .refl
  | cons e es ih =>
    simp only [runWhile] at h
    split at h
    · next hok =>
      obtain ⟨t, ht, hrest⟩ := Option.bind_eq_some_iff.mp h
      exact (Reach.refl.step hok ht).trans (ih hrest)
    · cases h

end Machine
