import RapidLog.Lib.Transition

/-!
# Simulation of machines

`Simulates` says that whatever one machine does from a state, another machine can do with at most
one step of its own from any related state. `Reach.simulate` carries this over to runs. A machine
that has another one as a part of its state simulates it through the projection (`Reach.project`).
-/

namespace Machine

variable {σ ε σ' ε' : Type*} {m : Machine σ ε} {ok : σ → ε → Prop} {m' : Machine σ' ε'}
  {ok' : σ' → ε' → Prop} {R : σ → σ' → Prop} {s₀ s : σ} {t₀ : σ'}

/-- Every admissible step of `m` from a related state is matched by no step of `m'` or by an
admissible one. -/
def Simulates (m : Machine σ ε) (ok : σ → ε → Prop) (m' : Machine σ' ε')
    (ok' : σ' → ε' → Prop) (R : σ → σ' → Prop) : Prop :=
  ∀ s e s' t, R s t → ok s e → m s e = some s' →
    R s' t ∨ ∃ e' t', ok' t e' ∧ m' t e' = some t' ∧ R s' t'

/-- Every run of `m` is matched by a run of `m'`. -/
theorem Reach.simulate (hsim : Simulates m ok m' ok' R) (h : m.Reach ok s₀ s) (h₀ : R s₀ t₀) :
    ∃ t, m'.Reach ok' t₀ t ∧ R s t := by
  induction h with
  | refl => exact ⟨t₀, .refl, h₀⟩
  | step _ hok he ih =>
    obtain ⟨t, ht, hR⟩ := ih
    rcases hsim _ _ _ t hR hok he with hstay | ⟨e', t', hok', he', hR'⟩
    · exact ⟨t, ht, hstay⟩
    · exact ⟨t', ht.step hok' he', hR'⟩

/-- A machine whose steps keep a part of the state or are steps of another machine on it. -/
theorem Reach.project {f : σ → σ'} (h : m.Reach ok s₀ s)
    (hstep : ∀ s e s', ok s e → m s e = some s' →
      f s' = f s ∨ ∃ e', ok' (f s) e' ∧ m' (f s) e' = some (f s')) :
    m'.Reach ok' (f s₀) (f s) := by
  have hsim : Simulates m ok m' ok' fun s t => f s = t := by
    rintro s e s' t rfl hok he
    rcases hstep s e s' hok he with hsame | ⟨e', hok', he'⟩
    · exact .inl hsame
    · exact .inr ⟨e', f s', hok', he', rfl⟩
  obtain ⟨t, ht, rfl⟩ := h.simulate hsim rfl
  exact ht

end Machine
