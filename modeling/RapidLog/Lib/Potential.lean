import RapidLog.Lib.Transition

/-!
# Potentials

How many steps of one kind a run can take. `Counts` collects the states that a run reaches, with
the number of its steps that are `own`. Each of them must be paid for: the potential falls by one
with every own step, and rises by no more than what arrives (`Counts.bound`).
-/

namespace Machine

variable {σ ε : Type*} {m : Machine σ ε} {ok : σ → ε → Prop} {own : ε → Prop} {s₀ s s' : σ}
  {n : ℕ}

/-- `s` is reached from `s₀` by a run of which `n` steps are `own`. -/
inductive Counts (m : Machine σ ε) (ok : σ → ε → Prop) (own : ε → Prop) (s₀ : σ) : ℕ → σ → Prop
  | refl : Counts m ok own s₀ 0 s₀
  | own {n : ℕ} {s s' : σ} {e : ε} : Counts m ok own s₀ n s → ok s e → own e →
    m s e = some s' → Counts m ok own s₀ (n + 1) s'
  | other {n : ℕ} {s s' : σ} {e : ε} : Counts m ok own s₀ n s → ok s e → ¬ own e →
    m s e = some s' → Counts m ok own s₀ n s'

theorem Counts.reach (h : m.Counts ok own s₀ n s) : m.Reach ok s₀ s := by
  induction h with
  | refl => exact .refl
  | own _ hok _ he ih | other _ hok _ he ih => exact ih.step hok he

/-- What is spent and what is left do not exceed what was there and what has arrived. -/
theorem Counts.bound {P : σ → Prop} (h : m.Counts ok own s₀ n s) (potential arrived : σ → ℕ)
    (h₀ : P s₀) (hstep : ∀ s e s', P s → ok s e → m s e = some s' → P s')
    (hown : ∀ s e s', P s → ok s e → own e → m s e = some s' →
      potential s' + 1 + arrived s ≤ potential s + arrived s')
    (hother : ∀ s e s', P s → ok s e → ¬ own e → m s e = some s' →
      potential s' + arrived s ≤ potential s + arrived s') :
    n + potential s + arrived s₀ ≤ potential s₀ + arrived s := by
  induction h with
  | refl => omega
  | own hrun hok hmine he ih =>
    have hpaid := hown _ _ _ (hrun.reach.invariant h₀ hstep) hok hmine he
    omega
  | other hrun hok hmine he ih =>
    have hpaid := hother _ _ _ (hrun.reach.invariant h₀ hstep) hok hmine he
    omega

/-- A checked replay, with the number of its own steps. -/
theorem Counts.of_runWhile [∀ s e, Decidable (ok s e)] (own : ε → Prop) [DecidablePred own]
    {es : List ε} (h : m.runWhile ok s es = some s') : m.Counts ok own s (es.countP own) s' := by
  suffices hsuffix : ∀ n t, m.Counts ok own s n t → m.runWhile ok t es = some s' →
      m.Counts ok own s (n + es.countP own) s' by
    simpa using hsuffix 0 s .refl h
  clear h
  induction es with
  | nil =>
    intro n t ht h
    exact Option.some.inj h ▸ ht
  | cons e es ih =>
    intro n t ht h
    simp only [runWhile] at h
    split at h
    · next hok =>
      obtain ⟨u, hu, hrest⟩ := Option.bind_eq_some_iff.mp h
      by_cases hmine : own e
      · rw [List.countP_cons_of_pos (by simpa using hmine), Nat.add_comm _ 1, ← Nat.add_assoc]
        exact ih _ u (.own ht hok hmine hu) hrest
      · rw [List.countP_cons_of_neg (by simpa using hmine)]
        exact ih _ u (.other ht hok hmine hu) hrest
    · cases h

end Machine
