import Mathlib.Logic.Function.Basic

/-!
# Memo tables

A table keeps the results of `f` under a key that stands for the argument. As long as a key goes on
standing for the value that it stood for when its result was stored, a look-up gives what `f` would
(`Sound.getOrInsert_fst`).
-/

namespace Memo

variable {K V R : Type*} [DecidableEq K] {f : V → Option R} {table : K → Option R} {key : K}
  {value : V} {Stands Stands' : K → V → Prop}

/-- The stored result, or the result of a call, which is stored. A call that fails stores
nothing. -/
def getOrInsert (f : V → Option R) (table : K → Option R) (key : K) (value : V) :
    Option R × (K → Option R) :=
  match table key with
  | some result => (some result, table)
  | none => (f value, Function.update table key (f value))

/-- Every stored result is that of a value that its key stands for. -/
def Sound (f : V → Option R) (Stands : K → V → Prop) (table : K → Option R) : Prop :=
  ∀ key result, table key = some result → ∃ value, Stands key value ∧ f value = some result

omit [DecidableEq K] in
theorem sound_empty (f : V → Option R) (Stands : K → V → Prop) : Sound f Stands fun _ => none := by
  intro key result h
  cases h

namespace Sound

omit [DecidableEq K] in
theorem mono (h : Sound f Stands table)
    (hstands : ∀ key value, Stands key value → Stands' key value) : Sound f Stands' table := by
  intro key result hentry
  obtain ⟨value, hvalue, hresult⟩ := h key result hentry
  exact ⟨value, hstands key value hvalue, hresult⟩

/-- A look-up gives the result for the value, if the key stands for no other one. -/
theorem getOrInsert_fst (h : Sound f Stands table)
    (hunique : ∀ other, Stands key other → other = value) :
    (getOrInsert f table key value).1 = f value := by
  unfold getOrInsert
  split
  · next result hentry =>
    -- the entry was made for the value that the key stands for now
    obtain ⟨other, hother, hresult⟩ := h key result hentry
    rw [← hunique other hother, hresult]
  · rfl

theorem getOrInsert_snd (h : Sound f Stands table) (hvalue : Stands key value) :
    Sound f Stands (getOrInsert f table key value).2 := by
  unfold getOrInsert
  split
  · exact h
  · intro other result hentry
    rcases eq_or_ne other key with rfl | hne
    · dsimp only at hentry
      rw [Function.update_self] at hentry
      exact ⟨value, hvalue, hentry⟩
    · dsimp only at hentry
      rw [Function.update_of_ne hne] at hentry
      exact h other result hentry

end Sound

end Memo
