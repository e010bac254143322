import Mathlib.Data.List.Basic
import Mathlib.Tactic

/-!
# Repeating the elements of a list in order

`Repeats xs ys` says that `ys` goes through `xs` from its first element on and repeats each any
number of times, also zero times. It says what a consumer may see of a sequence when it may skip
elements, get them more than once and be behind, but never out of order.
-/

variable {α : Type*} {xs ys : List α}

/-- `ys` repeats the elements of `xs` in their order, each any number of times. -/
def Repeats (xs ys : List α) : Prop :=
  ∃ times : List ℕ, ys = (xs.zip times).flatMap fun x => List.replicate x.2 x.1

/-- The repetitions of a first part. -/
theorem repeats_mono {l : List (α × ℕ)} (h : l.map Prod.fst <+: xs) :
    Repeats xs (l.flatMap fun x => List.replicate x.2 x.1) := by
  obtain ⟨rest, rfl⟩ := h
  refine ⟨l.map Prod.snd, ?_⟩
  have hzip : (l.map Prod.fst ++ rest).zip (l.map Prod.snd) = l := by
    induction l with
    | nil => simp
    | cons x l ih => simp [ih]
  rw [hzip]

/-- Two elements are not seen in the opposite order unless they are equal. -/
theorem Repeats.eq_of_swap {a b : α} (h : Repeats [a, b] [b, a]) : a = b := by
  obtain ⟨times, h⟩ := h
  match times with
  | [] => simp at h
  | [n] =>
    have hmem : b ∈ List.replicate n a := by
      have : [b, a] = List.replicate n a := by simpa using h
      simp [← this]
    exact (List.eq_of_mem_replicate hmem).symm
  | n :: m :: _ =>
    have hsplit : [b, a] = List.replicate n a ++ List.replicate m b := by simpa using h
    -- the first element is a repetition of `a` unless there is none
    cases n with
    | zero =>
      have hmem : a ∈ List.replicate m b := by
        have : [b, a] = List.replicate m b := by simpa using hsplit
        simp [← this]
      exact List.eq_of_mem_replicate hmem
    | succ n =>
      rw [List.replicate_succ, List.cons_append] at hsplit
      exact (List.cons.inj hsplit).1.symm
