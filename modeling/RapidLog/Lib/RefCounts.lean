import Mathlib.Data.List.Count
import Mathlib.Logic.Function.Basic

/-!
# Reference counts

A count for each address, and the list of all the references that there are. `Counted` says that
the counts are right: an address is live exactly as long as somebody holds a reference to it.
-/

variable {P : Type*} [DecidableEq P]

/-- Each count is the number of references. -/
def Counted (counts : P → ℕ) (owners : List P) : Prop := ∀ p, counts p = owners.count p

namespace Counted

variable {counts : P → ℕ} {owners owners' : List P} {p : P}

theorem pos_iff (h : Counted counts owners) : 0 < counts p ↔ p ∈ owners := by
  rw [h p, List.count_pos_iff]

theorem perm (h : Counted counts owners) (hperm : owners.Perm owners') : Counted counts owners' :=
  fun p => (h p).trans (hperm.count_eq p)

/-- One more reference to an address. -/
theorem clone (h : Counted counts owners) (p : P) :
    Counted (Function.update counts p (counts p + 1)) (p :: owners) := by
  intro q
  rcases eq_or_ne q p with rfl | hne
  · rw [Function.update_self, List.count_cons_self, h q]
  · rw [Function.update_of_ne hne, List.count_cons_of_ne hne.symm, h q]

/-- A reference is given up. -/
theorem drop (h : Counted counts owners) (p : P) :
    Counted (Function.update counts p (counts p - 1)) (owners.erase p) := by
  intro q
  rcases eq_or_ne q p with rfl | hne
  · rw [Function.update_self, List.count_erase_self, h q]
  · rw [Function.update_of_ne hne, List.count_erase_of_ne hne, h q]

end Counted
