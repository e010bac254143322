import RapidLog.Lib.Int64

/-!
# Sums of unsigned integers

The values of an unsigned type of fixed width are the numbers below `range`. A sum or a difference
that is none of them panics or wraps modulo `range`, as the `OnOverflow` says.
-/

namespace Unsigned

/-- The sum of `a` and `b`. -/
def addWith (range : ℕ) (mode : OnOverflow) (a b : ℕ) : Option ℕ :=
  if a + b < range then some (a + b)
  else match mode with
    | .panics => none
    | .wraps => some ((a + b) % range)

/-- The difference of `a` and `b`. -/
def subWith (range : ℕ) (mode : OnOverflow) (a b : ℕ) : Option ℕ :=
  if b ≤ a then some (a - b)
  else match mode with
    | .panics => none
    | .wraps => some ((a + range - b) % range)

variable {range a b : ℕ} {mode : OnOverflow}

theorem addWith_of_lt (h : a + b < range) : addWith range mode a b = some (a + b) := if_pos h

theorem addWith_panics (h : range ≤ a + b) : addWith range .panics a b = none :=
  if_neg (not_lt.mpr h)

/-- A sum of two values wraps at most once. -/
theorem addWith_wraps (h : range ≤ a + b) (ha : a < range) (hb : b < range) :
    addWith range .wraps a b = some (a + b - range) := by
  have hmod : (a + b) % range = a + b - range := by
    rw [Nat.mod_eq_sub_mod h]
    exact Nat.mod_eq_of_lt (by omega)
  rw [addWith, if_neg (not_lt.mpr h), hmod]

theorem subWith_of_le (h : b ≤ a) : subWith range mode a b = some (a - b) := if_pos h

/-- The predecessor of zero is the greatest value. -/
theorem subWith_zero_one (h : 1 < range) : subWith range .wraps 0 1 = some (range - 1) := by
  have hmod : (0 + range - 1) % range = range - 1 := by
    rw [Nat.zero_add]
    exact Nat.mod_eq_of_lt (by omega)
  rw [subWith, if_neg (by decide), hmod]

end Unsigned
