import Mathlib.Data.Int.Basic
import Mathlib.Tactic

/-!
# Sums of 64-bit signed integers

A language with fixed-width integers has two ways to go on when a sum or a difference is no value of
the type: it panics, or it wraps modulo `2 ^ 64`. `Int64.addWith` and `Int64.subWith` are the
operations of either kind. Both return the exact result when it is in range, and the result modulo
`2 ^ 64` whenever they return.
-/

/-- What an operation does when its result is out of range. -/
inductive OnOverflow
  | panics
  | wraps
  deriving DecidableEq, Repr

namespace Int64

/-- `n` is a value of the type. -/
def InRange (n : ℤ) : Prop := -2 ^ 63 ≤ n ∧ n < 2 ^ 63

instance (n : ℤ) : Decidable (InRange n) := inferInstanceAs (Decidable (_ ∧ _))

/-- The sum of `a` and `b`. -/
def addWith (mode : OnOverflow) (a b : Int64) : Option Int64 :=
  if mode = .panics ∧ ¬ InRange (a.toInt + b.toInt) then none else some (a + b)

/-- The difference of `a` and `b`. -/
def subWith (mode : OnOverflow) (a b : Int64) : Option Int64 :=
  if mode = .panics ∧ ¬ InRange (a.toInt - b.toInt) then none else some (a - b)

variable {mode : OnOverflow} {a b c : Int64} {n : ℕ}

theorem inRange_toInt (a : Int64) : InRange a.toInt := ⟨a.le_toInt, a.toInt_lt⟩

/-- A difference that exists is the difference modulo `2 ^ 64`. -/
theorem eq_sub_of_subWith (h : subWith mode a b = some c) : c = a - b := by
  unfold subWith at h
  split at h
  · cases h
  · exact (Option.some.inj h).symm

theorem addWith_panics_isSome_iff :
    (addWith .panics a b).isSome ↔ InRange (a.toInt + b.toInt) := by
  unfold addWith
  split
  · next hout => simp [hout.2]
  · next hin => simpa using hin

theorem subWith_panics_isSome_iff :
    (subWith .panics a b).isSome ↔ InRange (a.toInt - b.toInt) := by
  unfold subWith
  split
  · next hout => simp [hout.2]
  · next hin => simpa using hin

/-- A natural number that is converted loses what is above `2 ^ 64`, and is negative when what is
left is `2 ^ 63` or more. -/
theorem toInt_ofNat_eq (n : ℕ) :
    (ofNat n).toInt = if n % 2 ^ 64 < 2 ^ 63 then ((n % 2 ^ 64 : ℕ) : ℤ)
      else ((n % 2 ^ 64 : ℕ) : ℤ) - 2 ^ 64 := by
  have hsize : Int64.size = 2 ^ 64 := rfl
  rw [toInt_ofNat', hsize, Int.bmod_def]
  split <;> split <;> omega

theorem ofNat_residue (n : ℕ) : ofNat (n % 2 ^ 64) = ofNat n := by
  apply Int64.toInt.inj
  rw [toInt_ofNat_eq, toInt_ofNat_eq, Nat.mod_mod]

/-- A difference is out of range when the numbers are on two sides of `2 ^ 63`, and less than that
apart. -/
theorem inRange_sub_ofNat_iff (m n : ℕ) :
    InRange ((ofNat m).toInt - (ofNat n).toInt) ↔
      (m % 2 ^ 64 < 2 ^ 63 → 2 ^ 63 ≤ n % 2 ^ 64 → m % 2 ^ 64 + 2 ^ 63 < n % 2 ^ 64) ∧
        (n % 2 ^ 64 < 2 ^ 63 → 2 ^ 63 ≤ m % 2 ^ 64 → n % 2 ^ 64 + 2 ^ 63 ≤ m % 2 ^ 64) := by
  rw [toInt_ofNat_eq, toInt_ofNat_eq, InRange]
  split <;> split <;> omega

/-- A sum is out of range when the numbers are on one side of `2 ^ 63`, and the sum is on the
other. -/
theorem inRange_add_ofNat_iff (m n : ℕ) :
    InRange ((ofNat m).toInt + (ofNat n).toInt) ↔
      (m % 2 ^ 64 < 2 ^ 63 → n % 2 ^ 64 < 2 ^ 63 → m % 2 ^ 64 + n % 2 ^ 64 < 2 ^ 63) ∧
        (2 ^ 63 ≤ m % 2 ^ 64 → 2 ^ 63 ≤ n % 2 ^ 64 →
          2 ^ 63 + 2 ^ 64 ≤ m % 2 ^ 64 + n % 2 ^ 64) := by
  rw [toInt_ofNat_eq, toInt_ofNat_eq, InRange]
  split <;> split <;> omega

/-- A difference of converted numbers is a converted number. -/
theorem ofNat_sub_ofNat (m n : ℕ) :
    ofNat m - ofNat n = ofNat ((m % 2 ^ 64 + 2 ^ 64 - n % 2 ^ 64) % 2 ^ 64) := by
  apply Int64.toInt.inj
  rw [toInt_sub, toInt_ofNat_eq, toInt_ofNat_eq, toInt_ofNat_eq, Int.bmod_def]
  split <;> split <;> split <;> split <;> omega

end Int64
