import Mathlib.Data.Nat.Basic
import Mathlib.Tactic

/-!
# Fixed-width byte encodings of natural numbers

The bytes of a machine integer in a given byte order. `leBytes w n` writes the `w` least
significant base-256 digits of `n`, lowest first, so that a value of at least `256 ^ w` is cut
to its residue; `Endian.toBytes` and `Endian.ofBytes` put them in the order of a target.
-/

/-- The byte order of a target. -/
inductive Endian
  | little
  | big
  deriving DecidableEq, Repr

/-- The `w` low base-256 digits of `n`, least significant first. -/
def leBytes : ℕ → ℕ → List UInt8
  | 0, _ => []
  | w + 1, n => UInt8.ofNat n :: leBytes w (n / 256)

/-- The number whose base-256 digits, least significant first, are `bytes`. -/
def ofLeBytes : List UInt8 → ℕ
  | [] => 0
  | b :: bytes => b.toNat + 256 * ofLeBytes bytes

@[simp]
theorem length_leBytes (w n : ℕ) : (leBytes w n).length = w := by
  induction w generalizing n with
  | zero => rfl
  | succ w ih => simp [leBytes, ih]

/-- Reading back a `w`-byte encoding gives the residue modulo `256 ^ w`. -/
theorem ofLeBytes_leBytes (w n : ℕ) : ofLeBytes (leBytes w n) = n % 256 ^ w := by
  induction w generalizing n with
  | zero => simp [leBytes, ofLeBytes, Nat.mod_one]
  | succ w ih =>
    rw [leBytes, ofLeBytes, ih, pow_succ', Nat.mod_mul]
    simp

/-- Cutting an encoding short keeps the low digits. -/
theorem take_leBytes {k w : ℕ} (hk : k ≤ w) (n : ℕ) : (leBytes w n).take k = leBytes k n := by
  induction k generalizing w n with
  | zero => rfl
  | succ k ih =>
    obtain ⟨w, rfl⟩ : ∃ v, w = v + 1 := ⟨w - 1, by omega⟩
    rw [leBytes, List.take_succ_cons, ih (by omega), leBytes]

/-- The digits of a number are those of its residue and those of its quotient. -/
theorem leBytes_add (k w n : ℕ) :
    leBytes (k + w) n = leBytes k n ++ leBytes w (n / 256 ^ k) := by
  induction k generalizing n with
  | zero => simp [leBytes]
  | succ k ih =>
    rw [Nat.add_right_comm, leBytes, ih, leBytes, Nat.div_div_eq_div_mul, ← pow_succ']
    rfl

/-- A number read from `w` bytes is below `256 ^ w`. -/
theorem ofLeBytes_lt (bytes : List UInt8) : ofLeBytes bytes < 256 ^ bytes.length := by
  induction bytes with
  | nil => exact Nat.one_pos
  | cons b bytes ih =>
    have hb : b.toNat < 256 := b.toNat_lt
    rw [ofLeBytes, List.length_cons, pow_succ]
    omega

/-- The digits of the number that bytes stand for are these bytes. -/
theorem leBytes_ofLeBytes (bytes : List UInt8) :
    leBytes bytes.length (ofLeBytes bytes) = bytes := by
  induction bytes with
  | nil => rfl
  | cons b bytes ih =>
    have hb : b.toNat < 256 := b.toNat_lt
    have hdiv : (b.toNat + 256 * ofLeBytes bytes) / 256 = ofLeBytes bytes := by omega
    have hlow : UInt8.ofNat (b.toNat + 256 * ofLeBytes bytes) = b := by
      apply UInt8.toNat_inj.mp
      rw [UInt8.toNat_ofNat']
      omega
    rw [List.length_cons, ofLeBytes, leBytes, hlow, hdiv, ih]

namespace Endian

/-- The `w` bytes of `n` in this byte order. -/
def toBytes (e : Endian) (w n : ℕ) : List UInt8 :=
  match e with
  | little => leBytes w n
  | big => (leBytes w n).reverse

/-- The number read from `bytes` in this byte order. -/
def ofBytes (e : Endian) (bytes : List UInt8) : ℕ :=
  match e with
  | little => ofLeBytes bytes
  | big => ofLeBytes bytes.reverse

@[simp]
theorem length_toBytes (e : Endian) (w n : ℕ) : (e.toBytes w n).length = w := by
  cases e <;> simp [toBytes]

/-- Writing and reading in one byte order keeps the residue modulo `256 ^ w`. -/
theorem ofBytes_toBytes (e : Endian) (w n : ℕ) : e.ofBytes (e.toBytes w n) = n % 256 ^ w := by
  cases e <;> simp [ofBytes, toBytes, ofLeBytes_leBytes]

theorem ofBytes_lt (e : Endian) (bytes : List UInt8) :
    e.ofBytes bytes < 256 ^ bytes.length := by
  cases e with
  | little => exact ofLeBytes_lt bytes
  | big =>
    have hlt := ofLeBytes_lt bytes.reverse
    rwa [List.length_reverse] at hlt

/-- Reading and writing gives the bytes back. -/
theorem toBytes_ofBytes (e : Endian) (bytes : List UInt8) :
    e.toBytes bytes.length (e.ofBytes bytes) = bytes := by
  cases e with
  | little => exact leBytes_ofLeBytes bytes
  | big =>
    have hrev := leBytes_ofLeBytes bytes.reverse
    rw [List.length_reverse] at hrev
    rw [toBytes, ofBytes, hrev, List.reverse_reverse]

/-- The first `k` bytes in little-endian order are the low digits. -/
theorem ofBytes_take_little {k w : ℕ} (hk : k ≤ w) (n : ℕ) :
    little.ofBytes ((little.toBytes w n).take k) = n % 256 ^ k := by
  rw [toBytes, take_leBytes hk, ofBytes, ofLeBytes_leBytes]

/-- The first `k` bytes in big-endian order are the high digits. -/
theorem ofBytes_take_big {k w : ℕ} (hk : k ≤ w) (n : ℕ) :
    big.ofBytes ((big.toBytes w n).take k) = n / 256 ^ (w - k) % 256 ^ k := by
  have hsplit : leBytes w n = leBytes (w - k) n ++ leBytes k (n / 256 ^ (w - k)) := by
    rw [← leBytes_add, Nat.sub_add_cancel hk]
  rw [toBytes, hsplit, List.reverse_append, List.take_left' (by simp), ofBytes,
    List.reverse_reverse, ofLeBytes_leBytes]

/-- Two bytes, low byte first, are read as the number that they were written for in this order, or
in either one when they are equal. -/
theorem ofBytes_leBytes_two_iff (e : Endian) (n : ℕ) :
    e.ofBytes (leBytes 2 n) = n % 256 ^ 2 ↔ e = little ∨ n % 256 = n / 256 % 256 := by
  cases e with
  | little => simp [ofBytes, ofLeBytes_leBytes]
  | big =>
    have hbig : big.ofBytes (leBytes 2 n) = n / 256 % 256 + 256 * (n % 256) := by
      simp [ofBytes, leBytes, ofLeBytes]
    rw [hbig, or_iff_right (by decide)]
    omega

/-- A number that fits in `w` bytes is read back unchanged. -/
theorem ofBytes_toBytes_of_lt (e : Endian) {w n : ℕ} (h : n < 256 ^ w) :
    e.ofBytes (e.toBytes w n) = n := by
  rw [ofBytes_toBytes, Nat.mod_eq_of_lt h]

end Endian
