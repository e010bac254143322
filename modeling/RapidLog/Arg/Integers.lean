import Mathlib
import RapidLog.Arg.Encode
import RapidLog.Arg.Numbers

/-!
# Integers that come back

An integer is converted to 128 bits and the first bytes of these are written, as many as its type
has. `format_payload` reads that many bytes back. On a little-endian target the first bytes are the
low ones, so every integer of at most 64 bits is printed as it was logged. On a big-endian target
they are the high ones, which only tell the sign.

The interpreter has no 128-bit numbers and prints 0 for every value of `i128` and `u128`. On a
32-bit target a `usize` is written as eight bytes under a schema for four.
-/

namespace RapidLog

section Target

variable [Target]

/-! ### The bytes of an integer -/

/-- What the first bytes of a 128-bit number say. -/
theorem fromNeBytes_take {size : ℕ} (hsize : size ≤ 16) (n : ℕ) :
    fromNeBytes ((toNeBytes 16 n).take size) =
      match Target.endian with
      | .little => n % 256 ^ size
      | .big => n / 256 ^ (16 - size) % 256 ^ size := by
  unfold fromNeBytes toNeBytes
  cases Target.endian with
  | little => exact Endian.ofBytes_take_little hsize n
  | big => exact Endian.ofBytes_take_big hsize n

omit [Target] in
theorem pow_256 (size : ℕ) : 256 ^ size = 2 ^ (8 * size) := by
  rw [pow_mul]
  norm_num

section Signed

variable {size : ℕ} (v : BitVec (8 * size))

omit [Target] in
/-- The low bytes of the sign extension are the number. -/
theorem asSigned_low (hsize : size ≤ 16) :
    asSigned size ((v.signExtend 128).toNat % 256 ^ size) = v.toInt := by
  have hle : 8 * size ≤ 128 := by omega
  have hmod : (v.signExtend 128).toNat % 2 ^ (8 * size) = v.toNat := by
    obtain ⟨m, hm⟩ : 2 ^ (8 * size) ∣ 2 ^ 128 - 2 ^ (8 * size) :=
      Nat.dvd_sub (pow_dvd_pow 2 hle) dvd_rfl
    rw [BitVec.toNat_signExtend, BitVec.toNat_setWidth_of_le hle]
    split
    · rw [hm, Nat.add_mul_mod_self_left, Nat.mod_eq_of_lt v.isLt]
    · rw [Nat.add_zero, Nat.mod_eq_of_lt v.isLt]
  rw [asSigned, pow_256, hmod, BitVec.ofNat_toNat, BitVec.setWidth_eq]

omit [Target] in
/-- The high bytes of the sign extension are the sign. -/
theorem asSigned_high (hpos : 0 < size) (hsize : size ≤ 8) :
    asSigned size ((v.signExtend 128).toNat / 256 ^ (16 - size) % 256 ^ size) =
      if v.toInt < 0 then -1 else 0 := by
  have hle : 8 * size ≤ 128 := by omega
  have hlt : v.toNat < 2 ^ (8 * size) := v.isLt
  have hpow : 2 ^ (8 * size) * 2 ^ (8 * (16 - size)) = 2 ^ 128 := by
    rw [← pow_add]
    congr 1
    omega
  have hmono : 2 ^ (8 * size) ≤ 2 ^ (8 * (16 - size)) :=
    Nat.pow_le_pow_right (by norm_num) (by omega)
  have hmsb : v.msb = decide (v.toInt < 0) := BitVec.msb_eq_toInt
  rw [asSigned, pow_256, pow_256, BitVec.toNat_signExtend, BitVec.toNat_setWidth_of_le hle, hmsb]
  by_cases hneg : v.toInt < 0
  · -- `2 ^ 128 - 2 ^ w + v` has ones in its high bits
    have hdiv : (v.toNat + (2 ^ 128 - 2 ^ (8 * size))) / 2 ^ (8 * (16 - size)) =
        2 ^ (8 * size) - 1 := by
      obtain ⟨p, hp⟩ : ∃ p, 2 ^ (8 * size) = p + 1 := ⟨2 ^ (8 * size) - 1, by omega⟩
      rw [hp] at hlt hpow hmono ⊢
      rw [add_one_mul] at hpow
      rw [← hpow, Nat.add_sub_cancel]
      refine Nat.div_eq_of_lt_le (by omega) ?_
      rw [add_one_mul]
      omega
    have hones : BitVec.ofNat (8 * size) ((2 ^ (8 * size) - 1) % 2 ^ (8 * size)) =
        BitVec.allOnes (8 * size) := by
      apply BitVec.eq_of_toNat_eq
      simp
    rw [if_pos hneg, if_pos (by simpa using hneg), hdiv, hones, BitVec.toInt_allOnes,
      if_pos (by omega)]
  · have hdiv : v.toNat / 2 ^ (8 * (16 - size)) = 0 := Nat.div_eq_of_lt (hlt.trans_le hmono)
    rw [if_neg hneg, if_neg (by simpa using hneg), Nat.add_zero, hdiv]
    simp

end Signed

omit [Target] in
theorem toNat_setWidth_low {size : ℕ} (hsize : size ≤ 16) (v : BitVec (8 * size)) :
    (v.setWidth 128).toNat % 256 ^ size = v.toNat := by
  rw [BitVec.toNat_setWidth_of_le (by omega), pow_256, Nat.mod_eq_of_lt v.isLt]

omit [Target] in
theorem toNat_setWidth_high {size : ℕ} (hsize : size ≤ 8) (v : BitVec (8 * size)) :
    (v.setWidth 128).toNat / 256 ^ (16 - size) % 256 ^ size = 0 := by
  have hmono : 256 ^ size ≤ 256 ^ (16 - size) := Nat.pow_le_pow_right (by norm_num) (by omega)
  have hlt : v.toNat < 256 ^ size := by
    rw [pow_256]
    exact v.isLt
  rw [BitVec.toNat_setWidth_of_le (by omega), Nat.div_eq_of_lt (hlt.trans_le hmono), Nat.zero_mod]

/-! ### Integers as the interpreter prints them -/

theorem length_take_toNeBytes {size : ℕ} (hsize : size ≤ 16) (n : ℕ) :
    ((toNeBytes 16 n).take size).length = size := by
  rw [List.length_take, length_toNeBytes, Nat.min_eq_left hsize]

/-- The number that is printed for a signed integer of type `i8` to `i128`. -/
def printedSigned (size : ℕ) (v : ℤ) : ℤ :=
  if 8 < size then 0
  else
    match Target.endian with
    | .little => v
    | .big => if v < 0 then -1 else 0

/-- The number that is printed for an unsigned integer of type `u8` to `u128`. -/
def printedUnsigned (size v : ℕ) : ℕ :=
  if 8 < size then 0
  else
    match Target.endian with
    | .little => v
    | .big => 0

variable [FloatDisplay]

theorem formatPayload_signedInt {k : ℕ} (hk : 1 ≤ k ∧ k ≤ 5) (v : BitVec (8 * sizeForK k))
    (t : List UInt8) (tables : List (List UInt8)) (ufs : List UserFormatter) :
    formatPayload (Encode.signedInt k).schema
        ((toNeBytes 16 (v.signExtend 128).toNat).take (sizeForK k) ++ t) tables ufs =
      some (toString (printedSigned (sizeForK k) v.toInt), sizeForK k) := by
  have hop : category (withCode opSignedInt (.ofNat k)) = .signedInt ∧
      sizeCode (withCode opSignedInt (.ofNat k)) = k := by
    obtain ⟨h1, h5⟩ := hk
    interval_cases k <;> decide
  have hsize : 0 < sizeForK k ∧ sizeForK k ≤ 16 := by
    obtain ⟨h1, h5⟩ := hk
    interval_cases k <;> decide
  have hlen := length_take_toNeBytes hsize.2 (v.signExtend 128).toNat
  have hlong : ¬ ((toNeBytes 16 (v.signExtend 128).toNat).take (sizeForK k) ++ t).length <
      sizeForK k := by
    rw [List.length_append, hlen]
    omega
  have hread : readSignedNe ((toNeBytes 16 (v.signExtend 128).toNat).take (sizeForK k) ++ t) k =
      some (printedSigned (sizeForK k) v.toInt) := by
    unfold printedSigned
    by_cases h8 : sizeForK k ≤ 8
    · rw [readSignedNe_append hlen h8, if_neg (by omega), fromNeBytes_take hsize.2]
      cases Target.endian with
      | little => exact congrArg some (asSigned_low v hsize.2)
      | big => exact congrArg some (asSigned_high v hsize.1 h8)
    · rw [readSignedNe_of_lt (not_le.mp h8), if_pos (not_le.mp h8)]
  rw [formatPayload_eq]
  simp only [Encode.signedInt, formatStep, hop.1, hop.2, if_neg hlong, hread]
  rfl

theorem formatPayload_unsignedInt {k : ℕ} (hk : 1 ≤ k ∧ k ≤ 5) (v : BitVec (8 * sizeForK k))
    (t : List UInt8) (tables : List (List UInt8)) (ufs : List UserFormatter) :
    formatPayload (Encode.unsignedInt k).schema
        ((toNeBytes 16 (v.setWidth 128).toNat).take (sizeForK k) ++ t) tables ufs =
      some (toString (printedUnsigned (sizeForK k) v.toNat), sizeForK k) := by
  have hop : category (withCode opUnsignedInt (.ofNat k)) = .unsignedInt ∧
      sizeCode (withCode opUnsignedInt (.ofNat k)) = k := by
    obtain ⟨h1, h5⟩ := hk
    interval_cases k <;> decide
  have hsize : sizeForK k ≤ 16 := by
    obtain ⟨h1, h5⟩ := hk
    interval_cases k <;> decide
  have hlen := length_take_toNeBytes hsize (v.setWidth 128).toNat
  have hlong : ¬ ((toNeBytes 16 (v.setWidth 128).toNat).take (sizeForK k) ++ t).length <
      sizeForK k := by
    rw [List.length_append, hlen]
    omega
  have hread : readUnsignedNe ((toNeBytes 16 (v.setWidth 128).toNat).take (sizeForK k) ++ t) k =
      some (printedUnsigned (sizeForK k) v.toNat) := by
    unfold printedUnsigned
    by_cases h8 : sizeForK k ≤ 8
    · rw [readUnsignedNe_append hlen h8, if_neg (by omega), fromNeBytes_take hsize]
      cases Target.endian with
      | little => exact congrArg some (toNat_setWidth_low hsize v)
      | big => exact congrArg some (toNat_setWidth_high h8 v)
    · rw [readUnsignedNe_of_lt (not_le.mp h8), if_pos (not_le.mp h8)]
  rw [formatPayload_eq]
  simp only [Encode.unsignedInt, formatStep, hop.1, hop.2, if_neg hlong, hread]
  rfl

/-! ### Round trips -/

/-- `encode_to` writes exactly `encoded_size` bytes, and these are printed as `text` and consumed
whatever follows them. -/
def Encode.ComesBack (e : Encode) (v : e.Self) (text : String) (t : List UInt8)
    (tables : List (List UInt8)) (ufs : List UserFormatter) : Prop :=
  ∀ buf, e.encodedSize v ≤ buf.length →
    ∃ buf', (e.encodeTo v).run buf = some (buf', e.encodedSize v) ∧
      buf'.drop (e.encodedSize v) = buf.drop (e.encodedSize v) ∧
      formatPayload e.schema (buf'.take (e.encodedSize v) ++ t) tables ufs =
        some (text, e.encodedSize v)

theorem comesBack_iff {e : Encode} {v : e.Self} {bytes t : List UInt8} {text : String}
    {tables : List (List UInt8)} {ufs : List UserFormatter}
    (hcopy : e.encodeTo v = .copy bytes) (hlen : bytes.length = e.encodedSize v) :
    e.ComesBack v text t tables ufs ↔
      formatPayload e.schema (bytes ++ t) tables ufs = some (text, e.encodedSize v) := by
  have hrun : ∀ buf, e.encodedSize v ≤ buf.length → (e.encodeTo v).run buf =
      some (bytes ++ buf.drop (e.encodedSize v), e.encodedSize v) := by
    intro buf hbuf
    rw [hcopy, SliceWriter.copy_run (hlen.trans_le hbuf), hlen]
  have htake : ∀ rest, (bytes ++ rest).take (e.encodedSize v) = bytes := fun rest =>
    List.take_left' hlen
  constructor
  · intro h
    obtain ⟨buf', hrun', -, hformat⟩ := h bytes hlen.ge
    rw [hrun bytes hlen.ge] at hrun'
    cases hrun'
    rwa [htake] at hformat
  · intro hformat buf hbuf
    refine ⟨_, hrun buf hbuf, List.drop_left' hlen, ?_⟩
    rwa [htake]

section Types

variable {k : ℕ} {t : List UInt8} {tables : List (List UInt8)} {ufs : List UserFormatter}

theorem signedInt_comesBack_iff (hk : 1 ≤ k ∧ k ≤ 5) (v : BitVec (8 * sizeForK k)) :
    (Encode.signedInt k).ComesBack v (toString v.toInt) t tables ufs ↔
      v.toInt = 0 ∨ sizeForK k ≤ 8 ∧ (Target.endian = .little ∨ v.toInt = -1) := by
  have hsize : sizeForK k ≤ 16 := by
    have := sizeForK_cases k
    omega
  refine (comesBack_iff rfl (length_take_toNeBytes hsize _)).trans ?_
  rw [formatPayload_signedInt hk]
  have htext : ∀ a b : ℤ, toString a = toString b ↔ a = b := fun a b => Int.repr_inj
  simp only [Option.some.injEq, Prod.mk.injEq, htext, Encode.signedInt, and_true, printedSigned]
  split
  · omega
  · cases Target.endian with
    | little =>
      simp only [true_or, and_true, true_iff]
      omega
    | big =>
      simp only [reduceCtorEq, false_or]
      split <;> omega

theorem unsignedInt_comesBack_iff (hk : 1 ≤ k ∧ k ≤ 5) (v : BitVec (8 * sizeForK k)) :
    (Encode.unsignedInt k).ComesBack v (toString v.toNat) t tables ufs ↔
      v.toNat = 0 ∨ sizeForK k ≤ 8 ∧ Target.endian = .little := by
  have hsize : sizeForK k ≤ 16 := by
    have := sizeForK_cases k
    omega
  refine (comesBack_iff rfl (length_take_toNeBytes hsize _)).trans ?_
  rw [formatPayload_unsignedInt hk]
  have htext : ∀ a b : ℕ, toString a = toString b ↔ a = b := fun a b => Nat.repr_inj
  simp only [Option.some.injEq, Prod.mk.injEq, htext, Encode.unsignedInt, and_true,
    printedUnsigned]
  split
  · omega
  · cases Target.endian with
    | little =>
      simp only [and_true, true_iff]
      omega
    | big =>
      simp only [reduceCtorEq, and_false, or_false]
      omega

/-- A `usize` is a `u64` on a 64-bit target. On a 32-bit one its schema takes half of its bytes. -/
theorem usize_comesBack_iff (v : BitVec Encode.usizeBits) :
    Encode.usize.ComesBack v (toString v.toNat) t tables ufs ↔
      Target.pointerWidth = .w64 ∧ (v.toNat = 0 ∨ Target.endian = .little) := by
  set bytes := (toNeBytes 16 ((v.setWidth 64).setWidth 128).toNat).take 8
  have hlen : bytes.length = 8 := length_take_toNeBytes (by decide) _
  refine (@comesBack_iff _ _ Encode.usize v bytes t _ tables ufs rfl hlen).trans ?_
  cases hwidth : Target.pointerWidth with
  | w64 =>
    have hbits : Encode.usizeBits = 64 := by rw [Encode.usizeBits, hwidth]
    have hschema : Encode.usize.schema = (Encode.unsignedInt 4).schema :=
      if_neg (by rw [hbits]; decide)
    have hnat : (v.setWidth 64).toNat = v.toNat :=
      BitVec.toNat_setWidth_of_le (by rw [hbits])
    have hu64 := @unsignedInt_comesBack_iff _ _ 4 t tables ufs (by decide) (v.setWidth 64)
    have hcopy := @comesBack_iff _ _ (Encode.unsignedInt 4) (v.setWidth 64) _ t
      (toString (v.setWidth 64).toNat) tables ufs rfl hlen
    rw [hschema, ← hnat]
    refine (hcopy.symm.trans hu64).trans ?_
    simp only [sizeForK, le_refl, true_and]
  | w32 =>
    have hbits : Encode.usizeBits = 32 := by rw [Encode.usizeBits, hwidth]
    have hschema : Encode.usize.schema = [withCode opUnsignedInt 3] := if_pos hbits
    -- eight bytes are written and four are read
    have hop : category (withCode opUnsignedInt 3) = .unsignedInt ∧
        sizeCode (withCode opUnsignedInt 3) = 3 := by decide
    have hlong : sizeForK 3 ≤ (bytes ++ t).length := by
      rw [List.length_append, hlen]
      exact Nat.le_add_right_of_le (by decide)
    obtain ⟨val, hval, -⟩ := readUnsignedNe_of_le hlong
    have hformat : formatPayload [withCode opUnsignedInt 3] (bytes ++ t) tables ufs =
        some (toString val, 4) := by
      rw [formatPayload_eq]
      simp only [formatStep, hop.1, hop.2, if_neg (not_lt.mpr hlong), hval]
      rfl
    have hsize : Encode.usize.encodedSize v = 8 := rfl
    rw [hschema, hformat, hsize]
    simp

end Types

/-! ### The integer types -/

end Target

inductive IntType
  | i8 | i16 | i32 | i64 | i128
  | u8 | u16 | u32 | u64 | u128
  | usize
  deriving DecidableEq, Repr

namespace IntType

variable [Target]

def encode : IntType → Encode
  | i8 => .i8
  | i16 => .i16
  | i32 => .i32
  | i64 => .i64
  | i128 => .i128
  | u8 => .u8
  | u16 => .u16
  | u32 => .u32
  | u64 => .u64
  | u128 => .u128
  | usize => .usize

/-- The number that a value stands for. -/
def value : (ty : IntType) → ty.encode.Self → ℤ
  | i8, v => (v : BitVec 8).toInt
  | i16, v => (v : BitVec 16).toInt
  | i32, v => (v : BitVec 32).toInt
  | i64, v => (v : BitVec 64).toInt
  | i128, v => (v : BitVec 128).toInt
  | u8, v => (v : BitVec 8).toNat
  | u16, v => (v : BitVec 16).toNat
  | u32, v => (v : BitVec 32).toNat
  | u64, v => (v : BitVec 64).toNat
  | u128, v => (v : BitVec 128).toNat
  | usize, v => (v : BitVec Encode.usizeBits).toNat

/-- When a number of this type is printed as it was logged. -/
def Kept (ty : IntType) (n : ℤ) : Prop :=
  (ty = usize → Target.pointerWidth = .w64) ∧
    (n = 0 ∨ (ty ≠ i128 ∧ ty ≠ u128) ∧ (Target.endian = .little ∨ n = -1))

variable {ty : IntType} {n : ℤ}

theorem kept_iff (hty : ty ∉ [i128, u128, usize]) :
    ty.Kept n ↔ n = 0 ∨ (Target.endian = .little ∨ n = -1) := by
  simp only [List.mem_cons, List.not_mem_nil, or_false, not_or] at hty
  simp only [Kept, hty, ne_eq, not_false_eq_true, true_and, false_implies, and_self]

theorem kept_iff_zero (h128 : ty = i128 ∨ ty = u128) : ty.Kept n ↔ n = 0 := by
  rcases h128 with rfl | rfl <;> simp [Kept]

end IntType

section Target

variable [Target] [FloatDisplay] {t : List UInt8} {tables : List (List UInt8)}
  {ufs : List UserFormatter}

/-- An integer is written in `encoded_size` bytes, printed as its decimal text and consumed whole
exactly when it is `Kept`: on little-endian targets every number of a type of at most 64 bits, on
big-endian ones 0 and -1 of these, and only 0 of a 128-bit type; a `usize` only with 64 bits. -/
theorem int_comesBack_iff (ty : IntType) (v : ty.encode.Self) (t : List UInt8)
    (tables : List (List UInt8)) (ufs : List UserFormatter) :
    ty.encode.ComesBack v (toString (ty.value v)) t tables ufs ↔ ty.Kept (ty.value v) := by
  have hsigned : ∀ k, 1 ≤ k → k ≤ 4 → ∀ v : BitVec (8 * sizeForK k),
      (Encode.signedInt k).ComesBack v (toString v.toInt) t tables ufs ↔
        v.toInt = 0 ∨ (Target.endian = .little ∨ v.toInt = -1) := by
    intro k h1 h4 v
    rw [signedInt_comesBack_iff ⟨h1, by omega⟩ v]
    interval_cases k <;> simp [sizeForK]
  have hunsigned : ∀ k, 1 ≤ k → k ≤ 4 → ∀ v : BitVec (8 * sizeForK k),
      (Encode.unsignedInt k).ComesBack v (toString (v.toNat : ℤ)) t tables ufs ↔
        (v.toNat : ℤ) = 0 ∨ (Target.endian = .little ∨ (v.toNat : ℤ) = -1) := by
    intro k h1 h4 v
    refine (unsignedInt_comesBack_iff ⟨h1, by omega⟩ v).trans ?_
    interval_cases k <;> simp [sizeForK]
  cases ty with
  | i8 => exact (hsigned 1 (by decide) (by decide) v).trans (IntType.kept_iff (by decide)).symm
  | i16 => exact (hsigned 2 (by decide) (by decide) v).trans (IntType.kept_iff (by decide)).symm
  | i32 => exact (hsigned 3 (by decide) (by decide) v).trans (IntType.kept_iff (by decide)).symm
  | i64 => exact (hsigned 4 (by decide) (by decide) v).trans (IntType.kept_iff (by decide)).symm
  | u8 => exact (hunsigned 1 (by decide) (by decide) v).trans (IntType.kept_iff (by decide)).symm
  | u16 => exact (hunsigned 2 (by decide) (by decide) v).trans (IntType.kept_iff (by decide)).symm
  | u32 => exact (hunsigned 3 (by decide) (by decide) v).trans (IntType.kept_iff (by decide)).symm
  | u64 => exact (hunsigned 4 (by decide) (by decide) v).trans (IntType.kept_iff (by decide)).symm
  | i128 =>
    refine (signedInt_comesBack_iff (k := 5) (by decide) v).trans ?_
    rw [IntType.kept_iff_zero (.inl rfl)]
    exact or_iff_left fun h => absurd h.1 (by decide)
  | u128 =>
    refine (unsignedInt_comesBack_iff (k := 5) (by decide) v).trans ?_
    rw [IntType.kept_iff_zero (.inr rfl)]
    exact (or_iff_left fun h => absurd h.1 (by decide)).trans Int.natCast_eq_zero.symm
  | usize =>
    refine (usize_comesBack_iff v).trans ?_
    have hvalue : IntType.value .usize v = ((v : BitVec Encode.usizeBits).toNat : ℤ) := rfl
    simp only [IntType.Kept, hvalue, Int.natCast_eq_zero, ne_eq, reduceCtorEq,
      not_false_eq_true, and_self, true_and, or_false, forall_const]

omit [Target] [FloatDisplay] in
/-- The `i128` 5 is printed as 0. -/
theorem i128_comesBack_as_zero :
    letI : Target := x86_64
    letI : FloatDisplay := noFloats
    IntType.i128.value (5 : BitVec 128) = 5 ∧
      ((IntType.i128.encode.encodeTo (5 : BitVec 128)).run (List.replicate 16 0)).bind
        (fun r => formatPayload IntType.i128.encode.schema r.1 [] []) = some ("0", 16) := by
  decide +kernel

end Target

end RapidLog
