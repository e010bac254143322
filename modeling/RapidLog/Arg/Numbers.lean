import RapidLog.Arg

/-!
# Numbers in a payload

What `read_unsigned_ne` and `read_signed_ne` give for the bytes of a number: the number itself for
sizes up to eight bytes, and 0 for sixteen.
-/

namespace RapidLog

open Slice

/-- A number that `read_unsigned_ne` can give for a size code. -/
def Readable (k v : ℕ) : Prop := v = 0 ∨ sizeForK k ≤ 8 ∧ v < 256 ^ sizeForK k

namespace Readable

variable {k v : ℕ}

/-- A readable number fits in its bytes. -/
theorem lt (h : Readable k v) : v < 256 ^ sizeForK k := by
  rcases h with rfl | ⟨-, h⟩
  · positivity
  · exact h

/-- A smaller number is readable, too. -/
theorem mono {w : ℕ} (h : Readable k v) (hle : w ≤ v) : Readable k w := by
  rcases h with rfl | ⟨hk, h⟩
  · exact .inl (Nat.le_zero.mp hle)
  · exact .inr ⟨hk, hle.trans_lt h⟩

end Readable

/-- The sizes that a size code can stand for. -/
theorem sizeForK_cases (k : ℕ) :
    sizeForK k = 0 ∨ sizeForK k = 1 ∨ sizeForK k = 2 ∨ sizeForK k = 4 ∨ sizeForK k = 8 ∨
      sizeForK k = 16 := by
  unfold sizeForK
  split <;> simp

section Target

variable [Target]

/-- What a number read from some bytes can be at most. -/
theorem fromNeBytes_lt (bytes : List UInt8) : fromNeBytes bytes < 256 ^ bytes.length :=
  Endian.ofBytes_lt _ bytes

/-- A single byte is read the same in both byte orders. -/
theorem fromNeBytes_singleton (b : UInt8) : fromNeBytes [b] = b.toNat := by
  unfold fromNeBytes Endian.ofBytes
  cases Target.endian <;> simp [ofLeBytes]

/-- Reading from enough bytes gives a readable number. -/
theorem readUnsignedNe_of_le {buf : List UInt8} {k : ℕ} (h : sizeForK k ≤ buf.length) :
    ∃ v, readUnsignedNe buf k = some v ∧ Readable k v := by
  have hslice : ∀ n, n ≤ buf.length →
      ∃ v, (slice buf 0 n).map fromNeBytes = some v ∧ v < 256 ^ n := by
    intro n hn
    have hlen : ((buf.drop 0).take (n - 0)).length = n := by simpa using hn
    refine ⟨fromNeBytes ((buf.drop 0).take (n - 0)), ?_, ?_⟩
    · rw [slice, if_pos ⟨Nat.zero_le n, hn⟩]
      rfl
    · simpa only [hlen] using fromNeBytes_lt ((buf.drop 0).take (n - 0))
  have hread : ∀ n, n ≤ buf.length → n ≤ 8 →
      ∃ v, (slice buf 0 n).map fromNeBytes = some v ∧ (v = 0 ∨ n ≤ 8 ∧ v < 256 ^ n) := by
    intro n hn hle
    obtain ⟨v, hv, hlt⟩ := hslice n hn
    exact ⟨v, hv, .inr ⟨hle, hlt⟩⟩
  unfold readUnsignedNe Readable
  rcases sizeForK_cases k with hk | hk | hk | hk | hk | hk <;> rw [hk] at h ⊢
  · exact ⟨0, rfl, .inl rfl⟩
  · refine ⟨_, rfl, .inr ⟨by norm_num, ?_⟩⟩
    cases buf with
    | nil => exact Nat.succ_pos 255
    | cons b buf => exact b.toNat_lt
  · exact hread 2 h (by norm_num)
  · exact hread 4 h (by norm_num)
  · exact hread 8 h (by norm_num)
  · -- sixteen bytes are taken for zero
    exact ⟨0, rfl, .inl rfl⟩

/-- A number is read from the bytes in front. -/
theorem readUnsignedNe_append {bytes : List UInt8} {k : ℕ} (hlen : bytes.length = sizeForK k)
    (hk : sizeForK k ≤ 8) (rest : List UInt8) :
    readUnsignedNe (bytes ++ rest) k = some (fromNeBytes bytes) := by
  have hslice : ∀ n, bytes.length = n →
      (slice (bytes ++ rest) 0 n).map fromNeBytes = some (fromNeBytes bytes) := fun n hn =>
    congrArg (Option.map _) (@slice_append _ [] bytes rest _ _ rfl (hn ▸ Nat.zero_add _))
  unfold readUnsignedNe
  rcases sizeForK_cases k with h | h | h | h | h | h <;> rw [h] at hlen hk ⊢
  · rw [List.length_eq_zero_iff.mp hlen]
    unfold fromNeBytes Endian.ofBytes
    cases Target.endian <;> rfl
  · obtain ⟨b, rfl⟩ := List.length_eq_one_iff.mp hlen
    simp [fromNeBytes_singleton]
  · exact hslice 2 hlen
  · exact hslice 4 hlen
  · exact hslice 8 hlen
  · omega

/-- A signed number is read from the bytes in front. -/
theorem readSignedNe_append {bytes : List UInt8} {k : ℕ} (hlen : bytes.length = sizeForK k)
    (hk : sizeForK k ≤ 8) (rest : List UInt8) :
    readSignedNe (bytes ++ rest) k = some (asSigned (sizeForK k) (fromNeBytes bytes)) := by
  have hslice : ∀ n, bytes.length = n →
      (slice (bytes ++ rest) 0 n).map (fun bytes => asSigned n (fromNeBytes bytes)) =
        some (asSigned n (fromNeBytes bytes)) := fun n hn =>
    congrArg (Option.map _) (@slice_append _ [] bytes rest _ _ rfl (hn ▸ Nat.zero_add _))
  unfold readSignedNe
  rcases sizeForK_cases k with h | h | h | h | h | h <;> rw [h] at hlen hk ⊢
  · have hzero : ∀ n, asSigned 0 n = 0 := fun n => by simp [asSigned, BitVec.toInt_zero_length]
    exact congrArg some (hzero _).symm
  · obtain ⟨b, rfl⟩ := List.length_eq_one_iff.mp hlen
    simp [fromNeBytes_singleton]
  · exact hslice 2 hlen
  · exact hslice 4 hlen
  · exact hslice 8 hlen
  · omega

/-- Sixteen bytes are not read. -/
theorem readUnsignedNe_of_lt {k : ℕ} (hk : 8 < sizeForK k) (buf : List UInt8) :
    readUnsignedNe buf k = some 0 := by
  have hsize : sizeForK k = 16 := by
    have := sizeForK_cases k
    omega
  rw [readUnsignedNe, hsize]
  rfl

/-- Sixteen bytes are not read as a signed number either. -/
theorem readSignedNe_of_lt {k : ℕ} (hk : 8 < sizeForK k) (buf : List UInt8) :
    readSignedNe buf k = some 0 := by
  have hsize : sizeForK k = 16 := by
    have := sizeForK_cases k
    omega
  rw [readSignedNe, hsize]
  rfl

/-- Every readable number is read from its own bytes. -/
theorem readUnsignedNe_toNeBytes {k v : ℕ} (h : Readable k v) (rest : List UInt8) :
    readUnsignedNe (toNeBytes (sizeForK k) v ++ rest) k = some v := by
  by_cases hk : sizeForK k ≤ 8
  · rw [readUnsignedNe_append (length_toNeBytes _ _) hk, fromNeBytes_toNeBytes h.lt]
  · have hv : v = 0 := h.resolve_right fun h => hk h.1
    rw [hv, readUnsignedNe_of_lt (not_le.mp hk)]

end Target

end RapidLog
