import Mathlib.Data.List.Infix
import Mathlib.Tactic

/-!
# UTF-8 as lists of bytes

`encode` gives the bytes of a string and `decode` reads bytes back, or fails when they are not the
bytes of any string. A string whose bytes begin the bytes of another begins that one
(`isPrefix_of_encode_append`), so bytes cut off a string are a string exactly when the cut is at
the end of a character.

`IsLongestPrefix n s t` says that `t` is the longest prefix of `s` of at most `n` bytes.
-/

namespace Utf8

/-- The bytes of a string. -/
def encode (s : String) : List UInt8 := s.toList.flatMap String.utf8EncodeChar

/-- The string with these bytes. -/
def decode (bytes : List UInt8) : Option String := String.fromUTF8? bytes.toByteArray

@[simp]
theorem encode_empty : encode "" = [] := rfl

@[simp]
theorem encode_append (s t : String) : encode (s ++ t) = encode s ++ encode t := by
  simp [encode, String.toList_append]

theorem encode_ofList (cs : List Char) :
    encode (String.ofList cs) = cs.flatMap String.utf8EncodeChar := by
  simp [encode]

theorem toByteArray_eq (s : String) : s.toByteArray = (encode s).toByteArray := by
  rw [encode, ← List.utf8Encode, ← String.toByteArray_ofList, String.ofList_toList]

private theorem toByteArray_injective : Function.Injective List.toByteArray := by
  intro xs ys h
  have hdata := congrArg (fun b => b.data.toList) h
  simpa using hdata

/-- Different strings have different bytes. -/
theorem encode_injective : Function.Injective encode := by
  intro s t h
  rw [← String.toByteArray_inj, toByteArray_eq, toByteArray_eq, h]

/-- Reading back succeeds exactly on the bytes of a string. -/
theorem decode_eq_some_iff (bytes : List UInt8) (s : String) :
    decode bytes = some s ↔ bytes = encode s := by
  unfold decode String.fromUTF8?
  constructor
  · intro h
    split at h
    · cases h
      apply toByteArray_injective
      rw [← toByteArray_eq]
      rfl
    · cases h
  · rintro rfl
    have hvalid : (encode s).toByteArray.IsValidUTF8 := toByteArray_eq s ▸ s.isValidUTF8
    rw [dif_pos hvalid, Option.some.injEq, ← String.toByteArray_inj, toByteArray_eq s]
    rfl

@[simp]
theorem decode_encode (s : String) : decode (encode s) = some s :=
  (decode_eq_some_iff _ _).mpr rfl

/-- Every character takes one to four bytes. -/
theorem length_encode_singleton (c : Char) :
    0 < (encode (String.ofList [c])).length ∧ (encode (String.ofList [c])).length ≤ 4 := by
  rw [encode_ofList, List.flatMap_singleton, String.length_utf8EncodeChar]
  exact ⟨c.utf8Size_pos, c.utf8Size_le_four⟩

/-- Bytes of a string that begin the bytes of another. -/
theorem isPrefix_of_encode_append {s t : String} {rest : List UInt8}
    (h : encode t ++ rest = encode s) : t.toList <+: s.toList := by
  refine List.isPrefix_of_utf8Encode_append_eq_utf8Encode rest.toByteArray ?_
  have hbytes := congrArg List.toByteArray h
  rwa [List.toByteArray_append] at hbytes

/-- A byte below 128 belongs to the character with this code only. -/
theorem mem_utf8EncodeChar_iff {b : UInt8} (hb : b.toNat < 128) (c : Char) :
    b ∈ String.utf8EncodeChar c ↔ c.toNat = b.toNat := by
  have hbyte : ∀ n, n < 256 → (b = UInt8.ofNat n ↔ b.toNat = n) := by
    intro n hn
    rw [← UInt8.toNat_inj, UInt8.toNat_ofNat', Nat.mod_eq_of_lt hn]
  have hc : c.toNat = c.val.toNat := rfl
  fun_cases String.utf8EncodeChar c with
  | case1 v hv =>
    rw [List.mem_singleton, hbyte _ (by omega), hc]
    omega
  -- all bytes of a longer encoding are at least 128
  | case2 =>
    simp only [List.mem_cons, List.not_mem_nil, or_false]
    rw [hbyte _ (by omega), hbyte _ (by omega)]
    omega
  | case3 =>
    simp only [List.mem_cons, List.not_mem_nil, or_false]
    rw [hbyte _ (by omega), hbyte _ (by omega), hbyte _ (by omega)]
    omega
  | case4 =>
    simp only [List.mem_cons, List.not_mem_nil, or_false]
    rw [hbyte _ (by omega), hbyte _ (by omega), hbyte _ (by omega), hbyte _ (by omega)]
    omega

/-- A byte below 128 is in the bytes of a string exactly when its character is in the string. -/
theorem mem_encode_iff {b : UInt8} (hb : b.toNat < 128) (s : String) :
    b ∈ encode s ↔ ∃ c ∈ s.toList, c.toNat = b.toNat := by
  simp only [encode, List.mem_flatMap, mem_utf8EncodeChar_iff hb]

/-- `t` is the longest prefix of `s` that takes at most `n` bytes. -/
structure IsLongestPrefix (n : ℕ) (s t : String) : Prop where
  isPrefix : t.toList <+: s.toList
  fits : (encode t).length ≤ n
  longest : ∀ t' : String, t'.toList <+: s.toList → (encode t').length ≤ n →
    t'.toList <+: t.toList

namespace IsLongestPrefix

variable {n : ℕ} {s t t' : String}

/-- There is only one longest prefix. -/
theorem unique (h : IsLongestPrefix n s t) (h' : IsLongestPrefix n s t') : t = t' := by
  have hle := h.longest t' h'.isPrefix h'.fits
  have hge := h'.longest t h.isPrefix h.fits
  exact String.toList_inj.mp (hge.eq_of_length (le_antisymm hge.length_le hle.length_le))

/-- A string that fits is its own longest prefix. -/
theorem self (h : (encode s).length ≤ n) : IsLongestPrefix n s s :=
  ⟨List.prefix_refl _, h, fun _ hpre _ => hpre⟩

/-- A prefix that fills the budget is the longest one. -/
theorem of_length_eq (hpre : t.toList <+: s.toList) (hlen : (encode t).length = n) :
    IsLongestPrefix n s t := by
  refine ⟨hpre, hlen.le, fun t' hpre' hfits => ?_⟩
  rcases List.prefix_or_prefix_of_prefix hpre' hpre with h | ⟨cs, h⟩
  · exact h
  · -- the longer one would need the bytes of one more character
    have hbytes : encode t' = encode t ++ cs.flatMap String.utf8EncodeChar := by
      rw [encode, ← h, List.flatMap_append]
      rfl
    have hnil : cs = [] := by
      cases cs with
      | nil => rfl
      | cons c cs =>
        have hpos := c.utf8Size_pos
        rw [hbytes, List.length_append, List.flatMap_cons, List.length_append,
          String.length_utf8EncodeChar] at hfits
        omega
    rw [← h, hnil, List.append_nil]

end IsLongestPrefix

end Utf8
