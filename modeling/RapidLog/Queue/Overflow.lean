import RapidLog.Queue.Framing

/-!
# Sizes that overflow

`push_encoded` adds the header and the padding to whatever size it is called with. Up to the length
that a slice can have nothing overflows (`pushEncodedUsize_of_lt`). Beyond it,

* a call whose sums panic, or whose temporary buffer would be too long, ends without a message, and
  so does one whose padded size alone wraps (`pushEncodedUsize_cases`);
* a call whose first sum wraps lends a slice that reaches past the chunk, or writes its header into
  an empty chunk (`pushEncodedUsize_outOfBounds`).
-/

namespace RapidLog

open Queue RingBuffer

namespace SpscProducer

variable [Target] {mode : OnOverflow} {R : Type} {r : Ring} {len : ℕ} {encode : EncodeFn R}

/-- Nothing overflows while the cache line can be added to the size. -/
theorem alignUpUsize_of_lt {n : ℕ} (h : n + cacheLine < usizeRange) :
    alignUpUsize mode n cacheLine = some (alignUp n cacheLine) := by
  have hle : 1 ≤ n + cacheLine := Nat.le_add_left 1 (n + 63)
  simp only [alignUpUsize, Unsigned.addWith_of_lt h, Unsigned.subWith_of_le hle,
    Option.bind_eq_bind, Option.bind_some]
  rfl

/-- A padding that wraps leaves nothing, unless the size is the last multiple of the cache line. -/
theorem alignUpUsize_wraps {n : ℕ} (hn : n < usizeRange) (h : usizeRange ≤ n + cacheLine) :
    alignUpUsize .wraps n cacheLine =
      some (if n + cacheLine = usizeRange then alignUp n cacheLine else 0) := by
  have hrange := usizeRange_le
  have hline : cacheLine = 64 := rfl
  simp only [alignUpUsize, Unsigned.addWith_wraps h hn (by omega), Option.bind_eq_bind,
    Option.bind_some]
  by_cases heq : n + cacheLine = usizeRange
  · rw [show n + cacheLine - usizeRange = 0 by omega, Unsigned.subWith_zero_one (by omega),
      if_pos heq, alignUp, heq]
    rfl
  · rw [Unsigned.subWith_of_le (by omega), if_neg heq]
    -- what is left is below the cache line
    have hlt : (n + cacheLine - usizeRange - 1) / 64 = 0 := Nat.div_eq_of_lt (by omega)
    have hzero := xor_and_63 (n + cacheLine - usizeRange - 1)
    rw [hlt, Nat.zero_mul] at hzero
    exact congrArg some hzero

/-- What a call does with the chunk that it reserves. -/
private theorem pushEncodedUsize_of_chunk {total padded : ℕ} {chunk : Chunk}
    (htotal : Unsigned.addWith usizeRange mode headerSize len = some total)
    (hpadded : alignUpUsize mode total cacheLine = some padded)
    (hchunk : r.writeChunkUninit padded = some chunk) :
    pushEncodedUsize mode r len encode =
      if total ≤ chunk.firstLen ∧ chunk.firstLen < headerSize + len then none
      else if chunk.firstLen < total ∧ usizeRange / 2 ≤ len then some .panicked
      else (writeFrame r chunk total padded len encode).map fun written =>
        .returned (.ok written) := by
  simp only [pushEncodedUsize, htotal, hpadded, hchunk, Option.bind_eq_bind, Option.bind_some,
    Option.pure_def]

omit [Target] in
/-- An empty chunk has no room for the header. -/
private theorem emptyChunk : ∃ chunk, r.writeChunkUninit 0 = some chunk ∧ chunk.firstLen = 0 :=
  ⟨r.chunkAt r.tail 0, if_pos (Nat.zero_le _), Nat.zero_min _⟩

/-- A call whose sizes do not overflow pushes, unless its temporary buffer would be too long. -/
private theorem pushEncodedUsize_of_sizes
    (htotal : Unsigned.addWith usizeRange mode headerSize len = some (headerSize + len))
    (hpadded : alignUpUsize mode (headerSize + len) cacheLine = some (paddedSize len)) :
    pushEncodedUsize mode r len encode = (pushEncoded r len encode).map .returned ∨
      pushEncodedUsize mode r len encode = some .panicked ∧ usizeRange / 2 ≤ len := by
  simp only [pushEncodedUsize, pushEncoded, htotal, hpadded, Option.bind_eq_bind, Option.bind_some,
    Option.pure_def]
  rw [← paddedSize]
  cases r.writeChunkUninit (paddedSize len) with
  | none => exact .inl rfl
  | some chunk =>
    simp only
    rw [if_neg (show ¬ (headerSize + len ≤ chunk.firstLen ∧ chunk.firstLen < headerSize + len) by
      omega)]
    split
    · next hlong => exact .inr ⟨rfl, hlong.2⟩
    · exact .inl (by rw [Option.map_map]; rfl)

/-- For a size that a slice can have, nothing overflows. -/
theorem pushEncodedUsize_of_lt (h : len < usizeRange / 2) :
    pushEncodedUsize mode r len encode = (pushEncoded r len encode).map .returned := by
  have hrange := usizeRange_le
  have hsize : headerSize = 8 := rfl
  have hline : cacheLine = 64 := rfl
  have htotal : Unsigned.addWith usizeRange mode headerSize len = some (headerSize + len) :=
    Unsigned.addWith_of_lt (by omega)
  have hpadded : alignUpUsize mode (headerSize + len) cacheLine = some (paddedSize len) :=
    alignUpUsize_of_lt (by omega)
  rcases pushEncodedUsize_of_sizes htotal hpadded with heq | ⟨-, hle⟩
  · exact heq
  · omega

/-- While the total size does not wrap, a call pushes as with sizes in `ℕ` or panics. -/
theorem pushEncodedUsize_cases (r : Ring) (len : ℕ) (encode : EncodeFn R)
    (hwraps : mode = .wraps → headerSize + len < usizeRange) :
    pushEncodedUsize mode r len encode = (pushEncoded r len encode).map .returned ∨
      pushEncodedUsize mode r len encode = some .panicked := by
  have hrange := usizeRange_le
  have hsize : headerSize = 8 := rfl
  have hline : cacheLine = 64 := rfl
  by_cases htotal : headerSize + len < usizeRange
  · have hadd : Unsigned.addWith usizeRange mode headerSize len = some (headerSize + len) :=
      Unsigned.addWith_of_lt htotal
    by_cases hpadded : headerSize + len + cacheLine < usizeRange
    · exact (pushEncodedUsize_of_sizes hadd (alignUpUsize_of_lt hpadded)).imp_right And.left
    · cases mode with
      | panics =>
        right
        simp only [pushEncodedUsize, alignUpUsize, hadd,
          Unsigned.addWith_panics (not_lt.mp hpadded), Option.bind_eq_bind, Option.bind_some,
          Option.bind_none]
      | wraps =>
        have halign := alignUpUsize_wraps htotal (not_lt.mp hpadded)
        split at halign
        · exact (pushEncodedUsize_of_sizes hadd halign).imp_right And.left
        · -- the chunk is empty, and the temporary buffer too long
          right
          obtain ⟨chunk, hchunk, hfirst⟩ := emptyChunk (r := r)
          rw [pushEncodedUsize_of_chunk hadd halign hchunk, hfirst, if_neg (by omega),
            if_pos (by omega)]
  · cases mode with
    | panics =>
      right
      simp only [pushEncodedUsize, Unsigned.addWith_panics (not_lt.mp htotal), Option.bind_eq_bind,
        Option.bind_none]
    | wraps => exact absurd (hwraps rfl) htotal

/-- A total size that wraps to zero asks for an empty chunk, and writes the header outside it. -/
theorem pushEncodedUsize_zero (hlen : headerSize + len = usizeRange) :
    pushEncodedUsize .wraps r len encode = none := by
  have hrange := usizeRange_le
  have hsize : headerSize = 8 := rfl
  have hline : cacheLine = 64 := rfl
  have htotal : Unsigned.addWith usizeRange .wraps headerSize len = some 0 := by
    rw [Unsigned.addWith_wraps (by omega) (by omega) (by omega), hlen, Nat.sub_self]
  have hpadded : alignUpUsize .wraps 0 cacheLine = some 0 := alignUpUsize_of_lt (by omega)
  obtain ⟨chunk, hchunk, hfirst⟩ := emptyChunk (r := r)
  -- eight bytes do not go into a slice of length zero
  rw [pushEncodedUsize_of_chunk htotal hpadded hchunk, hfirst, if_pos (by omega)]

/-- A total size that wraps further asks for one cache line. When it is there from the start of the
ring on, the closure is lent a slice that reaches past it, and when it is not the push is
refused. -/
theorem pushEncodedUsize_line (hlt : len < usizeRange) (hlen : usizeRange < headerSize + len) :
    (¬ 64 ≤ r.freeSlots → pushEncodedUsize .wraps r len encode = some (.returned (.error .full))) ∧
      (64 ≤ r.freeSlots → 64 ≤ (r.chunkAt r.tail 64).firstLen →
        pushEncodedUsize .wraps r len encode = none) := by
  have hrange := usizeRange_le
  have hsize : headerSize = 8 := rfl
  have hline : cacheLine = 64 := rfl
  have htotal := Unsigned.addWith_wraps (a := headerSize) hlen.le (by omega) hlt
  have hpadded : alignUpUsize .wraps (headerSize + len - usizeRange) cacheLine = some 64 := by
    have halign : alignUp (headerSize + len - usizeRange) cacheLine = 64 := by
      rw [alignUp, show cacheLine - 1 = 63 by rfl, hline, xor_and_63]
      omega
    rw [alignUpUsize_of_lt (by omega), halign]
  refine ⟨fun hfull => ?_, fun hfree hfirst => ?_⟩
  · simp only [pushEncodedUsize, htotal, hpadded, Option.bind_eq_bind, Option.bind_some,
      Option.pure_def, writeChunkUninit, if_neg hfull]
  · have hchunk : r.writeChunkUninit 64 = some (r.chunkAt r.tail 64) := if_pos hfree
    have hle : (r.chunkAt r.tail 64).firstLen ≤ 64 := Nat.min_le_left _ _
    -- what is left of the sum fits the cache line, and the payload goes on past it
    rw [pushEncodedUsize_of_chunk htotal hpadded hchunk, if_pos (by omega)]

end SpscProducer

end RapidLog
