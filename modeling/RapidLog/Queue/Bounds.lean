import RapidLog.Queue.Framing

/-!
# Where the writers write

For a ring of any capacity and at any position: an attempt that fits the free slots stays inside
the two slices of its chunk exactly when the header fits before the physical end of the ring
(`HeaderRoom`). The message and the padding always do. Rings whose capacity is a multiple of the
cache line have room everywhere; for other capacities the end of the ring can be closer.

## Main results

* `push_inBounds`, `push_outOfBounds`: the copying writer.
* `pushEncoded_inBounds`, `pushEncoded_outOfBounds`: the encoding writer.
-/

namespace RapidLog

open Queue RingBuffer

/-- The four bytes of a header fit between the tail and the physical end of the ring. -/
def HeaderRoom (r : Ring) : Prop := 4 ≤ r.capacity - r.tail % r.capacity

instance (r : Ring) : Decidable (HeaderRoom r) := inferInstanceAs (Decidable (4 ≤ _))

/-- A ring that nothing has been written to has room for a header as soon as a frame fits it. -/
theorem headerRoom_createQueue {capacity len : ℕ} (h : paddedSize len ≤ capacity)
    (mem : ℕ → UInt8) : HeaderRoom (createQueue capacity mem) := by
  have hlen := le_paddedSize len
  have hsize : headerSize = 8 := rfl
  show 4 ≤ capacity - 0 % capacity
  rw [Nat.zero_mod]
  omega

/-- The first slice of a reserved chunk holds a header exactly when there is room for it. -/
theorem headerRoom_iff (r : Ring) (len : ℕ) :
    HeaderRoom r ↔ 4 ≤ (r.chunkAt r.tail (paddedSize len)).firstLen := by
  have hlen := le_paddedSize len
  have hsize : headerSize = 8 := rfl
  simp only [HeaderRoom, chunkAt]
  omega

/-- Two rings that differ in their memory only. -/
structure SameShape (r r' : Ring) : Prop where
  capacity_eq : r'.capacity = r.capacity
  head_eq : r'.head = r.head
  tail_eq : r'.tail = r.tail

namespace SameShape

variable {r₁ r₂ r₃ : Ring}

theorem trans (h : SameShape r₁ r₂) (h' : SameShape r₂ r₃) : SameShape r₁ r₃ :=
  ⟨h'.capacity_eq.trans h.capacity_eq, h'.head_eq.trans h.head_eq, h'.tail_eq.trans h.tail_eq⟩

end SameShape

variable {r : Ring} {chunk : Chunk}

theorem writeFirst_inBounds (r : Ring) (chunk : Chunk) (off : ℕ) (xs : List UInt8)
    (h : xs.length = 0 ∨ off + xs.length ≤ chunk.firstLen) :
    ∃ r', r.writeFirst chunk off xs = some r' ∧ SameShape r r' :=
  ⟨_, if_pos h, rfl, rfl, rfl⟩

theorem writeSecond_inBounds (r : Ring) (chunk : Chunk) (off : ℕ) (xs : List UInt8)
    (h : xs.length = 0 ∨ off + xs.length ≤ chunk.secondLen) :
    ∃ r', r.writeSecond chunk off xs = some r' ∧ SameShape r r' :=
  ⟨_, if_pos h, rfl, rfl, rfl⟩

/-- What an attempt leaves of a ring: a longer one of the same capacity. -/
structure Extended (r r' : Ring) (n : ℕ) : Prop where
  capacity_eq : r'.capacity = r.capacity
  head_eq : r'.head = r.head
  tail_eq : r'.tail = r.tail + n

theorem SameShape.commitWrite {r r' : Ring} (h : SameShape r r') (n : ℕ) :
    Extended r (r'.commitWrite n) n :=
  ⟨h.capacity_eq, h.head_eq, by rw [RingBuffer.commitWrite, h.tail_eq]⟩

variable [Target]

theorem length_header (len : ℕ) : (SpscProducer.header len).length = 4 := by
  simp [SpscProducer.header]

omit [Target] in
/-- The writes of a contiguous frame after its header. -/
private theorem contiguous_inBounds (r : Ring) (chunk : Chunk) (msg : List UInt8)
    (hle : headerSize + msg.length ≤ chunk.firstLen) :
    ∃ r₂ r₃ r₄, r.writeFirst chunk headerSize msg = some r₂ ∧
      r₂.writeFirst chunk (headerSize + msg.length)
        (List.replicate (chunk.firstLen - (headerSize + msg.length)) 0) = some r₃ ∧
      r₃.writeSecond chunk 0 (List.replicate chunk.secondLen 0) = some r₄ ∧
      SameShape r r₄ := by
  obtain ⟨r₂, e₂, h₂⟩ := writeFirst_inBounds r chunk headerSize msg (.inr hle)
  obtain ⟨r₃, e₃, h₃⟩ := writeFirst_inBounds r₂ chunk (headerSize + msg.length)
    (List.replicate (chunk.firstLen - (headerSize + msg.length)) 0)
    (.inr (by rw [List.length_replicate]; omega))
  obtain ⟨r₄, e₄, h₄⟩ := writeSecond_inBounds r₃ chunk 0
    (List.replicate chunk.secondLen 0) (.inr (by simp))
  exact ⟨r₂, r₃, r₄, e₂, e₃, e₄, (h₂.trans h₃).trans h₄⟩

omit [Target] in
/-- The writes of a split frame after its header. When the first slice is shorter than a header,
all of the message goes to the second one, which has room since it starts before the message. -/
private theorem split_inBounds (r : Ring) (chunk : Chunk) (msg : List UInt8)
    (hgt : ¬ headerSize + msg.length ≤ chunk.firstLen)
    (hadd : chunk.firstLen + chunk.secondLen = paddedSize msg.length) :
    ∃ r₂ r₃ r₄,
      r.writeFirst chunk headerSize (msg.take (chunk.firstLen - headerSize)) = some r₂ ∧
      r₂.writeSecond chunk 0 ((msg.drop (chunk.firstLen - headerSize)).take
        (msg.length - (chunk.firstLen - headerSize))) = some r₃ ∧
      r₃.writeSecond chunk (msg.length - (chunk.firstLen - headerSize))
        (List.replicate (chunk.secondLen - (msg.length - (chunk.firstLen - headerSize))) 0) =
          some r₄ ∧
      SameShape r r₂ ∧ SameShape r r₄ := by
  have hpad := le_paddedSize msg.length
  set fd := chunk.firstLen - headerSize with hfd
  obtain ⟨r₂, e₂, h₂⟩ := writeFirst_inBounds r chunk headerSize (msg.take fd)
    (by rw [List.length_take]; omega)
  obtain ⟨r₃, e₃, h₃⟩ := writeSecond_inBounds r₂ chunk 0
    ((msg.drop fd).take (msg.length - fd))
    (by rw [List.length_take, List.length_drop]; omega)
  obtain ⟨r₄, e₄, h₄⟩ := writeSecond_inBounds r₃ chunk (msg.length - fd)
    (List.replicate (chunk.secondLen - (msg.length - fd)) 0)
    (by rw [List.length_replicate]; omega)
  exact ⟨r₂, r₃, r₄, e₂, e₃, e₄, h₂, (h₂.trans h₃).trans h₄⟩

/-- A copied message that fits the free slots is written in bounds when its header is. -/
theorem push_inBounds {data : List UInt8} (hfree : paddedSize data.length ≤ r.freeSlots)
    (hroom : HeaderRoom r) :
    ∃ r', SpscProducer.push r data = some (.ok r') ∧
      Extended r r' (paddedSize data.length) := by
  have hfirst := (headerRoom_iff r data.length).mp hroom
  obtain ⟨r₁, e₁, h₁⟩ := writeFirst_inBounds r
    (r.chunkAt r.tail (paddedSize data.length)) 0 (SpscProducer.header data.length)
    (.inr (by rw [length_header]; omega))
  simp only [SpscProducer.push, writeChunkUninit_eq, if_pos hfree]
  split
  · next hle =>
    obtain ⟨r₂, r₃, r₄, e₂, e₃, e₄, h₄⟩ := contiguous_inBounds r₁ _ data hle
    exact ⟨_, by simp only [e₁, e₂, e₃, e₄, Option.bind_eq_bind, Option.bind_some]; rfl,
      (h₁.trans h₄).commitWrite _⟩
  · next hgt =>
    obtain ⟨r₂, r₃, r₄, e₂, e₃, e₄, -, h₄⟩ :=
      split_inBounds r₁ _ data hgt (firstLen_add_secondLen _ _ _)
    exact ⟨_, by simp only [e₁, e₂, e₃, e₄, Option.bind_eq_bind, Option.bind_some]; rfl,
      (h₁.trans h₄).commitWrite _⟩

/-- The header of an accepted message leaves the first slice when that slice is too short. -/
private theorem header_outOfBounds (len : ℕ) (hroom : ¬ HeaderRoom r) :
    r.writeFirst (r.chunkAt r.tail (paddedSize len)) 0 (SpscProducer.header len) = none := by
  rw [headerRoom_iff r len] at hroom
  refine if_neg ?_
  rw [length_header]
  omega

/-- Without room for the header the copying writer writes outside its chunk. -/
theorem push_outOfBounds {data : List UInt8} (hfree : paddedSize data.length ≤ r.freeSlots)
    (hroom : ¬ HeaderRoom r) : SpscProducer.push r data = none := by
  have hnone := header_outOfBounds data.length hroom
  simp only [SpscProducer.push, writeChunkUninit_eq, if_pos hfree]
  split <;> simp only [hnone, Option.bind_eq_bind, Option.bind_none]

/-- An encoded message that fits the free slots is written in bounds when its header is. -/
theorem pushEncoded_inBounds {R : Type} (len : ℕ) (encode : EncodeFn R)
    (hfree : paddedSize len ≤ r.freeSlots) (hroom : HeaderRoom r) :
    ∃ buf r', buf.length = len ∧
      SpscProducer.pushEncoded r len encode = some (.ok (r', (encode.run buf).2)) ∧
      Extended r r' (paddedSize len) := by
  have hfirst := (headerRoom_iff r len).mp hroom
  obtain ⟨r₁, e₁, h₁⟩ := writeFirst_inBounds r
    (r.chunkAt r.tail (paddedSize len)) 0 (SpscProducer.header len)
    (.inr (by rw [length_header]; omega))
  simp only [SpscProducer.pushEncoded, writeChunkUninit_eq, if_pos hfree, SpscProducer.writeFrame]
  split
  · -- the closure writes into the ring
    next hle =>
    set buf := ((r₁.readFirst (r.chunkAt r.tail (paddedSize len))).drop headerSize).take len
      with hbuf
    have hlen : buf.length = len := by
      rw [hbuf, List.length_take, List.length_drop, length_readFirst]
      omega
    have hrun : (encode.run buf).1.length = len := (encode.length_run buf).trans hlen
    obtain ⟨r₂, r₃, r₄, e₂, e₃, e₄, h₄⟩ :=
      contiguous_inBounds r₁ (r.chunkAt r.tail (paddedSize len)) (encode.run buf).1
        (by rw [hrun]; exact hle)
    rw [hrun] at e₃
    exact ⟨buf, _, hlen,
      by simp only [e₁, ← hbuf, e₂, e₃, e₄, Option.bind_eq_bind, Option.bind_some]; rfl,
      (h₁.trans h₄).commitWrite _⟩
  · -- the closure writes into a temporary buffer, which is copied in two parts
    next hgt =>
    set buf : List UInt8 := List.replicate len 0 with hbuf
    have hlen : buf.length = len := by simp [hbuf]
    have hrun : (encode.run buf).1.length = len := (encode.length_run buf).trans hlen
    obtain ⟨r₂, r₃, r₄, e₂, e₃, e₄, h₂, h₄⟩ :=
      split_inBounds r₁ (r.chunkAt r.tail (paddedSize len)) (encode.run buf).1
        (by rw [hrun]; exact hgt) (by rw [hrun]; exact firstLen_add_secondLen _ _ _)
    rw [hrun] at e₃ e₄
    refine ⟨buf, ?_⟩
    by_cases hpos : 0 < len - ((r.chunkAt r.tail (paddedSize len)).firstLen - headerSize)
    · exact ⟨_, hlen,
        by simp only [e₁, e₂, e₃, e₄, if_pos hpos, Option.bind_eq_bind, Option.bind_some]; rfl,
        (h₁.trans h₄).commitWrite _⟩
    · -- an empty message whose frame is split: nothing is left to write
      exact ⟨_, hlen,
        by simp only [e₁, e₂, if_neg hpos, Option.bind_eq_bind, Option.bind_some]; rfl,
        (h₁.trans h₂).commitWrite _⟩

/-- Without room for the header the encoding writer writes outside its chunk. -/
theorem pushEncoded_outOfBounds {R : Type} (len : ℕ) (encode : EncodeFn R)
    (hfree : paddedSize len ≤ r.freeSlots) (hroom : ¬ HeaderRoom r) :
    SpscProducer.pushEncoded r len encode = none := by
  have hnone := header_outOfBounds len hroom
  simp only [SpscProducer.pushEncoded, writeChunkUninit_eq, if_pos hfree, SpscProducer.writeFrame]
  split <;> simp only [hnone, Option.bind_eq_bind, Option.bind_none, Option.map_none]

end RapidLog
