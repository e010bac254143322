import RapidLog.Config
import RapidLog.Lib.RingBuffer
import RapidLog.Lib.Unsigned

/-!
# The per-thread SPSC queue

`queue.rs`: length-prefixed frames in a byte ring. A frame is an 8-byte header, of which the first
four bytes hold the message length as a `u32` and the other four are never written, followed by
the message and by zero padding up to a multiple of the cache line.

The ring behind a producer and its consumer is the value `Ring`; a writer returns `none` when it
writes outside the two slices it reserved, which is undefined behaviour.

The functions add in `ℕ`. For `push` and `pop` this is what the source computes, since a slice has
at most `isize::MAX` bytes and a stored length is that of a frame in the ring. The size that
`push_encoded` is called with can be any `usize`: `pushEncoded` is the call with a size that a slice
can have, and `pushEncodedUsize` the call with any size, whose sums may overflow. For the former
both are the same (`pushEncodedUsize_of_lt`).
-/

namespace RapidLog

/-- The byte ring shared by a producer and its consumer. -/
abbrev Ring := RingBuffer UInt8

namespace Queue

def headerSize : ℕ := 8

def cacheLine : ℕ := 64

/-- `(n + align - 1) & !(align - 1)`; `x & !m` clears in `x` the bits that `m` sets. -/
def alignUp (n align : ℕ) : ℕ :=
  let x := n + align - 1
  x ^^^ (x &&& (align - 1))

/-- The bytes that a message of `len` bytes occupies in the ring. -/
def paddedSize (len : ℕ) : ℕ := alignUp (headerSize + len) cacheLine

/-- Masking out the low six bits rounds down to a multiple of 64. -/
theorem xor_and_63 (x : ℕ) : x ^^^ (x &&& 63) = x / 64 * 64 := by
  apply Nat.eq_of_testBit_eq
  intro i
  have hmask : (63 : ℕ).testBit i = decide (i < 6) := Nat.testBit_two_pow_sub_one 6 i
  have hround : (x / 64 * 64).testBit i = (decide (6 ≤ i) && x.testBit i) := by
    rw [show x / 64 * 64 = (x >>> 6) <<< 6 by
      rw [Nat.shiftRight_eq_div_pow, Nat.shiftLeft_eq]]
    rw [Nat.testBit_shiftLeft, Nat.testBit_shiftRight]
    by_cases h : 6 ≤ i
    · rw [Nat.add_sub_cancel' h]
    · simp [h]
  rw [Nat.testBit_xor, Nat.testBit_and, hmask, hround]
  by_cases h : 6 ≤ i
  · have h' : ¬ i < 6 := by omega
    simp [h, h']
  · have h' : i < 6 := by omega
    simp [h, h']

/-- A frame takes the least multiple of the cache line that holds its header and message. -/
theorem paddedSize_eq (len : ℕ) : paddedSize len = (len + 71) / 64 * 64 := by
  simp only [paddedSize, alignUp, headerSize, cacheLine]
  rw [show 8 + len + 64 - 1 = len + 71 by omega, show 64 - 1 = 63 by rfl, xor_and_63]

theorem le_paddedSize (len : ℕ) : headerSize + len ≤ paddedSize len := by
  rw [paddedSize_eq, headerSize]; omega

theorem dvd_paddedSize (len : ℕ) : 64 ∣ paddedSize len := by
  rw [paddedSize_eq]; exact Dvd.intro_left _ rfl

theorem paddedSize_pos (len : ℕ) : 0 < paddedSize len := by
  rw [paddedSize_eq]; omega

theorem paddedSize_lt (len : ℕ) : paddedSize len < headerSize + len + 64 := by
  rw [paddedSize_eq, headerSize]; omega

end Queue

open Queue

inductive PushError
  | full
  deriving DecidableEq, Repr

/-- How a call of `push_encoded` ends. -/
inductive PushEnd (R : Type)
  /-- It unwinds, and leaves the ring as it was. -/
  | panicked
  | returned (result : Except PushError (Ring × R))

/-- A closure `FnMut(&mut [u8]) -> R`: it overwrites the buffer it is lent and returns a result.
The buffer is a slice, so its length does not change. -/
structure EncodeFn (R : Type) where
  /-- The buffer after the call, and the result. -/
  run : List UInt8 → List UInt8 × R
  length_run : ∀ buf, (run buf).1.length = buf.length

/-- A closure that fills its buffer with `data` whatever it held before. -/
def EncodeFn.Fills {R : Type} (encode : EncodeFn R) (data : List UInt8) : Prop :=
  ∀ buf : List UInt8, buf.length = data.length → (encode.run buf).1 = data

/-- The same closure, which also returns the buffer as it left it. -/
def EncodeFn.echo {R : Type} (encode : EncodeFn R) : EncodeFn (List UInt8 × R) where
  run buf := ((encode.run buf).1, encode.run buf)
  length_run := encode.length_run

/-- `create_queue`: a ring whose slots hold the arbitrary contents `mem`. -/
def createQueue (capacity : ℕ) (mem : ℕ → UInt8) : Ring := .new capacity mem

namespace SpscProducer

variable [Target]

/-- `capacity()`: every constructor stores the capacity of the ring it creates. -/
def capacity (r : Ring) : ℕ := r.capacity

/-- The ring that `grow` replaces the current one by: a fresh ring of doubled capacity, or `none`
once the block limit is reached. The old ring is abandoned by the caller. -/
def grow (r : Ring) (mem : ℕ → UInt8) : Option Ring :=
  let newCap := min (capacity r * 2) maxBlockCapacity
  if newCap ≤ capacity r then none else some (createQueue newCap mem)

/-- The header of a frame: `msg_len as u32`. -/
def header (len : ℕ) : List UInt8 := toNeBytes 4 (len % 2 ^ 32)

/-- Copy a message into the ring; the rejected push leaves the ring to the caller unchanged. -/
def push (r : Ring) (data : List UInt8) : Option (Except PushError Ring) :=
  let msgLen := data.length
  let total := headerSize + msgLen
  let padded := alignUp total cacheLine
  match r.writeChunkUninit padded with
  | none => some (.error .full)
  | some chunk => do
    let r ←
      -- header and payload are in front of the end of the buffer
      if total ≤ chunk.firstLen then do
        let r ← r.writeFirst chunk 0 (header msgLen)
        let r ← r.writeFirst chunk headerSize data
        let r ← r.writeFirst chunk total (List.replicate (chunk.firstLen - total) 0)
        r.writeSecond chunk 0 (List.replicate chunk.secondLen 0)
      else do
        -- the payload is split at the end of the buffer
        let firstData := chunk.firstLen - headerSize
        let r ← r.writeFirst chunk 0 (header msgLen)
        let r ← r.writeFirst chunk headerSize (data.take firstData)
        let remaining := msgLen - firstData
        let r ← r.writeSecond chunk 0 ((data.drop firstData).take remaining)
        r.writeSecond chunk remaining (List.replicate (chunk.secondLen - remaining) 0)
    return .ok (r.commitWrite padded)

/-- Write a frame into its chunk, with the message written by a closure. When `total` bytes fit the
first slice the closure is lent the ring memory itself, with whatever it held before; otherwise it
is lent a zeroed temporary buffer, which is then copied in two parts. -/
def writeFrame {R : Type} (r : Ring) (chunk : RingBuffer.Chunk) (total padded totalMsg : ℕ)
    (encode : EncodeFn R) : Option (Ring × R) :=
  if total ≤ chunk.firstLen then do
    let r ← r.writeFirst chunk 0 (header totalMsg)
    -- what the closure is lent has not been written before the call
    let payload := ((r.readFirst chunk).drop headerSize).take totalMsg
    let (payload, result) := encode.run payload
    let r ← r.writeFirst chunk headerSize payload
    let r ← r.writeFirst chunk total (List.replicate (chunk.firstLen - total) 0)
    let r ← r.writeSecond chunk 0 (List.replicate chunk.secondLen 0)
    return (r.commitWrite padded, result)
  else do
    -- `vec![0u8; total_msg]`
    let (tmp, result) := encode.run (List.replicate totalMsg 0)
    let r ← r.writeFirst chunk 0 (header totalMsg)
    let firstData := chunk.firstLen - headerSize
    let r ← r.writeFirst chunk headerSize (tmp.take firstData)
    let remaining := totalMsg - firstData
    let r ←
      if 0 < remaining then do
        let r ← r.writeSecond chunk 0 ((tmp.drop firstData).take remaining)
        r.writeSecond chunk remaining (List.replicate (chunk.secondLen - remaining) 0)
      else some r
    return (r.commitWrite padded, result)

/-- Let a closure write a message of `totalMsg` bytes. -/
def pushEncoded {R : Type} (r : Ring) (totalMsg : ℕ) (encode : EncodeFn R) :
    Option (Except PushError (Ring × R)) :=
  let total := headerSize + totalMsg
  let padded := alignUp total cacheLine
  match r.writeChunkUninit padded with
  | none => some (.error .full)
  | some chunk => (writeFrame r chunk total padded totalMsg encode).map .ok

/-! ### Sizes that overflow -/

/-- `align_up` in `usize`. -/
def alignUpUsize (mode : OnOverflow) (n align : ℕ) : Option ℕ := do
  let sum ← Unsigned.addWith usizeRange mode n align
  let x ← Unsigned.subWith usizeRange mode sum 1
  return x ^^^ (x &&& (align - 1))

/-- `push_encoded` with any `usize` for the size of the message. -/
def pushEncodedUsize {R : Type} (mode : OnOverflow) (r : Ring) (totalMsg : ℕ)
    (encode : EncodeFn R) : Option (PushEnd R) :=
  let sizes := do
    let total ← Unsigned.addWith usizeRange mode headerSize totalMsg
    let padded ← alignUpUsize mode total cacheLine
    return (total, padded)
  match sizes with
  | none => some .panicked
  | some (total, padded) =>
    match r.writeChunkUninit padded with
    | none => some (.returned (.error .full))
    | some chunk =>
      if total ≤ chunk.firstLen ∧ chunk.firstLen < headerSize + totalMsg then
        -- the slice that the closure would be lent reaches past the chunk
        none
      else if chunk.firstLen < total ∧ usizeRange / 2 ≤ totalMsg then
        -- `vec![0u8; total_msg]` is longer than `isize::MAX`
        some .panicked
      else
        (writeFrame r chunk total padded totalMsg encode).map fun written => .returned (.ok written)

end SpscProducer

namespace SpscConsumer

variable [Target]

/-- Take the oldest message out of the ring. -/
def pop (r : Ring) : Option (List UInt8) × Ring :=
  let slots := r.slots
  if slots < headerSize then (none, r) else
  match r.readChunk slots with
  | none => (none, r)
  | some chunk =>
    let first := r.readFirst chunk
    let second := r.readSecond chunk
    -- the header is read from the first slice only
    if first.length < headerSize then (none, r) else
    let msgLen := fromNeBytes (first.take 4)
    let padded := alignUp (headerSize + msgLen) cacheLine
    let available := first.length + second.length
    -- the frame has to be there as a whole
    if available < padded then (none, r) else
    let firstPayload := min (first.length - headerSize) msgLen
    let msg := (first.drop headerSize).take firstPayload
    let remaining := msgLen - firstPayload
    let msg := msg ++ second.take (min remaining second.length)
    (some msg, r.commitRead padded)

/-- The `pop` loop of `pop_all`, with a bound on the number of iterations. -/
def popAllLoop : ℕ → Ring → List (List UInt8) × Ring
  | 0, r => ([], r)
  | fuel + 1, r =>
    match pop r with
    | (none, r) => ([], r)
    | (some msg, r) =>
      let (msgs, r) := popAllLoop fuel r
      (msg :: msgs, r)

/-- `pop` until it returns `None`. Every message takes at least one slot out of the ring, so the
number of filled slots bounds the loop (`popAll_eq`). -/
def popAll (r : Ring) : List (List UInt8) × Ring := popAllLoop (r.slots + 1) r

def isEmpty (r : Ring) : Bool := r.isEmpty

end SpscConsumer

namespace SpscConsumer

variable [Target]

/-- A successful `pop` consumes at least one slot; a failed one changes nothing. -/
theorem pop_cases (r : Ring) :
    pop r = (none, r) ∨
      ∃ msg n, pop r = (some msg, r.commitRead n) ∧ 0 < n ∧ n ≤ r.slots := by
  simp only [pop]
  split
  · exact .inl rfl
  split
  · exact .inl rfl
  · next chunk hchunk =>
    split
    · exact .inl rfl
    split
    · exact .inl rfl
    · next hav =>
      right
      refine ⟨_, _, rfl, paddedSize_pos _, ?_⟩
      simp only [RingBuffer.readChunk, le_refl, if_true, Option.some.injEq] at hchunk
      subst hchunk
      rw [RingBuffer.length_readFirst, RingBuffer.length_readSecond,
        RingBuffer.firstLen_add_secondLen] at hav
      exact not_lt.mp hav

/-- A reader never changes the capacity. -/
theorem capacity_popAllLoop (fuel : ℕ) (r : Ring) :
    (popAllLoop fuel r).2.capacity = r.capacity := by
  induction fuel generalizing r with
  | zero => rfl
  | succ fuel ih =>
    rw [popAllLoop]
    rcases pop_cases r with h | ⟨msg, k, h, -, -⟩
    · rw [h]
    · rw [h]
      exact ih _

theorem capacity_popAll (r : Ring) : (popAll r).2.capacity = r.capacity :=
  capacity_popAllLoop _ r

/-- With enough fuel the loop runs until `pop` returns `None`, whatever the fuel. -/
theorem popAllLoop_eq (r : Ring) {n m : ℕ} (hn : r.slots < n) (hm : r.slots < m) :
    popAllLoop n r = popAllLoop m r := by
  induction n generalizing r m with
  | zero => omega
  | succ n ih =>
    obtain ⟨m, rfl⟩ : ∃ k, m = k + 1 := ⟨m - 1, by omega⟩
    rw [popAllLoop, popAllLoop]
    rcases pop_cases r with h | ⟨msg, k, h, hk, hle⟩
    · rw [h]
    · rw [h]
      simp only [ih (r.commitRead k) (m := m) (by simp; omega) (by simp; omega)]

/-- `pop_all` returns nothing when `pop` does, and else the popped message followed by what
`pop_all` returns from then on. -/
theorem popAll_eq (r : Ring) :
    popAll r = match pop r with
      | (none, r) => ([], r)
      | (some msg, r) => (msg :: (popAll r).1, (popAll r).2) := by
  rw [popAll, popAllLoop]
  rcases pop_cases r with h | ⟨msg, k, h, hk, hle⟩
  · rw [h]
  · rw [h]
    simp only [popAll]
    rw [popAllLoop_eq (r.commitRead k) (n := r.slots) (m := (r.commitRead k).slots + 1)
      (by simp; omega) (by omega)]

end SpscConsumer

end RapidLog
