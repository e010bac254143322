import Mathlib.Logic.Function.Basic
import RapidLog.Queue

/-!
# Frames in the ring

The specification of the two writers and of the reader of `queue.rs`. Each needs room for a whole
header between its position and the physical end of the ring (`HasRoom`). In an aligned ring
(capacity and positions are multiples of the cache line) there always is, so the header of a frame
never crosses the physical end:

* `push_spec`, `pushEncoded_spec`: an accepted message is appended as one frame (`Appended`), and
  nothing between head and tail changes; no write leaves the reserved slices;
* `push_full_iff`, `pushEncoded_full_iff`: a message is rejected exactly when its padded size
  exceeds the free slots;
* `Holds r msgs`: the ring is aligned and holds the frames of `msgs` between head and tail;
* `pop_nil`, `pop_cons`: `pop` takes the first of them, or reports that there is none.

The header stores the length as a `u32`, so a frame can be read back when its message is shorter
than `2 ^ 32` bytes.
-/

namespace RapidLog

open Queue RingBuffer

/-- Capacity and positions are multiples of the cache line, and at most one revolution of the
ring is filled. -/
structure Aligned (r : Ring) : Prop where
  capacity_pos : 0 < r.capacity
  capacity_dvd : 64 ∣ r.capacity
  head_dvd : 64 ∣ r.head
  tail_dvd : 64 ∣ r.tail
  head_le : r.head ≤ r.tail
  tail_le : r.tail ≤ r.head + r.capacity

/-- A fresh ring is aligned when its capacity is a positive multiple of the cache line. -/
theorem aligned_createQueue {capacity : ℕ} (hpos : 0 < capacity) (hdvd : 64 ∣ capacity)
    (mem : ℕ → UInt8) : Aligned (createQueue capacity mem) :=
  ⟨hpos, hdvd, dvd_zero _, dvd_zero _, le_rfl, Nat.zero_le _⟩

namespace Aligned

variable {r r' : Ring}

/-- A reserved chunk of an aligned ring begins with a whole cache line. -/
theorem le_firstLen (h : Aligned r) (hr' : r'.capacity = r.capacity) {pos n : ℕ}
    (hpos : 64 ∣ pos) (hdvd : 64 ∣ n) (hn : 0 < n) : 64 ≤ (r'.chunkAt pos n).firstLen := by
  have hmod : 64 ∣ pos % r.capacity := (Nat.dvd_mod_iff h.capacity_dvd).mpr hpos
  have hlt : pos % r.capacity < r.capacity := Nat.mod_lt _ h.capacity_pos
  have hcap := h.capacity_dvd
  simp only [chunkAt, hr']
  omega

/-- The first slice of a reserved chunk is a multiple of the cache line. -/
theorem dvd_firstLen (h : Aligned r) (hr' : r'.capacity = r.capacity) {pos n : ℕ}
    (hpos : 64 ∣ pos) (hdvd : 64 ∣ n) : 64 ∣ (r'.chunkAt pos n).firstLen := by
  have hmod : 64 ∣ pos % r.capacity := (Nat.dvd_mod_iff h.capacity_dvd).mpr hpos
  have hcap := h.capacity_dvd
  simp only [chunkAt, hr']
  rcases Nat.le_total n (r.capacity - pos % r.capacity) with hle | hle
  · rwa [min_eq_left hle]
  · rw [min_eq_right hle]
    exact Nat.dvd_sub hcap hmod

end Aligned

/-- At most one revolution of the ring is filled, and a whole header fits between the position
`pos` and the physical end of the ring. -/
structure HasRoom (r : Ring) (pos : ℕ) : Prop where
  room : headerSize ≤ r.capacity - pos % r.capacity
  head_le : r.head ≤ r.tail
  tail_le : r.tail ≤ r.head + r.capacity

/-- In an aligned ring there is room at every multiple of the cache line. -/
theorem Aligned.hasRoom {r : Ring} (h : Aligned r) {pos : ℕ} (hpos : 64 ∣ pos) : HasRoom r pos := by
  refine ⟨?_, h.head_le, h.tail_le⟩
  have hfirst := h.le_firstLen rfl hpos (dvd_refl 64) (by omega)
  have hsize : headerSize = 8 := rfl
  simp only [chunkAt] at hfirst
  omega

theorem Aligned.hasRoom_tail {r : Ring} (h : Aligned r) : HasRoom r r.tail := h.hasRoom h.tail_dvd

theorem Aligned.hasRoom_head {r : Ring} (h : Aligned r) : HasRoom r r.head := h.hasRoom h.head_dvd

/-- Where there is room, the first slice of a chunk that holds a header holds it whole. -/
theorem HasRoom.le_firstLen {r : Ring} {pos n : ℕ} (h : HasRoom r pos) (hn : headerSize ≤ n) :
    headerSize ≤ (r.chunkAt pos n).firstLen :=
  le_min hn h.room

/-- A message that fits the free slots of a ring below the block limit has a length that its
header can store. -/
theorem length_lt_of_free {r : Ring} {len : ℕ} (hmax : r.capacity ≤ maxBlockCapacity)
    (hfree : paddedSize len ≤ r.freeSlots) : len < 2 ^ 32 := by
  have hpad := le_paddedSize len
  have hfree' : r.freeSlots = r.capacity - r.slots := rfl
  have hlimit : maxBlockCapacity = 2147483648 := rfl
  have hsize : headerSize = 8 := rfl
  omega

variable [Target]

/-- The ring `r'` is `r` with a frame for `msg` appended. -/
structure Appended (r r' : Ring) (msg : List UInt8) : Prop where
  capacity_eq : r'.capacity = r.capacity
  head_eq : r'.head = r.head
  tail_eq : r'.tail = r.tail + paddedSize msg.length
  window_eq : ∀ q n, r.head ≤ q → q + n ≤ r.tail → r'.window q n = r.window q n
  header_eq : r'.window r.tail 4 = SpscProducer.header msg.length
  payload_eq : r'.window (r.tail + headerSize) msg.length = msg

namespace Aligned

variable {r r' : Ring}

/-- An appended frame keeps the ring aligned. -/
theorem appended (h : Aligned r) {msg : List UInt8} (ha : Appended r r' msg)
    (hfree : paddedSize msg.length ≤ r.freeSlots) : Aligned r' := by
  have hdvd := dvd_paddedSize msg.length
  have hslots : r.slots = r.tail - r.head := rfl
  have hfree' : r.freeSlots = r.capacity - r.slots := rfl
  have hle := h.head_le
  have htail := h.tail_le
  refine ⟨ha.capacity_eq ▸ h.capacity_pos, ha.capacity_eq ▸ h.capacity_dvd,
    ha.head_eq ▸ h.head_dvd, ha.tail_eq ▸ Nat.dvd_add h.tail_dvd hdvd, ?_, ?_⟩
  · rw [ha.head_eq, ha.tail_eq]; omega
  · rw [ha.head_eq, ha.tail_eq, ha.capacity_eq]; omega

end Aligned

/-! ### The writers -/

section Writers

variable {r : Ring} {len : ℕ}

/-- The header is written first, at the start of the reserved chunk. -/
theorem write_header (h : HasRoom r r.tail) (hfree : paddedSize len ≤ r.freeSlots) :
    ∃ r₁, r.writeFirst (r.chunkAt r.tail (paddedSize len)) 0 (SpscProducer.header len) = some r₁ ∧
      Wrote r r₁ r.head r.tail (SpscProducer.header len) := by
  have hslots : r.slots = r.tail - r.head := rfl
  have hfree' : r.freeSlots = r.capacity - r.slots := rfl
  have hle := h.head_le
  have htail := h.tail_le
  have hpad := le_paddedSize len
  have hsize : headerSize = 8 := rfl
  have hfirst := h.le_firstLen (n := paddedSize len) (by omega)
  have hlen : (SpscProducer.header len).length = 4 := by simp [SpscProducer.header]
  exact wrote_writeFirst r r.head r.tail (paddedSize len) 0 (SpscProducer.header len) (by omega)
    (by omega) (by omega)

/-- A list written right behind the tail, after the header, leaves a frame of it. -/
private theorem appended_of_wrote {r₁ r₂ : Ring} {msg : List UInt8}
    (hfree : paddedSize msg.length ≤ r.freeSlots) (h : HasRoom r r.tail)
    (h₁ : Wrote r r₁ r.head r.tail (SpscProducer.header msg.length))
    (h₂ : Wrote r₁ r₂ r.head (r.tail + headerSize) msg) {r₃ : Ring}
    (h₃ : ∃ xs, Wrote r₂ r₃ r.head (r.tail + headerSize + msg.length) xs) :
    Appended r (r₃.commitWrite (paddedSize msg.length)) msg := by
  have hslots : r.slots = r.tail - r.head := rfl
  have hfree' : r.freeSlots = r.capacity - r.slots := rfl
  have hle := h.head_le
  have htail := h.tail_le
  have hpad := le_paddedSize msg.length
  have hlen : (SpscProducer.header msg.length).length = 4 := by simp [SpscProducer.header]
  have hsize : headerSize = 8 := rfl
  have hc₁ := h₁.capacity_eq
  have hc₂ := h₂.capacity_eq
  obtain ⟨xs, h₃⟩ := h₃
  refine ⟨h₃.capacity_eq.trans (hc₂.trans hc₁), h₃.head_eq.trans (h₂.head_eq.trans h₁.head_eq),
    ?_, ?_, ?_, ?_⟩
  · simp only [commitWrite, h₃.tail_eq, h₂.tail_eq, h₁.tail_eq]
  · intro q n hq hn
    rw [window_commitWrite, h₃.window_of_disjoint hq (by omega) (by omega),
      h₂.window_of_disjoint hq (by omega) (by omega),
      h₁.window_of_disjoint hq (by omega) (by omega)]
  · have hself := h₁.window_self (by omega) (by omega)
    rw [hlen] at hself
    rw [window_commitWrite, h₃.window_of_disjoint (by omega) (by omega) (by omega),
      h₂.window_of_disjoint (by omega) (by omega) (by omega), hself]
  · rw [window_commitWrite, h₃.window_of_disjoint (by omega) (by omega) (by omega),
      h₂.window_self (by omega) (by omega)]

omit [Target] in
/-- A frame that fits the first slice of its chunk fills it: the second slice is empty. -/
theorem chunk_of_le (h : Aligned r)
    (hle : headerSize + len ≤ (r.chunkAt r.tail (paddedSize len)).firstLen) :
    (r.chunkAt r.tail (paddedSize len)).firstLen = paddedSize len ∧
      (r.chunkAt r.tail (paddedSize len)).secondLen = 0 := by
  have hadd := r.firstLen_add_secondLen r.tail (paddedSize len)
  have hdvd := h.dvd_firstLen rfl h.tail_dvd (dvd_paddedSize len)
  have hpad := dvd_paddedSize len
  have hlt := paddedSize_lt len
  omega

/-- The writes of a message that fits the first slice, after its header. The padding fills what is
left of the first slice and all of the second one. -/
private theorem write_contiguous (h : HasRoom r r.tail) {r₁ : Ring} (msg : List UInt8)
    (hfree : paddedSize msg.length ≤ r.freeSlots)
    (h₁ : Wrote r r₁ r.head r.tail (SpscProducer.header msg.length))
    {chunk : Chunk} (hchunk : chunk = r.chunkAt r.tail (paddedSize msg.length))
    (hle : headerSize + msg.length ≤ chunk.firstLen) :
    ∃ r₂ r₃ r₄, r₁.writeFirst chunk headerSize msg = some r₂ ∧
      r₂.writeFirst chunk (headerSize + msg.length)
        (List.replicate (chunk.firstLen - (headerSize + msg.length)) 0) = some r₃ ∧
      r₃.writeSecond chunk 0 (List.replicate chunk.secondLen 0) = some r₄ ∧
      Appended r (r₄.commitWrite (paddedSize msg.length)) msg := by
  have hslots : r.slots = r.tail - r.head := rfl
  have hfree' : r.freeSlots = r.capacity - r.slots := rfl
  have hle' := h.head_le
  have htail := h.tail_le
  have hadd := r.firstLen_add_secondLen r.tail (paddedSize msg.length)
  rw [← hchunk] at hadd
  have hc₁ := h₁.capacity_eq
  have hchunk₁ : chunk = r₁.chunkAt r.tail (paddedSize msg.length) := by
    rw [hchunk]; simp only [chunkAt, hc₁]
  obtain ⟨r₂, e₂, h₂⟩ := wrote_writeFirst r₁ r.head r.tail (paddedSize msg.length)
    headerSize msg (by omega) (by omega)
    (hchunk₁ ▸ hle)
  have hc₂ := h₂.capacity_eq
  have hchunk₂ : chunk = r₂.chunkAt r.tail (paddedSize msg.length) := by
    rw [hchunk]; simp only [chunkAt, hc₁, hc₂]
  obtain ⟨r₃, e₃, h₃⟩ := wrote_writeFirst r₂ r.head r.tail (paddedSize msg.length)
    (headerSize + msg.length) (List.replicate (chunk.firstLen - (headerSize + msg.length)) 0)
    (by omega) (by omega) (by rw [List.length_replicate, ← hchunk₂]; omega)
  have hc₃ := h₃.capacity_eq
  have hchunk₃ : chunk = r₃.chunkAt r.tail (paddedSize msg.length) := by
    rw [hchunk]; simp only [chunkAt, hc₁, hc₂, hc₃]
  obtain ⟨r₄, e₄, h₄⟩ := wrote_writeSecond r₃ r.head r.tail (paddedSize msg.length)
    0 (List.replicate chunk.secondLen 0) (by omega) (by omega) (by omega)
    (by rw [List.length_replicate, ← hchunk₃]; omega)
  rw [← hchunk₁] at e₂
  rw [← hchunk₂] at e₃
  rw [← hchunk₃] at e₄ h₄
  refine ⟨r₂, r₃, r₄, e₂, e₃, e₄, ?_⟩
  -- the two paddings are adjacent
  have hpos : r.tail + chunk.firstLen + 0 = r.tail + (headerSize + msg.length) +
      (List.replicate (chunk.firstLen - (headerSize + msg.length)) (0 : UInt8)).length := by
    rw [List.length_replicate]; omega
  exact appended_of_wrote hfree h h₁ h₂ ⟨_, by rw [Nat.add_assoc]; exact h₃.append (hpos ▸ h₄)⟩

/-- The writes of a message that crosses the physical end, after its header: the payload in two
parts and the padding behind the second one. -/
theorem write_split (h : HasRoom r r.tail) {r₁ : Ring} (msg : List UInt8)
    (hfree : paddedSize msg.length ≤ r.freeSlots)
    (h₁ : Wrote r r₁ r.head r.tail (SpscProducer.header msg.length))
    {chunk : Chunk} (hchunk : chunk = r.chunkAt r.tail (paddedSize msg.length))
    (hgt : ¬ headerSize + msg.length ≤ chunk.firstLen) :
    ∃ r₂ r₃ r₄, 0 < msg.length - (chunk.firstLen - headerSize) ∧
      r₁.writeFirst chunk headerSize (msg.take (chunk.firstLen - headerSize)) = some r₂ ∧
      r₂.writeSecond chunk 0 ((msg.drop (chunk.firstLen - headerSize)).take
        (msg.length - (chunk.firstLen - headerSize))) = some r₃ ∧
      r₃.writeSecond chunk (msg.length - (chunk.firstLen - headerSize))
        (List.replicate (chunk.secondLen - (msg.length - (chunk.firstLen - headerSize))) 0) =
          some r₄ ∧
      Appended r (r₄.commitWrite (paddedSize msg.length)) msg := by
  have hslots : r.slots = r.tail - r.head := rfl
  have hfree' : r.freeSlots = r.capacity - r.slots := rfl
  have hsize : headerSize = 8 := rfl
  have hle' := h.head_le
  have htail := h.tail_le
  have hpad := le_paddedSize msg.length
  have hc₁ := h₁.capacity_eq
  have hfirst := h.le_firstLen (n := paddedSize msg.length) (by omega)
  have hadd := r.firstLen_add_secondLen r.tail (paddedSize msg.length)
  rw [← hchunk] at hfirst hadd
  set fd := chunk.firstLen - headerSize with hfd
  -- the writes keep the capacity, so the chunk is the same for each of them
  have hchunk₁ : r₁.chunkAt r.tail (paddedSize msg.length) = chunk := by
    rw [hchunk]; simp only [chunkAt, hc₁]
  obtain ⟨r₂, e₂, h₂⟩ := wrote_writeFirst r₁ r.head r.tail (paddedSize msg.length)
    headerSize (msg.take fd) (by omega) (by omega)
    (by rw [hchunk₁, List.length_take]; omega)
  have hc₂ := h₂.capacity_eq
  have hchunk₂ : r₂.chunkAt r.tail (paddedSize msg.length) = chunk := by
    rw [hchunk]; simp only [chunkAt, hc₁, hc₂]
  have hdrop : (msg.drop fd).take (msg.length - fd) = msg.drop fd :=
    List.take_of_length_le (by simp)
  obtain ⟨r₃, e₃, h₃⟩ := wrote_writeSecond r₂ r.head r.tail (paddedSize msg.length)
    0 (msg.drop fd) (by omega) (by omega)
    (by omega) (by rw [hchunk₂, List.length_drop]; omega)
  have hc₃ := h₃.capacity_eq
  have hchunk₃ : r₃.chunkAt r.tail (paddedSize msg.length) = chunk := by
    rw [hchunk]; simp only [chunkAt, hc₁, hc₂, hc₃]
  obtain ⟨r₄, e₄, h₄⟩ := wrote_writeSecond r₃ r.head r.tail (paddedSize msg.length)
    (msg.length - fd) (List.replicate (chunk.secondLen - (msg.length - fd)) 0) (by omega) (by omega)
    (by omega) (by rw [hchunk₃, List.length_replicate]; omega)
  rw [hchunk₁] at e₂
  rw [hchunk₂] at e₃ h₃
  rw [hchunk₃] at e₄ h₄
  refine ⟨r₂, r₃, r₄, by omega, e₂, hdrop.symm ▸ e₃, e₄, ?_⟩
  -- counted from the tail, the second part of the chunk begins where the first one ends
  have hpos : r.tail + chunk.firstLen + 0 = r.tail + headerSize + (msg.take fd).length := by
    rw [List.length_take]; omega
  have hmsg := h₂.append (hpos ▸ h₃)
  rw [List.take_append_drop] at hmsg
  have hpos' : r.tail + chunk.firstLen + (msg.length - fd) = r.tail + headerSize + msg.length := by
    omega
  rw [hpos'] at h₄
  exact appended_of_wrote hfree h h₁ hmsg ⟨_, h₄⟩

omit [Target] in
/-- A reservation fails exactly when the padded frame exceeds the free slots. -/
theorem writeChunkUninit_eq (r : Ring) (len : ℕ) :
    r.writeChunkUninit (alignUp (headerSize + len) cacheLine) =
      if paddedSize len ≤ r.freeSlots then some (r.chunkAt r.tail (paddedSize len)) else none :=
  rfl

/-- A copied message that fits the free slots is appended to the ring. -/
theorem push_spec (h : HasRoom r r.tail) {data : List UInt8}
    (hfree : paddedSize data.length ≤ r.freeSlots) :
    ∃ r', SpscProducer.push r data = some (.ok r') ∧ Appended r r' data := by
  obtain ⟨r₁, e₁, h₁⟩ := write_header h hfree
  simp only [SpscProducer.push, writeChunkUninit_eq, if_pos hfree]
  split
  · next hle =>
    obtain ⟨r₂, r₃, r₄, e₂, e₃, e₄, happ⟩ := write_contiguous h data hfree h₁ rfl hle
    exact ⟨_, by simp only [e₁, e₂, e₃, e₄, Option.bind_eq_bind, Option.bind_some]; rfl, happ⟩
  · next hgt =>
    obtain ⟨r₂, r₃, r₄, -, e₂, e₃, e₄, happ⟩ := write_split h data hfree h₁ rfl hgt
    exact ⟨_, by simp only [e₁, e₂, e₃, e₄, Option.bind_eq_bind, Option.bind_some]; rfl, happ⟩

/-- A copied message is rejected exactly when its padded size exceeds the free slots. -/
theorem push_full (r : Ring) {data : List UInt8}
    (hfull : ¬ paddedSize data.length ≤ r.freeSlots) :
    SpscProducer.push r data = some (.error .full) := by
  simp only [SpscProducer.push, writeChunkUninit_eq, if_neg hfull]

omit [Target] in
/-- The buffer that a closure is lent: the ring memory behind the header, with whatever it held
before, or zeros when the frame is split. -/
def lent (r : Ring) (len : ℕ) : List UInt8 :=
  if headerSize + len ≤ (r.chunkAt r.tail (paddedSize len)).firstLen then
    r.window (r.tail + headerSize) len
  else List.replicate len 0

omit [Target] in
@[simp] theorem length_lent (r : Ring) (len : ℕ) : (lent r len).length = len := by
  rw [lent]
  split <;> simp

omit [Target] in
/-- The first slice of a chunk of at most one revolution is a window. -/
theorem readFirst_eq_window (r : Ring) {pos n : ℕ} (hn : n ≤ r.capacity) :
    r.readFirst (r.chunkAt pos n) = r.window pos (r.chunkAt pos n).firstLen := by
  have hread := readFirst_append_readSecond r pos n hn
  have hadd := r.firstLen_add_secondLen pos n
  rw [← take_window r pos (show (r.chunkAt pos n).firstLen ≤ n by omega), ← hread,
    List.take_left' (length_readFirst r _)]

/-- An encoded message that fits the free slots is appended to the ring: it is the lent buffer as
its closure left it. -/
theorem pushEncoded_lent {R : Type} (h : HasRoom r r.tail) (encode : EncodeFn R)
    (hfree : paddedSize len ≤ r.freeSlots) :
    ∃ r', SpscProducer.pushEncoded r len encode =
        some (.ok (r', (encode.run (lent r len)).2)) ∧
      Appended r r' (encode.run (lent r len)).1 := by
  obtain ⟨r₁, e₁, h₁⟩ := write_header h hfree
  obtain ⟨buf, hlent⟩ : ∃ buf, buf = lent r len := ⟨_, rfl⟩
  rw [← hlent]
  have hrun : (encode.run buf).1.length = len := by
    rw [encode.length_run, hlent, length_lent]
  simp only [SpscProducer.pushEncoded, writeChunkUninit_eq, if_pos hfree, SpscProducer.writeFrame]
  split
  · next hle =>
    have hslots : r.slots = r.tail - r.head := rfl
    have hfree' : r.freeSlots = r.capacity - r.slots := rfl
    have hhead := h.head_le
    have htail := h.tail_le
    have hpad := le_paddedSize len
    have hlen : (SpscProducer.header len).length = 4 := by simp [SpscProducer.header]
    have hsize : headerSize = 8 := rfl
    have hcap := h₁.capacity_eq
    have hchunk : r₁.chunkAt r.tail (paddedSize len) = r.chunkAt r.tail (paddedSize len) := by
      simp only [chunkAt, hcap]
    -- the header does not reach into the buffer
    have hbuf : ((r₁.readFirst (r.chunkAt r.tail (paddedSize len))).drop headerSize).take len =
        buf := by
      rw [hlent, lent, if_pos hle, ← hchunk, readFirst_eq_window r₁ (by omega), hchunk,
        drop_window r₁ _ (by omega), take_window r₁ _ (by omega),
        h₁.window_of_disjoint (by omega) (by omega) (by omega)]
    obtain ⟨r₂, r₃, r₄, e₂, e₃, e₄, happ⟩ :=
      write_contiguous h (encode.run buf).1 (hrun ▸ hfree) (hrun ▸ h₁) (by rw [hrun])
        (by rw [hrun]; exact hle)
    rw [hrun] at e₃ happ
    exact ⟨_, by simp only [e₁, hbuf, e₂, e₃, e₄, Option.bind_eq_bind, Option.bind_some]; rfl, happ⟩
  · next hgt =>
    have hbuf : List.replicate len 0 = buf := by rw [hlent, lent, if_neg hgt]
    obtain ⟨r₂, r₃, r₄, hpos, e₂, e₃, e₄, happ⟩ :=
      write_split h (encode.run buf).1 (hrun ▸ hfree) (hrun ▸ h₁) (by rw [hrun])
        (by rw [hrun]; exact hgt)
    rw [hrun] at e₃ e₄ hpos happ
    exact ⟨_, by simp only [e₁, hbuf, e₂, if_pos hpos, e₃, e₄, Option.bind_eq_bind,
      Option.bind_some]; rfl, happ⟩

/-- An encoded message that fits the free slots is appended to the ring. The message is the buffer
as its closure left it; `buf` is what the closure was lent. -/
theorem pushEncoded_spec {R : Type} (h : HasRoom r r.tail) (encode : EncodeFn R)
    (hfree : paddedSize len ≤ r.freeSlots) :
    ∃ buf r', buf.length = len ∧
      SpscProducer.pushEncoded r len encode = some (.ok (r', (encode.run buf).2)) ∧
      Appended r r' (encode.run buf).1 := by
  obtain ⟨r', hpush, happ⟩ := pushEncoded_lent h encode hfree
  exact ⟨lent r len, r', length_lent r len, hpush, happ⟩

/-- An encoded message is rejected exactly when its padded size exceeds the free slots. -/
theorem pushEncoded_full {R : Type} (r : Ring) (encode : EncodeFn R)
    (hfull : ¬ paddedSize len ≤ r.freeSlots) :
    SpscProducer.pushEncoded r len encode = some (.error .full) := by
  simp only [SpscProducer.pushEncoded, writeChunkUninit_eq, if_neg hfull]

end Writers

/-! ### The reader -/

/-- From position `p` on, the ring holds exactly the frames of `msgs`, up to its tail. -/
def Frames (r : Ring) : ℕ → List (List UInt8) → Prop
  | p, [] => p = r.tail
  | p, msg :: msgs =>
    r.window p 4 = SpscProducer.header msg.length ∧
      r.window (p + headerSize) msg.length = msg ∧
      msg.length < 2 ^ 32 ∧
      p + paddedSize msg.length ≤ r.tail ∧
      Frames r (p + paddedSize msg.length) msgs

/-- The ring is aligned and holds exactly the frames of `msgs`, oldest first. -/
structure Holds (r : Ring) (msgs : List (List UInt8)) : Prop where
  aligned : Aligned r
  frames : Frames r r.head msgs

/-- The messages that `pop_all` would return now. -/
def pending (r : Ring) : List (List UInt8) := (SpscConsumer.popAll r).1

section Reader

variable {r r' : Ring} {msg : List UInt8} {msgs : List (List UInt8)}

/-- A fresh ring holds no message. -/
theorem holds_createQueue {capacity : ℕ} (hpos : 0 < capacity) (hdvd : 64 ∣ capacity)
    (mem : ℕ → UInt8) : Holds (createQueue capacity mem) [] :=
  ⟨aligned_createQueue hpos hdvd mem, rfl⟩

omit [Target] in
/-- A ring that has grown is a fresh one, larger than before and within the block limit. -/
theorem grow_spec {mem : ℕ → UInt8} (h : SpscProducer.grow r mem = some r') :
    r' = createQueue (min (r.capacity * 2) maxBlockCapacity) mem ∧ r.capacity < r'.capacity ∧
      r'.capacity ≤ maxBlockCapacity := by
  by_cases hle : min (SpscProducer.capacity r * 2) maxBlockCapacity ≤ SpscProducer.capacity r
  · simp only [SpscProducer.grow, if_pos hle, reduceCtorEq] at h
  · simp only [SpscProducer.grow, if_neg hle, Option.some.injEq] at h
    subst h
    exact ⟨rfl, not_le.mp hle, min_le_right _ _⟩

/-- A ring that has grown holds no message. -/
theorem holds_grow {mem : ℕ → UInt8} (ha : Aligned r) (h : SpscProducer.grow r mem = some r') :
    Holds r' [] := by
  obtain ⟨rfl, hlt, -⟩ := grow_spec h
  have hdvd : 64 ∣ min (r.capacity * 2) maxBlockCapacity := by
    have hcap := ha.capacity_dvd
    rw [maxBlockCapacity]
    omega
  exact holds_createQueue (Nat.zero_lt_of_lt hlt) hdvd mem

/-- Appending a frame to the ring appends its message to the frames. -/
theorem frames_appended (happ : Appended r r' msg) (hlen : msg.length < 2 ^ 32) {p : ℕ}
    (hp : r.head ≤ p) (h : Frames r p msgs) : Frames r' p (msgs ++ [msg]) := by
  induction msgs generalizing p with
  | nil =>
    obtain rfl : p = r.tail := h
    exact ⟨happ.header_eq, happ.payload_eq, hlen, happ.tail_eq.ge, happ.tail_eq.symm⟩
  | cons m ms ih =>
    obtain ⟨hhead, hpay, hm, hle, hrest⟩ := h
    have hpad := le_paddedSize m.length
    have hsize : headerSize = 8 := rfl
    refine ⟨?_, ?_, hm, ?_, ih (by omega) hrest⟩
    · rw [happ.window_eq _ _ hp (by omega), hhead]
    · rw [happ.window_eq _ _ (by omega) (by omega), hpay]
    · rw [happ.tail_eq]; omega

/-- Only the tail and the windows above the head matter to the frames. -/
theorem frames_commitRead {n p : ℕ} (h : Frames r p msgs) :
    Frames (r.commitRead n) p msgs := by
  induction msgs generalizing p with
  | nil => exact h
  | cons m ms ih => exact ⟨h.1, h.2.1, h.2.2.1, h.2.2.2.1, ih h.2.2.2.2⟩

/-- An accepted message becomes the last one the ring holds. -/
theorem Holds.appended (h : Holds r msgs) (happ : Appended r r' msg)
    (hfree : paddedSize msg.length ≤ r.freeSlots) (hlen : msg.length < 2 ^ 32) :
    Holds r' (msgs ++ [msg]) :=
  ⟨h.aligned.appended happ hfree, happ.head_eq ▸ frames_appended happ hlen le_rfl h.frames⟩

/-- `pop` reports a ring without frames. -/
theorem pop_of_frames_nil (h : Frames r r.head []) : SpscConsumer.pop r = (none, r) := by
  have hslots : r.slots = 0 := by
    simp only [Frames] at h
    rw [slots, h, Nat.sub_self]
  simp [SpscConsumer.pop, hslots, headerSize]

/-- `pop` reports an empty ring. -/
theorem pop_nil (h : Holds r []) : SpscConsumer.pop r = (none, r) := pop_of_frames_nil h.frames

/-- `pop` goes by the length in the first header: it takes a frame of that length, or nothing when
the filled slots are fewer. -/
theorem pop_eq (h : HasRoom r r.head) {n : ℕ}
    (hn : fromNeBytes (r.window r.head 4) = n) :
    SpscConsumer.pop r = if paddedSize n ≤ r.slots then
      (some (r.window (r.head + headerSize) n), r.commitRead (paddedSize n)) else (none, r) := by
  have hslots : r.slots = r.tail - r.head := rfl
  have htail := h.tail_le
  have hpad := le_paddedSize n
  have hsize : headerSize = 8 := rfl
  by_cases hshort : r.slots < headerSize
  · rw [if_neg (by omega), SpscConsumer.pop, if_pos hshort]
  have hfirst := h.le_firstLen (not_lt.mp hshort)
  have hread := readFirst_append_readSecond r r.head r.slots (by omega)
  set first := r.readFirst (r.chunkAt r.head r.slots) with hf
  set second := r.readSecond (r.chunkAt r.head r.slots) with hs
  have hlen₁ : headerSize ≤ first.length := by rw [hf, length_readFirst]; exact hfirst
  have hlen₂ : first.length + second.length = r.slots := by
    rw [hf, hs, length_readFirst, length_readSecond, firstLen_add_secondLen]
  -- the header is read from the first slice
  have hheader : first.take 4 = r.window r.head 4 := by
    rw [← take_window r r.head (show 4 ≤ r.slots by omega), ← hread,
      List.take_append_of_le_length (by omega)]
  simp only [SpscConsumer.pop, RingBuffer.readChunk, le_refl, if_true, ← hf, ← hs, hheader, hn]
  rw [if_neg (by omega), if_neg (by omega), hlen₂]
  change (if r.slots < paddedSize n then _ else _) = _
  by_cases hle : paddedSize n ≤ r.slots
  · -- the payload is what follows the header, across the two slices
    have hmsg : (first.drop headerSize).take (min (first.length - headerSize) n) ++
        second.take (min (n - min (first.length - headerSize) n) second.length) =
          r.window (r.head + headerSize) n := by
      have hdrop : first.drop headerSize ++ second = r.window (r.head + headerSize)
          (r.slots - headerSize) := by
        rw [← drop_window r r.head (show headerSize ≤ r.slots by omega), ← hread,
          List.drop_append_of_le_length (by omega)]
      have htake : (first.drop headerSize ++ second).take n =
          r.window (r.head + headerSize) n := by
        rw [hdrop, take_window r _ (by omega)]
      rw [List.take_append, List.length_drop] at htake
      rw [← htake]
      rcases Nat.le_total n (first.length - headerSize) with hc | hc
      · rw [min_eq_right hc, Nat.sub_self, Nat.zero_min, Nat.sub_eq_zero_of_le hc]
      · have hshort : (first.drop headerSize).length ≤ n := by
          rw [List.length_drop]; exact hc
        rw [List.take_of_length_le hshort, min_eq_left hc, min_eq_left (by omega),
          List.take_of_length_le (by simp)]
    rw [if_neg (not_lt.mpr hle), if_pos hle, hmsg]
    rfl
  · rw [if_pos (not_le.mp hle), if_neg hle]

/-- `pop` takes the first frame where there is room for its header. -/
theorem pop_of_frames_cons (hroom : HasRoom r r.head) (h : Frames r r.head (msg :: msgs)) :
    SpscConsumer.pop r = (some msg, r.commitRead (paddedSize msg.length)) ∧
      Frames (r.commitRead (paddedSize msg.length)) (r.head + paddedSize msg.length) msgs := by
  obtain ⟨hhead, hpay, hlen, hle, hrest⟩ := h
  have hslots : r.slots = r.tail - r.head := rfl
  have hmsgLen : fromNeBytes (r.window r.head 4) = msg.length := by
    rw [hhead, SpscProducer.header, Nat.mod_eq_of_lt hlen]
    exact fromNeBytes_toNeBytes (by omega)
  refine ⟨?_, frames_commitRead hrest⟩
  rw [pop_eq hroom hmsgLen, if_pos (by omega), hpay]

/-- `pop` takes the oldest message out of the ring. -/
theorem pop_cons (h : Holds r (msg :: msgs)) :
    SpscConsumer.pop r = (some msg, r.commitRead (paddedSize msg.length)) ∧
      Holds (r.commitRead (paddedSize msg.length)) msgs := by
  have ha := h.aligned
  obtain ⟨hpop, hframes⟩ := pop_of_frames_cons ha.hasRoom_head h.frames
  have hle : r.head + paddedSize msg.length ≤ r.tail := h.frames.2.2.2.1
  have htail := ha.tail_le
  refine ⟨hpop, ⟨ha.capacity_pos, ha.capacity_dvd, ?_, ha.tail_dvd, hle, ?_⟩, hframes⟩
  · exact Nat.dvd_add ha.head_dvd (dvd_paddedSize _)
  · simp only [commitRead]
    omega

/-- `pop_all` returns the held messages in order and leaves none. -/
theorem popAll_holds (h : Holds r msgs) :
    (SpscConsumer.popAll r).1 = msgs ∧ Holds (SpscConsumer.popAll r).2 [] := by
  induction msgs generalizing r with
  | nil =>
    rw [SpscConsumer.popAll_eq, pop_nil h]
    exact ⟨rfl, h⟩
  | cons m ms ih =>
    obtain ⟨hpop, hrest⟩ := pop_cons h
    rw [SpscConsumer.popAll_eq, hpop]
    exact ⟨congrArg _ (ih hrest).1, (ih hrest).2⟩

@[simp]
theorem pending_of_holds (h : Holds r msgs) : pending r = msgs := (popAll_holds h).1

/-- One of several rings is replaced. -/
theorem holds_update {rings : ℕ → Ring} {b k : ℕ} (hr : Holds r msgs)
    (h : Holds (rings k) (pending (rings k))) :
    Holds (Function.update rings b r k) (pending (Function.update rings b r k)) := by
  rcases eq_or_ne k b with rfl | hne
  · rwa [Function.update_self, pending_of_holds hr]
  · rwa [Function.update_of_ne hne]

/-- `is_empty` tells whether a message is held. -/
theorem isEmpty_of_holds (h : Holds r msgs) : SpscConsumer.isEmpty r = true ↔ msgs = [] := by
  have hslots : r.slots = r.tail - r.head := rfl
  simp only [SpscConsumer.isEmpty, RingBuffer.isEmpty, beq_iff_eq]
  cases msgs with
  | nil =>
    have hp : r.head = r.tail := h.frames
    simp only [iff_true]
    omega
  | cons m ms =>
    have hle := h.frames.2.2.2.1
    have hpos := paddedSize_pos m.length
    simp only [reduceCtorEq, iff_false]
    omega

end Reader

end RapidLog
