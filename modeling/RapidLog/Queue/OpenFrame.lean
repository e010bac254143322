import RapidLog.Queue.Framing

/-!
# Calls of `push_encoded` in progress

`push_encoded` lends the message buffer to a closure while its chunk is reserved and not yet
committed, and the closure may do anything before it returns. Here the call is cut at the points
where the closure runs: `openFrame` reserves the chunk, `encodeWrite` is one write of the closure
to the buffer it was lent, `closeFrame` is what the call does between the closure and its commit.

## Main results

* `pushEncoded_eq_steps`: without interruption, the steps are `push_encoded`;
* `openFrame_spec`, `encodeWrite_spec`, `closeFrame_spec`: as long as the frame lies behind the
  tail (`OpenAt`), each step keeps what the reader can see, and the closed frame holds the buffer.
-/

namespace RapidLog

open Queue RingBuffer

variable [Target]

/-- A call of `push_encoded` between its reservation and its commit. The closure was lent the ring
memory itself, or the temporary buffer `tmp`. -/
structure OpenFrame where
  chunk : Chunk
  totalMsg : ℕ
  tmp : Option (List UInt8)

namespace SpscProducer

/-- `push_encoded` up to its call of the closure. -/
def openFrame (r : Ring) (totalMsg : ℕ) : Option (Except PushError (Ring × OpenFrame)) :=
  let total := headerSize + totalMsg
  let padded := alignUp total cacheLine
  match r.writeChunkUninit padded with
  | none => some (.error .full)
  | some chunk =>
    if total ≤ chunk.firstLen then do
      let r ← r.writeFirst chunk 0 (header totalMsg)
      return .ok (r, { chunk, totalMsg, tmp := none })
    else
      some (.ok (r, { chunk, totalMsg, tmp := some (List.replicate totalMsg 0) }))

/-- The closure copies `bytes` over the buffer it was lent, from offset `off` on. -/
def encodeWrite (r : Ring) (f : OpenFrame) (off : ℕ) (bytes : List UInt8) :
    Option (Ring × OpenFrame) :=
  match f.tmp with
  | none => do
    let r ← r.writeFirst f.chunk (headerSize + off) bytes
    return (r, f)
  | some tmp => some (r, { f with tmp := some (Slice.splice tmp off bytes) })

/-- Several writes of the closure. -/
def encodeWrites (r : Ring) (f : OpenFrame) :
    List (ℕ × List UInt8) → Option (Ring × OpenFrame)
  | [] => some (r, f)
  | (off, bytes) :: writes => do
    let (r, f) ← encodeWrite r f off bytes
    encodeWrites r f writes

/-- `push_encoded` from the return of the closure up to the commit. -/
def closeFrame (r : Ring) (f : OpenFrame) : Option Ring :=
  let total := headerSize + f.totalMsg
  match f.tmp with
  | none => do
    let r ← r.writeFirst f.chunk total (List.replicate (f.chunk.firstLen - total) 0)
    r.writeSecond f.chunk 0 (List.replicate f.chunk.secondLen 0)
  | some tmp => do
    let r ← r.writeFirst f.chunk 0 (header f.totalMsg)
    let firstData := f.chunk.firstLen - headerSize
    let r ← r.writeFirst f.chunk headerSize (tmp.take firstData)
    let remaining := f.totalMsg - firstData
    if 0 < remaining then do
      let r ← r.writeSecond f.chunk 0 ((tmp.drop firstData).take remaining)
      r.writeSecond f.chunk remaining (List.replicate (f.chunk.secondLen - remaining) 0)
    else some r

end SpscProducer

/-- The closure that makes the given writes one after the other. A write that does not fit the
buffer is a slice index out of range, and is left out. -/
def EncodeFn.ofWrites (writes : List (ℕ × List UInt8)) : EncodeFn Unit where
  run buf := (Slice.spliceAll buf (writes.filter fun w => w.1 + w.2.length ≤ buf.length), ())
  length_run buf := Slice.length_spliceAll fun w hw => by
    simpa using (List.mem_filter.mp hw).2

/-! ### The steps put together -/

section Steps

variable {r : Ring} {chunk : Chunk}

omit [Target] in
/-- Overwriting slots with what they hold changes nothing. -/
private theorem overlay_read (mem : ℕ → UInt8) (pos n : ℕ) :
    overlay mem pos ((List.range n).map fun k => mem (pos + k)) = mem := by
  funext i
  simp only [overlay]
  split
  · next h =>
    by_cases hi : i - pos < n
    · simp [hi, Nat.add_sub_cancel' h]
    · simp [hi]
  · rfl

omit [Target] in
/-- Overwriting part of overwritten slots is overwriting them with the spliced list. -/
private theorem overlay_splice (mem : ℕ → UInt8) (pos : ℕ) {buf xs : List UInt8} {off : ℕ}
    (h : off + xs.length ≤ buf.length) :
    overlay (overlay mem pos buf) (pos + off) xs = overlay mem pos (Slice.splice buf off xs) := by
  funext i
  simp only [overlay]
  by_cases hpos : pos ≤ i
  · rw [if_pos hpos, if_pos hpos, Slice.getElem?_splice h]
    by_cases hin : pos + off ≤ i ∧ i < pos + off + xs.length
    · have hlt : i - pos - off < xs.length := by omega
      rw [if_pos hin.1, if_pos (by omega), Nat.sub_add_eq]
      simp [hlt]
    · rw [if_neg (c := off ≤ i - pos ∧ _) (by omega)]
      split
      · rw [List.getElem?_eq_none (by omega), Option.getD_none]
      · rfl
  · rw [if_neg hpos, if_neg (by omega), if_neg hpos]

omit [Target] in
/-- The writes of a closure to the first slice are one write of the buffer they leave. -/
private theorem encodeWrites_inPlace {n : ℕ} (hle : headerSize + n ≤ chunk.firstLen)
    {writes : List (ℕ × List UInt8)} (hw : ∀ w ∈ writes, w.1 + w.2.length ≤ n)
    (buf : List UInt8) (hbuf : buf.length = n) :
    SpscProducer.encodeWrites { r with mem := overlay r.mem (chunk.first + headerSize) buf }
        ⟨chunk, n, none⟩ writes =
      some ({ r with
        mem := overlay r.mem (chunk.first + headerSize) (Slice.spliceAll buf writes) },
        ⟨chunk, n, none⟩) := by
  induction writes generalizing buf with
  | nil => rfl
  | cons w ws ih =>
    have hfit : w.1 + w.2.length ≤ n := hw w (by simp)
    have hwrite : RingBuffer.writeFirst
        { r with mem := overlay r.mem (chunk.first + headerSize) buf }
        chunk (headerSize + w.1) w.2 = some { r with
          mem := overlay r.mem (chunk.first + headerSize) (Slice.splice buf w.1 w.2) } := by
      rw [writeFirst, if_pos (Or.inr (by omega)), ← Nat.add_assoc, overlay_splice _ _ (by omega)]
    rw [SpscProducer.encodeWrites, SpscProducer.encodeWrite]
    simp only [hwrite, Option.bind_eq_bind, Option.bind_some, Option.pure_def]
    exact ih (fun v hv => hw v (by simp [hv])) _ ((Slice.length_splice (by omega)).trans hbuf)

omit [Target] in
/-- The writes of a closure to a temporary buffer leave the ring alone. -/
private theorem encodeWrites_tmp {n : ℕ} (writes : List (ℕ × List UInt8)) (buf : List UInt8) :
    SpscProducer.encodeWrites r ⟨chunk, n, some buf⟩ writes =
      some (r, ⟨chunk, n, some (Slice.spliceAll buf writes)⟩) := by
  induction writes generalizing buf with
  | nil => rfl
  | cons w ws ih => exact ih _

omit [Target] in
private theorem run_ofWrites {n : ℕ} {writes : List (ℕ × List UInt8)}
    (hw : ∀ w ∈ writes, w.1 + w.2.length ≤ n) (buf : List UInt8) (hbuf : buf.length = n) :
    (EncodeFn.ofWrites writes).run buf = (Slice.spliceAll buf writes, ()) := by
  have hall : writes.filter (fun w => w.1 + w.2.length ≤ buf.length) = writes :=
    List.filter_eq_self.mpr fun w hmem => by simpa [hbuf] using hw w hmem
  simp only [EncodeFn.ofWrites, hall]

/-- Reserving a frame, making the writes of the closure, closing the frame and committing it is
`push_encoded` with that closure. -/
theorem pushEncoded_eq_steps (r : Ring) {n : ℕ} {writes : List (ℕ × List UInt8)}
    (hw : ∀ w ∈ writes, w.1 + w.2.length ≤ n) :
    SpscProducer.pushEncoded r n (EncodeFn.ofWrites writes) =
      (SpscProducer.openFrame r n).bind fun
        | .error e => some (.error e)
        | .ok (r, f) => do
          let (r, f) ← SpscProducer.encodeWrites r f writes
          let r ← SpscProducer.closeFrame r f
          return .ok (r.commitWrite (alignUp (headerSize + n) cacheLine), ()) := by
  simp only [SpscProducer.pushEncoded, SpscProducer.openFrame, SpscProducer.writeFrame]
  cases hres : r.writeChunkUninit (alignUp (headerSize + n) cacheLine) with
  | none => rfl
  | some chunk =>
    simp only
    split
    · next hle =>
      simp only [Option.bind_eq_bind, Option.pure_def, Option.bind_assoc, Option.map_bind,
        Function.comp_def, Option.map_some]
      congr 1
      funext r₁
      -- the closure is lent whatever the slots behind the header hold
      have hlen : (((r₁.readFirst chunk).drop headerSize).take n).length = n := by
        rw [List.length_take, List.length_drop, length_readFirst]; omega
      have hread : ((r₁.readFirst chunk).drop headerSize).take n =
          (List.range n).map fun k => r₁.mem (chunk.first + headerSize + k) := by
        refine List.ext_getElem (by rw [hlen]; simp) fun k h₁ h₂ => ?_
        simp [readFirst, Nat.add_assoc]
      have hsteps := encodeWrites_inPlace (r := r₁) hle hw
        (((r₁.readFirst chunk).drop headerSize).take n) hlen
      rw [hread, overlay_read, ← hread] at hsteps
      have hlen' := (Slice.length_spliceAll fun w hmem => hlen.symm ▸ hw w hmem).trans hlen
      have hrun := run_ofWrites hw _ hlen
      simp only [hrun, Option.bind_some, hsteps, SpscProducer.closeFrame, Option.bind_eq_bind]
      rw [RingBuffer.writeFirst, if_pos (Or.inr (by rw [hlen']; exact hle))]
      simp only [Option.bind_some, Option.bind_assoc]
    · next hgt =>
      -- the closure writes into a temporary buffer, and the ring is written when it has returned
      have hrun := run_ofWrites hw (List.replicate n 0) (by simp)
      simp only [hrun, Option.bind_some, encodeWrites_tmp, SpscProducer.closeFrame,
        Option.bind_eq_bind, Option.pure_def, Option.bind_assoc, Option.map_bind,
        Function.comp_def]
      by_cases hrem : 0 < n - (chunk.firstLen - headerSize)
      · simp only [if_pos hrem, Option.bind_assoc, Option.map_bind, Function.comp_def,
          Option.map_some]
      · simp only [if_neg hrem, Option.bind_some, Option.map_some]

end Steps

/-! ### One step at a time -/

/-- The reader sees the same in `r'` as in `r`: positions and filled slots agree. -/
structure SameView (r r' : Ring) : Prop where
  capacity_eq : r'.capacity = r.capacity
  head_eq : r'.head = r.head
  tail_eq : r'.tail = r.tail
  window_eq : ∀ q n, r.head ≤ q → q + n ≤ r.tail → r'.window q n = r.window q n

/-- The frame `f` was reserved right behind the tail of `r`, and its closure has so far left
`buf` in the buffer it was lent. -/
structure OpenAt (r : Ring) (f : OpenFrame) (buf : List UInt8) : Prop where
  chunk_eq : f.chunk = r.chunkAt r.tail (paddedSize f.totalMsg)
  fits : paddedSize f.totalMsg ≤ r.freeSlots
  length_eq : buf.length = f.totalMsg
  contents :
    (f.tmp = none ∧ headerSize + f.totalMsg ≤ f.chunk.firstLen ∧
      r.window r.tail 4 = SpscProducer.header f.totalMsg ∧
      r.window (r.tail + headerSize) f.totalMsg = buf) ∨
    (f.tmp = some buf ∧ ¬ headerSize + f.totalMsg ≤ f.chunk.firstLen)

section Specs

variable {r r' : Ring} {f : OpenFrame} {buf : List UInt8} {msgs : List (List UInt8)}

omit [Target] in
theorem SameView.refl (r : Ring) : SameView r r := ⟨rfl, rfl, rfl, fun _ _ _ _ => rfl⟩

/-- The frames behind the head are part of what the reader sees. -/
theorem SameView.frames (h : SameView r r') {p : ℕ} (hp : r.head ≤ p) (hfr : Frames r p msgs) :
    Frames r' p msgs := by
  induction msgs generalizing p with
  | nil => exact Eq.trans hfr h.tail_eq.symm
  | cons m ms ih =>
    obtain ⟨hhead, hpay, hm, hend, hrest⟩ := hfr
    have hpad := le_paddedSize m.length
    have hsize : headerSize = 8 := rfl
    exact ⟨(h.window_eq _ _ hp (by omega)).trans hhead,
      (h.window_eq _ _ (by omega) (by omega)).trans hpay, hm, h.tail_eq ▸ hend,
      ih (by omega) hrest⟩

/-- A ring that looks the same to the reader holds the same messages. -/
theorem SameView.holds (h : SameView r r') (hr : Holds r msgs) : Holds r' msgs := by
  obtain ⟨⟨hpos, hdvd, hhead, htail, hle, hcap⟩, hframes⟩ := hr
  refine ⟨⟨h.capacity_eq ▸ hpos, h.capacity_eq ▸ hdvd, h.head_eq ▸ hhead, h.tail_eq ▸ htail,
    ?_, ?_⟩, h.head_eq ▸ h.frames le_rfl hframes⟩
  · rw [h.head_eq, h.tail_eq]; exact hle
  · rw [h.head_eq, h.tail_eq, h.capacity_eq]; exact hcap

omit [Target] in
/-- A write behind the tail is invisible to the reader. -/
theorem sameView_of_wrote {p : ℕ} {xs : List UInt8} (ha : Aligned r)
    (h : Wrote r r' r.head p xs) (hp : r.tail ≤ p) : SameView r r' := by
  have htail := ha.tail_le
  exact ⟨h.capacity_eq, h.head_eq, h.tail_eq, fun q n hq hn =>
    h.window_of_disjoint hq (by omega) (.inl (by omega))⟩

/-- The consumer frees slots and leaves the reserved ones alone. -/
theorem OpenAt.commitRead (h : OpenAt r f buf) (k : ℕ) : OpenAt (r.commitRead k) f buf := by
  refine ⟨h.chunk_eq, h.fits.trans ?_, h.length_eq, h.contents⟩
  simp only [freeSlots, slots_commitRead]
  exact Nat.sub_le_sub_left (Nat.sub_le _ _) _

/-- A frame that fits the free slots is reserved behind the tail. -/
theorem openFrame_spec (ha : Aligned r) {n : ℕ} (hfree : paddedSize n ≤ r.freeSlots) :
    ∃ r' f buf, SpscProducer.openFrame r n = some (.ok (r', f)) ∧ f.totalMsg = n ∧
      SameView r r' ∧ OpenAt r' f buf := by
  obtain ⟨r₁, e₁, h₁⟩ := write_header ha.hasRoom_tail hfree
  have hcap := h₁.capacity_eq
  have hhead := h₁.head_eq
  have htail := h₁.tail_eq
  simp only [SpscProducer.openFrame, writeChunkUninit_eq, if_pos hfree]
  split
  · next hle =>
    -- the header is in the ring, and in front of the closure lies what was there before
    refine ⟨r₁, _, r₁.window (r₁.tail + headerSize) n,
      by simp only [e₁, Option.bind_eq_bind, Option.bind_some]; rfl, rfl,
      sameView_of_wrote ha h₁ le_rfl, ?_, ?_, by simp, .inl ⟨rfl, hle, ?_, rfl⟩⟩
    · simp only [chunkAt, hcap, htail]
    · simp only [freeSlots, slots, hcap, hhead, htail] at hfree ⊢
      exact hfree
    · have hlen : (SpscProducer.header n).length = 4 := by simp [SpscProducer.header]
      have hlimit := ha.tail_le
      have hpad := le_paddedSize n
      have hfree' : r.freeSlots = r.capacity - (r.tail - r.head) := rfl
      have hsize : headerSize = 8 := rfl
      have hself := h₁.window_self ha.head_le (by omega)
      rwa [htail, ← hlen]
  · next hgt =>
    -- nothing is written yet
    exact ⟨r, _, List.replicate n 0, rfl, rfl, .refl r, rfl, hfree, by simp, .inr ⟨rfl, hgt⟩⟩

/-- A frame is refused exactly when its padded size exceeds the free slots. -/
theorem openFrame_full (r : Ring) {n : ℕ} (hfull : ¬ paddedSize n ≤ r.freeSlots) :
    SpscProducer.openFrame r n = some (.error .full) := by
  simp only [SpscProducer.openFrame, writeChunkUninit_eq, if_neg hfull]

/-- A write of the closure changes the buffer it was lent, and nothing that the reader sees. -/
theorem encodeWrite_spec (ha : Aligned r) (ho : OpenAt r f buf) {off : ℕ} {bytes : List UInt8}
    (hfit : off + bytes.length ≤ f.totalMsg) :
    ∃ r' f', SpscProducer.encodeWrite r f off bytes = some (r', f') ∧ f'.totalMsg = f.totalMsg ∧
      SameView r r' ∧ OpenAt r' f' (Slice.splice buf off bytes) := by
  have hlen := (Slice.length_splice (ho.length_eq ▸ hfit)).trans ho.length_eq
  rcases ho.contents with ⟨htmp, hle, hhead, hpay⟩ | ⟨htmp, hgt⟩
  · have hfits := ho.fits
    have hcap := ha.tail_le
    have hhd := ha.head_le
    have hpad := le_paddedSize f.totalMsg
    have hfree : r.freeSlots = r.capacity - (r.tail - r.head) := rfl
    have hsize : headerSize = 8 := rfl
    -- the bytes go behind the header, so that it stays as it is
    obtain ⟨r', e, h⟩ := wrote_writeFirst r r.head r.tail (paddedSize f.totalMsg)
      (headerSize + off) bytes (by omega) (by omega)
      (by rw [← ho.chunk_eq]; omega)
    rw [← ho.chunk_eq] at e
    rw [← Nat.add_assoc] at h
    refine ⟨r', f, by simp [SpscProducer.encodeWrite, htmp, e], rfl,
      sameView_of_wrote ha h (by omega), ?_, ?_, hlen, .inl ⟨htmp, hle, ?_, ?_⟩⟩
    · rw [ho.chunk_eq]; simp only [chunkAt, h.capacity_eq, h.tail_eq]
    · simp only [freeSlots, slots, h.capacity_eq, h.head_eq, h.tail_eq] at hfits ⊢
      exact hfits
    · rw [h.tail_eq, h.window_of_disjoint (by omega) (by omega) (.inl (by omega)), hhead]
    · rw [h.tail_eq, h.window_splice (by omega) (by omega) hfit, hpay]
  · exact ⟨r, { f with tmp := some (Slice.splice buf off bytes) },
      by simp [SpscProducer.encodeWrite, htmp], rfl, .refl r, ho.chunk_eq, ho.fits, hlen,
      .inr ⟨rfl, hgt⟩⟩

/-- Closing the frame and committing it appends the buffer to the ring. -/
theorem closeFrame_spec (ha : Aligned r) (ho : OpenAt r f buf) :
    ∃ r', SpscProducer.closeFrame r f = some r' ∧
      Appended r (r'.commitWrite (paddedSize f.totalMsg)) buf := by
  have hfits := ho.fits
  have hlen := ho.length_eq
  rcases ho.contents with ⟨htmp, hle, hhead, hpay⟩ | ⟨htmp, hgt⟩
  · have hcap := ha.tail_le
    have hhd := ha.head_le
    have hpad := le_paddedSize f.totalMsg
    have hfree : r.freeSlots = r.capacity - (r.tail - r.head) := rfl
    have hsize : headerSize = 8 := rfl
    have hchunk := ho.chunk_eq
    obtain ⟨hfirst, hsecond⟩ := chunk_of_le ha (hchunk ▸ hle)
    rw [← hchunk] at hfirst hsecond
    -- header and payload are there, and only the padding is written
    obtain ⟨r', e, h⟩ := wrote_writeFirst r r.head r.tail (paddedSize f.totalMsg)
      (headerSize + f.totalMsg)
      (List.replicate (f.chunk.firstLen - (headerSize + f.totalMsg)) 0) (by omega)
      (by omega) (by rw [List.length_replicate, ← hchunk]; omega)
    rw [← hchunk] at e
    refine ⟨r', by simp [SpscProducer.closeFrame, htmp, e, hsecond], h.capacity_eq, h.head_eq,
      ?_, fun q n hq hn => ?_, ?_, ?_⟩
    · rw [hlen]; exact congrArg (· + _) h.tail_eq
    · rw [window_commitWrite, h.window_of_disjoint hq (by omega) (.inl (by omega))]
    · rw [window_commitWrite, h.window_of_disjoint (by omega) (by omega) (.inl (by omega)),
        hhead, hlen]
    · rw [window_commitWrite, h.window_of_disjoint (by omega) (by omega) (.inl (by omega)),
        hlen, hpay]
  · -- header, payload and padding are written now, the payload in two parts
    obtain ⟨r₁, e₁, h₁⟩ := write_header ha.hasRoom_tail hfits
    obtain ⟨r₂, r₃, r₄, hpos, e₂, e₃, e₄, happ⟩ := write_split ha.hasRoom_tail buf (hlen ▸ hfits)
      (hlen ▸ h₁) (show f.chunk = _ by rw [hlen]; exact ho.chunk_eq) (by rw [hlen]; exact hgt)
    rw [hlen] at hpos e₃ e₄ happ
    refine ⟨r₄, ?_, happ⟩
    rw [← ho.chunk_eq] at e₁
    simp only [SpscProducer.closeFrame, htmp, e₁, e₂, if_pos hpos, e₃, e₄, Option.bind_eq_bind,
      Option.bind_some]

end Specs

end RapidLog
