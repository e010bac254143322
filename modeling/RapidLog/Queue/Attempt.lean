import RapidLog.Queue.Bounds

/-!
# What one attempt to push does

`push_encoded` takes a closure that may change what it has captured (`EncodeMut`). An attempt that
gets its chunk runs the closure once, and one that is refused never does.

`EndsWith r msg` says that `msg` is the last message of the ring, as the reader sees it: once
everything in front of the last frame has been taken, `pop` returns `msg` and the ring is empty. A
message is accepted in this sense when all eight bytes of its header stand before the physical end
of the ring and its length fits the `u32` of the header, and otherwise it is not, although the
writer reports that it was.
-/

namespace RapidLog

open Queue RingBuffer

/-! ### Closures that change what they have captured -/

/-- A closure `FnMut(&mut [u8]) -> R` that has captured a value of type `σ`. -/
structure EncodeMut (σ R : Type) where
  /-- The buffer after the call, the result, and what is captured after the call. -/
  run : σ → List UInt8 → (List UInt8 × R) × σ
  length_run : ∀ captured buf, (run captured buf).1.1.length = buf.length

variable {σ R : Type}

/-- One call of the closure, which also returns what is captured after it. -/
def EncodeMut.holding (encode : EncodeMut σ R) (captured : σ) : EncodeFn (R × σ) where
  run buf :=
    let ((buf, result), captured) := encode.run captured buf
    (buf, result, captured)
  length_run := encode.length_run captured

/-- The closure, counting its calls. -/
def EncodeFn.counting (encode : EncodeFn R) : EncodeMut ℕ R where
  run calls buf := (encode.run buf, calls + 1)
  length_run _ := encode.length_run

namespace SpscProducer

variable [Target]

/-- `push_encoded` with a closure that changes what it has captured: it runs the closure at most
once, so what the closure has captured then can be taken for a part of its result. A push that is
refused has not run it. -/
def pushEncodedMut (r : Ring) (totalMsg : ℕ) (encode : EncodeMut σ R) (captured : σ) :
    Option (Except PushError (Ring × R) × σ) :=
  (pushEncoded r totalMsg (encode.holding captured)).map fun
    | .ok (r, result, captured) => (.ok (r, result), captured)
    | .error e => (.error e, captured)

/-- An attempt that fits the free slots calls the closure once, on a buffer of the message length:
what it returns and what is captured then are those of this call. -/
theorem pushEncodedMut_inBounds {r : Ring} (totalMsg : ℕ) (encode : EncodeMut σ R) (captured : σ)
    (hfree : paddedSize totalMsg ≤ r.freeSlots) (hroom : HeaderRoom r) :
    ∃ buf r', buf.length = totalMsg ∧ pushEncodedMut r totalMsg encode captured =
      some (.ok (r', (encode.run captured buf).1.2), (encode.run captured buf).2) := by
  obtain ⟨buf, r', hlen, hpush, -⟩ :=
    pushEncoded_inBounds totalMsg (encode.holding captured) hfree hroom
  refine ⟨buf, r', hlen, ?_⟩
  rw [pushEncodedMut, hpush]
  rfl

/-- An attempt that does not fit does not call the closure. -/
theorem pushEncodedMut_full {r : Ring} (totalMsg : ℕ) (encode : EncodeMut σ R) (captured : σ)
    (hfull : ¬ paddedSize totalMsg ≤ r.freeSlots) :
    pushEncodedMut r totalMsg encode captured = some (.error .full, captured) := by
  rw [pushEncodedMut, pushEncoded_full r (encode.holding captured) hfull]
  rfl

end SpscProducer

/-! ### The last message of a ring -/

variable [Target] {r r' : Ring} {msg : List UInt8}

/-- A reader that has taken everything in front of the last frame of the ring pops `msg`, and then
the ring is empty. -/
def EndsWith (r : Ring) (msg : List UInt8) : Prop :=
  SpscConsumer.pop { r with head := r.tail - paddedSize msg.length } =
    (some msg, { r with head := r.tail })

/-- The last of the messages that a ring holds. -/
theorem Frames.endsWith {msgs : List (List UInt8)} {p : ℕ} (ha : Aligned r) (hp : 64 ∣ p)
    (hle : r.head ≤ p) (h : Frames r p (msgs ++ [msg])) : EndsWith r msg := by
  induction msgs generalizing p with
  | nil =>
    obtain ⟨hhead, hpay, hlen, htail, hend⟩ := h
    have hend : p + paddedSize msg.length = r.tail := hend
    have hroom : HasRoom { r with head := p } p :=
      ⟨(ha.hasRoom hp).room, by simp only; omega, by have := ha.tail_le; simp only; omega⟩
    have hframes : Frames { r with head := p } p [msg] := ⟨hhead, hpay, hlen, htail, hend⟩
    rw [EndsWith, show r.tail - paddedSize msg.length = p by omega,
      (pop_of_frames_cons hroom hframes).1, commitRead, hend]
  | cons m ms ih =>
    obtain ⟨-, -, -, -, hrest⟩ := h
    exact ih (Nat.dvd_add hp (dvd_paddedSize _)) (by omega) hrest

/-- A ring that holds messages ends with the last of them. -/
theorem Holds.endsWith {msgs : List (List UInt8)} (h : Holds r (msgs ++ [msg])) :
    EndsWith r msg :=
  h.frames.endsWith h.aligned h.aligned.head_dvd le_rfl

/-- A ring to which a frame has been appended ends with its message exactly when the header can
store the length. -/
theorem Appended.endsWith_iff (happ : Appended r r' msg) (h : HasRoom r r.tail)
    (hfree : paddedSize msg.length ≤ r.freeSlots) : EndsWith r' msg ↔ msg.length < 2 ^ 32 := by
  have hslots : r.slots = r.tail - r.head := rfl
  have hfree' : r.freeSlots = r.capacity - r.slots := rfl
  have htail := happ.tail_eq
  have hcap := happ.capacity_eq
  have hle := h.head_le
  -- what the reader sees that has taken everything up to the frame
  have hroom : HasRoom { r' with head := r.tail } r.tail :=
    ⟨hcap ▸ h.room, by simp only; omega, by simp only; omega⟩
  have hfilled : ({ r' with head := r.tail } : Ring).slots = paddedSize msg.length := by
    simp only [RingBuffer.slots]
    omega
  have hlen : fromNeBytes (({ r' with head := r.tail } : Ring).window r.tail 4) =
      msg.length % 2 ^ 32 := by
    rw [show ({ r' with head := r.tail } : Ring).window r.tail 4 = _ from happ.header_eq]
    exact fromNeBytes_toNeBytes (Nat.mod_lt _ (by decide))
  have hpop := pop_eq hroom hlen
  have hmod := Nat.mod_le msg.length (2 ^ 32)
  have hpad : paddedSize (msg.length % 2 ^ 32) ≤ paddedSize msg.length := by
    simp only [paddedSize_eq]
    omega
  rw [hfilled, if_pos hpad] at hpop
  rw [EndsWith, show r'.tail - paddedSize msg.length = r.tail by omega, hpop]
  constructor
  · intro heq
    have hmsg := congrArg List.length (Option.some.inj (congrArg Prod.fst heq))
    rw [length_window] at hmsg
    omega
  · intro hlt
    rw [Nat.mod_eq_of_lt hlt, commitRead, ← htail]
    exact congrArg (fun m => (some m, _)) happ.payload_eq

/-- When the header crosses the physical end of the ring, the reader never gets to its message. -/
theorem Extended.not_endsWith (hext : Extended r r' (paddedSize msg.length))
    (hroom : ¬ headerSize ≤ r.capacity - r.tail % r.capacity) : ¬ EndsWith r' msg := by
  have htail := hext.tail_eq
  have hpad := le_paddedSize msg.length
  have hfilled : ({ r' with head := r.tail } : Ring).slots = paddedSize msg.length := by
    simp only [RingBuffer.slots]
    omega
  have hfirst : (({ r' with head := r.tail } : Ring).chunkAt r.tail
      (paddedSize msg.length)).firstLen < headerSize := by
    simp only [chunkAt, hext.capacity_eq]
    omega
  intro h
  rw [EndsWith, show r'.tail - paddedSize msg.length = r.tail by omega] at h
  simp only [SpscConsumer.pop, hfilled, RingBuffer.readChunk, le_refl, if_true,
    length_readFirst, if_pos hfirst] at h
  rw [if_neg (by omega)] at h
  cases congrArg Prod.fst h

end RapidLog
