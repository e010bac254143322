import RapidLog.Config
import RapidLog.Lib.Slice

/-!
# The header of a message

`message.rs`: every message that a log call queues starts with the bytes of an `ArchivedHeader`,
which says when and where it was logged. The two pointers are addresses of statics and of loggers
that are never freed.
-/

namespace RapidLog

structure ArchivedHeader where
  timestampNs : UInt64
  metadataPtr : UInt64
  loggerPtr : UInt64
  reserved : UInt64
  deriving DecidableEq, Repr

namespace ArchivedHeader

/-- `HEADER_SIZE`, the size of the four fields. -/
def headerSize : ℕ := 32

def new (timestampNs metadataPtr loggerPtr : UInt64) : ArchivedHeader :=
  { timestampNs, metadataPtr, loggerPtr, reserved := 0 }

section Serialize

variable [Target]

/-- Write the header over the first 32 bytes of `buf`; the reserved field is written as zeros. -/
def serializeInto (h : ArchivedHeader) (buf : List UInt8) : List UInt8 :=
  let buf := Slice.splice buf 0 (toNeBytes 8 h.timestampNs.toNat)
  let buf := Slice.splice buf 8 (toNeBytes 8 h.metadataPtr.toNat)
  let buf := Slice.splice buf 16 (toNeBytes 8 h.loggerPtr.toNat)
  Slice.splice buf 24 (List.replicate 8 0)

/-- `read_unaligned` of a `u64` at an offset. -/
def readU64 (raw : List UInt8) (off : ℕ) : UInt64 :=
  .ofNat (fromNeBytes ((raw.drop off).take 8))

def decode (raw : List UInt8) : Option ArchivedHeader :=
  if raw.length < headerSize then none else
  some
    { timestampNs := readU64 raw 0
      metadataPtr := readU64 raw 8
      loggerPtr := readU64 raw 16
      reserved := readU64 raw 24 }

/-- The 32 bytes that `serialize_into` writes. -/
def bytes (h : ArchivedHeader) : List UInt8 :=
  toNeBytes 8 h.timestampNs.toNat ++ (toNeBytes 8 h.metadataPtr.toNat ++
    (toNeBytes 8 h.loggerPtr.toNat ++ List.replicate 8 0))

@[simp]
theorem length_bytes (h : ArchivedHeader) : h.bytes.length = headerSize := by
  simp [bytes, headerSize]

/-- Serializing overwrites the first 32 bytes and keeps the others. -/
theorem serializeInto_eq (h : ArchivedHeader) {buf : List UInt8} (hlen : headerSize ≤ buf.length) :
    h.serializeInto buf = h.bytes ++ buf.drop headerSize := by
  have hlen : 32 ≤ buf.length := hlen
  -- the four fields that are overwritten and what stands behind them
  set f₀ := buf.take 8
  set f₁ := (buf.drop 8).take 8
  set f₂ := (buf.drop 16).take 8
  set f₃ := (buf.drop 24).take 8
  set rest := buf.drop headerSize
  have hbuf : buf = f₀ ++ (f₁ ++ (f₂ ++ (f₃ ++ rest))) := by
    have hsplit : ∀ n, buf.drop n = (buf.drop n).take 8 ++ buf.drop (n + 8) := fun n => by
      rw [← List.drop_drop, List.take_append_drop]
    calc buf = buf.drop 0 := rfl
      _ = _ := by rw [hsplit 0, hsplit (0 + 8), hsplit (0 + 8 + 8), hsplit (0 + 8 + 8 + 8)]; rfl
  have h₀ : f₀.length = 8 := by simp only [f₀, List.length_take]; omega
  have h₁ : f₁.length = 8 := by simp only [f₁, List.length_take, List.length_drop]; omega
  have h₂ : f₂.length = 8 := by simp only [f₂, List.length_take, List.length_drop]; omega
  have h₃ : f₃.length = 8 := by simp only [f₃, List.length_take, List.length_drop]; omega
  have hw : ∀ x : UInt64, (toNeBytes 8 x.toNat).length = 8 := fun _ => length_toNeBytes 8 _
  set b₀ := toNeBytes 8 h.timestampNs.toNat
  set b₁ := toNeBytes 8 h.metadataPtr.toNat
  set b₂ := toNeBytes 8 h.loggerPtr.toNat
  have hb₀ : b₀.length = 8 := hw _
  have hb₁ : b₁.length = 8 := hw _
  have hb₂ : b₂.length = 8 := hw _
  calc h.serializeInto buf
      = Slice.splice (Slice.splice (Slice.splice (Slice.splice
          ([] ++ (f₀ ++ (f₁ ++ (f₂ ++ (f₃ ++ rest))))) 0 b₀) 8 b₁) 16 b₂) 24
          (List.replicate 8 0) := by
        rw [List.nil_append, ← hbuf]; rfl
    _ = Slice.splice (Slice.splice (Slice.splice
          (b₀ ++ (f₁ ++ (f₂ ++ (f₃ ++ rest)))) 8 b₁) 16 b₂) 24 (List.replicate 8 0) := by
        rw [Slice.splice_append List.length_nil (by omega), List.nil_append]
    _ = Slice.splice (Slice.splice ((b₀ ++ b₁) ++ (f₂ ++ (f₃ ++ rest))) 16 b₂) 24
          (List.replicate 8 0) := by
        rw [Slice.splice_append hb₀ (by omega), List.append_assoc]
    _ = Slice.splice ((b₀ ++ b₁ ++ b₂) ++ (f₃ ++ rest)) 24 (List.replicate 8 0) := by
        rw [Slice.splice_append (by simp [hb₀, hb₁]) (by omega), List.append_assoc _ b₂]
    _ = h.bytes ++ rest := by
        rw [Slice.splice_append (by simp [hb₀, hb₁, hb₂]) (by simp [h₃])]
        simp only [bytes, b₀, b₁, b₂, List.append_assoc]

theorem length_serializeInto (h : ArchivedHeader) {buf : List UInt8}
    (hlen : headerSize ≤ buf.length) : (h.serializeInto buf).length = buf.length := by
  rw [serializeInto_eq h hlen, List.length_append, length_bytes, List.length_drop]
  omega

/-- A field is read back from where it stands. -/
theorem readU64_append (before after : List UInt8) (x : UInt64) :
    readU64 (before ++ (toNeBytes 8 x.toNat ++ after)) before.length = x := by
  have hlt : x.toNat < 256 ^ 8 := x.toNat_lt
  rw [readU64, List.drop_left, List.take_left' (length_toNeBytes 8 _), fromNeBytes_toNeBytes hlt,
    UInt64.ofNat_toNat]

/-- Bytes too short for a header do not decode. -/
theorem decode_eq_none {raw : List UInt8} : decode raw = none ↔ raw.length < headerSize := by
  unfold decode
  split <;> simp [*]

/-- A header is read back from the bytes that it was serialized into, whatever follows them. -/
theorem decode_bytes_append (h : ArchivedHeader) (rest : List UInt8) :
    decode (h.bytes ++ rest) = some { h with reserved := 0 } := by
  have hlen : ¬ (h.bytes ++ rest).length < headerSize := by simp
  have hzero : List.replicate 8 (0 : UInt8) = toNeBytes 8 (0 : UInt64).toNat := by
    unfold toNeBytes Endian.toBytes
    split <;> decide
  set b₀ := toNeBytes 8 h.timestampNs.toNat with hb₀
  set b₁ := toNeBytes 8 h.metadataPtr.toNat with hb₁
  set b₂ := toNeBytes 8 h.loggerPtr.toNat with hb₂
  set b₃ := toNeBytes 8 (0 : UInt64).toNat with hb₃
  have hraw : h.bytes ++ rest = b₀ ++ (b₁ ++ (b₂ ++ (b₃ ++ rest))) := by
    simp only [bytes, hzero, List.append_assoc, b₀, b₁, b₂, b₃]
  have hl : b₀.length = 8 ∧ b₁.length = 8 ∧ b₂.length = 8 :=
    ⟨length_toNeBytes .., length_toNeBytes .., length_toNeBytes ..⟩
  have h₀ : readU64 (h.bytes ++ rest) 0 = h.timestampNs := hraw ▸ readU64_append [] _ _
  have h₁ : readU64 (h.bytes ++ rest) 8 = h.metadataPtr := by
    rw [hraw]
    exact hl.1 ▸ readU64_append b₀ _ _
  have h₂ : readU64 (h.bytes ++ rest) 16 = h.loggerPtr := by
    have := readU64_append (b₀ ++ b₁) (b₃ ++ rest) h.loggerPtr
    rwa [List.length_append, hl.1, hl.2.1, List.append_assoc, ← hb₂, ← hraw] at this
  have h₃ : readU64 (h.bytes ++ rest) 24 = 0 := by
    have := readU64_append (b₀ ++ b₁ ++ b₂) rest 0
    rwa [List.length_append, List.length_append, hl.1, hl.2.1, hl.2.2, List.append_assoc,
      List.append_assoc, ← hb₃, ← hraw] at this
  rw [decode, if_neg hlen, h₀, h₁, h₂, h₃]

/-- A buffer of at least 32 bytes decodes to the header that was serialized into it. -/
theorem decode_serializeInto (h : ArchivedHeader) {buf : List UInt8}
    (hlen : headerSize ≤ buf.length) :
    decode (h.serializeInto buf) = some { h with reserved := 0 } := by
  rw [serializeInto_eq h hlen, decode_bytes_append]

end Serialize

end ArchivedHeader

end RapidLog
