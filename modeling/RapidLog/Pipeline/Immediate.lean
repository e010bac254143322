import RapidLog.Derive.RoundTrip
import RapidLog.Pipeline

/-!
# What a call would print at once

The text that a logger would print if it formatted a message in the call itself: the format string
with the text that each argument has on its own, in the layout of the worker (`Call.Immediate`). It
is what `format_message` makes of the bytes that the call has queued, provided that the metadata
gives it the schemas and string tables of the arguments of this call
(`Call.formatMessage_of_writes`).
-/

namespace RapidLog

open Backend SliceWriter

variable [Target] [FloatDisplay]

namespace Call

/-- The calls whose messages can be read back: the arguments have the types of their call site,
which are built from the impls of the crate and from derived ones, their values fit, and the closure
does not panic. -/
structure Readable (types : UInt64 → List Logged) (call : Call) : Prop where
  types_eq : call.args.map Sigma.fst = types call.metadataPtr
  shipped : ∀ q ∈ call.args, Shipped q.1 ∧ q.fits
  count : call.args.length ≤ 255
  fits : call.Fits

/-- The format string with the texts in the place of its groups. A call without arguments prints its
format string. -/
def immediateBody (formatStr : String) (texts : List String) : String :=
  if texts = [] then formatStr else .ofList (substitute formatStr.toList texts)

/-- A body in the layout of a worker. -/
def layout [Calendar] (metadata : Metadata) (timestampNs : UInt64) (body : String) :
    Option PatternFormatter → String
  | some fmtr =>
    fmtr.format
      { timestampSecs := timestampNs / 1_000_000_000
        timestampNanos := (timestampNs % 1_000_000_000).toUInt32
        level := metadata.level
        file := metadata.file
        line := metadata.line
        body }
  | none =>
    builtInLayout (timestampNs / 1_000_000_000) (timestampNs % 1_000_000_000).toUInt32
      metadata.level metadata.file metadata.line body

/-- The call prints `text` when each argument is formatted on its own, with the schema and the
string table of its type. -/
def Immediate [Calendar] (metas : UInt64 → Metadata) (formatter : Option PatternFormatter)
    (call : Call) (text : String) : Prop :=
  ∃ texts, List.Forall₂ (fun q text => q.1.impl.DecodesAs q.2 text) call.args texts ∧
    text = layout (metas call.metadataPtr) call.timestampNs
      (immediateBody (metas call.metadataPtr).formatStr texts) formatter

/-- The schemas and string tables of the arguments. -/
def own (call : Call) : Provided where
  schemas := .ofNat call.args.length :: (call.args.map fun q => q.1.impl.schema).flatten
  stringTables := call.args.map fun q => q.1.impl.stringTable
  userFormatters := []

variable {types : UInt64 → List Logged} {call : Call}

/-! ### What the closure writes -/

omit [Target] [FloatDisplay] in
theorem encodeArgs_eq {outputs : List (List UInt8)}
    (h : List.Forall₂ (fun (q : Logged.Value) out => q.1.impl.encodeTo q.2 = .copy out)
      call.args outputs) : call.encodeArgs = .copy outputs.flatten := by
  rw [encodeArgs, ← all_copy]
  congr 1
  generalize call.args = args at h
  induction h with
  | nil => rfl
  | cons hq _ ih => rw [List.map_cons, List.map_cons, hq, ih]

/-- A message of a call is its header and the bytes of its arguments, and what is left of the
buffer. -/
theorem Readable.eq_of_writes (h : call.Readable types) {outputs : List (List UInt8)}
    (hout : List.Forall₂ (fun (q : Logged.Value) out => q.1.impl.encodeTo q.2 = .copy out)
      call.args outputs) {msg : List UInt8} (hmsg : call.logCall.request.Writes msg) :
    ∃ rest, msg = call.logCall.header.bytes ++ (outputs.flatten ++ rest) := by
  obtain ⟨buf, hlen, rfl⟩ := hmsg
  have hsize : call.logCall.payloadsSize = call.payloadsSize := rfl
  rw [hsize] at hlen
  have hle : ArchivedHeader.headerSize ≤ buf.length := by omega
  have htake : (buf.take ArchivedHeader.headerSize).length = ArchivedHeader.headerSize := by
    rw [List.length_take, min_eq_left hle]
  have hcopy := encodeArgs_eq hout
  -- the space that is reserved is enough for the bytes of the arguments
  have hroom : outputs.flatten.length ≤ call.payloadsSize := by
    have hfits := h.fits
    rw [Fits, hcopy, (takes_copy _).run_isSome_iff, List.length_replicate] at hfits
    exact hfits
  have hargs : (call.logCall.encodeArgs.run (buf.drop ArchivedHeader.headerSize)).1 =
      outputs.flatten ++ (buf.drop ArchivedHeader.headerSize).drop outputs.flatten.length := by
    have hle' : outputs.flatten.length ≤ (buf.drop ArchivedHeader.headerSize).length := by
      rw [List.length_drop]
      omega
    simp only [logCall, hcopy, copy_run hle', Option.map_some, Option.getD_some]
  refine ⟨(buf.drop ArchivedHeader.headerSize).drop outputs.flatten.length, ?_⟩
  rw [← hargs]
  simp only [LogCall.encode, if_pos hle, ArchivedHeader.serializeInto_eq _ htake.ge]
  rw [List.drop_of_length_le htake.le, List.append_nil]

/-! ### Formatting it -/

/-- What the arguments of a message are decoded as with their own schemas and string tables. -/
theorem Readable.decodeArgs_own (h : call.Readable types) {msg : List UInt8}
    (hmsg : call.logCall.request.Writes msg) :
    ∃ texts, List.Forall₂ (fun (q : Logged.Value) text => q.1.impl.DecodesAs q.2 text) call.args
        texts ∧
      decodeArgs call.own (msg.drop ArchivedHeader.headerSize) = some texts := by
  obtain ⟨outputs, houtputs⟩ := Logged.exists_outputs fun q hq =>
    (h.shipped q hq).1.good.outputs (h.shipped q hq).2
  obtain ⟨rest, rfl⟩ := h.eq_of_writes (houtputs.imp fun _ _ hq => hq.1) hmsg
  refine ⟨_, Logged.forall₂_textsFrom houtputs [], ?_⟩
  rw [List.drop_append_of_le_length (by simp), List.drop_of_length_le (by simp), List.nil_append]
  exact Logged.decodeArgs_outputs (fun q hq => (h.shipped q hq).1.good) h.count houtputs _ _ _

/-- The body of a message is that of the call, unless the format string has text before a brace that
is never closed. -/
theorem Readable.formatBody_own (h : call.Readable types) {metadata : Metadata}
    (hclosed : beforeUnclosed metadata.formatStr.toList = []) {msg : List UInt8}
    (hmsg : call.logCall.request.Writes msg) :
    ∃ texts, List.Forall₂ (fun (q : Logged.Value) text => q.1.impl.DecodesAs q.2 text) call.args
        texts ∧
      formatBody metadata call.own (msg.drop ArchivedHeader.headerSize) =
        some (immediateBody metadata.formatStr texts) := by
  obtain ⟨texts, htexts, hdecode⟩ := h.decodeArgs_own hmsg
  refine ⟨texts, htexts, ?_⟩
  have hlen := htexts.length_eq
  have hcount := h.count
  by_cases hnil : call.args = []
  · -- a count of zero, and the format string as it is
    obtain rfl : texts = [] := List.eq_nil_of_length_eq_zero (by rw [← hlen, hnil]; rfl)
    have hget : getSchemas call.own = some none := by simp [getSchemas, own, hnil]
    rw [formatBody, hget]
    rfl
  · have hpos : 0 < call.args.length := List.length_pos_of_ne_nil hnil
    have hne : UInt8.ofNat call.args.length ≠ 0 := by
      intro hzero
      have hnat := congrArg UInt8.toNat hzero
      rw [UInt8.toNat_ofNat'] at hnat
      simp at hnat
      omega
    have htexts_ne : texts ≠ [] := List.ne_nil_of_length_pos (hlen ▸ hpos)
    rw [formatBody_eq rfl hne hdecode, immediateBody, if_neg htexts_ne,
      (scanned_eq_substitute_iff _ _).mpr hclosed]

/-- `format_message` on a message that the call has queued, with the schemas and string tables of
its own arguments, gives the text that the call would print. -/
theorem Readable.formatMessage_own [Calendar] (h : call.Readable types)
    {metas : UInt64 → Metadata}
    (hclosed : beforeUnclosed (metas call.metadataPtr).formatStr.toList = []) {τ : Type}
    {raw : Raw τ} (hmsg : call.logCall.request.Writes raw.2) (formatter : Option PatternFormatter) :
    ∃ text, formatMessage some (metas call.metadataPtr) call.own call.logCall.header (payload raw)
        formatter = some text ∧ call.Immediate metas formatter text := by
  obtain ⟨texts, htexts, hbody⟩ := h.formatBody_own hclosed hmsg
  refine ⟨_, ?_, texts, htexts, rfl⟩
  rw [payload, formatMessage, hbody]
  cases formatter <;> rfl

end Call

end RapidLog
