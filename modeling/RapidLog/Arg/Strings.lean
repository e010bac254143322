import RapidLog.Arg.Encode
import RapidLog.Arg.Numbers

/-!
# Long strings

A string is written with a two-byte length, so of a longer one only the first 65535 bytes are
kept. When the last character of these is cut in two, they are not UTF-8 any more and the
interpreter prints nothing at all (`formatPayload_str`).
-/

namespace RapidLog

open Slice

section Target

variable [Target]

/-- The impls that encode a value as a text. -/
inductive TextImpl : (e : Encode) → (e.Self → String) → Prop
  | str : TextImpl .str fun s => s
  | string : TextImpl .string fun s => s
  | displayArg {T : Type} (text : T → String) : TextImpl (.displayArg text) text
  | debugArg {T : Type} (text : T → String) : TextImpl (.debugArg text) text
  | box {T : Type} (text : T → String) : TextImpl (.box text) text
  | arc {T : Type} (text : T → String) : TextImpl (.arc text) text
  | rc {T : Type} (text : T → String) : TextImpl (.rc text) text

/-- The bytes of a string that are kept. -/
def keptBytes (s : String) : List UInt8 := (Utf8.encode s).take 65535

/-- What `encode_to` writes for a string. -/
def strBytes (s : String) : List UInt8 := toNeBytes 2 (keptBytes s).length ++ keptBytes s

omit [Target] in
theorem length_keptBytes (s : String) :
    (keptBytes s).length = min (Utf8.encode s).length 65535 := by
  rw [keptBytes, List.length_take, Nat.min_comm]

theorem length_strBytes (s : String) : (strBytes s).length = 2 + (keptBytes s).length := by
  rw [strBytes, List.length_append, length_toNeBytes]

theorem encodeTo_str (s : String) : Encode.str.encodeTo s = .copy (strBytes s) := by
  have htake : (Utf8.encode s).take (min (Utf8.encode s).length 65535) = keptBytes s := by
    rw [keptBytes, Nat.min_comm, ← List.take_take, List.take_length]
  show (SliceWriter.copy _).andThen (SliceWriter.copy _) = _
  rw [htake, SliceWriter.copy_andThen, strBytes, length_keptBytes]

theorem TextImpl.eq_str {e : Encode} {text : e.Self → String} (h : TextImpl e text) :
    e.schema = Encode.str.schema ∧ ∀ v, e.encodeTo v = .copy (strBytes (text v)) := by
  cases h <;> exact ⟨rfl, fun v => encodeTo_str _⟩

variable [FloatDisplay]

/-- The interpreter prints the bytes that were kept, or nothing when they are not UTF-8. -/
theorem formatPayload_str (s : String) (t : List UInt8) (tables : List (List UInt8))
    (ufs : List UserFormatter) :
    formatPayload Encode.str.schema (strBytes s ++ t) tables ufs =
      some ((Utf8.decode (keptBytes s)).getD "", (strBytes s).length) := by
  have hop : category (withCode opStr 2) = .str ∧ sizeCode (withCode opStr 2) = 2 := by decide
  have hlen : (keptBytes s).length ≤ 65535 := by
    rw [length_keptBytes]
    exact Nat.min_le_right ..
  have hrange := usizeRange_le
  have hsize : sizeForK 2 = 2 := rfl
  have hreadable : Readable 2 (keptBytes s).length := .inr ⟨by decide, by rw [hsize]; omega⟩
  have hread : readUnsignedNe (strBytes s ++ t) 2 = some (keptBytes s).length := by
    rw [strBytes, List.append_assoc]
    exact readUnsignedNe_toNeBytes hreadable _
  have hmod : (keptBytes s).length % usizeRange = (keptBytes s).length :=
    Nat.mod_eq_of_lt (by omega)
  have hslice : slice (strBytes s ++ t) 2 (2 + (keptBytes s).length) = some (keptBytes s) := by
    rw [strBytes, List.append_assoc]
    exact slice_append (length_toNeBytes _ _) rfl
  have hlong : ¬ (strBytes s ++ t).length < 2 + (keptBytes s).length := by
    rw [List.length_append, length_strBytes]
    omega
  have hlong' : ¬ (strBytes s ++ t).length < 2 := by
    rw [List.length_append, length_strBytes]
    omega
  have hover : ¬ usizeRange ≤ 2 + (keptBytes s).length := by omega
  rw [formatPayload_eq, Encode.str]
  simp only [formatStep, hop.1, hop.2, hsize, if_neg hlong', hread, Option.bind_eq_bind,
    Option.bind_some, hmod, if_neg hover, if_neg hlong, hslice, length_strBytes]
  rfl

omit [Target] [FloatDisplay] in
/-- The bytes of a prefix begin the bytes of the string. -/
theorem take_encode {p s : String} (hpre : p.toList <+: s.toList) :
    (Utf8.encode s).take (Utf8.encode p).length = Utf8.encode p := by
  obtain ⟨rest, hrest⟩ := hpre
  rw [Utf8.encode, Utf8.encode, ← hrest, List.flatMap_append, List.take_left]

omit [Target] [FloatDisplay] in
/-- A string of more than 65535 bytes has a character that fits. -/
theorem not_isLongestPrefix_empty {s : String} (hlong : 65535 < (Utf8.encode s).length) :
    ¬ Utf8.IsLongestPrefix 65535 s "" := by
  intro h
  cases hs : s.toList with
  | nil =>
    rw [Utf8.encode, hs] at hlong
    simp at hlong
  | cons c cs =>
    have hfits := (Utf8.length_encode_singleton c).2
    have hpre : (String.ofList [c]).toList <+: s.toList := by
      rw [String.toList_ofList, hs]
      exact ⟨cs, rfl⟩
    have hnil := h.longest (String.ofList [c]) hpre (hfits.trans (by norm_num))
    rw [String.toList_ofList] at hnil
    simpa using hnil.length_le

omit [Target] [FloatDisplay] in
/-- When the bytes that are kept of a long string are UTF-8, they are those of a prefix. -/
theorem prefix_of_decode {p s : String} (hlong : 65535 < (Utf8.encode s).length)
    (hdecode : Utf8.decode (keptBytes s) = some p) :
    p.toList <+: s.toList ∧ (Utf8.encode p).length = 65535 := by
  have hp : keptBytes s = Utf8.encode p := (Utf8.decode_eq_some_iff _ _).mp hdecode
  have hsplit : Utf8.encode p ++ (Utf8.encode s).drop 65535 = Utf8.encode s := by
    rw [← hp]
    exact List.take_append_drop ..
  have hlen := length_keptBytes s
  rw [hp, Nat.min_eq_right hlong.le] at hlen
  exact ⟨Utf8.isPrefix_of_encode_append hsplit, hlen⟩

omit [Target] [FloatDisplay] in
/-- The text of the bytes that are kept is the longest prefix that fits, exactly when no character
is cut in two. -/
theorem decode_keptBytes_iff (s : String) :
    Utf8.IsLongestPrefix 65535 s ((Utf8.decode (keptBytes s)).getD "") ↔
      (Utf8.encode s).length ≤ 65535 ∨
        ∃ p : String, p.toList <+: s.toList ∧ (Utf8.encode p).length = 65535 := by
  by_cases hfits : (Utf8.encode s).length ≤ 65535
  · have hall : keptBytes s = Utf8.encode s := List.take_of_length_le hfits
    rw [hall, Utf8.decode_encode]
    exact ⟨fun _ => .inl hfits, fun _ => Utf8.IsLongestPrefix.self hfits⟩
  · have hlong : 65535 < (Utf8.encode s).length := not_le.mp hfits
    cases hdecode : Utf8.decode (keptBytes s) with
    | some p =>
      obtain ⟨hpre, hlen⟩ := prefix_of_decode hlong hdecode
      exact ⟨fun _ => .inr ⟨p, hpre, hlen⟩, fun _ =>
        Utf8.IsLongestPrefix.of_length_eq hpre hlen⟩
    | none =>
      constructor
      · intro h
        exact absurd h (not_isLongestPrefix_empty hlong)
      · rintro (h | ⟨p, hpre, hlen⟩)
        · exact absurd h hfits
        · have hp : keptBytes s = Utf8.encode p := by
            rw [keptBytes, ← hlen, take_encode hpre]
          rw [hp, Utf8.decode_encode] at hdecode
          cases hdecode

/-- A text that is logged into a large enough buffer comes back as its longest prefix of at most
65535 bytes, exactly when it fits or its byte 65535 is at the end of a character. -/
theorem text_truncated_iff {e : Encode} {text : e.Self → String} (h : TextImpl e text)
    (v : e.Self) (t : List UInt8) (tables : List (List UInt8)) (ufs : List UserFormatter) :
    (∀ buf, 2 + (keptBytes (text v)).length ≤ buf.length → ∃ buf' n out,
        (e.encodeTo v).run buf = some (buf', n) ∧
        formatPayload e.schema (buf'.take n ++ t) tables ufs = some (out, n) ∧
        Utf8.IsLongestPrefix 65535 (text v) out) ↔
      (Utf8.encode (text v)).length ≤ 65535 ∨
        ∃ p : String, p.toList <+: (text v).toList ∧ (Utf8.encode p).length = 65535 := by
  obtain ⟨hschema, hcopy⟩ := h.eq_str
  have hrun : ∀ buf, 2 + (keptBytes (text v)).length ≤ buf.length →
      (e.encodeTo v).run buf = some (strBytes (text v) ++ buf.drop (strBytes (text v)).length,
        (strBytes (text v)).length) := by
    intro buf hbuf
    rw [← length_strBytes] at hbuf
    rw [hcopy v, SliceWriter.copy_run hbuf]
  have htake : ∀ rest, (strBytes (text v) ++ rest).take (strBytes (text v)).length ++ t =
      strBytes (text v) ++ t := fun rest => by rw [List.take_left]
  rw [← decode_keptBytes_iff]
  constructor
  · intro hall
    -- any buffer will do, for instance the written bytes themselves
    obtain ⟨buf', n, out, hrun', hformat, hout⟩ :=
      hall (strBytes (text v)) (length_strBytes _).ge
    rw [hrun _ (length_strBytes _).ge] at hrun'
    cases hrun'
    rw [hschema, htake, formatPayload_str] at hformat
    cases hformat
    exact hout
  · intro hout buf hbuf
    refine ⟨_, _, _, hrun buf hbuf, ?_, hout⟩
    rw [hschema, htake, formatPayload_str]

section Runs

/-- `n` characters of one byte. -/
private def asciiText (n : ℕ) : String := String.ofList (List.replicate n 'a')

omit [Target] [FloatDisplay] in
theorem length_encode_ascii (n : ℕ) :
    (Utf8.encode (String.ofList (List.replicate n 'a'))).length = n := by
  have hsize : 'a'.utf8Size = 1 := by decide
  simp [Utf8.encode_ofList, List.length_flatMap, hsize]

omit [Target] [FloatDisplay] in
private theorem asciiText_isPrefix (n : ℕ) :
    (asciiText n).toList <+: (asciiText (n + 1)).toList :=
  ⟨['a'], by simp [asciiText, List.replicate_succ']⟩

omit [Target] [FloatDisplay] in
/-- A text of 65536 bytes, shown through `DisplayArg`, comes back without its last character. -/
theorem text_truncated_iff_display :
    letI : Target := x86_64
    letI : FloatDisplay := noFloats
    let e := Encode.displayArg asciiText
    (Utf8.encode (asciiText 65536)).length = 65536 ∧
      ∀ buf, 2 + (keptBytes (asciiText 65536)).length ≤ buf.length → ∃ buf' n out,
        (e.encodeTo (65536 : ℕ)).run buf = some (buf', n) ∧
        formatPayload e.schema (buf'.take n ++ [7]) [] [] = some (out, n) ∧
        Utf8.IsLongestPrefix 65535 (asciiText 65536) out := by
  let _ : Target := x86_64
  let _ : FloatDisplay := noFloats
  -- the first 65535 characters are a prefix that ends where the text is cut
  have hiff := text_truncated_iff (.displayArg asciiText) (65536 : ℕ) [7] [] []
  exact ⟨length_encode_ascii 65536,
    hiff.mpr (.inr ⟨asciiText 65535, asciiText_isPrefix 65535, length_encode_ascii 65535⟩)⟩

/-- `n` characters of one byte, then one of two. -/
private def cutText (n : ℕ) : String := String.ofList (List.replicate n 'a' ++ ['é'])

omit [Target] [FloatDisplay] in
private theorem length_encode_cutText (n : ℕ) : (Utf8.encode (cutText n)).length = n + 2 := by
  have hsize : (Utf8.encode (String.ofList ['é'])).length = 2 := by decide
  rw [cutText, String.ofList_append, Utf8.encode_append, List.length_append,
    length_encode_ascii, hsize]

omit [Target] [FloatDisplay] in
/-- A prefix has the last character whole or not at all. -/
private theorem length_prefix_cutText {n : ℕ} {p : String}
    (hpre : p.toList <+: (cutText n).toList) : (Utf8.encode p).length ≠ n + 1 := by
  rw [cutText, String.toList_ofList, List.prefix_concat_iff] at hpre
  rcases hpre with hall | hshort
  · have hp : p = cutText n := by rw [cutText, ← hall, String.ofList_toList]
    rw [hp, length_encode_cutText]
    omega
  · obtain ⟨hle, hrep⟩ := List.prefix_replicate_iff.mp hshort
    have hp : p = String.ofList (List.replicate p.toList.length 'a') := by
      rw [← hrep, String.ofList_toList]
    rw [hp, length_encode_ascii]
    omega

omit [Target] [FloatDisplay] in
/-- The last character begins at byte 65534 and ends behind byte 65535: nothing is printed. -/
theorem cut_text_is_lost :
    letI : Target := x86_64
    letI : FloatDisplay := noFloats
    Encode.str.encodeTo (cutText 65534) = .copy (strBytes (cutText 65534)) ∧
      formatPayload Encode.str.schema (strBytes (cutText 65534)) [] [] = some ("", 65537) ∧
      ¬ Utf8.IsLongestPrefix 65535 (cutText 65534) "" := by
  let _ : Target := x86_64
  let _ : FloatDisplay := noFloats
  have hlen := length_encode_cutText 65534
  have hlong : 65535 < (Utf8.encode (cutText 65534)).length := by omega
  have hnone : Utf8.decode (keptBytes (cutText 65534)) = none := by
    cases hdecode : Utf8.decode (keptBytes (cutText 65534)) with
    | none => rfl
    | some p =>
      obtain ⟨hpre, hbytes⟩ := prefix_of_decode hlong hdecode
      exact absurd hbytes (length_prefix_cutText hpre)
  refine ⟨encodeTo_str _, ?_, not_isLongestPrefix_empty hlong⟩
  have hformat := formatPayload_str (cutText 65534) [] [] []
  rwa [List.append_nil, hnone, length_strBytes, length_keptBytes, hlen] at hformat

end Runs

end Target

end RapidLog
