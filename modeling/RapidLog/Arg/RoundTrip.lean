import RapidLog.Arg.Shipped
import RapidLog.Arg.Tables

/-!
# Encode, then format

The text that a value should be shown as: scalars as `Display` prints them, sequences in brackets,
entries and tuples in parentheses, and a variant as its name and its payload. A `Printed` type has
such a text for each of its values, and says which values the format keeps whole: strings of at
most 65535 bytes, vectors of at most 65535 elements and maps of fewer than `2 ^ 32` entries.

On a 64-bit little-endian target these are the texts that `format_payload` writes for the bytes of
`encode_to`, and it consumes exactly these bytes (`text_comesBack`). The names of variants come
from one string table, so `Option` and `Result` are outermost here.
-/

namespace RapidLog

/-- A type with the text that each of its values should be shown as. -/
structure Printed where
  type : Logged
  /-- The values that the format keeps whole. -/
  kept : type.impl.Self → Prop
  text : type.impl.Self → String

section Target

variable [Target] [FloatDisplay]

namespace Printed

def signedInt (k : ℕ) : Printed where
  type := .signedInt k
  kept _ := True
  text := fun v : BitVec (8 * sizeForK k) => toString v.toInt

def unsignedInt (k : ℕ) : Printed where
  type := .unsignedInt k
  kept _ := True
  text := fun v : BitVec (8 * sizeForK k) => toString v.toNat

def usize : Printed where
  type := .usize
  kept _ := True
  text := fun v : BitVec Encode.usizeBits => toString v.toNat

def bool : Printed where
  type := .bool
  kept _ := True
  text := fun v : Bool => toString v

def char : Printed where
  type := .char
  kept _ := True
  text := fun v : Char => v.toString

def unit : Printed where
  type := .unit
  kept _ := True
  text _ := "()"

/-- A type that is logged as its text. -/
def string (e : Encode) (text : e.Self → String) : Printed where
  type := .text e text
  kept v := (Utf8.encode (text v)).length ≤ 65535
  text := text

/-- The texts of the fields of a tuple. -/
def texts : (ps : List Printed) → Encode.Tuple ((ps.map type).map Logged.impl) → List String
  | [], _ => []
  | p :: ps, (x, xs) => p.text x :: texts ps xs

def allKept : (ps : List Printed) → Encode.Tuple ((ps.map type).map Logged.impl) → Prop
  | [], _ => True
  | p :: ps, (x, xs) => p.kept x ∧ allKept ps xs

def tuple (ps : List Printed) : Printed where
  type := .tuple (ps.map type)
  kept := allKept ps
  text v := "(" ++ joined (texts ps v) ++ ")"

def array (n : ℕ) (p : Printed) : Printed where
  type := .array n p.type
  kept xs := ∀ x ∈ xs.1, p.kept x
  text xs := "[" ++ joined (xs.1.map p.text) ++ "]"

def vec (p : Printed) : Printed where
  type := .vec p.type
  kept := fun xs : List p.type.impl.Self => xs.length ≤ 65535 ∧ ∀ x ∈ xs, p.kept x
  text := fun xs : List p.type.impl.Self => "[" ++ joined (xs.map p.text) ++ "]"

def entries (k v : Printed) : Printed where
  type := .entries k.type v.type
  kept := fun xs : List (k.type.impl.Self × v.type.impl.Self) =>
    xs.length < 2 ^ 32 ∧ ∀ x ∈ xs, k.kept x.1 ∧ v.kept x.2
  text := fun xs : List (k.type.impl.Self × v.type.impl.Self) =>
    "[" ++ joined (xs.map fun x => "(" ++ joined [k.text x.1, v.text x.2] ++ ")") ++ "]"

def hashMap (k v : Printed) : Printed := entries k v

def bTreeMap (k v : Printed) : Printed := entries k v

open Classical in
/-- A variant is shown with its payload, unless that is of type `()`. -/
noncomputable def variant (p : Printed) (name : String) (x : p.type.impl.Self) : String :=
  if p = unit then name else name ++ "(" ++ p.text x ++ ")"

noncomputable def option (p : Printed) : Printed where
  type := .option p.type
  kept
    | none => True
    | some x => p.kept x
  text
    | none => "None"
    | some x => p.variant "Some" x

noncomputable def result (p q : Printed) : Printed where
  type := .result p.type q.type
  kept
    | .inl x => p.kept x
    | .inr x => q.kept x
  text
    | .inl x => p.variant "Ok" x
    | .inr x => q.variant "Err" x

/-- A type without floating-point numbers, 128-bit integers and enums. -/
inductive Plain : Printed → Prop
  | signedInt {k : ℕ} (hk : 1 ≤ k ∧ k ≤ 4) : Plain (.signedInt k)
  | unsignedInt {k : ℕ} (hk : 1 ≤ k ∧ k ≤ 4) : Plain (.unsignedInt k)
  | usize : Plain .usize
  | bool : Plain .bool
  | char : Plain .char
  | unit : Plain .unit
  | string {e : Encode} {text : e.Self → String} (h : TextImpl e text) : Plain (.string e text)
  | tuple {ps : List Printed} (hlen : 1 ≤ ps.length ∧ ps.length ≤ 12) (hps : ∀ p ∈ ps, Plain p) :
      Plain (.tuple ps)
  | array {n : ℕ} {p : Printed} (hn : n ∈ arrayLengths) (hp : Plain p) : Plain (.array n p)
  | vec {p : Printed} (hp : Plain p) : Plain (.vec p)
  | hashMap {k v : Printed} (hk : Plain k) (hv : Plain v) : Plain (.hashMap k v)
  | bTreeMap {k v : Printed} (hk : Plain k) (hv : Plain v) : Plain (.bTreeMap k v)

/-- A plain type, or an `Option` or a `Result` of plain types. -/
inductive Documented : Printed → Prop
  | plain {p : Printed} (hp : Plain p) : Documented p
  | option {p : Printed} (hp : Plain p) : Documented (.option p)
  | result {p q : Printed} (hp : Plain p) (hq : Plain q) : Documented (.result p q)

theorem Plain.shipped {p : Printed} (h : Plain p) (hwidth : Target.pointerWidth = .w64) :
    Shipped p.type := by
  induction h with
  | signedInt hk => exact .signedInt ⟨hk.1, by omega⟩
  | unsignedInt hk => exact .unsignedInt ⟨hk.1, by omega⟩
  | usize => exact .usize hwidth
  | bool => exact .bool
  | char => exact .char
  | unit => exact .unit
  | string h => exact .text h
  | @tuple ps hlen hps ih => exact .tuple (by simpa using hlen) (by simpa using ih)
  | array hn hp ih => exact .array hn ih
  | vec hp ih => exact .vec ih
  | hashMap hk hv ihk ihv => exact .hashMap ihk ihv
  | bTreeMap hk hv ihk ihv => exact .bTreeMap ihk ihv

/-- The template of a value that is kept has no names, and is the text of the value. -/
structure Agrees (p : Printed) (v : p.type.impl.Self) : Prop where
  fits : p.type.fits v
  render : ∀ names : Naming, (p.type.template v).render names = p.text v

omit [Target] [FloatDisplay] in
theorem agrees_scalar {e : Encode} {shown text : e.Self → String} {kept : e.Self → Prop}
    {v : e.Self} (h : shown v = text v) : Agrees ⟨.scalar e shown, kept, text⟩ v where
  fits := trivial
  render names := by
    show shown v ++ "" = text v
    rw [String.append_empty, h]

omit [Target] [FloatDisplay] in
theorem agrees_parts {ps : List Printed} (hps : ∀ p ∈ ps, ∀ v, p.kept v → p.Agrees v)
    (v : Encode.Tuple ((ps.map type).map Logged.impl)) (hkept : allKept ps v) :
    (∀ q ∈ Logged.parts (ps.map type) v, q.fits) ∧
      ∀ names : Naming, (Logged.parts (ps.map type) v).map (fun q => q.template.render names) =
        texts ps v := by
  induction ps with
  | nil => exact ⟨fun q hq => absurd hq List.not_mem_nil, fun names => rfl⟩
  | cons p ps ih =>
    obtain ⟨hx, hxs⟩ := hkept
    have hp := hps p (by simp) v.1 hx
    obtain ⟨hfits, hrender⟩ := ih (fun p hp => hps p (by simp [hp])) v.2 hxs
    constructor
    · intro q hq
      rcases List.mem_cons.mp hq with rfl | hq
      · exact hp.fits
      · exact hfits q hq
    · intro names
      exact congrArg₂ List.cons (hp.render names) (hrender names)

omit [Target] [FloatDisplay] in
/-- A list of values, each of which is shown as its text. -/
theorem render_listed_map {α : Type} {xs : List α} {template : α → NameTemplate}
    {text : α → String} {names : Naming} (h : ∀ x ∈ xs, (template x).render names = text x)
    (opening closing : String) :
    (listed opening closing (xs.map template)).render names =
      opening ++ joined (xs.map text) ++ closing := by
  rw [render_listed, List.map_map]
  congr 3
  exact List.map_congr_left h

omit [FloatDisplay] in
theorem agrees_entries {k v : Printed} (hk : ∀ x, k.kept x → k.Agrees x)
    (hv : ∀ x, v.kept x → v.Agrees x) :
    ∀ xs, (entries k v).kept xs → (entries k v).Agrees xs := by
  rintro xs ⟨hlen, hkept⟩
  change List (k.type.impl.Self × v.type.impl.Self) at xs
  constructor
  · refine ⟨hlen, ?_⟩
    intro x hx q hq
    simp only [Logged.entry, List.mem_cons, List.not_mem_nil, or_false] at hq
    rcases hq with rfl | rfl
    · exact (hk x.1 (hkept x hx).1).fits
    · exact (hv x.2 (hkept x hx).2).fits
  · intro names
    refine render_listed_map (fun x hx => ?_) "[" "]"
    rw [render_listed]
    simp only [Logged.entry, List.map_cons, List.map_nil, Logged.Value.template,
      (hk x.1 (hkept x hx).1).render, (hv x.2 (hkept x hx).2).render]

omit [FloatDisplay] in
theorem Plain.agrees {p : Printed} (h : Plain p) (hend : Target.endian = .little) :
    ∀ v, p.kept v → p.Agrees v := by
  induction h with
  | @signedInt k hk =>
    intro v _
    have hsize : ¬ 8 < sizeForK k := by
      obtain ⟨h1, h4⟩ := hk
      interval_cases k <;> decide
    apply agrees_scalar
    rw [printedSigned, if_neg hsize, hend]
  | @unsignedInt k hk =>
    intro v _
    have hsize : ¬ 8 < sizeForK k := by
      obtain ⟨h1, h4⟩ := hk
      interval_cases k <;> decide
    apply agrees_scalar
    rw [printedUnsigned, if_neg hsize, hend]
  | usize =>
    intro v _
    apply agrees_scalar
    rw [printedUnsigned, if_neg (by decide), hend]
  | bool | char | unit =>
    intro v _
    exact agrees_scalar rfl
  | @string e text h =>
    intro v hkept
    apply agrees_scalar
    -- no byte of the text is cut off
    have hall : keptBytes (text v) = Utf8.encode (text v) := List.take_of_length_le hkept
    rw [hall, Utf8.decode_encode]
    rfl
  | @tuple ps hlen hps ih =>
    intro v hkept
    obtain ⟨hfits, hrender⟩ := agrees_parts ih v hkept
    refine ⟨hfits, fun names => ?_⟩
    show (listed "(" ")" _).render names = _
    rw [render_listed, List.map_map]
    exact congrArg (fun ss => "(" ++ joined ss ++ ")") (hrender names)
  | @array n p hn hp ih =>
    intro xs hkept
    exact ⟨fun x hx => (ih x (hkept x hx)).fits, fun names =>
      render_listed_map (fun x hx => (ih x (hkept x hx)).render names) "[" "]"⟩
  | @vec p hp ih =>
    intro xs hkept
    obtain ⟨hlen, hkept⟩ := hkept
    refine ⟨fun x hx => (ih x (hkept x hx)).fits, fun names => ?_⟩
    have htake : List.take 65535 xs = xs := List.take_of_length_le hlen
    show (listed "[" "]" ((List.take 65535 xs).map p.type.template)).render names = _
    rw [htake]
    exact render_listed_map (fun x hx => (ih x (hkept x hx)).render names) "[" "]"
  | hashMap hk hv ihk ihv => exact agrees_entries ihk ihv
  | bTreeMap hk hv ihk ihv => exact agrees_entries ihk ihv

omit [FloatDisplay] in
/-- Only the schema of `()` begins with the opcode of `()`. -/
theorem Plain.eq_unit_or {p : Printed} (h : Plain p) :
    p = .unit ∨ ∃ op rest, p.type.impl.schema = op :: rest ∧ op ≠ opUnit := by
  cases h with
  | unit => exact .inl rfl
  | @signedInt k hk =>
    refine .inr ⟨withCode opSignedInt (.ofNat k), [], rfl, ?_⟩
    obtain ⟨h1, h4⟩ := hk
    interval_cases k <;> decide
  | @unsignedInt k hk =>
    refine .inr ⟨withCode opUnsignedInt (.ofNat k), [], rfl, ?_⟩
    obtain ⟨h1, h4⟩ := hk
    interval_cases k <;> decide
  | usize =>
    by_cases hbits : Encode.usizeBits = 32
    · exact .inr ⟨withCode opUnsignedInt 3, [], if_pos hbits, by decide⟩
    · exact .inr ⟨withCode opUnsignedInt 4, [], if_neg hbits, by decide⟩
  | bool => exact .inr ⟨opBool, [], rfl, by decide⟩
  | char => exact .inr ⟨opChar, [], rfl, by decide⟩
  | string h => exact .inr ⟨withCode opStr 2, [], h.eq_str.1, by decide⟩
  | @tuple ps hlen hps =>
    have hop : ∀ n ≤ 15, opTuple ||| UInt8.ofNat n ≠ opUnit := by decide
    have hlen' : ((ps.map type).map Logged.impl).length ≤ 15 := by
      rw [List.length_map, List.length_map]
      omega
    exact .inr ⟨_, _, rfl, hop _ hlen'⟩
  | array | vec => exact .inr ⟨opSeq ||| 2, _, rfl, by decide⟩
  | hashMap | bTreeMap => exact .inr ⟨opSeq ||| 3, _, rfl, by decide⟩

omit [FloatDisplay] in
/-- The interpreter leaves out the payload of a variant exactly when it is of type `()`. -/
theorem Plain.variantText_eq {p : Printed} (h : Plain p) (name : String) (v : p.type.impl.Self) :
    variantText p.type.impl.schema name (p.text v) = p.variant name v := by
  unfold variantText variant
  rcases h.eq_unit_or with rfl | ⟨op, rest, hschema, hop⟩
  · rw [if_pos rfl]
    exact if_pos rfl
  · have hne : p.type.impl.schema ≠ [opUnit] := by
      rw [hschema]
      intro heq
      exact hop (List.cons.inj heq).1
    have hne' : p ≠ .unit := by
      rintro rfl
      exact hne rfl
    rw [if_neg hne, if_neg hne']

omit [FloatDisplay] in
/-- On a little-endian target the offsets of derived schemas are read as they are. -/
theorem offsetOf_of_lt (hend : Target.endian = .little) {n : ℕ} (hn : n < 256 ^ 2) :
    offsetOf n = n := by
  unfold offsetOf fromNeBytes
  rw [hend]
  exact (ofLeBytes_leBytes 2 n).trans (Nat.mod_eq_of_lt hn)

omit [FloatDisplay] in
/-- The name of a variant is found in a table that has it where the schema says. -/
theorem tableNames_of_nameAt (hend : Target.endian = .little) {table : List UInt8} {n : ℕ}
    {name : String} (hn : n < 256 ^ 2) (hname : ∀ c ∈ name.toList, c.toNat ≠ 0)
    (h : NameAt table n name) : tableNames [table] (offsetOf n, name) = name := by
  rw [offsetOf_of_lt hend hn]
  exact readStrFromTable_of_nameAt hname h

omit [FloatDisplay] in
/-- A variant whose name stands in the string table and whose payload is of a plain type. -/
theorem Plain.render_variant {p : Printed} (h : Plain p) (hend : Target.endian = .little)
    {table : List UInt8} {n : ℕ} {name : String} (hn : n < 256 ^ 2)
    (hname : ∀ c ∈ name.toList, c.toNat ≠ 0) (hat : NameAt table n name) (v : p.type.impl.Self)
    (hkept : p.kept v) :
    (variantTemplate (offsetOf n) name p.type.impl.schema (p.type.template v)).render
        (tableNames [table]) = p.variant name v := by
  rw [render_variantTemplate, tableNames_of_nameAt hend hn hname hat,
    (h.agrees hend v hkept).render, h.variantText_eq]

omit [FloatDisplay] in
/-- The text of a value, when the names are found in the string table of its type. -/
theorem Documented.agrees {p : Printed} (h : Documented p) (hend : Target.endian = .little)
    (v : p.type.impl.Self) (hkept : p.kept v) : p.type.fits v ∧
      (p.type.template v).render (tableNames [p.type.impl.stringTable]) = p.text v := by
  cases h with
  | plain hp =>
    have hagrees := hp.agrees hend v hkept
    exact ⟨hagrees.fits, hagrees.render _⟩
  | @option q hq =>
    set table := Encode.nullTerminated ["None", "Some"] with htable
    have hnone : NameAt table 0 "None" := ⟨[], Utf8.encode "Some" ++ [0], rfl, rfl⟩
    have hsome : NameAt table 5 "Some" := ⟨Utf8.encode "None" ++ [0], [], rfl, rfl⟩
    cases v with
    | none =>
      refine ⟨trivial, ?_⟩
      show (variantTemplate (offsetOf 0) "None" [opUnit] _).render (tableNames [table]) = "None"
      rw [render_variantTemplate,
        tableNames_of_nameAt hend (by norm_num) (by simp) hnone]
      rfl
    | some x =>
      exact ⟨(hq.agrees hend x hkept).fits,
        hq.render_variant hend (by norm_num) (by simp) hsome x hkept⟩
  | @result q r hq hr =>
    set table := Encode.nullTerminated ["Ok", "Err"] with htable
    have hok : NameAt table 0 "Ok" := ⟨[], Utf8.encode "Err" ++ [0], rfl, rfl⟩
    have herr : NameAt table 3 "Err" := ⟨Utf8.encode "Ok" ++ [0], [], rfl, rfl⟩
    cases v with
    | inl x =>
      exact ⟨(hq.agrees hend x hkept).fits,
        hq.render_variant hend (by norm_num) (by simp) hok x hkept⟩
    | inr x =>
      exact ⟨(hr.agrees hend x hkept).fits,
        hr.render_variant hend (by norm_num) (by simp) herr x hkept⟩

theorem Documented.good {p : Printed} (h : Documented p) (hwidth : Target.pointerWidth = .w64) :
    p.type.Good := by
  cases h with
  | plain hp => exact (hp.shipped hwidth).good
  | option hp => exact Logged.good_option (hp.shipped hwidth).good
  | result hp hq => exact Logged.good_result (hp.shipped hwidth).good (hq.shipped hwidth).good

/-- What `encode_to` writes for a value is formatted as the text of the value and consumed whole,
whatever follows it. A plain type needs no string table; an outermost `Option` or `Result` needs
its own. -/
theorem text_comesBack (hwidth : Target.pointerWidth = .w64) (hend : Target.endian = .little)
    {p : Printed} (h : Documented p) (v : p.type.impl.Self) (hkept : p.kept v) :
    ∃ bytes, p.type.impl.encodeTo v = .copy bytes ∧
      ∀ tables, tables = [p.type.impl.stringTable] ∨ Plain p →
        ∀ (ufs : List UserFormatter) (t : List UInt8),
          formatPayload p.type.impl.schema (bytes ++ t) tables ufs =
            some (p.text v, bytes.length) := by
  obtain ⟨hfits, hrender⟩ := h.agrees hend v hkept
  obtain ⟨bytes, hwriter, hformat⟩ := (h.good hwidth).shows v hfits
  refine ⟨bytes, hwriter, ?_⟩
  intro tables htables ufs t
  rw [hformat]
  rcases htables with rfl | hplain
  · simp only [hrender]
  · simp only [(hplain.agrees hend v hkept).render]

end Printed

end Target

/-- A vector with one pair of a boolean and `()`, and a byte behind it. -/
theorem text_comesBack_pairs :
    letI : Target := x86_64
    letI : FloatDisplay := noFloats
    let p : Printed := .vec (.tuple [.bool, .unit])
    ∃ bytes, p.type.impl.encodeTo ([(true, (), ())] : List (Bool × Unit × Unit)) = .copy bytes ∧
      formatPayload p.type.impl.schema (bytes ++ [9]) [] [] =
        some ("[(true, ())]", bytes.length) := by
  let _ : Target := x86_64
  let _ : FloatDisplay := noFloats
  intro p
  have hplain : Printed.Plain p :=
    .vec (.tuple (by decide) (by simp [Printed.Plain.bool, Printed.Plain.unit]))
  have hkept : p.kept ([(true, (), ())] : List (Bool × Unit × Unit)) :=
    ⟨by decide, fun x _ => ⟨trivial, trivial, trivial⟩⟩
  obtain ⟨bytes, hwriter, hformat⟩ :=
    Printed.text_comesBack rfl rfl (.plain hplain) _ hkept
  exact ⟨bytes, hwriter, hformat [] (.inr hplain) [] [9]⟩

end RapidLog
