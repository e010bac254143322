import RapidLog.Config
import RapidLog.Lib.Slice
import RapidLog.Lib.Utf8

/-!
# Argument schemas and their interpreter

`arg/mod.rs` and `arg/schema.rs`: the schema bytecode that describes the types of the logged
arguments, and the backend's interpreter of it. `measureSchema` finds the end of a schema;
`formatPayload` walks a schema and a payload together and writes the text of the argument.

Both recurse on parts of the schema. `measureStep` and `formatStep` are the bodies of the source
functions, with the recursive calls as arguments; the recursion itself runs on a bound that the
length of the schema makes large enough (`measureSchema_eq`, `formatPayload_eq`). `none` stands for
a panic: an index or a slice out of range, or an addition of sizes that overflows `usize`.
-/

namespace RapidLog

open Slice

/-! ### Opcodes -/

def opUnit : UInt8 := 0x00
def opSignedInt : UInt8 := 0x10
def opUnsignedInt : UInt8 := 0x20
def opFloat : UInt8 := 0x30
def opStr : UInt8 := 0x40
def opChar : UInt8 := 0x50
def opBool : UInt8 := 0x60
def opSeq : UInt8 := 0x80
def opTuple : UInt8 := 0x90
def opStruct : UInt8 := 0xA0
def opEnum : UInt8 := 0xB0
def opUserDefined : UInt8 := 0xF0

def catMask : UInt8 := 0xF0
def sizeMask : UInt8 := 0x0F

/-- An opcode with a size code or an inline count in its low four bits: `op | (k & SIZE_MASK)`. -/
def withCode (op k : UInt8) : UInt8 := op ||| (k &&& sizeMask)

/-- The arms of the matches on the upper four bits of an opcode. -/
inductive Category
  | unit | signedInt | unsignedInt | float | str | char | bool
  | seq | tuple | struct | enum
  | userDefined
  | unknown
  deriving DecidableEq, Repr

/-- The category of an opcode: `op & CAT_MASK`. -/
def category (op : UInt8) : Category :=
  let cat := op &&& catMask
  if cat = opUnit then .unit
  else if cat = opSignedInt then .signedInt
  else if cat = opUnsignedInt then .unsignedInt
  else if cat = opFloat then .float
  else if cat = opStr then .str
  else if cat = opChar then .char
  else if cat = opBool then .bool
  else if cat = opSeq then .seq
  else if cat = opTuple then .tuple
  else if cat = opStruct then .struct
  else if cat = opEnum then .enum
  else if cat = opUserDefined then .userDefined
  else .unknown

/-- The size code, or inline count, of an opcode: `op & SIZE_MASK`. -/
def sizeCode (op : UInt8) : ℕ := (op &&& sizeMask).toNat

def sizeForK : ℕ → ℕ
  | 1 => 1
  | 2 => 2
  | 3 => 4
  | 4 => 8
  | 5 => 16
  | _ => 0

section Target

variable [Target]

/-- `read_unsigned_ne`; a 16-byte integer reads as 0. -/
def readUnsignedNe (buf : List UInt8) (k : ℕ) : Option ℕ :=
  match sizeForK k with
  | 1 => some ((buf.head?.map UInt8.toNat).getD 0)
  | 2 => (slice buf 0 2).map fromNeBytes
  | 4 => (slice buf 0 4).map fromNeBytes
  | 8 => (slice buf 0 8).map fromNeBytes
  | _ => some 0

/-- The two's complement reading of a `size`-byte integer. -/
def asSigned (size n : ℕ) : ℤ := (BitVec.ofNat (8 * size) n).toInt

/-- `read_signed_ne`; a 16-byte integer reads as 0. -/
def readSignedNe (buf : List UInt8) (k : ℕ) : Option ℤ :=
  match sizeForK k with
  | 1 => some (asSigned 1 ((buf.head?.map UInt8.toNat).getD 0))
  | 2 => (slice buf 0 2).map fun bytes => asSigned 2 (fromNeBytes bytes)
  | 4 => (slice buf 0 4).map fun bytes => asSigned 4 (fromNeBytes bytes)
  | 8 => (slice buf 0 8).map fun bytes => asSigned 8 (fromNeBytes bytes)
  | _ => some 0

/-- `u16::from_ne_bytes([schema[pos], schema[pos + 1]])` -/
def readU16 (schema : List UInt8) (pos : ℕ) : Option ℕ := do
  let lo ← schema[pos]?
  let hi ← schema[pos + 1]?
  return fromNeBytes [lo, hi]

/-! ### Measuring a schema -/

/-- `n` sub-schemas one after the other from `pos` on, each behind `skip` bytes of its own: the
position behind the last one. -/
def measureItems (measure : List UInt8 → Option ℕ) (schema : List UInt8) (skip : ℕ) :
    ℕ → ℕ → Option ℕ
  | 0, pos => some pos
  | n + 1, pos => do
    let len ← measure (← sliceFrom schema (pos + skip))
    measureItems measure schema skip n (pos + skip + len)

/-- The body of `measure_schema`. -/
def measureStep (measure : List UInt8 → Option ℕ) (schema : List UInt8) : Option ℕ :=
  match schema with
  | [] => some 0
  | op :: _ =>
    let k := sizeCode op
    let pos := 1
    match category op with
    | .unit | .signedInt | .unsignedInt | .float | .str | .char | .bool => some pos
    | .userDefined => some (pos + 1)
    | .seq => do
      let len ← measure (← sliceFrom schema pos)
      return pos + len
    | .tuple =>
      if k = 0 then do
        let n ← readU16 schema pos
        measureItems measure schema 0 n (pos + 2)
      else measureItems measure schema 0 k pos
    | .struct =>
      if k = 0 then do
        let n ← readU16 schema pos
        measureItems measure schema 2 n (pos + 3) -- n:u16 + st_idx:u8
      else measureItems measure schema 2 k (pos + 1) -- st_idx:u8
    | .enum =>
      if k = 0 then do
        let n ← readU16 schema pos
        measureItems measure schema 2 n (pos + 4) -- n:u16 + vdx_k:u8 + st_idx:u8
      else measureItems measure schema 2 k (pos + 2) -- vdx_k:u8 + st_idx:u8
    | .unknown => some pos

def measureFuel : ℕ → List UInt8 → Option ℕ
  | 0, _ => none
  | fuel + 1, schema => measureStep (measureFuel fuel) schema

/-- `measure_schema` -/
def measureSchema (schema : List UInt8) : Option ℕ := measureFuel (schema.length + 1) schema

/-! ### Formatting a payload -/

/-- The text that `Display` gives for the floating-point number with these bits. -/
class FloatDisplay where
  f32 : ℕ → String
  f64 : ℕ → String

/-- A display for runs in which no floating-point number is logged. -/
@[reducible] def noFloats : FloatDisplay := { f32 := fun _ => "", f64 := fun _ => "" }

/-- A user-defined formatter: the text it writes for a payload, and how much of it it used. -/
abbrev UserFormatter := List UInt8 → String × ℕ

/-- The entry of a string table that begins at an offset and ends before the next zero byte. -/
def readStrFromTable (stIdx stOff : ℕ) (stringTables : List (List UInt8)) : String :=
  let table := (stringTables[stIdx]?).getD []
  if table.length ≤ stOff then ""
  else (Utf8.decode ((table.drop stOff).takeWhile (· ≠ 0))).getD ""

/-- What stands before the `i`-th item of a list. -/
def separator (i : ℕ) : String := if 0 < i then ", " else ""

/-- The loop of `OP_SEQ` over `n` elements, of which the next is the `i`-th and begins at `pos`:
the text and the position behind them. -/
def formatElems (format : List UInt8 → Option (String × ℕ)) (payload : List UInt8) :
    ℕ → ℕ → ℕ → Option (String × ℕ)
  | 0, _, pos => some ("", pos)
  | n + 1, i, pos => do
    let (text, used) ← format (← sliceFrom payload pos)
    let (rest, pos) ← formatElems format payload n (i + 1) (pos + used)
    return (separator i ++ text ++ rest, pos)

/-- The loop of `OP_TUPLE` and `OP_STRUCT` over `n` items, of which the next is the `i`-th, with
its schema from `spos` and its payload from `pos` on. `label` gives what is written before the item
and where its own schema begins. -/
def formatItems (format : List UInt8 → List UInt8 → Option (String × ℕ))
    (label : ℕ → Option (String × ℕ)) (schema payload : List UInt8) :
    ℕ → ℕ → ℕ → ℕ → Option (String × ℕ)
  | 0, _, _, pos => some ("", pos)
  | n + 1, i, spos, pos => do
    let (name, spos) ← label spos
    let len ← measureSchema (← sliceFrom schema spos)
    let (text, used) ← format (← slice schema spos (spos + len)) (← sliceFrom payload pos)
    let (rest, pos) ← formatItems format label schema payload n (i + 1) (spos + len) (pos + used)
    return (separator i ++ name ++ text ++ rest, pos)

/-- The items of a tuple have no label. -/
def tupleLabel (spos : ℕ) : Option (String × ℕ) := some ("", spos)

/-- The fields of a struct are labelled with their names. -/
def fieldLabel (schema : List UInt8) (stIdx : ℕ) (stringTables : List (List UInt8)) (spos : ℕ) :
    Option (String × ℕ) := do
  let stOff ← readU16 schema spos
  return (readStrFromTable stIdx stOff stringTables ++ ": ", spos + 2)

/-- The loop of `OP_ENUM` over `n` variants, of which the next is the `i`-th: the name and the
bounds of the schema of the variant with the given index, as found so far. -/
def findVariant (schema : List UInt8) (stIdx varIdx : ℕ) (stringTables : List (List UInt8)) :
    ℕ → ℕ → ℕ → String × ℕ × ℕ → Option (String × ℕ × ℕ)
  | 0, _, _, found => some found
  | n + 1, i, spos, found => do
    let stOff ← readU16 schema spos
    let spos := spos + 2
    let len ← measureSchema (← sliceFrom schema spos)
    let found :=
      if i = varIdx then (readStrFromTable stIdx stOff stringTables, spos, spos + len) else found
    findVariant schema stIdx varIdx stringTables n (i + 1) (spos + len) found

/-- The number of items of a compound, and the position behind it: in the opcode, or in the two
bytes after it. -/
def itemCount (schema : List UInt8) (k : ℕ) : Option (ℕ × ℕ) :=
  if k = 0 then do
    let n ← readU16 schema 1
    return (n, 3)
  else some (k, 1)

variable [FloatDisplay]

/-- The body of `format_payload`: the text, and how much of the payload it took. -/
def formatStep (format : List UInt8 → List UInt8 → Option (String × ℕ))
    (stringTables : List (List UInt8)) (userFormatters : List UserFormatter)
    (schema payload : List UInt8) : Option (String × ℕ) :=
  match schema with
  | [] => some ("", 0)
  | op :: _ =>
    let k := sizeCode op
    let size := sizeForK k
    match category op with
    | .unit => some ("()", 0)
    | .signedInt =>
      if payload.length < size then some ("", 0)
      else do
        let val ← readSignedNe payload k
        return (toString val, size)
    | .unsignedInt =>
      if payload.length < size then some ("", 0)
      else do
        let val ← readUnsignedNe payload k
        return (toString val, size)
    | .float =>
      if payload.length < size then some ("", 0)
      else
        match k with
        | 3 => some (FloatDisplay.f32 (fromNeBytes (payload.take 4)), size)
        | 4 => some (FloatDisplay.f64 (fromNeBytes (payload.take 8)), size)
        | _ => some ("", size)
    | .str =>
      if payload.length < size then some ("", 0)
      else do
        let len := (← readUnsignedNe payload k) % usizeRange
        -- the sum overflows; when it wraps instead, the slice below is out of range
        if usizeRange ≤ size + len then none
        else if payload.length < size + len then some ("", size)
        else
          let bytes ← slice payload size (size + len)
          return ((Utf8.decode bytes).getD "", size + len)
    | .char =>
      if payload.length < 4 then some ("", 0)
      else
        let code := fromNeBytes (payload.take 4)
        some (if code.isValidChar then (Char.ofNat code).toString else "", 4)
    | .bool =>
      match payload with
      | [] => some ("", 0)
      | byte :: _ => some (toString (decide (byte ≠ 0)), 1)
    | .seq =>
      if payload.length < size then some ("", 0)
      else do
        let count := (← readUnsignedNe payload k) % usizeRange
        let len ← measureSchema (← sliceFrom schema 1)
        let elemSchema ← slice schema 1 (1 + len)
        let (text, pos) ← formatElems (format elemSchema) payload count 0 size
        return ("[" ++ text ++ "]", pos)
    | .tuple => do
      let (n, start) ← itemCount schema k
      let (text, pos) ← formatItems format tupleLabel schema payload n 0 start 0
      return ("(" ++ text ++ ")", pos)
    | .struct => do
      let (n, start) ← itemCount schema k
      let stIdx ← schema[start]?
      let (text, pos) ← formatItems format (fieldLabel schema stIdx.toNat stringTables) schema
        payload n 0 (start + 1) 0
      return ("\x7b" ++ text ++ "\x7d", pos)
    | .enum => do
      let (n, start) ← itemCount schema k
      let vdxK ← schema[start]?
      let stIdx ← schema[start + 1]?
      let varCountSize := sizeForK vdxK.toNat
      if payload.length < varCountSize then return ("", 0)
      else
        let varIdx := (← readUnsignedNe payload vdxK.toNat) % usizeRange
        let (name, lo, hi) ← findVariant schema stIdx.toNat varIdx stringTables n 0 (start + 2)
          ("", 0, 0)
        let varSchema ← if lo < hi then slice schema lo hi else some []
        if varSchema = [] ∨ varSchema = [opUnit] then return (name, varCountSize)
        else
          let (text, used) ← format varSchema (← sliceFrom payload varCountSize)
          return (name ++ "(" ++ text ++ ")", varCountSize + used)
    | .userDefined =>
      match schema[1]? with
      | none => some ("", 0)
      | some idx =>
        match userFormatters[idx.toNat]? with
        | none => some ("", 0)
        | some format => some (format payload)
    | .unknown => some ("", 0)

def formatFuel (stringTables : List (List UInt8)) (userFormatters : List UserFormatter) :
    ℕ → List UInt8 → List UInt8 → Option (String × ℕ)
  | 0, _, _ => none
  | fuel + 1, schema, payload =>
    formatStep (formatFuel stringTables userFormatters fuel) stringTables userFormatters schema
      payload

/-- `format_payload`; the text goes to the writer. -/
def formatPayload (schema payload : List UInt8) (stringTables : List (List UInt8))
    (userFormatters : List UserFormatter) : Option (String × ℕ) :=
  formatFuel stringTables userFormatters (schema.length + 1) schema payload

end Target

/-! ### The recursion -/

section Target

variable [Target] {schema payload : List UInt8}

omit [Target] in
/-- What is left of a schema behind its opcode is shorter. -/
theorem lt_of_sliceFrom {sub : List UInt8} {pos : ℕ} (hpos : 0 < pos)
    (h : sliceFrom schema pos = some sub) : sub.length < schema.length := by
  have hlen := length_sliceFrom h
  omega

omit [Target] in
/-- A part of a schema behind its opcode is shorter. -/
theorem lt_of_slice {sub : List UInt8} {lo hi : ℕ} (hlo : 0 < lo)
    (h : slice schema lo hi = some sub) : sub.length < schema.length := by
  have hlen := length_slice h
  omega

omit [Target] in
/-- The loop looks at shorter schemas only. -/
theorem measureItems_congr {f g : List UInt8 → Option ℕ}
    (h : ∀ sub : List UInt8, sub.length < schema.length → f sub = g sub) (skip n : ℕ) {pos : ℕ}
    (hpos : 0 < pos) : measureItems f schema skip n pos = measureItems g schema skip n pos := by
  induction n generalizing pos with
  | zero => rfl
  | succ n ih =>
    simp only [measureItems]
    cases hsub : sliceFrom schema (pos + skip) with
    | none => rfl
    | some sub =>
      rw [Option.bind_eq_bind, Option.bind_some, Option.bind_some,
        h sub (lt_of_sliceFrom (by omega) hsub)]
      exact Option.bind_congr fun len _ => ih (by omega)

theorem measureStep_congr {f g : List UInt8 → Option ℕ}
    (h : ∀ sub : List UInt8, sub.length < schema.length → f sub = g sub) :
    measureStep f schema = measureStep g schema := by
  cases schema with
  | nil => rfl
  | cons op rest =>
    have hitems : ∀ skip n pos, 0 < pos → measureItems f (op :: rest) skip n pos =
        measureItems g (op :: rest) skip n pos := fun skip n pos => measureItems_congr h skip n
    simp only [measureStep]
    cases category op with
    | unit | signedInt | unsignedInt | float | str | char | bool | userDefined | unknown => rfl
    | seq =>
      cases hsub : sliceFrom (op :: rest) 1 with
      | none => rfl
      | some sub =>
        simp only [Option.bind_eq_bind, Option.bind_some, h sub (lt_of_sliceFrom Nat.one_pos hsub)]
    | tuple | struct | enum =>
      simp only [Option.bind_eq_bind]
      split
      · exact Option.bind_congr fun n _ => hitems _ n _ (by omega)
      · exact hitems _ _ _ (by omega)

/-- Any bound above the length of the schema gives the same result. -/
theorem measureFuel_eq {n m : ℕ} (hn : schema.length < n) (hm : schema.length < m) :
    measureFuel n schema = measureFuel m schema := by
  induction n generalizing schema m with
  | zero => omega
  | succ n ih =>
    obtain ⟨m, rfl⟩ : ∃ k, m = k + 1 := ⟨m - 1, by omega⟩
    exact measureStep_congr fun sub hsub => ih (by omega) (by omega)

/-- `measure_schema` as the source writes it. -/
theorem measureSchema_eq (schema : List UInt8) :
    measureSchema schema = measureStep measureSchema schema :=
  measureStep_congr fun _ hsub => measureFuel_eq hsub (Nat.lt_succ_self _)

/-- The loop looks at shorter schemas only, as long as no label goes back. -/
theorem formatItems_congr {f g : List UInt8 → List UInt8 → Option (String × ℕ)}
    (h : ∀ sub : List UInt8, sub.length < schema.length → f sub = g sub)
    {label : ℕ → Option (String × ℕ)}
    (hlabel : ∀ spos name spos', label spos = some (name, spos') → spos ≤ spos') (n i pos : ℕ)
    {spos : ℕ} (hspos : 0 < spos) :
    formatItems f label schema payload n i spos pos =
      formatItems g label schema payload n i spos pos := by
  induction n generalizing i spos pos with
  | zero => rfl
  | succ n ih =>
    simp only [formatItems, Option.bind_eq_bind]
    refine Option.bind_congr fun ⟨name, spos'⟩ hname => ?_
    have hle := hlabel _ _ _ hname
    refine Option.bind_congr fun rest _ => Option.bind_congr fun len _ => ?_
    refine Option.bind_congr fun sub hsub => ?_
    rw [h sub (lt_of_slice (by omega) hsub)]
    refine Option.bind_congr fun rest' _ => Option.bind_congr fun ⟨text, used⟩ _ => ?_
    rw [ih (i + 1) (pos + used) (by omega)]

theorem le_fieldLabel {stIdx spos spos' : ℕ} {tables : List (List UInt8)} {name : String}
    (h : fieldLabel schema stIdx tables spos = some (name, spos')) : spos ≤ spos' := by
  simp only [fieldLabel, Option.bind_eq_bind, Option.bind_eq_some_iff] at h
  obtain ⟨stOff, -, h⟩ := h
  cases h
  exact Nat.le_add_right ..

/-- The schema of the chosen variant stands behind the opcode. -/
theorem lt_of_findVariant {stIdx varIdx n i spos lo hi : ℕ} {tables : List (List UInt8)}
    {found : String × ℕ × ℕ} {name : String} (hspos : 0 < spos)
    (hfound : found.2.1 < found.2.2 → 0 < found.2.1)
    (h : findVariant schema stIdx varIdx tables n i spos found = some (name, lo, hi)) :
    lo < hi → 0 < lo := by
  induction n generalizing i spos found with
  | zero =>
    cases h
    exact hfound
  | succ n ih =>
    simp only [findVariant, Option.bind_eq_bind, Option.bind_eq_some_iff] at h
    obtain ⟨stOff, -, sub, -, len, -, h⟩ := h
    refine ih (by omega) ?_ h
    split
    · intro _
      exact Nat.succ_pos _
    · exact hfound

variable [FloatDisplay] {tables : List (List UInt8)} {ufs : List UserFormatter}

theorem formatStep_congr {f g : List UInt8 → List UInt8 → Option (String × ℕ)}
    (h : ∀ sub : List UInt8, sub.length < schema.length → f sub = g sub) :
    formatStep f tables ufs schema payload = formatStep g tables ufs schema payload := by
  cases schema with
  | nil => rfl
  | cons op rest =>
    have hitems : ∀ (label : ℕ → Option (String × ℕ)) (n spos : ℕ),
        (∀ spos name spos', label spos = some (name, spos') → spos ≤ spos') → 0 < spos →
        formatItems f label (op :: rest) payload n 0 spos 0 =
          formatItems g label (op :: rest) payload n 0 spos 0 :=
      fun label n spos hlabel => formatItems_congr h hlabel n 0 0
    -- the items start behind the opcode, so each of them is shorter than the schema
    have hstart : ∀ n start,
        itemCount (op :: rest) (sizeCode op) = some (n, start) → 0 < start := by
      intro n start hcount
      unfold itemCount at hcount
      split at hcount
      · simp only [Option.bind_eq_bind, Option.bind_eq_some_iff] at hcount
        obtain ⟨m, -, hm⟩ := hcount
        cases hm
        exact Nat.zero_lt_succ 2
      · cases hcount
        exact Nat.one_pos
    simp only [formatStep]
    cases category op with
    | unit | signedInt | unsignedInt | float | str | char | bool | userDefined | unknown => rfl
    | seq =>
      simp only [Option.bind_eq_bind]
      split
      · rfl
      · refine Option.bind_congr fun val _ => Option.bind_congr fun sub _ => ?_
        refine Option.bind_congr fun len _ => Option.bind_congr fun elem helem => ?_
        rw [h elem (lt_of_slice Nat.one_pos helem)]
    | tuple =>
      simp only [Option.bind_eq_bind]
      refine Option.bind_congr fun counted hcount => ?_
      obtain ⟨n, start⟩ := counted
      rw [hitems tupleLabel n start (fun spos name spos' hlabel => by cases hlabel; rfl)
        (hstart n start hcount)]
    | struct =>
      simp only [Option.bind_eq_bind]
      refine Option.bind_congr fun counted _ => Option.bind_congr fun stIdx _ => ?_
      obtain ⟨n, start⟩ := counted
      rw [hitems _ n (start + 1) (fun _ _ _ => le_fieldLabel) (Nat.succ_pos start)]
    | enum =>
      simp only [Option.bind_eq_bind]
      refine Option.bind_congr fun counted _ => Option.bind_congr fun vdxK _ => ?_
      obtain ⟨n, start⟩ := counted
      refine Option.bind_congr fun stIdx _ => ?_
      split
      · rfl
      · refine Option.bind_congr fun val _ => Option.bind_congr fun found hfound => ?_
        obtain ⟨name, lo, hi⟩ := found
        have hlo := lt_of_findVariant (Nat.succ_pos _) id hfound
        split
        · next hlt =>
          refine Option.bind_congr fun sub hsub => ?_
          rw [h sub (lt_of_slice (hlo hlt) hsub)]
        · rfl

/-- Any bound above the length of the schema gives the same result. -/
theorem formatFuel_eq {n m : ℕ} (hn : schema.length < n) (hm : schema.length < m) :
    formatFuel tables ufs n schema payload = formatFuel tables ufs m schema payload := by
  induction n generalizing schema payload m with
  | zero => omega
  | succ n ih =>
    obtain ⟨m, rfl⟩ : ∃ k, m = k + 1 := ⟨m - 1, by omega⟩
    exact formatStep_congr fun sub hsub => funext fun rest => ih (by omega) (by omega)

/-- `format_payload` as the source writes it. -/
theorem formatPayload_eq (schema payload : List UInt8) (tables : List (List UInt8))
    (ufs : List UserFormatter) :
    formatPayload schema payload tables ufs =
      formatStep (fun schema payload => formatPayload schema payload tables ufs) tables ufs schema
        payload :=
  formatStep_congr fun _ hsub =>
    funext fun _ => formatFuel_eq hsub (Nat.lt_succ_self _)

end Target

end RapidLog
