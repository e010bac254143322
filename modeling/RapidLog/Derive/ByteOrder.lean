import RapidLog.Arg.Positions
import RapidLog.Derive.Schema

/-!
# The byte order of derived schemas

The derive macro and the hand-written schemas of `Option` and `Result` put the low byte of a
two-byte number first, as `docs/schema.md` says, and so does an enum with the index of a variant.
The interpreters read all of these in the byte order of the target.

`Compound.parts` is a schema as it is put together, number by number. Each number is read back from
where it was written exactly when the target is little-endian or the two bytes are equal
(`Compound.readsBack_iff`). As long as they find every count, `measure_schema` and `format_payload`
come to each of these places (`Compound.readsAt_parts`).
-/

namespace RapidLog

open Logged SliceWriter

/-! ### Schemas in parts -/

/-- What is pushed on a schema: a byte, a number of two bytes, or the schema of another type. -/
inductive Part
  | byte (b : UInt8)
  | number (n : ℕ)
  | schema (s : List UInt8)

/-- The bytes that a part adds to a schema; those of a number are in little-endian order. -/
def Part.bytes : Part → List UInt8
  | byte b => [b]
  | number n => leBytes 2 n
  | schema s => s

/-- An opcode with its count, which follows in two bytes when it does not fit in the opcode. -/
def headParts (op : UInt8) (count : ℕ) : List Part :=
  if count ≤ 15 then [.byte (op ||| .ofNat count)] else [.byte op, .number count]

/-- Items behind the offsets of their names. -/
def itemParts (items : List (ℕ × List UInt8)) : List Part :=
  items.flatMap fun item => [.number item.1, .schema item.2]

/-- The parts of `struct_schema_named`. -/
def structParts (fields : List (String × Encode)) (stringTable : List UInt8) : List Part :=
  headParts opStruct fields.length ++ .byte 0 :: itemParts (fieldPositions fields stringTable)

/-- The parts of `struct_schema_unnamed`. -/
def tupleParts (tys : List Encode) : List Part :=
  headParts opTuple tys.length ++ tys.map fun ty => .schema ty.schema

/-- The parts of `variant_sub_schema`; a single unnamed field stands for itself. -/
def variantSubParts (fields : Fields) (stringTable : List UInt8) : List Part :=
  match fields with
  | .unit => [.byte opUnit]
  | .unnamed [ty] => [.schema ty.schema]
  | .unnamed tys => tupleParts tys
  | .named fields => structParts fields stringTable

/-- The parts for the variants, each behind the offset of its name in the string table so far. -/
def variantParts : List (String × Fields) → List UInt8 → List Part
  | [], _ => []
  | (name, fields) :: variants, stringTable =>
    let stringTable' := stringTable ++ (Utf8.encode name ++ [0])
    .number stringTable.length :: (variantSubParts fields stringTable' ++
      variantParts variants (variantSubSchema fields stringTable').2)

/-- The parts of `enum_schema`. -/
def enumParts (variants : List (String × Fields)) (stringTable : List UInt8) : List Part :=
  headParts opEnum variants.length ++
    .byte (vdxK variants.length) :: .byte 0 :: variantParts variants stringTable

section Parts

/-- The bytes of a head are those that the macro pushes for an opcode and its count. -/
theorem bytes_headParts (op : UInt8) (count : ℕ) :
    (headParts op count).flatMap Part.bytes = countHead op count := by
  unfold headParts countHead
  split <;> simp [Part.bytes]

/-- The bytes of items are those of their schemas, each behind its offset. -/
theorem bytes_itemParts (items : List (ℕ × List UInt8)) :
    (itemParts items).flatMap Part.bytes = itemBytes (labelled items) := by
  simp [itemParts, itemBytes, labelled, List.flatMap_assoc, List.flatMap_map, Part.bytes]

/-- The parts of a struct make up its schema. -/
theorem bytes_structParts (fields : List (String × Encode)) (stringTable : List UInt8) :
    (structParts fields stringTable).flatMap Part.bytes =
      (structSchemaNamed fields stringTable).1 := by
  rw [structSchemaNamed_eq, structParts, List.flatMap_append, bytes_headParts, List.flatMap_cons,
    bytes_itemParts]
  rfl

/-- The parts of a tuple struct make up its schema. -/
theorem bytes_tupleParts (tys : List Encode) :
    (tupleParts tys).flatMap Part.bytes = structSchemaUnnamed tys := by
  rw [tupleParts, structSchemaUnnamed, List.flatMap_append, bytes_headParts, List.flatMap_map,
    ← List.flatMap_def]
  rfl

/-- The parts for the fields of a variant make up the schema behind its name. -/
theorem bytes_variantSubParts (fields : Fields) (stringTable : List UInt8) :
    (variantSubParts fields stringTable).flatMap Part.bytes =
      (variantSubSchema fields stringTable).1 := by
  cases fields with
  | unit => rfl
  | named fields => exact bytes_structParts fields stringTable
  | unnamed tys =>
    match tys with
    | [ty] => exact List.append_nil _
    | [] => exact bytes_tupleParts []
    | ty :: ty' :: tys => exact bytes_tupleParts (ty :: ty' :: tys)

/-- The parts for the variants make up the items of the enum. -/
theorem bytes_variantParts (variants : List (String × Fields)) (stringTable : List UInt8) :
    (variantParts variants stringTable).flatMap Part.bytes =
      itemBytes (labelled (variantPositions variants stringTable)) := by
  induction variants generalizing stringTable with
  | nil => rfl
  | cons variant variants ih =>
    rw [variantParts, variantPositions, labelled, List.map_cons, itemBytes_cons, List.flatMap_cons,
      List.flatMap_append, bytes_variantSubParts, ih]
    rfl

/-- The parts of an enum make up its schema. -/
theorem bytes_enumParts (variants : List (String × Fields)) (stringTable : List UInt8) :
    (enumParts variants stringTable).flatMap Part.bytes = (enumSchema variants stringTable).1 := by
  rw [enumSchema_eq, enumParts, List.flatMap_append, bytes_headParts, List.flatMap_cons,
    List.flatMap_cons, bytes_variantParts]
  rfl

end Parts

/-! ### Where the numbers stand -/

/-- Whether a part is a number. -/
def Part.isNumber : Part → Bool
  | number _ => true
  | byte _ | schema _ => false

/-- Where the numbers of parts stand, when the parts begin at `pos`. -/
def numberStarts : ℕ → List Part → List ℕ
  | _, [] => []
  | pos, part :: parts =>
    (if part.isNumber then [pos] else []) ++ numberStarts (pos + part.bytes.length) parts

section Starts

theorem numberStarts_append (pos : ℕ) (parts parts' : List Part) :
    numberStarts pos (parts ++ parts') = numberStarts pos parts ++
      numberStarts (pos + (parts.flatMap Part.bytes).length) parts' := by
  induction parts generalizing pos with
  | nil => rfl
  | cons part parts ih =>
    rw [List.cons_append, numberStarts, numberStarts, ih, List.flatMap_cons, List.length_append,
      List.append_assoc, Nat.add_assoc]

/-- A number stands behind the bytes of the parts before it. -/
theorem mem_numberStarts (before after : List Part) (n : ℕ) :
    (before.flatMap Part.bytes).length ∈ numberStarts 0 (before ++ .number n :: after) := by
  rw [numberStarts_append, Nat.zero_add]
  exact List.mem_append_right _ List.mem_cons_self

theorem numberStarts_add (k pos : ℕ) (parts : List Part) :
    numberStarts (k + pos) parts = (numberStarts pos parts).map (k + ·) := by
  induction parts generalizing pos with
  | nil => rfl
  | cons part parts ih =>
    rw [numberStarts, numberStarts, Nat.add_assoc, ih, List.map_append]
    split <;> rfl

/-- The number in front of each item stands where the item begins. -/
theorem numberStarts_itemParts (pos : ℕ) (items : List (ℕ × List UInt8)) :
    numberStarts pos (itemParts items) = (itemStarts pos (labelled items)).map Prod.fst := by
  induction items generalizing pos with
  | nil => rfl
  | cons item items ih =>
    have hlabel : (leBytes 2 item.1).length = 2 := length_leBytes 2 item.1
    have hparts : itemParts (item :: items) =
        .number item.1 :: .schema item.2 :: itemParts items := rfl
    rw [hparts, numberStarts, numberStarts, ih]
    simp [labelled, itemStarts, Part.isNumber, Part.bytes, hlabel]

/-- The number in front of a variant stands where the variant begins, and those for its fields in
the schema behind it. -/
theorem mem_numberStarts_variantParts {variants : List (String × Fields)} {stringTable : List UInt8}
    {pos p : ℕ} (h : p ∈ numberStarts pos (variantParts variants stringTable)) :
    ∃ v ∈ variants, ∃ table,
      ∃ x ∈ itemStarts pos (labelled (variantPositions variants stringTable)),
      x.2 = (variantSubSchema v.2 table).1 ∧
        (p = x.1 ∨ ∃ q ∈ numberStarts 0 (variantSubParts v.2 table), p = x.1 + 2 + q) := by
  induction variants generalizing stringTable pos with
  | nil => cases h
  | cons variant variants ih =>
    obtain ⟨name, fields⟩ := variant
    set table := stringTable ++ (Utf8.encode name ++ [0]) with htable
    have hlabel : (leBytes 2 stringTable.length).length = 2 := length_leBytes 2 _
    have hsub : ((variantSubParts fields table).flatMap Part.bytes).length =
        (variantSubSchema fields table).1.length := by rw [bytes_variantSubParts]
    have hitems : itemStarts pos (labelled (variantPositions ((name, fields) :: variants)
        stringTable)) = (pos, (variantSubSchema fields table).1) ::
          itemStarts (pos + 2 + (variantSubSchema fields table).1.length)
            (labelled (variantPositions variants (variantSubSchema fields table).2)) := by
      rw [variantPositions, labelled, List.map_cons, itemStarts, hlabel]
      rfl
    have hparts : numberStarts pos (variantParts ((name, fields) :: variants) stringTable) =
        pos :: ((numberStarts 0 (variantSubParts fields table)).map (pos + 2 + ·) ++
          numberStarts (pos + 2 + (variantSubSchema fields table).1.length)
            (variantParts variants (variantSubSchema fields table).2)) := by
      rw [← numberStarts_add, Nat.add_zero, ← hsub, variantParts, numberStarts,
        numberStarts_append, Part.bytes, hlabel]
      rfl
    rw [hparts] at h
    rcases List.mem_cons.mp h with rfl | h
    · exact ⟨_, List.mem_cons_self, table, _, hitems ▸ List.mem_cons_self, rfl, .inl rfl⟩
    · rcases List.mem_append.mp h with h | h
      · obtain ⟨q, hq, rfl⟩ := List.mem_map.mp h
        exact ⟨_, List.mem_cons_self, table, _, hitems ▸ List.mem_cons_self, rfl,
          .inr ⟨q, hq, rfl⟩⟩
      · obtain ⟨v, hv, table', x, hx, hrest⟩ := ih h
        exact ⟨v, List.mem_cons_of_mem _ hv, table', x,
          hitems ▸ List.mem_cons_of_mem _ hx, hrest⟩

end Starts

section Target

variable [Target]

/-- The count of a head is read when it is not in the opcode. -/
theorem readsAt_headParts {op : UInt8} {cat : Category} {count : ℕ}
    (hop : (op, cat) ∈ [(opTuple, Category.tuple), (opStruct, .struct), (opEnum, .enum)]) {p : ℕ}
    (hp : p ∈ numberStarts 0 (headParts op count)) (rest : List UInt8) :
    ReadsAt (countHead op count ++ rest) p := by
  unfold headParts at hp
  unfold countHead
  split at hp
  · cases hp
  · next hgt =>
    rw [if_neg hgt]
    obtain rfl : p = 1 := List.mem_singleton.mp hp
    obtain ⟨hcat, hk⟩ := category_or_ofNat hop 0 (by decide)
    rw [show op ||| UInt8.ofNat 0 = op from UInt8.or_zero] at hcat hk
    refine .count ?_ hk
    rw [hcat]
    simp only [List.mem_cons, Prod.mk.injEq, List.not_mem_nil, or_false] at hop
    rcases hop with ⟨-, rfl⟩ | ⟨-, rfl⟩ | ⟨-, rfl⟩
    · exact .inl rfl
    · exact .inr (.inl rfl)
    · exact .inr (.inr rfl)

/-- A number of a struct or an enum is its count, or stands at the label of an item or in the schema
behind it. -/
theorem readsAt_compound {op : UInt8} {cat : Category} (hcat : cat = .struct ∨ cat = .enum)
    (hop : (op, cat) ∈ [(opTuple, Category.tuple), (opStruct, .struct), (opEnum, .enum)])
    {items : List (ℕ × List UInt8)} (hcount : CountReads items.length)
    (hitems : ∀ item ∈ items, SelfDelimiting item.2) {extra : List UInt8}
    (hextra : extra.length = cat.extra) {p : ℕ}
    (hp : p ∈ numberStarts 0 (headParts op items.length) ∨
      ∃ x ∈ itemStarts ((countHead op items.length).length + extra.length) (labelled items),
        p = x.1 ∨ ∃ q, ReadsAt x.2 q ∧ p = x.1 + 2 + q) :
    ReadsAt (countHead op items.length ++ (extra ++ itemBytes (labelled items))) p := by
  rcases hp with hp | ⟨x, hx, hp⟩
  · exact readsAt_headParts hop hp _
  · have hhead : Head cat (labelled items).length (countHead op items.length) := by
      rw [labelled, List.length_map]
      exact (head_countHead_iff hop).mpr hcount
    have hlabel : ∀ item ∈ labelled items, item.1.length = 2 := by
      rw [labelled_eq_named]
      exact length_label_named
    have hself : ∀ item ∈ labelled items, SelfDelimiting item.2 := by
      intro item hitem
      obtain ⟨i, hi, rfl⟩ := List.mem_map.mp hitem
      exact hitems i hi
    obtain ⟨hhere, hinside⟩ := readsAt_items hcat hhead hextra hlabel hself hx
    rcases hp with rfl | ⟨q, hq, rfl⟩
    · exact hhere
    · exact hinside q hq

/-- The numbers of a struct are its count and the offsets of the names of its fields. -/
theorem readsAt_structParts {fields : List (String × Encode)} (hcount : CountReads fields.length)
    (hfields : ∀ f ∈ fields, SelfDelimiting f.2.schema) (stringTable : List UInt8) {p : ℕ}
    (hp : p ∈ numberStarts 0 (structParts fields stringTable)) :
    ReadsAt (structSchemaNamed fields stringTable).1 p := by
  have hlen := length_fieldPositions fields stringTable
  have hextra : [(0 : UInt8)].length = Category.struct.extra := rfl
  rw [structSchemaNamed_eq, ← hlen]
  rw [structParts, numberStarts_append, bytes_headParts, Nat.zero_add, numberStarts,
    numberStarts_itemParts, ← hlen] at hp
  refine readsAt_compound (.inl rfl) (by simp) (hlen ▸ hcount) ?_ hextra ?_
  · intro item hitem
    obtain ⟨f, hf, heq⟩ := schema_of_mem_fieldPositions hitem
    exact heq ▸ hfields f hf
  · rcases List.mem_append.mp hp with hp | hp
    · exact .inl hp
    · obtain ⟨x, hx, rfl⟩ := List.mem_map.mp hp
      exact .inr ⟨x, hx, .inl rfl⟩

/-- The only number of a tuple struct is its count. -/
theorem readsAt_tupleParts (tys : List Encode) {p : ℕ} (hp : p ∈ numberStarts 0 (tupleParts tys)) :
    ReadsAt (structSchemaUnnamed tys) p := by
  have hnone : ∀ pos, numberStarts pos (tys.map fun ty => Part.schema ty.schema) = [] := by
    intro pos
    clear hp
    induction tys generalizing pos with
    | nil => rfl
    | cons ty tys ih =>
      rw [List.map_cons, numberStarts, ih]
      rfl
  rw [tupleParts, numberStarts_append, hnone, List.append_nil] at hp
  have hop : (opTuple, Category.tuple) ∈
      [(opTuple, Category.tuple), (opStruct, .struct), (opEnum, .enum)] := by simp
  exact readsAt_headParts hop hp _

/-- The numbers for the fields of a variant are read in the schema behind its name. -/
theorem readsAt_variantSubParts {fields : Fields} (hcount : fields.CountsRead)
    (htys : ∀ ty ∈ fields.tys, WellFormed (fun _ => True) ty.schema) (stringTable : List UInt8)
    {p : ℕ} (hp : p ∈ numberStarts 0 (variantSubParts fields stringTable)) :
    ReadsAt (variantSubSchema fields stringTable).1 p := by
  cases fields with
  | unit => cases hp
  | named fields =>
    refine readsAt_structParts hcount (fun f hf => ?_) stringTable hp
    exact (htys f.2 (List.mem_map_of_mem hf)).selfDelimiting
  | unnamed tys =>
    match tys, hp with
    | [ty], hp => cases hp
    | [], hp => exact readsAt_tupleParts [] hp
    | ty :: ty' :: tys, hp => exact readsAt_tupleParts (ty :: ty' :: tys) hp

omit [Target] in
/-- The items of an enum are the schemas of its variants. -/
theorem schema_of_mem_variantPositions {variants : List (String × Fields)}
    {stringTable : List UInt8} {x : ℕ × List UInt8} (h : x ∈ variantPositions variants stringTable) :
    ∃ v ∈ variants, ∃ table, x.2 = (variantSubSchema v.2 table).1 := by
  induction variants generalizing stringTable with
  | nil => cases h
  | cons v variants ih =>
    rcases List.mem_cons.mp h with rfl | h
    · exact ⟨v, List.mem_cons_self, _, rfl⟩
    · obtain ⟨v', hv', hrest⟩ := ih h
      exact ⟨v', List.mem_cons_of_mem _ hv', hrest⟩

/-- The numbers of an enum are its count, the offsets of the names of its variants, and those in the
schemas of the variants. -/
theorem readsAt_enumParts {variants : List (String × Fields)}
    (hcount : (Definition.enum variants).CountsRead)
    (htys : ∀ ty ∈ (Definition.enum variants).tys, WellFormed (fun _ => True) ty.schema)
    (stringTable : List UInt8) {p : ℕ} (hp : p ∈ numberStarts 0 (enumParts variants stringTable)) :
    ReadsAt (enumSchema variants stringTable).1 p := by
  have hlen := length_variantPositions variants stringTable
  have hop : (opEnum, Category.enum) ∈
      [(opTuple, Category.tuple), (opStruct, .struct), (opEnum, .enum)] := by simp
  have htys' : ∀ v ∈ variants, ∀ ty ∈ v.2.tys, WellFormed (fun _ => True) ty.schema :=
    fun v hv ty hty => htys ty (List.mem_flatMap.mpr ⟨v, hv, hty⟩)
  rw [enumSchema_eq]
  rw [enumParts, numberStarts_append, bytes_headParts, Nat.zero_add, numberStarts, numberStarts]
    at hp
  rw [← hlen] at hp ⊢
  have hextra : [vdxK (variantPositions variants stringTable).length, 0].length =
      Category.enum.extra := rfl
  refine readsAt_compound (.inr rfl) hop (hlen ▸ hcount.1) ?_ hextra ?_
  · -- the schema of each variant can be measured
    intro item hitem
    obtain ⟨v, hv, table, heq⟩ := schema_of_mem_variantPositions hitem
    have hsentence := (Fields.sentence_iff v.2 table).mpr (hcount.2 v hv)
    exact heq ▸ (hsentence.wellFormed (htys' v hv)).selfDelimiting
  · -- the number is the count, the offset of a name, or in the schema of a variant
    rcases List.mem_append.mp hp with hp | hp
    · exact .inl hp
    · obtain ⟨v, hv, table, x, hx, hsub, hcases⟩ := mem_numberStarts_variantParts hp
      refine .inr ⟨x, hx, hcases.imp_right ?_⟩
      rintro ⟨q, hq, rfl⟩
      refine ⟨q, ?_, rfl⟩
      rw [hsub]
      exact readsAt_variantSubParts (hcount.2 v hv) (htys' v hv) table hq

end Target

/-! ### Compounds -/

/-- A type that names its items: a derived one, `Option` or `Result`. -/
inductive Compound
  | derived (d : Definition)
  | option (T : Encode)
  | result (T E : Encode)

namespace Compound

/-- `T::schema()` -/
def schema : Compound → List UInt8
  | derived d => d.schema
  | option T => (Encode.option T).schema
  | result T E => (Encode.result T E).schema

/-- The schema as it is put together. -/
def parts : Compound → List Part
  | derived (.namedStruct fields) => structParts fields []
  | derived (.tupleStruct tys) => tupleParts tys
  | derived (.enum variants) => enumParts variants []
  | option T =>
    [.byte (opEnum ||| 2), .byte 1, .byte 0, .number 0, .byte opUnit, .number 5, .schema T.schema]
  | result T E =>
    [.byte (opEnum ||| 2), .byte 1, .byte 0, .number 0, .schema T.schema, .number 3,
      .schema E.schema]

/-- The parts of a type make up its schema. -/
theorem bytes_parts (x : Compound) : x.parts.flatMap Part.bytes = x.schema := by
  match x with
  | derived (.namedStruct fields) => exact bytes_structParts fields []
  | derived (.tupleStruct tys) => exact bytes_tupleParts tys
  | derived (.enum variants) => exact bytes_enumParts variants []
  | option T => simp [parts, schema, Part.bytes, Encode.option, leBytes]
  | result T E => simp [parts, schema, Part.bytes, Encode.result, leBytes]

/-- An index that a value of the enum is written with, in two bytes. -/
def WritesIndex : Compound → ℕ → Prop
  | derived (.enum variants), n =>
    255 < variants.length ∧ ∃ (c : Choice variants) (buf : List UInt8),
      (((Encode.deriveEnum variants).encodeTo c).run buf).isSome ∧ c.index = n
  | _, _ => False

/-- A number that the type writes in two bytes, in its schema or as an index. -/
def Writes (x : Compound) (n : ℕ) : Prop := .number n ∈ x.parts ∨ x.WritesIndex n

section Target

variable [Target]

/-- From where `n` was written the interpreters read `f n`. -/
structure ReadsBackAs (f : ℕ → ℕ) (x : Compound) : Prop where
  schema : ∀ before n after, x.parts = before ++ .number n :: after →
    readU16 x.schema (before.flatMap Part.bytes).length = some (f n)
  index : ∀ variants, x = derived (.enum variants) → 255 < variants.length →
    ∀ (c : Choice variants) (buf buf' : List UInt8) (m : ℕ),
      ((Encode.deriveEnum variants).encodeTo c).run buf = some (buf', m) →
      readUnsignedNe buf' (vdxK variants.length).toNat = some (f c.index)

/-- The bytes of `n` are in the order of the target, or equal. -/
def InOrder (n : ℕ) : Prop := Target.endian = .little ∨ n % 256 = n / 256 % 256

variable {x : Compound}

/-- What is read is always the number that the two bytes make in the order of the target. -/
theorem readU16_part {before after : List Part} {n : ℕ}
    (h : x.parts = before ++ .number n :: after) :
    readU16 x.schema (before.flatMap Part.bytes).length = some (offsetOf n) := by
  have hbytes : x.schema = before.flatMap Part.bytes ++
      (toNeBytes 2 (offsetOf n) ++ after.flatMap Part.bytes) := by
    rw [← bytes_parts, h, List.flatMap_append, List.flatMap_cons, toNeBytes_offsetOf]
    rfl
  rw [hbytes]
  exact readU16_append (offsetOf_lt n) _ _

/-- The types whose schemas are put into the schema. -/
def tys : Compound → List Encode
  | derived d => d.tys
  | option T => [T]
  | result T E => [T, E]

/-- The interpreters find every count. -/
def CountsRead : Compound → Prop
  | derived d => d.CountsRead
  | option _ | result .. => True

/-- The interpreters come to the place of every number that the type writes in its schema, and read
its two bytes in the order of the target. -/
theorem readsAt_parts (hcount : x.CountsRead)
    (htys : ∀ ty ∈ x.tys, WellFormed (fun _ => True) ty.schema) {before after : List Part} {n : ℕ}
    (h : x.parts = before ++ .number n :: after) :
    ReadsAt x.schema (before.flatMap Part.bytes).length ∧
      readU16 x.schema (before.flatMap Part.bytes).length = some (offsetOf n) := by
  refine ⟨?_, readU16_part h⟩
  have hp := mem_numberStarts before after n
  rw [← h] at hp
  -- `Option` and `Result` are enums of two variants
  have htwo : ∀ (m : ℕ) (s₀ s₁ : List UInt8), SelfDelimiting s₀ → SelfDelimiting s₁ →
      ∀ p ∈ (itemStarts 3 (labelled (twoVariants m s₀ s₁))).map Prod.fst,
        ReadsAt ([opEnum ||| 2] ++ ([1, 0] ++ itemBytes (labelled (twoVariants m s₀ s₁)))) p := by
    intro m s₀ s₁ h₀ h₁ p hp
    obtain ⟨y, hy, rfl⟩ := List.mem_map.mp hp
    have hop : (opEnum, Category.enum) ∈
        [(opTuple, Category.tuple), (opStruct, .struct), (opEnum, .enum)] := by simp
    have hcount : CountReads (twoVariants m s₀ s₁).length :=
      ⟨show 1 ≤ 2 by decide, .inl (show 2 ≤ 15 by decide)⟩
    have hitems : ∀ item ∈ twoVariants m s₀ s₁, SelfDelimiting item.2 := by
      simp [twoVariants, h₀, h₁]
    exact readsAt_compound (.inr rfl) hop hcount hitems rfl (.inr ⟨y, hy, .inl rfl⟩)
  cases x with
  | derived d =>
    cases d with
    | namedStruct fields =>
      refine readsAt_structParts hcount (fun f hf => ?_) [] hp
      exact (htys f.2 (List.mem_map_of_mem hf)).selfDelimiting
    | tupleStruct tys => exact readsAt_tupleParts tys hp
    | enum variants => exact readsAt_enumParts hcount htys [] hp
  | option T =>
    have hT : SelfDelimiting T.schema := (htys T (by simp [tys])).selfDelimiting
    have hread := htwo 5 [opUnit] T.schema wellFormed_unit.selfDelimiting hT _ hp
    simpa [schema, Encode.option, labelled, twoVariants, leBytes] using hread
  | result T E =>
    have hT : SelfDelimiting T.schema := (htys T (by simp [tys])).selfDelimiting
    have hE : SelfDelimiting E.schema := (htys E (by simp [tys])).selfDelimiting
    have hread := htwo 3 T.schema E.schema hT hE _ hp
    simpa [schema, Encode.result, labelled, twoVariants, leBytes] using hread

/-- The index of a variant in two bytes is read as these two bytes in the order of the target. -/
theorem readUnsignedNe_index {variants : List (String × Fields)} (hlen : 255 < variants.length)
    {c : Choice variants} {buf buf' : List UInt8} {m : ℕ}
    (h : ((Encode.deriveEnum variants).encodeTo c).run buf = some (buf', m)) :
    readUnsignedNe buf' (vdxK variants.length).toNat = some (offsetOf c.index) := by
  have hsize : discSize variants.length = 2 := if_pos hlen
  have hk : (vdxK variants.length).toNat = 2 := by rw [vdxK, if_neg (by omega)]; rfl
  obtain ⟨rest, rfl⟩ := eq_append_of_copy_andThen h
  rw [hsize, hk]
  exact readUnsignedNe_append (k := 2) (length_leBytes _ _) (by decide) rest

/-- Reading back is a matter of each number alone. -/
theorem readsBackAs_iff {f : ℕ → ℕ} :
    x.ReadsBackAs f ↔ ∀ n, x.Writes n → offsetOf n = f n := by
  constructor
  · intro h n hwrites
    rcases hwrites with hmem | hindex
    · obtain ⟨before, after, hparts⟩ := List.append_of_mem hmem
      exact Option.some.inj ((readU16_part hparts).symm.trans (h.schema _ _ _ hparts))
    · match x, hindex with
      | derived (.enum variants), ⟨hlen, c, buf, hsome, heq⟩ =>
        obtain ⟨⟨buf', m⟩, hrun⟩ := Option.isSome_iff_exists.mp hsome
        rw [← heq]
        exact Option.some.inj
          ((readUnsignedNe_index hlen hrun).symm.trans (h.index _ rfl hlen _ _ _ _ hrun))
  · intro h
    constructor
    · intro before n after hparts
      rw [readU16_part hparts, h n (.inl (by rw [hparts]; simp))]
    · rintro variants rfl hlen c buf buf' m hrun
      rw [readUnsignedNe_index hlen hrun,
        h c.index (.inr ⟨hlen, c, buf, Option.isSome_of_eq_some hrun, rfl⟩)]

/-- The low sixteen bits of a number survive when its two bytes are in order. -/
theorem offsetOf_eq_mod_iff (n : ℕ) : offsetOf n = n % 256 ^ 2 ↔ InOrder n :=
  Target.endian.ofBytes_leBytes_two_iff n

/-- The whole number survives when it also has no more than sixteen bits. -/
theorem offsetOf_eq_iff (n : ℕ) : offsetOf n = n ↔ n < 256 ^ 2 ∧ InOrder n := by
  rw [← offsetOf_eq_mod_iff]
  constructor
  · intro h
    have hlt : n < 256 ^ 2 := h ▸ offsetOf_lt n
    exact ⟨hlt, by rw [h, Nat.mod_eq_of_lt hlt]⟩
  · rintro ⟨hlt, h⟩
    rwa [Nat.mod_eq_of_lt hlt] at h

/-- The sixteen bits of each number are read back exactly when its bytes are in the order of the
target or equal; the number itself when it has no more than sixteen bits. -/
theorem readsBack_iff (x : Compound) :
    (x.ReadsBackAs (· % 256 ^ 2) ↔ ∀ n, x.Writes n → InOrder n) ∧
      (x.ReadsBackAs id ↔ ∀ n, x.Writes n → n < 256 ^ 2 ∧ InOrder n) := by
  constructor
  · rw [readsBackAs_iff]
    exact forall₂_congr fun n _ => offsetOf_eq_mod_iff n
  · rw [readsBackAs_iff]
    exact forall₂_congr fun n _ => offsetOf_eq_iff n

end Target

/-- On a big-endian target the offset of the name `Some` is read as 1280. -/
theorem option_not_readsBack :
    letI : Target := { endian := .big, pointerWidth := .w64 }
    ¬ ∀ x : Compound, x.ReadsBackAs (· % 256 ^ 2) := by
  let _ : Target := { endian := .big, pointerWidth := .w64 }
  intro h
  have hread := (h (option .unit)).schema
    [.byte (opEnum ||| 2), .byte 1, .byte 0, .number 0, .byte opUnit] 5 _ rfl
  have hswapped : readU16 (option .unit).schema 6 = some 1280 := by decide
  exact absurd (hswapped.symm.trans hread) (by decide)

end Compound

end RapidLog
