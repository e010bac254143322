import RapidLog.Derive.Logged

/-!
# The grammar of derived schemas

For each definition that the derive macro accepts, the grammar of schemas has a production with as
many items as the definition has fields or variants (`Definition.Sentence`). The generated schema
belongs to it exactly when the count of every struct, tuple and enum in it can be read back
(`Definition.emits_iff`). A count of zero cannot: the macro writes it into the opcode, which then
says that a count follows. Nor can one that takes more than two bytes.
-/

namespace RapidLog

open Logged

section Target

variable [Target]

/-! ### Heads -/

/-- The macro writes no longer a head than the grammar has for the count. -/
theorem Head.length_countHead_le {cat : Category} {count : ℕ} {head : List UInt8}
    (h : Head cat count head) (op : UInt8) : (countHead op count).length ≤ head.length := by
  unfold countHead
  rcases h.eq_or with ⟨op', -, hcount, rfl⟩ | ⟨op', -, rfl⟩
  · have hle := sizeCode_le op'
    rw [if_pos (by omega)]
    exact le_rfl
  · split <;> simp

omit [Target] in
/-- Two lists of two parts each, of which none shrinks, agree part by part. -/
theorem append_inj_of_length_le {α : Type*} {xs ys us vs : List α} (h : xs ++ us = ys ++ vs)
    (hfirst : xs.length ≤ ys.length) (hsecond : us.length ≤ vs.length) : xs = ys ∧ us = vs := by
  have hlength := congrArg List.length h
  rw [List.length_append, List.length_append] at hlength
  exact List.append_inj h (by omega)

/-! ### Sentences -/

/-- A tuple of these items. -/
def TupleOf (items : List (List UInt8)) (s : List UInt8) : Prop :=
  ∃ head, Head .tuple items.length head ∧ s = head ++ items.flatten

/-- A struct whose fields have these schemas, under any names. -/
def StructOf (schemas : List (List UInt8)) (s : List UInt8) : Prop :=
  ∃ head stIdx fields, Head .struct schemas.length head ∧ fields.map Prod.snd = schemas ∧
    (∀ f ∈ fields, f.1 < 256 ^ 2) ∧ s = head ++ stIdx :: itemBytes (named fields)

/-- What the grammar has for the fields of a variant. -/
def Fields.Sentence : Fields → List UInt8 → Prop
  | .unit, s => s = [opUnit]
  | .unnamed [ty], s => s = ty.schema
  | .unnamed tys, s => TupleOf (tys.map Encode.schema) s
  | .named fields, s => StructOf (fields.map fun f => f.2.schema) s

/-- An enum whose variants have these fields, under any names. -/
def EnumOf (variants : List Fields) (s : List UInt8) : Prop :=
  ∃ head vdxK stIdx items, Head .enum variants.length head ∧
    List.Forall₂ (fun fields item => item.1 < 256 ^ 2 ∧ fields.Sentence item.2) variants items ∧
    s = head ++ vdxK :: stIdx :: itemBytes (named items)

/-- A definition that the derive macro accepts. -/
inductive Definition
  | namedStruct (fields : List (String × Encode))
  | tupleStruct (tys : List Encode)
  | enum (variants : List (String × Fields))

namespace Definition

/-- The generated schema. -/
def schema : Definition → List UInt8
  | namedStruct fields => (structSchemaNamed fields []).1
  | tupleStruct tys => structSchemaUnnamed tys
  | enum variants => (enumSchema variants []).1

/-- The types of all fields. -/
def tys : Definition → List Encode
  | namedStruct fields => fields.map Prod.snd
  | tupleStruct tys => tys
  | enum variants => variants.flatMap fun v => v.2.tys

/-- What the grammar has for the definition. -/
def Sentence : Definition → List UInt8 → Prop
  | namedStruct fields => StructOf (fields.map fun f => f.2.schema)
  | tupleStruct tys => TupleOf (tys.map Encode.schema)
  | enum variants => EnumOf (variants.map Prod.snd)

end Definition

/-- The count of the fields can be read; a variant with one unnamed field has none. -/
def Fields.CountsRead : Fields → Prop
  | .unit => True
  | .unnamed tys => CountReads tys.length
  | .named fields => CountReads fields.length

/-- Every count in the schema can be read. -/
def Definition.CountsRead : Definition → Prop
  | namedStruct fields => CountReads fields.length
  | tupleStruct tys => CountReads tys.length
  | enum variants => CountReads variants.length ∧ ∀ v ∈ variants, v.2.CountsRead

/-! ### Structs and tuples -/

theorem structSchemaUnnamed_iff (tys : List Encode) :
    TupleOf (tys.map Encode.schema) (structSchemaUnnamed tys) ↔ CountReads tys.length := by
  rw [← @head_countHead_iff _ opTuple .tuple _ (by simp), structSchemaUnnamed, TupleOf,
    List.length_map]
  constructor
  · rintro ⟨head, hhead, heq⟩
    rwa [List.append_cancel_right heq]
  · exact fun hhead => ⟨_, hhead, rfl⟩

omit [Target] in
theorem structSchemaNamed_eq (fields : List (String × Encode)) (stringTable : List UInt8) :
    (structSchemaNamed fields stringTable).1 = countHead opStruct fields.length ++
      0 :: itemBytes (labelled (fieldPositions fields stringTable)) := by
  rw [← fst_fieldSchemas]
  rfl

omit [Target] in
theorem snd_fieldPositions (fields : List (String × Encode)) (stringTable : List UInt8) :
    (fieldPositions fields stringTable).map Prod.snd = fields.map fun f => f.2.schema := by
  induction fields generalizing stringTable with
  | nil => rfl
  | cons field fields ih => rw [fieldPositions, List.map_cons, ih, List.map_cons]

/-- The names take two bytes each. -/
theorem length_itemBytes_named (items : List (ℕ × List UInt8)) :
    (itemBytes (named items)).length = (items.map fun item => 2 + item.2.length).sum := by
  simp [itemBytes, named, List.length_flatMap, Function.comp_def]

theorem length_itemBytes_labelled (items : List (ℕ × List UInt8)) :
    (itemBytes (labelled items)).length = (items.map fun item => 2 + item.2.length).sum := by
  rw [labelled_eq_named, length_itemBytes_named, List.map_map]
  rfl

/-- Items with the schemas of the fields are as long as those that the macro writes. -/
theorem length_fieldPositions_eq {fields : List (String × Encode)} {items : List (ℕ × List UInt8)}
    (h : items.map Prod.snd = fields.map fun f => f.2.schema) (stringTable : List UInt8) :
    (itemBytes (labelled (fieldPositions fields stringTable))).length =
      (itemBytes (named items)).length := by
  have hlength : ∀ xs : List (ℕ × List UInt8), (xs.map fun item => 2 + item.2.length).sum =
      ((xs.map Prod.snd).map fun s => 2 + s.length).sum := by
    intro xs
    rw [List.map_map]
    rfl
  rw [length_itemBytes_named, length_itemBytes_labelled, hlength, hlength items, h,
    snd_fieldPositions]

theorem structSchemaNamed_iff (fields : List (String × Encode)) (stringTable : List UInt8) :
    StructOf (fields.map fun f => f.2.schema) (structSchemaNamed fields stringTable).1 ↔
      CountReads fields.length := by
  rw [← @head_countHead_iff _ opStruct .struct _ (by simp), structSchemaNamed_eq,
    StructOf, List.length_map]
  constructor
  · rintro ⟨head, stIdx, items, hhead, hitems, -, heq⟩
    -- the items are as long as those of the macro, so the heads are the same
    obtain ⟨rfl, -⟩ := append_inj_of_length_le heq (hhead.length_countHead_le opStruct) (by
      rw [List.length_cons, List.length_cons, length_fieldPositions_eq hitems])
    exact hhead
  · intro hhead
    refine ⟨_, 0, (fieldPositions fields stringTable).map fun item => (offsetOf item.1, item.2),
      hhead, ?_, forall_offsets fun _ _ => offsetOf_lt _, by rw [labelled_eq_named]⟩
    rw [List.map_map, ← snd_fieldPositions fields stringTable]
    rfl

/-! ### Enums -/

namespace Fields

variable {fields : Fields}

theorem sentence_iff (fields : Fields) (stringTable : List UInt8) :
    fields.Sentence (variantSubSchema fields stringTable).1 ↔ fields.CountsRead := by
  cases fields with
  | unit => simp [Sentence, variantSubSchema, CountsRead]
  | named fields => exact structSchemaNamed_iff fields stringTable
  | unnamed tys =>
    match tys with
    | [ty] => exact iff_of_true rfl ⟨le_rfl, .inl (show 1 ≤ 15 by decide)⟩
    | [] => exact structSchemaUnnamed_iff []
    | ty :: ty' :: tys => exact structSchemaUnnamed_iff (ty :: ty' :: tys)

/-- The macro writes no more than the grammar has for the fields. -/
theorem Sentence.length_le {s : List UInt8} (h : fields.Sentence s) (stringTable : List UInt8) :
    (variantSubSchema fields stringTable).1.length ≤ s.length := by
  have htuple : ∀ tys : List Encode, TupleOf (tys.map Encode.schema) s →
      (structSchemaUnnamed tys).length ≤ s.length := by
    rintro tys ⟨head, hhead, rfl⟩
    have hle := hhead.length_countHead_le opTuple
    rw [List.length_map] at hle
    rw [structSchemaUnnamed, List.length_append, List.length_append]
    omega
  cases fields with
  | unit => exact (congrArg List.length h).ge
  | named fields =>
    obtain ⟨head, stIdx, items, hhead, hitems, -, rfl⟩ := h
    have hle := hhead.length_countHead_le opStruct
    have hlength := length_fieldPositions_eq hitems stringTable
    rw [List.length_map] at hle
    show (structSchemaNamed fields stringTable).1.length ≤ _
    rw [structSchemaNamed_eq, List.length_append, List.length_append, List.length_cons,
      List.length_cons]
    omega
  | unnamed tys =>
    rcases tys with _ | ⟨ty, _ | ⟨ty', tys⟩⟩
    · exact htuple [] h
    · exact (congrArg List.length h).ge
    · exact htuple (ty :: ty' :: tys) h

end Fields

omit [Target] in
theorem enumSchema_eq (variants : List (String × Fields)) (stringTable : List UInt8) :
    (enumSchema variants stringTable).1 = countHead opEnum variants.length ++
      vdxK variants.length :: 0 ::
        itemBytes (labelled (variantPositions variants stringTable)) := by
  rw [← fst_variantSchemas]
  rfl

/-- The items of the variants in the grammar. -/
abbrev VariantItems (variants : List (String × Fields)) (items : List (ℕ × List UInt8)) : Prop :=
  List.Forall₂ (fun fields item => item.1 < 256 ^ 2 ∧ fields.Sentence item.2)
    (variants.map Prod.snd) items

theorem length_variantPositions_le {variants : List (String × Fields)}
    {items : List (ℕ × List UInt8)} (h : VariantItems variants items) (stringTable : List UInt8) :
    (itemBytes (labelled (variantPositions variants stringTable))).length ≤
      (itemBytes (named items)).length := by
  rw [length_itemBytes_labelled, length_itemBytes_named]
  induction variants generalizing items stringTable with
  | nil => exact Nat.zero_le _
  | cons variant variants ih =>
    obtain ⟨item, items, ⟨-, hitem⟩, hitems, rfl⟩ := List.forall₂_cons_left_iff.mp h
    have hle := hitem.length_le (stringTable ++ (Utf8.encode variant.1 ++ [0]))
    have hrest := ih hitems (variantSubSchema variant.2 (stringTable ++
      (Utf8.encode variant.1 ++ [0]))).2
    simp only [variantPositions, List.map_cons, List.sum_cons]
    omega

/-- If the macro writes items of the grammar, it writes those of each variant. -/
theorem countsRead_of_variantItems {variants : List (String × Fields)}
    {items : List (ℕ × List UInt8)} (h : VariantItems variants items) {stringTable : List UInt8}
    (heq : itemBytes (labelled (variantPositions variants stringTable)) = itemBytes (named items)) :
    ∀ v ∈ variants, v.2.CountsRead := by
  induction variants generalizing items stringTable with
  | nil => simp
  | cons variant variants ih =>
    obtain ⟨item, items, ⟨-, hitem⟩, hitems, rfl⟩ := List.forall₂_cons_left_iff.mp h
    set table' := stringTable ++ (Utf8.encode variant.1 ++ [0]) with htable'
    have hle := hitem.length_le table'
    have hrest := length_variantPositions_le hitems (variantSubSchema variant.2 table').2
    rw [variantPositions, labelled, List.map_cons, itemBytes_cons, named, List.map_cons,
      itemBytes_cons] at heq
    obtain ⟨-, hitem_eq⟩ := List.append_inj heq (by simp)
    obtain ⟨hsub, hitems_eq⟩ := append_inj_of_length_le hitem_eq hle hrest
    intro v hv
    rcases List.mem_cons.mp hv with rfl | hv
    · rw [← hsub] at hitem
      exact (v.2.sentence_iff table').mp hitem
    · exact ih hitems hitems_eq v hv

/-- The items that the macro writes for variants whose counts can be read. -/
theorem variantItems_of_countsRead {variants : List (String × Fields)}
    (h : ∀ v ∈ variants, v.2.CountsRead) (stringTable : List UInt8) :
    VariantItems variants ((variantPositions variants stringTable).map fun item =>
      (offsetOf item.1, item.2)) := by
  induction variants generalizing stringTable with
  | nil => exact .nil
  | cons variant variants ih =>
    exact .cons ⟨offsetOf_lt _, (variant.2.sentence_iff _).mpr (h variant (by simp))⟩
      (ih (fun v hv => h v (by simp [hv])) _)

theorem enumSchema_iff (variants : List (String × Fields)) (stringTable : List UInt8) :
    EnumOf (variants.map Prod.snd) (enumSchema variants stringTable).1 ↔
      CountReads variants.length ∧ ∀ v ∈ variants, v.2.CountsRead := by
  rw [← @head_countHead_iff _ opEnum .enum _ (by simp), enumSchema_eq, EnumOf,
    List.length_map]
  constructor
  · rintro ⟨head, k, stIdx, items, hhead, hitems, heq⟩
    have hle := length_variantPositions_le hitems stringTable
    obtain ⟨rfl, htail⟩ := append_inj_of_length_le heq (hhead.length_countHead_le opEnum) (by
      rw [List.length_cons, List.length_cons, List.length_cons, List.length_cons]
      omega)
    exact ⟨hhead, countsRead_of_variantItems hitems (List.cons.inj (List.cons.inj htail).2).2⟩
  · rintro ⟨hhead, hvariants⟩
    exact ⟨_, _, 0, _, hhead, variantItems_of_countsRead hvariants stringTable,
      by rw [labelled_eq_named]⟩

/-! ### Definitions -/

theorem TupleOf.wellFormed {items : List (List UInt8)} {s : List UInt8} (h : TupleOf items s)
    (hitems : ∀ item ∈ items, WellFormed (fun _ => True) item) : WellFormed (fun _ => True) s := by
  obtain ⟨head, hhead, rfl⟩ := h
  exact .tuple hhead hitems

theorem StructOf.wellFormed {schemas : List (List UInt8)} {s : List UInt8} (h : StructOf schemas s)
    (hschemas : ∀ schema ∈ schemas, WellFormed (fun _ => True) schema) :
    WellFormed (fun _ => True) s := by
  obtain ⟨head, stIdx, fields, hhead, rfl, hoff, rfl⟩ := h
  rw [List.length_map] at hhead
  exact .struct stIdx hhead hoff fun f hf => hschemas f.2 (List.mem_map_of_mem hf)

theorem Fields.Sentence.wellFormed {fields : Fields} {s : List UInt8} (h : fields.Sentence s)
    (htys : ∀ ty ∈ fields.tys, WellFormed (fun _ => True) ty.schema) :
    WellFormed (fun _ => True) s := by
  have hschemas : ∀ tys : List Encode, (∀ ty ∈ tys, WellFormed (fun _ => True) ty.schema) →
      ∀ schema ∈ tys.map Encode.schema, WellFormed (fun _ => True) schema := by
    intro tys htys schema hschema
    obtain ⟨ty, hty, rfl⟩ := List.mem_map.mp hschema
    exact htys ty hty
  cases fields with
  | unit =>
    obtain rfl : s = [opUnit] := h
    exact wellFormed_unit
  | named fields =>
    refine StructOf.wellFormed h ?_
    rw [show (fields.map fun f => f.2.schema) = (fields.map Prod.snd).map Encode.schema by
      rw [List.map_map]; rfl]
    exact hschemas _ htys
  | unnamed tys =>
    match tys, h, htys with
    | [ty], h, htys =>
      obtain rfl : s = ty.schema := h
      exact htys ty List.mem_cons_self
    | [], h, htys => exact TupleOf.wellFormed h (hschemas [] htys)
    | ty :: ty' :: tys, h, htys => exact TupleOf.wellFormed h (hschemas _ htys)

/-- A sentence is a schema when the types of the fields have schemas. -/
theorem Definition.Sentence.wellFormed {d : Definition} {s : List UInt8} (h : d.Sentence s)
    (htys : ∀ ty ∈ d.tys, WellFormed (fun _ => True) ty.schema) : WellFormed (fun _ => True) s := by
  cases d with
  | namedStruct fields => exact @Fields.Sentence.wellFormed _ (.named fields) s h htys
  | tupleStruct tys =>
    refine TupleOf.wellFormed h fun schema hschema => ?_
    obtain ⟨ty, hty, rfl⟩ := List.mem_map.mp hschema
    exact htys ty hty
  | enum variants =>
    obtain ⟨head, k, stIdx, items, hhead, hitems, rfl⟩ := h
    rw [hitems.length_eq] at hhead
    have hall : ∀ item ∈ items, item.1 < 256 ^ 2 ∧ WellFormed (fun _ => True) item.2 := by
      intro item hitem
      obtain ⟨hlength, hget⟩ := List.forall₂_iff_get.mp hitems
      obtain ⟨i, rfl⟩ := List.mem_iff_get.mp hitem
      have hi : i < (variants.map Prod.snd).length := by rw [hlength]; exact i.2
      obtain ⟨hoff, hsentence⟩ := hget i hi i.2
      refine ⟨hoff, hsentence.wellFormed fun ty hty => htys ty ?_⟩
      obtain ⟨v, hv, heq⟩ := List.mem_map.mp (List.get_mem _ ⟨i, hi⟩)
      exact List.mem_flatMap.mpr ⟨v, hv, heq ▸ hty⟩
    exact .enum k stIdx hhead (fun v hv => (hall v hv).1) fun v hv => (hall v hv).2

/-- The generated schema belongs to the grammar, and `measure_schema` finds its end whatever follows
it, exactly when every count in it can be read. -/
theorem Definition.emits_iff {d : Definition}
    (htys : ∀ ty ∈ d.tys, WellFormed (fun _ => True) ty.schema) :
    d.Sentence d.schema ∧ SelfDelimiting d.schema ↔ d.CountsRead := by
  have hiff : d.Sentence d.schema ↔ d.CountsRead := by
    cases d with
    | namedStruct fields => exact structSchemaNamed_iff fields []
    | tupleStruct tys => exact structSchemaUnnamed_iff tys
    | enum variants => exact enumSchema_iff variants []
  rw [← hiff]
  exact and_iff_left_of_imp fun h => (h.wellFormed htys).selfDelimiting

end Target

/-- An enum with a variant of two fields, and a unit variant behind it. -/
theorem Definition.emits_iff_two :
    letI : Target := x86_64
    let d := Definition.enum
      [("Running", .named [("task", .str), ("ticks", .unsignedInt 4)]), ("Idle", .unit)]
    d.Sentence d.schema ∧ SelfDelimiting d.schema := by
  let _ : Target := x86_64
  intro d
  refine (Definition.emits_iff ?_).mpr ?_
  · intro ty hty
    simp only [d, Definition.tys, List.flatMap_cons, List.flatMap_nil, Fields.tys, List.map_cons,
      List.map_nil, List.append_nil, List.mem_cons, List.not_mem_nil, or_false] at hty
    rcases hty with rfl | rfl
    · exact @WellFormed.scalar _ _ 0x42 trivial trivial
    · exact @WellFormed.scalar _ _ 0x24 trivial trivial
  · refine ⟨⟨by decide, .inl (by decide)⟩, ?_⟩
    intro v hv
    simp only [List.mem_cons, List.not_mem_nil, or_false] at hv
    rcases hv with rfl | rfl
    · exact ⟨by decide, .inl (by decide)⟩
    · exact trivial

/-- The schema of a struct without fields says that a count follows, and nothing does. -/
theorem schema_of_empty_struct :
    letI : Target := x86_64
    ¬ SelfDelimiting (Definition.namedStruct []).schema := by
  let _ : Target := x86_64
  intro h
  have hnone : measureSchema [0xA0, 0] = none := by decide +kernel
  rw [show measureSchema [0xA0, 0] = some 2 from h []] at hnone
  cases hnone

end RapidLog
