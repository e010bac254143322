import RapidLog.Arg.Logged
import RapidLog.Derive

/-!
# Derived types with the texts of their values

The names of fields and variants are put into one string table while the schema is written, so the
templates of a derived type follow the same recursion: each takes the table as it is at that point
and puts the length of it, cut to 16 bits, as the offset of the next name.

A derived type is good when the types of its fields are and when the interpreter can read the
numbers of its items (`good_deriveStruct`, `good_deriveEnum`). A struct or a variant without fields
is not: its head says that the count stands in the next two bytes, where none is.
-/

namespace RapidLog

open SliceWriter

section Target

variable [Target]

/-- A number of items that the interpreter finds in the head of a derived schema. None at all is
taken for a count in the next two bytes, and these have the low byte first. -/
def CountOk (count : ℕ) : Prop :=
  1 ≤ count ∧ (count ≤ 15 ∨ Target.endian = .little ∧ count < 256 ^ 2)

/-- A count that the interpreter reads from the head of a derived schema. One above 15 is written
with the low byte first and read in the order of the target. -/
def CountReads (count : ℕ) : Prop :=
  1 ≤ count ∧ (count ≤ 15 ∨ count < 256 ^ 2 ∧ toNeBytes 2 count = leBytes 2 count)

theorem CountOk.reads {count : ℕ} (h : CountOk count) : CountReads count := by
  refine ⟨h.1, h.2.imp_right fun ⟨hend, hlt⟩ => ⟨hlt, ?_⟩⟩
  rw [toNeBytes, hend]
  rfl

omit [Target] in
theorem sizeCode_le (op : UInt8) : sizeCode op ≤ 15 := by
  rw [sizeCode, UInt8.toNat_and]
  exact Nat.and_le_right

/-- The two forms of a head. -/
theorem Head.eq_or {cat : Category} {count : ℕ} {head : List UInt8} (h : Head cat count head) :
    (∃ op, 0 < sizeCode op ∧ count = sizeCode op ∧ head = [op]) ∨
      ∃ op, count < 256 ^ 2 ∧ head = op :: toNeBytes 2 count := by
  cases h with
  | @ofCode op hcat hk => exact .inl ⟨op, hk, rfl, rfl⟩
  | @extended op n hcat hk hn => exact .inr ⟨op, hn, rfl⟩

/-- The head that the macro writes is one of the grammar exactly when its count can be read. -/
theorem head_countHead_iff {op : UInt8} {cat : Category} {count : ℕ}
    (hop : (op, cat) ∈ [(opTuple, Category.tuple), (opStruct, .struct), (opEnum, .enum)]) :
    Head cat count (countHead op count) ↔ CountReads count := by
  constructor
  · intro hhead
    have hlengths : ∀ x y z : UInt8, ∀ n, [x] ≠ y :: toNeBytes 2 n ∧ z :: leBytes 2 n ≠ [y] := by
      intro x y z n
      refine ⟨fun h => ?_, fun h => ?_⟩ <;> simpa using congrArg List.length h
    unfold countHead at hhead
    split at hhead
    · next hle =>
      rcases hhead.eq_or with ⟨op', hpos, hcount, -⟩ | ⟨op', -, heq⟩
      · exact ⟨by omega, .inl hle⟩
      · exact absurd heq (hlengths _ _ 0 _).1
    · next hgt =>
      rcases hhead.eq_or with ⟨op', -, -, heq⟩ | ⟨op', hlt, heq⟩
      · exact absurd heq (hlengths 0 _ _ _).2
      · exact ⟨by omega, .inr ⟨hlt, (List.cons.inj heq).2.symm⟩⟩
  · rintro ⟨hpos, hcount⟩
    unfold countHead
    split
    · next hle => exact head_inline hop hpos hle
    · next hgt =>
      obtain ⟨hlt, hbytes⟩ := hcount.resolve_left hgt
      obtain ⟨hcat, hk⟩ := category_or_ofNat hop 0 (by decide)
      rw [show op ||| UInt8.ofNat 0 = op from UInt8.or_zero] at hcat hk
      rw [← hbytes]
      exact .extended hcat hk hlt

theorem head_countHead {op : UInt8} {cat : Category} {count : ℕ}
    (hop : (op, cat) ∈ [(opTuple, Category.tuple), (opStruct, .struct), (opEnum, .enum)])
    (hcount : CountOk count) : Head cat count (countHead op count) :=
  (head_countHead_iff hop).mpr hcount.reads

namespace Logged

/-- The impls of fields. -/
def fieldImpls (fs : List (String × Logged)) : List (String × Encode) :=
  fs.map fun f => (f.1, f.2.impl)

/-- The fields of a struct, each with its name and its type. -/
def fieldParts : (fs : List (String × Logged)) →
    Encode.Tuple ((fieldImpls fs).map Prod.snd) → List (String × Value)
  | [], _ => []
  | f :: fs, (x, xs) => (f.1, ⟨f.2, x⟩) :: fieldParts fs xs

/-- Fields whose names are put into a string table after what it has already. -/
def fieldTemplates : List (String × Value) → List UInt8 → List NameTemplate
  | [], _ => []
  | (name, q) :: qs, stringTable =>
    (.hole (offsetOf stringTable.length, name) :: .text ": " :: q.template) ::
      fieldTemplates qs (stringTable ++ (Utf8.encode name ++ [0]))

/-- A struct shows its fields in braces, each behind its name. -/
def structTemplate (qs : List (String × Value)) (stringTable : List UInt8) : NameTemplate :=
  listed "\x7b" "\x7d" (fieldTemplates qs stringTable)

/-- A derived struct. -/
def deriveStruct (fs : List (String × Logged)) : Logged where
  impl := .deriveStruct (fieldImpls fs)
  fits v := ∀ q ∈ fieldParts fs v, q.2.fits
  template v := structTemplate (fieldParts fs v) []

/-- The fields of a variant, each with its type. -/
inductive VariantFields
  | unit
  | unnamed (ps : List Logged)
  | named (fs : List (String × Logged))

namespace VariantFields

def impl : VariantFields → Fields
  | unit => .unit
  | unnamed ps => .unnamed (ps.map Logged.impl)
  | named fs => .named (fieldImpls fs)

def types : VariantFields → List Logged
  | unit => []
  | unnamed ps => ps
  | named fs => fs.map Prod.snd

/-- The names of the fields. -/
def names : VariantFields → List String
  | unit | unnamed _ => []
  | named fs => fs.map Prod.fst

def parts : (fields : VariantFields) → Encode.Tuple fields.impl.tys → List Value
  | unit, _ => []
  | unnamed ps, v => Logged.parts ps v
  | named fs, v => (fieldParts fs v).map Prod.snd

/-- What is shown for the fields of a variant, when their names are put into the string table after
what it has already. -/
def template : (fields : VariantFields) → Encode.Tuple fields.impl.tys → List UInt8 → NameTemplate
  | unit, _, _ => [.text "()"]
  | unnamed ps, v, _ =>
    match Logged.parts ps v with
    | [q] => q.template
    | qs => listed "(" ")" (qs.map Value.template)
  | named fs, v, stringTable => structTemplate (fieldParts fs v) stringTable

end VariantFields

omit [Target] in
theorem VariantFields.tys_impl (fields : VariantFields) :
    fields.impl.tys = fields.types.map Logged.impl := by
  cases fields with
  | unit => rfl
  | unnamed ps => rfl
  | named fs =>
    show (fieldImpls fs).map Prod.snd = (fs.map Prod.snd).map Logged.impl
    rw [fieldImpls, List.map_map, List.map_map]
    rfl

omit [Target] in
theorem VariantFields.names_impl (fields : VariantFields) : fields.impl.names = fields.names := by
  cases fields with
  | unit => rfl
  | unnamed ps => rfl
  | named fs =>
    show (fieldImpls fs).map Prod.fst = fs.map Prod.fst
    rw [fieldImpls, List.map_map]
    rfl

/-- The impls of the fields of variants. -/
def variantImpls (vs : List (String × VariantFields)) : List (String × Fields) :=
  vs.map fun v => (v.1, v.2.impl)

/-- The fields of a value of an enum. -/
def choiceParts : (vs : List (String × VariantFields)) → Choice (variantImpls vs) → List Value
  | v :: _, .inl x => v.2.parts x
  | _ :: vs, .inr c => choiceParts vs c

/-- A variant shows its name and its fields. -/
def choiceTemplate : (vs : List (String × VariantFields)) → Choice (variantImpls vs) →
    List UInt8 → NameTemplate
  | v :: _, .inl x, stringTable =>
    let stringTable' := stringTable ++ (Utf8.encode v.1 ++ [0])
    variantTemplate (offsetOf stringTable.length) v.1 (variantSubSchema v.2.impl stringTable').1
      (v.2.template x stringTable')
  | v :: vs, .inr c, stringTable =>
    choiceTemplate vs c
      (variantSubSchema v.2.impl (stringTable ++ (Utf8.encode v.1 ++ [0]))).2

/-- A derived enum. -/
def deriveEnum (vs : List (String × VariantFields)) : Logged where
  impl := .deriveEnum (variantImpls vs)
  fits c := ∀ q ∈ choiceParts vs c, q.fits
  template c := choiceTemplate vs c []

/-! ### Values are shown as their templates say -/

variable [FloatDisplay]

/-- Where the names of fields stand in a string table, with the schemas of the fields. -/
def fieldPositions : List (String × Encode) → List UInt8 → List (ℕ × List UInt8)
  | [], _ => []
  | (name, ty) :: fields, stringTable =>
    (stringTable.length, ty.schema) ::
      fieldPositions fields (stringTable ++ (Utf8.encode name ++ [0]))

omit [Target] [FloatDisplay] in
theorem fst_fieldSchemas (fields : List (String × Encode)) (stringTable : List UInt8) :
    (fieldSchemas fields stringTable).1 =
      itemBytes (labelled (fieldPositions fields stringTable)) := by
  induction fields generalizing stringTable with
  | nil => rfl
  | cons field fields ih =>
    rw [fieldSchemas, fieldPositions, labelled, List.map_cons, itemBytes_cons]
    simp only [ih]
    rfl

omit [Target] [FloatDisplay] in
theorem length_fieldPositions (fields : List (String × Encode)) (stringTable : List UInt8) :
    (fieldPositions fields stringTable).length = fields.length := by
  induction fields generalizing stringTable with
  | nil => rfl
  | cons field fields ih => rw [fieldPositions, List.length_cons, ih, List.length_cons]

omit [Target] [FloatDisplay] in
theorem schema_of_mem_fieldPositions {fields : List (String × Encode)} {stringTable : List UInt8}
    {x : ℕ × List UInt8} (h : x ∈ fieldPositions fields stringTable) :
    ∃ field ∈ fields, x.2 = field.2.schema := by
  induction fields generalizing stringTable with
  | nil => cases h
  | cons field fields ih =>
    rw [fieldPositions, List.mem_cons] at h
    rcases h with rfl | h
    · exact ⟨field, by simp, rfl⟩
    · obtain ⟨field', hmem, heq⟩ := ih h
      exact ⟨field', by simp [hmem], heq⟩

/-- The items of a struct whose names are put into a string table after what it has already. -/
def fieldItems : List (String × Value) → List UInt8 → List (ℕ × Item)
  | [], _ => []
  | (name, q) :: qs, stringTable =>
    (offsetOf stringTable.length,
      { q.item with label := fun names => names (offsetOf stringTable.length, name) ++ ": " }) ::
      fieldItems qs (stringTable ++ (Utf8.encode name ++ [0]))

omit [FloatDisplay] in
theorem shown_fieldItems (qs : List (String × Value)) (stringTable : List UInt8)
    (names : Naming) :
    (fieldItems qs stringTable).map (fun f => f.2.shown names) =
      (fieldTemplates qs stringTable).map fun t => t.render names := by
  induction qs generalizing stringTable with
  | nil => rfl
  | cons q qs ih =>
    rw [fieldItems, fieldTemplates, List.map_cons, List.map_cons, ih]
    simp only [Item.shown, Template.render, String.append_assoc]
    rfl

omit [FloatDisplay] in
theorem writer_fieldItems (qs : List (String × Value)) (stringTable : List UInt8) :
    (fieldItems qs stringTable).map (fun f => f.2.writer) =
      qs.map fun q => q.2.1.impl.encodeTo q.2.2 := by
  induction qs generalizing stringTable with
  | nil => rfl
  | cons q qs ih =>
    rw [fieldItems, List.map_cons, ih, List.map_cons]
    rfl

theorem good_fieldItems {qs : List (String × Value)} (h : ∀ q ∈ qs, q.2.1.Good ∧ q.2.fits)
    (stringTable : List UInt8) : ∀ f ∈ fieldItems qs stringTable,
      f.1 < 256 ^ 2 ∧ f.2.Good ∧ ∀ tables,
        f.2.label (tableNames tables) = readStrFromTable 0 f.1 tables ++ ": " := by
  induction qs generalizing stringTable with
  | nil => simp [fieldItems]
  | cons q qs ih =>
    intro f hf
    rw [fieldItems, List.mem_cons] at hf
    rcases hf with rfl | hf
    · obtain ⟨hgood, hfits⟩ := h q (by simp)
      have hitem := hgood.item hfits
      exact ⟨offsetOf_lt _, ⟨hitem.delimited, hitem.shows⟩, fun tables => rfl⟩
    · exact ih (fun q hq => h q (by simp [hq])) _ f hf

omit [FloatDisplay] in
theorem schema_fieldItems (fs : List (String × Logged))
    (v : Encode.Tuple ((fieldImpls fs).map Prod.snd)) (stringTable : List UInt8) :
    (fieldItems (fieldParts fs v) stringTable).map (fun f => (f.1, f.2.schema)) =
      (fieldPositions (fieldImpls fs) stringTable).map fun item => (offsetOf item.1, item.2) := by
  induction fs generalizing stringTable with
  | nil => rfl
  | cons f fs ih => exact congrArg (_ :: ·) (ih v.2 _)

omit [Target] [FloatDisplay] in
theorem map_fieldParts {β : Type*} (g : (e : Encode) → e.Self → β) (fs : List (String × Logged))
    (v : Encode.Tuple ((fieldImpls fs).map Prod.snd)) :
    v.map g = (fieldParts fs v).map fun q => g q.2.1.impl q.2.2 := by
  induction fs with
  | nil => rfl
  | cons f fs ih => exact congrArg (_ :: ·) (ih v.2)

omit [Target] [FloatDisplay] in
theorem mem_of_mem_fieldParts {fs : List (String × Logged)}
    {v : Encode.Tuple ((fieldImpls fs).map Prod.snd)} {q : String × Value}
    (h : q ∈ fieldParts fs v) : (q.1, q.2.1) ∈ fs := by
  induction fs with
  | nil => cases h
  | cons f fs ih =>
    rcases List.mem_cons.mp h with rfl | h
    · exact List.mem_cons_self
    · exact List.mem_cons_of_mem _ (ih h)

omit [FloatDisplay] in
theorem wellFormed_struct {fs : List (String × Logged)} (hcount : CountOk fs.length)
    (hfs : ∀ f ∈ fs, WellFormed (fun _ => True) f.2.impl.schema) (stringTable : List UInt8) :
    WellFormed (fun _ => True) (structSchemaNamed (fieldImpls fs) stringTable).1 := by
  have hlen : (fieldImpls fs).length = fs.length := List.length_map _
  have hhead : Head .struct fs.length (countHead opStruct fs.length) :=
    head_countHead (by simp) hcount
  have hwf : ∀ x ∈ fieldPositions (fieldImpls fs) stringTable,
      WellFormed (fun _ => True) x.2 := by
    intro x hx
    obtain ⟨field, hfield, heq⟩ := schema_of_mem_fieldPositions hx
    obtain ⟨f, hf, rfl⟩ := List.mem_map.mp hfield
    rw [heq]
    exact hfs f hf
  have hschema : (structSchemaNamed (fieldImpls fs) stringTable).1 =
      countHead opStruct (fieldImpls fs).length ++
        0 :: (fieldSchemas (fieldImpls fs) stringTable).1 := rfl
  rw [hschema, fst_fieldSchemas, hlen, labelled_eq_named]
  exact .struct 0 (by rwa [List.length_map, length_fieldPositions, hlen])
    (forall_offsets fun _ _ => offsetOf_lt _) (forall_offsets hwf)

/-- The fields of a struct, or of a variant with named fields. -/
theorem shows_fields {fs : List (String × Logged)} (hcount : CountOk fs.length)
    (hfs : ∀ f ∈ fs, f.2.Good) (v : Encode.Tuple ((fieldImpls fs).map Prod.snd))
    (hfits : ∀ q ∈ fieldParts fs v, q.2.fits) (stringTable : List UInt8) :
    Shows (structSchemaNamed (fieldImpls fs) stringTable).1 (.all (v.map Encode.encodeTo))
      fun names => (structTemplate (fieldParts fs v) stringTable).render names := by
  have hlen : (fieldImpls fs).length = fs.length := List.length_map _
  have hitems := good_fieldItems (fun q hq => ⟨hfs _ (mem_of_mem_fieldParts hq), hfits q hq⟩)
    stringTable
  set items := fieldItems (fieldParts fs v) stringTable with hdef
  have hcountItems : items.length = fs.length := by
    have h := congrArg List.length (schema_fieldItems fs v stringTable)
    rwa [List.length_map, List.length_map, length_fieldPositions, hlen] at h
  have hhead : Head .struct items.length (countHead opStruct fs.length) := by
    rw [hcountItems]
    exact head_countHead (by simp) hcount
  have hshows := shows_struct hhead (fun f hf => (hitems f hf).1)
    (fun f hf => (hitems f hf).2.2) fun f hf => (hitems f hf).2.1
  rw [hdef, schema_fieldItems, ← labelled_eq_named, ← fst_fieldSchemas, writer_fieldItems,
    ← map_fieldParts Encode.encodeTo, ← hlen] at hshows
  simp only [shown_fieldItems] at hshows
  simp only [structTemplate, render_listed]
  exact hshows

theorem good_deriveStruct {fs : List (String × Logged)} (hcount : CountOk fs.length)
    (hfs : ∀ f ∈ fs, f.2.Good) : (deriveStruct fs).Good where
  wellFormed := wellFormed_struct hcount (fun f hf => (hfs f hf).wellFormed) []
  shows v hfits := shows_fields hcount hfs v hfits []

namespace VariantFields

/-- The interpreter finds the fields of the variant. -/
def CountsOk : VariantFields → Prop
  | unit => True
  | unnamed ps => CountOk ps.length
  | named fs => CountOk fs.length

variable {fields : VariantFields}

omit [FloatDisplay] in
theorem wellFormed (hcount : fields.CountsOk)
    (htypes : ∀ p ∈ fields.types, WellFormed (fun _ => True) p.impl.schema)
    (stringTable : List UInt8) :
    WellFormed (fun _ => True) (variantSubSchema fields.impl stringTable).1 := by
  have hunnamed : ∀ ps : List Logged, CountOk ps.length →
      (∀ p ∈ ps, WellFormed (fun _ => True) p.impl.schema) →
      WellFormed (fun _ => True) (structSchemaUnnamed (ps.map Logged.impl)) := by
    intro ps hcount hps
    have hhead : Head .tuple ps.length (countHead opTuple ps.length) :=
      head_countHead (by simp) hcount
    rw [structSchemaUnnamed, List.length_map]
    exact wellFormed_parts hhead hps
  cases fields with
  | unit => exact wellFormed_unit
  | named fs =>
    exact wellFormed_struct hcount (fun f hf => htypes f.2 (List.mem_map_of_mem hf)) stringTable
  | unnamed ps =>
    match ps, hcount, htypes with
    | [], hcount, _ => exact absurd hcount.1 (by decide)
    | [p], _, htypes => exact htypes p List.mem_cons_self
    | p :: p' :: ps, hcount, htypes => exact hunnamed (p :: p' :: ps) hcount htypes

theorem shows (hcount : fields.CountsOk) (htypes : ∀ p ∈ fields.types, p.Good)
    (v : Encode.Tuple fields.impl.tys) (hfits : ∀ q ∈ fields.parts v, q.fits)
    (stringTable : List UInt8) :
    Shows (variantSubSchema fields.impl stringTable).1 (.all (v.map Encode.encodeTo))
      fun names => (fields.template v stringTable).render names := by
  have hunnamed : ∀ (ps : List Logged) (v : Encode.Tuple (ps.map Logged.impl)),
      CountOk ps.length → (∀ p ∈ ps, p.Good) → (∀ q ∈ Logged.parts ps v, q.fits) →
      Shows (structSchemaUnnamed (ps.map Logged.impl)) (.all (v.map Encode.encodeTo))
        fun names => (listed "(" ")" ((Logged.parts ps v).map Value.template)).render names := by
    intro ps v hcount hps hfits
    have hhead : Head .tuple ps.length (countHead opTuple ps.length) :=
      head_countHead (by simp) hcount
    rw [structSchemaUnnamed, List.length_map]
    exact shows_parts hhead hps v hfits
  cases fields with
  | unit => exact shows_unit
  | named fs =>
    exact shows_fields hcount (fun f hf => htypes f.2 (List.mem_map_of_mem hf)) v
      (fun q hq => hfits q.2 (List.mem_map_of_mem hq)) stringTable
  | unnamed ps =>
    match ps, v, hcount, htypes, hfits with
    | [], v, hcount, htypes, hfits => exact absurd hcount.1 (by decide)
    | [p], v, hcount, htypes, hfits =>
      -- the schema of a single field is the schema of its type
      have hp := (htypes p List.mem_cons_self).shows v.1 (hfits ⟨p, v.1⟩ List.mem_cons_self)
      have hall : SliceWriter.all [p.impl.encodeTo v.1] = p.impl.encodeTo v.1 := by
        obtain ⟨bytes, hbytes, -⟩ := hp
        rw [hbytes, all_cons, all_nil, copy_andThen, List.append_nil]
      show Shows p.impl.schema (.all [p.impl.encodeTo v.1]) _
      rw [hall]
      exact hp
    | p :: p' :: ps, v, hcount, htypes, hfits =>
      exact hunnamed (p :: p' :: ps) v hcount htypes hfits

end VariantFields

/-- Where the names of variants stand in a string table, with the schemas of the variants. -/
def variantPositions : List (String × Fields) → List UInt8 → List (ℕ × List UInt8)
  | [], _ => []
  | (name, fields) :: variants, stringTable =>
    let (subSchema, stringTable') :=
      variantSubSchema fields (stringTable ++ (Utf8.encode name ++ [0]))
    (stringTable.length, subSchema) :: variantPositions variants stringTable'

omit [Target] [FloatDisplay] in
theorem fst_variantSchemas (variants : List (String × Fields)) (stringTable : List UInt8) :
    (variantSchemas variants stringTable).1 =
      itemBytes (labelled (variantPositions variants stringTable)) := by
  induction variants generalizing stringTable with
  | nil => rfl
  | cons variant variants ih =>
    rw [variantSchemas, variantPositions, labelled, List.map_cons, itemBytes_cons]
    simp only [ih]
    rfl

omit [Target] [FloatDisplay] in
theorem length_variantPositions (variants : List (String × Fields)) (stringTable : List UInt8) :
    (variantPositions variants stringTable).length = variants.length := by
  induction variants generalizing stringTable with
  | nil => rfl
  | cons variant variants ih => rw [variantPositions, List.length_cons, ih, List.length_cons]

omit [FloatDisplay] in
theorem wellFormed_variantPositions {vs : List (String × VariantFields)}
    (hvs : ∀ v ∈ vs, v.2.CountsOk ∧ ∀ p ∈ v.2.types, WellFormed (fun _ => True) p.impl.schema)
    (stringTable : List UInt8) :
    ∀ x ∈ variantPositions (variantImpls vs) stringTable, WellFormed (fun _ => True) x.2 := by
  induction vs generalizing stringTable with
  | nil => simp [variantImpls, variantPositions]
  | cons v vs ih =>
    intro x hx
    rcases List.mem_cons.mp hx with rfl | hx
    · exact VariantFields.wellFormed (hvs v (by simp)).1 (hvs v (by simp)).2 _
    · exact ih (fun v hv => hvs v (by simp [hv])) _ x hx

omit [Target] [FloatDisplay] in
theorem map_choice {β : Type*} (f : (e : Encode) → e.Self → β)
    (vs : List (String × VariantFields)) (c : Choice (variantImpls vs)) :
    c.map f = (choiceParts vs c).map fun q => f q.1.impl q.2 := by
  induction vs with
  | nil => exact c.elim
  | cons v vs ih =>
    cases c with
    | inr c => exact ih c
    | inl x =>
      obtain ⟨name, fields⟩ := v
      cases fields with
      | unit => rfl
      | unnamed ps => exact map_parts f ps x
      | named fs =>
        show Encode.Tuple.map f _ x = ((fieldParts fs x).map Prod.snd).map _
        rw [List.map_map]
        exact map_fieldParts f fs x

omit [Target] [FloatDisplay] in
/-- The fields of the chosen variant have the types of the fields of some variant. -/
theorem mem_of_mem_choiceParts {vs : List (String × VariantFields)}
    {c : Choice (variantImpls vs)} {q : Value} (h : q ∈ choiceParts vs c) :
    ∃ v ∈ vs, q.1 ∈ v.2.types := by
  induction vs with
  | nil => exact c.elim
  | cons v vs ih =>
    cases c with
    | inr c =>
      obtain ⟨v', hv', hq⟩ := ih h
      exact ⟨v', by simp [hv'], hq⟩
    | inl x =>
      obtain ⟨name, fields⟩ := v
      refine ⟨(name, fields), by simp, ?_⟩
      cases fields with
      | unit => exact absurd h List.not_mem_nil
      | unnamed ps => exact fst_mem_of_mem_parts h
      | named fs =>
        obtain ⟨f, hf, rfl⟩ := List.mem_map.mp h
        exact List.mem_map.mpr ⟨_, mem_of_mem_fieldParts hf, rfl⟩

/-- The chosen variant: its position, its schema, and what is shown for its fields. -/
theorem shows_choice {vs : List (String × VariantFields)}
    (hvs : ∀ v ∈ vs, v.2.CountsOk ∧ ∀ p ∈ v.2.types, p.Good) (c : Choice (variantImpls vs))
    (hfits : ∀ q ∈ choiceParts vs c, q.fits) (stringTable : List UInt8) :
    ∃ n schema name t, (variantPositions (variantImpls vs) stringTable)[c.index]? =
        some (n, schema) ∧
      Shows schema (.all (c.map Encode.encodeTo)) (fun names => Template.render names t) ∧
      choiceTemplate vs c stringTable = variantTemplate (offsetOf n) name schema t := by
  induction vs generalizing stringTable with
  | nil => exact c.elim
  | cons v vs ih =>
    cases c with
    | inl x =>
      have hshows := VariantFields.shows (hvs v (by simp)).1 (hvs v (by simp)).2 x hfits
        (stringTable ++ (Utf8.encode v.1 ++ [0]))
      exact ⟨_, _, v.1, _, rfl, hshows, rfl⟩
    | inr c => exact ih (fun v hv => hvs v (by simp [hv])) c hfits _

omit [Target] [FloatDisplay] in
theorem index_lt {variants : List (String × Fields)} (c : Choice variants) :
    c.index < variants.length := by
  induction variants with
  | nil => exact c.elim
  | cons v variants ih =>
    cases c with
    | inl x => exact Nat.succ_pos _
    | inr c => exact Nat.succ_lt_succ (ih c)

omit [FloatDisplay] in
/-- The index of a variant is written as the interpreter reads it. -/
theorem discriminant {count i : ℕ} (hcount : CountOk count) (hi : i < count) :
    Readable (vdxK count).toNat i ∧
      leBytes (discSize count) i = toNeBytes (sizeForK (vdxK count).toNat) i := by
  by_cases hsmall : count ≤ 255
  · have hsize : sizeForK (1 : UInt8).toNat = 1 := rfl
    rw [vdxK, if_pos hsmall, discSize, if_neg (by omega), hsize]
    refine ⟨.inr ⟨by decide, by rw [hsize]; omega⟩, ?_⟩
    unfold toNeBytes Endian.toBytes
    cases Target.endian <;> rfl
  · obtain ⟨hend, hlt⟩ := hcount.2.resolve_left (by omega)
    have hsize : sizeForK (2 : UInt8).toNat = 2 := rfl
    rw [vdxK, if_neg hsmall, discSize, if_pos (by omega), hsize, toNeBytes, hend]
    exact ⟨.inr ⟨by decide, by rw [hsize]; omega⟩, rfl⟩

theorem good_deriveEnum {vs : List (String × VariantFields)} (hcount : CountOk vs.length)
    (hvs : ∀ v ∈ vs, v.2.CountsOk ∧ ∀ p ∈ v.2.types, p.Good) : (deriveEnum vs).Good := by
  have hlen : (variantImpls vs).length = vs.length := List.length_map _
  have hhead : Head .enum (variantPositions (variantImpls vs) []).length
      (countHead opEnum vs.length) := by
    rw [length_variantPositions, hlen]
    exact head_countHead (by simp) hcount
  have hwf := wellFormed_variantPositions
    (fun v hv => ⟨(hvs v hv).1, fun p hp => ((hvs v hv).2 p hp).wellFormed⟩) []
  have hschema : (deriveEnum vs).impl.schema = countHead opEnum vs.length ++
      vdxK vs.length :: 0 :: itemBytes (labelled (variantPositions (variantImpls vs) [])) := by
    rw [← fst_variantSchemas, ← hlen]
    rfl
  constructor
  · rw [hschema]
    exact wellFormed_variants _ hhead hwf
  · intro c hfits
    obtain ⟨n, schema, name, t, hget, hpayload, htemplate⟩ := shows_choice hvs c hfits []
    have hindex : Choice.index _ c < vs.length := hlen ▸ index_lt c
    obtain ⟨hread, hdisc⟩ := discriminant hcount hindex
    have hrange : Choice.index _ c < usizeRange := by
      have hle := usizeRange_le
      have hsmall : vs.length < 256 ^ 2 := by
        rcases hcount.2 with h | ⟨-, h⟩ <;> omega
      omega
    have hshows := shows_variant hhead hwf hget hread hrange name hpayload
    rw [← hdisc, ← htemplate, ← hschema, ← hlen] at hshows
    exact hshows

end Logged

end Target

end RapidLog
