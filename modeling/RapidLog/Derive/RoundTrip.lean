import RapidLog.Arg.RoundTrip
import RapidLog.Derive.Logged

/-!
# Derived values, encoded and formatted

A field is `ShownAlone` as a text when the interpreter shows that text for it under the schema of
its type, whatever string tables there are and whatever bytes follow. On a little-endian target a
derived struct then shows each field behind its name, and a derived enum shows the name of the
variant and its fields (`derived_comesBack`). The names come from the string table of the derived
type, so this table has to be shorter than 65536 bytes.

A variant with one field of type `()` is shown as its name only.
-/

namespace RapidLog

open Slice SliceWriter

section Target

variable [Target] [FloatDisplay]

/-- The interpreter shows the value as `text`, whatever string tables there are, and takes what
`encode_to` writes for it, whatever follows that. -/
def ShownAlone (q : (e : Encode) × e.Self) (text : String) : Prop :=
  Shows q.1.schema (q.1.encodeTo q.2) fun _ => text

/-- With the string table of its type the value is shown as `text`, and what `encode_to` wrote for
it is taken, whatever follows that. -/
def Encode.DecodesAs (e : Encode) (v : e.Self) (text : String) : Prop :=
  ∃ bytes, e.encodeTo v = .copy bytes ∧ ∀ (t : List UInt8) (ufs : List UserFormatter),
    formatPayload e.schema (bytes ++ t) [e.stringTable] ufs = some (text, bytes.length)

/-- A value is shown alone as one text only. -/
theorem ShownAlone.unique {q : (e : Encode) × e.Self} {s t : String} (hs : ShownAlone q s)
    (ht : ShownAlone q t) : s = t := by
  obtain ⟨bytes, hbytes, hformat⟩ := hs
  obtain ⟨bytes', hbytes', hformat'⟩ := ht
  obtain rfl : bytes = bytes' := copy_injective (hbytes.symm.trans hbytes')
  have heq := (hformat [] [] []).symm.trans (hformat' [] [] [])
  exact (Prod.mk.inj (Option.some.inj heq)).1

/-- The same with the string table of its type. -/
theorem Encode.DecodesAs.unique {e : Encode} {v : e.Self} {s t : String} (hs : e.DecodesAs v s)
    (ht : e.DecodesAs v t) : s = t := by
  obtain ⟨bytes, hbytes, hformat⟩ := hs
  obtain ⟨bytes', hbytes', hformat'⟩ := ht
  obtain rfl : bytes = bytes' := copy_injective (hbytes.symm.trans hbytes')
  have heq := (hformat [] []).symm.trans (hformat' [] [])
  exact (Prod.mk.inj (Option.some.inj heq)).1

/-- The texts of the arguments, each with the string table of its own type. -/
theorem Logged.forall₂_textsFrom {args : List Logged.Value}
    {outputs : List (List UInt8)} (h : List.Forall₂ Logged.Value.Outputs args outputs)
    (before : List (List UInt8)) :
    List.Forall₂ (fun (q : Logged.Value) text => q.1.impl.DecodesAs q.2 text) args
      (Logged.textsFrom (before ++ args.map fun q => q.1.impl.stringTable) before.length args) := by
  induction h generalizing before with
  | nil => exact .nil
  | @cons q out args outputs hq _ ih =>
    have hrest := ih (before ++ [q.1.impl.stringTable])
    rw [List.append_assoc, List.length_append] at hrest
    refine .cons ⟨out, hq.1, fun t ufs => ?_⟩ hrest
    rw [hq.2 [q.1.impl.stringTable] ufs t]
    simp

/-! ### The texts -/

/-- Fields behind their names, in braces. -/
def structText (names texts : List String) : String :=
  "\x7b" ++ joined (List.zipWith (fun name text => name ++ ": " ++ text) names texts) ++ "\x7d"

/-- What is shown for a variant and the texts of its fields. A single field of type `()` is left
out. -/
def Fields.shown (name : String) : Fields → List String → String
  | .unit, _ => name
  | .unnamed [ty], texts =>
    if ty.schema = [opUnit] then name else name ++ "(" ++ joined texts ++ ")"
  | .unnamed _, texts => name ++ "(" ++ ("(" ++ joined texts ++ ")") ++ ")"
  | .named fields, texts => name ++ "(" ++ structText (fields.map Prod.fst) texts ++ ")"

/-- A variant has no fields, or at least one, and no more than 65535 of them when they have no
names. -/
def Fields.CountOk : Fields → Prop
  | .unit => True
  | .unnamed tys => 1 ≤ tys.length ∧ tys.length ≤ 65535
  | .named fields => 1 ≤ fields.length

/-- The variant of a value. -/
def Choice.variant : (variants : List (String × Fields)) → Choice variants → String × Fields
  | variant :: _, .inl _ => variant
  | _ :: variants, .inr value => Choice.variant variants value

/-! ### Names in the string table -/

section Names

/-- The string table has every name of the text at the offset that the schema gives. -/
def Stands (table : List UInt8) (t : NameTemplate) : Prop :=
  ∀ name ∈ t.holes, (∀ c ∈ name.2.toList, c.toNat ≠ 0) ∧
    ∃ n, name.1 = offsetOf n ∧ NameAt table n name.2

omit [FloatDisplay]

theorem Stands.mono {table table' : List UInt8} {t : NameTemplate} (h : Stands table t)
    (htable : table <+: table') : Stands table' t := by
  intro name hname
  obtain ⟨hzero, n, hn, hat⟩ := h name hname
  exact ⟨hzero, n, hn, hat.mono htable⟩

/-- In a table of less than 65536 bytes the interpreter finds every name. -/
theorem Stands.render_eq (hend : Target.endian = .little) {table : List UInt8}
    {t : NameTemplate} (h : Stands table t) (hlen : table.length < 65536) :
    t.render (tableNames [table]) = t.render declaredNames := by
  refine Template.render_congr fun name hname => ?_
  obtain ⟨hzero, n, hn, hat⟩ := h name hname
  obtain ⟨off, s⟩ := name
  obtain rfl : off = offsetOf n := hn
  exact Printed.tableNames_of_nameAt hend (hat.lt.trans hlen) hzero hat

theorem stands_of_holes_eq_nil (table : List UInt8) {t : NameTemplate} (h : t.holes = []) :
    Stands table t := by
  intro name hname
  rw [h] at hname
  cases hname

theorem stands_listed {table : List UInt8} {ts : List NameTemplate}
    (h : ∀ t ∈ ts, Stands table t) (opening closing : String) :
    Stands table (listed opening closing ts) := by
  intro name hname
  rw [listed, Template.holes_between, Template.mem_holes_join] at hname
  obtain ⟨t, ht, hname⟩ := hname
  exact h t ht name hname

theorem stands_variantTemplate {table : List UInt8} {n : ℕ} {name : String} {t : NameTemplate}
    (hzero : ∀ c ∈ name.toList, c.toNat ≠ 0) (hat : NameAt table n name) (ht : Stands table t)
    (schema : List UInt8) : Stands table (variantTemplate (offsetOf n) name schema t) := by
  intro hole hhole
  rw [variantTemplate, Template.holes, List.mem_cons] at hhole
  rcases hhole with rfl | hhole
  · exact ⟨hzero, n, rfl, hat⟩
  · split at hhole
    · cases hhole
    · rw [Template.holes_between] at hhole
      exact ht hole hhole

omit [Target]

theorem prefix_fieldSchemas (fields : List (String × Encode)) (stringTable : List UInt8) :
    stringTable <+: (fieldSchemas fields stringTable).2 := by
  induction fields generalizing stringTable with
  | nil => exact List.prefix_rfl
  | cons field fields ih => exact (List.prefix_append _ _).trans (ih _)

theorem prefix_variantSubSchema (fields : Fields) (stringTable : List UInt8) :
    stringTable <+: (variantSubSchema fields stringTable).2 := by
  cases fields with
  | unit => exact List.prefix_rfl
  | named fields => exact prefix_fieldSchemas fields stringTable
  | unnamed tys =>
    match tys with
    | [] | [_] | _ :: _ :: _ => exact List.prefix_rfl

theorem prefix_variantSchemas (variants : List (String × Fields)) (stringTable : List UInt8) :
    stringTable <+: (variantSchemas variants stringTable).2 := by
  induction variants generalizing stringTable with
  | nil => exact List.prefix_rfl
  | cons variant variants ih =>
    exact (List.prefix_append _ _).trans ((prefix_variantSubSchema _ _).trans (ih _))

/-- Every name takes a byte of the table at least, that of its zero. -/
theorem length_le_fieldSchemas (fields : List (String × Encode)) (stringTable : List UInt8) :
    stringTable.length + fields.length ≤ (fieldSchemas fields stringTable).2.length := by
  induction fields generalizing stringTable with
  | nil => exact le_rfl
  | cons field fields ih =>
    have hle := ih (stringTable ++ (Utf8.encode field.1 ++ [0]))
    rw [List.length_append, List.length_append, List.length_singleton] at hle
    rw [List.length_cons]
    exact le_trans (by omega) hle

/-- So a variant has no more named fields than the table has bytes. -/
theorem length_le_variantSchemas {variants : List (String × Fields)} {name : String}
    {fields : List (String × Encode)} (h : (name, Fields.named fields) ∈ variants)
    (stringTable : List UInt8) :
    fields.length ≤ (variantSchemas variants stringTable).2.length := by
  induction variants generalizing stringTable with
  | nil => cases h
  | cons variant variants ih =>
    rcases List.mem_cons.mp h with rfl | h
    · have hle := length_le_fieldSchemas fields (stringTable ++ (Utf8.encode name ++ [0]))
      have hrest := (prefix_variantSchemas variants (variantSubSchema (.named fields)
        (stringTable ++ (Utf8.encode name ++ [0]))).2).length_le
      exact le_trans (le_trans (Nat.le_add_left _ _) hle) hrest
    · exact ih h _

end Names

/-! ### Types whose values are shown alone -/

namespace Logged

open Classical in
/-- The text of a value that is shown alone. -/
noncomputable def aloneText (q : (e : Encode) × e.Self) : String :=
  if h : ∃ text, ShownAlone q text then h.choose else ""

theorem aloneText_eq {q : (e : Encode) × e.Self} {text : String} (h : ShownAlone q text) :
    aloneText q = text := by
  have hex : ∃ text, ShownAlone q text := ⟨text, h⟩
  rw [aloneText, dif_pos hex]
  exact hex.choose_spec.unique h

/-- A type with the texts that its values have alone. -/
noncomputable def alone (e : Encode) : Logged where
  impl := e
  fits x := ∃ text, ShownAlone ⟨e, x⟩ text
  template x := [.text (aloneText ⟨e, x⟩)]

theorem good_alone {e : Encode} (h : WellFormed (fun _ => True) e.schema) : (alone e).Good where
  wellFormed := h
  shows := by
    rintro x ⟨text, htext⟩
    have hrender : ∀ names : Naming,
        Template.render names [.text (aloneText ⟨e, x⟩)] = text := by
      intro names
      rw [Template.render, Template.render, String.append_empty, aloneText_eq htext]
    show Shows e.schema (e.encodeTo x) fun names =>
      Template.render names [.text (aloneText ⟨e, x⟩)]
    simp only [hrender]
    exact htext

/-- Values that are shown alone fit, have no names in their texts, and are shown as these. -/
theorem values_alone {qs : List Value} (hqs : ∀ q ∈ qs, ∃ e, q.1 = alone e) {texts : List String}
    (h : List.Forall₂ ShownAlone (qs.map fun q => ⟨q.1.impl, q.2⟩) texts) :
    (∀ q ∈ qs, q.fits ∧ q.template.holes = []) ∧
      qs.map (fun q => q.template.render declaredNames) = texts := by
  induction qs generalizing texts with
  | nil =>
    cases h
    exact ⟨by simp, rfl⟩
  | cons q qs ih =>
    obtain ⟨text, texts, hq, hrest, rfl⟩ := List.forall₂_cons_left_iff.mp h
    obtain ⟨hall, htexts⟩ := ih (fun q hq => hqs q (by simp [hq])) hrest
    obtain ⟨p, x⟩ := q
    obtain ⟨e, rfl⟩ : ∃ e, p = alone e := hqs ⟨p, x⟩ List.mem_cons_self
    have htemplate : Value.template ⟨alone e, x⟩ = [.text text] := by
      rw [← aloneText_eq hq]
      rfl
    constructor
    · intro q hq'
      rcases List.mem_cons.mp hq' with rfl | hq'
      · exact ⟨⟨text, hq⟩, by rw [htemplate]; rfl⟩
      · exact hall q hq'
    · rw [List.map_cons, htexts, htemplate]
      exact congrArg (· :: texts) String.append_empty

theorem exists_alone (fields : List (String × Encode)) : ∃ fs : List (String × Logged),
    fieldImpls fs = fields ∧ ∀ f ∈ fs, ∃ e, f.2 = alone e := by
  refine ⟨fields.map fun f => (f.1, alone f.2), ?_, ?_⟩
  · rw [fieldImpls, List.map_map]
    exact List.map_id fields
  · intro f hf
    obtain ⟨field, -, rfl⟩ := List.mem_map.mp hf
    exact ⟨field.2, rfl⟩

theorem exists_alone_fields (fields : Fields) : ∃ fields' : VariantFields,
    fields'.impl = fields ∧ ∀ p ∈ fields'.types, ∃ e, p = alone e := by
  cases fields with
  | unit => exact ⟨.unit, rfl, by simp [VariantFields.types]⟩
  | unnamed tys =>
    refine ⟨.unnamed (tys.map alone), ?_, ?_⟩
    · rw [VariantFields.impl, List.map_map]
      exact congrArg Fields.unnamed (List.map_id tys)
    · intro p hp
      obtain ⟨e, -, rfl⟩ := List.mem_map.mp hp
      exact ⟨e, rfl⟩
  | named fields =>
    obtain ⟨fs, rfl, hfs⟩ := exists_alone fields
    refine ⟨.named fs, rfl, ?_⟩
    intro p hp
    obtain ⟨f, hf, rfl⟩ := List.mem_map.mp hp
    exact hfs f hf

theorem exists_alone_variants (variants : List (String × Fields)) :
    ∃ vs : List (String × VariantFields), variantImpls vs = variants ∧
      ∀ v ∈ vs, ∀ p ∈ v.2.types, ∃ e, p = alone e := by
  induction variants with
  | nil => exact ⟨[], rfl, by simp⟩
  | cons variant variants ih =>
    obtain ⟨vs, rfl, hvs⟩ := ih
    obtain ⟨name, fields⟩ := variant
    obtain ⟨fields', rfl, hfields⟩ := exists_alone_fields fields
    exact ⟨(name, fields') :: vs, rfl, List.forall_mem_cons.mpr ⟨hfields, hvs⟩⟩

/-! ### Structs -/

section Structs

omit [FloatDisplay]

omit [Target] in
theorem map_fst_fieldParts (fs : List (String × Logged))
    (v : Encode.Tuple ((fieldImpls fs).map Prod.snd)) :
    (fieldParts fs v).map Prod.fst = (fieldImpls fs).map Prod.fst := by
  induction fs with
  | nil => rfl
  | cons f fs ih => exact congrArg (f.1 :: ·) (ih v.2)

theorem render_structTemplate (qs : List (String × Value)) (stringTable : List UInt8) :
    (structTemplate qs stringTable).render declaredNames =
      structText (qs.map Prod.fst) (qs.map fun q => q.2.template.render declaredNames) := by
  have hfields : (fieldTemplates qs stringTable).map (fun t => t.render declaredNames) =
      List.zipWith (fun name text => name ++ ": " ++ text) (qs.map Prod.fst)
        (qs.map fun q => q.2.template.render declaredNames) := by
    induction qs generalizing stringTable with
    | nil => rfl
    | cons q qs ih =>
      rw [fieldTemplates, List.map_cons, ih, List.map_cons, List.map_cons, List.zipWith_cons_cons]
      simp only [Template.render, String.append_assoc]
      rfl
  rw [structTemplate, render_listed, hfields, structText]

/-- The names of the fields stand where they are put into the table. -/
theorem stands_fields {fs : List (String × Logged)}
    (hnames : ∀ f ∈ fs, ∀ c ∈ f.1.toList, c.toNat ≠ 0)
    {v : Encode.Tuple ((fieldImpls fs).map Prod.snd)}
    (hparts : ∀ q ∈ fieldParts fs v, q.2.template.holes = []) (stringTable : List UInt8) :
    Stands (fieldSchemas (fieldImpls fs) stringTable).2
      (structTemplate (fieldParts fs v) stringTable) := by
  refine stands_listed ?_ _ _
  induction fs generalizing stringTable with
  | nil => exact fun t ht => absurd ht List.not_mem_nil
  | cons f fs ih =>
    obtain ⟨x, xs⟩ := v
    intro t ht
    rcases List.mem_cons.mp ht with rfl | ht
    · intro hole hhole
      rw [Template.holes, Template.holes, hparts (f.1, ⟨f.2, x⟩) List.mem_cons_self,
        List.mem_singleton] at hhole
      subst hhole
      exact ⟨hnames f List.mem_cons_self, _, rfl,
        (nameAt_append stringTable f.1).mono (prefix_fieldSchemas (fieldImpls fs) _)⟩
    · exact ih (fun f hf => hnames f (List.mem_cons_of_mem _ hf))
        (fun q hq => hparts q (List.mem_cons_of_mem _ hq)) _ t ht

end Structs

/-! ### Enums -/

section Enums

omit [FloatDisplay]

omit [Target] in
/-- The schema of a compound is not that of `()`. -/
theorem countHead_append_ne {op : UInt8} (hop : op = opTuple ∨ op = opStruct) (count : ℕ)
    (rest : List UInt8) : countHead op count ++ rest ≠ [opUnit] := by
  have hne : ∀ k ≤ 15, op ||| UInt8.ofNat k ≠ opUnit := by
    rcases hop with rfl | rfl <;> decide
  unfold countHead
  split
  · next hle => exact fun h => hne count hle (List.cons.inj h).1
  · intro h
    have hzero : op ||| UInt8.ofNat 0 = op := UInt8.or_zero
    exact hne 0 (Nat.zero_le _) (hzero.trans (List.cons.inj h).1)

/-- A variant is shown with the fields that its schema has. -/
theorem render_variant (fields : VariantFields) (x : Encode.Tuple fields.impl.tys) (name : String)
    (n : ℕ) (stringTable : List UInt8) :
    (variantTemplate n name (variantSubSchema fields.impl stringTable).1
      (fields.template x stringTable)).render declaredNames =
        fields.impl.shown name ((fields.parts x).map fun q => q.template.render declaredNames) := by
  have hunnamed : ∀ (ps : List Logged) (x : Encode.Tuple (ps.map Logged.impl)),
      variantText (structSchemaUnnamed (ps.map Logged.impl)) name
        ((listed "(" ")" ((Logged.parts ps x).map Value.template)).render declaredNames) =
          name ++ "(" ++ ("(" ++ joined ((Logged.parts ps x).map fun q =>
            q.template.render declaredNames) ++ ")") ++ ")" := by
    intro ps x
    rw [variantText, structSchemaUnnamed, if_neg (countHead_append_ne (.inl rfl) _ _),
      render_listed, List.map_map]
    rfl
  have hnamed : ∀ (fs : List (String × Logged)) (x : Encode.Tuple ((fieldImpls fs).map Prod.snd)),
      variantText (structSchemaNamed (fieldImpls fs) stringTable).1 name
        ((structTemplate (fieldParts fs x) stringTable).render declaredNames) =
          name ++ "(" ++ structText ((fieldImpls fs).map Prod.fst)
            (((fieldParts fs x).map Prod.snd).map fun q => q.template.render declaredNames) ++
              ")" := by
    intro fs x
    rw [variantText, structSchemaNamed, if_neg (countHead_append_ne (.inr rfl) _ _),
      render_structTemplate, map_fst_fieldParts, List.map_map]
    rfl
  rw [render_variantTemplate]
  cases fields with
  | unit => exact if_pos rfl
  | named fs => exact hnamed fs x
  | unnamed ps =>
    rcases ps with _ | ⟨p, _ | ⟨p', ps⟩⟩
    · exact hunnamed [] x
    · -- a single field is not wrapped in a tuple
      show variantText p.impl.schema name (Template.render declaredNames (p.template x.1)) = _
      rw [variantText]
      rfl
    · exact hunnamed (p :: p' :: ps) x

theorem render_choiceTemplate (vs : List (String × VariantFields)) (c : Choice (variantImpls vs))
    (stringTable : List UInt8) :
    (choiceTemplate vs c stringTable).render declaredNames =
      c.variant.2.shown c.variant.1
        ((choiceParts vs c).map fun q => q.template.render declaredNames) := by
  induction vs generalizing stringTable with
  | nil => exact c.elim
  | cons v vs ih =>
    cases c with
    | inl x => exact render_variant v.2 x v.1 _ _
    | inr c => exact ih c _

theorem stands_choice {vs : List (String × VariantFields)}
    (hnames : ∀ v ∈ vs, ∀ name ∈ v.1 :: v.2.names, ∀ c ∈ name.toList, c.toNat ≠ 0)
    {c : Choice (variantImpls vs)} (hparts : ∀ q ∈ choiceParts vs c, q.template.holes = [])
    (stringTable : List UInt8) :
    Stands (variantSchemas (variantImpls vs) stringTable).2 (choiceTemplate vs c stringTable) := by
  induction vs generalizing stringTable with
  | nil => exact c.elim
  | cons v vs ih =>
    cases c with
    | inr c =>
      exact ih (fun v hv => hnames v (List.mem_cons_of_mem _ hv)) hparts _
    | inl x =>
      -- the name of the variant goes into the table before those of its fields
      obtain ⟨name, fields⟩ := v
      set table' := stringTable ++ (Utf8.encode name ++ [0]) with htable'
      have hzero := hnames (name, fields) List.mem_cons_self
      have hsub : table' <+: (variantSubSchema fields.impl table').2 := prefix_variantSubSchema _ _
      have hrest := prefix_variantSchemas (variantImpls vs) (variantSubSchema fields.impl table').2
      have hfields : Stands (variantSubSchema fields.impl table').2 (fields.template x table') := by
        cases fields with
        | unit => exact stands_of_holes_eq_nil _ rfl
        | named fs =>
          refine stands_fields (fun f hf => hzero f.1 ?_) (fun q hq => hparts q.2 ?_) table'
          · exact List.mem_cons_of_mem _ (List.mem_map_of_mem hf)
          · exact List.mem_map_of_mem hq
        | unnamed ps =>
          rw [VariantFields.template]
          -- a single field stands for itself
          split
          · next q heq =>
            exact stands_of_holes_eq_nil _ (hparts q (by
              show q ∈ Logged.parts ps x
              rw [heq]
              exact List.mem_cons_self))
          · refine stands_listed (fun t ht => ?_) _ _
            obtain ⟨q, hq, rfl⟩ := List.mem_map.mp ht
            exact stands_of_holes_eq_nil _ (hparts q hq)
      exact (stands_variantTemplate (hzero name List.mem_cons_self)
        ((nameAt_append stringTable name).mono hsub) hfields _).mono hrest

end Enums

theorem good_of_alone {p : Logged} (hp : ∃ e, p = alone e)
    (hschema : WellFormed (fun _ => True) p.impl.schema) : p.Good := by
  obtain ⟨e, rfl⟩ := hp
  exact good_alone hschema

omit [FloatDisplay] in
theorem countsOk_of_countOk (hend : Target.endian = .little) {fields : VariantFields}
    (hcount : fields.impl.CountOk)
    (hnamed : ∀ fs, fields.impl = .named fs → fs.length < 65536) : fields.CountsOk := by
  cases fields with
  | unit => trivial
  | unnamed ps =>
    obtain ⟨hpos, hle⟩ : 1 ≤ (ps.map Logged.impl).length ∧ (ps.map Logged.impl).length ≤ 65535 :=
      hcount
    rw [List.length_map] at hpos hle
    exact ⟨hpos, .inr ⟨hend, by omega⟩⟩
  | named fs =>
    have hlt := hnamed _ rfl
    have hpos : 1 ≤ (fieldImpls fs).length := hcount
    rw [fieldImpls, List.length_map] at hlt hpos
    exact ⟨hpos, .inr ⟨hend, by omega⟩⟩

end Logged

/-! ### Round trips -/

/-- A struct with names and types that the interpreter can read back. -/
structure DecodableStruct (fields : List (String × Encode)) : Prop where
  count : 1 ≤ fields.length ∧ fields.length ≤ 65535
  names : ∀ f ∈ fields, ∀ c ∈ f.1.toList, c.toNat ≠ 0
  schemas : ∀ f ∈ fields, WellFormed (fun _ => True) f.2.schema
  table : (Encode.deriveStruct fields).stringTable.length < 65536

/-- An enum with names and types that the interpreter can read back. -/
structure DecodableEnum (variants : List (String × Fields)) : Prop where
  count : 1 ≤ variants.length ∧ variants.length ≤ 65535
  counts : ∀ v ∈ variants, v.2.CountOk
  names : ∀ v ∈ variants, ∀ name ∈ v.1 :: v.2.names, ∀ c ∈ name.toList, c.toNat ≠ 0
  schemas : ∀ v ∈ variants, ∀ ty ∈ v.2.tys, WellFormed (fun _ => True) ty.schema
  table : (Encode.deriveEnum variants).stringTable.length < 65536

theorem DecodableStruct.decodesAs (hend : Target.endian = .little)
    {fields : List (String × Encode)} (hok : DecodableStruct fields)
    {v : Encode.Tuple (fields.map Prod.snd)} {texts : List String}
    (halone : List.Forall₂ ShownAlone (v.map Sigma.mk) texts) :
    (Encode.deriveStruct fields).DecodesAs v (structText (fields.map Prod.fst) texts) := by
  obtain ⟨fs, rfl, hfs⟩ := Logged.exists_alone fields
  have hmem : ∀ f ∈ fs, (f.1, f.2.impl) ∈ Logged.fieldImpls fs := fun f hf =>
    List.mem_map.mpr ⟨f, hf, rfl⟩
  have hcount : CountOk fs.length := by
    have hlen := hok.count
    rw [Logged.fieldImpls, List.length_map] at hlen
    exact ⟨hlen.1, .inr ⟨hend, by omega⟩⟩
  -- the types are good as far as this one value goes
  have hgood : ∀ f ∈ fs, f.2.Good := fun f hf =>
    Logged.good_of_alone (hfs f hf) (hok.schemas _ (hmem f hf))
  -- the values of the fields, with the texts that they have alone
  set qs := (Logged.fieldParts fs v).map Prod.snd with hqs
  have hparts : ∀ q ∈ Logged.fieldParts fs v, q.2 ∈ qs := fun q hq => List.mem_map_of_mem hq
  rw [Logged.map_fieldParts Sigma.mk] at halone
  obtain ⟨hall, htexts⟩ := @Logged.values_alone _ _ qs (by
    intro q hq
    obtain ⟨part, hpart, rfl⟩ := List.mem_map.mp hq
    exact hfs _ (Logged.mem_of_mem_fieldParts hpart)) texts (by
    rw [hqs, List.map_map]
    exact halone)
  -- where the names stand, and what is shown for any names, meet in the template
  have hstands := Logged.stands_fields (fun f hf => hok.names _ (hmem f hf))
    (fun q hq => (hall q.2 (hparts q hq)).2) []
  obtain ⟨bytes, hbytes, hformat⟩ := Logged.shows_fields hcount hgood v
    (fun q hq => (hall q.2 (hparts q hq)).1) []
  have htext : (Logged.structTemplate (Logged.fieldParts fs v) []).render
      (tableNames [(fieldSchemas (Logged.fieldImpls fs) []).2]) =
        structText ((Logged.fieldImpls fs).map Prod.fst) texts := by
    rw [hstands.render_eq hend hok.table, Logged.render_structTemplate,
      Logged.map_fst_fieldParts, ← htexts, hqs, List.map_map]
    rfl
  refine ⟨bytes, hbytes, fun t ufs => ?_⟩
  rw [← htext]
  exact hformat _ ufs t

theorem DecodableEnum.decodesAs (hend : Target.endian = .little)
    {variants : List (String × Fields)} (hok : DecodableEnum variants) {c : Choice variants}
    {texts : List String} (halone : List.Forall₂ ShownAlone (c.map Sigma.mk) texts) :
    (Encode.deriveEnum variants).DecodesAs c (c.variant.2.shown c.variant.1 texts) := by
  obtain ⟨vs, rfl, hvs⟩ := Logged.exists_alone_variants variants
  have hmem : ∀ v ∈ vs, (v.1, v.2.impl) ∈ Logged.variantImpls vs := fun v hv =>
    List.mem_map.mpr ⟨v, hv, rfl⟩
  have hcount : CountOk vs.length := by
    have hlen := hok.count
    rw [Logged.variantImpls, List.length_map] at hlen
    exact ⟨hlen.1, .inr ⟨hend, by omega⟩⟩
  have hgood : ∀ v ∈ vs, v.2.CountsOk ∧ ∀ p ∈ v.2.types, p.Good := by
    intro v hv
    refine ⟨Logged.countsOk_of_countOk hend (hok.counts _ (hmem v hv)) ?_, fun p hp => ?_⟩
    -- every name takes a byte of the table, so a table that offsets reach has few names
    · intro fields heq
      have hnamed : (v.1, Fields.named fields) ∈ Logged.variantImpls vs := heq ▸ hmem v hv
      exact (length_le_variantSchemas hnamed []).trans_lt hok.table
    · refine Logged.good_of_alone (hvs v hv p hp) (hok.schemas _ (hmem v hv) _ ?_)
      rw [Logged.VariantFields.tys_impl]
      exact List.mem_map_of_mem hp
  rw [Logged.map_choice Sigma.mk] at halone
  obtain ⟨hall, htexts⟩ := Logged.values_alone (fun q hq => by
    obtain ⟨v, hv, hq⟩ := Logged.mem_of_mem_choiceParts hq
    exact hvs v hv _ hq) halone
  have hstands := Logged.stands_choice (fun v hv => by
    rw [← Logged.VariantFields.names_impl]
    exact hok.names _ (hmem v hv)) (fun q hq => (hall q hq).2) []
  obtain ⟨bytes, hbytes, hformat⟩ := (Logged.good_deriveEnum hcount hgood).shows c
    fun q hq => (hall q hq).1
  refine ⟨bytes, hbytes, fun t ufs => ?_⟩
  rw [← htexts]
  refine (hformat _ ufs t).trans ?_
  rw [← Logged.render_choiceTemplate vs c []]
  exact congrArg (fun text => some (text, bytes.length)) (hstands.render_eq hend hok.table)

/-- On a little-endian target a derived value is decoded as it was encoded: what `encode_to` wrote
is consumed, a struct shows each field behind its name, and an enum the name of the variant and its
fields, all as they are shown alone and in the order of their declaration. -/
theorem derived_decodesAs (hend : Target.endian = .little) :
    (∀ (fields : List (String × Encode)) (v : Encode.Tuple (fields.map Prod.snd))
      (texts : List String), DecodableStruct fields →
      List.Forall₂ ShownAlone (v.map Sigma.mk) texts →
      (Encode.deriveStruct fields).DecodesAs v (structText (fields.map Prod.fst) texts)) ∧
    ∀ (variants : List (String × Fields)) (c : Choice variants) (texts : List String),
      DecodableEnum variants → List.Forall₂ ShownAlone (c.map Sigma.mk) texts →
      (Encode.deriveEnum variants).DecodesAs c (c.variant.2.shown c.variant.1 texts) :=
  ⟨fun _ _ _ hok halone => hok.decodesAs hend halone,
    fun _ _ _ hok halone => hok.decodesAs hend halone⟩

end Target

/-- A struct with a number and a boolean, and an enum that has it as a variant. -/
theorem derived_decodesAs_two :
    letI : Target := x86_64
    letI : FloatDisplay := noFloats
    let fields : List (String × Encode) := [("id", .unsignedInt 1), ("done", .bool)]
    let variants : List (String × Fields) :=
      [("Pair", .unnamed [.bool, .bool]), ("Running", .named fields), ("Idle", .unit)]
    let running : Encode.Tuple (fields.map Prod.snd) := ((7 : BitVec 8), true, ())
    (Encode.deriveStruct fields).DecodesAs running "\x7bid: 7, done: true\x7d" ∧
      (Encode.deriveEnum variants).DecodesAs (.inr (.inl running) : Choice variants)
        "Running(\x7bid: 7, done: true\x7d)" := by
  let _ : Target := x86_64
  let _ : FloatDisplay := noFloats
  intro fields variants running
  have hid : Shows (Encode.unsignedInt 1).schema ((Encode.unsignedInt 1).encodeTo (7 : BitVec 8))
      fun _ => toString (printedUnsigned 1 7) := shows_unsignedInt (k := 1) (by decide) 7
  have hseven : toString (printedUnsigned 1 7) = "7" := by decide +kernel
  rw [hseven] at hid
  have halone : List.Forall₂ ShownAlone (running.map Sigma.mk) ["7", "true"] :=
    .cons hid (.cons (shows_bool true) .nil)
  have hbyte : WellFormed (fun _ => True) (Encode.unsignedInt 1).schema :=
    @WellFormed.scalar _ _ (withCode opUnsignedInt 1) trivial trivial
  have hbool : WellFormed (fun _ => True) Encode.bool.schema :=
    @WellFormed.scalar _ _ opBool trivial trivial
  obtain ⟨hstruct, henum⟩ := derived_decodesAs rfl
  refine ⟨hstruct fields running _ ?_ halone,
    henum variants (.inr (.inl running)) _ ?_ halone⟩
  · refine ⟨by decide, ?_, ?_, by decide⟩
    · simp [fields]
    · simp [fields, hbyte, hbool]
  · refine ⟨by decide, ?_, ?_, ?_, by decide⟩
    · simp [variants, fields, Fields.CountOk]
    · simp [variants, fields, Fields.names]
    · simp [variants, fields, Fields.tys, hbyte, hbool]

/-- A tuple of booleans that are all false. -/
def allFalse : (n : ℕ) → Encode.Tuple (List.replicate n Encode.bool)
  | 0 => ()
  | n + 1 => (false, allFalse n)

theorem map_encodeTo_allFalse [Target] (n : ℕ) :
    SliceWriter.all ((allFalse n).map Encode.encodeTo) = .copy (List.replicate n 0) := by
  induction n with
  | zero => rfl
  | succ n ih =>
    show SliceWriter.all (.copy [0] :: (allFalse n).map Encode.encodeTo) = _
    rw [all_cons, ih, copy_andThen]
    rfl

/-- The interpreter finds no field in a tuple variant whose count is written as zero. -/
theorem formatPayload_wrapped [Target] [FloatDisplay] {tys : List Encode} (hlen : 15 < tys.length)
    (hwrap : leBytes 2 tys.length = [0, 0]) (name : String) (payload : List UInt8)
    (tables : List (List UInt8)) (ufs : List UserFormatter) :
    formatPayload (Encode.deriveEnum [(name, .unnamed tys)]).schema (0 :: payload) tables ufs =
      some (readStrFromTable 0 0 tables ++ "(" ++ "()" ++ ")", 1) := by
  have hzero : toNeBytes 2 0 = [0, 0] := by
    unfold toNeBytes Endian.toBytes
    cases Target.endian <;> rfl
  -- the head that the macro writes is that of a tuple without items
  have hhead : Head .tuple 0 [opTuple, 0, 0] := by
    rw [← hzero]
    exact .extended (by decide) (by decide) (by decide)
  have hhead' : Head .enum [(0, [opTuple, 0, 0])].length [opEnum ||| 1] :=
    @head_inline _ opEnum .enum (by simp) 1 (by decide) (by decide)
  have hsub : variantSubSchema (.unnamed tys) (Utf8.encode name ++ [0]) =
      ([opTuple, 0, 0] ++ (tys.map Encode.schema).flatten, Utf8.encode name ++ [0]) := by
    have hsub' : variantSubSchema (.unnamed tys) (Utf8.encode name ++ [0]) =
        (structSchemaUnnamed tys, Utf8.encode name ++ [0]) := by
      match tys, hlen with
      | _ :: _ :: _, _ => rfl
    rw [hsub', structSchemaUnnamed, countHead, if_neg (by omega), hwrap]
  have hschema : (Encode.deriveEnum [(name, .unnamed tys)]).schema = [opEnum ||| 1] ++
      1 :: 0 :: (itemBytes (named [(0, [opTuple, 0, 0])]) ++ (tys.map Encode.schema).flatten) := by
    show (enumSchema [(name, .unnamed tys)] []).1 = _
    simp only [enumSchema, variantSchemas, List.nil_append, hsub, named, List.map_cons,
      List.map_nil, itemBytes_cons, itemBytes_nil, hzero]
    simp [countHead, vdxK, leBytes]
  -- so the item of the variant ends there, and the schemas of the fields are never read
  have hdelimited : SelfDelimiting [opTuple, 0, 0] := by
    have hwf : WellFormed (fun _ => True) [opTuple, 0, 0] :=
      @WellFormed.tuple _ _ _ [] hhead (by simp)
    exact hwf.selfDelimiting
  have htuple : formatPayload [opTuple, 0, 0] payload tables ufs = some ("()", 0) :=
    @formatPayload_tuple _ _ [opTuple, 0, 0] [] payload tables ufs [] hhead (by simp)
  have hsize : sizeForK (1 : UInt8).toNat = 1 := rfl
  have hne : [opTuple, 0, 0] ≠ [opUnit] := by decide
  have hread : readUnsignedNe (0 :: payload) (1 : UInt8).toNat = some 0 := rfl
  have hfrom : sliceFrom (0 :: payload) 1 = some payload := by simp [sliceFrom]
  rw [hschema, formatPayload_enum hhead' (by simp) (by simp [hdelimited]), hsize, if_neg (by simp),
    hread]
  simp only [Option.bind_some, Nat.zero_mod, List.getElem?_cons_zero, formatVariant, if_neg hne,
    hfrom, htuple, Option.map_some]
  rfl

/-- Of a tuple variant whose count is written as zero no field is shown or consumed. -/
theorem tuple_not_decoded [Target] [FloatDisplay] {n : ℕ} (hlen : 15 < n)
    (hwrap : leBytes 2 n = [0, 0]) :
    let bools := List.replicate n Encode.bool
    let e := Encode.deriveEnum [("A", .unnamed bools)]
    ∃ bytes, bytes.length = n + 1 ∧
      e.encodeTo (.inl (allFalse n) : Choice [("A", .unnamed bools)]) = .copy bytes ∧
      formatPayload e.schema bytes [e.stringTable] [] = some ("A(())", 1) := by
  intro bools e
  have hbools : bools.length = n := List.length_replicate
  have htable : e.stringTable = [65, 0] := by
    show (variantSubSchema (.unnamed bools) (Utf8.encode "A" ++ [0])).2 = [65, 0]
    match bools, hbools with
    | [], hbools | [_], hbools | _ :: _ :: _, hbools => rfl
  refine ⟨0 :: List.replicate n 0, by rw [List.length_cons, List.length_replicate], ?_, ?_⟩
  · show (copy [0]).andThen (.all ((allFalse n).map Encode.encodeTo)) = _
    rw [map_encodeTo_allFalse, copy_andThen]
    rfl
  · rw [formatPayload_wrapped (by rwa [hbools]) (by rwa [hbools]), htable]
    decide +kernel

/-- What is not decoded as it was encoded: the field of a variant that is of type `()`, the fields
of a tuple variant with 65536 of them, a field of a struct type without fields, and a `usize` where
it has 32 bits. -/
theorem derived_not_decoded :
    letI : FloatDisplay := noFloats
    letI : Target := x86_64
    let single := Encode.deriveEnum [("A", .unnamed [.unit])]
    let bools := List.replicate 65536 Encode.bool
    let tuple := Encode.deriveEnum [("A", .unnamed bools)]
    let nested := Encode.deriveStruct [("s", .deriveStruct [])]
    (ShownAlone ⟨.unit, ()⟩ "()" ∧
      single.encodeTo (.inl ((), ()) : Choice [("A", .unnamed [.unit])]) = .copy [0] ∧
      formatPayload single.schema [0] [single.stringTable] [] = some ("A", 1)) ∧
    (∃ bytes, bytes.length = 65537 ∧
      tuple.encodeTo (.inl (allFalse 65536) : Choice [("A", .unnamed bools)]) = .copy bytes ∧
      formatPayload tuple.schema bytes [tuple.stringTable] [] = some ("A(())", 1)) ∧
    (nested.encodeTo (((), ()) : Encode.Tuple [.deriveStruct []]) = .copy [] ∧
      formatPayload nested.schema [] [nested.stringTable] [] = none) ∧
    letI : Target := i686
    let size := Encode.deriveStruct [("x", .usize)]
    let bytes : List UInt8 := [7, 0, 0, 0, 0, 0, 0, 0]
    size.encodeTo (((7 : BitVec 32), ()) : Encode.Tuple [.usize]) = .copy bytes ∧
      formatPayload size.schema bytes [size.stringTable] [] = some ("\x7bx: 7\x7d", 4) := by
  let _ : FloatDisplay := noFloats
  refine ⟨⟨?_, ?_, ?_⟩, ?_, ⟨?_, ?_⟩, ?_, ?_⟩
  · let _ : Target := x86_64
    exact shows_unit
  · show (copy [0]).andThen (.all [copy []]) = _
    rw [all_cons, all_nil, copy_andThen, copy_andThen]
    rfl
  · decide +kernel
  · let _ : Target := x86_64
    exact tuple_not_decoded (by norm_num) rfl
  · show SliceWriter.all [SliceWriter.all []] = _
    rw [all_cons, all_nil, copy_andThen]
    rfl
  · decide +kernel
  · show SliceWriter.all [copy [7, 0, 0, 0, 0, 0, 0, 0]] = _
    rw [all_cons, all_nil, copy_andThen]
    rfl
  · decide +kernel

end RapidLog
