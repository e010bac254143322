import RapidLog.Arg.Shipped

/-!
# The names of fields and variants

Every schema has offsets into the string table of its own type, but `decode_args` gives the
interpreter one table for each argument, that of its outermost type. So the name that is shown for
a field or a variant is what this table has at an offset that was meant for another one.

The text of an argument has the declared names exactly when each of them stands in the outermost
table at the offset that the schema has for it (`names_resolve_iff`).
-/

namespace RapidLog

open Template

section Target

variable [Target] [FloatDisplay]

/-- A delimiter follows every name in the text of a value, and the names are identifiers. -/
structure WellNamed (t : NameTemplate) : Prop where
  separated : Separated (· ∈ delimiters) t
  idents : ∀ name ∈ t.holes, IsIdent name.2

omit [Target] [FloatDisplay] in
/-- A text with a delimiter in front. -/
theorem begins_of_mem {c : Char} (hc : c ∈ delimiters) (cs : List Char) :
    Begins (· ∈ delimiters) (String.ofList (c :: cs)) :=
  ⟨c, cs, String.toList_ofList, hc⟩

namespace WellNamed

omit [Target] [FloatDisplay]

/-- A text without names. -/
theorem scalar (s : String) : WellNamed [.text s] := ⟨trivial, fun _ h => absurd h List.not_mem_nil⟩

/-- A list between delimiters whose items are well named. -/
theorem listed {ts : List NameTemplate} (h : ∀ t ∈ ts, WellNamed t) (opening : String)
    {closing : String} (hclose : Begins (· ∈ delimiters) closing) :
    WellNamed (listed opening closing ts) where
  separated := (Separated.join (begins_of_mem (by decide) [' '])
    fun t ht => (h t ht).separated).between opening hclose
  idents := by
    intro name hname
    rw [RapidLog.listed, holes_between, mem_holes_join] at hname
    obtain ⟨t, ht, hname⟩ := hname
    exact (h t ht).idents name hname

/-- The name of a variant is followed by a parenthesis, or by whatever follows the value. -/
theorem variant {t : NameTemplate} (h : WellNamed t) {name : String} (hname : IsIdent name)
    (off : ℕ) (schema : List UInt8) : WellNamed (variantTemplate off name schema t) := by
  unfold variantTemplate
  split
  · exact ⟨⟨trivial, trivial⟩, by simpa [holes] using hname⟩
  · refine ⟨⟨begins_of_mem (by decide) [], ?_⟩, ?_⟩
    · exact h.separated.between "(" (begins_of_mem (by decide) [])
    · simpa [holes, hname] using h.idents

/-- The name of a field is followed by a colon. -/
theorem field {t : NameTemplate} (h : WellNamed t) {name : String} (hname : IsIdent name)
    (off : ℕ) : WellNamed (.hole (off, name) :: .text ": " :: t) where
  separated := ⟨begins_of_mem (by decide) [' '], h.separated⟩
  idents := by simpa [holes, hname] using h.idents

end WellNamed

namespace Logged

omit [FloatDisplay]

omit [Target] in
/-- Values between delimiters. -/
theorem wellNamed_values {qs : List Value} (h : ∀ q ∈ qs, WellNamed q.template) (opening : String)
    {closing : String} (hclose : Begins (· ∈ delimiters) closing) :
    WellNamed (listed opening closing (qs.map Value.template)) := by
  refine WellNamed.listed (fun t ht => ?_) opening hclose
  obtain ⟨q, hq, rfl⟩ := List.mem_map.mp ht
  exact h q hq

omit [Target] in
/-- The elements of a sequence. -/
theorem wellNamed_elems {p : Logged} (h : ∀ x, WellNamed (p.template x))
    (xs : List p.impl.Self) : WellNamed (listed "[" "]" (xs.map p.template)) := by
  refine WellNamed.listed (fun t ht => ?_) _ (begins_of_mem (by decide) [])
  obtain ⟨x, -, rfl⟩ := List.mem_map.mp ht
  exact h x

/-- The entries of a map, which are pairs. -/
theorem wellNamed_entries {k v : Logged} (hk : ∀ x, WellNamed (k.template x))
    (hv : ∀ x, WellNamed (v.template x)) (xs : List (k.impl.Self × v.impl.Self)) :
    WellNamed ((entries k v).template xs) := by
  refine WellNamed.listed (fun t ht => ?_) _ (begins_of_mem (by decide) [])
  obtain ⟨x, -, rfl⟩ := List.mem_map.mp ht
  refine wellNamed_values (fun q hq => ?_) _ (begins_of_mem (by decide) [])
  simp only [entry, List.mem_cons, List.not_mem_nil, or_false] at hq
  rcases hq with rfl | rfl
  · exact hk x.1
  · exact hv x.2

/-- Named fields between braces. -/
theorem wellNamed_fields {qs : List (String × Value)}
    (h : ∀ q ∈ qs, IsIdent q.1 ∧ WellNamed q.2.template) (stringTable : List UInt8) :
    WellNamed (structTemplate qs stringTable) := by
  refine WellNamed.listed ?_ _ (begins_of_mem (by decide) [])
  induction qs generalizing stringTable with
  | nil => simp [fieldTemplates]
  | cons q qs ih =>
    intro t ht
    rw [fieldTemplates, List.mem_cons] at ht
    rcases ht with rfl | ht
    · exact (h q (by simp)).2.field (h q (by simp)).1 _
    · exact ih (fun q hq => h q (by simp [hq])) _ t ht

/-- The fields of a derived struct. -/
theorem wellNamed_fieldParts {fs : List (String × Logged)} (hnames : ∀ f ∈ fs, IsIdent f.1)
    (htypes : ∀ f ∈ fs, ∀ x, WellNamed (f.2.template x))
    (v : Encode.Tuple ((fieldImpls fs).map Prod.snd)) (stringTable : List UInt8) :
    WellNamed (structTemplate (fieldParts fs v) stringTable) := by
  refine wellNamed_fields (fun q hq => ?_) stringTable
  have hmem := mem_of_mem_fieldParts hq
  exact ⟨hnames _ hmem, htypes _ hmem q.2.2⟩

/-- The fields of a variant, whatever its kind. -/
theorem VariantFields.wellNamed {fields : VariantFields}
    (hnames : ∀ name ∈ fields.names, IsIdent name)
    (htypes : ∀ p ∈ fields.types, ∀ x, WellNamed (p.template x))
    (v : Encode.Tuple fields.impl.tys) (stringTable : List UInt8) :
    WellNamed (fields.template v stringTable) := by
  cases fields with
  | unit => exact .scalar "()"
  | unnamed ps =>
    have hparts : ∀ q ∈ Logged.parts ps v, WellNamed q.template := fun q hq =>
      htypes q.1 (fst_mem_of_mem_parts hq) q.2
    rw [VariantFields.template]
    split
    · next q heq => exact hparts q (by simp [heq])
    · exact wellNamed_values hparts _ (begins_of_mem (by decide) [])
  | named fs =>
    exact wellNamed_fieldParts (fun f hf => hnames f.1 (List.mem_map_of_mem hf))
      (fun f hf => htypes f.2 (List.mem_map_of_mem hf)) v stringTable

/-- A value of a derived enum. -/
theorem wellNamed_choice {vs : List (String × VariantFields)}
    (hnames : ∀ v ∈ vs, IsIdent v.1 ∧ ∀ name ∈ v.2.names, IsIdent name)
    (htypes : ∀ v ∈ vs, ∀ p ∈ v.2.types, ∀ x, WellNamed (p.template x))
    (c : Choice (variantImpls vs)) (stringTable : List UInt8) :
    WellNamed (choiceTemplate vs c stringTable) := by
  induction vs generalizing stringTable with
  | nil => exact c.elim
  | cons v vs ih =>
    cases c with
    | inl x =>
      have hfields := VariantFields.wellNamed (hnames v (by simp)).2 (htypes v (by simp)) x
        (stringTable ++ (Utf8.encode v.1 ++ [0]))
      exact hfields.variant (hnames v (by simp)).1 _ _
    | inr c =>
      exact ih (fun v hv => hnames v (by simp [hv])) (fun v hv => htypes v (by simp [hv])) c _

end Logged

omit [Target] [FloatDisplay] in
/-- The names of the variants of `Option` and `Result` are identifiers. -/
theorem isIdent_shipped : ∀ name ∈ ["None", "Some", "Ok", "Err"], IsIdent name := by
  intro name hname
  simp only [List.mem_cons, List.not_mem_nil, or_false] at hname
  rcases hname with rfl | rfl | rfl | rfl <;>
    exact ⟨by decide, by simp, by simp [delimiters]⟩

/-- Every value of a shipped type is shown with delimiters behind the names. -/
theorem Shipped.wellNamed {p : Logged} (h : Shipped p) (v : p.impl.Self) :
    WellNamed (p.template v) := by
  induction h with
  | signedInt hk => exact .scalar _
  | unsignedInt hk => exact .scalar _
  | usize hwidth => exact .scalar _
  | f32 => exact .scalar _
  | f64 => exact .scalar _
  | bool => exact .scalar _
  | char => exact .scalar _
  | unit => exact .scalar _
  | text h => exact .scalar _
  | tuple hlen hps ih =>
    exact Logged.wellNamed_values (fun q hq => ih q.1 (Logged.fst_mem_of_mem_parts hq) q.2) _
      (begins_of_mem (by decide) [])
  | array hn hp ih => exact Logged.wellNamed_elems ih v.1
  | @vec p hp ih => exact Logged.wellNamed_elems ih (v.take 65535 : List p.impl.Self)
  | hashMap hk hv ihk ihv => exact Logged.wellNamed_entries ihk ihv v
  | bTreeMap hk hv ihk ihv => exact Logged.wellNamed_entries ihk ihv v
  | option hp ih =>
    cases v with
    | none => exact (WellNamed.scalar "()").variant (isIdent_shipped "None" (by simp)) _ _
    | some x => exact (ih x).variant (isIdent_shipped "Some" (by simp)) _ _
  | result hp hq ihp ihq =>
    cases v with
    | inl x => exact (ihp x).variant (isIdent_shipped "Ok" (by simp)) _ _
    | inr x => exact (ihq x).variant (isIdent_shipped "Err" (by simp)) _ _
  | deriveStruct hcount hnames hfs ih => exact Logged.wellNamed_fieldParts hnames ih v []
  | deriveEnum hcount hcounts hnames hvs ih => exact Logged.wellNamed_choice hnames ih v []

/-! ### String tables -/

omit [Target] [FloatDisplay]

/-- Names of fields keep a string table readable. -/
theorem tableOk_fields {fields : List (String × Encode)} (hnames : ∀ f ∈ fields, IsIdent f.1)
    {stringTable : List UInt8} (htable : TableOk stringTable) :
    TableOk (fieldSchemas fields stringTable).2 := by
  induction fields generalizing stringTable with
  | nil => exact htable
  | cons field fields ih =>
    exact ih (fun f hf => hnames f (by simp [hf])) (htable.append_name (hnames field (by simp)))

/-- So do the names of the fields of a variant, of which only struct variants have any. -/
theorem tableOk_variantSubSchema {fields : Fields} (hnames : ∀ name ∈ fields.names, IsIdent name)
    {stringTable : List UInt8} (htable : TableOk stringTable) :
    TableOk (variantSubSchema fields stringTable).2 := by
  cases fields with
  | unit => exact htable
  | unnamed tys =>
    -- the names that fields have stand in the tables of their own types only
    match tys with
    | [] | [_] | _ :: _ :: _ => exact htable
  | named fields =>
    exact tableOk_fields (fun f hf => hnames f.1 (List.mem_map_of_mem hf)) htable

/-- So do the names of variants, each before those of its fields. -/
theorem tableOk_variantSchemas {variants : List (String × Fields)}
    (hnames : ∀ v ∈ variants, ∀ name ∈ v.1 :: v.2.names, IsIdent name)
    {stringTable : List UInt8} (htable : TableOk stringTable) :
    TableOk (variantSchemas variants stringTable).2 := by
  induction variants generalizing stringTable with
  | nil => exact htable
  | cons v variants ih =>
    obtain ⟨hv, hvs⟩ := List.forall_mem_cons.mp hnames
    obtain ⟨hname, hfields⟩ := List.forall_mem_cons.mp hv
    exact ih hvs (tableOk_variantSubSchema hfields (htable.append_name hname))

namespace Logged

/-- The string table of a derived struct. -/
theorem tableOk_fieldImpls {fs : List (String × Logged)} (hnames : ∀ f ∈ fs, IsIdent f.1)
    {stringTable : List UInt8} (htable : TableOk stringTable) :
    TableOk (structSchemaNamed (fieldImpls fs) stringTable).2 := by
  refine tableOk_fields (fun field hfield => ?_) htable
  obtain ⟨f, hf, rfl⟩ := List.mem_map.mp hfield
  exact hnames f hf

/-- The string table of a derived enum. -/
theorem tableOk_variants {vs : List (String × VariantFields)}
    (hnames : ∀ v ∈ vs, IsIdent v.1 ∧ ∀ name ∈ v.2.names, IsIdent name)
    {stringTable : List UInt8} (htable : TableOk stringTable) :
    TableOk (variantSchemas (variantImpls vs) stringTable).2 := by
  refine tableOk_variantSchemas (fun variant hvariant => ?_) htable
  obtain ⟨v, hv, rfl⟩ := List.mem_map.mp hvariant
  rw [VariantFields.names_impl]
  exact List.forall_mem_cons.mpr (hnames v hv)

end Logged

/-- The string tables of `Option` and `Result`. -/
theorem tableOk_nullTerminated {names : List String} (hnames : ∀ name ∈ names, IsIdent name) :
    TableOk (Encode.nullTerminated names) := by
  induction names using List.reverseRecOn with
  | nil => exact .nil
  | append_singleton names name ih =>
    have hnames' : ∀ n ∈ names, IsIdent n := fun n hn => hnames n (by simp [hn])
    rw [Encode.nullTerminated, List.flatMap_append, List.flatMap_singleton]
    exact (ih hnames').append_name (hnames name (by simp))

variable [Target] [FloatDisplay]

/-- Every shipped type has a string table in which each name ends with a zero. -/
theorem Shipped.tableOk {p : Logged} (h : Shipped p) :
    TableOk p.impl.stringTable := by
  cases h with
  | text h => cases h <;> exact .nil
  | option hp => exact tableOk_nullTerminated fun name hname => isIdent_shipped name (by aesop)
  | result hp hq => exact tableOk_nullTerminated fun name hname => isIdent_shipped name (by aesop)
  | deriveStruct hcount hnames hfs => exact Logged.tableOk_fieldImpls hnames .nil
  | deriveEnum hcount hcounts hnames hvs => exact Logged.tableOk_variants hnames .nil
  | _ => exact .nil

/-! ### What is shown -/

/-- A value is shown with the names that its types declare exactly when the outermost table has
each of them where the schema says. -/
theorem Shipped.render_eq_iff {q : Logged.Value} (h : Shipped q.1) :
    q.template.render (tableNames [q.1.impl.stringTable]) = q.template.render declaredNames ↔
      ∀ name ∈ q.template.holes, NameAt q.1.impl.stringTable name.1 name.2 := by
  have hnamed : WellNamed q.template := h.wellNamed q.2
  have htable := h.tableOk
  have hrender := Template.render_eq_iff hnamed.separated
    (f := tableNames [q.1.impl.stringTable]) (g := declaredNames)
    (fun name _ => readStrFromTable_clean htable name.1)
    (fun name hname => (hnamed.idents name hname).clean)
  rw [hrender]
  exact forall₂_congr fun name hname => readStrFromTable_eq_iff (hnamed.idents name hname) htable _

/-- The arguments of a message are shown one by one. An argument is shown with the names that its
types declare exactly when the string table of its outermost type has each of these names at the
offset that the schema of the owner gives. -/
theorem names_resolve_iff {args : List Logged.Value} (hargs : ∀ q ∈ args, Shipped q.1 ∧ q.fits)
    (hcount : args.length ≤ 255) :
    ∃ outputs : List (List UInt8),
      List.Forall₂ (fun q out => q.1.impl.encodeTo q.2 = .copy out) args outputs ∧
      ∀ (t : List UInt8) (ufs : List UserFormatter),
        let provided : Provided :=
          { schemas := .ofNat args.length :: (args.map fun q => q.1.impl.schema).flatten
            stringTables := args.map fun q => q.1.impl.stringTable
            userFormatters := ufs }
        ∃ texts, decodeArgs provided (outputs.flatten ++ t) = some texts ∧
          (args ≠ [] → ∀ metadata, formatBody metadata provided (outputs.flatten ++ t) =
            some (String.ofList (scanned metadata.formatStr.toList texts))) ∧
          ∀ (i : ℕ) (q : Logged.Value), args[i]? = some q →
            (texts[i]? = some (q.template.render declaredNames) ↔
              ∀ name ∈ q.template.holes, NameAt q.1.impl.stringTable name.1 name.2) := by
  obtain ⟨outputs, houtputs⟩ := Logged.exists_outputs fun q hq =>
    (hargs q hq).1.good.outputs (hargs q hq).2
  refine ⟨outputs, houtputs.imp fun _ _ h => h.1, ?_⟩
  intro t ufs provided
  have hdecode := Logged.decodeArgs_outputs (fun q hq => (hargs q hq).1.good) hcount houtputs
    provided.stringTables ufs t
  refine ⟨_, hdecode, ?_, ?_⟩
  · intro hne metadata
    have hpos : args.length ≠ 0 := fun hzero => hne (List.length_eq_zero_iff.mp hzero)
    -- the count is not taken for a call without arguments
    have hbyte : UInt8.ofNat args.length ≠ 0 := by
      intro hzero
      have hnat := congrArg UInt8.toNat hzero
      rw [UInt8.toNat_ofNat', Nat.mod_eq_of_lt (by omega)] at hnat
      exact hpos hnat
    exact formatBody_eq rfl hbyte hdecode
  · intro i q hq
    have htable : (provided.stringTables[i]?).toList = [q.1.impl.stringTable] := by
      show ((args.map fun q => q.1.impl.stringTable)[i]?).toList = _
      rw [List.getElem?_map, hq]
      rfl
    rw [Logged.getElem?_textsFrom, hq, Option.map_some, Nat.zero_add, htable, Option.some.injEq]
    exact (hargs q (List.mem_of_getElem? hq)).1.render_eq_iff

end Target

/-- An `Option` in an `Option` finds its names in the table of the outer one, which is the same. -/
theorem names_resolve_iff_option :
    letI : Target := x86_64
    letI : FloatDisplay := noFloats
    let p : Logged := .option (.option (.unsignedInt 1))
    let v : Option (Option (BitVec 8)) := some (some 5)
    ∃ out, p.impl.encodeTo v = .copy out ∧
      ∃ texts, decodeArgs
          { schemas := 1 :: p.impl.schema
            stringTables := [p.impl.stringTable]
            userFormatters := [] } out = some texts ∧
        texts[0]? = some "Some(Some(5))" := by
  let _ : Target := x86_64
  let _ : FloatDisplay := noFloats
  intro p v
  let q : Logged.Value := ⟨p, v⟩
  have hargs : ∀ q' ∈ [q], Shipped q'.1 ∧ q'.fits := by
    intro q' hq'
    rw [List.mem_singleton.mp hq']
    exact ⟨.option (.option (.unsignedInt (by decide))), trivial⟩
  obtain ⟨outputs, houtputs, hall⟩ := names_resolve_iff hargs (by decide)
  cases houtputs with
  | @cons _ out _ _ hout hrest =>
    cases hrest
    obtain ⟨texts, hdecode, -, htexts⟩ := hall [] []
    simp only [List.map_cons, List.map_nil, List.flatten_cons, List.flatten_nil,
      List.append_nil] at hdecode
    refine ⟨out, hout, texts, hdecode, ?_⟩
    have hsome : NameAt q.1.impl.stringTable 5 "Some" := ⟨Utf8.encode "None" ++ [0], [], rfl, rfl⟩
    refine (htexts 0 q rfl).mpr ?_
    intro name hname
    -- both levels give the same offset
    have hholes : q.template.holes = [(5, "Some"), (5, "Some")] := rfl
    rw [hholes] at hname
    obtain rfl : name = (5, "Some") := by simpa using hname
    exact hsome

/-- The `Ok` of a `Result` in an `Option` is shown as `None`. -/
theorem names_of_outer_table :
    letI : Target := x86_64
    letI : FloatDisplay := noFloats
    let p : Logged := .option (.result (.unsignedInt 1) (.unsignedInt 1))
    let v : Option (BitVec 8 ⊕ BitVec 8) := some (.inl 5)
    p.impl.encodeTo v = .copy [1, 0, 5] ∧
      decodeArgs
          { schemas := 1 :: p.impl.schema
            stringTables := [p.impl.stringTable]
            userFormatters := [] } [1, 0, 5] = some ["Some(None(5))"] ∧
      (p.template v).render declaredNames = "Some(Ok(5))" := by
  refine ⟨?_, by decide +kernel, by decide +kernel⟩
  show (SliceWriter.copy [1]).andThen ((SliceWriter.copy [0]).andThen (SliceWriter.copy [5])) = _
  rw [SliceWriter.copy_andThen, SliceWriter.copy_andThen]
  rfl

end RapidLog
