import RapidLog.Arg.Names
import RapidLog.Derive.RoundTrip
import RapidLog.Derive.Schema

/-!
# Variants with several fields

`README.md` shows a variant with fields as its name and its fields in one pair of parentheses, as in
`Running(task: render)`. The interpreter writes a pair of parentheses around what it shows for the
schema of the fields, and for several fields this schema is a tuple or a struct, which is shown in
delimiters of its own. So no value of such a variant is ever shown as the documentation says
(`not_documented`).
-/

namespace RapidLog

open Logged Slice SliceWriter

section Target

variable [Target] [FloatDisplay]

/-- With these string tables and formatters the value is shown as `text`, and what `encode_to`
writes for it is taken, whatever follows. -/
def ShownWith (tables : List (List UInt8)) (ufs : List UserFormatter)
    (q : (e : Encode) × e.Self) (text : String) : Prop :=
  ∃ bytes, q.1.encodeTo q.2 = .copy bytes ∧ ∀ t,
    formatPayload q.1.schema (bytes ++ t) tables ufs = some (text, bytes.length)

/-- The documented text of a variant and the texts of its fields. -/
def Fields.documented (name : String) : Fields → List String → String
  | .unit, _ => name
  | .unnamed _, texts => name ++ "(" ++ joined texts ++ ")"
  | .named fields, texts =>
    let items := List.zipWith (fun field text => field ++ ": " ++ text) (fields.map Prod.fst) texts
    name ++ "(" ++ joined items ++ ")"

/-- A tuple variant with two fields at least, or a struct variant with one. -/
def Fields.Multi : Fields → Prop
  | .unit => False
  | .unnamed tys => 2 ≤ tys.length
  | .named fields => 1 ≤ fields.length

/-- An enum in whose schema the interpreter finds every variant. -/
structure ReadableEnum (variants : List (String × Fields)) : Prop where
  count : CountOk variants.length
  counts : ∀ v ∈ variants, v.2.CountsRead
  names : ∀ v ∈ variants, ∀ name ∈ v.1 :: v.2.names, IsIdent name
  schemas : ∀ v ∈ variants, ∀ ty ∈ v.2.tys, WellFormed (fun _ => True) ty.schema

/-! ### The chosen variant -/

section Choice

omit [Target] [FloatDisplay]

theorem Encode.Tuple.map_fst {es : List Encode} (v : Encode.Tuple es) :
    (v.map Sigma.mk).map Sigma.fst = es := by
  induction es with
  | nil => rfl
  | cons e es ih => exact congrArg (e :: ·) (ih v.2)

theorem Encode.Tuple.map_eq {β : Type*} (f : (e : Encode) → e.Self → β) {es : List Encode}
    (v : Encode.Tuple es) : v.map f = (v.map Sigma.mk).map fun q => f q.1 q.2 := by
  induction es with
  | nil => rfl
  | cons e es ih => exact congrArg (_ :: ·) (ih v.2)

namespace Choice

variable {variants : List (String × Fields)}

theorem map_fst (c : Choice variants) : (c.map Sigma.mk).map Sigma.fst = c.variant.2.tys := by
  induction variants with
  | nil => exact c.elim
  | cons v variants ih =>
    cases c with
    | inl x => exact Encode.Tuple.map_fst x
    | inr c => exact ih c

theorem map_eq {β : Type*} (f : (e : Encode) → e.Self → β) (c : Choice variants) :
    c.map f = (c.map Sigma.mk).map fun q => f q.1 q.2 := by
  induction variants with
  | nil => exact c.elim
  | cons v variants ih =>
    cases c with
    | inl x => exact Encode.Tuple.map_eq f x
    | inr c => exact ih c

theorem variant_mem (c : Choice variants) : c.variant ∈ variants := by
  induction variants with
  | nil => exact c.elim
  | cons v variants ih =>
    cases c with
    | inl x => exact List.mem_cons_self
    | inr c => exact List.mem_cons_of_mem _ (ih c)

/-- Where the variant stands in the schema. -/
theorem getElem?_variantPositions (c : Choice variants) (stringTable : List UInt8) :
    ∃ n table', (Logged.variantPositions variants stringTable)[c.index]? =
      some (n, (variantSubSchema c.variant.2 table').1) := by
  induction variants generalizing stringTable with
  | nil => exact c.elim
  | cons v variants ih =>
    cases c with
    | inl x => exact ⟨_, _, rfl⟩
    | inr c => exact ih c _

end Choice

end Choice

/-! ### What the interpreter finds -/

omit [FloatDisplay] in
theorem wellFormed_positions {variants : List (String × Fields)}
    (h : ∀ v ∈ variants, v.2.CountsRead ∧ ∀ ty ∈ v.2.tys, WellFormed (fun _ => True) ty.schema)
    (stringTable : List UInt8) : ∀ x ∈ Logged.variantPositions variants stringTable,
      WellFormed (fun _ => True) x.2 := by
  induction variants generalizing stringTable with
  | nil => exact fun x hx => absurd hx List.not_mem_nil
  | cons v variants ih =>
    obtain ⟨hv, hvs⟩ := List.forall_mem_cons.mp h
    intro x hx
    rcases List.mem_cons.mp hx with rfl | hx
    · exact ((v.2.sentence_iff _).mpr hv.1).wellFormed hv.2
    · exact ih hvs _ x hx

/-- The interpreter finds the chosen variant and puts what it shows for the schema of its fields
between parentheses. -/
theorem formatPayload_choice {variants : List (String × Fields)} (hok : ReadableEnum variants)
    (c : Choice variants) {n : ℕ} {sub : List UInt8}
    (hget : (Logged.variantPositions variants [])[c.index]? = some (n, sub)) (hsub : sub ≠ [opUnit])
    (payload : List UInt8) (tables : List (List UInt8)) (ufs : List UserFormatter) :
    formatPayload (Encode.deriveEnum variants).schema
        (leBytes (discSize variants.length) c.index ++ payload) tables ufs =
      (formatPayload sub payload tables ufs).map fun (text, used) =>
        (readStrFromTable 0 (offsetOf n) tables ++ "(" ++ text ++ ")",
          sizeForK (vdxK variants.length).toNat + used) := by
  set positions := Logged.variantPositions variants [] with hpositions
  set items := positions.map fun item => (offsetOf item.1, item.2) with hitems
  have hwf := wellFormed_positions (fun v hv => ⟨hok.counts v hv, hok.schemas v hv⟩) []
  have hhead : Head .enum items.length (countHead opEnum variants.length) := by
    rw [hitems, List.length_map, Logged.length_variantPositions]
    exact head_countHead (by simp) hok.count
  have hschema : (Encode.deriveEnum variants).schema = countHead opEnum variants.length ++
      vdxK variants.length :: 0 :: (itemBytes (named items) ++ []) := by
    rw [List.append_nil, hitems, ← labelled_eq_named]
    exact enumSchema_eq variants []
  have hitem : items[c.index]? = some (offsetOf n, sub) := by
    rw [hitems, List.getElem?_map, hget, Option.map_some]
  -- the discriminant has the width that the schema gives it, and no index is out of range
  have hindex : Choice.index _ c < variants.length := Logged.index_lt c
  obtain ⟨hread, hdisc⟩ := Logged.discriminant hok.count hindex
  have hrange : Choice.index _ c < usizeRange := by
    have hle := usizeRange_le
    have hsmall : variants.length < 256 ^ 2 := by
      rcases hok.count.2 with h | ⟨-, h⟩ <;> omega
    omega
  have hlen : (leBytes (discSize variants.length) c.index).length =
      sizeForK (vdxK variants.length).toNat := by rw [hdisc, length_toNeBytes]
  have henum := @formatPayload_enum _ _ (countHead opEnum variants.length) []
    (leBytes (discSize variants.length) c.index ++ payload) tables ufs (vdxK variants.length) 0
    items hhead (forall_offsets fun _ _ => offsetOf_lt _)
    (forall_offsets fun v hv => ⟨(hwf v hv).selfDelimiting, (hwf v hv).ne_nil⟩)
  have hlong : ¬ (leBytes (discSize variants.length) c.index ++ payload).length <
      sizeForK (vdxK variants.length).toNat := by
    rw [List.length_append, hlen]
    omega
  have hval : readUnsignedNe (leBytes (discSize variants.length) c.index ++ payload)
      (vdxK variants.length).toNat = some c.index := by
    rw [hdisc]
    exact readUnsignedNe_toNeBytes hread _
  -- the payload is long enough for the discriminant, which chooses the item of the variant
  rw [hschema, henum, if_neg hlong, hval, Option.bind_some, Nat.mod_eq_of_lt hrange, hitem]
  simp only [formatVariant, if_neg hsub, sliceFrom_append hlen, Option.bind_some]
  rfl

/-- A tuple shows its first field behind its own parenthesis. -/
theorem formatPayload_first {ty : Encode} {tys : List Encode}
    (hcount : CountReads (ty :: tys).length)
    (hwf : ∀ e ∈ ty :: tys, WellFormed (fun _ => True) e.schema) {tables : List (List UInt8)}
    {ufs : List UserFormatter} {payload : List UInt8} {text shown : String} {m used : ℕ}
    (hfirst : formatPayload ty.schema payload tables ufs = some (text, m))
    (h : formatPayload (structSchemaUnnamed (ty :: tys)) payload tables ufs =
      some (shown, used)) : ∃ rest, shown = "(" ++ (text ++ rest) := by
  have hhead : Head .tuple ((ty :: tys).map Encode.schema).length
      (countHead opTuple (ty :: tys).length) := by
    rw [List.length_map]
    exact (head_countHead_iff (by simp)).mpr hcount
  have htuple := @formatPayload_tuple _ _ _ [] payload tables ufs _ hhead (by
    intro s hs
    obtain ⟨e, he, rfl⟩ := List.mem_map.mp hs
    exact (hwf e he).selfDelimiting)
  rw [List.append_nil] at htuple
  have hzero : sliceFrom payload 0 = some payload := by simp [sliceFrom]
  rw [structSchemaUnnamed, htuple] at h
  simp only [List.map_cons, formatEach, hzero, Option.bind_eq_bind, Option.bind_some, formatWith,
    hfirst, Option.map_eq_some_iff, Option.bind_eq_some_iff] at h
  -- no separator stands before the first item
  obtain ⟨_, ⟨⟨rest, pos⟩, -, hitems⟩, h⟩ := h
  cases hitems
  cases h
  exact ⟨rest ++ ")", by simp [separator, String.append_assoc]⟩

theorem formatPayload_brace {fields : List (String × Encode)} (hcount : CountReads fields.length)
    (hwf : ∀ f ∈ fields, WellFormed (fun _ => True) f.2.schema) {stringTable : List UInt8}
    {tables : List (List UInt8)} {ufs : List UserFormatter} {payload : List UInt8}
    {shown : String} {used : ℕ}
    (h : formatPayload (structSchemaNamed fields stringTable).1 payload tables ufs =
      some (shown, used)) : ∃ rest, shown = "\x7b" ++ rest := by
  have hhead : Head .struct ((Logged.fieldPositions fields stringTable).map fun item =>
      (offsetOf item.1, item.2)).length (countHead opStruct fields.length) := by
    rw [List.length_map, Logged.length_fieldPositions]
    exact (head_countHead_iff (by simp)).mpr hcount
  have hstruct := @formatPayload_struct _ _ _ [] payload tables ufs 0 _ hhead
    (forall_offsets fun _ _ => offsetOf_lt _) (forall_offsets fun x hx => by
      obtain ⟨f, hf, heq⟩ := Logged.schema_of_mem_fieldPositions hx
      rw [heq]
      exact (hwf f hf).selfDelimiting)
  rw [List.append_nil, ← labelled_eq_named, ← structSchemaNamed_eq] at hstruct
  rw [hstruct, Option.map_eq_some_iff] at h
  obtain ⟨⟨text, pos⟩, -, h⟩ := h
  cases h
  exact ⟨text ++ "\x7d", String.append_assoc ..⟩

/-! ### The texts -/

section Texts

omit [Target] [FloatDisplay]

/-- A text is not its own continuation behind another character. -/
theorem cons_append_ne {α : Type*} {a b : α} (hab : a ≠ b) (w xs ys : List α) :
    a :: (w ++ xs) ≠ w ++ b :: ys := by
  induction w with
  | nil => exact fun h => hab (List.cons.inj h).1
  | cons c w ih =>
    intro h
    obtain ⟨rfl, htail⟩ := List.cons.inj h
    exact ih htail

/-- What stands behind the first occurrence of an element. -/
theorem eq_of_append_cons {α : Type*} {a : α} {xs ys us vs : List α} (hxs : a ∉ xs) (hys : a ∉ ys)
    (h : xs ++ a :: us = ys ++ a :: vs) : us = vs := by
  induction xs generalizing ys with
  | nil =>
    cases ys with
    | nil => exact (List.cons.inj h).2
    | cons y ys => exact absurd ((List.cons.inj h).1 ▸ List.mem_cons_self) hys
  | cons x xs ih =>
    rw [List.mem_cons, not_or] at hxs
    cases ys with
    | nil => exact absurd (List.cons.inj h).1.symm hxs.1
    | cons y ys =>
      exact ih hxs.2 (fun hmem => hys (List.mem_cons_of_mem _ hmem)) (List.cons.inj h).2

/-- Behind names without parentheses the texts in the parentheses are the same. -/
theorem inner_eq {s s' u u' : String} (hs : '(' ∉ s.toList) (hs' : '(' ∉ s'.toList)
    (h : s ++ "(" ++ u ++ ")" = s' ++ "(" ++ u' ++ ")") : u = u' := by
  have hlist := congrArg String.toList h
  have hparen : "(".toList = ['('] := rfl
  simp only [String.toList_append, List.append_assoc, hparen, List.cons_append,
    List.nil_append] at hlist
  exact String.toList_inj.mp (List.append_cancel_right (eq_of_append_cons hs hs' hlist))

/-- The first field is not behind a parenthesis of its own. -/
theorem paren_append_ne (first second rest : String) (texts : List String) :
    "(" ++ (first ++ rest) ≠ joined (first :: second :: texts) := by
  intro h
  have hlist := congrArg String.toList h
  rw [joined_cons, if_neg (List.cons_ne_nil _ _)] at hlist
  have hparen : "(".toList = ['('] := rfl
  have hcomma : ", ".toList = [',', ' '] := rfl
  simp only [String.toList_append, hparen, hcomma, List.cons_append, List.nil_append] at hlist
  have hne : '(' ≠ ',' := by decide
  exact cons_append_ne hne _ _ _ hlist

/-- The first field is not behind a brace. -/
theorem brace_append_ne {name : String} (hname : IsIdent name) (first rest : String)
    (items : List String) : "\x7b" ++ rest ≠ joined ((name ++ ": " ++ first) :: items) := by
  intro h
  have hlist := congrArg String.toList h
  rw [joined_cons] at hlist
  simp only [String.toList_append, List.append_assoc] at hlist
  cases hchars : name.toList with
  | nil => exact hname.ne_empty (String.toList_inj.mp hchars)
  | cons c cs =>
    rw [hchars] at hlist
    have hc : '\x7b' = c := (List.cons.inj hlist).1
    exact hname.clean c (by rw [hchars]; exact List.mem_cons_self) (hc ▸ by decide)

end Texts

/-! ### The documented text -/

/-- What is written for fields that are shown, and that the first of them is shown from there. -/
theorem payload_of_shown {tables : List (List UInt8)} {ufs : List UserFormatter}
    {qs : List ((e : Encode) × e.Self)} {texts : List String}
    (h : List.Forall₂ (ShownWith tables ufs) qs texts) :
    ∃ payload, SliceWriter.all (qs.map fun q => q.1.encodeTo q.2) = .copy payload ∧
      ∀ q text, qs.head? = some q → texts.head? = some text → ∀ t, ∃ m,
        formatPayload q.1.schema (payload ++ t) tables ufs = some (text, m) := by
  induction h with
  | nil => exact ⟨[], rfl, fun q text hq => by cases hq⟩
  | @cons q text qs texts hq hrest ih =>
    -- what follows the first field is arbitrary for it
    obtain ⟨bytes, hbytes, hformat⟩ := hq
    obtain ⟨payload, hpayload, -⟩ := ih
    refine ⟨bytes ++ payload, by rw [List.map_cons, all_cons, hbytes, hpayload, copy_andThen], ?_⟩
    intro q' text' hq' htext' t
    cases hq'
    cases htext'
    exact ⟨bytes.length, by rw [List.append_assoc]; exact hformat _⟩

omit [Target] [FloatDisplay] in
theorem variantSubSchema_ne_unit {fields : Fields} (h : fields.Multi) (stringTable : List UInt8) :
    (variantSubSchema fields stringTable).1 ≠ [opUnit] := by
  cases fields with
  | unit => exact h.elim
  | named fields => exact countHead_append_ne (.inr rfl) _ _
  | unnamed tys =>
    match tys, h with
    | ty :: ty' :: tys, _ => exact countHead_append_ne (.inl rfl) (ty :: ty' :: tys).length _

/-- What the interpreter puts between the parentheses of a variant with several fields. -/
theorem inner_ne_documented {name : String} {fields : Fields} (hmulti : fields.Multi)
    (hcount : fields.CountsRead) (hnames : ∀ f ∈ fields.names, IsIdent f)
    (hwf : ∀ ty ∈ fields.tys, WellFormed (fun _ => True) ty.schema)
    {tables : List (List UInt8)} {ufs : List UserFormatter} {qs : List ((e : Encode) × e.Self)}
    {texts : List String} (hqs : qs.map Sigma.fst = fields.tys) (hlen : qs.length = texts.length)
    {payload : List UInt8}
    (hfirst : ∀ q text, qs.head? = some q → texts.head? = some text →
      ∃ m, formatPayload q.1.schema payload tables ufs = some (text, m))
    {stringTable : List UInt8} {inner : String} {used : ℕ}
    (h : formatPayload (variantSubSchema fields stringTable).1 payload tables ufs =
      some (inner, used)) {found : String} (hname : '(' ∉ name.toList)
    (hfound : '(' ∉ found.toList) :
    found ++ "(" ++ inner ++ ")" ≠ fields.documented name texts := by
  have hlen' : qs.length = fields.tys.length := by rw [← hqs, List.length_map]
  intro heq
  cases fields with
  | unit => exact hmulti.elim
  | unnamed tys =>
    -- the interpreter opens a second parenthesis for the tuple
    have htwo : 2 ≤ qs.length := hlen'.ge.trans' hmulti
    obtain rfl : inner = joined texts := inner_eq hfound hname heq
    rcases qs with _ | ⟨q, _ | ⟨q', qs⟩⟩
    · exact absurd htwo (by simp)
    · exact absurd htwo (by simp)
    rcases texts with _ | ⟨text, _ | ⟨text', texts⟩⟩
    · exact absurd hlen (by simp)
    · exact absurd hlen (by simp)
    obtain rfl : q.1 :: q'.1 :: qs.map Sigma.fst = tys := hqs
    obtain ⟨m, hq⟩ := hfirst q text rfl rfl
    obtain ⟨rest, hrest⟩ := formatPayload_first hcount hwf hq h
    exact paren_append_ne _ _ _ _ hrest.symm
  | named fields =>
    -- the interpreter opens a brace where the documentation has the name of the first field
    have hone : 1 ≤ texts.length := by
      rw [← hlen, hlen', Fields.tys, List.length_map]
      exact hmulti
    rcases fields with _ | ⟨f, fields⟩
    · exact absurd hmulti (Nat.not_lt_zero 0)
    rcases texts with _ | ⟨text, texts⟩
    · exact absurd hone (Nat.not_lt_zero 0)
    obtain ⟨rest, hrest⟩ := formatPayload_brace hcount
      (fun f' hf' => hwf f'.2 (List.mem_map_of_mem hf')) h
    have hinner := inner_eq hfound hname heq
    rw [hrest] at hinner
    exact brace_append_ne (hnames f.1 List.mem_cons_self) text rest _ hinner

/-- A value of a variant with several fields is not shown as the documentation says, whatever
follows it. -/
theorem not_documented {variants : List (String × Fields)} (hok : ReadableEnum variants)
    {c : Choice variants} (hmulti : c.variant.2.Multi) {ufs : List UserFormatter}
    {texts : List String}
    (htexts : List.Forall₂ (ShownWith [(Encode.deriveEnum variants).stringTable] ufs)
      (c.map Sigma.mk) texts) :
    ∃ bytes, (Encode.deriveEnum variants).encodeTo c = .copy bytes ∧
      ∀ (t : List UInt8) (used : ℕ),
        formatPayload (Encode.deriveEnum variants).schema (bytes ++ t)
            [(Encode.deriveEnum variants).stringTable] ufs ≠
          some (c.variant.2.documented c.variant.1 texts, used) := by
  obtain ⟨payload, hpayload, hfirst⟩ := payload_of_shown htexts
  have hwriter : (Encode.deriveEnum variants).encodeTo c =
      .copy (leBytes (discSize variants.length) c.index ++ payload) := by
    rw [← Choice.map_eq] at hpayload
    show (copy _).andThen (SliceWriter.all (c.map Encode.encodeTo)) = _
    rw [hpayload, copy_andThen]
  refine ⟨_, hwriter, fun t used h => ?_⟩
  have hmem := c.variant_mem
  have hnames := hok.names _ hmem
  have htable := tableOk_variantSchemas hok.names .nil
  obtain ⟨n, table', hget⟩ := c.getElem?_variantPositions []
  have hsub := variantSubSchema_ne_unit hmulti table'
  rw [List.append_assoc, formatPayload_choice hok c hget hsub, Option.map_eq_some_iff] at h
  obtain ⟨⟨inner, m⟩, hinner, heq⟩ := h
  refine inner_ne_documented hmulti (hok.counts _ hmem)
    (fun f hf => hnames f (List.mem_cons_of_mem _ hf)) (hok.schemas _ hmem) c.map_fst
    htexts.length_eq (fun q text hq htext => hfirst q text hq htext t) hinner ?_ ?_
    (Prod.mk.inj heq).1
  · exact fun hparen => (hnames _ List.mem_cons_self).clean _ hparen (by decide)
  · exact fun hparen => readStrFromTable_clean htable _ _ hparen (by decide)

end Target

/-- A tuple variant with two booleans, before a unit variant. -/
theorem not_documented_pair :
    letI : Target := x86_64
    letI : FloatDisplay := noFloats
    let variants : List (String × Fields) := [("Pair", .unnamed [.bool, .bool]), ("Idle", .unit)]
    let e := Encode.deriveEnum variants
    ∃ bytes, e.encodeTo (.inl (true, false, ()) : Choice variants) = .copy bytes ∧
      ∀ (t : List UInt8) (used : ℕ), formatPayload e.schema (bytes ++ t) [e.stringTable] [] ≠
        some ("Pair(true, false)", used) := by
  let _ : Target := x86_64
  let _ : FloatDisplay := noFloats
  intro variants e
  have hbool : WellFormed (fun _ => True) Encode.bool.schema :=
    @WellFormed.scalar _ _ opBool trivial trivial
  have hident : ∀ name ∈ ["Idle", "Pair"], IsIdent name := by
    intro name hname
    simp only [List.mem_cons, List.not_mem_nil, or_false] at hname
    rcases hname with rfl | rfl <;> exact ⟨by decide, by simp, by simp [delimiters]⟩
  have hok : ReadableEnum variants := by
    refine ⟨⟨by decide, .inl (by decide)⟩, ?_, ?_, ?_⟩
    · simp [variants, Fields.CountsRead, CountReads]
    · simpa [variants, Fields.names, and_comm] using hident
    · simp [variants, Fields.tys, hbool]
  have hshown : ∀ b : Bool, ShownWith [e.stringTable] [] ⟨.bool, b⟩ (toString b) := by
    intro b
    obtain ⟨bytes, hbytes, hformat⟩ := shows_bool b
    exact ⟨bytes, hbytes, hformat _ _⟩
  exact @not_documented _ _ variants hok (.inl (true, false, ())) (le_refl 2) [] _
    (.cons (hshown true) (.cons (hshown false) .nil))

/-- The example of the documentation, with the unit variant at the end. -/
theorem running_not_documented :
    letI : Target := x86_64
    letI : FloatDisplay := noFloats
    let variants : List (String × Fields) :=
      [("Running", .named [("task", .str)]), ("Done", .unnamed [.unsignedInt 3]), ("Idle", .unit)]
    let e := Encode.deriveEnum variants
    let running : Choice variants := .inl ("render", ())
    let bytes : List UInt8 := [0, 6, 0, 114, 101, 110, 100, 101, 114]
    e.encodeTo running = .copy bytes ∧
      running.variant.2.documented running.variant.1 ["render"] = "Running(task: render)" ∧
      formatPayload e.schema bytes [e.stringTable] [] =
        some ("Running(\x7btask: render\x7d)", 9) := by
  refine ⟨?_, by decide +kernel, by decide +kernel⟩
  show (copy [0]).andThen (.all [(copy _).andThen (copy _)]) = _
  rw [all_cons, all_nil, copy_andThen, copy_andThen, copy_andThen]
  refine congrArg copy ?_
  decide +kernel

end RapidLog
