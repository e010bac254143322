import RapidLog.Arg.Grammar
import RapidLog.Arg.Integers
import RapidLog.Arg.Strings
import RapidLog.Lib.Template

/-!
# Writers and the texts that are shown for them

`Shows schema writer text` says that `writer` copies bytes which the interpreter, under `schema`,
shows as `text` and consumes whole, whatever follows them. The names of fields and variants come
from the string tables, so `text` is a function of a `Naming`.

There is one lemma for each scalar, and one for each compound in terms of its items:
`shows_seq`, `shows_tuple`, `shows_struct` and `shows_enum`.
-/

namespace RapidLog

open Slice SliceWriter

/-- What is shown for a name, given the offset that the schema has for it and the name that was
declared. -/
abbrev Naming := ℕ × String → String

/-- Every name as it was declared. -/
def declaredNames : Naming := Prod.snd

/-- The entries that the interpreter finds in the first string table. -/
def tableNames (tables : List (List UInt8)) : Naming := fun name => readStrFromTable 0 name.1 tables

/-- Texts one after the other with separators in front, the first one with that of the `i`-th. -/
def joinFrom : ℕ → List String → String
  | _, [] => ""
  | i, s :: ss => separator i ++ s ++ joinFrom (i + 1) ss

/-- Texts with commas between them. -/
def joined (texts : List String) : String := ", ".intercalate texts

theorem joined_cons (s : String) (ss : List String) :
    joined (s :: ss) = s ++ if ss = [] then "" else ", " ++ joined ss := by
  unfold joined
  by_cases hss : ss = []
  · rw [if_pos hss, hss, String.intercalate_singleton, String.append_empty]
  · rw [if_neg hss, String.intercalate_cons_of_ne_nil hss, String.append_assoc]

theorem joinFrom_succ (i : ℕ) (ss : List String) :
    joinFrom (i + 1) ss = if ss = [] then "" else ", " ++ joined ss := by
  induction ss generalizing i with
  | nil => rfl
  | cons s ss ih =>
    have hsep : separator (i + 1) = ", " := rfl
    rw [joinFrom, ih, hsep, if_neg (List.cons_ne_nil _ _), joined_cons, String.append_assoc]

/-- The first text has no separator. -/
theorem joinFrom_zero (ss : List String) : joinFrom 0 ss = joined ss := by
  cases ss with
  | nil => rfl
  | cons s ss =>
    have hsep : separator 0 = "" := rfl
    rw [joinFrom, joinFrom_succ, hsep, String.empty_append, joined_cons]

section Target

variable [Target] [FloatDisplay]

/-- `writer` copies bytes that are shown as `text` and consumed whole. -/
def Shows (schema : List UInt8) (writer : SliceWriter UInt8) (text : Naming → String) : Prop :=
  ∃ bytes, writer = .copy bytes ∧ ∀ tables ufs t,
    formatPayload schema (bytes ++ t) tables ufs = some (text (tableNames tables), bytes.length)

/-- An item of a compound: what stands before it, its schema, its writer and its text. -/
structure Item where
  label : Naming → String := fun _ => ""
  schema : List UInt8
  writer : SliceWriter UInt8
  text : Naming → String

/-- What is shown for an item. -/
def Item.shown (item : Item) (names : Naming) : String := item.label names ++ item.text names

/-- The interpreter finds the end of the item's schema, and shows the item's text. -/
structure Item.Good (item : Item) : Prop where
  delimited : SelfDelimiting item.schema
  shows : Shows item.schema item.writer item.text

omit [Target] [FloatDisplay] in
/-- The loop over the elements of a sequence is one over items of the same schema. -/
theorem formatElems_eq_formatEach (format : List UInt8 → List UInt8 → Option (String × ℕ))
    (s payload : List UInt8) (n i pos : ℕ) :
    formatElems (format s) payload n i pos =
      formatEach format payload (List.replicate n ("", s)) i pos := by
  induction n generalizing i pos with
  | zero => rfl
  | succ n ih => simp only [formatElems, List.replicate_succ, formatEach, ih, String.append_empty]

/-- Items that are written one after the other are shown one after the other. -/
theorem formatEach_items {items : List Item}
    (hitems : ∀ item ∈ items, Shows item.schema item.writer item.text) :
    ∃ bytes, SliceWriter.all (items.map Item.writer) = .copy bytes ∧
      ∀ tables ufs (pre t : List UInt8) (i : ℕ),
        formatEach (formatWith tables ufs) (pre ++ (bytes ++ t))
          (items.map fun item => (item.label (tableNames tables), item.schema)) i pre.length =
        some (joinFrom i (items.map fun item => item.shown (tableNames tables)),
          pre.length + bytes.length) := by
  induction items with
  | nil => exact ⟨[], rfl, fun tables ufs pre t i => rfl⟩
  | cons item items ih =>
    obtain ⟨bytes, hwriter, hformat⟩ := hitems item (by simp)
    obtain ⟨rest, hwriters, hrest⟩ := ih fun item hitem => hitems item (by simp [hitem])
    refine ⟨bytes ++ rest, ?_, ?_⟩
    · rw [List.map_cons, all_cons, hwriter, hwriters, copy_andThen]
    · intro tables ufs pre t i
      have hfrom : sliceFrom (pre ++ (bytes ++ rest ++ t)) pre.length =
          some (bytes ++ (rest ++ t)) := by
        rw [List.append_assoc]
        exact sliceFrom_append rfl
      -- the items that follow find the bytes of this one in front of theirs
      have hnext := hrest tables ufs (pre ++ bytes) t (i + 1)
      rw [List.append_assoc, ← List.append_assoc bytes, List.length_append] at hnext
      rw [List.map_cons, formatEach, hfrom]
      simp only [Option.bind_eq_bind, Option.bind_some, formatWith, hformat tables ufs _] at hnext ⊢
      rw [hnext]
      simp only [Option.bind_some, List.map_cons, joinFrom, Item.shown, String.append_assoc,
        List.length_append, Nat.add_assoc]
      rfl

/-! ### Scalars -/

theorem shows_signedInt {k : ℕ} (hk : 1 ≤ k ∧ k ≤ 5) (v : BitVec (8 * sizeForK k)) :
    Shows (Encode.signedInt k).schema ((Encode.signedInt k).encodeTo v)
      fun _ => toString (printedSigned (sizeForK k) v.toInt) := by
  have hsize : sizeForK k ≤ 16 := by
    have := sizeForK_cases k
    omega
  refine ⟨_, rfl, ?_⟩
  intro tables ufs t
  rw [formatPayload_signedInt hk, length_take_toNeBytes hsize]

theorem shows_unsignedInt {k : ℕ} (hk : 1 ≤ k ∧ k ≤ 5) (v : BitVec (8 * sizeForK k)) :
    Shows (Encode.unsignedInt k).schema ((Encode.unsignedInt k).encodeTo v)
      fun _ => toString (printedUnsigned (sizeForK k) v.toNat) := by
  have hsize : sizeForK k ≤ 16 := by
    have := sizeForK_cases k
    omega
  refine ⟨_, rfl, ?_⟩
  intro tables ufs t
  rw [formatPayload_unsignedInt hk, length_take_toNeBytes hsize]

/-- On a 64-bit target a `usize` is a `u64`. -/
theorem shows_usize (hwidth : Target.pointerWidth = .w64) (v : BitVec Encode.usizeBits) :
    Shows Encode.usize.schema (Encode.usize.encodeTo v)
      fun _ => toString (printedUnsigned 8 v.toNat) := by
  have hbits : Encode.usizeBits = 64 := by rw [Encode.usizeBits, hwidth]
  have hschema : Encode.usize.schema = (Encode.unsignedInt 4).schema :=
    if_neg (by rw [hbits]; decide)
  have hnat : (v.setWidth 64).toNat = v.toNat := BitVec.toNat_setWidth_of_le (by rw [hbits])
  rw [hschema, ← hnat]
  exact @shows_unsignedInt _ _ 4 (by decide) (v.setWidth 64)

/-- A scalar that is read from the first `bytes.length` bytes of the payload. -/
theorem shows_of_formatStep {op : UInt8} {bytes : List UInt8} {text : String}
    (h : ∀ format tables ufs t,
      formatStep format tables ufs [op] (bytes ++ t) = some (text, bytes.length)) :
    Shows [op] (.copy bytes) fun _ => text := by
  refine ⟨bytes, rfl, ?_⟩
  intro tables ufs t
  rw [formatPayload_eq, h]

theorem shows_f32 (v : BitVec 32) :
    Shows Encode.f32.schema (Encode.f32.encodeTo v) fun _ => FloatDisplay.f32 v.toNat := by
  have hop : category (withCode opFloat 3) = .float ∧ sizeCode (withCode opFloat 3) = 3 := by
    decide
  have hlen : (toNeBytes 4 v.toNat).length = sizeForK 3 := length_toNeBytes 4 _
  have hval : fromNeBytes (toNeBytes 4 v.toNat) = v.toNat := fromNeBytes_toNeBytes v.isLt
  apply shows_of_formatStep
  intro format tables ufs t
  have hlong : ¬ (toNeBytes 4 v.toNat ++ t).length < sizeForK 3 := by
    rw [List.length_append, hlen]
    omega
  have htake : (toNeBytes 4 v.toNat ++ t).take 4 = toNeBytes 4 v.toNat := List.take_left' hlen
  simp only [formatStep, hop.1, hop.2, if_neg hlong, htake, hval, hlen]

theorem shows_f64 (v : BitVec 64) :
    Shows Encode.f64.schema (Encode.f64.encodeTo v) fun _ => FloatDisplay.f64 v.toNat := by
  have hop : category (withCode opFloat 4) = .float ∧ sizeCode (withCode opFloat 4) = 4 := by
    decide
  have hlen : (toNeBytes 8 v.toNat).length = sizeForK 4 := length_toNeBytes 8 _
  have hval : fromNeBytes (toNeBytes 8 v.toNat) = v.toNat := fromNeBytes_toNeBytes v.isLt
  apply shows_of_formatStep
  intro format tables ufs t
  have hlong : ¬ (toNeBytes 8 v.toNat ++ t).length < sizeForK 4 := by
    rw [List.length_append, hlen]
    omega
  have htake : (toNeBytes 8 v.toNat ++ t).take 8 = toNeBytes 8 v.toNat := List.take_left' hlen
  simp only [formatStep, hop.1, hop.2, if_neg hlong, htake, hval, hlen]

theorem shows_bool (v : Bool) :
    Shows Encode.bool.schema (Encode.bool.encodeTo v) fun _ => toString v := by
  have hop : category opBool = .bool := by decide
  apply shows_of_formatStep
  intro format tables ufs t
  cases v <;> simp only [formatStep, hop] <;> rfl

theorem shows_char (v : Char) :
    Shows Encode.char.schema (Encode.char.encodeTo v) fun _ => v.toString := by
  have hop : category opChar = .char := by decide
  have hlen : (toNeBytes 4 v.toNat).length = 4 := length_toNeBytes 4 _
  have hlt : v.toNat < 256 ^ 4 := v.val.toNat_lt
  apply shows_of_formatStep
  intro format tables ufs t
  have hlong : ¬ (toNeBytes 4 v.toNat ++ t).length < 4 := by
    rw [List.length_append, hlen]
    omega
  have htake : (toNeBytes 4 v.toNat ++ t).take 4 = toNeBytes 4 v.toNat := List.take_left' hlen
  have hvalid : v.toNat.isValidChar := v.valid
  simp only [formatStep, hop, if_neg hlong, htake, fromNeBytes_toNeBytes hlt, if_pos hvalid,
    Char.ofNat_toNat, hlen]

theorem shows_unit : Shows Encode.unit.schema (Encode.unit.encodeTo ()) fun _ => "()" := by
  have hop : category opUnit = .unit := by decide
  apply shows_of_formatStep
  intro format tables ufs t
  simp only [formatStep, hop]
  rfl

/-- A text is cut, and shown when what is left of it is UTF-8. -/
theorem shows_text {e : Encode} {text : e.Self → String} (h : TextImpl e text) (v : e.Self) :
    Shows e.schema (e.encodeTo v) fun _ => (Utf8.decode (keptBytes (text v))).getD "" := by
  obtain ⟨hschema, hcopy⟩ := h.eq_str
  refine ⟨strBytes (text v), hcopy v, ?_⟩
  intro tables ufs t
  rw [hschema, formatPayload_str]

/-! ### Compounds -/

omit [Target] [FloatDisplay] in
/-- Items without labels are shown as their texts. -/
theorem map_shown {items : List Item} (hlabel : ∀ item ∈ items, item.label = fun _ => "")
    (names : Naming) :
    items.map (fun item => item.shown names) = items.map fun item => item.text names := by
  refine List.map_congr_left fun item hmem => ?_
  rw [Item.shown, hlabel item hmem, String.empty_append]

theorem shows_seq {op : UInt8} (hcat : category op = .seq) {elem : List UInt8} {items : List Item}
    (helem : SelfDelimiting elem)
    (hitems : ∀ item ∈ items, item.label = (fun _ => "") ∧ item.schema = elem)
    (hgood : ∀ item ∈ items, Shows item.schema item.writer item.text)
    (hread : Readable (sizeCode op) items.length) (hrange : items.length < usizeRange) :
    Shows (op :: elem)
      ((copy (toNeBytes (sizeForK (sizeCode op)) items.length)).andThen
        (.all (items.map Item.writer)))
      fun names => "[" ++ joined (items.map fun item => item.text names) ++ "]" := by
  obtain ⟨bytes, hwriters, hformat⟩ := formatEach_items hgood
  set count := toNeBytes (sizeForK (sizeCode op)) items.length with hcount
  have hlen : count.length = sizeForK (sizeCode op) := length_toNeBytes _ _
  refine ⟨count ++ bytes, by rw [hwriters, copy_andThen], ?_⟩
  intro tables ufs t
  have hitem : items.map (fun item => (item.label (tableNames tables), item.schema)) =
      List.replicate items.length ("", elem) := by
    rw [List.eq_replicate_iff, List.length_map]
    refine ⟨rfl, ?_⟩
    intro x hx
    obtain ⟨item, hmem, rfl⟩ := List.mem_map.mp hx
    rw [(hitems item hmem).1, (hitems item hmem).2]
  have hshown := map_shown (fun item hmem => (hitems item hmem).1) (tableNames tables)
  have hlong : ¬ (count ++ bytes ++ t).length < sizeForK (sizeCode op) := by
    rw [List.length_append, List.length_append, hlen]
    omega
  have hval : readUnsignedNe (count ++ bytes ++ t) (sizeCode op) = some items.length := by
    rw [List.append_assoc]
    exact readUnsignedNe_toNeBytes hread _
  have hloop := hformat tables ufs count t 0
  rw [hitem, hshown, joinFrom_zero, hlen, ← List.append_assoc] at hloop
  have hseq := @formatPayload_seq _ _ [] (count ++ bytes ++ t) tables ufs op hcat elem helem
  rw [List.append_nil] at hseq
  rw [hseq, if_neg hlong, hval, Option.bind_some, Nat.mod_eq_of_lt hrange,
    formatElems_eq_formatEach, hloop]
  simp only [Option.map_some, List.length_append, hlen]

theorem shows_tuple {head : List UInt8} {items : List Item}
    (hhead : Head .tuple items.length head)
    (hlabel : ∀ item ∈ items, item.label = fun _ => "") (hgood : ∀ item ∈ items, item.Good) :
    Shows (head ++ (items.map Item.schema).flatten) (.all (items.map Item.writer))
      fun names => "(" ++ joined (items.map fun item => item.text names) ++ ")" := by
  obtain ⟨bytes, hwriters, hformat⟩ := formatEach_items fun item hitem => (hgood item hitem).shows
  refine ⟨bytes, hwriters, ?_⟩
  intro tables ufs t
  have hitem : items.map (fun item => (item.label (tableNames tables), item.schema)) =
      (items.map Item.schema).map fun s => ("", s) := by
    rw [List.map_map]
    refine List.map_congr_left fun item hmem => ?_
    rw [hlabel item hmem]
    rfl
  have hshown := map_shown hlabel (tableNames tables)
  have hdelimited : ∀ s ∈ items.map Item.schema, SelfDelimiting s := by
    intro s hs
    obtain ⟨item, hmem, rfl⟩ := List.mem_map.mp hs
    exact (hgood item hmem).delimited
  have hloop := hformat tables ufs [] t 0
  rw [hitem, hshown, joinFrom_zero, List.nil_append, List.length_nil, Nat.zero_add] at hloop
  have htuple := @formatPayload_tuple _ _ head [] (bytes ++ t) tables ufs (items.map Item.schema)
    (by rwa [List.length_map]) hdelimited
  rw [List.append_nil] at htuple
  rw [htuple, hloop, Option.map_some]

/-- The fields of a struct, each with the offset of its name. -/
theorem shows_struct {head : List UInt8} {fields : List (ℕ × Item)}
    (hhead : Head .struct fields.length head) (hoff : ∀ f ∈ fields, f.1 < 256 ^ 2)
    (hlabel : ∀ f ∈ fields, ∀ tables,
      f.2.label (tableNames tables) = readStrFromTable 0 f.1 tables ++ ": ")
    (hgood : ∀ f ∈ fields, f.2.Good) :
    Shows (head ++ 0 :: itemBytes (named (fields.map fun f => (f.1, f.2.schema))))
      (.all (fields.map fun f => f.2.writer))
      fun names => "\x7b" ++ joined (fields.map fun f => f.2.shown names) ++ "\x7d" := by
  have hshows : ∀ item ∈ fields.map Prod.snd, Shows item.schema item.writer item.text := by
    intro item hitem
    obtain ⟨f, hf, rfl⟩ := List.mem_map.mp hitem
    exact (hgood f hf).shows
  obtain ⟨bytes, hwriters, hformat⟩ := formatEach_items hshows
  rw [List.map_map] at hwriters
  refine ⟨bytes, hwriters, ?_⟩
  intro tables ufs t
  have hdelimited : ∀ f ∈ fields.map (fun f => (f.1, f.2.schema)), SelfDelimiting f.2 := by
    intro x hx
    obtain ⟨f, hf, rfl⟩ := List.mem_map.mp hx
    exact (hgood f hf).delimited
  have hoffs : ∀ f ∈ fields.map (fun f => (f.1, f.2.schema)), f.1 < 256 ^ 2 := by
    intro x hx
    obtain ⟨f, hf, rfl⟩ := List.mem_map.mp hx
    exact hoff f hf
  have hitem : (fields.map Prod.snd).map
      (fun item => (item.label (tableNames tables), item.schema)) =
        (fields.map fun f => (f.1, f.2.schema)).map fun f =>
          (readStrFromTable (0 : UInt8).toNat f.1 tables ++ ": ", f.2) := by
    rw [List.map_map, List.map_map]
    refine List.map_congr_left fun f hf => ?_
    simp only [Function.comp_apply, hlabel f hf]
    rfl
  have hloop := hformat tables ufs [] t 0
  rw [hitem, joinFrom_zero, List.nil_append, List.length_nil, Nat.zero_add] at hloop
  have hstruct := @formatPayload_struct _ _ head [] (bytes ++ t) tables ufs 0
    (fields.map fun f => (f.1, f.2.schema)) (by rwa [List.length_map]) hoffs hdelimited
  rw [List.append_nil] at hstruct
  rw [hstruct, hloop, Option.map_some, List.map_map]
  rfl

/-- What is shown for a variant: its name, and its payload unless that is of type `()`. -/
def variantText (schema : List UInt8) (name text : String) : String :=
  if schema = [opUnit] then name else name ++ "(" ++ text ++ ")"

theorem formatPayload_unit (payload : List UInt8) (tables : List (List UInt8))
    (ufs : List UserFormatter) : formatPayload [opUnit] payload tables ufs = some ("()", 0) := by
  have hop : category opUnit = .unit := by decide
  rw [formatPayload_eq]
  simp only [formatStep, hop]

/-- The variant with index `i`, of which the name is at the offset `off`. -/
theorem shows_enum {head : List UInt8} {vdxK : UInt8} {variants : List (ℕ × List UInt8)}
    (hhead : Head .enum variants.length head) (hoff : ∀ v ∈ variants, v.1 < 256 ^ 2)
    (hvariants : ∀ v ∈ variants, SelfDelimiting v.2 ∧ v.2 ≠ []) {i off : ℕ}
    {schema : List UInt8} (hget : variants[i]? = some (off, schema))
    (hread : Readable vdxK.toNat i) (hrange : i < usizeRange) (name : String)
    {writer : SliceWriter UInt8} {text : Naming → String} (hpayload : Shows schema writer text) :
    Shows (head ++ vdxK :: 0 :: itemBytes (named variants))
      ((copy (toNeBytes (sizeForK vdxK.toNat) i)).andThen writer)
      fun names => variantText schema (names (off, name)) (text names) := by
  obtain ⟨bytes, hwriter, hformat⟩ := hpayload
  set disc := toNeBytes (sizeForK vdxK.toNat) i with hdisc
  have hlen : disc.length = sizeForK vdxK.toNat := length_toNeBytes _ _
  refine ⟨disc ++ bytes, by rw [hwriter, copy_andThen], ?_⟩
  intro tables ufs t
  have hlong : ¬ (disc ++ bytes ++ t).length < sizeForK vdxK.toNat := by
    rw [List.length_append, List.length_append, hlen]
    omega
  have hval : readUnsignedNe (disc ++ bytes ++ t) vdxK.toNat = some i := by
    rw [List.append_assoc]
    exact readUnsignedNe_toNeBytes hread _
  have hfrom : sliceFrom (disc ++ bytes ++ t) (sizeForK vdxK.toNat) = some (bytes ++ t) := by
    rw [List.append_assoc]
    exact sliceFrom_append hlen
  have henum := @formatPayload_enum _ _ head [] (disc ++ bytes ++ t) tables ufs vdxK 0 variants
    hhead hoff hvariants
  rw [List.append_nil] at henum
  rw [henum, if_neg hlong, hval, Option.bind_some, Nat.mod_eq_of_lt hrange, hget]
  simp only [formatVariant, variantText]
  by_cases hunit : schema = [opUnit]
  · -- nothing is read for a payload of type `()`, and nothing was written for it
    have hnil : bytes.length = 0 := by
      have hunit' := hformat tables ufs t
      rw [hunit, formatPayload_unit] at hunit'
      injection hunit' with hunit'
      exact (Prod.mk.inj hunit').2.symm
    rw [if_pos hunit, if_pos hunit, List.length_append, hnil, hlen]
    rfl
  · rw [if_neg hunit, if_neg hunit, hfrom, Option.bind_some, hformat tables ufs t,
      Option.map_some, List.length_append, hlen]
    rfl

end Target

end RapidLog
