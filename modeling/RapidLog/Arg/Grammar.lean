import RapidLog.Arg.Body

/-!
# The grammar of schemas

`WellFormed allowed s` says that `s` is one schema of the bytecode: a scalar, or a compound whose
sub-schemas are schemas again. `allowed` restricts the opcodes of scalars, sequences and
user-defined types, whose low four bits the interpreter uses as a size code.

A well-formed schema ends where `measureSchema` says, whatever follows it
(`WellFormed.selfDelimiting`). The interpreter therefore walks over the sub-schemas of a compound
one after the other: `formatPayload_tuple`, `formatPayload_struct` and `formatPayload_enum` say so
in terms of the list of sub-schemas, without positions in the schema.
-/

namespace RapidLog

open Slice

/-- A type whose schema is one opcode. -/
def Category.IsScalar : Category → Prop
  | .unit | .signedInt | .unsignedInt | .float | .str | .char | .bool => True
  | _ => False

/-- The bytes of items one after the other, each a label before a schema. -/
def itemBytes (items : List (List UInt8 × List UInt8)) : List UInt8 :=
  items.flatMap fun item => item.1 ++ item.2

@[simp]
theorem itemBytes_nil : itemBytes [] = [] := rfl

@[simp]
theorem itemBytes_cons (label s : List UInt8) (items : List (List UInt8 × List UInt8)) :
    itemBytes ((label, s) :: items) = label ++ (s ++ itemBytes items) := by
  simp [itemBytes]

section Target

variable [Target]

/-- The opcode of a compound with `n` items, and the count behind it when it is not inline. -/
inductive Head (cat : Category) : ℕ → List UInt8 → Prop
  | ofCode {op : UInt8} (hcat : category op = cat) (hk : 0 < sizeCode op) :
      Head cat (sizeCode op) [op]
  | extended {op : UInt8} {n : ℕ} (hcat : category op = cat) (hk : sizeCode op = 0)
      (hn : n < 256 ^ 2) : Head cat n (op :: toNeBytes 2 n)

/-- The items of a struct or of an enum, each labelled with the offset of its name. -/
def named (items : List (ℕ × List UInt8)) : List (List UInt8 × List UInt8) :=
  items.map fun item => (toNeBytes 2 item.1, item.2)

/-- One schema of the bytecode. -/
inductive WellFormed (allowed : UInt8 → Prop) : List UInt8 → Prop
  | scalar {op : UInt8} (hcat : (category op).IsScalar) (hop : allowed op) :
      WellFormed allowed [op]
  | userDefined {op : UInt8} (idx : UInt8) (hcat : category op = .userDefined)
      (hop : allowed op) : WellFormed allowed [op, idx]
  | seq {op : UInt8} {elem : List UInt8} (hcat : category op = .seq) (hop : allowed op)
      (helem : WellFormed allowed elem) : WellFormed allowed (op :: elem)
  | tuple {head : List UInt8} {items : List (List UInt8)} (hhead : Head .tuple items.length head)
      (hitems : ∀ s ∈ items, WellFormed allowed s) :
      WellFormed allowed (head ++ items.flatten)
  | struct {head : List UInt8} (stIdx : UInt8) {fields : List (ℕ × List UInt8)}
      (hhead : Head .struct fields.length head) (hoff : ∀ f ∈ fields, f.1 < 256 ^ 2)
      (hfields : ∀ f ∈ fields, WellFormed allowed f.2) :
      WellFormed allowed (head ++ stIdx :: itemBytes (named fields))
  | enum {head : List UInt8} (vdxK stIdx : UInt8) {variants : List (ℕ × List UInt8)}
      (hhead : Head .enum variants.length head) (hoff : ∀ v ∈ variants, v.1 < 256 ^ 2)
      (hvariants : ∀ v ∈ variants, WellFormed allowed v.2) :
      WellFormed allowed (head ++ vdxK :: stIdx :: itemBytes (named variants))

/-- `measure_schema` finds the end of `s` whatever follows it. -/
def SelfDelimiting (s : List UInt8) : Prop :=
  ∀ rest, measureSchema (s ++ rest) = some s.length

/-! ### Measuring -/

/-- A two-byte number that stands behind `pre`. -/
theorem readU16_append {n : ℕ} (hn : n < 256 ^ 2) (pre rest : List UInt8) :
    readU16 (pre ++ (toNeBytes 2 n ++ rest)) pre.length = some n := by
  obtain ⟨lo, hi, hbytes⟩ : ∃ lo hi, toNeBytes 2 n = [lo, hi] :=
    List.length_eq_two.mp (length_toNeBytes 2 n)
  have hread : fromNeBytes [lo, hi] = n := hbytes ▸ fromNeBytes_toNeBytes hn
  simp [readU16, hbytes, hread]

namespace Head

variable {cat : Category} {n : ℕ} {head : List UInt8}

/-- The head begins with an opcode of its category, and the interpreter finds the count and the end
of the head. -/
theorem cons (h : Head cat n head) :
    ∃ op tail, head = op :: tail ∧ category op = cat ∧
      ∀ rest, itemCount (head ++ rest) (sizeCode op) = some (n, head.length) := by
  cases h with
  | @ofCode op hcat hk => exact ⟨op, [], rfl, hcat, fun rest => if_neg hk.ne'⟩
  | @extended op n hcat hk hn =>
    refine ⟨op, _, rfl, hcat, fun rest => ?_⟩
    have hread := readU16_append hn [op] rest
    simp only [List.cons_append, List.nil_append, List.length_singleton] at hread
    rw [itemCount, if_pos hk, List.cons_append, hread]
    simp

end Head

/-- How many bytes stand between the head of a compound and its items. -/
def Category.extra : Category → ℕ
  | .struct => 1
  | .enum => 2
  | _ => 0

/-- How many bytes label each item of a compound. -/
def Category.skip : Category → ℕ
  | .struct | .enum => 2
  | _ => 0

theorem measureSchema_compound {op : UInt8} {cat : Category} (hcat : category op = cat)
    (hc : cat = .tuple ∨ cat = .struct ∨ cat = .enum) (tail : List UInt8) :
    measureSchema (op :: tail) =
      (itemCount (op :: tail) (sizeCode op)).bind fun (n, start) =>
        measureItems measureSchema (op :: tail) cat.skip n (start + cat.extra) := by
  rw [measureSchema_eq, measureStep, itemCount]
  simp only [hcat]
  rcases hc with rfl | rfl | rfl
  all_goals
    simp only [Category.skip, Category.extra]
    split
    · cases readU16 (op :: tail) 1 <;> rfl
    · rfl

/-- Items whose schemas are self-delimiting are measured one after the other. -/
theorem measureItems_append {skip : ℕ} {items : List (List UInt8 × List UInt8)}
    (hskip : ∀ item ∈ items, item.1.length = skip)
    (hitems : ∀ item ∈ items, SelfDelimiting item.2) (pre rest : List UInt8) :
    measureItems measureSchema (pre ++ (itemBytes items ++ rest)) skip items.length pre.length =
      some (pre.length + (itemBytes items).length) := by
  induction items generalizing pre with
  | nil => rfl
  | cons item items ih =>
    obtain ⟨label, s⟩ := item
    have hlabel : label.length = skip := hskip (label, s) (by simp)
    have hs : SelfDelimiting s := hitems (label, s) (by simp)
    have hfrom : sliceFrom (pre ++ (itemBytes ((label, s) :: items) ++ rest)) (pre.length + skip) =
        some (s ++ (itemBytes items ++ rest)) := by
      have hlen : (pre ++ label).length = pre.length + skip := by simp [hlabel]
      rw [itemBytes_cons, List.append_assoc, List.append_assoc, ← List.append_assoc pre]
      exact sliceFrom_append hlen
    have hrest := ih (fun i hi => hskip i (by simp [hi])) (fun i hi => hitems i (by simp [hi]))
      (pre ++ (label ++ s))
    simp only [List.length_append, hlabel, List.append_assoc] at hrest
    rw [List.length_cons, measureItems, hfrom]
    simp only [Option.bind_eq_bind, Option.bind_some, hs _]
    simp only [itemBytes_cons, List.append_assoc, List.length_append, hlabel]
    rw [Nat.add_assoc, hrest]
    simp only [Nat.add_assoc]

/-- A compound of self-delimiting items is self-delimiting. -/
theorem selfDelimiting_compound {cat : Category} (hc : cat = .tuple ∨ cat = .struct ∨ cat = .enum)
    {head : List UInt8} (extra : List UInt8) {items : List (List UInt8 × List UInt8)}
    (hhead : Head cat items.length head) (hextra : extra.length = cat.extra)
    (hskip : ∀ item ∈ items, item.1.length = cat.skip)
    (hitems : ∀ item ∈ items, SelfDelimiting item.2) :
    SelfDelimiting (head ++ (extra ++ itemBytes items)) := by
  intro rest
  obtain ⟨op, tail, rfl, hcat, hcount⟩ := hhead.cons
  have hmeasure := measureItems_append hskip hitems (op :: tail ++ extra) rest
  simp only [List.append_assoc, List.length_append, hextra] at hmeasure hcount ⊢
  rw [List.cons_append, measureSchema_compound hcat hc, ← List.cons_append, hcount,
    Option.bind_some]
  simp only [hmeasure, Nat.add_assoc]

@[simp]
theorem length_named (items : List (ℕ × List UInt8)) : (named items).length = items.length :=
  List.length_map _

theorem length_label_named {items : List (ℕ × List UInt8)} :
    ∀ item ∈ named items, item.1.length = 2 := by
  intro item hitem
  obtain ⟨i, -, rfl⟩ := List.mem_map.mp hitem
  exact length_toNeBytes 2 i.1

theorem selfDelimiting_named {items : List (ℕ × List UInt8)}
    (h : ∀ item ∈ items, SelfDelimiting item.2) :
    ∀ item ∈ named items, SelfDelimiting item.2 := by
  intro item hitem
  obtain ⟨i, hi, rfl⟩ := List.mem_map.mp hitem
  exact h i hi

omit [Target] in
theorem itemBytes_unlabelled (items : List (List UInt8)) :
    itemBytes (items.map fun s => ([], s)) = items.flatten := by
  simp [itemBytes, List.flatMap_map, List.flatMap_id']

namespace WellFormed

variable {allowed : UInt8 → Prop} {s : List UInt8}

/-- A schema ends where `measure_schema` says, whatever follows it. -/
theorem selfDelimiting (h : WellFormed allowed s) : SelfDelimiting s := by
  induction h with
  | @scalar op hcat hop =>
    intro rest
    rw [List.cons_append, measureSchema_eq, measureStep]
    cases hc : category op <;> simp_all [Category.IsScalar]
  | @userDefined op idx hcat hop =>
    intro rest
    rw [List.cons_append, measureSchema_eq, measureStep]
    simp [hcat]
  | @seq op elem hcat hop helem ih =>
    intro rest
    have hfrom : sliceFrom (op :: (elem ++ rest)) 1 = some (elem ++ rest) := by
      simp [sliceFrom]
    rw [List.cons_append, measureSchema_eq, measureStep]
    simp [hcat, hfrom, ih rest, Nat.add_comm]
  | @tuple head items hhead hitems ih =>
    rw [← itemBytes_unlabelled]
    refine selfDelimiting_compound (.inl rfl) [] (by simpa using hhead) rfl ?_ ?_
    · simp [Category.skip]
    · simpa using ih
  | @struct head stIdx fields hhead hoff hfields ih =>
    exact selfDelimiting_compound (.inr (.inl rfl)) [stIdx] (by rwa [length_named]) rfl
      length_label_named (selfDelimiting_named ih)
  | @enum head vdxK stIdx variants hhead hoff hvariants ih =>
    exact selfDelimiting_compound (.inr (.inr rfl)) [vdxK, stIdx] (by rwa [length_named]) rfl
      length_label_named (selfDelimiting_named ih)

theorem ne_nil (h : WellFormed allowed s) : s ≠ [] := by
  cases h with
  | scalar | userDefined | seq => exact List.cons_ne_nil _ _
  | tuple hhead | struct _ hhead | enum _ _ hhead =>
    obtain ⟨op, tail, rfl, -⟩ := hhead.cons
    exact List.cons_ne_nil _ _

end WellFormed

/-! ### Formatting -/

/-- The items of a tuple or a struct, each a label and a schema, written one after the other. The
next one is the `i`-th and its payload begins at `pos`. -/
def formatEach (format : List UInt8 → List UInt8 → Option (String × ℕ)) (payload : List UInt8) :
    List (String × List UInt8) → ℕ → ℕ → Option (String × ℕ)
  | [], _, pos => some ("", pos)
  | (label, s) :: items, i, pos => do
    let (text, used) ← format s (← sliceFrom payload pos)
    let (rest, pos) ← formatEach format payload items (i + 1) (pos + used)
    return (separator i ++ label ++ text ++ rest, pos)

/-- The loop over the positions of a schema is a loop over its items. -/
theorem formatItems_append {format : List UInt8 → List UInt8 → Option (String × ℕ)}
    {label : ℕ → Option (String × ℕ)} {payload schema rest : List UInt8}
    {items : List (String × List UInt8 × List UInt8)} {pre : List UInt8}
    (hschema : schema = pre ++ (itemBytes (items.map Prod.snd) ++ rest))
    (hlabel : ∀ item ∈ items, ∀ pre tail, schema = pre ++ (item.2.1 ++ tail) →
      label pre.length = some (item.1, pre.length + item.2.1.length))
    (hitems : ∀ item ∈ items, SelfDelimiting item.2.2) (i pos : ℕ) :
    formatItems format label schema payload items.length i pre.length pos =
      formatEach format payload (items.map fun item => (item.1, item.2.2)) i pos := by
  induction items generalizing pre i pos with
  | nil => rfl
  | cons item items ih =>
    obtain ⟨name, bytes, s⟩ := item
    have hs : SelfDelimiting s := hitems (name, bytes, s) (by simp)
    have hname := hlabel (name, bytes, s) (by simp) pre
      (s ++ (itemBytes (items.map Prod.snd) ++ rest)) (by simpa using hschema)
    have hsplit : schema = (pre ++ bytes) ++ (s ++ (itemBytes (items.map Prod.snd) ++ rest)) := by
      simpa using hschema
    have hfrom : sliceFrom schema (pre.length + bytes.length) =
        some (s ++ (itemBytes (items.map Prod.snd) ++ rest)) := by
      rw [hsplit]
      exact sliceFrom_append (List.length_append ..)
    have hslice : slice schema (pre.length + bytes.length)
        (pre.length + bytes.length + s.length) = some s := by
      rw [hsplit]
      exact slice_append (List.length_append ..) rfl
    have hrest : ∀ pos, formatItems format label schema payload items.length (i + 1)
        (pre.length + bytes.length + s.length) pos =
          formatEach format payload (items.map fun item => (item.1, item.2.2)) (i + 1) pos := by
      intro pos
      have hbehind : schema =
          (pre ++ (bytes ++ s)) ++ (itemBytes (items.map Prod.snd) ++ rest) := by
        simpa using hschema
      have hih := ih hbehind (fun item hitem => hlabel item (by simp [hitem]))
        (fun item hitem => hitems item (by simp [hitem])) (i + 1) pos
      simpa [Nat.add_assoc] using hih
    rw [List.length_cons, formatItems, hname, List.map_cons, formatEach]
    simp only [Option.bind_eq_bind, Option.bind_some, hfrom, hs _, hslice, hrest]

/-- What the loop over the variants has found behind one variant. -/
theorem findVariant_cons {schema rest s pre : List UInt8} {off : ℕ}
    {variants : List (ℕ × List UInt8)}
    (hschema : schema = pre ++ (itemBytes (named ((off, s) :: variants)) ++ rest))
    (hoff : off < 256 ^ 2) (hs : SelfDelimiting s) (stIdx varIdx : ℕ)
    (tables : List (List UInt8)) (i : ℕ) (found : String × ℕ × ℕ) :
    findVariant schema stIdx varIdx tables (variants.length + 1) i pre.length found =
      findVariant schema stIdx varIdx tables variants.length (i + 1) (pre.length + 2 + s.length)
        (if i = varIdx then
          (readStrFromTable stIdx off tables, pre.length + 2, pre.length + 2 + s.length)
        else found) := by
  have hsplit : schema =
      pre ++ (toNeBytes 2 off ++ (s ++ (itemBytes (named variants) ++ rest))) := by
    simpa [named] using hschema
  have hread : readU16 schema pre.length = some off := hsplit ▸ readU16_append hoff _ _
  have hfrom : sliceFrom schema (pre.length + 2) =
      some (s ++ (itemBytes (named variants) ++ rest)) := by
    rw [hsplit, ← List.append_assoc]
    exact sliceFrom_append (by simp)
  rw [findVariant, hread]
  simp only [Option.bind_eq_bind, Option.bind_some, hfrom, hs _]

/-- Behind the chosen variant nothing else is found. -/
theorem findVariant_of_lt {schema rest pre : List UInt8} {variants : List (ℕ × List UInt8)}
    (hschema : schema = pre ++ (itemBytes (named variants) ++ rest))
    (hoff : ∀ v ∈ variants, v.1 < 256 ^ 2) (hs : ∀ v ∈ variants, SelfDelimiting v.2)
    (stIdx : ℕ) {varIdx i : ℕ} (tables : List (List UInt8)) (found : String × ℕ × ℕ)
    (hlt : varIdx < i ∨ i + variants.length ≤ varIdx) :
    findVariant schema stIdx varIdx tables variants.length i pre.length found = some found := by
  induction variants generalizing pre i with
  | nil => rfl
  | cons v variants ih =>
    obtain ⟨off, s⟩ := v
    have hne : i ≠ varIdx := by
      rw [List.length_cons] at hlt
      omega
    have hbehind : schema =
        (pre ++ (toNeBytes 2 off ++ s)) ++ (itemBytes (named variants) ++ rest) := by
      simpa [named] using hschema
    have hrest := ih hbehind (fun v hv => hoff v (by simp [hv])) (fun v hv => hs v (by simp [hv]))
      (i := i + 1) (by rw [List.length_cons] at hlt; omega)
    rw [List.length_cons,
      findVariant_cons hschema (hoff (off, s) (by simp)) (hs (off, s) (by simp)), if_neg hne]
    simpa [Nat.add_assoc] using hrest

/-- The loop over the variants finds the one with the given index. -/
theorem findVariant_append {schema rest pre : List UInt8} {variants : List (ℕ × List UInt8)}
    (hschema : schema = pre ++ (itemBytes (named variants) ++ rest))
    (hoff : ∀ v ∈ variants, v.1 < 256 ^ 2) (hs : ∀ v ∈ variants, SelfDelimiting v.2)
    (stIdx i j : ℕ) (tables : List (List UInt8)) (found : String × ℕ × ℕ) {off : ℕ}
    {s : List UInt8} (hget : variants[j]? = some (off, s)) :
    ∃ lo, findVariant schema stIdx (i + j) tables variants.length i pre.length found =
        some (readStrFromTable stIdx off tables, lo, lo + s.length) ∧
      slice schema lo (lo + s.length) = some s := by
  induction variants generalizing pre i j found with
  | nil => cases hget
  | cons v variants ih =>
    obtain ⟨off', s'⟩ := v
    have hbehind : schema =
        (pre ++ (toNeBytes 2 off' ++ s')) ++ (itemBytes (named variants) ++ rest) := by
      simpa [named] using hschema
    have hlen : (pre ++ (toNeBytes 2 off' ++ s')).length = pre.length + 2 + s'.length := by
      simp [Nat.add_assoc]
    have hoff' : ∀ v ∈ variants, v.1 < 256 ^ 2 := fun v hv => hoff v (by simp [hv])
    have hs' : ∀ v ∈ variants, SelfDelimiting v.2 := fun v hv => hs v (by simp [hv])
    rw [List.length_cons,
      findVariant_cons hschema (hoff (off', s') (by simp)) (hs (off', s') (by simp)), ← hlen]
    cases j with
    | zero =>
      cases hget
      refine ⟨pre.length + 2, ?_, ?_⟩
      · rw [Nat.add_zero, if_pos rfl, hlen, ← hlen,
          findVariant_of_lt hbehind hoff' hs' stIdx tables _ (.inl (by omega))]
      · have hsplit : schema =
            (pre ++ toNeBytes 2 off) ++ (s ++ (itemBytes (named variants) ++ rest)) := by
          simpa using hbehind
        rw [hsplit]
        exact slice_append (by simp) rfl
    | succ j =>
      obtain ⟨lo, hfind, hslice⟩ := ih hbehind hoff' hs' (i + 1) j
        (if i = i + (j + 1) then _ else found) hget
      refine ⟨lo, ?_, hslice⟩
      rw [← hfind]
      congr 1
      omega

variable [FloatDisplay]

/-- Formatting with the tables and formatters of one argument. -/
abbrev formatWith (tables : List (List UInt8)) (ufs : List UserFormatter)
    (schema payload : List UInt8) : Option (String × ℕ) :=
  formatPayload schema payload tables ufs

section Equations

variable {head rest payload : List UInt8} {tables : List (List UInt8)} {ufs : List UserFormatter}

theorem formatPayload_seq {op : UInt8} (hcat : category op = .seq) {elem : List UInt8}
    (helem : SelfDelimiting elem) :
    formatPayload (op :: (elem ++ rest)) payload tables ufs =
      if payload.length < sizeForK (sizeCode op) then some ("", 0)
      else (readUnsignedNe payload (sizeCode op)).bind fun count =>
        (formatElems (formatWith tables ufs elem) payload (count % usizeRange) 0
          (sizeForK (sizeCode op))).map fun (text, pos) => ("[" ++ text ++ "]", pos) := by
  have hfrom : sliceFrom (op :: (elem ++ rest)) 1 = some (elem ++ rest) := by simp [sliceFrom]
  have hslice : slice (op :: (elem ++ rest)) 1 (1 + elem.length) = some elem := by
    have hsplit : op :: (elem ++ rest) = [op] ++ (elem ++ rest) := rfl
    rw [hsplit]
    exact slice_append rfl rfl
  rw [formatPayload_eq]
  simp only [formatStep, hcat, hfrom, Option.bind_eq_bind, Option.bind_some, helem _, hslice,
    Option.map_eq_bind]
  rfl

theorem formatPayload_tuple {items : List (List UInt8)} (hhead : Head .tuple items.length head)
    (hitems : ∀ s ∈ items, SelfDelimiting s) :
    formatPayload (head ++ (items.flatten ++ rest)) payload tables ufs =
      (formatEach (formatWith tables ufs) payload (items.map fun s => ("", s)) 0 0).map
        fun (text, pos) => ("(" ++ text ++ ")", pos) := by
  obtain ⟨op, tail, rfl, hcat, hcount⟩ := hhead.cons
  have hschema : op :: tail ++ (items.flatten ++ rest) =
      (op :: tail) ++ (itemBytes ((items.map fun s => ("", [], s)).map Prod.snd) ++ rest) := by
    rw [← itemBytes_unlabelled, List.map_map]
    rfl
  have hloop : formatItems (formatWith tables ufs) tupleLabel
      (op :: tail ++ (items.flatten ++ rest)) payload items.length 0 (op :: tail).length 0 =
        formatEach (formatWith tables ufs) payload (items.map fun s => ("", s)) 0 0 := by
    have h := @formatItems_append _ (formatWith tables ufs) tupleLabel payload _ rest _ _ hschema
      (by simp [tupleLabel]) (by simpa using hitems) 0 0
    rwa [List.length_map, List.map_map] at h
  rw [List.cons_append, formatPayload_eq]
  simp only [formatStep, hcat, Option.bind_eq_bind]
  rw [← List.cons_append, hcount, Option.bind_some]
  simp only [Option.map_eq_bind]
  rw [hloop]
  rfl

theorem formatPayload_struct {stIdx : UInt8} {fields : List (ℕ × List UInt8)}
    (hhead : Head .struct fields.length head) (hoff : ∀ f ∈ fields, f.1 < 256 ^ 2)
    (hfields : ∀ f ∈ fields, SelfDelimiting f.2) :
    formatPayload (head ++ stIdx :: (itemBytes (named fields) ++ rest)) payload tables ufs =
      (formatEach (formatWith tables ufs) payload
        (fields.map fun f => (readStrFromTable stIdx.toNat f.1 tables ++ ": ", f.2)) 0 0).map
        fun (text, pos) => ("\x7b" ++ text ++ "\x7d", pos) := by
  obtain ⟨op, tail, rfl, hcat, hcount⟩ := hhead.cons
  set schema := op :: tail ++ stIdx :: (itemBytes (named fields) ++ rest) with hschema
  set items := fields.map fun f =>
    (readStrFromTable stIdx.toNat f.1 tables ++ ": ", toNeBytes 2 f.1, f.2) with hitems
  have hsplit : schema = (op :: tail ++ [stIdx]) ++ (itemBytes (items.map Prod.snd) ++ rest) := by
    rw [hitems, List.map_map, hschema, List.append_assoc]
    rfl
  have hlabel : ∀ item ∈ items, ∀ pre after, schema = pre ++ (item.2.1 ++ after) →
      fieldLabel schema stIdx.toNat tables pre.length =
        some (item.1, pre.length + item.2.1.length) := by
    intro item hitem pre after hpre
    obtain ⟨f, hf, rfl⟩ := List.mem_map.mp hitem
    rw [fieldLabel, hpre, readU16_append (hoff f hf)]
    simp
  have hidx : schema[(op :: tail).length]? = some stIdx := by simp [hschema]
  have hloop : formatItems (formatWith tables ufs) (fieldLabel schema stIdx.toNat tables) schema
      payload fields.length 0 ((op :: tail).length + 1) 0 =
        formatEach (formatWith tables ufs) payload
          (fields.map fun f => (readStrFromTable stIdx.toNat f.1 tables ++ ": ", f.2)) 0 0 := by
    have h := @formatItems_append _ (formatWith tables ufs)
      (fieldLabel schema stIdx.toNat tables) payload _ rest items _ hsplit hlabel ?_ 0 0
    · rwa [hitems, List.length_map, List.map_map, List.length_append] at h
    · intro item hitem
      obtain ⟨f, hf, rfl⟩ := List.mem_map.mp hitem
      exact hfields f hf
  rw [hschema, List.cons_append, formatPayload_eq]
  simp only [formatStep, hcat, Option.bind_eq_bind]
  rw [← List.cons_append, hcount, Option.bind_some, ← hschema]
  simp only [hidx, Option.bind_some, Option.map_eq_bind]
  rw [hloop]
  rfl

/-- The name of a variant, and its payload in parentheses when it is not of type `()`. -/
def formatVariant (tables : List (List UInt8)) (ufs : List UserFormatter) (payload : List UInt8)
    (size : ℕ) (name : String) (s : List UInt8) : Option (String × ℕ) :=
  if s = [opUnit] then some (name, size)
  else (sliceFrom payload size).bind fun tail =>
    (formatPayload s tail tables ufs).map fun (text, used) =>
      (name ++ "(" ++ text ++ ")", size + used)

theorem formatPayload_enum {vdxK stIdx : UInt8} {variants : List (ℕ × List UInt8)}
    (hhead : Head .enum variants.length head) (hoff : ∀ v ∈ variants, v.1 < 256 ^ 2)
    (hvariants : ∀ v ∈ variants, SelfDelimiting v.2 ∧ v.2 ≠ []) :
    formatPayload (head ++ vdxK :: stIdx :: (itemBytes (named variants) ++ rest)) payload tables
        ufs =
      if payload.length < sizeForK vdxK.toNat then some ("", 0)
      else (readUnsignedNe payload vdxK.toNat).bind fun varIdx =>
        match variants[varIdx % usizeRange]? with
        | none => some ("", sizeForK vdxK.toNat)
        | some (off, s) => formatVariant tables ufs payload (sizeForK vdxK.toNat)
            (readStrFromTable stIdx.toNat off tables) s := by
  obtain ⟨op, tail, rfl, hcat, hcount⟩ := hhead.cons
  set schema := op :: tail ++ vdxK :: stIdx :: (itemBytes (named variants) ++ rest) with hschema
  have hsplit : schema = (op :: tail ++ [vdxK, stIdx]) ++ (itemBytes (named variants) ++ rest) := by
    simp [hschema]
  have hlen : (op :: tail ++ [vdxK, stIdx]).length = (op :: tail).length + 2 := by simp
  have hs : ∀ v ∈ variants, SelfDelimiting v.2 := fun v hv => (hvariants v hv).1
  have hvdx : schema[(op :: tail).length]? = some vdxK := by simp [hschema]
  have hst : schema[(op :: tail).length + 1]? = some stIdx := by simp [hschema]
  rw [hschema, List.cons_append, formatPayload_eq]
  simp only [formatStep, hcat, Option.bind_eq_bind]
  rw [← List.cons_append, hcount, Option.bind_some, ← hschema]
  simp only [hvdx, hst, Option.bind_some]
  split
  · rfl
  · refine Option.bind_congr fun varIdx _ => ?_
    cases hget : variants[varIdx % usizeRange]? with
    | none =>
      -- no variant has this index: nothing is found and nothing is read
      have hle : 0 + variants.length ≤ varIdx % usizeRange := by
        simpa using List.getElem?_eq_none_iff.mp hget
      have hnone := findVariant_of_lt hsplit hoff hs stIdx.toNat tables ("", 0, 0) (.inr hle)
      rw [hlen] at hnone
      rw [hnone]
      rfl
    | some v =>
      obtain ⟨off, s⟩ := v
      have hne : s ≠ [] := (hvariants _ (List.mem_of_getElem? hget)).2
      obtain ⟨lo, hfind, hslice⟩ := findVariant_append hsplit hoff hs stIdx.toNat 0
        (varIdx % usizeRange) tables ("", 0, 0) hget
      rw [hlen, Nat.zero_add] at hfind
      have hpos : lo < lo + s.length := by
        have := List.length_pos_iff.mpr hne
        omega
      rw [hfind]
      simp only [Option.bind_some, if_pos hpos, hslice, hne, false_or, formatVariant,
        Option.map_eq_bind]
      rfl

end Equations

/-! ### Schema blocks -/

section Blocks

variable {payload : List UInt8} {ss : List (List UInt8)}

/-- The arguments with the schemas `ss`, of which the first is argument number `schemaIdx` and has
its payload from `payloadPos` on. -/
def decodeEach (tables : List (List UInt8)) (ufs : List UserFormatter) (payload : List UInt8) :
    List (List UInt8) → ℕ → ℕ → Option (List String)
  | [], _, _ => some []
  | s :: ss, schemaIdx, payloadPos => do
    let (text, used) ← formatPayload s (← sliceFrom payload payloadPos)
      (tables[schemaIdx]?).toList ufs
    let results ← decodeEach tables ufs payload ss (schemaIdx + 1) (payloadPos + used)
    return text :: results

/-- The offsets of schemas that stand one after the other from `pos` on. -/
def blockOffsets : ℕ → List (List UInt8) → List (ℕ × ℕ)
  | _, [] => []
  | pos, s :: ss => (pos, s.length) :: blockOffsets (pos + s.length) ss

omit [FloatDisplay] in
theorem parseSchemaOffsets_append (hss : ∀ s ∈ ss, SelfDelimiting s ∧ s ≠ []) (n : ℕ)
    (pre : List UInt8) :
    parseSchemaOffsets (pre ++ ss.flatten) n pre.length =
      some (blockOffsets pre.length (ss.take n)) := by
  induction n generalizing pre ss with
  | zero => rfl
  | succ n ih =>
    cases ss with
    | nil => simp [parseSchemaOffsets, blockOffsets]
    | cons s ss =>
      obtain ⟨hs, hne⟩ := hss s (by simp)
      have hlt : ¬ (pre ++ (s :: ss).flatten).length ≤ pre.length := by
        have hpos := List.length_pos_iff.mpr hne
        simp only [List.length_append, List.flatten_cons]
        omega
      have hfrom : sliceFrom (pre ++ (s :: ss).flatten) pre.length = some (s ++ ss.flatten) :=
        sliceFrom_append rfl
      have hss' : ∀ s ∈ ss, SelfDelimiting s ∧ s ≠ [] := fun s hs => hss s (by simp [hs])
      have hrest := ih hss' (pre ++ s)
      rw [List.append_assoc, List.length_append] at hrest
      rw [parseSchemaOffsets, if_neg hlt, hfrom]
      simp only [Option.bind_eq_bind, Option.bind_some, hs _, List.flatten_cons, hrest,
        List.take_succ_cons, blockOffsets]
      rfl

theorem decodeFrom_blockOffsets {provided : Provided} {pre rest : List UInt8}
    (hschemas : provided.schemas = pre ++ (ss.flatten ++ rest)) (schemaIdx payloadPos : ℕ) :
    decodeFrom provided payload (blockOffsets pre.length ss) schemaIdx payloadPos =
      decodeEach provided.stringTables provided.userFormatters payload ss schemaIdx payloadPos := by
  induction ss generalizing pre schemaIdx payloadPos with
  | nil => rfl
  | cons s ss ih =>
    have hsplit : provided.schemas = (pre ++ s) ++ (ss.flatten ++ rest) := by simpa using hschemas
    have hslice : slice provided.schemas pre.length (pre.length + s.length) = some s := by
      rw [hschemas, List.flatten_cons, List.append_assoc]
      exact slice_append rfl rfl
    have hrest := ih hsplit
    rw [List.length_append] at hrest
    simp only [blockOffsets, decodeFrom, formatArg, decodeEach, hslice, Option.bind_eq_bind,
      Option.bind_some, hrest, Option.bind_assoc]

/-- `decode_args` formats the schemas of a block one after the other, at most as many as its count
byte says. -/
theorem decodeArgs_block (hss : ∀ s ∈ ss, SelfDelimiting s ∧ s ≠ []) (argCount : UInt8)
    (tables : List (List UInt8)) (ufs : List UserFormatter) :
    decodeArgs { schemas := argCount :: ss.flatten, stringTables := tables, userFormatters := ufs }
        payload =
      decodeEach tables ufs payload (ss.take argCount.toNat) 0 0 := by
  set provided : Provided :=
    { schemas := argCount :: ss.flatten, stringTables := tables, userFormatters := ufs }
  rw [decodeArgs, getSchemas]
  by_cases hcount : argCount = 0
  · subst hcount
    rfl
  · have hparse := parseSchemaOffsets_append hss argCount.toNat [argCount]
    have hsplit : provided.schemas =
        [argCount] ++ ((ss.take argCount.toNat).flatten ++ (ss.drop argCount.toNat).flatten) := by
      rw [← List.flatten_append, List.take_append_drop, List.singleton_append]
    rw [List.singleton_append, List.length_singleton] at hparse
    simp only [provided, if_neg hcount, hparse, Option.map_some, Option.bind_eq_bind,
      Option.bind_some]
    exact decodeFrom_blockOffsets hsplit 0 0

end Blocks

end Target

end RapidLog
