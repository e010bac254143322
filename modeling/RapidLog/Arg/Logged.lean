import RapidLog.Arg.Shows

/-!
# Types with the texts of their values

A `Logged` type is an impl of `Encode` together with the values of it that fit the format, and with
the text that is shown for each of them: a template whose holes are the names of fields and
variants, each with the offset that the schema has for it.

A type is `Good` when every value that fits is shown as its template says, whatever string tables
and trailing bytes the interpreter is given. The types of the crate are good when the types that
they are built from are: `good_tuple`, `good_array`, `good_vec`, `good_entries`, `good_option` and
`good_result`.
-/

namespace RapidLog

open SliceWriter

/-- A text with the names of fields and variants left open. -/
abbrev NameTemplate := Template (ℕ × String)

/-- A type that can be logged. -/
structure Logged where
  impl : Encode
  /-- The values that the format has room for. -/
  fits : impl.Self → Prop := fun _ => True
  template : impl.Self → NameTemplate

section Target

variable [Target]

/-- What a schema gives as the offset of a name that stands at `n` in a string table. -/
def offsetOf (n : ℕ) : ℕ := fromNeBytes (leBytes 2 n)

theorem toNeBytes_offsetOf (n : ℕ) : toNeBytes 2 (offsetOf n) = leBytes 2 n := by
  have hbytes := Target.endian.toBytes_ofBytes (leBytes 2 n)
  rwa [length_leBytes] at hbytes

theorem offsetOf_lt (n : ℕ) : offsetOf n < 256 ^ 2 := by
  have hlt := fromNeBytes_lt (leBytes 2 n)
  rwa [length_leBytes] at hlt

omit [Target] in
/-- An opcode of a compound with a size code in its low bits. -/
theorem category_or_ofNat {op : UInt8} {cat : Category}
    (hop : (op, cat) ∈ [(opTuple, Category.tuple), (opStruct, .struct), (opEnum, .enum)]) :
    ∀ k ≤ 15, category (op ||| .ofNat k) = cat ∧ sizeCode (op ||| .ofNat k) = k := by
  simp only [List.mem_cons, Prod.mk.injEq, List.not_mem_nil, or_false] at hop
  rcases hop with ⟨rfl, rfl⟩ | ⟨rfl, rfl⟩ | ⟨rfl, rfl⟩ <;> decide

/-- A head with the number of items in its opcode. -/
theorem head_inline {op : UInt8} {cat : Category}
    (hop : (op, cat) ∈ [(opTuple, Category.tuple), (opStruct, .struct), (opEnum, .enum)])
    {count : ℕ} (hpos : 1 ≤ count) (hle : count ≤ 15) : Head cat count [op ||| .ofNat count] := by
  obtain ⟨hcat, hk⟩ := category_or_ofNat hop count hle
  have hhead : Head cat (sizeCode (op ||| .ofNat count)) [op ||| .ofNat count] :=
    .ofCode hcat (by omega)
  rwa [hk] at hhead

/-! ### Templates -/

/-- Templates with commas between them, in brackets. -/
def listed (opening closing : String) (ts : List NameTemplate) : NameTemplate :=
  .between opening closing (.join ", " ts)

omit [Target] in
theorem render_listed (opening closing : String) (ts : List NameTemplate) (names : Naming) :
    (listed opening closing ts).render names =
      opening ++ joined (ts.map fun t => t.render names) ++ closing := by
  rw [listed, Template.render_between, Template.render_join]
  rfl

/-- The name of a variant, and its payload unless that is of type `()`. -/
def variantTemplate (off : ℕ) (name : String) (schema : List UInt8) (t : NameTemplate) :
    NameTemplate :=
  .hole (off, name) :: if schema = [opUnit] then [] else Template.between "(" ")" t

omit [Target] in
theorem render_variantTemplate (off : ℕ) (name : String) (schema : List UInt8) (t : NameTemplate)
    (names : Naming) :
    (variantTemplate off name schema t).render names =
      variantText schema (names (off, name)) (t.render names) := by
  unfold variantTemplate variantText
  rw [Template.render]
  split
  · exact String.append_empty
  · rw [Template.render_between]
    simp only [String.append_assoc]

/-! ### Types -/

namespace Logged

/-- A value of some type. -/
abbrev Value := (p : Logged) × p.impl.Self

/-- What is written and shown for a value. -/
def Value.item (q : Value) : Item where
  schema := q.1.impl.schema
  writer := q.1.impl.encodeTo q.2
  text names := (q.1.template q.2).render names

def Value.template (q : Value) : NameTemplate := q.1.template q.2

def Value.fits (q : Value) : Prop := q.1.fits q.2

/-- The fields of a tuple, each with its type. -/
def parts : (ps : List Logged) → Encode.Tuple (ps.map impl) → List Value
  | [], _ => []
  | p :: ps, (x, xs) => ⟨p, x⟩ :: parts ps xs

/-- A type whose values are shown without any names. -/
def scalar (e : Encode) (text : e.Self → String) : Logged where
  impl := e
  template v := [.text (text v)]

/-- A tuple shows its fields in parentheses. -/
def tuple (ps : List Logged) : Logged where
  impl := .tuple (ps.map impl)
  fits v := ∀ q ∈ parts ps v, q.fits
  template v := listed "(" ")" ((parts ps v).map Value.template)

/-- An array shows its elements in brackets. -/
def array (n : ℕ) (p : Logged) : Logged where
  impl := .array n p.impl
  fits xs := ∀ x ∈ xs.1, p.fits x
  template xs := listed "[" "]" (xs.1.map p.template)

/-- A vector shows its first 65535 elements in brackets. -/
def vec (p : Logged) : Logged where
  impl := .vec p.impl
  fits := fun xs : List p.impl.Self => ∀ x ∈ xs, p.fits x
  template xs := listed "[" "]" ((xs.take 65535).map p.template)

/-- The entry of a map. -/
def entry (k v : Logged) (x : k.impl.Self × v.impl.Self) : List Value := [⟨k, x.1⟩, ⟨v, x.2⟩]

/-- A map shows its entries as pairs in brackets, in the order of iteration. It has room for fewer
than `2 ^ 32` of them. -/
def entries (k v : Logged) : Logged where
  impl := .entries k.impl v.impl
  fits := fun xs : List (k.impl.Self × v.impl.Self) =>
    xs.length < 2 ^ 32 ∧ ∀ x ∈ xs, ∀ q ∈ entry k v x, q.fits
  template := fun xs : List (k.impl.Self × v.impl.Self) =>
    listed "[" "]" (xs.map fun x => listed "(" ")" ((entry k v x).map Value.template))

/-- `Option` -/
def option (p : Logged) : Logged where
  impl := .option p.impl
  fits
    | none => True
    | some x => p.fits x
  template
    | none => variantTemplate (offsetOf 0) "None" [opUnit] [.text "()"]
    | some x => variantTemplate (offsetOf 5) "Some" p.impl.schema (p.template x)

/-- `Result` -/
def result (p q : Logged) : Logged where
  impl := .result p.impl q.impl
  fits
    | .inl x => p.fits x
    | .inr x => q.fits x
  template
    | .inl x => variantTemplate (offsetOf 0) "Ok" p.impl.schema (p.template x)
    | .inr x => variantTemplate (offsetOf 3) "Err" q.impl.schema (q.template x)

/-! ### Values are shown as their templates say -/

variable [FloatDisplay]

/-- The interpreter finds the end of the schema, and shows every value that fits. -/
structure Good (p : Logged) : Prop where
  wellFormed : WellFormed (fun _ => True) p.impl.schema
  shows : ∀ v, p.fits v →
    Shows p.impl.schema (p.impl.encodeTo v) fun names => (p.template v).render names

theorem Good.item {q : Value} (h : q.1.Good) (hfits : q.fits) : q.item.Good :=
  ⟨h.wellFormed.selfDelimiting, h.shows q.2 hfits⟩

omit [Target] [FloatDisplay] in
theorem map_parts {β : Type*} (f : (e : Encode) → e.Self → β) (ps : List Logged)
    (v : Encode.Tuple (ps.map impl)) :
    v.map f = (parts ps v).map fun q => f q.1.impl q.2 := by
  induction ps with
  | nil => rfl
  | cons p ps ih => exact congrArg (_ :: ·) (ih v.2)

omit [Target] [FloatDisplay] in
theorem map_fst_parts (ps : List Logged) (v : Encode.Tuple (ps.map impl)) :
    (parts ps v).map Sigma.fst = ps := by
  induction ps with
  | nil => rfl
  | cons p ps ih => exact congrArg (p :: ·) (ih v.2)

omit [Target] [FloatDisplay] in
theorem fst_mem_of_mem_parts {ps : List Logged} {v : Encode.Tuple (ps.map impl)} {q : Value}
    (h : q ∈ parts ps v) : q.1 ∈ ps := by
  rw [← map_fst_parts ps v]
  exact List.mem_map_of_mem h

/-- Values behind the head of a tuple with as many items. -/
theorem shows_values {head : List UInt8} {qs : List Value}
    (hhead : Head .tuple qs.length head) (hgood : ∀ q ∈ qs, q.1.Good ∧ q.fits) :
    Shows (head ++ (qs.map fun q => q.1.impl.schema).flatten)
      (.all (qs.map fun q => q.1.impl.encodeTo q.2))
      fun names => (listed "(" ")" (qs.map Value.template)).render names := by
  have hitems : ∀ item ∈ qs.map Value.item, item.label = (fun _ => "") ∧ item.Good := by
    intro item hitem
    obtain ⟨q, hq, rfl⟩ := List.mem_map.mp hitem
    exact ⟨rfl, (hgood q hq).1.item (hgood q hq).2⟩
  have hshows := @shows_tuple _ _ head (qs.map Value.item) (by rwa [List.length_map])
    (fun item hitem => (hitems item hitem).1) fun item hitem => (hitems item hitem).2
  simp only [List.map_map] at hshows
  simp only [render_listed, List.map_map]
  exact hshows

theorem Good.scalar {e : Encode} {op : UInt8} (hschema : e.schema = [op])
    (hcat : (category op).IsScalar) {text : e.Self → String}
    (hshows : ∀ v, Shows e.schema (e.encodeTo v) fun _ => text v) : (scalar e text).Good where
  wellFormed := by
    show WellFormed _ e.schema
    rw [hschema]
    exact .scalar hcat trivial
  shows := by
    intro v _
    have htext : ∀ names : Naming, Template.render names [.text (text v)] = text v :=
      fun names => String.append_empty
    show Shows _ _ fun names => Template.render names [.text (text v)]
    simp only [htext]
    exact hshows v

theorem shows_list {op : UInt8} (hcat : category op = .seq) {α : Type} {elem : List UInt8}
    (helem : SelfDelimiting elem) {write : α → SliceWriter UInt8} {template : α → NameTemplate}
    {xs : List α}
    (hshows : ∀ x ∈ xs, Shows elem (write x) fun names => (template x).render names)
    (hread : Readable (sizeCode op) xs.length) (hrange : xs.length < usizeRange) :
    Shows (op :: elem)
      ((copy (toNeBytes (sizeForK (sizeCode op)) xs.length)).andThen (.all (xs.map write)))
      fun names => (listed "[" "]" (xs.map template)).render names := by
  have hseq := @shows_seq _ _ op hcat elem (xs.map fun x =>
    { schema := elem, writer := write x, text := fun names => (template x).render names })
    helem (by simp) (by simpa using hshows) (by rwa [List.length_map]) (by rwa [List.length_map])
  simp only [List.map_map, List.length_map] at hseq
  simp only [render_listed, List.map_map]
  exact hseq

/-- The fields of a tuple behind its head. -/
theorem shows_parts {head : List UInt8} {ps : List Logged} (hhead : Head .tuple ps.length head)
    (hps : ∀ p ∈ ps, p.Good) (v : Encode.Tuple (ps.map impl)) (hfits : ∀ q ∈ parts ps v, q.fits) :
    Shows (head ++ ((ps.map impl).map Encode.schema).flatten) (.all (v.map Encode.encodeTo))
      fun names => (listed "(" ")" ((parts ps v).map Value.template)).render names := by
  have hlen : (parts ps v).length = ps.length := by
    conv_rhs => rw [← map_fst_parts ps v, List.length_map]
  have hschemas : (ps.map impl).map Encode.schema =
      (parts ps v).map fun q => q.1.impl.schema := by
    conv_lhs => rw [← map_fst_parts ps v, List.map_map, List.map_map]
    rfl
  rw [hschemas, map_parts]
  exact shows_values (by rwa [hlen]) fun q hq => ⟨hps _ (fst_mem_of_mem_parts hq), hfits q hq⟩

omit [FloatDisplay] in
theorem wellFormed_parts {head : List UInt8} {ps : List Logged}
    (hhead : Head .tuple ps.length head)
    (hps : ∀ p ∈ ps, WellFormed (fun _ => True) p.impl.schema) :
    WellFormed (fun _ => True) (head ++ ((ps.map impl).map Encode.schema).flatten) := by
  refine .tuple (by simpa using hhead) ?_
  intro s hs
  simp only [List.map_map, List.mem_map] at hs
  obtain ⟨p, hp, rfl⟩ := hs
  exact hps p hp

theorem good_tuple {ps : List Logged} (hlen : 1 ≤ ps.length ∧ ps.length ≤ 12)
    (hps : ∀ p ∈ ps, p.Good) : (tuple ps).Good := by
  have hhead : Head .tuple ps.length [opTuple ||| .ofNat ps.length] :=
    head_inline (by simp) hlen.1 (by omega)
  have hschema : (tuple ps).impl.schema =
      [opTuple ||| .ofNat ps.length] ++ ((ps.map impl).map Encode.schema).flatten := by
    show (opTuple ||| .ofNat (ps.map impl).length) :: (ps.map impl).flatMap Encode.schema = _
    rw [List.length_map, List.flatMap_def]
    rfl
  constructor
  · rw [hschema]
    exact wellFormed_parts hhead fun p hp => (hps p hp).wellFormed
  · intro v hfits
    rw [hschema]
    exact shows_parts hhead hps v hfits

theorem good_array {n : ℕ} {p : Logged} (hn : n < 256 ^ 2) (hp : p.Good) : (array n p).Good := by
  have hop : category (opSeq ||| 2) = .seq ∧ sizeCode (opSeq ||| 2) = 2 := by decide
  have hrange := usizeRange_le
  constructor
  · exact .seq hop.1 trivial hp.wellFormed
  · rintro ⟨xs, rfl⟩ hfits
    have hshows := @shows_list _ _ _ hop.1 _ _ hp.wellFormed.selfDelimiting p.impl.encodeTo
      p.template xs (fun x hx => hp.shows x (hfits x hx)) (.inr ⟨by rw [hop.2]; decide, by
        rwa [hop.2]⟩) (by omega)
    rw [hop.2] at hshows
    exact hshows

theorem good_vec {p : Logged} (hp : p.Good) : (vec p).Good := by
  have hop : category (opSeq ||| 2) = .seq ∧ sizeCode (opSeq ||| 2) = 2 := by decide
  have hrange := usizeRange_le
  have hshows : ∀ xs : List p.impl.Self, (∀ x ∈ xs, p.fits x) →
      Shows (vec p).impl.schema ((vec p).impl.encodeTo xs)
        fun names => ((vec p).template xs).render names := by
    intro xs hfits
    have hlen : (xs.take 65535).length = min xs.length 65535 := by
      rw [List.length_take, Nat.min_comm]
    have htake : xs.take (min xs.length 65535) = xs.take 65535 := by
      rw [Nat.min_comm, ← List.take_eq_take_min]
    have hlist := @shows_list _ _ _ hop.1 _ _ hp.wellFormed.selfDelimiting p.impl.encodeTo
      p.template (xs.take 65535) (fun x hx => hp.shows x (hfits x (List.mem_of_mem_take hx)))
      (.inr ⟨by rw [hop.2]; decide, by rw [hop.2, hlen]; simp [sizeForK]⟩) (by omega)
    rw [hop.2, hlen] at hlist
    show Shows _ ((copy _).andThen (.all ((xs.take (min xs.length 65535)).map _))) _
    rw [htake]
    exact hlist
  exact ⟨.seq hop.1 trivial hp.wellFormed, hshows⟩

theorem good_entries {k v : Logged} (hk : k.Good) (hv : v.Good) : (entries k v).Good := by
  have hop : category (opSeq ||| 3) = .seq ∧ sizeCode (opSeq ||| 3) = 3 := by decide
  have hrange := usizeRange_le
  have hhead : Head .tuple [k, v].length [opTuple ||| 2] :=
    @head_inline _ opTuple .tuple (by simp) 2 (by decide) (by decide)
  have hps : ∀ p ∈ [k, v], p.Good := by simp [hk, hv]
  have helem : WellFormed (fun _ => True)
      ((opTuple ||| 2) :: (k.impl.schema ++ v.impl.schema)) := by
    simpa using wellFormed_parts hhead fun p hp => (hps p hp).wellFormed
  -- an entry is shown as a tuple of its key and its value
  have hpair : ∀ x : k.impl.Self × v.impl.Self, (∀ q ∈ entry k v x, q.fits) →
      Shows ((opTuple ||| 2) :: (k.impl.schema ++ v.impl.schema))
        ((k.impl.encodeTo x.1).andThen (v.impl.encodeTo x.2))
        fun names => (listed "(" ")" ((entry k v x).map Value.template)).render names := by
    intro x hfits
    have hk' := hk.shows x.1 (hfits ⟨k, x.1⟩ (by simp [entry]))
    have hv' := hv.shows x.2 (hfits ⟨v, x.2⟩ (by simp [entry]))
    have hwriter : (k.impl.encodeTo x.1).andThen (v.impl.encodeTo x.2) =
        .all [k.impl.encodeTo x.1, v.impl.encodeTo x.2] := by
      obtain ⟨keyBytes, hkey, -⟩ := hk'
      obtain ⟨valueBytes, hvalue, -⟩ := hv'
      simp only [hkey, hvalue, all_cons, all_nil, copy_andThen, List.append_nil]
    have hvalues := @shows_values _ _ [opTuple ||| 2] (entry k v x) hhead fun q hq =>
      ⟨by simp only [entry, List.mem_cons, List.not_mem_nil, or_false] at hq
          rcases hq with rfl | rfl
          · exact hk
          · exact hv, hfits q hq⟩
    rw [hwriter]
    simpa [entry] using hvalues
  have hshows : ∀ xs : List (k.impl.Self × v.impl.Self), xs.length < 2 ^ 32 →
      (∀ x ∈ xs, ∀ q ∈ entry k v x, q.fits) →
      Shows (entries k v).impl.schema ((entries k v).impl.encodeTo xs)
        fun names => ((entries k v).template xs).render names := by
    intro xs hlen hfits
    have hlist := @shows_list _ _ _ hop.1 _ _ helem.selfDelimiting
      (fun x => (k.impl.encodeTo x.1).andThen (v.impl.encodeTo x.2))
      (fun x => listed "(" ")" ((entry k v x).map Value.template)) xs
      (fun x hx => hpair x (hfits x hx))
      (.inr ⟨by rw [hop.2]; decide, by rw [hop.2]; simpa [sizeForK] using hlen⟩) (by omega)
    rw [hop.2] at hlist
    show Shows _ ((copy (toNeBytes 4 (xs.length % 2 ^ 32))).andThen _) _
    rw [Nat.mod_eq_of_lt hlen]
    exact hlist
  exact ⟨.seq hop.1 trivial helem, fun xs hxs => hshows xs hxs.1 hxs.2⟩

/-- The items of a struct or an enum, each labelled with where its name stands in the string
table. -/
def labelled (items : List (ℕ × List UInt8)) : List (List UInt8 × List UInt8) :=
  items.map fun item => (leBytes 2 item.1, item.2)

omit [FloatDisplay] in
theorem labelled_eq_named (items : List (ℕ × List UInt8)) :
    labelled items = named (items.map fun item => (offsetOf item.1, item.2)) := by
  simp only [labelled, named, List.map_map, Function.comp_def, toNeBytes_offsetOf]

omit [FloatDisplay] in
theorem forall_offsets {P : ℕ × List UInt8 → Prop} {items : List (ℕ × List UInt8)}
    (h : ∀ item ∈ items, P (offsetOf item.1, item.2)) :
    ∀ item ∈ items.map (fun item => (offsetOf item.1, item.2)), P item := by
  intro x hx
  obtain ⟨item, hitem, rfl⟩ := List.mem_map.mp hx
  exact h item hitem

omit [FloatDisplay] in
theorem wellFormed_variants {head : List UInt8} (vdxK : UInt8) {variants : List (ℕ × List UInt8)}
    (hhead : Head .enum variants.length head)
    (hvariants : ∀ v ∈ variants, WellFormed (fun _ => True) v.2) :
    WellFormed (fun _ => True) (head ++ vdxK :: 0 :: itemBytes (labelled variants)) := by
  rw [labelled_eq_named]
  exact .enum vdxK 0 (by rwa [List.length_map]) (forall_offsets fun _ _ => offsetOf_lt _)
    (forall_offsets hvariants)

/-- A variant whose name stands at `n` in the string table. -/
theorem shows_variant {head : List UInt8} {vdxK : UInt8} {variants : List (ℕ × List UInt8)}
    (hhead : Head .enum variants.length head)
    (hvariants : ∀ v ∈ variants, WellFormed (fun _ => True) v.2) {i n : ℕ} {schema : List UInt8}
    (hget : variants[i]? = some (n, schema)) (hread : Readable vdxK.toNat i)
    (hrange : i < usizeRange) (name : String) {writer : SliceWriter UInt8} {t : NameTemplate}
    (hpayload : Shows schema writer fun names => t.render names) :
    Shows (head ++ vdxK :: 0 :: itemBytes (labelled variants))
      ((copy (toNeBytes (sizeForK vdxK.toNat) i)).andThen writer)
      fun names => (variantTemplate (offsetOf n) name schema t).render names := by
  set variants' := variants.map fun item => (offsetOf item.1, item.2) with hvariants'
  have hhead' : Head .enum variants'.length head := by rwa [hvariants', List.length_map]
  have hget' : variants'[i]? = some (offsetOf n, schema) := by
    rw [hvariants', List.getElem?_map, hget, Option.map_some]
  have hoff : ∀ v ∈ variants', v.1 < 256 ^ 2 := forall_offsets fun _ _ => offsetOf_lt _
  have hwf : ∀ v ∈ variants', SelfDelimiting v.2 ∧ v.2 ≠ [] :=
    forall_offsets fun v hv => ⟨(hvariants v hv).selfDelimiting, (hvariants v hv).ne_nil⟩
  have henum := shows_enum hhead' hoff hwf hget' hread hrange name hpayload
  rw [labelled_eq_named]
  simpa only [render_variantTemplate] using henum

omit [FloatDisplay] in
theorem wellFormed_unit : WellFormed (fun _ => True) [opUnit] := by
  have hcat : category opUnit = .unit := by decide
  exact .scalar (by rw [hcat]; trivial) trivial

/-- The variants of `Option` and of `Result`: the name of the second one stands at `n`. -/
def twoVariants (n : ℕ) (s₀ s₁ : List UInt8) : List (ℕ × List UInt8) := [(0, s₀), (n, s₁)]

section TwoVariants

variable {n : ℕ} {s₀ s₁ : List UInt8}

omit [FloatDisplay] in
theorem head_twoVariants : Head .enum (twoVariants n s₀ s₁).length [opEnum ||| 2] :=
  @head_inline _ opEnum .enum (by simp) 2 (by decide) (by decide)

/-- The variant with index `i` of two, behind its one-byte discriminant. -/
theorem shows_twoVariants (h₀ : WellFormed (fun _ => True) s₀)
    (h₁ : WellFormed (fun _ => True) s₁) {i m : ℕ} {schema : List UInt8}
    (hget : (twoVariants n s₀ s₁)[i]? = some (m, schema)) (name : String)
    {writer : SliceWriter UInt8} {t : NameTemplate}
    (hpayload : Shows schema writer fun names => t.render names) :
    Shows ([opEnum ||| 2] ++ 1 :: 0 :: itemBytes (labelled (twoVariants n s₀ s₁)))
      ((copy [UInt8.ofNat i]).andThen writer)
      fun names => (variantTemplate (offsetOf m) name schema t).render names := by
  have hi : i < 2 := (List.getElem?_eq_some_iff.mp hget).1
  have hrange := usizeRange_le
  have hsize : sizeForK (1 : UInt8).toNat = 1 := rfl
  have hbytes : toNeBytes 1 i = [UInt8.ofNat i] := by
    unfold toNeBytes Endian.toBytes
    cases Target.endian <;> rfl
  have hread : Readable (1 : UInt8).toNat i := .inr ⟨by decide, by rw [hsize]; omega⟩
  have hshows := shows_variant head_twoVariants (by simp [twoVariants, h₀, h₁]) hget hread
    (by omega) name hpayload
  rwa [hsize, hbytes] at hshows

omit [FloatDisplay] in
theorem wellFormed_twoVariants (h₀ : WellFormed (fun _ => True) s₀)
    (h₁ : WellFormed (fun _ => True) s₁) :
    WellFormed (fun _ => True)
      ([opEnum ||| 2] ++ 1 :: 0 :: itemBytes (labelled (twoVariants n s₀ s₁))) :=
  wellFormed_variants 1 head_twoVariants (by simp [twoVariants, h₀, h₁])

end TwoVariants

theorem good_option {p : Logged} (hp : p.Good) : (option p).Good := by
  have hschema : (option p).impl.schema =
      [opEnum ||| 2] ++ 1 :: 0 :: itemBytes (labelled (twoVariants 5 [opUnit] p.impl.schema)) := by
    simp [labelled, twoVariants, option, Encode.option, leBytes]
  have hshows : ∀ x : Option p.impl.Self, (option p).fits x →
      Shows (option p).impl.schema ((option p).impl.encodeTo x)
        fun names => ((option p).template x).render names := by
    rw [hschema]
    intro x hfits
    cases x with
    | none =>
      have hnone := @shows_twoVariants _ _ 5 _ _ wellFormed_unit hp.wellFormed 0 0 [opUnit] rfl
        "None" (.copy []) [.text "()"] shows_unit
      rwa [copy_andThen] at hnone
    | some x =>
      exact shows_twoVariants wellFormed_unit hp.wellFormed rfl "Some" (hp.shows x hfits)
  constructor
  · rw [hschema]
    exact wellFormed_twoVariants wellFormed_unit hp.wellFormed
  · exact hshows

theorem good_result {p q : Logged} (hp : p.Good) (hq : q.Good) : (result p q).Good := by
  have hschema : (result p q).impl.schema =
      [opEnum ||| 2] ++
        1 :: 0 :: itemBytes (labelled (twoVariants 3 p.impl.schema q.impl.schema)) := by
    simp [labelled, twoVariants, result, Encode.result, leBytes]
  have hshows : ∀ x : p.impl.Self ⊕ q.impl.Self, (result p q).fits x →
      Shows (result p q).impl.schema ((result p q).impl.encodeTo x)
        fun names => ((result p q).template x).render names := by
    rw [hschema]
    intro x hfits
    cases x with
    | inl x => exact shows_twoVariants hp.wellFormed hq.wellFormed rfl "Ok" (hp.shows x hfits)
    | inr x => exact shows_twoVariants hp.wellFormed hq.wellFormed rfl "Err" (hq.shows x hfits)
  constructor
  · rw [hschema]
    exact wellFormed_twoVariants hp.wellFormed hq.wellFormed
  · exact hshows

end Logged

end Target

end RapidLog
