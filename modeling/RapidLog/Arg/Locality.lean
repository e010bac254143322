import RapidLog.Arg.Grammar
import RapidLog.Arg.Numbers

/-!
# Schemas with other bytes behind them

`docs/schema.md` gives the grammar of schemas with the two bytes of an extended count in
little-endian order; `Schema order one` is that grammar in a given order. The interpreters read a
count in the order of the target.

A schema is `Local` when the interpreters treat it in the same way whatever follows it. The local
schemas are those of the grammar in the order of the target, and nothing else, if an opcode of no
type is a schema as well (`local_iff`). So every documented schema is local exactly when the target
is little-endian.
-/

namespace RapidLog

open Slice

/-- The opcode of a compound with `n` items, and the count behind it when it is not inline, in this
byte order. -/
inductive CountedHead (order : Endian) (cat : Category) : ℕ → List UInt8 → Prop
  | ofCode {op : UInt8} (hcat : category op = cat) (hk : 0 < sizeCode op) :
      CountedHead order cat (sizeCode op) [op]
  | extended {op : UInt8} {n : ℕ} (hcat : category op = cat) (hk : sizeCode op = 0)
      (hn : n < 256 ^ 2) : CountedHead order cat n (op :: order.toBytes 2 n)

/-- One schema, with counts in this byte order. `one` are the categories of the opcodes that are a
schema by themselves. The two bytes in front of a field or a variant are the offset of its name, and
any two bytes are one. -/
inductive Schema (order : Endian) (one : Category → Prop) : List UInt8 → Prop
  | single {op : UInt8} (hcat : one (category op)) : Schema order one [op]
  | userDefined {op : UInt8} (idx : UInt8) (hcat : category op = .userDefined) :
      Schema order one [op, idx]
  | seq {op : UInt8} {elem : List UInt8} (hcat : category op = .seq)
      (helem : Schema order one elem) : Schema order one (op :: elem)
  | compound {cat : Category} (hc : cat = .tuple ∨ cat = .struct ∨ cat = .enum)
      {head extra : List UInt8} {items : List (List UInt8 × List UInt8)}
      (hhead : CountedHead order cat items.length head) (hextra : extra.length = cat.extra)
      (hskip : ∀ item ∈ items, item.1.length = cat.skip)
      (hitems : ∀ item ∈ items, Schema order one item.2) :
      Schema order one (head ++ (extra ++ itemBytes items))

/-- The grammar of the documentation. The low four bits of the opcode of a scalar, a sequence or a
user-defined type are free. -/
def Documented : List UInt8 → Prop := Schema .little Category.IsScalar

section Target

variable [Target]

/-- The grammar in the byte order of the target, with opcodes of no type. -/
def Recognized : List UInt8 → Prop :=
  Schema Target.endian fun cat => cat.IsScalar ∨ cat = .unknown

namespace CountedHead

variable {cat : Category} {n : ℕ} {head : List UInt8}

theorem toHead (h : CountedHead Target.endian cat n head) : Head cat n head := by
  cases h with
  | ofCode hcat hk => exact .ofCode hcat hk
  | extended hcat hk hn => exact .extended hcat hk hn

/-- Two bytes are a count in the order of the target. -/
theorem of_itemCount {op : UInt8} {tail : List UInt8} (hcat : category op = cat) {start : ℕ}
    (h : itemCount (op :: tail) (sizeCode op) = some (n, start)) :
    CountedHead Target.endian cat n ((op :: tail).take start) ∧ 0 < start := by
  unfold itemCount at h
  split at h
  · next hk =>
    simp only [readU16, Option.bind_eq_bind, Option.bind_eq_some_iff, List.getElem?_cons_succ] at h
    obtain ⟨_, ⟨lo, hlo, hi, hhi, hn⟩, h⟩ := h
    cases h
    cases hn
    obtain ⟨rest, rfl⟩ : ∃ rest, tail = lo :: hi :: rest := by
      match tail, hlo, hhi with
      | lo :: hi :: rest, rfl, rfl => exact ⟨rest, rfl⟩
    have hbytes : Target.endian.toBytes 2 (fromNeBytes [lo, hi]) = [lo, hi] :=
      Target.endian.toBytes_ofBytes [lo, hi]
    have hhead := @extended Target.endian cat op _ hcat hk (fromNeBytes_lt [lo, hi])
    rw [hbytes] at hhead
    exact ⟨hhead, by decide⟩
  · next hk =>
    cases h
    exact ⟨.ofCode hcat (Nat.pos_of_ne_zero hk), Nat.one_pos⟩

end CountedHead

namespace Schema

variable {order : Endian} {one one' : Category → Prop} {s : List UInt8}

omit [Target] in
theorem mono (h : Schema order one s) (hone : ∀ cat, one cat → one' cat) :
    Schema order one' s := by
  induction h with
  | single hcat => exact .single (hone _ hcat)
  | userDefined idx hcat => exact .userDefined idx hcat
  | seq hcat _ ih => exact .seq hcat ih
  | compound hc hhead hextra hskip _ ih => exact .compound hc hhead hextra hskip ih

end Schema

/-! ### A schema of the grammar is local -/

theorem Recognized.selfDelimiting {s : List UInt8} (h : Recognized s) : SelfDelimiting s := by
  induction h with
  | @single op hcat =>
    intro rest
    rw [List.cons_append, measureSchema_eq, measureStep]
    cases hc : category op <;> simp_all [Category.IsScalar]
  | @userDefined op idx hcat =>
    intro rest
    rw [List.cons_append, measureSchema_eq, measureStep]
    simp [hcat]
  | @seq op elem hcat helem ih =>
    intro rest
    have hfrom : sliceFrom (op :: (elem ++ rest)) 1 = some (elem ++ rest) := by
      simp [sliceFrom]
    rw [List.cons_append, measureSchema_eq, measureStep]
    simp [hcat, hfrom, ih rest, Nat.add_comm]
  | compound hc hhead hextra hskip hitems ih =>
    exact selfDelimiting_compound hc _ hhead.toHead hextra hskip ih

theorem Recognized.ne_nil {s : List UInt8} (h : Recognized s) : s ≠ [] := by
  cases h with
  | single | userDefined | seq => exact List.cons_ne_nil _ _
  | compound _ hhead =>
    obtain ⟨op, tail, rfl, -⟩ := hhead.toHead.cons
    exact List.cons_ne_nil _ _

omit [Target] in
/-- Items without labels. -/
theorem itemBytes_of_skip_zero {items : List (List UInt8 × List UInt8)}
    (h : ∀ item ∈ items, item.1.length = 0) : itemBytes items = (items.map Prod.snd).flatten := by
  rw [← itemBytes_unlabelled, List.map_map]
  congr 1
  conv_lhs => rw [← List.map_id items]
  refine List.map_congr_left fun item hitem => ?_
  rw [Function.comp_apply, ← List.length_eq_zero_iff.mp (h item hitem)]
  rfl

/-- Labels of two bytes are offsets in the order of the target. -/
theorem eq_named {items : List (List UInt8 × List UInt8)} (h : ∀ item ∈ items, item.1.length = 2) :
    items = named (items.map fun item => (fromNeBytes item.1, item.2)) := by
  rw [named, List.map_map]
  conv_lhs => rw [← List.map_id items]
  refine List.map_congr_left fun item hitem => ?_
  have hbytes := Target.endian.toBytes_ofBytes item.1
  rw [h item hitem] at hbytes
  exact Prod.ext hbytes.symm rfl

variable [FloatDisplay]

/-- What `format_payload` does for a schema does not depend on the bytes behind it. -/
theorem Recognized.formatPayload_append {s : List UInt8} (h : Recognized s) (rest : List UInt8)
    (payload : List UInt8) (tables : List (List UInt8)) (ufs : List UserFormatter) :
    formatPayload (s ++ rest) payload tables ufs = formatPayload s payload tables ufs := by
  conv_rhs => rw [← List.append_nil s]
  cases h with
  | @single op hcat =>
    rw [List.cons_append, List.cons_append, formatPayload_eq, formatPayload_eq (op :: _)]
    simp only [formatStep]
    cases hc : category op <;> simp_all [Category.IsScalar]
  | @userDefined op idx hcat =>
    rw [formatPayload_eq, formatPayload_eq ([op, idx] ++ [])]
    simp [formatStep, hcat]
  | @seq op elem hcat helem =>
    have hself := Recognized.selfDelimiting helem
    rw [List.cons_append, List.cons_append, formatPayload_seq hcat hself,
      formatPayload_seq hcat hself]
  | @compound cat hc head extra items hhead hextra hskip hitems =>
    have hself : ∀ item ∈ items, SelfDelimiting item.2 ∧ item.2 ≠ [] := fun item hitem =>
      ⟨Recognized.selfDelimiting (hitems item hitem), Recognized.ne_nil (hitems item hitem)⟩
    rcases hc with rfl | rfl | rfl
    · -- a tuple
      obtain rfl := List.length_eq_zero_iff.mp hextra
      have hsub : ∀ s ∈ items.map Prod.snd, SelfDelimiting s := by
        intro s hs
        obtain ⟨item, hitem, rfl⟩ := List.mem_map.mp hs
        exact (hself item hitem).1
      have hhead' : Head .tuple (items.map Prod.snd).length head := by
        rw [List.length_map]
        exact hhead.toHead
      rw [List.nil_append, itemBytes_of_skip_zero hskip, List.append_assoc, List.append_assoc,
        formatPayload_tuple hhead' hsub, formatPayload_tuple hhead' hsub]
    -- the items of a struct and of an enum are labelled with offsets into a string table
    all_goals
      obtain ⟨fields, rfl, hoff⟩ :
          ∃ fields, items = named fields ∧ ∀ f ∈ fields, f.1 < 256 ^ 2 := by
        refine ⟨_, eq_named hskip, fun f hf => ?_⟩
        obtain ⟨item, hitem, rfl⟩ := List.mem_map.mp hf
        have hlt := fromNeBytes_lt item.1
        rwa [hskip item hitem] at hlt
      have hsub : ∀ f ∈ fields, SelfDelimiting f.2 ∧ f.2 ≠ [] := fun f hf =>
        hself _ (List.mem_map_of_mem hf)
      have hhead' := hhead.toHead
      rw [length_named] at hhead'
    · -- a struct
      obtain ⟨stIdx, rfl⟩ := List.length_eq_one_iff.mp hextra
      simp only [List.append_assoc, List.cons_append, List.nil_append]
      rw [formatPayload_struct hhead' hoff fun f hf => (hsub f hf).1,
        formatPayload_struct hhead' hoff fun f hf => (hsub f hf).1]
    · -- an enum
      obtain ⟨vdxK, stIdx, rfl⟩ := List.length_eq_two.mp hextra
      simp only [List.append_assoc, List.cons_append, List.nil_append]
      rw [formatPayload_enum hhead' hoff hsub, formatPayload_enum hhead' hoff hsub]

/-! ### Nothing else is local -/

omit [Target] [FloatDisplay] in
theorem le_of_measureItems {measure : List UInt8 → Option ℕ} {u : List UInt8} {skip c pos n : ℕ}
    (h : measureItems measure u skip c pos = some n) : pos ≤ n := by
  induction c generalizing pos with
  | zero =>
    cases h
    exact le_rfl
  | succ c ih =>
    simp only [measureItems, Option.bind_eq_bind, Option.bind_eq_some_iff] at h
    obtain ⟨sub, -, len, -, h⟩ := h
    have hle := ih h
    omega

omit [FloatDisplay] in
/-- What the loop over the items went over are items, if what `measure_schema` went over in each of
them is a schema. -/
theorem take_of_measureItems {u : List UInt8} {skip c pos n : ℕ}
    (hmeasure : measureItems measureSchema u skip c pos = some n) (hlt : n < u.length)
    (hpos : 0 < pos)
    (hsub : ∀ sub len, sub.length < u.length → measureSchema sub = some len → len < sub.length →
      Recognized (sub.take len)) :
    ∃ items : List (List UInt8 × List UInt8), items.length = c ∧
      (∀ item ∈ items, item.1.length = skip ∧ Recognized item.2) ∧
      u.take n = u.take pos ++ itemBytes items := by
  induction c generalizing pos with
  | zero =>
    cases hmeasure
    exact ⟨[], rfl, by simp, by simp⟩
  | succ c ih =>
    simp only [measureItems, Option.bind_eq_bind, Option.bind_eq_some_iff] at hmeasure
    obtain ⟨sub, hfrom, len, hlen, hrest⟩ := hmeasure
    obtain ⟨hle, rfl⟩ := sliceFrom_eq_some_iff.mp hfrom
    have hend := le_of_measureItems hrest
    have hitem := hsub _ len (by rw [List.length_drop]; omega) hlen
      (by rw [List.length_drop]; omega)
    obtain ⟨items, rfl, hitems, htake⟩ := ih hrest (by omega)
    refine ⟨((u.drop pos).take skip, (u.drop (pos + skip)).take len) :: items, rfl, ?_, ?_⟩
    · rintro item (_ | ⟨_, hmem⟩)
      · exact ⟨by rw [List.length_take, List.length_drop]; omega, hitem⟩
      · exact hitems item hmem
    · rw [htake, List.take_add, List.take_add, itemBytes_cons]
      simp only [List.append_assoc]

omit [FloatDisplay] in
/-- If `measure_schema` finds an end, and bytes behind it, what stands before it is a schema. -/
theorem recognized_of_measureSchema {u : List UInt8} {n : ℕ} (h : measureSchema u = some n)
    (hlt : n < u.length) : Recognized (u.take n) := by
  induction hlen : u.length using Nat.strong_induction_on generalizing u n with
  | _ m ih =>
    subst hlen
    -- what stands in `u` is shorter than `u`, so it is measured as a schema by induction
    have hsub : ∀ sub len, sub.length < u.length → measureSchema sub = some len →
        len < sub.length → Recognized (sub.take len) := fun sub len hshort hmeasure hend =>
      ih sub.length hshort hmeasure hend rfl
    cases u with
    | nil => exact absurd hlt (Nat.not_lt_zero n)
    | cons op tail =>
      -- the three compound categories differ in their heads only
      have hcompound : ∀ {cat : Category}, category op = cat →
          (cat = .tuple ∨ cat = .struct ∨ cat = .enum) → Recognized ((op :: tail).take n) := by
        intro cat hcat hc
        rw [measureSchema_compound hcat hc, Option.bind_eq_some_iff] at h
        obtain ⟨⟨c, start⟩, hcount, hitems⟩ := h
        obtain ⟨hhead, hstart⟩ := CountedHead.of_itemCount hcat hcount
        obtain ⟨items, rfl, hmem, htake⟩ :=
          take_of_measureItems hitems hlt (Nat.add_pos_left hstart _) hsub
        have hle := le_of_measureItems hitems
        rw [htake, List.take_add, List.append_assoc]
        refine .compound hc hhead ?_ (fun item hitem => (hmem item hitem).1)
          fun item hitem => (hmem item hitem).2
        rw [List.length_take, List.length_drop]
        omega
      cases hcat : category op with
      | tuple => exact hcompound hcat (.inl rfl)
      | struct => exact hcompound hcat (.inr (.inl rfl))
      | enum => exact hcompound hcat (.inr (.inr rfl))
      | seq =>
        rw [measureSchema_eq, measureStep] at h
        simp only [hcat, Option.bind_eq_bind, Option.bind_eq_some_iff] at h
        obtain ⟨sub, hfrom, len, hmeasure, h⟩ := h
        obtain ⟨-, rfl⟩ := sliceFrom_eq_some_iff.mp hfrom
        cases h
        rw [List.length_cons] at hlt
        have helem := hsub _ len (by simp) hmeasure (by rw [List.drop_one, List.tail_cons]; omega)
        rw [Nat.add_comm, List.take_succ_cons]
        exact .seq hcat helem
      | userDefined =>
        rw [measureSchema_eq, measureStep] at h
        simp only [hcat] at h
        cases h
        rcases tail with _ | ⟨idx, rest⟩
        · exact absurd hlt (by simp)
        · exact .userDefined idx hcat
      | unit | signedInt | unsignedInt | float | str | char | bool | unknown =>
        rw [measureSchema_eq, measureStep] at h
        simp only [hcat] at h
        cases h
        exact .single (by simp [hcat, Category.IsScalar])

/-- Both interpreters treat the schema in the same way whatever follows it. -/
def Local (s : List UInt8) : Prop :=
  ∀ t, measureSchema (s ++ t) = some s.length ∧ ∀ payload tables ufs,
    formatPayload (s ++ t) payload tables ufs = formatPayload s payload tables ufs

/-- The local schemas are those of the grammar in the byte order of the target. -/
theorem local_iff (s : List UInt8) : Local s ↔ Recognized s := by
  constructor
  · intro h
    have hrecognized := recognized_of_measureSchema (h [0]).1 (by simp)
    rwa [List.take_left] at hrecognized
  · intro h t
    exact ⟨h.selfDelimiting t, h.formatPayload_append t⟩

omit [FloatDisplay] in
theorem Documented.recognized {s : List UInt8} (h : Documented s)
    (hlittle : Target.endian = .little) : Recognized s := by
  unfold Recognized
  rw [hlittle]
  exact Schema.mono h fun _ => .inl

section BigEndian

omit [FloatDisplay]

/-- A tuple of 256 values of type `()`. -/
def units : List UInt8 :=
  [opTuple, 0, 1] ++ ([] ++ itemBytes (List.replicate 256 ([], [opUnit])))

omit [Target] in
theorem length_units : units.length = 259 := by
  simp only [units, itemBytes, List.flatMap_replicate, List.length_append, List.length_flatten,
    List.map_replicate, List.sum_replicate]
  decide

omit [Target] in
theorem documented_units : Documented units := by
  have hhead : CountedHead .little .tuple (List.replicate 256 (([] : List UInt8), [opUnit])).length
      [opTuple, 0, 1] := by
    rw [List.length_replicate]
    exact @CountedHead.extended .little .tuple opTuple 256 (by decide) (by decide) (by decide)
  refine Schema.compound (.inl rfl) hhead rfl (fun item hitem => ?_) fun item hitem => ?_
  · rw [List.eq_of_mem_replicate hitem]
    rfl
  · rw [List.eq_of_mem_replicate hitem]
    exact .single (show (category opUnit).IsScalar from trivial)

/-- In big-endian order the count is one. -/
theorem measureSchema_units (hbig : Target.endian = .big) (rest : List UInt8) :
    measureSchema (units ++ rest) = some 4 := by
  obtain ⟨tail, hbytes⟩ : ∃ tail, units ++ rest = opTuple :: 0 :: 1 :: opUnit :: tail := by
    rw [units, List.replicate_succ, itemBytes_cons]
    exact ⟨_, rfl⟩
  have hcount : itemCount (opTuple :: 0 :: 1 :: opUnit :: tail) (sizeCode opTuple) =
      some (1, 3) := by
    simp [itemCount, readU16, fromNeBytes, hbig, Endian.ofBytes, ofLeBytes,
      show sizeCode opTuple = 0 by decide]
  have hunit : measureSchema (opUnit :: tail) = some 1 := by
    rw [measureSchema_eq]
    rfl
  rw [hbytes, measureSchema_compound (show category opTuple = .tuple by decide) (.inl rfl), hcount]
  simp [measureItems, sliceFrom, Category.skip, Category.extra, hunit]

end BigEndian

/-- A documented schema is local exactly when the target is little-endian, or its bytes are a schema
in big-endian order too. That all of them are takes a little-endian target. -/
theorem documented_local_iff :
    (∀ s, Documented s → (Local s ↔ Target.endian = .little ∨
      Schema .big (fun cat => cat.IsScalar ∨ cat = .unknown) s)) ∧
    ((∀ s, Documented s → Local s) ↔ Target.endian = .little) := by
  constructor
  · intro s hs
    rw [local_iff]
    cases horder : Target.endian with
    | little => exact iff_of_true (hs.recognized horder) (.inl rfl)
    | big =>
      rw [Recognized, horder]
      exact (or_iff_right (by decide)).symm
  · constructor
    · intro hall
      by_contra hlittle
      have hbig : Target.endian = .big := by
        cases horder : Target.endian with
        | little => exact absurd horder hlittle
        | big => rfl
      have hmeasure := (hall units documented_units []).1
      rw [measureSchema_units hbig, length_units] at hmeasure
      exact absurd hmeasure (by decide)
    · exact fun hlittle s hs => (local_iff s).mpr (hs.recognized hlittle)

end Target

/-- On a little-endian target a tuple of 256 units is local. -/
theorem documented_local_iff_units :
    letI : Target := x86_64
    letI := noFloats
    Local units := by
  let _ : Target := x86_64
  let _ := noFloats
  exact (documented_local_iff.1 units documented_units).mpr (.inl rfl)

/-- On a big-endian target `measure_schema` finds the end of 256 units behind the first of them. -/
theorem units_not_local :
    letI : Target := { endian := .big, pointerWidth := .w64 }
    letI := noFloats
    ¬ ∀ s, Documented s → Local s := by
  let _ : Target := { endian := .big, pointerWidth := .w64 }
  let _ := noFloats
  intro hall
  have hmeasure := (hall units documented_units []).1
  rw [measureSchema_units rfl, length_units] at hmeasure
  exact absurd hmeasure (by decide)

end RapidLog
