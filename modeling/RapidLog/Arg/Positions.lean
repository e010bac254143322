import RapidLog.Arg.Grammar

/-!
# Where the interpreters read numbers

`measure_schema` and `format_payload` read numbers of two bytes at two kinds of places of a schema:
behind the opcode of a compound, where a count stands that is not inline, and at the label of each
item of a struct or an enum. `ReadsAt` collects these places, those in the schemas of the items
included.

The loops over the items come to the labels at `labelStarts` and to no others
(`formatItems_congr_label`, `findVariant_reads`). In a compound that is put together from items
these are the places where the labels were put (`readsAt_items`).
-/

namespace RapidLog

open Slice

section Target

variable [Target]

/-- Where the loop over `n` labelled items finds their labels, the first one at `pos`. It ends where
the schema of an item cannot be measured. -/
def labelStarts (schema : List UInt8) : ℕ → ℕ → List ℕ
  | 0, _ => []
  | n + 1, pos =>
    match (sliceFrom schema (pos + 2)).bind measureSchema with
    | some len => pos :: labelStarts schema n (pos + 2 + len)
    | none => [pos]

/-- A place of a schema at which the interpreters read a number of two bytes. -/
inductive ReadsAt : List UInt8 → ℕ → Prop
  /-- The count of a compound, when it is not in the opcode. -/
  | count {op : UInt8} {tail : List UInt8}
    (hcat : category op = .tuple ∨ category op = .struct ∨ category op = .enum)
    (hk : sizeCode op = 0) : ReadsAt (op :: tail) 1
  /-- The label of an item of a struct or an enum. -/
  | label {op : UInt8} {tail : List UInt8} {n start pos : ℕ}
    (hcat : category op = .struct ∨ category op = .enum)
    (hcount : itemCount (op :: tail) (sizeCode op) = some (n, start))
    (hpos : pos ∈ labelStarts (op :: tail) n (start + (category op).extra)) :
    ReadsAt (op :: tail) pos
  /-- A place in the schema of such an item. -/
  | item {op : UInt8} {tail sub : List UInt8} {n start pos len p : ℕ}
    (hcat : category op = .struct ∨ category op = .enum)
    (hcount : itemCount (op :: tail) (sizeCode op) = some (n, start))
    (hpos : pos ∈ labelStarts (op :: tail) n (start + (category op).extra))
    (hlen : (sliceFrom (op :: tail) (pos + 2)).bind measureSchema = some len)
    (hsub : slice (op :: tail) (pos + 2) (pos + 2 + len) = some sub) (h : ReadsAt sub p) :
    ReadsAt (op :: tail) (pos + 2 + p)

/-! ### The loops -/

section Loops

variable {schema : List UInt8}

/-- The loop over the fields of a struct asks for labels at `labelStarts` only. -/
theorem formatItems_congr_label {format : List UInt8 → List UInt8 → Option (String × ℕ)}
    {payload : List UInt8} {label label' : ℕ → Option (String × ℕ)}
    (hnext : ∀ p name next, label p = some (name, next) → next = p + 2) {n spos : ℕ}
    (h : ∀ p ∈ labelStarts schema n spos, label p = label' p) (i pos : ℕ) :
    formatItems format label schema payload n i spos pos =
      formatItems format label' schema payload n i spos pos := by
  induction n generalizing i spos pos with
  | zero => rfl
  | succ n ih =>
    -- the first of the positions is where the label of this item is
    have hhere : label spos = label' spos := by
      apply h
      rw [labelStarts]
      split <;> exact List.mem_cons_self
    rw [formatItems, formatItems, ← hhere]
    cases hlabel : label spos with
    | none => rfl
    | some r =>
      obtain ⟨name, next⟩ := r
      obtain rfl := hnext _ _ _ hlabel
      simp only [Option.bind_eq_bind, Option.bind_some]
      rw [labelStarts] at h
      cases hsub : sliceFrom schema (spos + 2) with
      | none => rfl
      | some sub =>
        rw [Option.bind_some, Option.bind_some]
        cases hlen : measureSchema sub with
        | none => rfl
        | some len =>
          -- the rest of the loop begins behind the schema of the item, and so do the other positions
          simp only [hsub, Option.bind_some, hlen] at h ⊢
          have hrest := ih fun p hp => h p (List.mem_cons_of_mem _ hp)
          simp only [hrest]

/-- Behind the chosen variant the loop over the variants changes nothing that it has found. -/
private theorem found_of_findVariant {stIdx varIdx : ℕ} {tables : List (List UInt8)} {n i pos : ℕ}
    {found result : String × ℕ × ℕ} (hlt : varIdx < i)
    (h : findVariant schema stIdx varIdx tables n i pos found = some result) : result = found := by
  induction n generalizing i pos with
  | zero => exact (Option.some.inj h).symm
  | succ n ih =>
    simp only [findVariant, Option.bind_eq_bind] at h
    obtain ⟨off, -, h⟩ := Option.bind_eq_some_iff.mp h
    obtain ⟨sub, -, h⟩ := Option.bind_eq_some_iff.mp h
    obtain ⟨len, -, h⟩ := Option.bind_eq_some_iff.mp h
    rw [if_neg (by omega)] at h
    exact ih (by omega) h

/-- The loop over the variants reads a number at each of `labelStarts`, and the name of the chosen
variant is at the offset that it has read there. -/
theorem findVariant_reads {stIdx varIdx : ℕ} {tables : List (List UInt8)} {n i pos : ℕ}
    {found result : String × ℕ × ℕ}
    (h : findVariant schema stIdx varIdx tables n i pos found = some result) :
    (labelStarts schema n pos).length = n ∧
      ∀ j p, (labelStarts schema n pos)[j]? = some p → ∃ off, readU16 schema p = some off ∧
        (i + j = varIdx →
          ∃ len, result = (readStrFromTable stIdx off tables, p + 2, p + 2 + len)) := by
  induction n generalizing i pos found with
  | zero => exact ⟨rfl, fun j p hp => by cases hp⟩
  | succ n ih =>
    simp only [findVariant, Option.bind_eq_bind] at h
    obtain ⟨off, hoff, h⟩ := Option.bind_eq_some_iff.mp h
    obtain ⟨sub, hsub, h⟩ := Option.bind_eq_some_iff.mp h
    obtain ⟨len, hlen, h⟩ := Option.bind_eq_some_iff.mp h
    obtain ⟨hlength, hreads⟩ := ih h
    simp only [labelStarts, hsub, Option.bind_some, hlen]
    refine ⟨by rw [List.length_cons, hlength], fun j p hp => ?_⟩
    cases j with
    | zero =>
      -- when this variant is the chosen one, the variants behind it change nothing
      obtain rfl : pos = p := Option.some.inj hp
      refine ⟨off, hoff, fun hi => ⟨len, ?_⟩⟩
      rw [if_pos (show i = varIdx from hi)] at h
      exact found_of_findVariant (by omega) h
    | succ j =>
      obtain ⟨off', hoff', hname⟩ := hreads j p hp
      exact ⟨off', hoff', fun hi => hname (by omega)⟩

end Loops

/-! ### Compounds put together from items -/

/-- Where items that follow one another begin, with their schemas. -/
def itemStarts : ℕ → List (List UInt8 × List UInt8) → List (ℕ × List UInt8)
  | _, [] => []
  | pos, item :: items =>
    (pos, item.2) :: itemStarts (pos + item.1.length + item.2.length) items

section Items

variable {items : List (List UInt8 × List UInt8)}

/-- The loop comes to each item, and finds its schema behind the label. -/
theorem labelStarts_append (hlabel : ∀ item ∈ items, item.1.length = 2)
    (hitems : ∀ item ∈ items, SelfDelimiting item.2) (pre rest : List UInt8) :
    labelStarts (pre ++ (itemBytes items ++ rest)) items.length pre.length =
        (itemStarts pre.length items).map Prod.fst ∧
      ∀ x ∈ itemStarts pre.length items,
        (sliceFrom (pre ++ (itemBytes items ++ rest)) (x.1 + 2)).bind measureSchema =
            some x.2.length ∧
          slice (pre ++ (itemBytes items ++ rest)) (x.1 + 2) (x.1 + 2 + x.2.length) =
            some x.2 := by
  induction items generalizing pre with
  | nil => exact ⟨rfl, fun x hx => by cases hx⟩
  | cons item items ih =>
    obtain ⟨label, s⟩ := item
    have hlen : label.length = 2 := hlabel (label, s) (by simp)
    have hs : SelfDelimiting s := hitems (label, s) (by simp)
    obtain ⟨hstarts, hrest⟩ := ih (fun i hi => hlabel i (by simp [hi]))
      (fun i hi => hitems i (by simp [hi])) (pre ++ (label ++ s))
    have hpre : (pre ++ (label ++ s)).length = pre.length + 2 + s.length := by
      simp [hlen, Nat.add_assoc]
    -- for the items behind it the first item is part of what comes before
    have hsplit : pre ++ (itemBytes ((label, s) :: items) ++ rest) =
        pre ++ (label ++ s) ++ (itemBytes items ++ rest) := by
      simp
    have hfrom : sliceFrom (pre ++ (itemBytes ((label, s) :: items) ++ rest)) (pre.length + 2) =
        some (s ++ (itemBytes items ++ rest)) := by
      have hlen' : (pre ++ label).length = pre.length + 2 := by simp [hlen]
      rw [itemBytes_cons, List.append_assoc, List.append_assoc, ← List.append_assoc pre]
      exact sliceFrom_append hlen'
    have hmeasure : (sliceFrom (pre ++ (itemBytes ((label, s) :: items) ++ rest))
        (pre.length + 2)).bind measureSchema = some s.length := by
      rw [hfrom, Option.bind_some, hs]
    rw [hpre, ← hsplit] at hstarts hrest
    constructor
    · rw [List.length_cons, labelStarts, hmeasure, itemStarts, hlen, List.map_cons, ← hstarts]
    · intro x hx
      rw [itemStarts, hlen] at hx
      rcases List.mem_cons.mp hx with rfl | hx
      · refine ⟨hmeasure, ?_⟩
        rw [itemBytes_cons, List.append_assoc, List.append_assoc, ← List.append_assoc pre]
        exact slice_append (by simp [hlen]) rfl
      · exact hrest x hx

/-- The interpreters read the label of each item, and in its schema what they read there. -/
theorem readsAt_items {cat : Category} (hcat : cat = .struct ∨ cat = .enum) {head : List UInt8}
    (hhead : Head cat items.length head) {extra : List UInt8} (hextra : extra.length = cat.extra)
    (hlabel : ∀ item ∈ items, item.1.length = 2)
    (hitems : ∀ item ∈ items, SelfDelimiting item.2) {x : ℕ × List UInt8}
    (hx : x ∈ itemStarts (head.length + extra.length) items) :
    ReadsAt (head ++ (extra ++ itemBytes items)) x.1 ∧
      ∀ p, ReadsAt x.2 p → ReadsAt (head ++ (extra ++ itemBytes items)) (x.1 + 2 + p) := by
  obtain ⟨op, tail, rfl, rfl, hcount⟩ := hhead.cons
  obtain ⟨hstarts, hsub⟩ := labelStarts_append hlabel hitems (op :: tail ++ extra) []
  rw [List.append_nil, List.append_assoc, List.length_append] at hstarts hsub
  obtain ⟨hlen, hslice⟩ := hsub x hx
  have hpos : x.1 ∈ labelStarts (op :: tail ++ (extra ++ itemBytes items)) items.length
      ((op :: tail).length + (category op).extra) := by
    rw [← hextra, hstarts]
    exact List.mem_map_of_mem hx
  exact ⟨.label hcat (hcount _) hpos, fun p hp => .item hcat (hcount _) hpos hlen hslice hp⟩

end Items

end Target

end RapidLog
