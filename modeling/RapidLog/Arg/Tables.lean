import RapidLog.Arg

/-!
# String tables

A string table is made of names that each end with a zero byte. The interpreter takes the bytes
from an offset up to the next zero byte, so what it finds is a name exactly when the table has the
bytes of the name there, as a whole entry or as the end of one (`readStrFromTable_eq_iff`).
-/

namespace RapidLog

/-- The characters that stand around names in a text. -/
def delimiters : List Char := [':', ',', '(', ')', '[', ']', '\x7b', '\x7d']

/-- The byte of a delimiter is its code, and is not zero. -/
theorem toNat_ofNat_of_mem {c : Char} (hc : c ∈ delimiters) :
    0 < c.toNat ∧ c.toNat < 128 ∧ (UInt8.ofNat c.toNat).toNat = c.toNat := by
  have hascii : 0 < c.toNat ∧ c.toNat < 128 := by
    simp only [delimiters, List.mem_cons, List.not_mem_nil, or_false] at hc
    rcases hc with rfl | rfl | rfl | rfl | rfl | rfl | rfl | rfl <;> decide
  refine ⟨hascii.1, hascii.2, ?_⟩
  rw [UInt8.toNat_ofNat']
  omega

/-- What is known of an identifier: it is not empty, and has neither a zero nor a delimiter. -/
structure IsIdent (name : String) : Prop where
  ne_empty : name ≠ ""
  ne_zero : ∀ c ∈ name.toList, c.toNat ≠ 0
  clean : ∀ c ∈ name.toList, c ∉ delimiters

/-- A string table whose last entry ends, and in which there are no delimiters. -/
structure TableOk (table : List UInt8) : Prop where
  ends : table = [] ∨ ∃ entries, table = entries ++ [0]
  clean : ∀ c ∈ delimiters, UInt8.ofNat c.toNat ∉ table

/-- The table has the bytes of the name at the offset, and then a zero byte. -/
def NameAt (table : List UInt8) (off : ℕ) (name : String) : Prop :=
  ∃ before after, table = before ++ (Utf8.encode name ++ 0 :: after) ∧ before.length = off

section Names

variable {table : List UInt8} {off : ℕ} {name : String}

/-- A name that is put into a table stands behind what the table had already. -/
theorem nameAt_append (table : List UInt8) (name : String) :
    NameAt (table ++ (Utf8.encode name ++ [0])) table.length name :=
  ⟨table, [], rfl, rfl⟩

/-- A name stays where it is when more names are put into the table. -/
theorem NameAt.mono {table' : List UInt8} (h : NameAt table off name)
    (htable : table <+: table') : NameAt table' off name := by
  obtain ⟨before, after, rfl, rfl⟩ := h
  obtain ⟨rest, rfl⟩ := htable
  exact ⟨before, after ++ rest, by simp, rfl⟩

theorem NameAt.lt (h : NameAt table off name) : off < table.length := by
  obtain ⟨before, after, rfl, rfl⟩ := h
  simp

theorem zero_notMem_encode (hname : ∀ c ∈ name.toList, c.toNat ≠ 0) :
    (0 : UInt8) ∉ Utf8.encode name := by
  rw [Utf8.mem_encode_iff (by decide)]
  rintro ⟨c, hc, hzero⟩
  exact hname c hc hzero

/-- What the interpreter finds in a table. -/
theorem readStrFromTable_eq (table : List UInt8) (off : ℕ) :
    readStrFromTable 0 off [table] =
      (Utf8.decode ((table.drop off).takeWhile (· ≠ 0))).getD "" := by
  have hget : ([table][0]?).getD [] = table := rfl
  rw [readStrFromTable, hget]
  split
  · next hle =>
    rw [List.drop_eq_nil_of_le hle]
    have hempty : Utf8.decode [] = some "" := Utf8.decode_encode ""
    rw [List.takeWhile_nil, hempty]
    rfl
  · rfl

theorem readStrFromTable_of_nameAt (hname : ∀ c ∈ name.toList, c.toNat ≠ 0)
    (h : NameAt table off name) : readStrFromTable 0 off [table] = name := by
  obtain ⟨before, after, rfl, rfl⟩ := h
  have hzero := zero_notMem_encode hname
  have hall : ∀ b ∈ Utf8.encode name, decide (b ≠ 0) = true := by
    intro b hb
    rw [decide_eq_true_eq]
    rintro rfl
    exact hzero hb
  rw [readStrFromTable_eq, List.drop_left, List.takeWhile_append_of_pos hall]
  simp

/-- The interpreter finds a name exactly where the table has it. -/
theorem readStrFromTable_eq_iff (hname : IsIdent name) (htable : TableOk table) (off : ℕ) :
    readStrFromTable 0 off [table] = name ↔ NameAt table off name := by
  constructor
  · intro h
    rw [readStrFromTable_eq] at h
    -- the bytes are those of the name, since it is not empty
    have hbytes : (table.drop off).takeWhile (· ≠ 0) = Utf8.encode name := by
      cases hdecode : Utf8.decode ((table.drop off).takeWhile (· ≠ 0)) with
      | none =>
        rw [hdecode] at h
        exact absurd h.symm hname.ne_empty
      | some found =>
        rw [hdecode] at h
        rw [← h]
        exact (Utf8.decode_eq_some_iff _ _).mp hdecode
    have hsplit : Utf8.encode name ++ (table.drop off).dropWhile (· ≠ 0) = table.drop off := by
      rw [← hbytes, List.takeWhile_append_dropWhile]
    have hnil : Utf8.encode name ≠ [] := fun hnil =>
      hname.ne_empty (Utf8.encode_injective hnil)
    have hle : off ≤ table.length := by
      by_contra hlt
      rw [List.drop_eq_nil_of_le (by omega)] at hsplit
      exact hnil (List.append_eq_nil_iff.mp hsplit).1
    have hzero : (0 : UInt8) ∈ table.drop off := by
      rcases htable.ends with rfl | ⟨entries, rfl⟩
      · rw [List.drop_nil] at hsplit
        exact absurd (List.append_eq_nil_iff.mp hsplit).1 hnil
      · have hoff : off ≤ entries.length := by
          by_contra hlt
          rw [List.drop_eq_nil_of_le (by rw [List.length_append]; exact not_le.mp hlt)] at hsplit
          exact hnil (List.append_eq_nil_iff.mp hsplit).1
        rw [List.drop_append_of_le_length hoff]
        simp
    have hhead := List.head?_dropWhile_not (· ≠ 0) (table.drop off)
    cases hrest : (table.drop off).dropWhile (· ≠ 0) with
    | nil =>
      rw [hrest, List.append_nil] at hsplit
      rw [← hsplit] at hzero
      exact absurd hzero (zero_notMem_encode hname.ne_zero)
    | cons b after =>
      rw [hrest] at hhead hsplit
      have hb : b = 0 := by simpa using hhead
      refine ⟨table.take off, after, ?_, List.length_take_of_le hle⟩
      rw [← hb, hsplit, List.take_append_drop]
  · exact readStrFromTable_of_nameAt hname.ne_zero

/-- The interpreter finds no delimiters in a table. -/
theorem readStrFromTable_clean (htable : TableOk table) (off : ℕ) :
    ∀ c ∈ (readStrFromTable 0 off [table]).toList, c ∉ delimiters := by
  intro c hc hdelim
  rw [readStrFromTable_eq] at hc
  obtain ⟨-, hascii, hbyte⟩ := toNat_ofNat_of_mem hdelim
  cases hdecode : Utf8.decode ((table.drop off).takeWhile (· ≠ 0)) with
  | none =>
    rw [hdecode] at hc
    cases hc
  | some found =>
    rw [hdecode] at hc
    have hmem : UInt8.ofNat c.toNat ∈ Utf8.encode found :=
      (Utf8.mem_encode_iff (by omega) found).mpr ⟨c, hc, hbyte.symm⟩
    rw [← (Utf8.decode_eq_some_iff _ _).mp hdecode] at hmem
    exact htable.clean c hdelim (List.mem_of_mem_drop ((List.takeWhile_sublist _).mem hmem))

theorem TableOk.nil : TableOk [] := ⟨.inl rfl, by simp⟩

/-- A name is put into a string table after what it has already. -/
theorem TableOk.append_name (htable : TableOk table) (hname : IsIdent name) :
    TableOk (table ++ (Utf8.encode name ++ [0])) where
  ends := .inr ⟨table ++ Utf8.encode name, (List.append_assoc ..).symm⟩
  clean := by
    intro c hc hmem
    obtain ⟨hpos, hlt, hbyte⟩ := toNat_ofNat_of_mem hc
    rcases List.mem_append.mp hmem with hmem | hmem
    · exact htable.clean c hc hmem
    · rcases List.mem_append.mp hmem with hmem | hmem
      · -- a byte below 128 is a character of the name
        obtain ⟨d, hd, hdc⟩ := (Utf8.mem_encode_iff (by omega) name).mp hmem
        have hcd : d = c := by
          rw [hbyte] at hdc
          exact Char.toNat_inj.mp hdc
        exact hname.clean d hd (hcd ▸ hc)
      · rw [List.mem_singleton.mp hmem] at hbyte
        exact absurd hbyte hpos.ne

end Names

end RapidLog
