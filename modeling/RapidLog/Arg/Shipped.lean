import RapidLog.Arg.Tables
import RapidLog.Derive.Logged

/-!
# The arguments of a message

`Shipped` says that a type is built from the impls of the crate and from derived ones. Every such
type is good (`Shipped.good`), so the arguments of a message are decoded independently of each
other: each is shown as it would be alone, and takes exactly the bytes that were written for it
(`decodeArgs_each`).
-/

namespace RapidLog

open SliceWriter

section Target

variable [Target] [FloatDisplay]

namespace Logged

/-- A signed integer of a size that its code `k` stands for. -/
def signedInt (k : ℕ) : Logged :=
  scalar (.signedInt k) fun v : BitVec (8 * sizeForK k) =>
    toString (printedSigned (sizeForK k) v.toInt)

/-- An unsigned integer of a size that its code `k` stands for. -/
def unsignedInt (k : ℕ) : Logged :=
  scalar (.unsignedInt k) fun v : BitVec (8 * sizeForK k) =>
    toString (printedUnsigned (sizeForK k) v.toNat)

/-- A `usize` is read back as eight bytes. -/
def usize : Logged :=
  scalar .usize fun v : BitVec Encode.usizeBits => toString (printedUnsigned 8 v.toNat)

/-- A float is shown as `Display` shows it, from its bits. -/
def f32 : Logged := scalar .f32 fun v : BitVec 32 => FloatDisplay.f32 v.toNat

/-- A double is shown as `Display` shows it, from its bits. -/
def f64 : Logged := scalar .f64 fun v : BitVec 64 => FloatDisplay.f64 v.toNat

/-- A boolean is shown as `true` or `false`. -/
def bool : Logged := scalar .bool fun v : Bool => toString v

/-- A character is shown as itself. -/
def char : Logged := scalar .char fun v : Char => v.toString

/-- The value of `()` takes no bytes. -/
def unit : Logged := scalar .unit fun _ => "()"

/-- A type that is logged as its text. -/
def text (e : Encode) (text : e.Self → String) : Logged :=
  scalar e fun v => (Utf8.decode (keptBytes (text v))).getD ""

/-- A map in the order in which the iterator of the `HashMap` gives its entries. -/
def hashMap (k v : Logged) : Logged := entries k v

/-- A map in the order of its keys. -/
def bTreeMap (k v : Logged) : Logged := entries k v

end Logged

/-- The lengths of the arrays that can be logged. -/
def arrayLengths : List ℕ := [0, 1, 2, 3, 4, 5, 6, 7, 8, 9, 10, 16, 32, 64, 128, 256]

/-- A type that is built from the impls of the crate and from derived ones. The schema of `usize`
is right on a 64-bit target only; the derived schemas are those that the interpreter can read. -/
inductive Shipped : Logged → Prop
  | signedInt {k : ℕ} (hk : 1 ≤ k ∧ k ≤ 5) : Shipped (.signedInt k)
  | unsignedInt {k : ℕ} (hk : 1 ≤ k ∧ k ≤ 5) : Shipped (.unsignedInt k)
  | usize (hwidth : Target.pointerWidth = .w64) : Shipped .usize
  | f32 : Shipped .f32
  | f64 : Shipped .f64
  | bool : Shipped .bool
  | char : Shipped .char
  | unit : Shipped .unit
  | text {e : Encode} {text : e.Self → String} (h : TextImpl e text) : Shipped (.text e text)
  | tuple {ps : List Logged} (hlen : 1 ≤ ps.length ∧ ps.length ≤ 12) (hps : ∀ p ∈ ps, Shipped p) :
      Shipped (.tuple ps)
  | array {n : ℕ} {p : Logged} (hn : n ∈ arrayLengths) (hp : Shipped p) : Shipped (.array n p)
  | vec {p : Logged} (hp : Shipped p) : Shipped (.vec p)
  | hashMap {k v : Logged} (hk : Shipped k) (hv : Shipped v) : Shipped (.hashMap k v)
  | bTreeMap {k v : Logged} (hk : Shipped k) (hv : Shipped v) : Shipped (.bTreeMap k v)
  | option {p : Logged} (hp : Shipped p) : Shipped (.option p)
  | result {p q : Logged} (hp : Shipped p) (hq : Shipped q) : Shipped (.result p q)
  | deriveStruct {fs : List (String × Logged)} (hcount : CountOk fs.length)
      (hnames : ∀ f ∈ fs, IsIdent f.1) (hfs : ∀ f ∈ fs, Shipped f.2) : Shipped (.deriveStruct fs)
  | deriveEnum {vs : List (String × Logged.VariantFields)} (hcount : CountOk vs.length)
      (hcounts : ∀ v ∈ vs, v.2.CountsOk)
      (hnames : ∀ v ∈ vs, IsIdent v.1 ∧ ∀ name ∈ v.2.names, IsIdent name)
      (hvs : ∀ v ∈ vs, ∀ p ∈ v.2.types, Shipped p) : Shipped (.deriveEnum vs)

/-- Every value of a shipped type that fits is shown as its template says. -/
theorem Shipped.good {p : Logged} (h : Shipped p) : p.Good := by
  induction h with
  | @signedInt k hk =>
    have hcat : (category (withCode opSignedInt (.ofNat k))).IsScalar := by
      obtain ⟨h1, h5⟩ := hk
      interval_cases k <;> exact trivial
    exact .scalar rfl hcat (shows_signedInt hk)
  | @unsignedInt k hk =>
    have hcat : (category (withCode opUnsignedInt (.ofNat k))).IsScalar := by
      obtain ⟨h1, h5⟩ := hk
      interval_cases k <;> exact trivial
    exact .scalar rfl hcat (shows_unsignedInt hk)
  | usize hwidth =>
    have hbits : Encode.usizeBits ≠ 32 := by
      rw [Encode.usizeBits, hwidth]
      decide
    have hschema : Encode.usize.schema = [withCode opUnsignedInt 4] := if_neg hbits
    exact .scalar hschema trivial (shows_usize hwidth)
  | f32 => exact .scalar rfl (by exact trivial) shows_f32
  | f64 => exact .scalar rfl (by exact trivial) shows_f64
  | bool => exact .scalar rfl (by exact trivial) shows_bool
  | char => exact .scalar rfl (by exact trivial) shows_char
  | unit => exact .scalar rfl (by exact trivial) fun _ => shows_unit
  | text h => exact .scalar h.eq_str.1 trivial (shows_text h)
  | tuple hlen hps ih => exact Logged.good_tuple hlen ih
  | array hn hp ih => exact Logged.good_array (by simp [arrayLengths] at hn; omega) ih
  | vec hp ih => exact Logged.good_vec ih
  | hashMap hk hv ihk ihv => exact Logged.good_entries ihk ihv
  | bTreeMap hk hv ihk ihv => exact Logged.good_entries ihk ihv
  | option hp ih => exact Logged.good_option ih
  | result hp hq ihp ihq => exact Logged.good_result ihp ihq
  | deriveStruct hcount hnames hfs ih => exact Logged.good_deriveStruct hcount ih
  | deriveEnum hcount hcounts hnames hvs ih =>
    exact Logged.good_deriveEnum hcount fun v hv => ⟨hcounts v hv, ih v hv⟩

/-! ### Arguments one after the other -/

namespace Logged

/-- `encode_to` copies the bytes `out`, and these are shown as the template of the value says. -/
def Value.Outputs (q : Value) (out : List UInt8) : Prop :=
  q.1.impl.encodeTo q.2 = .copy out ∧ ∀ tables ufs t,
    formatPayload q.1.impl.schema (out ++ t) tables ufs =
      some (q.template.render (tableNames tables), out.length)

/-- A value of a good type that fits writes bytes that are read back. -/
theorem Good.outputs {q : Value} (h : q.1.Good) (hfits : q.fits) : ∃ out, q.Outputs out :=
  h.shows q.2 hfits

/-- The bytes of all arguments of a message. -/
theorem exists_outputs {args : List Value} (h : ∀ q ∈ args, ∃ out, q.Outputs out) :
    ∃ outputs, List.Forall₂ Value.Outputs args outputs := by
  induction args with
  | nil => exact ⟨[], .nil⟩
  | cons q args ih =>
    obtain ⟨out, hout⟩ := h q (by simp)
    obtain ⟨outputs, houtputs⟩ := ih fun q hq => h q (by simp [hq])
    exact ⟨out :: outputs, .cons hout houtputs⟩

/-- What is shown for arguments of which the first is number `i`, each with its own table. -/
def textsFrom (tables : List (List UInt8)) : ℕ → List Value → List String
  | _, [] => []
  | i, q :: qs =>
    q.template.render (tableNames (tables[i]?).toList) :: textsFrom tables (i + 1) qs

omit [Target] [FloatDisplay] in
/-- The text of an argument depends on its own table only. -/
theorem getElem?_textsFrom (tables : List (List UInt8)) (i j : ℕ) (qs : List Value) :
    (textsFrom tables i qs)[j]? =
      qs[j]?.map fun q => q.template.render (tableNames (tables[i + j]?).toList) := by
  induction qs generalizing i j with
  | nil => rfl
  | cons q qs ih =>
    cases j with
    | zero => rfl
    | succ j =>
      rw [textsFrom, List.getElem?_cons_succ, List.getElem?_cons_succ, ih, Nat.add_right_comm,
        Nat.add_assoc]

omit [Target] [FloatDisplay] in
/-- There are as many texts as arguments. -/
theorem length_textsFrom (tables : List (List UInt8)) (i : ℕ) (qs : List Value) :
    (textsFrom tables i qs).length = qs.length := by
  induction qs generalizing i with
  | nil => rfl
  | cons q qs ih => rw [textsFrom, List.length_cons, ih, List.length_cons]

/-- Each argument begins where the one before ends. -/
theorem decodeEach_outputs {args : List Value} {outputs : List (List UInt8)}
    (h : List.Forall₂ Value.Outputs args outputs) (tables : List (List UInt8))
    (ufs : List UserFormatter) (pre t : List UInt8) (i : ℕ) :
    decodeEach tables ufs (pre ++ (outputs.flatten ++ t)) (args.map fun q => q.1.impl.schema) i
      pre.length = some (textsFrom tables i args) := by
  induction h generalizing pre i with
  | nil => rfl
  | @cons q out args outputs hq hrest ih =>
    have hfrom : Slice.sliceFrom (pre ++ ((out :: outputs).flatten ++ t)) pre.length =
        some (out ++ (outputs.flatten ++ t)) := by
      rw [List.flatten_cons, List.append_assoc]
      exact Slice.sliceFrom_append rfl
    have hnext := ih (pre ++ out) (i + 1)
    rw [List.append_assoc, ← List.append_assoc out, List.length_append, ← List.flatten_cons]
      at hnext
    rw [List.map_cons, decodeEach, hfrom]
    simp only [Option.bind_eq_bind, Option.bind_some, hq.2, hnext]
    rfl

/-- `decode_args` on the bytes of all arguments, with their schemas one behind the other. -/
theorem decodeArgs_outputs {args : List Value} (hgood : ∀ q ∈ args, q.1.Good)
    (hcount : args.length ≤ 255) {outputs : List (List UInt8)}
    (h : List.Forall₂ Value.Outputs args outputs) (tables : List (List UInt8))
    (ufs : List UserFormatter) (t : List UInt8) :
    decodeArgs
        { schemas := .ofNat args.length :: (args.map fun q => q.1.impl.schema).flatten
          stringTables := tables
          userFormatters := ufs }
        (outputs.flatten ++ t) = some (textsFrom tables 0 args) := by
  have hss : ∀ s ∈ args.map (fun q => q.1.impl.schema), SelfDelimiting s ∧ s ≠ [] := by
    intro s hs
    obtain ⟨q, hq, rfl⟩ := List.mem_map.mp hs
    have hwf := (hgood q hq).wellFormed
    exact ⟨hwf.selfDelimiting, hwf.ne_nil⟩
  have htake : (UInt8.ofNat args.length).toNat = (args.map fun q => q.1.impl.schema).length := by
    rw [List.length_map, UInt8.toNat_ofNat']
    omega
  rw [decodeArgs_block hss, htake, List.take_length]
  exact decodeEach_outputs h tables ufs [] t 0

end Logged

/-- The arguments of a message are decoded independently. Whatever bytes follow them and whatever
string tables there are, `decode_args` gives as many texts as there are arguments, and each text
and its length in bytes are those of the argument alone. -/
theorem decodeArgs_each {args : List Logged.Value} (hargs : ∀ q ∈ args, Shipped q.1 ∧ q.fits)
    (hcount : args.length ≤ 255) :
    ∃ outputs : List (List UInt8),
      List.Forall₂ (fun q out => q.1.impl.encodeTo q.2 = .copy out) args outputs ∧
      ∀ (t : List UInt8) (tables : List (List UInt8)) (ufs : List UserFormatter), ∃ texts,
        decodeArgs
            { schemas := .ofNat args.length :: (args.map fun q => q.1.impl.schema).flatten
              stringTables := tables
              userFormatters := ufs }
            (outputs.flatten ++ t) = some texts ∧
          texts.length = args.length ∧
          ∀ i q out, args[i]? = some q → outputs[i]? = some out → ∃ text,
            texts[i]? = some text ∧
            formatPayload q.1.impl.schema out (tables[i]?).toList ufs = some (text, out.length) ∧
            formatPayload q.1.impl.schema ((outputs.drop i).flatten ++ t) (tables[i]?).toList ufs =
              some (text, out.length) := by
  obtain ⟨outputs, houtputs⟩ := Logged.exists_outputs fun q hq =>
    (hargs q hq).1.good.outputs (hargs q hq).2
  refine ⟨outputs, houtputs.imp fun _ _ h => h.1, ?_⟩
  intro t tables ufs
  refine ⟨Logged.textsFrom tables 0 args, ?_, Logged.length_textsFrom .., ?_⟩
  · exact Logged.decodeArgs_outputs (fun q hq => (hargs q hq).1.good) hcount houtputs tables ufs t
  · intro i q out hq hout
    obtain ⟨hi, hget⟩ := List.getElem?_eq_some_iff.mp hq
    obtain ⟨hi', hget'⟩ := List.getElem?_eq_some_iff.mp hout
    have hformat : q.Outputs out := by
      have h := houtputs.get hi hi'
      rwa [List.get_eq_getElem, List.get_eq_getElem, hget, hget'] at h
    refine ⟨q.template.render (tableNames (tables[i]?).toList), ?_, ?_, ?_⟩
    · rw [Logged.getElem?_textsFrom, hq, Option.map_some, Nat.zero_add]
    · simpa using hformat.2 (tables[i]?).toList ufs []
    · -- what stands behind the bytes of an argument does not matter
      rw [List.drop_eq_getElem_cons hi', hget', List.flatten_cons, List.append_assoc]
      exact hformat.2 _ _ _

end Target

/-- A vector of booleans, and a `usize` in an `Option`. -/
theorem decodeArgs_each_two :
    letI : Target := x86_64
    letI : FloatDisplay := noFloats
    let args : List Logged.Value :=
      [⟨.vec .bool, ([true, false] : List Bool)⟩, ⟨.option .usize, some (7 : BitVec 64)⟩]
    ∃ outputs : List (List UInt8),
      List.Forall₂ (fun q out => q.1.impl.encodeTo q.2 = .copy out) args outputs ∧
      ∀ t : List UInt8, ∃ texts,
        decodeArgs
            { schemas := 2 :: (args.map fun q => q.1.impl.schema).flatten
              stringTables := []
              userFormatters := [] }
            (outputs.flatten ++ t) = some texts ∧
          texts.length = 2 := by
  let _ : Target := x86_64
  let _ : FloatDisplay := noFloats
  intro args
  have hargs : ∀ q ∈ args, Shipped q.1 ∧ q.fits := by
    intro q hq
    simp only [args, List.mem_cons, List.not_mem_nil, or_false] at hq
    rcases hq with rfl | rfl
    · exact ⟨.vec .bool, fun _ _ => trivial⟩
    · exact ⟨.option (.usize rfl), trivial⟩
  obtain ⟨outputs, houtputs, hall⟩ := decodeArgs_each hargs (by decide)
  refine ⟨outputs, houtputs, fun t => ?_⟩
  obtain ⟨texts, htexts, hlen, -⟩ := hall t [] []
  exact ⟨texts, htexts, hlen⟩

end RapidLog
