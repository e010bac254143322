import RapidLog.Arg.Sizes
import RapidLog.CallSite
import RapidLog.Message

/-!
# The closure of a log macro

`log_impl!` reserves `HEADER_SIZE` and the sum of the `encoded_size` of all arguments, and its
closure writes the header and then the arguments one after the other. An argument that is logged as
its text reserves 512 bytes whatever its text. The closure has enough space exactly when what all
the arguments take together is no more than what they reserve together, and the reserved size does
not overflow `usize` (`closure_delivers_iff`).
-/

namespace RapidLog

open SliceWriter

section Target

variable [Target]

namespace Logged

/-- The number of bytes that a value takes in a message. -/
inductive Value.Size [FloatDisplay] : Value → ℕ → Prop
  | signedInt {k : ℕ} (v : BitVec (8 * sizeForK k)) : Size ⟨.signedInt k, v⟩ (sizeForK k)
  | unsignedInt {k : ℕ} (v : BitVec (8 * sizeForK k)) : Size ⟨.unsignedInt k, v⟩ (sizeForK k)
  | usize (v : BitVec Encode.usizeBits) : Size ⟨.usize, v⟩ 8
  | f32 (v : BitVec 32) : Size ⟨.f32, v⟩ 4
  | f64 (v : BitVec 64) : Size ⟨.f64, v⟩ 8
  | bool (v : Bool) : Size ⟨.bool, v⟩ 1
  | char (v : Char) : Size ⟨.char, v⟩ 4
  | unit : Size ⟨.unit, ()⟩ 0
  | text {e : Encode} {text : e.Self → String} (h : TextImpl e text) (v : e.Self) :
      Size ⟨.text e text, v⟩ (2 + min (Utf8.encode (text v)).length 65535)
  | tuple {ps : List Logged} {v : Encode.Tuple (ps.map impl)} {size : Value → ℕ}
      (h : ∀ q ∈ parts ps v, Size q (size q)) : Size ⟨.tuple ps, v⟩ ((parts ps v).map size).sum
  | array {n : ℕ} {p : Logged} {xs : (Encode.array n p.impl).Self} {size : p.impl.Self → ℕ}
      (h : ∀ x ∈ xs.1, Size ⟨p, x⟩ (size x)) : Size ⟨.array n p, xs⟩ (2 + (xs.1.map size).sum)
  | vec {p : Logged} {xs : List p.impl.Self} {size : p.impl.Self → ℕ}
      (h : ∀ x ∈ xs, Size ⟨p, x⟩ (size x)) :
      Size ⟨.vec p, xs⟩ (2 + ((xs.take 65535).map size).sum)
  | entries {k v : Logged} {xs : List (k.impl.Self × v.impl.Self)} {keySize : k.impl.Self → ℕ}
      {valueSize : v.impl.Self → ℕ} (hk : ∀ x ∈ xs, Size ⟨k, x.1⟩ (keySize x.1))
      (hv : ∀ x ∈ xs, Size ⟨v, x.2⟩ (valueSize x.2)) :
      Size ⟨.entries k v, xs⟩ (4 + (xs.map fun x => keySize x.1 + valueSize x.2).sum)
  | none {p : Logged} : Size ⟨.option p, none⟩ 1
  | some {p : Logged} {x : p.impl.Self} {n : ℕ} (h : Size ⟨p, x⟩ n) :
      Size ⟨.option p, some x⟩ (1 + n)
  | ok {p p' : Logged} {x : p.impl.Self} {n : ℕ} (h : Size ⟨p, x⟩ n) :
      Size ⟨.result p p', .inl x⟩ (1 + n)
  | err {p p' : Logged} {x : p'.impl.Self} {n : ℕ} (h : Size ⟨p', x⟩ n) :
      Size ⟨.result p p', .inr x⟩ (1 + n)
  | deriveStruct {fs : List (String × Logged)} {v : Encode.Tuple ((fieldImpls fs).map Prod.snd)}
      {size : Value → ℕ} (h : ∀ q ∈ fieldParts fs v, Size q.2 (size q.2)) :
      Size ⟨.deriveStruct fs, v⟩ ((fieldParts fs v).map fun q => size q.2).sum
  | deriveEnum {vs : List (String × VariantFields)} {c : Choice (variantImpls vs)}
      {size : Value → ℕ} (h : ∀ q ∈ choiceParts vs c, Size q (size q)) :
      Size ⟨.deriveEnum vs, c⟩ (discSize vs.length + ((choiceParts vs c).map size).sum)

variable [FloatDisplay]

/-- `encode_to` copies as many bytes as the value takes. -/
theorem Value.Size.measured {q : Value} {n : ℕ} (h : q.Size n) :
    RapidLog.Measured (q.1.impl.encodeTo q.2) n True := by
  have hsize : ∀ k n : ℕ, RapidLog.Measured (.copy ((toNeBytes 16 n).take (sizeForK k)))
      (sizeForK k) True := by
    intro k n
    have hcopy := RapidLog.Measured.copy ((toNeBytes 16 n).take (sizeForK k)) True
    rwa [length_take_toNeBytes (sizeForK_le k)] at hcopy
  have hcount : ∀ size n : ℕ, RapidLog.Measured (.copy (toNeBytes size n)) size True := by
    intro size n
    have hcopy := RapidLog.Measured.copy (toNeBytes size n) True
    rwa [length_toNeBytes] at hcopy
  induction h with
  | signedInt v => exact hsize _ _
  | unsignedInt v => exact hsize _ _
  | usize v => exact hsize 4 _
  | f32 v => exact hcount 4 _
  | f64 v => exact hcount 8 _
  | bool v => exact .copy [_] True
  | char v => exact hcount 4 _
  | unit => exact .copy [] True
  | @text e text h v =>
    have hcopy := RapidLog.Measured.copy (strBytes (text v)) True
    rwa [← h.eq_str.2, length_strBytes, length_keptBytes] at hcopy
  | @tuple ps v size h ih =>
    show RapidLog.Measured (.all (v.map Encode.encodeTo)) _ _
    rw [map_parts]
    exact .all ih
  | array h ih => exact (hcount 2 _).andThen (.all ih)
  -- only the first 65535 elements are written
  | @vec p xs size h ih =>
    have htake : xs.take (min xs.length 65535) = xs.take 65535 := by
      rw [Nat.min_comm, ← List.take_eq_take_min]
    have hall := RapidLog.Measured.all fun x (hx : x ∈ xs.take 65535) =>
      ih x (List.mem_of_mem_take hx)
    rw [← htake] at hall
    rw [← htake]
    exact (hcount 2 _).andThen hall
  | entries hk hv ihk ihv =>
    exact (hcount 4 _).andThen (.all fun x hx => (ihk x hx).andThen (ihv x hx))
  | none => exact .copy [0] True
  | some h ih => exact (RapidLog.Measured.copy [1] True).andThen ih
  | ok h ih => exact (RapidLog.Measured.copy [0] True).andThen ih
  | err h ih => exact (RapidLog.Measured.copy [1] True).andThen ih
  | @deriveStruct fs v size h ih =>
    show RapidLog.Measured (.all (v.map Encode.encodeTo)) _ _
    rw [map_fieldParts]
    exact .all ih
  | @deriveEnum vs c size h ih =>
    have hdisc : ∀ m i : ℕ, RapidLog.Measured (.copy (leBytes m i)) m True := by
      intro m i
      have hcopy := RapidLog.Measured.copy (leBytes m i) True
      rwa [length_leBytes] at hcopy
    have hlen : (variantImpls vs).length = vs.length := List.length_map _
    rw [← hlen]
    refine (hdisc _ _).andThen ?_
    rw [map_choice]
    exact .all ih

/-- `encode_to` needs just as many bytes as the value takes. -/
theorem Value.Size.takes {q : Value} {n : ℕ} (h : q.Size n) : (q.1.impl.encodeTo q.2).Takes n := by
  obtain ⟨out, hwrite, -, hlen⟩ := h.measured
  rw [hwrite, ← hlen trivial]
  exact takes_copy out

/-- A value takes one number of bytes only. -/
theorem Value.Size.unique {q : Value} {n m : ℕ} (h : q.Size n) (h' : q.Size m) : n = m :=
  h.takes.unique h'.takes

/-- Every value of a shipped type takes some number of bytes. -/
theorem Value.exists_size {p : Logged} (h : Shipped p) (v : p.impl.Self) :
    ∃ n, Value.Size ⟨p, v⟩ n := by
  induction h with
  | signedInt hk => exact ⟨_, .signedInt v⟩
  | unsignedInt hk => exact ⟨_, .unsignedInt v⟩
  | usize hwidth => exact ⟨_, .usize v⟩
  | f32 => exact ⟨_, .f32 v⟩
  | f64 => exact ⟨_, .f64 v⟩
  | bool => exact ⟨_, .bool v⟩
  | char => exact ⟨_, .char v⟩
  | unit => exact ⟨_, .unit⟩
  | text h => exact ⟨_, .text h v⟩
  | @tuple ps hlen hps ih =>
    have hparts : ∀ q ∈ parts ps v, ∃ n, q.Size n := fun q hq =>
      ih q.1 (fst_mem_of_mem_parts hq) q.2
    choose! size hsize using hparts
    exact ⟨_, .tuple hsize⟩
  | array hn hp ih =>
    choose size hsize using ih
    exact ⟨_, .array fun x _ => hsize x⟩
  | @vec p hp ih =>
    choose size hsize using ih
    let xs : List p.impl.Self := v
    exact ⟨_, .vec fun x (_ : x ∈ xs) => hsize x⟩
  | hashMap hk hv ihk ihv =>
    choose keySize hkey using ihk
    choose valueSize hvalue using ihv
    exact ⟨_, .entries (fun x _ => hkey x.1) fun x _ => hvalue x.2⟩
  | bTreeMap hk hv ihk ihv =>
    choose keySize hkey using ihk
    choose valueSize hvalue using ihv
    exact ⟨_, .entries (fun x _ => hkey x.1) fun x _ => hvalue x.2⟩
  | option hp ih =>
    cases v with
    | none => exact ⟨_, .none⟩
    | some x =>
      obtain ⟨n, hn⟩ := ih x
      exact ⟨_, .some hn⟩
  | result hp hq ihp ihq =>
    cases v with
    | inl x =>
      obtain ⟨n, hn⟩ := ihp x
      exact ⟨_, .ok hn⟩
    | inr x =>
      obtain ⟨n, hn⟩ := ihq x
      exact ⟨_, .err hn⟩
  | @deriveStruct fs hcount hnames hfs ih =>
    have hparts : ∀ q ∈ (fieldParts fs v).map Prod.snd, ∃ n, q.Size n := by
      intro q hq
      obtain ⟨f, hf, rfl⟩ := List.mem_map.mp hq
      exact ih _ (mem_of_mem_fieldParts hf) f.2.2
    choose! size hsize using hparts
    exact ⟨_, .deriveStruct fun q hq => hsize q.2 (List.mem_map_of_mem hq)⟩
  | @deriveEnum vs hcount hcounts hnames hvs ih =>
    have hparts : ∀ q ∈ choiceParts vs v, ∃ n, q.Size n := by
      intro q hq
      obtain ⟨variant, hvariant, hp⟩ := mem_of_mem_choiceParts hq
      exact ih variant hvariant q.1 hp q.2
    choose! size hsize using hparts
    exact ⟨_, .deriveEnum hsize⟩

end Logged

/-! ### Reserving and writing -/

namespace CallSite

/-- An execution of a log macro with these arguments. -/
def Execution.of (logLevel : LogLevel) (args : List Logged.Value) : Execution where
  logLevel
  args := args.map fun q => ⟨q.1.impl, q.2⟩

/-- The closure of `log_impl!`: the header, and then the arguments one after the other. -/
def Execution.closure (ex : Execution) (header : ArchivedHeader) : SliceWriter UInt8 :=
  (copy header.bytes).andThen ex.encodeArgs

/-- `_total_msg`: what `log_impl!` asks `push_encoded` for. There is no such size when the sum
overflows `usize`: the call then panics, or asks for what is left of the sum. -/
def Execution.totalMsg (ex : Execution) : Option ℕ :=
  let total := ArchivedHeader.headerSize + ex.payloadsSize
  if total < usizeRange then some total else none

/-- The size can be reserved, a buffer of it is large enough for the closure, and each text of at
most 65535 bytes comes out of it in full. -/
def Execution.Delivers [FloatDisplay] (logLevel : LogLevel) (args : List Logged.Value)
    (header : ArchivedHeader) : Prop :=
  let ex := Execution.of logLevel args
  ∃ total, ex.totalMsg = some total ∧ ∀ buf : List UInt8, buf.length = total →
    ∃ buf' n, (ex.closure header).run buf = some (buf', n) ∧
      (args.length ≤ 255 →
        ∃ texts, decodeArgs ex.own (buf'.drop ArchivedHeader.headerSize) = some texts ∧
          ∀ (i : ℕ) (e : Encode) (text : e.Self → String) (v : e.Self),
            args[i]? = some ⟨.text e text, v⟩ → (Utf8.encode (text v)).length ≤ 65535 →
              texts[i]? = some (text v))

omit [Target] in
theorem Execution.own_of (logLevel : LogLevel) (args : List Logged.Value) :
    (Execution.of logLevel args).own =
      { schemas := .ofNat args.length :: (args.map fun q => q.1.impl.schema).flatten
        stringTables := args.map fun q => q.1.impl.stringTable
        userFormatters := [] } := by
  simp [Execution.own, Execution.schemaBytes, Execution.stringTables, Execution.of,
    List.flatMap_def, Function.comp_def]

omit [Target] in
theorem Execution.payloadsSize_of (logLevel : LogLevel) (args : List Logged.Value) :
    (Execution.of logLevel args).payloadsSize =
      (args.map fun q => q.1.impl.encodedSize q.2).sum := by
  simp [Execution.payloadsSize, Execution.of, Function.comp_def]

variable [FloatDisplay]

/-- The closure copies the header and the bytes of all arguments. -/
theorem Execution.closure_of (logLevel : LogLevel) {args : List Logged.Value}
    {outputs : List (List UInt8)} (h : List.Forall₂ Logged.Value.Outputs args outputs)
    (header : ArchivedHeader) :
    (Execution.of logLevel args).closure header = copy (header.bytes ++ outputs.flatten) := by
  have hargs : (Execution.of logLevel args).encodeArgs = copy outputs.flatten := by
    simp only [Execution.encodeArgs, Execution.of, List.map_map, Function.comp_def]
    rw [← all_copy]
    congr 1
    induction h with
    | nil => rfl
    | cons hq hrest ih => rw [List.map_cons, List.map_cons, hq.1, ih]
  rw [Execution.closure, hargs, copy_andThen]

/-- The number of bytes of each argument is what the argument takes. -/
theorem sum_sizes {args : List Logged.Value} {outputs : List (List UInt8)} {sizes : List ℕ}
    (hout : List.Forall₂ Logged.Value.Outputs args outputs)
    (hsize : List.Forall₂ Logged.Value.Size args sizes) : outputs.flatten.length = sizes.sum := by
  induction hout generalizing sizes with
  | nil =>
    cases hsize
    rfl
  | @cons q out args outputs hq hrest ih =>
    cases hsize with
    | @cons _ n _ sizes hn hsizes =>
      have htakes : (q.1.impl.encodeTo q.2).Takes out.length := hq.1 ▸ takes_copy out
      rw [List.flatten_cons, List.length_append, List.sum_cons, ih hsizes, htakes.unique hn.takes]

omit [FloatDisplay] in
theorem Execution.totalMsg_of (logLevel : LogLevel) (args : List Logged.Value) (total : ℕ) :
    (Execution.of logLevel args).totalMsg = some total ↔
      total = ArchivedHeader.headerSize + (args.map fun q => q.1.impl.encodedSize q.2).sum ∧
        total < usizeRange := by
  rw [Execution.totalMsg, Execution.payloadsSize_of]
  simp only [Option.ite_none_right_eq_some, Option.some.injEq]
  constructor
  · rintro ⟨hlt, rfl⟩
    exact ⟨rfl, hlt⟩
  · rintro ⟨rfl, hlt⟩
    exact ⟨hlt, rfl⟩

/-- Where the closure has enough space, the arguments take no more than they reserve, and what they
reserve can be asked for. -/
theorem sum_le_of_delivers {args : List Logged.Value} {outputs : List (List UInt8)}
    {sizes : List ℕ} {logLevel : LogLevel} {header : ArchivedHeader}
    (hout : List.Forall₂ Logged.Value.Outputs args outputs)
    (hsize : List.Forall₂ Logged.Value.Size args sizes)
    (h : Execution.Delivers logLevel args header) :
    sizes.sum ≤ (args.map fun q => q.1.impl.encodedSize q.2).sum ∧
      ArchivedHeader.headerSize + (args.map fun q => q.1.impl.encodedSize q.2).sum <
        usizeRange := by
  obtain ⟨total, htotal, hbufs⟩ := h
  obtain ⟨buf', n, hrun, -⟩ := hbufs (List.replicate total 0) List.length_replicate
  obtain ⟨rfl, hlt⟩ := (Execution.totalMsg_of logLevel args total).mp htotal
  have htakes := takes_copy (header.bytes ++ outputs.flatten)
  rw [← Execution.closure_of logLevel hout header] at htakes
  have hle := (htakes.run_isSome_iff _).mp (Option.isSome_of_eq_some hrun)
  rw [List.length_replicate, List.length_append, ArchivedHeader.length_bytes,
    sum_sizes hout hsize] at hle
  exact ⟨by omega, hlt⟩

/-- The reserved space is enough exactly when what all the arguments take together is no more than
what they reserve together, and this can be added to the header. -/
theorem closure_delivers_iff {args : List Logged.Value}
    (hargs : ∀ q ∈ args, Shipped q.1 ∧ q.fits) (logLevel : LogLevel) (header : ArchivedHeader) :
    ∃ sizes, List.Forall₂ Logged.Value.Size args sizes ∧
      (Execution.Delivers logLevel args header ↔
        sizes.sum ≤ (args.map fun q => q.1.impl.encodedSize q.2).sum ∧
          ArchivedHeader.headerSize + (args.map fun q => q.1.impl.encodedSize q.2).sum <
            usizeRange) := by
  obtain ⟨outputs, houtputs⟩ := Logged.exists_outputs fun q hq =>
    (hargs q hq).1.good.outputs (hargs q hq).2
  -- each argument takes a number of bytes of its own
  obtain ⟨sizes, hsizes⟩ : ∃ sizes, List.Forall₂ Logged.Value.Size args sizes := by
    have hexists : ∀ q ∈ args, ∃ n, q.Size n := fun q hq =>
      Logged.Value.exists_size (hargs q hq).1 q.2
    choose! size hsize using hexists
    refine ⟨args.map size, ?_⟩
    rw [List.forall₂_map_right_iff, List.forall₂_same]
    exact hsize
  have hsum := sum_sizes houtputs hsizes
  have hclosure := Execution.closure_of logLevel houtputs header
  have hlength : (header.bytes ++ outputs.flatten).length =
      ArchivedHeader.headerSize + sizes.sum := by
    rw [List.length_append, ArchivedHeader.length_bytes, hsum]
  -- a buffer of the reserved size shows that the sum is needed; that it is enough remains
  refine ⟨sizes, hsizes, sum_le_of_delivers houtputs hsizes, ?_⟩
  · rintro ⟨hle, hlt⟩
    refine ⟨_, (Execution.totalMsg_of logLevel args _).mpr ⟨rfl, hlt⟩, fun buf hbuf => ?_⟩
    have hfits : (header.bytes ++ outputs.flatten).length ≤ buf.length := by
      rw [hbuf, hlength]
      omega
    refine ⟨_, _, by rw [hclosure]; exact copy_run hfits, fun hcount => ?_⟩
    -- the decoder reads what follows the header
    have hdrop : ∀ rest : List UInt8,
        (header.bytes ++ outputs.flatten ++ rest).drop ArchivedHeader.headerSize =
          outputs.flatten ++ rest := by
      intro rest
      rw [List.append_assoc, List.drop_append_of_le_length (by simp), List.drop_of_length_le
        (by simp), List.nil_append]
    rw [hdrop, Execution.own_of]
    refine ⟨_, Logged.decodeArgs_outputs (fun q hq => (hargs q hq).1.good) hcount houtputs _ _ _,
      ?_⟩
    intro i e text v hi hshort
    rw [Logged.getElem?_textsFrom, hi, Option.map_some]
    -- a text that is not cut is decoded as it was encoded
    have hkept : keptBytes (text v) = Utf8.encode (text v) := List.take_of_length_le hshort
    show some (Template.render _ [.text ((Utf8.decode (keptBytes (text v))).getD "")]) = _
    rw [hkept, Utf8.decode_encode, Option.getD_some, Template.render, Template.render,
      String.append_empty]

end CallSite

end Target

namespace CallSite

/-- A short text next to a `u8`. -/
theorem closure_delivers_iff_short :
    letI : Target := x86_64
    letI : FloatDisplay := noFloats
    Execution.Delivers .info
      [⟨.text (.displayArg fun s : String => s) fun s => s, "ab"⟩, ⟨.unsignedInt 1, (7 : BitVec 8)⟩]
      (.new 0 0 0) := by
  let _ : Target := x86_64
  let _ : FloatDisplay := noFloats
  let q₁ : Logged.Value := ⟨.text (.displayArg fun s : String => s) fun s => s, "ab"⟩
  let q₂ : Logged.Value := ⟨.unsignedInt 1, (7 : BitVec 8)⟩
  have hargs : ∀ q ∈ [q₁, q₂], Shipped q.1 ∧ q.fits := by
    intro q hq
    simp only [List.mem_cons, List.not_mem_nil, or_false] at hq
    rcases hq with rfl | rfl
    · exact ⟨.text (.displayArg _), trivial⟩
    · exact ⟨.unsignedInt (by decide), trivial⟩
  have hsizes : List.Forall₂ Logged.Value.Size [q₁, q₂] [4, 1] :=
    .cons (.text (.displayArg fun s : String => s) "ab")
      (.cons (.unsignedInt (k := 1) (7 : BitVec 8)) .nil)
  obtain ⟨sizes, hsizes', hiff⟩ := closure_delivers_iff hargs .info (.new 0 0 0)
  have heq : sizes = [4, 1] :=
    List.right_unique_forall₂' (fun _ _ _ h h' => h.unique h') hsizes' hsizes
  refine hiff.mpr ?_
  rw [heq]
  decide

/-- A text of 511 bytes takes 513 and reserves 512. -/
private theorem not_delivers_of_length [Target] [FloatDisplay] {s : String}
    (hlen : (Utf8.encode s).length = 511) (logLevel : LogLevel) (header : ArchivedHeader) :
    ¬ Execution.Delivers logLevel [⟨.text (.displayArg fun s : String => s) fun s => s, s⟩]
      header := by
  intro hdelivers
  have hsize := Logged.Value.Size.text (.displayArg fun s : String => s) s
  rw [hlen] at hsize
  obtain ⟨out, hout⟩ := Logged.Good.outputs (q := ⟨_, s⟩)
    (Shipped.text (.displayArg fun s : String => s)).good trivial
  have hle := (sum_le_of_delivers (.cons hout .nil) (.cons hsize .nil) hdelivers).1
  have hreserved : 2 + min 511 65535 ≤ 512 := by
    rwa [List.map_singleton, List.sum_singleton, List.sum_singleton] at hle
  omega

theorem closure_overruns :
    letI : Target := x86_64
    letI : FloatDisplay := noFloats
    ¬ Execution.Delivers .info
      [⟨.text (.displayArg fun s : String => s) fun s => s, String.ofList (List.replicate 511 'a')⟩]
      (.new 0 0 0) :=
  let _ : Target := x86_64
  let _ : FloatDisplay := noFloats
  not_delivers_of_length (length_encode_ascii 511) .info (.new 0 0 0)

end CallSite

end RapidLog
