import RapidLog.Arg.Reserve
import RapidLog.Arg.Shipped

/-!
# Encoded sizes

`encoded_size` and `encode_to` are separate recursions over a value. For types without arrays, maps
and pre-formatted texts they agree: the sizes of the parts add up to what is written, unless a
string is cut at 65535 bytes (`Compositional.measured`).

An argument that is logged as its text reserves 512 bytes whatever the text, so the closure of
`log_impl!` runs out of space when the texts are long and no other argument has reserved more than
it needs (`closure_fits_iff`).
-/

namespace RapidLog

open SliceWriter

/-- `w` copies at most `size` bytes, and exactly so many when `short` holds. -/
def Measured (w : SliceWriter UInt8) (size : ℕ) (short : Prop) : Prop :=
  ∃ out, w = .copy out ∧ out.length ≤ size ∧ (short → out.length = size)

namespace Measured

variable {w w₁ w₂ : SliceWriter UInt8} {size m n : ℕ} {short short₁ short₂ : Prop}

theorem copy (out : List UInt8) (short : Prop) : Measured (.copy out) out.length short :=
  ⟨out, rfl, le_rfl, fun _ => rfl⟩

theorem mono (h : Measured w size short₁) (himp : short₂ → short₁) : Measured w size short₂ := by
  obtain ⟨out, hw, hle, heq⟩ := h
  exact ⟨out, hw, hle, fun hshort => heq (himp hshort)⟩

theorem andThen (h₁ : Measured w₁ m short) (h₂ : Measured w₂ n short) :
    Measured (w₁.andThen w₂) (m + n) short := by
  obtain ⟨out₁, rfl, hle₁, heq₁⟩ := h₁
  obtain ⟨out₂, rfl, hle₂, heq₂⟩ := h₂
  refine ⟨out₁ ++ out₂, copy_andThen out₁ out₂, ?_, fun hshort => ?_⟩
  · rw [List.length_append]
    exact Nat.add_le_add hle₁ hle₂
  · rw [List.length_append, heq₁ hshort, heq₂ hshort]

theorem all {ι : Type*} {xs : List ι} {write : ι → SliceWriter UInt8} {size : ι → ℕ}
    (h : ∀ x ∈ xs, Measured (write x) (size x) short) :
    Measured (.all (xs.map write)) (xs.map size).sum short := by
  induction xs with
  | nil => exact copy [] short
  | cons x xs ih =>
    rw [List.map_cons, List.map_cons, List.sum_cons, SliceWriter.all_cons]
    exact (h x (by simp)).andThen (ih fun x hx => h x (by simp [hx]))

end Measured

section Target

theorem sizeForK_le (k : ℕ) : sizeForK k ≤ 16 := by
  unfold sizeForK
  split <;> omega

variable [Target]

namespace Logged

/-- A string that is a part of a value. -/
inductive Value.Contains : Value → String → Prop
  | text {e : Encode} {text : e.Self → String} (v : e.Self) :
      Contains ⟨.text e text, v⟩ (text v)
  | tuple {ps : List Logged} {v : Encode.Tuple (ps.map impl)} {q : Value} {s : String}
      (hq : q ∈ parts ps v) (h : Contains q s) : Contains ⟨.tuple ps, v⟩ s
  | vec {p : Logged} {xs : List p.impl.Self} {x : p.impl.Self} {s : String} (hx : x ∈ xs)
      (h : Contains ⟨p, x⟩ s) : Contains ⟨.vec p, xs⟩ s
  | some {p : Logged} {x : p.impl.Self} {s : String} (h : Contains ⟨p, x⟩ s) :
      Contains ⟨.option p, some x⟩ s
  | ok {p p' : Logged} {x : p.impl.Self} {s : String} (h : Contains ⟨p, x⟩ s) :
      Contains ⟨.result p p', .inl x⟩ s
  | err {p p' : Logged} {x : p'.impl.Self} {s : String} (h : Contains ⟨p', x⟩ s) :
      Contains ⟨.result p p', .inr x⟩ s
  | deriveStruct {fs : List (String × Logged)} {v : Encode.Tuple ((fieldImpls fs).map Prod.snd)}
      {q : String × Value} {s : String} (hq : q ∈ fieldParts fs v) (h : Contains q.2 s) :
      Contains ⟨.deriveStruct fs, v⟩ s
  | deriveEnum {vs : List (String × VariantFields)} {c : Choice (variantImpls vs)} {q : Value}
      {s : String} (hq : q ∈ choiceParts vs c) (h : Contains q s) :
      Contains ⟨.deriveEnum vs, c⟩ s

/-- No string in the value is cut. -/
def Value.Short (q : Value) : Prop := ∀ s, q.Contains s → (Utf8.encode s).length ≤ 65535

/-- What `encode_to` copies takes no more than `encoded_size` says, and exactly as much when no
string is cut. -/
def Value.Measured (q : Value) : Prop :=
  RapidLog.Measured (q.1.impl.encodeTo q.2) (q.1.impl.encodedSize q.2) q.Short

end Logged

/-- A type that is built from primitives, strings, tuples, vectors, `Option`, `Result` and derived
types. -/
inductive Compositional [FloatDisplay] : Logged → Prop
  | signedInt {k : ℕ} (hk : 1 ≤ k ∧ k ≤ 5) : Compositional (.signedInt k)
  | unsignedInt {k : ℕ} (hk : 1 ≤ k ∧ k ≤ 5) : Compositional (.unsignedInt k)
  | usize : Compositional .usize
  | f32 : Compositional .f32
  | f64 : Compositional .f64
  | bool : Compositional .bool
  | char : Compositional .char
  | unit : Compositional .unit
  | str : Compositional (.text .str fun s => s)
  | string : Compositional (.text .string fun s => s)
  | tuple {ps : List Logged} (hlen : 1 ≤ ps.length ∧ ps.length ≤ 12)
      (hps : ∀ p ∈ ps, Compositional p) : Compositional (.tuple ps)
  | vec {p : Logged} (hp : Compositional p) : Compositional (.vec p)
  | option {p : Logged} (hp : Compositional p) : Compositional (.option p)
  | result {p q : Logged} (hp : Compositional p) (hq : Compositional q) :
      Compositional (.result p q)
  | deriveStruct {fs : List (String × Logged)} (hfs : ∀ f ∈ fs, Compositional f.2) :
      Compositional (.deriveStruct fs)
  | deriveEnum {vs : List (String × Logged.VariantFields)}
      (hvs : ∀ v ∈ vs, ∀ p ∈ v.2.types, Compositional p) : Compositional (.deriveEnum vs)

namespace Logged

/-- A writer that copies a fixed number of bytes. -/
theorem measured_scalar {q : Value} {out : List UInt8} (hwrite : q.1.impl.encodeTo q.2 = .copy out)
    (hsize : q.1.impl.encodedSize q.2 = out.length) : q.Measured := by
  rw [Value.Measured, hwrite, hsize]
  exact .copy out _

theorem measured_string {e : Encode} {text : e.Self → String} (h : TextImpl e text)
    (hsize : ∀ v, e.encodedSize v = 2 + (Utf8.encode (text v)).length) (v : e.Self) :
    Value.Measured ⟨.text e text, v⟩ := by
  refine ⟨strBytes (text v), h.eq_str.2 v, ?_, ?_⟩
  · show _ ≤ e.encodedSize v
    rw [length_strBytes, length_keptBytes, hsize]
    omega
  · intro hshort
    have hle := hshort _ (.text v)
    show _ = e.encodedSize v
    rw [length_strBytes, length_keptBytes, hsize]
    omega

/-- Values one after the other. -/
theorem measured_values {qs : List Value} {short : Prop} (h : ∀ q ∈ qs, q.Measured)
    (hshort : ∀ q ∈ qs, short → q.Short) :
    RapidLog.Measured (.all (qs.map fun q => q.1.impl.encodeTo q.2))
      (qs.map fun q => q.1.impl.encodedSize q.2).sum short :=
  .all fun q hq => (h q hq).mono (hshort q hq)

/-- The fields of a tuple, or of a variant with unnamed fields. -/
theorem measured_parts {ps : List Logged} (h : ∀ p ∈ ps, ∀ x, Value.Measured ⟨p, x⟩)
    (v : Encode.Tuple (ps.map impl)) {short : Prop} (hshort : ∀ q ∈ parts ps v, short → q.Short) :
    RapidLog.Measured (.all (v.map Encode.encodeTo)) (v.map Encode.encodedSize).sum short := by
  rw [map_parts, map_parts]
  exact measured_values (fun q hq => h q.1 (fst_mem_of_mem_parts hq) q.2) hshort

/-- The fields of a struct, or of a variant with named fields. -/
theorem measured_fieldParts {fs : List (String × Logged)}
    (h : ∀ f ∈ fs, ∀ x, Value.Measured ⟨f.2, x⟩) (v : Encode.Tuple ((fieldImpls fs).map Prod.snd))
    {short : Prop} (hshort : ∀ q ∈ fieldParts fs v, short → q.2.Short) :
    RapidLog.Measured (.all (v.map Encode.encodeTo)) (v.map Encode.encodedSize).sum short := by
  rw [map_fieldParts, map_fieldParts]
  refine .all fun q hq => ?_
  exact (h _ (mem_of_mem_fieldParts hq) q.2.2).mono (hshort q hq)

/-- The fields of the chosen variant. -/
theorem measured_choice {vs : List (String × VariantFields)}
    (h : ∀ v ∈ vs, ∀ p ∈ v.2.types, ∀ x, Value.Measured ⟨p, x⟩) (c : Choice (variantImpls vs))
    {short : Prop} (hshort : ∀ q ∈ choiceParts vs c, short → q.Short) :
    RapidLog.Measured (.all (c.map Encode.encodeTo)) (c.map Encode.encodedSize).sum short := by
  rw [map_choice, map_choice]
  refine measured_values (fun q hq => ?_) hshort
  obtain ⟨v, hv, hp⟩ := mem_of_mem_choiceParts hq
  exact h v hv q.1 hp q.2

end Logged

/-- The sizes of the parts of a value add up to what is written for it. -/
theorem Compositional.measured [FloatDisplay] {p : Logged} (h : Compositional p)
    (v : p.impl.Self) : Logged.Value.Measured ⟨p, v⟩ := by
  have hcount : ∀ n : ℕ, (toNeBytes 2 n).length = 2 := length_toNeBytes 2
  have hsize : ∀ k n : ℕ, ((toNeBytes 16 n).take (sizeForK k)).length = sizeForK k := fun k n =>
    length_take_toNeBytes (sizeForK_le k) n
  induction h with
  | signedInt hk => exact Logged.measured_scalar rfl (hsize _ _).symm
  | unsignedInt hk => exact Logged.measured_scalar rfl (hsize _ _).symm
  | usize => exact Logged.measured_scalar rfl (hsize 4 _).symm
  | f32 => exact Logged.measured_scalar rfl (length_toNeBytes ..).symm
  | f64 => exact Logged.measured_scalar rfl (length_toNeBytes ..).symm
  | bool => exact Logged.measured_scalar rfl rfl
  | char => exact Logged.measured_scalar rfl (length_toNeBytes ..).symm
  | unit => exact Logged.measured_scalar rfl rfl
  | str => exact Logged.measured_string .str (fun _ => rfl) v
  | string => exact Logged.measured_string .string (fun _ => rfl) v
  | tuple hlen hps ih =>
    exact Logged.measured_parts ih v fun q hq hshort s hs => hshort s (.tuple hq hs)
  | @vec p hp ih =>
    have hxs : ∀ xs : List p.impl.Self, Logged.Value.Measured ⟨.vec p, xs⟩ := by
      intro xs
      have hstart := Measured.copy (toNeBytes 2 (min xs.length 65535))
        (Logged.Value.Short ⟨.vec p, xs⟩)
      rw [hcount] at hstart
      refine hstart.andThen (.all fun x hx => (ih x).mono fun hshort s hs => ?_)
      exact hshort s (.vec (List.mem_of_mem_take hx) hs)
    exact hxs v
  | option hp ih =>
    cases v with
    | none => exact Logged.measured_scalar rfl rfl
    | some x =>
      exact (Measured.copy [1] _).andThen ((ih x).mono fun hshort s hs => hshort s (.some hs))
  | result hp hq ihp ihq =>
    cases v with
    | inl x =>
      exact (Measured.copy [0] _).andThen ((ihp x).mono fun hshort s hs => hshort s (.ok hs))
    | inr x =>
      exact (Measured.copy [1] _).andThen ((ihq x).mono fun hshort s hs => hshort s (.err hs))
  | deriveStruct hfs ih =>
    exact Logged.measured_fieldParts ih v fun q hq hshort s hs => hshort s (.deriveStruct hq hs)
  | @deriveEnum vs hvs ih =>
    have hdisc := Measured.copy
      (leBytes (discSize (Logged.variantImpls vs).length) (Choice.index _ v))
      (Logged.Value.Short ⟨.deriveEnum vs, v⟩)
    rw [length_leBytes] at hdisc
    exact hdisc.andThen
      (Logged.measured_choice ih v fun q hq hshort s hs => hshort s (.deriveEnum hq hs))

/-! ### Sizes are exact -/

/-- What `encoded_size` returns. A sum that is no `usize` panics when overflow is checked, and wraps
when it is not. -/
def Encode.returnedSize (checked : Bool) (e : Encode) (v : e.Self) : Option ℕ :=
  if e.encodedSize v < usizeRange then some (e.encodedSize v)
  else if checked then none
  else some (e.encodedSize v % usizeRange)

/-- Into every buffer of at least `encoded_size` bytes, `encode_to` writes some first bytes and
nothing behind them, and returns their number; it is `encoded_size` itself when no string is cut. -/
def Logged.Value.SizeExact (checked : Bool) (q : Logged.Value) : Prop :=
  ∃ size w, q.1.impl.returnedSize checked q.2 = some size ∧ w ≤ size ∧
    (∀ buf, size ≤ buf.length → ∃ buf', (q.1.impl.encodeTo q.2).run buf = some (buf', w) ∧
      buf'.drop w = buf.drop w) ∧
    (q.Short → w = size)

/-- The size is exact when it is a `usize`. One that wraps is enough only where strings are cut and
what is left of the size still has room for what is written. -/
theorem sizeExact_iff [FloatDisplay] {p : Logged} (h : Compositional p) (v : p.impl.Self)
    (checked : Bool) :
    ∃ need ≤ p.impl.encodedSize v, (p.impl.encodeTo v).Takes need ∧
      (Logged.Value.SizeExact checked ⟨p, v⟩ ↔
        p.impl.encodedSize v < usizeRange ∨
          checked = false ∧ ¬ Logged.Value.Short ⟨p, v⟩ ∧
            need ≤ p.impl.encodedSize v % usizeRange) := by
  obtain ⟨out, hwrite, hle, heq⟩ := h.measured v
  have htakes : (p.impl.encodeTo v).Takes out.length := by
    show (p.impl.encodeTo v).Takes out.length
    rw [hwrite]
    exact takes_copy out
  -- what is written does not depend on the buffer
  have hrun : ∀ buf : List UInt8, out.length ≤ buf.length → ∃ buf',
      (p.impl.encodeTo v).run buf = some (buf', out.length) ∧
        buf'.drop out.length = buf.drop out.length := by
    intro buf hbuf
    refine ⟨out ++ buf.drop out.length, ?_, List.drop_left⟩
    show (p.impl.encodeTo v).run buf = _
    rw [hwrite]
    exact copy_run hbuf
  refine ⟨out.length, hle, htakes, ?_⟩
  constructor
  · rintro ⟨size, w, hsize, hw, hbufs, hshort⟩
    by_cases hlt : p.impl.encodedSize v < usizeRange
    · exact .inl hlt
    · right
      cases checked with
      | true =>
        simp only [Encode.returnedSize, if_neg hlt, if_true] at hsize
        cases hsize
      | false =>
        simp only [Encode.returnedSize, if_neg hlt, Bool.false_eq_true, if_false,
          Option.some.injEq] at hsize
        subst hsize
        -- a buffer of just the wrapped size shows what is written
        obtain ⟨buf', hbuf', -⟩ := hbufs (List.replicate (p.impl.encodedSize v % usizeRange) 0)
          (List.length_replicate ..).ge
        have hneed : out.length ≤ p.impl.encodedSize v % usizeRange := by
          have hfits := (htakes.run_isSome_iff _).mp (Option.isSome_of_eq_some hbuf')
          rwa [List.length_replicate] at hfits
        have hrange := usizeRange_le
        have hmod : p.impl.encodedSize v % usizeRange < usizeRange := Nat.mod_lt _ (by omega)
        refine ⟨rfl, fun hs => ?_, hneed⟩
        have hexact : out.length = p.impl.encodedSize v := heq hs
        omega
  · rintro (hlt | ⟨rfl, hlong, hneed⟩)
    · exact ⟨_, out.length, if_pos hlt, hle, fun buf hbuf => hrun buf (hle.trans hbuf), heq⟩
    · by_cases hlt : p.impl.encodedSize v < usizeRange
      · exact ⟨_, out.length, if_pos hlt, hle, fun buf hbuf => hrun buf (hle.trans hbuf), heq⟩
      · refine ⟨_, out.length, (if_neg hlt).trans rfl, hneed, fun buf hbuf => ?_, fun hs => ?_⟩
        · exact hrun buf (hneed.trans hbuf)
        · exact absurd hs hlong

end Target

theorem sizeExact_iff_vec :
    letI : Target := x86_64
    letI : FloatDisplay := noFloats
    Logged.Value.SizeExact true ⟨.vec (.text .str fun s => s), ["ab", "c"]⟩ := by
  let _ : Target := x86_64
  let _ : FloatDisplay := noFloats
  obtain ⟨need, -, -, hiff⟩ := sizeExact_iff (.vec .str) ["ab", "c"] true
  exact hiff.mpr (.inl (by decide +kernel))

/-- On a 32-bit target, a full vector of references to strings of 65535 bytes has the size
`2 ^ 32 + 1`: with checks `encoded_size` panics, and without them it returns 1. -/
private theorem not_sizeExact_of_full [Target] [FloatDisplay]
    (hwidth : Target.pointerWidth = .w32) {xs : List String} (hlen : xs.length = 65535)
    (hfull : ∀ s ∈ xs, (Utf8.encode s).length = 65535) (checked : Bool) :
    ¬ Logged.Value.SizeExact checked ⟨.vec (.text .str fun s => s), xs⟩ := by
  rintro ⟨size, w, hsize, -, hbufs, -⟩
  have htake : xs.take (min xs.length 65535) = xs := by
    rw [hlen, Nat.min_self, ← hlen, List.take_length]
  -- each string takes 65537 bytes, in the size as in what is written
  have hsum : ∀ f : String → ℕ, (∀ s, (Utf8.encode s).length = 65535 → f s = 65537) →
      2 + (xs.map f).sum = 2 ^ 32 + 1 := by
    intro f hf
    have hconst : xs.map f = List.replicate 65535 65537 := by
      rw [← hlen, List.eq_replicate_iff]
      exact ⟨List.length_map _, by simpa using fun s hs => hf s (hfull s hs)⟩
    have hrep : ∀ n m : ℕ, (List.replicate n m).sum = n * m := by simp
    rw [hconst, hrep]
    norm_num
  have hencoded : (Encode.vec Encode.str).encodedSize xs = 2 ^ 32 + 1 := by
    show 2 + ((xs.take (min xs.length 65535)).map fun s : String =>
      2 + (Utf8.encode s).length).sum = _
    rw [htake]
    exact hsum _ fun s hs => by rw [hs]
  have htakes : ((Encode.vec Encode.str).encodeTo xs).Takes (2 ^ 32 + 1) := by
    have hall : (SliceWriter.all (xs.map fun s : String => Encode.str.encodeTo s)).Takes
        (xs.map fun s : String => 2 + min (Utf8.encode s).length 65535).sum :=
      Takes.all fun s _ => takes_str s
    have hcount := takes_copy (toNeBytes 2 (min xs.length 65535))
    rw [length_toNeBytes] at hcount
    show ((SliceWriter.copy _).andThen
      (.all ((xs.take (min xs.length 65535)).map fun s : String => Encode.str.encodeTo s))).Takes _
    rw [htake, ← hsum (fun s => 2 + min (Utf8.encode s).length 65535) fun s hs => by
      rw [hs, Nat.min_self]]
    exact hcount.andThen hall
  have hrange : usizeRange = 2 ^ 32 := by rw [usizeRange, hwidth]
  -- the size wraps to 1
  have hsize' : (if (Encode.vec Encode.str).encodedSize xs < usizeRange then
      some ((Encode.vec Encode.str).encodedSize xs)
    else if checked then none
    else some ((Encode.vec Encode.str).encodedSize xs % usizeRange)) = some size := hsize
  rw [hencoded, hrange, if_neg (by norm_num)] at hsize'
  cases checked with
  | true => cases hsize'
  | false =>
    obtain rfl : 1 = size := by simpa using hsize'
    -- one byte is not even enough for the count
    obtain ⟨buf', hrun, -⟩ := hbufs [0] le_rfl
    have hnone := htakes.run_of_lt [0] (by norm_num)
    have hrun' : ((Encode.vec Encode.str).encodeTo xs).run [0] = some (buf', w) := hrun
    rw [hnone] at hrun'
    cases hrun'

/-- 65535 references to one string of 65535 bytes. -/
theorem size_of_vec_wraps :
    letI : Target := i686
    letI : FloatDisplay := noFloats
    let xs := List.replicate 65535 (String.ofList (List.replicate 65535 'a'))
    ∀ checked, ¬ Logged.Value.SizeExact checked ⟨.vec (.text .str fun s => s), xs⟩ := by
  let _ : Target := i686
  let _ : FloatDisplay := noFloats
  intro xs
  refine not_sizeExact_of_full rfl List.length_replicate fun s hs => ?_
  rw [List.eq_of_mem_replicate hs]
  exact length_encode_ascii 65535

end RapidLog
