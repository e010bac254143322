import RapidLog.Arg.Strings

/-!
# Reserved space

`log_impl!` reserves what `encoded_size` says before it calls `encode_to`. An array or a map
extrapolates the size from its first element, while `encode_to` writes all of them. The space is
enough exactly when the bytes of all elements fit in as many times the size of the first
(`reserve_iff`).
-/

namespace RapidLog

open SliceWriter

/-- The size that an array or a map takes for each of its elements. -/
def firstSize {α : Type} (size : α → ℕ) (xs : List α) : ℕ := (xs.head?.map size).getD 0

section Target

variable [Target]

/-- `encode_to` needs no more than `encoded_size` says. -/
def Encode.Bounded (e : Encode) : Prop := ∀ v, (e.encodeTo v).Fits (e.encodedSize v)

/-- `encoded_size` does not overflow, and into a buffer of exactly that many bytes `encode_to`
slices nothing out of range and returns at most `encoded_size`. -/
def Encode.Reserves (e : Encode) (v : e.Self) : Prop :=
  e.encodedSize v < usizeRange ∧ ∀ buf, buf.length = e.encodedSize v →
    ∃ buf' m, (e.encodeTo v).run buf = some (buf', m) ∧ m ≤ e.encodedSize v

/-- As many times the size of the first element, after `head` bytes for the count, is a `usize`
and is enough for what all the elements need. -/
def Room {α : Type} (head : ℕ) (size need : α → ℕ) (xs : List α) : Prop :=
  head + xs.length * firstSize size xs < usizeRange ∧
    (xs.map need).sum ≤ xs.length * firstSize size xs

theorem reserves_of_fits {e : Encode} {v : e.Self} {n : ℕ} (h : (e.encodeTo v).Fits n)
    (hle : n ≤ e.encodedSize v) (hlt : e.encodedSize v < usizeRange) : e.Reserves v :=
  ⟨hlt, fun buf hbuf => h.mono hle buf hbuf.ge⟩

theorem reserves_iff_of_takes {e : Encode} {v : e.Self} {n : ℕ} (h : (e.encodeTo v).Takes n) :
    e.Reserves v ↔ e.encodedSize v < usizeRange ∧ n ≤ e.encodedSize v := by
  constructor
  · rintro ⟨hlt, hres⟩
    -- any buffer of that length shows whether the space is enough
    let buf : List UInt8 := List.replicate (e.encodedSize v) 0
    have hbuf : buf.length = e.encodedSize v := List.length_replicate ..
    obtain ⟨buf', m, hrun, -⟩ := hres buf hbuf
    have hle : n ≤ buf.length := (h.run_isSome_iff buf).mp (by rw [hrun]; rfl)
    exact ⟨hlt, hbuf ▸ hle⟩
  · rintro ⟨hlt, hle⟩
    exact reserves_of_fits h.fits hle hlt

/-- The impl writes `head` and then `xs`, with a size that is extrapolated from the first of
`xs`. -/
structure Extrapolates (e : Encode) (v : e.Self) {α : Type} (head : List UInt8)
    (write : α → SliceWriter UInt8) (size : α → ℕ) (xs : List α) : Prop where
  encodeTo_eq : e.encodeTo v = (copy head).andThen (.all (xs.map write))
  encodedSize_eq :
    e.encodedSize v = head.length + xs.length * firstSize size xs ∨
      usizeRange ≤ e.encodedSize v ∧ usizeRange ≤ head.length + xs.length * firstSize size xs

namespace Extrapolates

variable {e : Encode} {v : e.Self} {α : Type} {head : List UInt8}
  {write : α → SliceWriter UInt8} {size need : α → ℕ} {xs : List α}

theorem encodedSize_lt_and_le_iff (h : Extrapolates e v head write size xs) :
    e.encodedSize v < usizeRange ∧ head.length + (xs.map need).sum ≤ e.encodedSize v ↔
      Room head.length size need xs := by
  unfold Room
  rcases h.encodedSize_eq with heq | ⟨hover, hover'⟩
  · rw [heq]
    omega
  · omega

theorem reserves (h : Extrapolates e v head write size xs)
    (hfits : ∀ x, (write x).Fits (size x)) (hroom : Room head.length size size xs) :
    e.Reserves v := by
  obtain ⟨hlt, hle⟩ := h.encodedSize_lt_and_le_iff.mpr hroom
  have hhead : (copy head).Fits head.length := (fits_copy_iff head).mpr le_rfl
  refine reserves_of_fits ?_ hle hlt
  rw [h.encodeTo_eq]
  exact hhead.andThen (Fits.all fun x _ => hfits x)

theorem reserves_iff (h : Extrapolates e v head write size xs)
    (htakes : ∀ x, (write x).Takes (need x)) : e.Reserves v ↔ Room head.length size need xs := by
  have hall : (e.encodeTo v).Takes (head.length + (xs.map need).sum) := by
    rw [h.encodeTo_eq]
    exact (takes_copy head).andThen (Takes.all fun x _ => htakes x)
  rw [reserves_iff_of_takes hall, h.encodedSize_lt_and_le_iff]

end Extrapolates

theorem extrapolates_array {T : Encode} {n : ℕ} (xs : (Encode.array n T).Self) :
    Extrapolates (Encode.array n T) xs (toNeBytes 2 n) T.encodeTo T.encodedSize xs.1 where
  encodeTo_eq := rfl
  encodedSize_eq := by
    obtain ⟨xs, rfl⟩ := xs
    rw [length_toNeBytes]
    cases xs with
    | nil => exact .inl rfl
    | cons x xs => exact .inl rfl

/-- `saturating_mul` only differs from the product where four more bytes overflow. -/
theorem extrapolates_entries {K V : Encode} (xs : List (K.Self × V.Self)) :
    Extrapolates (Encode.entries K V) xs (toNeBytes 4 (xs.length % 2 ^ 32))
      (fun x => (K.encodeTo x.1).andThen (V.encodeTo x.2))
      (fun x => K.encodedSize x.1 + V.encodedSize x.2) xs where
  encodeTo_eq := rfl
  encodedSize_eq := by
    rw [length_toNeBytes]
    cases xs with
    | nil => exact .inl rfl
    | cons x xs =>
      have hsize : (Encode.entries K V).encodedSize (x :: xs) =
          4 + min ((x :: xs).length * (K.encodedSize x.1 + V.encodedSize x.2))
            (usizeRange - 1) := rfl
      have hfirst : firstSize (fun x => K.encodedSize x.1 + V.encodedSize x.2) (x :: xs) =
          K.encodedSize x.1 + V.encodedSize x.2 := rfl
      rw [hsize, hfirst]
      omega

/-- The space that an array or a map reserves is enough when the sizes of all its elements add up
to no more than as many times the size of the first; and for elements that take a number of bytes
of their own, exactly when these add up to no more. -/
theorem reserve_iff :
    (∀ (T : Encode) (n : ℕ) (xs : (Encode.array n T).Self), T.Bounded →
      (Room 2 T.encodedSize T.encodedSize xs.1 → (Encode.array n T).Reserves xs) ∧
      ∀ need : T.Self → ℕ, (∀ x, (T.encodeTo x).Takes (need x)) →
        ((Encode.array n T).Reserves xs ↔ Room 2 T.encodedSize need xs.1)) ∧
    ∀ (K V : Encode) (xs : List (K.Self × V.Self)), K.Bounded → V.Bounded →
      let size := fun x : K.Self × V.Self => K.encodedSize x.1 + V.encodedSize x.2
      (Room 4 size size xs →
        (Encode.hashMap K V).Reserves xs ∧ (Encode.bTreeMap K V).Reserves xs) ∧
      ∀ (keyNeed : K.Self → ℕ) (valueNeed : V.Self → ℕ),
        (∀ k, (K.encodeTo k).Takes (keyNeed k)) → (∀ v, (V.encodeTo v).Takes (valueNeed v)) →
        let need := fun x : K.Self × V.Self => keyNeed x.1 + valueNeed x.2
        ((Encode.hashMap K V).Reserves xs ↔ Room 4 size need xs) ∧
          ((Encode.bTreeMap K V).Reserves xs ↔ Room 4 size need xs) := by
  constructor
  · intro T n xs hT
    have hxs := extrapolates_array xs
    have hcount : (toNeBytes 2 n).length = 2 := length_toNeBytes 2 n
    constructor
    · intro hroom
      exact hxs.reserves hT (hcount.symm ▸ hroom)
    · intro need hneed
      rw [hxs.reserves_iff hneed, hcount]
  · intro K V xs hK hV size
    have hxs := extrapolates_entries xs
    have hcount : (toNeBytes 4 (xs.length % 2 ^ 32)).length = 4 := length_toNeBytes 4 _
    constructor
    · intro hroom
      have hres : (Encode.entries K V).Reserves xs :=
        hxs.reserves (fun x => (hK x.1).andThen (hV x.2)) (hcount.symm ▸ hroom)
      exact ⟨hres, hres⟩
    · intro keyNeed valueNeed hkey hvalue need
      have hiff : (Encode.entries K V).Reserves xs ↔ Room 4 size need xs := by
        rw [hxs.reserves_iff fun x => (hkey x.1).andThen (hvalue x.2), hcount]
      exact ⟨hiff, hiff⟩

theorem takes_str (s : String) :
    (Encode.str.encodeTo s).Takes (2 + min (Utf8.encode s).length 65535) := by
  have hcount := takes_copy (toNeBytes 2 (min (Utf8.encode s).length 65535))
  have hbytes := takes_copy ((Utf8.encode s).take (min (Utf8.encode s).length 65535))
  rw [length_toNeBytes] at hcount
  rw [List.length_take, Nat.min_assoc, Nat.min_comm 65535, ← Nat.min_assoc, Nat.min_self]
    at hbytes
  exact hcount.andThen hbytes

theorem bounded_string : Encode.string.Bounded := by
  intro s
  exact (takes_str s).fits.mono (Nat.add_le_add_left (Nat.min_le_left ..) 2)

end Target

/-- Two texts of which the first is the longer. -/
theorem reserve_iff_longest_first :
    letI : Target := x86_64
    (Encode.array 2 Encode.string).Reserves ⟨["ab", "c"], rfl⟩ := by
  let _ : Target := x86_64
  exact (reserve_iff.1 Encode.string 2 ⟨["ab", "c"], rfl⟩ bounded_string).1
    ⟨by decide +kernel, by decide +kernel⟩

/-- `["a", "bb"]` needs nine bytes and reserves eight. -/
theorem reserve_too_short :
    letI : Target := x86_64
    ¬ ∀ (T : Encode) (n : ℕ) (xs : (Encode.array n T).Self), T.Bounded →
      (Encode.array n T).Reserves xs := by
  let _ : Target := x86_64
  intro h
  have hres := h Encode.string 2 ⟨["a", "bb"], rfl⟩ bounded_string
  obtain ⟨buf', m, hrun, -⟩ := hres.2 (List.replicate 8 0) (by decide +kernel)
  have hnone : ((Encode.array 2 Encode.string).encodeTo ⟨["a", "bb"], rfl⟩).run
      (List.replicate 8 0) = none := by decide +kernel
  rw [hnone] at hrun
  cases hrun

end RapidLog
