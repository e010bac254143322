import Mathlib.Data.List.Infix
import Mathlib.Logic.Function.Basic

/-!
# Files and buffered writers

A directory maps names to contents. A `BufWriter` appends to one file and holds back what does not
fill its buffer yet; `contents` is what the file will hold once it is flushed.

`Wrote f w f' w' xs` says that writing `xs` took the files `f` and the writer `w` to `f'` and `w'`:
the contents grow by `xs`, what stood in the file still begins it, and no other file changes. Every
operation of a writer is of this form, and `Wrote.append` composes them.
-/

/-- The files of a directory: `none` for a name that is not there. -/
abbrev Files (P α : Type*) := P → Option (List α)

namespace Files

variable {P α : Type*} [DecidableEq P]

/-- Open for appending; the file is created when it is not there. -/
def create (f : Files P α) (p : P) : Files P α := Function.update f p (some ((f p).getD []))

/-- Append to a file. -/
def append (f : Files P α) (p : P) (xs : List α) : Files P α :=
  Function.update f p (some ((f p).getD [] ++ xs))

/-- Give a file another name; a file that had this name is gone. -/
def rename (f : Files P α) (p q : P) : Files P α :=
  if p = q then f else Function.update (Function.update f q (f p)) p none

theorem create_self (f : Files P α) (p : P) : f.create p p = some ((f p).getD []) :=
  Function.update_self ..

theorem create_of_ne (f : Files P α) {p q : P} (h : q ≠ p) : f.create p q = f q :=
  Function.update_of_ne h ..

theorem append_self (f : Files P α) (p : P) (xs : List α) :
    f.append p xs p = some ((f p).getD [] ++ xs) := Function.update_self ..

theorem append_of_ne (f : Files P α) {p q : P} (h : q ≠ p) (xs : List α) :
    f.append p xs q = f q := Function.update_of_ne h ..

theorem rename_source (f : Files P α) {p q : P} (h : p ≠ q) : f.rename p q p = none := by
  rw [rename, if_neg h, Function.update_self]

theorem rename_target (f : Files P α) {p q : P} (h : p ≠ q) : f.rename p q q = f p := by
  rw [rename, if_neg h, Function.update_of_ne h.symm, Function.update_self]

theorem rename_of_ne (f : Files P α) {p q r : P} (hp : r ≠ p) (hq : r ≠ q) :
    f.rename p q r = f r := by
  unfold rename
  split
  · rfl
  · rw [Function.update_of_ne hp, Function.update_of_ne hq]

end Files

/-- A writer that appends to the file `path` through a buffer of `capacity` bytes. -/
structure BufWriter (P α : Type*) where
  path : P
  capacity : ℕ
  buf : List α

namespace BufWriter

variable {P α : Type*} [DecidableEq P]

/-- What the file will hold once the writer is flushed. -/
def contents (w : BufWriter P α) (f : Files P α) : List α := (f w.path).getD [] ++ w.buf

/-- Pass the buffer on to the file. -/
def flushBuf (w : BufWriter P α) (f : Files P α) : Files P α × BufWriter P α :=
  (f.append w.path w.buf, { w with buf := [] })

/-- Bytes that fit are buffered; else the buffer is flushed first, and bytes that would fill it go
to the file directly. -/
def writeAll (w : BufWriter P α) (f : Files P α) (xs : List α) : Files P α × BufWriter P α :=
  let spareCapacity := w.capacity - w.buf.length
  if xs.length < spareCapacity then (f, { w with buf := w.buf ++ xs })
  else
    let (f, w) := if spareCapacity < xs.length then w.flushBuf f else (f, w)
    if w.capacity ≤ xs.length then (f.append w.path xs, w)
    else (f, { w with buf := w.buf ++ xs })

/-- Writing `xs` takes `f` and `w` to `f'` and `w'`. -/
structure Wrote (f : Files P α) (w : BufWriter P α) (f' : Files P α) (w' : BufWriter P α)
    (xs : List α) : Prop where
  path_eq : w'.path = w.path
  contents_eq : w'.contents f' = w.contents f ++ xs
  prefix_file : (f w.path).getD [] <+: (f' w.path).getD []
  isSome : (f w.path).isSome → (f' w.path).isSome
  other : ∀ p, p ≠ w.path → f' p = f p

namespace Wrote

variable {f f₁ f₂ : Files P α} {w w₁ w₂ : BufWriter P α} {xs ys : List α}

omit [DecidableEq P] in
theorem append (h : Wrote f w f₁ w₁ xs) (h' : Wrote f₁ w₁ f₂ w₂ ys) :
    Wrote f w f₂ w₂ (xs ++ ys) where
  path_eq := h'.path_eq.trans h.path_eq
  contents_eq := by rw [h'.contents_eq, h.contents_eq, List.append_assoc]
  prefix_file := h.prefix_file.trans (h.path_eq ▸ h'.prefix_file)
  isSome hs := h.path_eq ▸ h'.isSome (h.path_eq.symm ▸ h.isSome hs)
  other p hp := (h'.other p (h.path_eq.symm ▸ hp)).trans (h.other p hp)

end Wrote

variable (w : BufWriter P α) (f : Files P α) (xs : List α)

omit [DecidableEq P] in
private theorem wrote_buf : Wrote f w f { w with buf := w.buf ++ xs } xs where
  path_eq := rfl
  contents_eq := (List.append_assoc ..).symm
  prefix_file := List.prefix_refl _
  isSome h := h
  other _ _ := rfl

theorem wrote_flushBuf : Wrote f w (w.flushBuf f).1 (w.flushBuf f).2 [] where
  path_eq := rfl
  contents_eq := by simp [contents, flushBuf, Files.append_self]
  prefix_file := by simp [flushBuf, Files.append_self]
  isSome _ := by simp [flushBuf, Files.append_self]
  other p hp := Files.append_of_ne f hp _

/-- Bytes go to the file directly when the buffer holds nothing that would have to come first. -/
private theorem wrote_direct (hbuf : w.buf = [] ∨ xs = []) :
    Wrote f w (f.append w.path xs) w xs where
  path_eq := rfl
  contents_eq := by rcases hbuf with h | h <;> simp [contents, h, Files.append_self]
  prefix_file := by simp [Files.append_self]
  isSome _ := by simp [Files.append_self]
  other p hp := Files.append_of_ne f hp _

theorem wrote_writeAll : Wrote f w (w.writeAll f xs).1 (w.writeAll f xs).2 xs := by
  simp only [writeAll]
  split
  · exact w.wrote_buf f xs
  next hspare =>
  split
  · next hflush =>
    have hflushed := w.wrote_flushBuf f
    split
    · simpa using hflushed.append (wrote_direct (w.flushBuf f).2 (w.flushBuf f).1 xs (.inl rfl))
    · simpa using hflushed.append (wrote_buf (w.flushBuf f).2 (w.flushBuf f).1 xs)
  · next hfit =>
    split
    · next hbig =>
      -- the bytes fill the whole buffer and yet fit what is left of it
      have hbig : w.capacity ≤ xs.length := hbig
      refine w.wrote_direct f xs ?_
      rcases Nat.eq_zero_or_pos w.buf.length with h | h
      · exact .inl (List.eq_nil_of_length_eq_zero h)
      · exact .inr (List.eq_nil_of_length_eq_zero (by omega))
    · exact w.wrote_buf f xs

/-- A flushed writer holds nothing back: the file is its contents. -/
theorem file_flushBuf : (w.flushBuf f).1 w.path = some (w.contents f) :=
  Files.append_self ..

end BufWriter
