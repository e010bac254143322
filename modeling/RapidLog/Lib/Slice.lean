import Mathlib.Data.List.Basic
import Mathlib.Tactic

/-!
# Slices

`splice buf off xs` is the buffer `buf` with `xs` copied over its elements from `off` on. As long
as `xs` fits, the length stays and every element is either the copied one or the old one.

`sliceFrom xs lo` and `slice xs lo hi` are the parts of `xs` from `lo` on and between `lo` and
`hi`; `none` when the bounds are out of range.
-/

namespace Slice

variable {α : Type*} {buf xs : List α} {off : ℕ}

/-- `buf` with `xs` copied over its elements from `off` on. -/
def splice (buf : List α) (off : ℕ) (xs : List α) : List α :=
  buf.take off ++ xs ++ buf.drop (off + xs.length)

theorem length_splice (h : off + xs.length ≤ buf.length) :
    (splice buf off xs).length = buf.length := by
  simp only [splice, List.length_append, List.length_take, List.length_drop]
  omega

theorem getElem?_splice (h : off + xs.length ≤ buf.length) (i : ℕ) :
    (splice buf off xs)[i]? = if off ≤ i ∧ i < off + xs.length then xs[i - off]? else buf[i]? := by
  have htake : (buf.take off).length = off := by rw [List.length_take]; omega
  rw [splice, List.append_assoc, List.getElem?_append, htake]
  split
  · next hi => rw [if_neg (by omega), List.getElem?_take_of_lt hi]
  · next hi =>
    rw [List.getElem?_append]
    split
    · next hj => rw [if_pos (by omega)]
    · next hj =>
      rw [if_neg (by omega), List.getElem?_drop]
      congr 1
      omega

/-- Overwriting nothing changes nothing. -/
@[simp]
theorem splice_nil (buf : List α) (off : ℕ) : splice buf off [] = buf := by
  simp [splice]

/-- Overwriting one part of a buffer keeps the parts before and after it. -/
theorem splice_append {old before after : List α} (hoff : before.length = off)
    (hlen : xs.length = old.length) :
    splice (before ++ (old ++ after)) off xs = before ++ (xs ++ after) := by
  rw [splice, List.take_left' hoff, hlen, ← List.drop_drop, List.drop_left' hoff, List.drop_left,
    List.append_assoc]

/-- Overwriting the whole buffer leaves the new contents. -/
theorem splice_zero (h : xs.length = buf.length) : splice buf 0 xs = xs := by
  simp [splice, h]

/-- Copies at several offsets, one after the other. -/
def spliceAll (buf : List α) (writes : List (ℕ × List α)) : List α :=
  writes.foldl (fun buf w => splice buf w.1 w.2) buf

@[simp]
theorem spliceAll_nil (buf : List α) : spliceAll buf [] = buf := rfl

@[simp]
theorem spliceAll_cons (buf : List α) (w : ℕ × List α) (ws : List (ℕ × List α)) :
    spliceAll buf (w :: ws) = spliceAll (splice buf w.1 w.2) ws := rfl

theorem spliceAll_concat (buf : List α) (ws : List (ℕ × List α)) (w : ℕ × List α) :
    spliceAll buf (ws ++ [w]) = splice (spliceAll buf ws) w.1 w.2 := by
  simp [spliceAll]

theorem length_spliceAll {ws : List (ℕ × List α)}
    (h : ∀ w ∈ ws, w.1 + w.2.length ≤ buf.length) :
    (spliceAll buf ws).length = buf.length := by
  induction ws generalizing buf with
  | nil => rfl
  | cons w ws ih =>
    have hw : (splice buf w.1 w.2).length = buf.length := length_splice (h w (by simp))
    rw [spliceAll_cons, ih fun v hv => hw ▸ h v (by simp [hv]), hw]

/-! ### Parts of a slice -/

/-- `xs[lo..]` -/
def sliceFrom (xs : List α) (lo : ℕ) : Option (List α) :=
  if lo ≤ xs.length then some (xs.drop lo) else none

/-- `xs[lo..hi]` -/
def slice (xs : List α) (lo hi : ℕ) : Option (List α) :=
  if lo ≤ hi ∧ hi ≤ xs.length then some ((xs.drop lo).take (hi - lo)) else none

theorem sliceFrom_eq_some_iff {xs ys : List α} {lo : ℕ} :
    sliceFrom xs lo = some ys ↔ lo ≤ xs.length ∧ xs.drop lo = ys := by
  unfold sliceFrom
  split <;> simp [*]

theorem slice_eq_some_iff {xs ys : List α} {lo hi : ℕ} :
    slice xs lo hi = some ys ↔
      (lo ≤ hi ∧ hi ≤ xs.length) ∧ (xs.drop lo).take (hi - lo) = ys := by
  unfold slice
  split <;> simp [*]

/-- What follows a known part. -/
theorem sliceFrom_append {xs ys : List α} {lo : ℕ} (h : xs.length = lo) :
    sliceFrom (xs ++ ys) lo = some ys := by
  subst h
  simp [sliceFrom]

/-- A part between two known ones. -/
theorem slice_append {xs ys zs : List α} {lo hi : ℕ} (hlo : xs.length = lo)
    (hhi : lo + ys.length = hi) : slice (xs ++ (ys ++ zs)) lo hi = some ys := by
  subst hlo hhi
  simp [slice]

theorem length_sliceFrom {xs ys : List α} {lo : ℕ} (h : sliceFrom xs lo = some ys) :
    ys.length + lo = xs.length := by
  obtain ⟨hle, rfl⟩ := sliceFrom_eq_some_iff.mp h
  rw [List.length_drop]
  omega

theorem length_slice {xs ys : List α} {lo hi : ℕ} (h : slice xs lo hi = some ys) :
    ys.length = hi - lo ∧ lo ≤ hi ∧ hi ≤ xs.length := by
  obtain ⟨⟨hle, hlen⟩, rfl⟩ := slice_eq_some_iff.mp h
  rw [List.length_take, List.length_drop]
  omega

end Slice
