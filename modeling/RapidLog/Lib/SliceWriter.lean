import RapidLog.Lib.Slice

/-!
# Writers into a slice

A `SliceWriter` is a function that writes into the beginning of a mutable slice and returns how
much it wrote. It fails when it needs an element that the slice does not have, and it never changes
the length of the slice.

`copy xs` copies `xs`. Writers that run one after the other, each on what the one before left of
the slice, are put together with `andThen` and `all`; writers that copy make one that copies
(`copy_andThen`, `all_copy`). `w.Fits n` says that `w` writes into every slice of at least `n`
elements, and at most `n` of them; `w.Takes n` says that it writes `n` of them and needs as many.
-/

open Slice

/-- A function that writes into the beginning of a slice. -/
@[ext]
structure SliceWriter (α : Type*) where
  run : List α → Option (List α × ℕ)
  length_run : ∀ {buf buf' n}, run buf = some (buf', n) → buf'.length = buf.length

namespace SliceWriter

variable {α : Type*} {n : ℕ}

/-- Copy `xs` over the beginning of the slice. -/
def copy (xs : List α) : SliceWriter α where
  run buf := if xs.length ≤ buf.length then some (splice buf 0 xs, xs.length) else none
  length_run := by
    intro buf buf' n h
    split at h
    · next hle =>
      cases h
      exact length_splice (by rwa [Nat.zero_add])
    · cases h

/-- `w₂` on what `w₁` leaves of the slice. -/
def andThen (w₁ w₂ : SliceWriter α) : SliceWriter α where
  run buf := do
    let (buf, n) ← w₁.run buf
    let (rest, m) ← w₂.run (← sliceFrom buf n)
    return (buf.take n ++ rest, n + m)
  length_run := by
    intro buf buf' n h
    simp only [Option.bind_eq_bind, Option.bind_eq_some_iff] at h
    obtain ⟨⟨buf₁, n₁⟩, h₁, sub, hsub, ⟨rest, m⟩, h₂, h⟩ := h
    cases h
    have hle : n₁ ≤ buf₁.length := (sliceFrom_eq_some_iff.mp hsub).1
    have hlen : sub.length + n₁ = buf₁.length := length_sliceFrom hsub
    rw [List.length_append, List.length_take, Nat.min_eq_left hle, w₂.length_run h₂,
      ← w₁.length_run h₁]
    omega

/-- Several writers one after the other. -/
def all (ws : List (SliceWriter α)) : SliceWriter α := ws.foldr andThen (copy [])

/-- `w` writes into every slice of at least `n` elements, and at most `n` of them. -/
def Fits (w : SliceWriter α) (n : ℕ) : Prop :=
  ∀ buf, n ≤ buf.length → ∃ buf' m, w.run buf = some (buf', m) ∧ m ≤ n

@[simp]
theorem all_nil : all ([] : List (SliceWriter α)) = copy [] := rfl

@[simp]
theorem all_cons (w : SliceWriter α) (ws : List (SliceWriter α)) :
    all (w :: ws) = andThen w (all ws) := rfl

theorem copy_run {xs buf : List α} (h : xs.length ≤ buf.length) :
    (copy xs).run buf = some (xs ++ buf.drop xs.length, xs.length) := by
  have hrun : (copy xs).run buf = some (splice buf 0 xs, xs.length) := if_pos h
  rw [hrun, splice]
  simp

/-- A copy says what it copies. -/
theorem copy_injective : Function.Injective (copy : List α → SliceWriter α) := by
  intro xs ys h
  have hrun : (copy xs).run (xs ++ ys) = (copy ys).run (xs ++ ys) := by rw [h]
  rw [copy_run (by simp), copy_run (by simp), Option.some.injEq, Prod.mk.injEq] at hrun
  exact List.append_inj_left hrun.1 hrun.2

/-- Two copies are one. -/
@[simp]
theorem copy_andThen (xs ys : List α) : andThen (copy xs) (copy ys) = copy (xs ++ ys) := by
  ext buf : 2
  by_cases hxs : xs.length ≤ buf.length
  · have hfrom : sliceFrom (xs ++ buf.drop xs.length) xs.length = some (buf.drop xs.length) :=
      sliceFrom_append rfl
    simp only [andThen, copy_run hxs, Option.bind_eq_bind, Option.bind_some, hfrom,
      List.take_left]
    by_cases hys : ys.length ≤ (buf.drop xs.length).length
    · have hboth : (xs ++ ys).length ≤ buf.length := by
        rw [List.length_drop] at hys
        rw [List.length_append]
        omega
      rw [copy_run hys, copy_run hboth]
      simp [List.drop_drop]
    · have hboth : ¬ (xs ++ ys).length ≤ buf.length := by
        rw [List.length_drop] at hys
        rw [List.length_append]
        omega
      simp only [copy, if_neg hys, if_neg hboth, Option.bind_none]
  · have hboth : ¬ (xs ++ ys).length ≤ buf.length := by
      rw [List.length_append]
      omega
    simp only [andThen, copy, if_neg hxs, if_neg hboth, Option.bind_eq_bind, Option.bind_none]

/-- What is copied first stands in front. -/
theorem eq_append_of_copy_andThen {xs buf buf' : List α} {w : SliceWriter α}
    (h : (andThen (copy xs) w).run buf = some (buf', n)) : ∃ rest, buf' = xs ++ rest := by
  simp only [andThen, Option.bind_eq_bind, Option.bind_eq_some_iff] at h
  obtain ⟨⟨buf₁, n₁⟩, hcopy, sub, -, ⟨rest, m⟩, -, h⟩ := h
  cases h
  by_cases hle : xs.length ≤ buf.length
  · rw [copy_run hle] at hcopy
    cases hcopy
    exact ⟨rest, by rw [List.take_left]⟩
  · simp only [copy, if_neg hle] at hcopy
    cases hcopy

/-- Copies one after the other are one. -/
@[simp]
theorem all_copy (xss : List (List α)) : all (xss.map copy) = copy xss.flatten := by
  induction xss with
  | nil => rfl
  | cons xs xss ih => rw [List.map_cons, all_cons, ih, copy_andThen, List.flatten_cons]

/-- A copy fits exactly when it is short enough. -/
theorem fits_copy_iff (xs : List α) [Nonempty α] : (copy xs).Fits n ↔ xs.length ≤ n := by
  constructor
  · intro h
    obtain ⟨a⟩ := ‹Nonempty α›
    obtain ⟨buf', m, hrun, hle⟩ := h (List.replicate n a) (List.length_replicate ..).ge
    by_cases hfit : xs.length ≤ (List.replicate n a).length
    · simpa using hfit
    · simp only [copy, if_neg hfit] at hrun
      cases hrun
  · intro hle buf hbuf
    exact ⟨_, _, copy_run (hle.trans hbuf), hle⟩

namespace Fits

variable {w w₁ w₂ : SliceWriter α} {m : ℕ}

theorem mono (h : w.Fits n) (hle : n ≤ m) : w.Fits m := by
  intro buf hbuf
  obtain ⟨buf', used, hrun, hused⟩ := h buf (hle.trans hbuf)
  exact ⟨buf', used, hrun, hused.trans hle⟩

theorem andThen (h₁ : w₁.Fits n) (h₂ : w₂.Fits m) : (w₁.andThen w₂).Fits (n + m) := by
  intro buf hbuf
  obtain ⟨buf', used, hrun, hused⟩ := h₁ buf (by omega)
  have hlen := w₁.length_run hrun
  have hle : used ≤ buf'.length := by omega
  obtain ⟨rest, used', hrun', hused'⟩ := h₂ (buf'.drop used) (by rw [List.length_drop]; omega)
  refine ⟨buf'.take used ++ rest, used + used', ?_, Nat.add_le_add hused hused'⟩
  simp only [SliceWriter.andThen, hrun, Option.bind_eq_bind, Option.bind_some, sliceFrom,
    if_pos hle, hrun']
  rfl

/-- Writers one after the other fit in the sum of what each of them fits in. -/
theorem all {ι : Type*} {xs : List ι} {f : ι → SliceWriter α} {size : ι → ℕ}
    (h : ∀ x ∈ xs, (f x).Fits (size x)) :
    (SliceWriter.all (xs.map f)).Fits (xs.map size).sum := by
  induction xs with
  | nil =>
    intro buf _
    exact ⟨_, 0, copy_run (Nat.zero_le _), le_rfl⟩
  | cons x xs ih =>
    rw [List.map_cons, List.map_cons, List.sum_cons, SliceWriter.all_cons]
    exact (h x (by simp)).andThen (ih fun x hx => h x (by simp [hx]))

end Fits

/-- `w` writes exactly `n` elements, and fails on every slice that does not have them. -/
structure Takes (w : SliceWriter α) (n : ℕ) : Prop where
  run_of_le : ∀ buf, n ≤ buf.length → ∃ buf', w.run buf = some (buf', n)
  run_of_lt : ∀ buf, buf.length < n → w.run buf = none

theorem takes_copy (xs : List α) : (copy xs).Takes xs.length where
  run_of_le _ hle := ⟨_, copy_run hle⟩
  run_of_lt _ hlt := if_neg hlt.not_ge

namespace Takes

variable {w w₁ w₂ : SliceWriter α} {m : ℕ}

theorem andThen (h₁ : w₁.Takes n) (h₂ : w₂.Takes m) : (w₁.andThen w₂).Takes (n + m) where
  run_of_le buf hle := by
    obtain ⟨buf', hrun⟩ := h₁.run_of_le buf (by omega)
    have hlen : buf'.length = buf.length := w₁.length_run hrun
    obtain ⟨rest, hrest⟩ := h₂.run_of_le (buf'.drop n) (by rw [List.length_drop]; omega)
    refine ⟨buf'.take n ++ rest, ?_⟩
    simp only [SliceWriter.andThen, hrun, Option.bind_eq_bind, Option.bind_some, sliceFrom,
      if_pos (show n ≤ buf'.length by omega), hrest]
    rfl
  run_of_lt buf hlt := by
    by_cases hle : n ≤ buf.length
    · -- the first writer has room, and what it leaves is too short for the second
      obtain ⟨buf', hrun⟩ := h₁.run_of_le buf hle
      have hlen : buf'.length = buf.length := w₁.length_run hrun
      have hrest : w₂.run (buf'.drop n) = none :=
        h₂.run_of_lt _ (by rw [List.length_drop]; omega)
      simp only [SliceWriter.andThen, hrun, Option.bind_eq_bind, Option.bind_some, sliceFrom,
        if_pos (show n ≤ buf'.length by omega), hrest, Option.bind_none]
    · simp only [SliceWriter.andThen, h₁.run_of_lt buf (by omega), Option.bind_eq_bind,
        Option.bind_none]

/-- Writers one after the other take the sum of what each of them takes. -/
theorem all {ι : Type*} {xs : List ι} {f : ι → SliceWriter α} {size : ι → ℕ}
    (h : ∀ x ∈ xs, (f x).Takes (size x)) :
    (SliceWriter.all (xs.map f)).Takes (xs.map size).sum := by
  induction xs with
  | nil => exact takes_copy []
  | cons x xs ih =>
    rw [List.map_cons, List.map_cons, List.sum_cons, SliceWriter.all_cons]
    exact (h x (by simp)).andThen (ih fun x hx => h x (by simp [hx]))

theorem fits (h : w.Takes n) : w.Fits n := by
  intro buf hbuf
  obtain ⟨buf', hrun⟩ := h.run_of_le buf hbuf
  exact ⟨buf', n, hrun, le_rfl⟩

/-- On a slice of a given length, only the length decides. -/
theorem run_isSome_iff (h : w.Takes n) (buf : List α) : (w.run buf).isSome ↔ n ≤ buf.length := by
  constructor
  · intro hsome
    by_contra hlt
    rw [h.run_of_lt buf (not_le.mp hlt)] at hsome
    cases hsome
  · intro hle
    obtain ⟨buf', hrun⟩ := h.run_of_le buf hle
    rw [hrun]
    rfl

/-- A writer takes one number of elements only. -/
theorem unique [Nonempty α] (h : w.Takes n) (h' : w.Takes m) : n = m := by
  obtain ⟨a⟩ := ‹Nonempty α›
  have hrun : ∀ k, n ≤ k ↔ m ≤ k := by
    intro k
    have hlen : (List.replicate k a).length = k := List.length_replicate
    have hn := h.run_isSome_iff (List.replicate k a)
    rw [hlen] at hn
    have hm := h'.run_isSome_iff (List.replicate k a)
    rw [hlen] at hm
    exact hn.symm.trans hm
  exact le_antisymm ((hrun m).mpr le_rfl) ((hrun n).mp le_rfl)

end Takes

end SliceWriter
