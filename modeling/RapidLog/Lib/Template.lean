import Mathlib.Data.List.TakeWhile
import Mathlib.Tactic

/-!
# Texts with holes

A `Template` is a text in which some parts are open. `render fill` puts a string into each hole.
When every hole is followed by a delimiter or by nothing, and no filling has a delimiter, the
text determines what the holes were filled with (`render_eq_iff`).
-/

/-- A part of a text, or a hole in it. -/
inductive Piece (ι : Type*)
  | text (s : String)
  | hole (i : ι)

/-- A text with holes. -/
abbrev Template (ι : Type*) := List (Piece ι)

namespace Template

variable {ι : Type*}

/-- The text with its holes filled. -/
def render (fill : ι → String) : Template ι → String
  | [] => ""
  | .text s :: t => s ++ render fill t
  | .hole i :: t => fill i ++ render fill t

/-- The holes, from left to right. -/
def holes : Template ι → List ι
  | [] => []
  | .text _ :: t => holes t
  | .hole i :: t => i :: holes t

/-- Templates one after the other, with a text between them. -/
def join (sep : String) : List (Template ι) → Template ι
  | [] => []
  | [t] => t
  | t :: u :: ts => t ++ .text sep :: join sep (u :: ts)

/-- A template between two texts. -/
def between (opening closing : String) (t : Template ι) : Template ι :=
  .text opening :: (t ++ [.text closing])

@[simp]
theorem render_append (fill : ι → String) (t u : Template ι) :
    render fill (t ++ u) = render fill t ++ render fill u := by
  induction t with
  | nil => exact String.empty_append.symm
  | cons piece t ih => cases piece <;> simp only [List.cons_append, render, ih, String.append_assoc]

@[simp]
theorem render_between (fill : ι → String) (opening closing : String) (t : Template ι) :
    render fill (between opening closing t) = opening ++ render fill t ++ closing := by
  simp only [between, render, render_append, String.append_empty, String.append_assoc]

theorem render_join (fill : ι → String) (sep : String) (ts : List (Template ι)) :
    render fill (join sep ts) = sep.intercalate (ts.map (render fill)) := by
  induction ts with
  | nil => rfl
  | cons t ts ih =>
    cases ts with
    | nil => exact String.intercalate_singleton.symm
    | cons u ts =>
      rw [join, render_append, render, ih, List.map_cons, List.map_cons, List.map_cons,
        String.intercalate_cons_cons, String.append_assoc]

/-- Only the strings that fill its holes matter for the text. -/
theorem render_congr {f g : ι → String} {t : Template ι} (h : ∀ i ∈ holes t, f i = g i) :
    render f t = render g t := by
  induction t with
  | nil => rfl
  | cons piece t ih =>
    cases piece with
    | text s => rw [render, render, ih h]
    | hole i =>
      rw [render, render, h i List.mem_cons_self,
        ih fun j hj => h j (List.mem_cons_of_mem _ hj)]

@[simp]
theorem holes_append (t u : Template ι) : holes (t ++ u) = holes t ++ holes u := by
  induction t with
  | nil => rfl
  | cons piece t ih => cases piece <;> simp only [List.cons_append, holes, ih]

@[simp]
theorem holes_between (opening closing : String) (t : Template ι) :
    holes (between opening closing t) = holes t := by
  simp [between, holes]

theorem mem_holes_join {sep : String} {ts : List (Template ι)} {i : ι} :
    i ∈ holes (join sep ts) ↔ ∃ t ∈ ts, i ∈ holes t := by
  induction ts with
  | nil => simp [join, holes]
  | cons t ts ih =>
    cases ts with
    | nil => simp [join]
    | cons u ts =>
      rw [join, holes_append, holes, List.mem_append, ih]
      simp

/-! ### Holes that end at a delimiter -/

section Separated

variable {delim : Char → Prop}

/-- The string begins with a delimiter. -/
def Begins (delim : Char → Prop) (s : String) : Prop := ∃ c cs, s.toList = c :: cs ∧ delim c

/-- Nothing, or a text that begins with a delimiter. -/
def Closes (delim : Char → Prop) : Template ι → Prop
  | [] => True
  | .text s :: _ => Begins delim s
  | .hole _ :: _ => False

/-- Every hole is followed by a delimiter or by nothing. -/
def Separated (delim : Char → Prop) : Template ι → Prop
  | [] => True
  | .text _ :: t => Separated delim t
  | .hole _ :: t => Closes delim t ∧ Separated delim t

theorem Closes.append {t u : Template ι} (ht : Closes delim t) (hu : Closes delim u) :
    Closes delim (t ++ u) := by
  cases t with
  | nil => exact hu
  | cons piece t =>
    cases piece with
    | text s => exact ht
    | hole i => exact ht.elim

/-- A template stays separated when a delimiter follows it. -/
theorem Separated.append {t u : Template ι} (ht : Separated delim t) (hu : Separated delim u)
    (hclose : Closes delim u) : Separated delim (t ++ u) := by
  induction t with
  | nil => exact hu
  | cons piece t ih =>
    cases piece with
    | text s => exact ih ht
    | hole i => exact ⟨ht.1.append hclose, ih ht.2⟩

theorem Separated.between {t : Template ι} (ht : Separated delim t) (opening : String)
    {closing : String} (hclose : Begins delim closing) :
    Separated delim (between opening closing t) :=
  ht.append (u := [.text closing]) trivial hclose

theorem Separated.join {sep : String} {ts : List (Template ι)} (hsep : Begins delim sep)
    (hts : ∀ t ∈ ts, Separated delim t) : Separated delim (join sep ts) := by
  induction ts with
  | nil => trivial
  | cons t ts ih =>
    cases ts with
    | nil => exact hts t (by simp)
    | cons u ts =>
      have hrest : Separated delim (Template.join sep (u :: ts)) :=
        ih fun t ht => hts t (by simp [ht])
      exact (hts t (by simp)).append (u := .text sep :: _) hrest hsep

/-- What stands before the first delimiter. -/
theorem takeWhile_of_begins [DecidablePred delim] {s : String} (hs : ∀ c ∈ s.toList, ¬ delim c)
    {rest : List Char} (hrest : ∀ c cs, rest = c :: cs → delim c) :
    (s.toList ++ rest).takeWhile (fun c => ! decide (delim c)) = s.toList := by
  rw [List.takeWhile_append_of_pos (by simpa using hs)]
  cases rest with
  | nil => simp
  | cons c cs => simp [hrest c cs rfl]

/-- The text behind a hole begins with a delimiter, however the holes in it are filled. -/
theorem Closes.head {t : Template ι} (h : Closes delim t) (fill : ι → String) :
    ∀ c cs, (render fill t).toList = c :: cs → delim c := by
  intro c cs hc
  cases t with
  | nil => simp [render] at hc
  | cons piece t =>
    cases piece with
    | hole i => exact h.elim
    | text s =>
      obtain ⟨d, ds, hs, hd⟩ := h
      rw [render, String.toList_append, hs, List.cons_append] at hc
      cases hc
      exact hd

/-- Two fillings without delimiters give the same text exactly when they agree on the holes. -/
theorem render_eq_iff [DecidablePred delim] {t : Template ι} (ht : Separated delim t)
    {f g : ι → String} (hf : ∀ i ∈ holes t, ∀ c ∈ (f i).toList, ¬ delim c)
    (hg : ∀ i ∈ holes t, ∀ c ∈ (g i).toList, ¬ delim c) :
    render f t = render g t ↔ ∀ i ∈ holes t, f i = g i := by
  induction t with
  | nil => simp [render, holes]
  | cons piece t ih =>
    cases piece with
    | text s =>
      rw [render, render, ← String.toList_inj, String.toList_append, String.toList_append,
        List.append_right_inj, String.toList_inj]
      exact ih ht hf hg
    | hole i =>
      have hrest := ih ht.2 (fun j hj => hf j (by simp [holes, hj]))
        fun j hj => hg j (by simp [holes, hj])
      simp only [render, holes, List.forall_mem_cons]
      constructor
      · intro heq
        -- both fillings end where the first delimiter stands
        have hlist := congrArg String.toList heq
        rw [String.toList_append, String.toList_append] at hlist
        have htake := congrArg (List.takeWhile fun c => ! decide (delim c)) hlist
        rw [takeWhile_of_begins (hf i (by simp [holes])) (ht.1.head f),
          takeWhile_of_begins (hg i (by simp [holes])) (ht.1.head g)] at htake
        rw [htake, List.append_right_inj, String.toList_inj] at hlist
        exact ⟨String.toList_inj.mp htake, hrest.mp hlist⟩
      · rintro ⟨hi, hall⟩
        rw [hi, hrest.mpr hall]

end Separated

end Template
