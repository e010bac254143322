import Mathlib.Data.List.Range
import Mathlib.Data.List.Perm.Basic
import Mathlib.Tactic

/-!
# Concatenating a family of lists

`(List.range n).flatMap f` is the concatenation of the lists `f 0, …, f (n - 1)`. The lemmas below
say what becomes of it when one member changes: it grows at the end when all later members are
empty, it shrinks at the front when all earlier ones are, and up to order it changes by what the
member changes by. The last ones are about lists that are told apart by a key of their members.
-/

namespace FlatMap

variable {α : Type*} {f g : ℕ → List α} {ys : List α} {n k : ℕ}

/-- A range is what stands before a member, the member, and what stands after it. -/
private theorem range_split (h : k < n) :
    List.range n = List.range k ++ k :: (List.range (n - k - 1)).map (k + 1 + ·) := by
  obtain ⟨d, rfl⟩ := Nat.exists_eq_add_of_lt h
  rw [Nat.add_assoc, List.range_add, List.range_succ_eq_map]
  simp [Function.comp_def, Nat.add_assoc, Nat.add_comm 1]

/-- What stands after a member is later, and different from it. -/
private theorem lt_of_mem_after {j : ℕ} (h : j ∈ (List.range (n - k - 1)).map (k + 1 + ·)) :
    k < j ∧ j < n := by
  obtain ⟨i, hi, rfl⟩ := List.mem_map.mp h
  have := List.mem_range.mp hi
  omega

private theorem flatMap_eq_nil {l : List ℕ} (h : ∀ j ∈ l, f j = []) : l.flatMap f = [] := by
  simpa using h

/-- The members before `k` and the members after it, concatenated. -/
private theorem flatMap_range_split (h : k < n) (f : ℕ → List α) :
    (List.range n).flatMap f = (List.range k).flatMap f ++ f k ++
      ((List.range (n - k - 1)).map (k + 1 + ·)).flatMap f := by
  rw [range_split h, List.flatMap_append, List.flatMap_cons, List.append_assoc]

/-- The other members of a family that changes at `k` only. -/
private theorem flatMap_others (hne : ∀ j, j ≠ k → g j = f j) :
    (List.range k).flatMap g = (List.range k).flatMap f ∧
      ((List.range (n - k - 1)).map (k + 1 + ·)).flatMap g =
        ((List.range (n - k - 1)).map (k + 1 + ·)).flatMap f := by
  refine ⟨List.flatMap_congr fun j hj => hne j ?_, List.flatMap_congr fun j hj => hne j ?_⟩
  · exact Nat.ne_of_lt (List.mem_range.mp hj)
  · exact Nat.ne_of_gt (lt_of_mem_after hj).1

/-- When all later members are empty, a member that grows extends the concatenation. -/
theorem append_of_later_nil (hk : k < n) (hlater : ∀ j, k < j → j < n → f j = [])
    (hg : g k = f k ++ ys) (hne : ∀ j, j ≠ k → g j = f j) :
    (List.range n).flatMap g = (List.range n).flatMap f ++ ys := by
  obtain ⟨hbefore, hafter⟩ := flatMap_others (n := n) hne
  have hnil : ((List.range (n - k - 1)).map (k + 1 + ·)).flatMap f = [] :=
    flatMap_eq_nil fun j hj => hlater j (lt_of_mem_after hj).1 (lt_of_mem_after hj).2
  rw [flatMap_range_split hk g, flatMap_range_split hk f, hbefore, hafter, hnil, hg]
  simp

/-- When all earlier members are empty, a member that shrinks takes the first elements off the
concatenation. -/
theorem cons_of_earlier_nil (hk : k < n) (hearlier : ∀ j < k, f j = [])
    (hf : f k = ys ++ g k) (hne : ∀ j, j ≠ k → g j = f j) :
    (List.range n).flatMap f = ys ++ (List.range n).flatMap g := by
  obtain ⟨hbefore, hafter⟩ := flatMap_others (n := n) hne
  have hnil : (List.range k).flatMap f = [] :=
    flatMap_eq_nil fun j hj => hearlier j (List.mem_range.mp hj)
  rw [flatMap_range_split hk g, flatMap_range_split hk f, hbefore, hafter, hnil, hf]
  simp

/-- Up to order, the concatenation changes by what the member changes by. -/
theorem perm_of_ne (ys : List α) (hk : k < n) (hf : (f k).Perm (ys ++ g k))
    (hne : ∀ j, j ≠ k → g j = f j) :
    ((List.range n).flatMap f).Perm (ys ++ (List.range n).flatMap g) := by
  obtain ⟨hbefore, hafter⟩ := flatMap_others (n := n) hne
  rw [flatMap_range_split hk g, flatMap_range_split hk f, hbefore, hafter, ← List.append_assoc]
  refine List.Perm.append_right _ ?_
  refine (hf.append_left _).trans ?_
  rw [← List.append_assoc, ← List.append_assoc]
  exact List.perm_append_comm.append_right _

/-- Only the members that are not empty count, in whatever order they stand. -/
theorem perm_of_nodup {l : List ℕ} (hnodup : l.Nodup) (hlt : ∀ k ∈ l, k < n)
    (hnil : ∀ k < n, k ∉ l → f k = []) : ((List.range n).flatMap f).Perm (l.flatMap f) := by
  have hfilter : ∀ ks : List ℕ, (∀ k ∈ ks, k < n) →
      ks.flatMap f = (ks.filter (· ∈ l)).flatMap f := by
    intro ks
    induction ks with
    | nil => exact fun _ => rfl
    | cons k ks ih =>
      intro hks
      rw [List.flatMap_cons, ih fun j hj => hks j (List.mem_cons_of_mem _ hj), List.filter_cons]
      by_cases hk : k ∈ l
      · simp [hk]
      · simp [hk, hnil k (hks k List.mem_cons_self) hk]
  have hperm : ((List.range n).filter (· ∈ l)).Perm l := by
    apply (List.perm_ext_iff_of_nodup (List.nodup_range.filter _) hnodup).mpr
    intro k
    simpa using hlt k
  rw [hfilter _ fun k hk => List.mem_range.mp hk]
  exact hperm.flatMap_right f

section Keys

variable {β κ : Type*} [DecidableEq κ]

/-- Two lists that agree key by key are the same up to order. -/
theorem perm_of_keys [DecidableEq α] (key : α → κ) {xs ys : List α}
    (h : ∀ k, xs.filter (fun x => key x = k) = ys.filter fun y => key y = k) : xs.Perm ys := by
  apply List.perm_iff_count.mpr
  intro a
  have hcount : ∀ zs : List α, (zs.filter fun z => key z = key a).count a = zs.count a :=
    fun _ => List.count_filter (by simp)
  rw [← hcount xs, h, hcount]

/-- A list whose members give lists of their own key, at one key. -/
theorem filter_flatMap_key {key : α → κ} {key' : β → κ} {f : α → List β}
    (hkey : ∀ a, ∀ b ∈ f a, key' b = key a) (xs : List α) (k : κ) :
    (xs.flatMap f).filter (fun b => key' b = k) =
      (xs.filter fun a => key a = k).flatMap f := by
  induction xs with
  | nil => rfl
  | cons a xs ih =>
    rw [List.flatMap_cons, List.filter_append, ih, List.filter_cons]
    by_cases ha : key a = k
    · have hall : (f a).filter (fun b => key' b = k) = f a :=
        List.filter_eq_self.mpr fun b hb => by simp [hkey a b hb, ha]
      simp [ha, hall]
    · have hnone : (f a).filter (fun b => key' b = k) = [] :=
        List.filter_eq_nil_iff.mpr fun b hb => by simp [hkey a b hb, ha]
      simp [ha, hnone]

end Keys

end FlatMap
