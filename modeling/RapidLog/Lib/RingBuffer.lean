import Mathlib.Data.Nat.ModEq
import Mathlib.Tactic
import RapidLog.Lib.Slice

/-!
# Single-producer single-consumer ring buffers with chunked access

A bounded ring of slots shared by one writer and one reader. The writer reserves a chunk of free
slots, fills it and commits a number of them; the reader does the same with the filled slots. A
chunk that crosses the physical end of the ring is handed out as two slices.

Positions count slots from the creation of the ring and never wrap; `i % capacity` is the
physical slot of position `i`. A write outside the slices of a chunk is undefined behaviour,
modelled by `none`.

* `window r p n`: the `n` slots from position `p` on, read across the physical end.
* `Wrote r r' lo p xs`: as seen through one revolution of the ring from `lo` on, `r'` is `r` with
  `xs` written at position `p`. Every write into a reserved chunk is of this form
  (`wrote_writeFirst`, `wrote_writeSecond`), the written window reads back (`Wrote.window_self`)
  and disjoint windows keep their contents (`Wrote.window_of_disjoint`).
-/

/-- A ring of `capacity` slots. `mem` holds the physical slots, stale contents included; `head`
and `tail` count the slots read and written since the ring was created. -/
structure RingBuffer (α : Type*) where
  capacity : ℕ
  mem : ℕ → α
  head : ℕ
  tail : ℕ

namespace RingBuffer

variable {α : Type*}

/-- The two slices of a chunk: `firstLen` slots from the physical slot `first` on, and
`secondLen` slots from the physical start of the ring on. -/
structure Chunk where
  first : ℕ
  firstLen : ℕ
  secondLen : ℕ
  deriving DecidableEq, Repr

/-- A fresh ring whose slots hold the arbitrary contents `mem`. -/
def new (capacity : ℕ) (mem : ℕ → α) : RingBuffer α :=
  { capacity, mem, head := 0, tail := 0 }

/-- The number of slots that can be read. -/
def slots (r : RingBuffer α) : ℕ := r.tail - r.head

/-- The number of slots that can be written. -/
def freeSlots (r : RingBuffer α) : ℕ := r.capacity - r.slots

/-- Whether there is nothing to read. -/
def isEmpty (r : RingBuffer α) : Bool := r.slots == 0

/-- The slices of the `n` slots from position `pos` on. -/
def chunkAt (r : RingBuffer α) (pos n : ℕ) : Chunk :=
  let first := pos % r.capacity
  let firstLen := min n (r.capacity - first)
  { first, firstLen, secondLen := n - firstLen }

/-- Reserve `n` free slots from the current tail on, without moving it. -/
def writeChunkUninit (r : RingBuffer α) (n : ℕ) : Option Chunk :=
  if n ≤ r.freeSlots then some (r.chunkAt r.tail n) else none

/-- The `n` filled slots from the current head on. -/
def readChunk (r : RingBuffer α) (n : ℕ) : Option Chunk :=
  if n ≤ r.slots then some (r.chunkAt r.head n) else none

/-- Advance the tail by `n` slots. -/
def commitWrite (r : RingBuffer α) (n : ℕ) : RingBuffer α := { r with tail := r.tail + n }

/-- Advance the head by `n` slots. -/
def commitRead (r : RingBuffer α) (n : ℕ) : RingBuffer α := { r with head := r.head + n }

/-- Overwrite physical slots from `pos` on. -/
def overlay (mem : ℕ → α) (pos : ℕ) (xs : List α) : ℕ → α :=
  fun i => if pos ≤ i then (xs[i - pos]?).getD (mem i) else mem i

@[simp] theorem overlay_nil (mem : ℕ → α) (pos : ℕ) : overlay mem pos [] = mem := by
  funext i
  simp [overlay]

/-- Write `xs` at offset `off` of the first slice; writing nothing is always allowed. -/
def writeFirst (r : RingBuffer α) (c : Chunk) (off : ℕ) (xs : List α) : Option (RingBuffer α) :=
  if xs.length = 0 ∨ off + xs.length ≤ c.firstLen then
    some { r with mem := overlay r.mem (c.first + off) xs }
  else none

/-- Write `xs` at offset `off` of the second slice; writing nothing is always allowed. -/
def writeSecond (r : RingBuffer α) (c : Chunk) (off : ℕ) (xs : List α) : Option (RingBuffer α) :=
  if xs.length = 0 ∨ off + xs.length ≤ c.secondLen then
    some { r with mem := overlay r.mem off xs }
  else none

/-- The contents of the first slice. -/
def readFirst (r : RingBuffer α) (c : Chunk) : List α :=
  (List.range c.firstLen).map fun k => r.mem (c.first + k)

/-- The contents of the second slice. -/
def readSecond (r : RingBuffer α) (c : Chunk) : List α :=
  (List.range c.secondLen).map r.mem

@[simp] theorem length_readFirst (r : RingBuffer α) (c : Chunk) :
    (r.readFirst c).length = c.firstLen := by simp [readFirst]

@[simp] theorem length_readSecond (r : RingBuffer α) (c : Chunk) :
    (r.readSecond c).length = c.secondLen := by simp [readSecond]

@[simp] theorem firstLen_add_secondLen (r : RingBuffer α) (pos n : ℕ) :
    (r.chunkAt pos n).firstLen + (r.chunkAt pos n).secondLen = n := by
  simp only [chunkAt]; omega

@[simp] theorem slots_commitRead (r : RingBuffer α) (n : ℕ) :
    (r.commitRead n).slots = r.slots - n := by
  simp only [slots, commitRead]; omega

/-! ### Positions -/

/-- The slot of position `i`. -/
def slotAt (r : RingBuffer α) (i : ℕ) : α := r.mem (i % r.capacity)

/-- The `n` slots from position `p` on. -/
def window (r : RingBuffer α) (p n : ℕ) : List α := (List.range n).map fun k => r.slotAt (p + k)

@[simp] theorem length_window (r : RingBuffer α) (p n : ℕ) : (r.window p n).length = n := by
  simp [window]

@[simp] theorem window_commitWrite (r : RingBuffer α) (k p n : ℕ) :
    (r.commitWrite k).window p n = r.window p n := rfl

@[simp] theorem window_commitRead (r : RingBuffer α) (k p n : ℕ) :
    (r.commitRead k).window p n = r.window p n := rfl

theorem getElem?_window (r : RingBuffer α) (p n k : ℕ) :
    (r.window p n)[k]? = if k < n then some (r.slotAt (p + k)) else none := by
  split
  · next h => simp [window, List.getElem?_range h]
  · next h => exact List.getElem?_eq_none (by simpa using h)

/-- A window is its first `a` slots followed by the other `b`. -/
theorem window_add (r : RingBuffer α) (p a b : ℕ) :
    r.window p (a + b) = r.window p a ++ r.window (p + a) b := by
  simp only [window, List.range_add, List.map_append, List.map_map]
  congr 1
  exact List.map_congr_left fun k _ => by simp [Nat.add_assoc]

theorem take_window (r : RingBuffer α) (p : ℕ) {k n : ℕ} (h : k ≤ n) :
    (r.window p n).take k = r.window p k := by
  obtain ⟨d, rfl⟩ := Nat.exists_eq_add_of_le h
  rw [window_add, List.take_left' (by simp)]

theorem drop_window (r : RingBuffer α) (p : ℕ) {k n : ℕ} (h : k ≤ n) :
    (r.window p n).drop k = r.window (p + k) (n - k) := by
  obtain ⟨d, rfl⟩ := Nat.exists_eq_add_of_le h
  rw [window_add, List.drop_left' (by simp), Nat.add_sub_cancel_left]

/-- Two windows agree when their slots do. -/
theorem window_congr {r r' : RingBuffer α} {p n : ℕ}
    (h : ∀ i, p ≤ i → i < p + n → r.slotAt i = r'.slotAt i) : r.window p n = r'.window p n := by
  refine List.map_congr_left fun k hk => h _ (by omega) ?_
  have := List.mem_range.mp hk
  omega

/-- Positions less than one revolution apart have distinct slots. -/
theorem mod_ne_of_lt {c i j : ℕ} (hij : i < j) (hj : j < i + c) : i % c ≠ j % c := by
  intro h
  have hdvd : c ∣ j - i := (Nat.modEq_iff_dvd' hij.le).mp h
  have := Nat.le_of_dvd (by omega) hdvd
  omega

/-- In the first slice of a chunk no position wraps. -/
theorem mod_add_of_lt {c pos k : ℕ} (h : pos % c + k < c) : pos % c + k = (pos + k) % c := by
  rw [Nat.add_mod, Nat.mod_eq_of_lt (a := k) (by omega), Nat.mod_eq_of_lt h]

/-- The second slice of a chunk starts where the first one met the end of the ring. -/
theorem mod_add_of_wrap {c pos k : ℕ} (hc : pos % c < c) (hk : k < c) :
    (pos + (c - pos % c) + k) % c = k := by
  have h : pos + (c - pos % c) + k = k + c * (pos / c + 1) := by
    have := Nat.mod_add_div pos c
    rw [Nat.mul_add, Nat.mul_one]
    omega
  rw [h, Nat.add_mul_mod_self_left, Nat.mod_eq_of_lt hk]

/-! ### Reading a chunk -/

/-- The two slices of a chunk of at most one revolution, read one after the other, are its
window. -/
theorem readFirst_append_readSecond (r : RingBuffer α) (pos n : ℕ) (hn : n ≤ r.capacity) :
    r.readFirst (r.chunkAt pos n) ++ r.readSecond (r.chunkAt pos n) = r.window pos n := by
  rcases Nat.eq_zero_or_pos n with rfl | hpos
  · simp [readFirst, readSecond, chunkAt, window]
  have hlt : pos % r.capacity < r.capacity := Nat.mod_lt _ (by omega)
  set a := min n (r.capacity - pos % r.capacity) with ha
  have hsplit : n = a + (n - a) := by omega
  have hfirst : r.readFirst (r.chunkAt pos n) = r.window pos a := by
    refine List.map_congr_left fun k hk => ?_
    have hk : k < a := List.mem_range.mp hk
    exact congrArg r.mem (mod_add_of_lt (by omega))
  have hsecond : r.readSecond (r.chunkAt pos n) = r.window (pos + a) (n - a) := by
    refine List.map_congr_left fun k hk => ?_
    have hk : k < n - a := List.mem_range.mp hk
    have hwrap : a = r.capacity - pos % r.capacity := by omega
    exact congrArg r.mem (by rw [hwrap, mod_add_of_wrap hlt (by omega)])
  rw [hfirst, hsecond, ← window_add, ← hsplit]

/-! ### Writing into a chunk -/

/-- As seen through one revolution from `lo` on, `r'` is `r` with `xs` written at position `p`;
nothing else of the ring changed. -/
structure Wrote (r r' : RingBuffer α) (lo p : ℕ) (xs : List α) : Prop where
  capacity_eq : r'.capacity = r.capacity
  head_eq : r'.head = r.head
  tail_eq : r'.tail = r.tail
  slotAt_eq : ∀ i, lo ≤ i → i < lo + r.capacity →
    r'.slotAt i = if p ≤ i then (xs[i - p]?).getD (r.slotAt i) else r.slotAt i

namespace Wrote

variable {r r' : RingBuffer α} {lo p : ℕ} {xs : List α}

/-- A written list is read back from where it was written. -/
theorem window_self (h : Wrote r r' lo p xs) (hp : lo ≤ p)
    (hlen : p + xs.length ≤ lo + r.capacity) : r'.window p xs.length = xs := by
  refine List.ext_getElem (by simp) fun k h₁ h₂ => ?_
  rw [← Option.some_inj, ← List.getElem?_eq_getElem, ← List.getElem?_eq_getElem,
    getElem?_window, if_pos h₂, h.slotAt_eq _ (by omega) (by omega), if_pos (by omega)]
  simp [h₂]

/-- Slots outside the written positions keep their contents. -/
theorem slotAt_of_disjoint (h : Wrote r r' lo p xs) {i : ℕ} (hlo : lo ≤ i)
    (hi : i < lo + r.capacity) (hd : i < p ∨ p + xs.length ≤ i) : r'.slotAt i = r.slotAt i := by
  rw [h.slotAt_eq i hlo hi]
  rcases hd with hd | hd
  · rw [if_neg (by omega)]
  · split
    · rw [List.getElem?_eq_none (by omega), Option.getD_none]
    · rfl

/-- Windows outside the written positions keep their contents. -/
theorem window_of_disjoint (h : Wrote r r' lo p xs) {q n : ℕ} (hlo : lo ≤ q)
    (hq : q + n ≤ lo + r.capacity) (hd : q + n ≤ p ∨ p + xs.length ≤ q) :
    r'.window q n = r.window q n :=
  window_congr fun i hi hi' => h.slotAt_of_disjoint (by omega) (by omega) (by omega)

/-- A write inside a window overwrites that part of it. -/
theorem window_splice {off n : ℕ} (h : Wrote r r' lo (p + off) xs) (hp : lo ≤ p)
    (hn : p + n ≤ lo + r.capacity) (hfit : off + xs.length ≤ n) :
    r'.window p n = Slice.splice (r.window p n) off xs := by
  refine List.ext_getElem? fun i => ?_
  rw [Slice.getElem?_splice (by simpa using hfit), getElem?_window, getElem?_window]
  by_cases hi : i < n
  · rw [if_pos hi, if_pos hi, h.slotAt_eq _ (by omega) (by omega)]
    by_cases hin : off ≤ i ∧ i < off + xs.length
    · have hlt : i - off < xs.length := by omega
      rw [if_pos hin, if_pos (by omega), Nat.add_sub_add_left]
      simp [hlt]
    · rw [if_neg hin]
      split
      · rw [List.getElem?_eq_none (by omega), Option.getD_none]
      · rfl
  · rw [if_neg hi, if_neg hi, if_neg (by omega)]

/-- Two adjacent writes are one write. -/
theorem append {r₁ r₂ : RingBuffer α} {ys : List α} (h : Wrote r r₁ lo p xs)
    (h' : Wrote r₁ r₂ lo (p + xs.length) ys) : Wrote r r₂ lo p (xs ++ ys) := by
  refine ⟨h'.capacity_eq.trans h.capacity_eq, h'.head_eq.trans h.head_eq,
    h'.tail_eq.trans h.tail_eq, fun i hi hi' => ?_⟩
  rw [h'.slotAt_eq i hi (by rw [h.capacity_eq]; exact hi'), h.slotAt_eq i hi hi']
  by_cases hp : p ≤ i
  · by_cases hx : p + xs.length ≤ i
    · rw [if_pos hx, if_pos hp, if_pos hp, List.getElem?_append_right (by omega),
        List.getElem?_eq_none (l := xs) (by omega), Option.getD_none, Nat.sub_sub]
    · rw [if_neg hx, if_pos hp, if_pos hp, List.getElem?_append_left (by omega)]
  · rw [if_neg hp, if_neg hp, if_neg (by omega)]

end Wrote

/-- Overwriting the physical slots of the positions `p, p + 1, …`, none of which wraps, is a
write at position `p`. -/
private theorem wrote_overlay (r : RingBuffer α) {lo p phys : ℕ} {xs : List α} (hlo : lo ≤ p)
    (hhi : p + xs.length ≤ lo + r.capacity)
    (hphys : ∀ k < xs.length, phys + k = (p + k) % r.capacity) :
    Wrote r { r with mem := overlay r.mem phys xs } lo p xs := by
  refine ⟨rfl, rfl, rfl, fun i hi hi' => ?_⟩
  simp only [slotAt, overlay]
  by_cases hin : p ≤ i ∧ i < p + xs.length
  · have hslot : i % r.capacity = phys + (i - p) := by
      rw [hphys _ (by omega), Nat.add_sub_cancel' hin.1]
    rw [if_pos (by omega), if_pos hin.1, hslot, Nat.add_sub_cancel_left]
  · -- the physical slot of `i` is none of the overwritten ones
    have hout : ∀ k < xs.length, phys + k ≠ i % r.capacity := by
      intro k hk
      rw [hphys k hk]
      rcases Nat.lt_or_ge i p with hlt | hge
      · exact (mod_ne_of_lt (by omega) (by omega)).symm
      · exact mod_ne_of_lt (by omega) (by omega)
    have hnone : phys ≤ i % r.capacity → xs[i % r.capacity - phys]? = none := by
      intro hle
      exact List.getElem?_eq_none (not_lt.mp fun hlt => hout _ hlt (by omega))
    have hright : (if p ≤ i then (xs[i - p]?).getD (r.mem (i % r.capacity))
        else r.mem (i % r.capacity)) = r.mem (i % r.capacity) := by
      split
      · rw [List.getElem?_eq_none (by omega), Option.getD_none]
      · rfl
    rw [hright]
    split
    · next hle => rw [hnone hle, Option.getD_none]
    · rfl

variable (r : RingBuffer α) (lo pos n off : ℕ) (xs : List α)

/-- A write into the first slice of a chunk is a write at its position, and stays in bounds
exactly when it fits the slice. -/
theorem wrote_writeFirst (hpos : lo ≤ pos) (hn : pos + n ≤ lo + r.capacity)
    (hfit : off + xs.length ≤ (r.chunkAt pos n).firstLen) :
    ∃ r', r.writeFirst (r.chunkAt pos n) off xs = some r' ∧ Wrote r r' lo (pos + off) xs := by
  refine ⟨_, if_pos (Or.inr hfit), wrote_overlay r (by omega) ?_ fun k hk => ?_⟩
  · simp only [chunkAt] at hfit
    omega
  · simp only [chunkAt] at hfit ⊢
    rw [Nat.add_assoc, Nat.add_assoc, mod_add_of_lt]
    omega

/-- A write into the second slice of a chunk is a write at its position. -/
theorem wrote_writeSecond (hpos : lo ≤ pos) (hn : pos + n ≤ lo + r.capacity)
    (hcap : n ≤ r.capacity) (hfit : off + xs.length ≤ (r.chunkAt pos n).secondLen) :
    ∃ r', r.writeSecond (r.chunkAt pos n) off xs = some r' ∧
      Wrote r r' lo (pos + (r.chunkAt pos n).firstLen + off) xs := by
  refine ⟨_, if_pos (Or.inr hfit), wrote_overlay r (by omega) ?_ fun k hk => ?_⟩
  · simp only [chunkAt] at hfit ⊢
    omega
  · simp only [chunkAt] at hfit ⊢
    have hlt : pos % r.capacity < r.capacity := Nat.mod_lt _ (by omega)
    have hwrap : min n (r.capacity - pos % r.capacity) = r.capacity - pos % r.capacity := by omega
    rw [hwrap, Nat.add_assoc, mod_add_of_wrap hlt (by omega)]

/-- Writing nothing changes nothing. -/
@[simp]
theorem writeFirst_nil (r : RingBuffer α) (c : Chunk) (off : ℕ) :
    r.writeFirst c off [] = some r := by
  simp [writeFirst]

/-- Writing nothing changes nothing. -/
@[simp]
theorem writeSecond_nil (r : RingBuffer α) (c : Chunk) (off : ℕ) :
    r.writeSecond c off [] = some r := by
  simp [writeSecond]

end RingBuffer
