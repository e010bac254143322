import RapidLog.Lib.Files
import RapidLog.Lib.Transition
import Mathlib.Tactic

/-!
# Buffered writers, one call of the system at a time

A file is written through a handle, which either appends or has a position of its own (`Handle`). A
`Buffered` writer holds back bytes and has a list of tasks, those of the call that it is in.
`Buffered.step` takes one step of the first task; a step passes on at most as many bytes as one call
of the system takes. `Buffered.abort` is what an error of such a call leaves.

`pending` are the bytes that a writer has been given and has not passed on. A step takes what it
passes on from their front (`WellFormed.pending_of_step`), and an error cuts them short
(`pending_abort`). Every step leaves less to do (`weight_of_step`), so a call comes to its end. What
has been passed on by then and what is left in the buffer does not depend on how few bytes the
system takes each time (`drain_of_step`): it is what `BufWriter` does at once
(`BufWriter.writeAll_eq_drain`).
-/

/-- How a file has been opened for writing. -/
inductive Handle
  /-- Every write goes to the end of the file, wherever it is by then. -/
  | append
  | positioned (pos : ℕ)
  deriving DecidableEq, Repr

namespace Handle

variable {α : Type*}

/-- One write; a gap in front of the position is filled. -/
def write (fill : α) (content xs : List α) : Handle → List α × Handle
  | append => (content ++ xs, append)
  | positioned pos =>
    ((content ++ List.replicate (pos - content.length) fill).take pos ++ xs ++
      content.drop (pos + xs.length), positioned (pos + xs.length))

/-- The position is the end of the file. -/
def AtEnd (content : List α) : Handle → Prop
  | append => True
  | positioned pos => pos = content.length

theorem write_of_atEnd {fill : α} {content xs : List α} {h : Handle} (hend : h.AtEnd content) :
    (h.write fill content xs).1 = content ++ xs := by
  cases h with
  | append => rfl
  | positioned pos =>
    obtain rfl : pos = content.length := hend
    simp [write]

theorem atEnd_write {fill : α} {content xs : List α} {h : Handle} (hend : h.AtEnd content) :
    (h.write fill content xs).2.AtEnd (content ++ xs) := by
  cases h with
  | append => trivial
  | positioned pos =>
    obtain rfl : pos = content.length := hend
    exact List.length_append.symm

end Handle

/-- What a writer still has to do in a call. -/
inductive WriterTask (α : Type*)
  | writeAll (xs : List α)
  /-- Pass the buffer on, and then go on with bytes that did not fit it. -/
  | flushBuf (next : List α)
  /-- Pass bytes on that are not buffered. -/
  | direct (xs : List α)
  deriving DecidableEq, Repr

/-- The bytes that a task is about, apart from the buffer. -/
def WriterTask.bytes {α : Type*} : WriterTask α → List α
  | writeAll xs | flushBuf xs | direct xs => xs

/-- A writer with a buffer of `capacity` bytes. -/
structure Buffered (α : Type*) where
  capacity : ℕ
  buf : List α
  tasks : List (WriterTask α)
  deriving DecidableEq, Repr

namespace Buffered

variable {α : Type*}

/-- Bytes that are to be buffered, or passed on directly when they would fill the buffer. -/
def put (w : Buffered α) (xs : List α) (tasks : List (WriterTask α)) : Buffered α :=
  if w.capacity ≤ xs.length then { w with tasks := .direct xs :: tasks }
  else { w with buf := w.buf ++ xs, tasks }

/-- One step of the first task: the bytes that are passed on, and the writer then. The system takes
`n` bytes of those that it is offered. -/
def step (w : Buffered α) (n : ℕ) : Option (List α × Buffered α) :=
  match w.tasks with
  | [] => none
  | .writeAll xs :: tasks =>
    let spareCapacity := w.capacity - w.buf.length
    if xs.length < spareCapacity then some ([], { w with buf := w.buf ++ xs, tasks })
    else if spareCapacity < xs.length then some ([], { w with tasks := .flushBuf xs :: tasks })
    else some ([], w.put xs tasks)
  | .flushBuf next :: tasks =>
    if w.buf = [] then some ([], w.put next tasks)
    else if 0 < n ∧ n ≤ w.buf.length then some (w.buf.take n, { w with buf := w.buf.drop n })
    else none
  | .direct xs :: tasks =>
    if xs = [] then some ([], { w with tasks })
    else if 0 < n ∧ n ≤ xs.length then
      some (xs.take n, { w with tasks := .direct (xs.drop n) :: tasks })
    else none

/-- The system is asked to take bytes. -/
def Calls (w : Buffered α) : Prop :=
  match w.tasks with
  | .flushBuf _ :: _ => w.buf ≠ []
  | .direct xs :: _ => xs ≠ []
  | _ => False

instance [DecidableEq α] (w : Buffered α) : Decidable w.Calls := by
  unfold Calls
  split <;> infer_instance

/-- What is left when the system reports an error: the rest of the call is given up, and the buffer
is kept. -/
def abort (w : Buffered α) : Buffered α := { w with tasks := [] }

/-- The bytes that have not been passed on, in the order in which they will be. -/
def pending (w : Buffered α) : List α := w.buf ++ (w.tasks.map WriterTask.bytes).flatten

/-- What a step can do. -/
inductive Effect (w : Buffered α) : List α → Buffered α → Prop
  | buffer {xs tasks} (htasks : w.tasks = .writeAll xs :: tasks)
    (hfits : xs.length < w.capacity - w.buf.length) :
    Effect w [] { w with buf := w.buf ++ xs, tasks }
  | full {xs tasks} (htasks : w.tasks = .writeAll xs :: tasks)
    (hfull : w.capacity - w.buf.length < xs.length) :
    Effect w [] { w with tasks := .flushBuf xs :: tasks }
  | fill {xs tasks} (htasks : w.tasks = .writeAll xs :: tasks)
    (heq : xs.length = w.capacity - w.buf.length) : Effect w [] (w.put xs tasks)
  | flush {next tasks n} (htasks : w.tasks = .flushBuf next :: tasks) (hn : 0 < n)
    (hle : n ≤ w.buf.length) : Effect w (w.buf.take n) { w with buf := w.buf.drop n }
  | flushed {next tasks} (htasks : w.tasks = .flushBuf next :: tasks) (hempty : w.buf = []) :
    Effect w [] (w.put next tasks)
  | direct {xs tasks n} (htasks : w.tasks = .direct xs :: tasks) (hn : 0 < n)
    (hle : n ≤ xs.length) : Effect w (xs.take n) { w with tasks := .direct (xs.drop n) :: tasks }
  | directed {tasks} (htasks : w.tasks = .direct [] :: tasks) : Effect w [] { w with tasks }

variable {w w' : Buffered α} {n : ℕ} {out xs : List α} {tasks : List (WriterTask α)}

theorem step_effect (hs : w.step n = some (out, w')) : Effect w out w' := by
  unfold step at hs
  split at hs
  · cases hs
  · next htasks =>
    dsimp only at hs
    split at hs
    · next hfits =>
      cases hs
      exact .buffer htasks hfits
    · next hroom =>
      split at hs
      · next hfull =>
        cases hs
        exact .full htasks hfull
      · next hle =>
        cases hs
        exact .fill htasks (by omega)
  · next htasks =>
    split at hs
    · next hempty =>
      cases hs
      exact .flushed htasks hempty
    · split at hs
      · next hn =>
        cases hs
        exact .flush htasks hn.1 hn.2
      · cases hs
  · next htasks =>
    split at hs
    · next hempty =>
      cases hs
      exact .directed (hempty ▸ htasks)
    · split at hs
      · next hn =>
        cases hs
        exact .direct htasks hn.1 hn.2
      · cases hs

/-! ### Nothing is lost or reordered -/

/-- Bytes are passed on directly only when the buffer holds nothing. -/
structure WellFormed (w : Buffered α) : Prop where
  length_buf : w.buf.length ≤ w.capacity
  direct : ∀ xs tasks, w.tasks = .direct xs :: tasks → w.buf = [] ∨ xs = []
  rest : ∀ task ∈ w.tasks.tail, ∀ xs, task ≠ .direct xs

theorem WellFormed.of_forall (hlen : w.buf.length ≤ w.capacity)
    (htasks : ∀ task ∈ w.tasks, ∀ xs, task ≠ .direct xs) : w.WellFormed where
  length_buf := hlen
  direct xs tasks heq := absurd rfl (htasks (.direct xs) (by simp [heq]) xs)
  rest task htask := htasks task (List.mem_of_mem_tail htask)

theorem WellFormed.put (hlen : w.buf.length ≤ w.capacity)
    (hroom : xs.length ≤ w.capacity - w.buf.length ∨ w.buf = [])
    (htasks : ∀ task ∈ tasks, ∀ ys, task ≠ .direct ys) : (w.put xs tasks).WellFormed := by
  unfold Buffered.put
  split
  · next hbig =>
    refine ⟨hlen, fun ys tasks' heq => ?_, htasks⟩
    cases heq
    rcases hroom with hle | hnil
    · -- the bytes fill the whole buffer and yet fit what is left of it
      rcases Nat.eq_zero_or_pos w.buf.length with hzero | hpos
      · exact .inl (List.eq_nil_of_length_eq_zero hzero)
      · exact .inr (List.eq_nil_of_length_eq_zero (by omega))
    · exact .inl hnil
  · next hsmall =>
    refine .of_forall ?_ htasks
    rw [List.length_append]
    rcases hroom with hle | hnil
    · dsimp only
      omega
    · rw [hnil, List.length_nil, Nat.zero_add]
      exact (not_le.mp hsmall).le

@[simp]
theorem capacity_put (w : Buffered α) (xs : List α) (tasks : List (WriterTask α)) :
    (w.put xs tasks).capacity = w.capacity := by
  unfold put
  split <;> rfl

@[simp]
theorem pending_put (w : Buffered α) (xs : List α) (tasks : List (WriterTask α)) :
    (w.put xs tasks).pending = w.buf ++ (xs ++ (tasks.map WriterTask.bytes).flatten) := by
  unfold put
  split
  · rfl
  · exact List.append_assoc ..

theorem WellFormed.tail (h : w.WellFormed) {task : WriterTask α}
    (htasks : w.tasks = task :: tasks) : ∀ task ∈ tasks, ∀ ys, task ≠ .direct ys := by
  have hrest := h.rest
  rwa [htasks] at hrest

theorem WellFormed.step (h : w.WellFormed) (hs : w.step n = some (out, w')) : w'.WellFormed := by
  cases step_effect hs with
  | buffer htasks hfits =>
    refine .of_forall ?_ (h.tail htasks)
    rw [List.length_append]
    dsimp only
    omega
  | full htasks hfull =>
    refine ⟨h.length_buf, fun ys tasks heq => ?_, h.tail htasks⟩
    cases heq
  | fill htasks heq => exact .put h.length_buf (.inl heq.le) (h.tail htasks)
  | flush htasks hn hle =>
    refine ⟨?_, fun ys tasks heq => ?_, h.rest⟩
    · rw [List.length_drop]
      exact (Nat.sub_le ..).trans h.length_buf
    · cases htasks.symm.trans heq
  | flushed htasks hempty => exact .put h.length_buf (.inr hempty) (h.tail htasks)
  | direct htasks hn hle =>
    refine ⟨h.length_buf, fun ys tasks heq => ?_, h.tail htasks⟩
    -- there is something to pass on, so that the buffer is empty
    refine (h.direct _ _ htasks).imp_right fun hnil => ?_
    rw [hnil] at hle
    exact absurd hn (not_lt.mpr hle)
  | directed htasks => exact .of_forall h.length_buf (h.tail htasks)

theorem capacity_of_step (hs : w.step n = some (out, w')) : w'.capacity = w.capacity := by
  cases step_effect hs <;> simp

/-- A step passes bytes on from the front of those that are pending. -/
theorem WellFormed.pending_of_step (h : w.WellFormed) (hs : w.step n = some (out, w')) :
    out ++ w'.pending = w.pending := by
  cases step_effect hs with
  | buffer htasks | full htasks => simp [pending, htasks, WriterTask.bytes]
  | fill htasks | flushed htasks =>
    rw [List.nil_append, pending_put, pending, htasks]
    rfl
  | flush htasks hn hle => simp only [pending, ← List.append_assoc, List.take_append_drop]
  | direct htasks hn hle =>
    -- nothing in the buffer stands before the bytes that are passed on
    rcases h.direct _ _ htasks with hnil | hnil
    · simp only [pending, htasks, WriterTask.bytes, hnil, List.nil_append, List.map_cons,
        List.flatten_cons, ← List.append_assoc, List.take_append_drop]
    · simp [pending, htasks, WriterTask.bytes, hnil]
  | directed htasks => simp [pending, htasks, WriterTask.bytes]

/-- A flush ends with an empty buffer. -/
theorem flushBuf_of_step (hpos : 0 < w.capacity) (htasks : w.tasks = [.flushBuf []])
    (hs : w.step n = some (out, w')) :
    w'.tasks = [.flushBuf []] ∨ w'.tasks = [] ∧ w'.pending = [] := by
  cases step_effect hs with
  | buffer h | full h | fill h | direct h | directed h => cases htasks.symm.trans h
  | flush h hn hle => exact .inl htasks
  | flushed h hempty =>
    cases htasks.symm.trans h
    refine .inr ⟨?_, ?_⟩
    · rw [put, List.length_nil, if_neg (not_le.mpr hpos)]
    · rw [pending_put, hempty]
      rfl

/-- A step gives no task more bytes. -/
theorem length_bytes_of_step (hs : w.step n = some (out, w')) :
    (w'.tasks.map WriterTask.bytes).flatten.length ≤
      (w.tasks.map WriterTask.bytes).flatten.length := by
  have hput : ∀ xs tasks, ((w.put xs tasks).tasks.map WriterTask.bytes).flatten.length ≤
      xs.length + (tasks.map WriterTask.bytes).flatten.length := by
    intro xs tasks
    unfold put
    split
    · simp [WriterTask.bytes]
    · simp
  cases step_effect hs with
  | buffer htasks | full htasks | directed htasks => simp [htasks, WriterTask.bytes]
  | fill htasks | flushed htasks =>
    rw [htasks, List.map_cons, List.flatten_cons, List.length_append]
    exact hput _ _
  | flush htasks => exact le_rfl
  | direct htasks => simp [htasks, WriterTask.bytes]

/-- An error cuts the pending bytes short. -/
theorem pending_abort (w : Buffered α) : w.abort.pending <+: w.pending := by
  simp [pending, abort]

theorem WellFormed.abort (h : w.WellFormed) : w.abort.WellFormed :=
  .of_forall h.length_buf fun _ htask => absurd htask List.not_mem_nil

/-! ### A call comes to an end -/

/-- What is left to do for a task. -/
def WriterTask.weight : WriterTask α → ℕ
  | .writeAll xs => 2 * xs.length + 4
  | .flushBuf xs => 2 * xs.length + 3
  | .direct xs => xs.length + 1

def weight (w : Buffered α) : ℕ := w.buf.length + (w.tasks.map WriterTask.weight).sum

theorem weight_put (w : Buffered α) (xs : List α) (tasks : List (WriterTask α)) :
    (w.put xs tasks).weight ≤ w.buf.length + (xs.length + 1) +
      (tasks.map WriterTask.weight).sum := by
  unfold put
  split
  · simp [weight, WriterTask.weight]
    omega
  · simp [weight]

/-- Every step leaves less to do. -/
theorem weight_of_step (hs : w.step n = some (out, w')) : w'.weight < w.weight := by
  cases step_effect hs with
  | @buffer xs tasks htasks =>
    simp only [weight, htasks, List.map_cons, List.sum_cons, WriterTask.weight, List.length_append]
    omega
  | full htasks | directed htasks => simp [weight, htasks, WriterTask.weight]
  | @fill xs tasks htasks | @flushed xs tasks htasks =>
    -- what is put into the buffer or passed on directly weighs less than the task
    have hput := weight_put w xs tasks
    simp only [weight, htasks, List.map_cons, List.sum_cons, WriterTask.weight] at hput ⊢
    omega
  | flush htasks hn hle =>
    simp only [weight, List.length_drop]
    omega
  | direct htasks hn hle =>
    simp only [weight, htasks, List.map_cons, List.sum_cons, WriterTask.weight, List.length_drop]
    omega

/-- A writer that is in a call can take a step, when the system takes as much as it is offered or
any smaller number of bytes. -/
theorem exists_step (h : w.tasks ≠ []) : ∃ n out w', w.step n = some (out, w') := by
  unfold step
  split
  · next hnil => exact absurd hnil h
  · dsimp only
    split
    · exact ⟨0, _, _, rfl⟩
    · split <;> exact ⟨0, _, _, rfl⟩
  · split
    · exact ⟨0, _, _, rfl⟩
    · next hne =>
      exact ⟨1, _, _, if_pos ⟨Nat.one_pos, List.length_pos_of_ne_nil hne⟩⟩
  · split
    · exact ⟨0, _, _, rfl⟩
    · next hne =>
      exact ⟨1, _, _, if_pos ⟨Nat.one_pos, List.length_pos_of_ne_nil hne⟩⟩

/-! ### All steps of a call at once -/

/-- `put`, with what is done after it. -/
def putThen (capacity : ℕ) (buf xs : List α) (rest : List α → List α × List α) :
    List α × List α :=
  if capacity ≤ xs.length then (xs ++ (rest buf).1, (rest buf).2) else rest (buf ++ xs)

/-- The bytes that are passed on while tasks are done, and the buffer then. -/
def drainTasks (capacity : ℕ) : List (WriterTask α) → List α → List α × List α
  | [], buf => ([], buf)
  | .writeAll xs :: tasks, buf =>
    let spareCapacity := capacity - buf.length
    if xs.length < spareCapacity then drainTasks capacity tasks (buf ++ xs)
    else if spareCapacity < xs.length then
      let rest := putThen capacity [] xs (drainTasks capacity tasks)
      (buf ++ rest.1, rest.2)
    else putThen capacity buf xs (drainTasks capacity tasks)
  | .flushBuf next :: tasks, buf =>
    let rest := putThen capacity [] next (drainTasks capacity tasks)
    (buf ++ rest.1, rest.2)
  | .direct xs :: tasks, buf =>
    let rest := drainTasks capacity tasks buf
    (xs ++ rest.1, rest.2)

def drain (w : Buffered α) : List α × List α := drainTasks w.capacity w.tasks w.buf

theorem drain_put (w : Buffered α) (xs : List α) (tasks : List (WriterTask α)) :
    (w.put xs tasks).drain = putThen w.capacity w.buf xs (drainTasks w.capacity tasks) := by
  unfold put putThen
  split <;> rfl

/-- A step does a part of what is left to be done. -/
theorem drain_of_step (hs : w.step n = some (out, w')) :
    w.drain = (out ++ w'.drain.1, w'.drain.2) := by
  cases step_effect hs with
  | buffer htasks hfits =>
    rw [drain, htasks, drainTasks, if_pos hfits]
    rfl
  | full htasks hfull =>
    rw [drain, htasks, drainTasks, if_neg (not_lt.mpr hfull.le), if_pos hfull]
    rfl
  | fill htasks heq =>
    rw [drain_put, drain, htasks, drainTasks, if_neg heq.not_lt, if_neg heq.not_gt]
    rfl
  | flush htasks hn hle =>
    simp only [drain, htasks, drainTasks, ← List.append_assoc, List.take_append_drop]
  | flushed htasks hempty =>
    rw [drain_put, drain, htasks, drainTasks, hempty, List.nil_append]
  | direct htasks hn hle =>
    simp only [drain, htasks, drainTasks, ← List.append_assoc, List.take_append_drop]
  | directed htasks => rw [drain, htasks]; rfl

/-- One task after the other. -/
theorem drainTasks_cons (capacity : ℕ) (task : WriterTask α) (tasks : List (WriterTask α))
    (buf : List α) :
    drainTasks capacity (task :: tasks) buf =
      ((drainTasks capacity [task] buf).1 ++
          (drainTasks capacity tasks (drainTasks capacity [task] buf).2).1,
        (drainTasks capacity tasks (drainTasks capacity [task] buf).2).2) := by
  cases task with
  | writeAll xs =>
    simp only [drainTasks, putThen]
    split
    · rfl
    · split <;> split <;> simp
  | flushBuf xs =>
    simp only [drainTasks, putThen]
    split <;> simp
  | direct xs => simp [drainTasks]

end Buffered

/-! ### The writer that does a call at once -/

namespace Files

variable {P α : Type*} [DecidableEq P] {f : Files P α} {p : P}

theorem append_nil (h : (f p).isSome) : f.append p [] = f := by
  obtain ⟨content, hcontent⟩ := Option.isSome_iff_exists.mp h
  rw [append, hcontent, Option.getD_some, List.append_nil, ← hcontent, Function.update_eq_self]

theorem append_append (f : Files P α) (p : P) (xs ys : List α) :
    (f.append p xs).append p ys = f.append p (xs ++ ys) := by
  rw [append, append_self, Option.getD_some, List.append_assoc]
  exact Function.update_idem ..

end Files

namespace BufWriter

variable {P α : Type*} [DecidableEq P] {w : BufWriter P α} {f : Files P α}

theorem writeAll_eq_drain (h : (f w.path).isSome) (xs : List α) :
    w.writeAll f xs =
      (f.append w.path (Buffered.drainTasks w.capacity [.writeAll xs] w.buf).1,
        { w with buf := (Buffered.drainTasks w.capacity [.writeAll xs] w.buf).2 }) := by
  simp only [writeAll, Buffered.drainTasks, Buffered.putThen]
  split
  · rw [Files.append_nil h]
  · split
    · by_cases hbig : w.capacity ≤ xs.length
      · rw [if_pos hbig]
        have hflushed : (w.flushBuf f).1.append w.path xs = f.append w.path (w.buf ++ xs) :=
          Files.append_append ..
        rw [List.append_nil, ← hflushed]
        exact if_pos hbig
      · rw [if_neg hbig]
        rw [List.append_nil]
        exact if_neg hbig
    · split
      · simp
      · simp [Files.append_nil h]

theorem flushBuf_eq_drain :
    w.flushBuf f =
      (f.append w.path (Buffered.drainTasks w.capacity [.flushBuf []] w.buf).1,
        { w with buf := (Buffered.drainTasks w.capacity [.flushBuf []] w.buf).2 }) := by
  simp only [flushBuf, Buffered.drainTasks, Buffered.putThen]
  split <;> simp

end BufWriter
