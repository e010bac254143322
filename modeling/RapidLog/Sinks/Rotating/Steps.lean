import RapidLog.Lib.Handles
import RapidLog.Sinks.Rotating.Lines

/-!
# The rotating sink, one call of the system at a time

`RotatingFileSink.write` and `flush` do a call at once. Here a call is taken apart: a rotation
closes the writer, renames the file and opens a new one; the writer passes bytes on as the system
takes them, in any portions. The lock is held meanwhile, so the calls of one sink come one after the
other.

## Main results

* `rest_eq_run`: what a call comes to does not depend on the portions. In every state, the state
  that the call in progress leads to is the one in which all the calls begun so far are done at
  once.
-/

namespace RapidLog

namespace RotatingFileSink

/-- The last part of `rotate_inner`, from `open_writer`. -/
def openInner (files : Files String UInt8) (state : RotatingState) (policy : RotationPolicy)
    (basePath : String) (io : Io) : Files String UInt8 × RotatingState :=
  match openWriter files basePath io with
  | none => (files, state)
  | some (files, writer) =>
    (files,
      { state with
        writer := some writer
        bytesWritten := 0
        nextRotationAt := computeNextRotation policy io.rotationNow })

/-- The last part of `rotate_inner`, from `rename`. -/
def renameInner (files : Files String UInt8) (state : RotatingState) (policy : RotationPolicy)
    (basePath : String) (io : Io) : Files String UInt8 × RotatingState :=
  if io.renameOk && (files state.currentPath).isSome then
    openInner (files.rename state.currentPath (rotatedName basePath state.rotationIndex)) state
      policy basePath io
  else (files, state)

theorem rotateInner_eq (files : Files String UInt8) (state : RotatingState)
    (policy : RotationPolicy) (basePath : String) (io : Io) :
    rotateInner files state policy basePath io =
      renameInner (dropWriter files state.writer) state.dropped policy basePath io :=
  rfl

/-- What `write` does with the line. -/
def lineInto (sink : RotatingFileSink) (s : Files String UInt8 × RotatingState)
    (formatted : Line) : Files String UInt8 × RotatingFileSink :=
  match s.2.writer with
  | some w =>
    ((writeLine s.1 w formatted).1,
      { sink with
        inner :=
          { s.2 with
            writer := some (writeLine s.1 w formatted).2
            bytesWritten := s.2.bytesWritten + (formatted.length + 1) } })
  | none => (s.1, { sink with inner := s.2 })

theorem write_eq (files : Files String UInt8) (sink : RotatingFileSink) (formatted : Line)
    (io : Io) :
    sink.write files formatted io = sink.lineInto (sink.beforeLine files formatted io) formatted :=
  rfl

/-- Where a call stands. -/
inductive Phase
  | idle
  /-- `rotate_inner` has taken the writer, and flushes it. -/
  | closing (formatted : Line) (io : Io)
  | moving (formatted : Line) (io : Io)
  | opening (formatted : Line) (io : Io)
  | writing (formatted : Line)
  | flushing

def Phase.isIdle : Phase → Bool
  | idle => true
  | closing .. | moving .. | opening .. | writing _ | flushing => false

theorem Phase.eq_idle {phase : Phase} (h : phase.isIdle = true) : phase = idle := by
  cases phase with
  | idle => rfl
  | closing | moving | opening | writing | flushing => cases h

/-- A sink between two calls of the system. The writer that `rotate_inner` has taken is in `sink`
until it is dropped. -/
structure Midway where
  files : Files String UInt8
  sink : RotatingFileSink
  /-- What the writer still has to do. -/
  tasks : List (WriterTask UInt8)
  phase : Phase
  /-- The calls that have begun. -/
  ops : List Op

inductive Event
  | begin (op : Op)
  /-- The writer goes on; the system takes `n` bytes if it is asked. -/
  | run (n : ℕ)
  | rename
  | reopen

/-- The writer with what it still has to do. -/
def buffered (w : Writer) (tasks : List (WriterTask UInt8)) : Buffered UInt8 :=
  { capacity := w.capacity, buf := w.buf, tasks }

namespace Midway

def start (s : Files String UInt8 × RotatingFileSink) : Midway :=
  { files := s.1, sink := s.2, tasks := [], phase := .idle, ops := [] }

def setInner (m : Midway) (inner : RotatingState) : Midway :=
  { m with sink := { m.sink with inner } }

/-- `if let Some(w)` in `write`. -/
def line (m : Midway) (formatted : Line) : Midway :=
  match m.sink.inner.writer with
  | some _ => { m with tasks := [.writeAll formatted, .writeAll [10]], phase := .writing formatted }
  | none => { m with tasks := [], phase := .idle }

/-- The beginning of a call. -/
def begin (m : Midway) : Op → Midway
  | .write formatted io =>
    if m.sink.wouldExceed formatted io then
      match m.sink.inner.writer with
      | some _ => { m with tasks := [.flushBuf []], phase := .closing formatted io }
      | none => { m.setInner m.sink.inner.dropped with phase := .moving formatted io }
    else m.line formatted
  | .flush =>
    match m.sink.inner.writer with
    | some _ => { m with tasks := [.flushBuf []], phase := .flushing }
    | none => m

/-- The writer has nothing more to do. -/
def finish (m : Midway) : Midway :=
  match m.phase with
  | .closing formatted io =>
    { m.setInner m.sink.inner.dropped with phase := .moving formatted io }
  | .writing formatted =>
    let bytesWritten := m.sink.inner.bytesWritten + (formatted.length + 1)
    { m.setInner { m.sink.inner with bytesWritten } with phase := .idle }
  | .flushing => { m with phase := .idle }
  | .idle | .moving .. | .opening .. => m

def step : Machine Midway Event
  | m, .begin op =>
    match m.phase with
    | .idle => some ({ m with ops := m.ops ++ [op] }.begin op)
    | _ => none
  | m, .run n =>
    match m.sink.inner.writer with
    | some w =>
      ((buffered w m.tasks).step n).map fun (out, w') =>
        let m :=
          { m.setInner { m.sink.inner with writer := some { w with buf := w'.buf } } with
            files := m.files.append w.path out
            tasks := w'.tasks }
        if m.tasks = [] then m.finish else m
    | none => none
  | m, .rename =>
    match m.phase with
    | .moving formatted io =>
      if io.renameOk && (m.files m.sink.inner.currentPath).isSome then
        let rotated := rotatedName m.sink.basePath m.sink.inner.rotationIndex
        some { m with
          files := m.files.rename m.sink.inner.currentPath rotated
          phase := .opening formatted io }
      else some (m.line formatted)
    | _ => none
  | m, .reopen =>
    match m.phase with
    | .opening formatted io =>
      let (files, inner) :=
        openInner m.files m.sink.inner m.sink.policy m.sink.basePath io
      some ({ m.setInner inner with files }.line formatted)
    | _ => none

/-! ### What a call leads to -/

/-- The writer does all that it has to do. -/
def drained (m : Midway) : Files String UInt8 × RotatingState :=
  match m.sink.inner.writer with
  | some w =>
    let (passed, buf) := Buffered.drainTasks w.capacity m.tasks w.buf
    (m.files.append w.path passed, { m.sink.inner with writer := some { w with buf } })
  | none => (m.files, m.sink.inner)

/-- The files and the sink once the call in progress is done. -/
def rest (m : Midway) : Files String UInt8 × RotatingFileSink :=
  match m.phase with
  | .idle => (m.files, m.sink)
  | .closing formatted io =>
    m.sink.lineInto
      (renameInner m.drained.1 m.drained.2.dropped m.sink.policy m.sink.basePath io) formatted
  | .moving formatted io =>
    m.sink.lineInto (renameInner m.files m.sink.inner m.sink.policy m.sink.basePath io) formatted
  | .opening formatted io =>
    m.sink.lineInto (openInner m.files m.sink.inner m.sink.policy m.sink.basePath io) formatted
  | .writing formatted =>
    (m.drained.1,
      { m.sink with
        inner :=
          { m.drained.2 with
            bytesWritten := m.drained.2.bytesWritten + (formatted.length + 1) } })
  | .flushing => (m.drained.1, { m.sink with inner := m.drained.2 })

/-! ### What holds between two calls of the system -/

/-- What the phase says of the writer. -/
def PhaseOk (m : Midway) : Prop :=
  match m.phase with
  | .idle => m.tasks = []
  | .closing .. | .flushing => m.tasks = [.flushBuf []] ∧ m.sink.inner.writer.isSome
  | .moving .. | .opening .. => m.tasks = [] ∧ m.sink.inner.writer = none
  | .writing _ => m.tasks ≠ [] ∧ m.sink.inner.writer.isSome

/-- A writer that is open, and its file. -/
structure WriterOk (files : Files String UInt8) (basePath : String)
    (tasks : List (WriterTask UInt8)) (w : Writer) : Prop where
  path_eq : w.path = basePath
  exists_file : (files basePath).isSome
  capacity_eq : w.capacity = defaultBufSize
  wellFormed : (buffered w tasks).WellFormed

structure Ok (m : Midway) : Prop where
  currentPath_eq : m.sink.inner.currentPath = m.sink.basePath
  writer : ∀ w ∈ m.sink.inner.writer, WriterOk m.files m.sink.basePath m.tasks w
  phase : m.PhaseOk

variable {m m' : Midway} {formatted : Line} {w : Writer}

/-- The writer can be given tasks between two calls. -/
theorem WriterOk.tasks (h : WriterOk m.files m.sink.basePath m.tasks w)
    {tasks : List (WriterTask UInt8)} (htasks : ∀ task ∈ tasks, ∀ xs, task ≠ .direct xs) :
    WriterOk m.files m.sink.basePath tasks w :=
  ⟨h.path_eq, h.exists_file, h.capacity_eq, .of_forall h.wellFormed.length_buf htasks⟩

theorem ok_line (hcurrent : m.sink.inner.currentPath = m.sink.basePath)
    (hwriter : ∀ w ∈ m.sink.inner.writer, WriterOk m.files m.sink.basePath m.tasks w)
    (formatted : Line) :
    (m.line formatted).Ok := by
  unfold line
  split
  · next w hw =>
    exact ⟨hcurrent, fun w' hw' => (hwriter w' hw').tasks (by simp), by simp,
      Option.isSome_of_eq_some hw⟩
  · next hnone =>
    refine ⟨hcurrent, fun w hw => ?_, rfl⟩
    cases hnone.symm.trans hw

theorem Ok.tasks_idle (h : m.Ok) (hidle : m.phase = .idle) : m.tasks = [] := by
  have hphase := h.phase
  rwa [PhaseOk, hidle] at hphase

theorem Ok.begin (h : m.Ok) (hidle : m.phase = .idle) (op : Op) : (m.begin op).Ok := by
  cases op with
  | write formatted io =>
    simp only [Midway.begin]
    split
    · split
      · next w hw =>
        exact ⟨h.currentPath_eq, fun w' hw' => (h.writer w' hw').tasks (by simp), rfl,
          Option.isSome_of_eq_some hw⟩
      · next hnone =>
        refine ⟨h.currentPath_eq, fun w hw => ?_, h.tasks_idle hidle, rfl⟩
        cases hw
    · exact ok_line h.currentPath_eq h.writer formatted
  | flush =>
    simp only [Midway.begin]
    split
    · next w hw =>
      exact ⟨h.currentPath_eq, fun w' hw' => (h.writer w' hw').tasks (by simp), rfl,
        Option.isSome_of_eq_some hw⟩
    · exact h

/-- The state after the writer has taken a step, before the phase is changed. -/
def went (m : Midway) (w : Writer) (out : List UInt8) (w' : Buffered UInt8) : Midway :=
  { m.setInner { m.sink.inner with writer := some { w with buf := w'.buf } } with
    files := m.files.append w.path out
    tasks := w'.tasks }

/-- The state with a new file and its writer. -/
def opened (m : Midway) (io : Io) : Midway :=
  { m.setInner
      { m.sink.inner with
        writer := some { path := m.sink.basePath, capacity := defaultBufSize, buf := [] }
        bytesWritten := 0
        nextRotationAt := computeNextRotation m.sink.policy io.rotationNow } with
    files := m.files.create m.sink.basePath }

/-- What a step can do. -/
inductive Effect (m : Midway) : Event → Midway → Prop
  | begin {op} (hidle : m.phase = .idle) :
    Effect m (.begin op) ({ m with ops := m.ops ++ [op] }.begin op)
  | run {n w out w'} (hw : m.sink.inner.writer = some w)
    (hstep : (buffered w m.tasks).step n = some (out, w')) (hbusy : w'.tasks ≠ []) :
    Effect m (.run n) (m.went w out w')
  | done {n w out w'} (hw : m.sink.inner.writer = some w)
    (hstep : (buffered w m.tasks).step n = some (out, w')) (hdone : w'.tasks = []) :
    Effect m (.run n) (m.went w out w').finish
  | rename {formatted io} (hphase : m.phase = .moving formatted io)
    (hrename : (io.renameOk && (m.files m.sink.inner.currentPath).isSome) = true) :
    Effect m .rename
      { m with
        files := m.files.rename m.sink.inner.currentPath
          (rotatedName m.sink.basePath m.sink.inner.rotationIndex)
        phase := .opening formatted io }
  | renameFails {formatted io} (hphase : m.phase = .moving formatted io)
    (hrename : ¬ (io.renameOk && (m.files m.sink.inner.currentPath).isSome) = true) :
    Effect m .rename (m.line formatted)
  | reopen {formatted io} (hphase : m.phase = .opening formatted io) (hopen : io.openOk = true) :
    Effect m .reopen ((m.opened io).line formatted)
  | reopenFails {formatted io} (hphase : m.phase = .opening formatted io)
    (hopen : io.openOk = false) : Effect m .reopen (m.line formatted)

theorem step_effect {e : Event} (hs : step m e = some m') : Effect m e m' := by
  cases e with
  | begin op =>
    simp only [step] at hs
    split at hs
    · next hidle =>
      cases hs
      exact .begin hidle
    · cases hs
  | run n =>
    simp only [step] at hs
    split at hs
    · next w hw =>
      obtain ⟨⟨out, w'⟩, hstep, rfl⟩ := Option.map_eq_some_iff.mp hs
      dsimp only
      split
      · next hdone => exact .done hw hstep hdone
      · next hbusy => exact .run hw hstep hbusy
    · cases hs
  | rename =>
    simp only [step] at hs
    split at hs
    · next formatted io hphase =>
      split at hs
      · next hrename =>
        cases hs
        exact .rename hphase hrename
      · next hrename =>
        cases hs
        exact .renameFails hphase hrename
    · cases hs
  | reopen =>
    simp only [step] at hs
    split at hs
    · next formatted io hphase =>
      cases hs
      cases hopen : io.openOk with
      | true =>
        simp only [openInner, openWriter, hopen, if_true]
        exact .reopen hphase hopen
      | false =>
        simp only [openInner, openWriter, hopen, Bool.false_eq_true, if_false]
        exact .reopenFails hphase hopen
    · cases hs

theorem Ok.writerOk (h : m.Ok) (hw : m.sink.inner.writer = some w) :
    WriterOk m.files m.sink.basePath m.tasks w :=
  h.writer w hw

theorem buffered_of_step {tasks : List (WriterTask UInt8)} {n : ℕ} {out : List UInt8}
    {w' : Buffered UInt8} (hstep : (buffered w tasks).step n = some (out, w')) :
    buffered { w with buf := w'.buf } w'.tasks = w' := by
  have hcapacity : w'.capacity = w.capacity := Buffered.capacity_of_step hstep
  rw [buffered, ← hcapacity]

/-- The writer after a step. -/
theorem Ok.went (h : m.Ok) (hw : m.sink.inner.writer = some w) {n : ℕ} {out : List UInt8}
    {w' : Buffered UInt8} (hstep : (buffered w m.tasks).step n = some (out, w')) :
    WriterOk (m.went w out w').files m.sink.basePath w'.tasks { w with buf := w'.buf } := by
  have hwriter := h.writerOk hw
  refine ⟨hwriter.path_eq, ?_, hwriter.capacity_eq, ?_⟩
  · simp only [Midway.went, setInner, hwriter.path_eq, Files.append_self, Option.isSome_some]
  · rw [buffered_of_step hstep]
    exact hwriter.wellFormed.step hstep

/-- A writer that only flushes goes on with it or has emptied its buffer. -/
theorem WriterOk.flushBuf_of_step (h : WriterOk m.files m.sink.basePath m.tasks w) {n : ℕ}
    {out : List UInt8} {w' : Buffered UInt8} (htasks : m.tasks = [.flushBuf []])
    (hstep : (buffered w m.tasks).step n = some (out, w')) :
    w'.tasks = [.flushBuf []] ∨ w'.tasks = [] ∧ w'.pending = [] := by
  have hpos : 0 < w.capacity := by
    rw [h.capacity_eq]
    decide
  exact Buffered.flushBuf_of_step hpos htasks hstep

theorem Ok.run (h : m.Ok) (hw : m.sink.inner.writer = some w) {n : ℕ} {out : List UInt8}
    {w' : Buffered UInt8} (hstep : (buffered w m.tasks).step n = some (out, w')) :
    (w'.tasks ≠ [] → (m.went w out w').Ok) ∧ (w'.tasks = [] → (m.went w out w').finish.Ok) := by
  have hwriter := h.writerOk hw
  have hwent := h.went hw hstep
  have hphase := h.phase
  have hflush := fun htasks => hwriter.flushBuf_of_step htasks hstep
  -- the writer stays until the call is done
  have hok : ∀ phase, PhaseOk { m.went w out w' with phase } →
      Ok { m.went w out w' with phase } := by
    intro phase hphase'
    refine ⟨h.currentPath_eq, fun w₁ hw₁ => ?_, hphase'⟩
    cases hw₁
    exact hwent
  cases hm : m.phase with
  | idle =>
    -- a writer without tasks takes no step
    rw [PhaseOk, hm] at hphase
    rw [buffered, hphase] at hstep
    cases hstep
  | moving formatted io | opening formatted io =>
    rw [PhaseOk, hm] at hphase
    cases hphase.2.symm.trans hw
  | closing formatted io =>
    rw [PhaseOk, hm] at hphase
    -- the rotation goes on with the rename once the buffer is empty
    refine ⟨fun hbusy => ?_, fun hdone => ?_⟩
    · have hkept := hok (.closing formatted io)
        ⟨(hflush hphase.1).resolve_right fun hdone => hbusy hdone.1, rfl⟩
      rwa [← hm] at hkept
    · have hfinish : (m.went w out w').finish =
          { (m.went w out w').setInner (m.went w out w').sink.inner.dropped with
            phase := .moving formatted io } := by
        rw [finish, show (m.went w out w').phase = .closing formatted io from hm]
      rw [hfinish]
      refine ⟨h.currentPath_eq, fun w₁ hw₁ => ?_, hdone, rfl⟩
      cases hw₁
  | writing formatted =>
    refine ⟨fun hbusy => ?_, fun hdone => ?_⟩
    · have hkept := hok (.writing formatted) ⟨hbusy, rfl⟩
      rwa [← hm] at hkept
    · have hfinish : (m.went w out w').finish =
          { (m.went w out w').setInner
              { (m.went w out w').sink.inner with
                bytesWritten := (m.went w out w').sink.inner.bytesWritten +
                  (formatted.length + 1) } with
            phase := .idle } := by
        rw [finish, show (m.went w out w').phase = .writing formatted from hm]
      rw [hfinish]
      refine ⟨h.currentPath_eq, fun w₁ hw₁ => ?_, hdone⟩
      cases hw₁
      exact hwent
  | flushing =>
    rw [PhaseOk, hm] at hphase
    refine ⟨fun hbusy => ?_, fun hdone => ?_⟩
    · have hkept := hok .flushing
        ⟨(hflush hphase.1).resolve_right fun hdone => hbusy hdone.1, rfl⟩
      rwa [← hm] at hkept
    · have hfinish : (m.went w out w').finish = { m.went w out w' with phase := .idle } := by
        rw [finish, show (m.went w out w').phase = .flushing from hm]
      rw [hfinish]
      exact hok .idle hdone

/-- Every step keeps it. -/
theorem Ok.step (h : m.Ok) {e : Event} (hs : step m e = some m') : m'.Ok := by
  have hphase := h.phase
  cases step_effect hs with
  | @begin op hidle =>
    have hops : Ok { m with ops := m.ops ++ [op] } := ⟨h.currentPath_eq, h.writer, h.phase⟩
    exact hops.begin hidle op
  | run hw hstep hbusy => exact (h.run hw hstep).1 hbusy
  | done hw hstep hdone => exact (h.run hw hstep).2 hdone
  | rename hm hrename =>
    rw [PhaseOk, hm] at hphase
    refine ⟨h.currentPath_eq, fun w hw => ?_, hphase⟩
    cases hphase.2.symm.trans hw
  | renameFails hm hrename => exact ok_line h.currentPath_eq h.writer _
  | reopen hm hopen =>
    rw [PhaseOk, hm] at hphase
    refine ok_line (m := m.opened _) h.currentPath_eq (fun w hw => ?_) _
    cases hw
    exact ⟨rfl, by simp [Midway.opened, setInner, Files.create_self], rfl,
      .of_forall (Nat.zero_le _) (by simp [Midway.opened, setInner, buffered, hphase.1])⟩
  | reopenFails hm hopen => exact ok_line h.currentPath_eq h.writer _

theorem ok_of_reach {ok : Midway → Event → Prop} {m₀ : Midway} (h₀ : m₀.Ok)
    (hrun : step.Reach ok m₀ m) : m.Ok :=
  hrun.invariant h₀ fun _ _ _ h _ hs => h.step hs

/-! ### The call done at once -/

theorem drained_of_writer (hw : m.sink.inner.writer = some w) :
    m.drained =
      (m.files.append w.path (Buffered.drainTasks w.capacity m.tasks w.buf).1,
        { m.sink.inner with
          writer := some { w with buf := (Buffered.drainTasks w.capacity m.tasks w.buf).2 } }) := by
  rw [drained, hw]

/-- Nothing is left to do when there are no tasks. -/
theorem drained_of_done (hw : m.sink.inner.writer = some w)
    (hwriter : WriterOk m.files m.sink.basePath m.tasks w) (hdone : m.tasks = []) :
    m.drained = (m.files, m.sink.inner) := by
  rw [drained_of_writer hw, hdone, Buffered.drainTasks,
    Files.append_nil (by rw [hwriter.path_eq]; exact hwriter.exists_file), ← hw]

/-- A step of the writer does a part of what it leads to. -/
theorem drained_went (hw : m.sink.inner.writer = some w) {n : ℕ} {out : List UInt8}
    {w' : Buffered UInt8} (hstep : (buffered w m.tasks).step n = some (out, w')) :
    (m.went w out w').drained = m.drained := by
  have hcapacity : w'.capacity = w.capacity := Buffered.capacity_of_step hstep
  have hdrain : Buffered.drainTasks w.capacity m.tasks w.buf =
      (out ++ (Buffered.drainTasks w.capacity w'.tasks w'.buf).1,
        (Buffered.drainTasks w.capacity w'.tasks w'.buf).2) := by
    have hdrain := Buffered.drain_of_step hstep
    simp only [Buffered.drain, buffered, hcapacity] at hdrain
    exact hdrain
  rw [drained_of_writer (m := m.went w out w') rfl, drained_of_writer hw, hdrain]
  simp only [Midway.went, setInner, Files.append_append]

/-- A line that is about to be written. -/
theorem rest_line (hwriter : ∀ w ∈ m.sink.inner.writer, (m.files w.path).isSome)
    (formatted : Line) :
    (m.line formatted).rest = m.sink.lineInto (m.files, m.sink.inner) formatted := by
  unfold line
  split
  · next w hw =>
    have hsome := hwriter w hw
    simp only [rest, drained, hw, lineInto, writeLine]
    rw [Buffered.drainTasks_cons, BufWriter.writeAll_eq_drain hsome,
      BufWriter.writeAll_eq_drain (by simp [Files.append_self])]
    simp only [Files.append_append]
  · next hnone => simp only [rest, lineInto, hnone]

theorem Ok.isSome_files (h : m.Ok) : ∀ w ∈ m.sink.inner.writer, (m.files w.path).isSome := by
  intro w hw
  rw [(h.writer w hw).path_eq]
  exact (h.writer w hw).exists_file

/-- A flush that is done at once. -/
theorem drained_flushBuf (hw : m.sink.inner.writer = some w) {phase : Phase} :
    drained { m with tasks := [.flushBuf []], phase } =
      ((w.flushBuf m.files).1,
        { m.sink.inner with writer := some (w.flushBuf m.files).2 }) := by
  rw [drained_of_writer (m := { m with tasks := [.flushBuf []], phase }) hw,
    BufWriter.flushBuf_eq_drain]

/-- A call that has just begun leads to the state in which it has been done at once. -/
theorem rest_begin (h : m.Ok) (hidle : m.phase = .idle) (op : Op) :
    (m.begin op).rest = op.apply (m.files, m.sink) := by
  cases op with
  | write formatted io =>
    simp only [Midway.begin, Op.apply, write_eq, beforeLine]
    split
    · rw [rotateInner_eq]
      -- a sink without a writer has nothing to close
      split
      · next w hw =>
        simp only [rest, drained_flushBuf hw, dropWriter, hw]
        rfl
      · next hnone =>
        simp only [rest, setInner, dropWriter, hnone]
        rfl
    · exact rest_line h.isSome_files formatted
  | flush =>
    cases hw : m.sink.inner.writer with
    | some w => simp only [Midway.begin, Op.apply, flush, hw, rest, drained_flushBuf hw]
    | none => simp only [Midway.begin, Op.apply, flush, hw, rest, hidle]

/-- What is left of a call that goes on. -/
theorem rest_went (h : m.Ok) (hw : m.sink.inner.writer = some w) {n : ℕ} {out : List UInt8}
    {w' : Buffered UInt8} (hstep : (buffered w m.tasks).step n = some (out, w')) :
    (m.went w out w').rest = m.rest := by
  have hdrained := drained_went hw hstep
  have hphase := h.phase
  -- between two calls, and while there is no writer, no writer can take a step
  cases hm : m.phase with
  | idle =>
    rw [PhaseOk, hm] at hphase
    rw [buffered, hphase] at hstep
    cases hstep
  | moving formatted io | opening formatted io =>
    rw [PhaseOk, hm] at hphase
    cases hphase.2.symm.trans hw
  | closing formatted io | writing formatted | flushing =>
    simp only [rest, show (m.went w out w').phase = m.phase from rfl, hm, hdrained]
    rfl

/-- The end of the tasks of a writer. -/
theorem rest_finish (hw : m.sink.inner.writer = some w)
    (hwriter : WriterOk m.files m.sink.basePath m.tasks w) (hdone : m.tasks = []) :
    m.finish.rest = m.rest := by
  have hdrained := drained_of_done hw hwriter hdone
  unfold finish
  split
  · next formatted io hm =>
    simp only [rest, hm, hdrained, setInner]
    rfl
  · next formatted hm => simp only [rest, hm, hdrained, setInner]
  · next hm => simp only [rest, hm, hdrained]
  · rfl
  · rfl
  · rfl

theorem ops_line (formatted : Line) : (m.line formatted).ops = m.ops := by
  unfold line
  split <;> rfl

theorem ops_finish : m.finish.ops = m.ops := by
  unfold finish
  split <;> rfl

theorem ops_begin (op : Op) : (m.begin op).ops = m.ops := by
  cases op with
  | write formatted io =>
    simp only [Midway.begin]
    split
    · split <;> rfl
    · exact ops_line formatted
  | flush =>
    simp only [Midway.begin]
    split <;> rfl

/-- A call that begins leads to the state in which it is done at once, and no other step changes
what the call in progress leads to. -/
theorem rest_of_step (h : m.Ok) {e : Event} (hs : step m e = some m') :
    (∃ op, e = .begin op ∧ m'.ops = m.ops ++ [op] ∧ m'.rest = op.apply m.rest) ∨
      m'.ops = m.ops ∧ m'.rest = m.rest := by
  have hphase := h.phase
  cases step_effect hs with
  | @begin op hidle =>
    have hops : Ok { m with ops := m.ops ++ [op] } := ⟨h.currentPath_eq, h.writer, h.phase⟩
    refine .inl ⟨op, rfl, ops_begin op, ?_⟩
    rw [rest_begin hops hidle, show m.rest = (m.files, m.sink) by rw [rest, hidle]]
  | run hw hstep hbusy => exact .inr ⟨rfl, rest_went h hw hstep⟩
  | done hw hstep hdone =>
    exact .inr ⟨ops_finish,
      (rest_finish rfl (h.went hw hstep) hdone).trans (rest_went h hw hstep)⟩
  | rename hm hrename =>
    refine .inr ⟨rfl, ?_⟩
    simp only [rest, hm, renameInner, if_pos hrename]
  | @renameFails formatted io hm hrename =>
    refine .inr ⟨ops_line formatted, ?_⟩
    rw [rest_line h.isSome_files]
    simp only [rest, hm, renameInner, if_neg hrename]
  | @reopen formatted io hm hopen =>
    refine .inr ⟨ops_line formatted, ?_⟩
    rw [rest_line]
    · simp only [rest, hm, openInner, openWriter, hopen, if_true]
      rfl
    · intro w hw
      cases hw
      simp [opened, setInner, Files.create_self]
  | @reopenFails formatted io hm hopen =>
    refine .inr ⟨ops_line formatted, ?_⟩
    rw [rest_line h.isSome_files]
    simp only [rest, hm, openInner, openWriter, hopen, Bool.false_eq_true, if_false]

/-! ### A call comes to its end -/

/-- The writer does all that it has to do, and the call goes on. -/
theorem exists_done (h : m.Ok) (hw : m.sink.inner.writer = some w) (hbusy : m.tasks ≠ []) :
    ∃ m' w', step.Reach (fun _ e => ∀ op, e ≠ .begin op) m (Midway.finish m') ∧
      m'.phase = m.phase ∧ m'.tasks = [] ∧ m'.sink.inner.writer = some w' := by
  induction hweight : (buffered w m.tasks).weight using Nat.strong_induction_on
    generalizing m w with
  | _ k ih =>
    obtain ⟨n, out, w', hstep⟩ := Buffered.exists_step (w := buffered w m.tasks) hbusy
    have hs : step m (.run n) =
        some (if w'.tasks = [] then (m.went w out w').finish else m.went w out w') := by
      simp only [step, hw, hstep, Option.map_some]
      rfl
    by_cases hdone : w'.tasks = []
    · rw [if_pos hdone] at hs
      exact ⟨m.went w out w', _, .step .refl (fun _ heq => by cases heq) hs, rfl, hdone, rfl⟩
    · rw [if_neg hdone] at hs
      have hless : (buffered { w with buf := w'.buf } w'.tasks).weight < k := by
        rw [← hweight, buffered_of_step hstep]
        exact Buffered.weight_of_step hstep
      obtain ⟨m', w₁, hreach, hphase, htasks, hw₁⟩ :=
        ih _ hless ((h.run hw hstep).1 hdone) rfl hdone rfl
      refine ⟨m', w₁, ?_, hphase, htasks, hw₁⟩
      exact (Machine.Reach.refl.step (fun _ heq => by cases heq) hs).trans hreach

/-- A call can be brought to its end, without another one beginning. -/
def Ends (m : Midway) : Prop :=
  ∃ m', step.Reach (fun _ e => ∀ op, e ≠ .begin op) m m' ∧ m'.phase = .idle

theorem Ends.of_step {e : Event} (hs : step m e = some m') (hne : ∀ op, e ≠ .begin op)
    (h : m'.Ends) : m.Ends := by
  obtain ⟨m₁, hreach, hidle⟩ := h
  exact ⟨m₁, (Machine.Reach.refl.step hne hs).trans hreach, hidle⟩

/-- A call that only writes or flushes. -/
theorem ends_of_writing (h : m.Ok) (hm : (∃ formatted, m.phase = .writing formatted) ∨
    m.phase = .flushing) : m.Ends := by
  have hphase := h.phase
  have hwriter : m.tasks ≠ [] ∧ m.sink.inner.writer.isSome := by
    rcases hm with ⟨formatted, hm⟩ | hm
    · rwa [PhaseOk, hm] at hphase
    · rw [PhaseOk, hm] at hphase
      exact ⟨by simp [hphase.1], hphase.2⟩
  obtain ⟨w, hw⟩ := Option.isSome_iff_exists.mp hwriter.2
  obtain ⟨m', w', hreach, hsame, -⟩ := exists_done h hw hwriter.1
  refine ⟨m'.finish, hreach, ?_⟩
  rcases hm with ⟨formatted, hm⟩ | hm
  · rw [finish, hsame.trans hm]
  · rw [finish, hsame.trans hm]

theorem ends_line (h : (m.line formatted).Ok) : (m.line formatted).Ends := by
  unfold line at h ⊢
  split at h
  · exact ends_of_writing h (.inl ⟨formatted, rfl⟩)
  · exact ⟨_, .refl, rfl⟩

theorem ends_of_opening {io : Io} (h : m.Ok) (hm : m.phase = .opening formatted io) :
    m.Ends := by
  have hs : step m .reopen = some (Midway.line
      { m.setInner (openInner m.files m.sink.inner m.sink.policy m.sink.basePath io).2 with
        files := (openInner m.files m.sink.inner m.sink.policy m.sink.basePath io).1 }
      formatted) := by
    simp only [step, hm]
  exact .of_step hs (fun _ heq => by cases heq) (ends_line (h.step hs))

theorem ends_of_moving {io : Io} (h : m.Ok) (hm : m.phase = .moving formatted io) : m.Ends := by
  by_cases hrename : (io.renameOk && (m.files m.sink.inner.currentPath).isSome) = true
  · have hs : step m .rename = some { m with
        files := m.files.rename m.sink.inner.currentPath
          (rotatedName m.sink.basePath m.sink.inner.rotationIndex)
        phase := .opening formatted io } := by
      simp only [step, hm, if_pos hrename]
    exact .of_step hs (fun _ heq => by cases heq) (ends_of_opening (h.step hs) rfl)
  · have hs : step m .rename = some (m.line formatted) := by
      simp only [step, hm, if_neg hrename]
    exact .of_step hs (fun _ heq => by cases heq) (ends_line (h.step hs))

/-- A call can be brought to its end from every phase. -/
theorem Ok.ends (h : m.Ok) : m.Ends := by
  have hphase := h.phase
  cases hm : m.phase with
  | idle => exact ⟨m, .refl, hm⟩
  | moving formatted io => exact ends_of_moving h hm
  | opening formatted io => exact ends_of_opening h hm
  | writing formatted => exact ends_of_writing h (.inl ⟨formatted, hm⟩)
  | flushing => exact ends_of_writing h (.inr hm)
  | closing formatted io =>
    rw [PhaseOk, hm] at hphase
    obtain ⟨w, hw⟩ := Option.isSome_iff_exists.mp hphase.2
    obtain ⟨m', w', hreach, hsame, -⟩ := exists_done h hw (by simp [hphase.1])
    have hmoving : m'.finish.phase = .moving formatted io := by
      rw [finish, hsame.trans hm]
    obtain ⟨m₁, hreach₁, hidle⟩ := ends_of_moving (ok_of_reach h hreach) hmoving
    exact ⟨m₁, hreach.trans hreach₁, hidle⟩

theorem ok_start {files : Files String UInt8} {basePath : String} {policy : RotationPolicy}
    {io : Io} {s : Files String UInt8 × RotatingFileSink}
    (hnew : RotatingFileSink.new files basePath policy io = some s) : (start s).Ok := by
  obtain ⟨opened, hopened, rfl⟩ := Option.map_eq_some_iff.mp hnew
  simp only [openWriter] at hopened
  split at hopened
  · cases hopened
    refine ⟨rfl, fun w hw => ?_, rfl⟩
    cases hw
    exact ⟨rfl, by simp [start, Files.create_self], rfl,
      .of_forall (Nat.zero_le _) (by simp [start, buffered])⟩
  · cases hopened

end Midway

/-- However the calls of the system cut the writes of the calls of a sink: in every state, the call
in progress leads to the state in which all the calls that have begun are done at once. It can be
brought to its end, and between two calls that state has been reached. -/
theorem rest_eq_run {files : Files String UInt8} {basePath : String} {policy : RotationPolicy}
    {io : Io} {s : Files String UInt8 × RotatingFileSink}
    (hnew : RotatingFileSink.new files basePath policy io = some s) {m : Midway}
    (hrun : Midway.step.Reach (fun _ _ => True) (.start s) m) :
    m.rest = run s m.ops ∧ (m.phase = .idle → (m.files, m.sink) = run s m.ops) ∧ m.Ends := by
  have hrest : m.rest = run s m.ops := by
    induction hrun with
    | refl => rfl
    | step hreach _ hs ih =>
      rcases Midway.rest_of_step (Midway.ok_of_reach (Midway.ok_start hnew) hreach) hs with
        ⟨op, -, hops, hrest⟩ | ⟨hops, hrest⟩
      · rw [hrest, hops, ih, run, run, List.foldl_append]
        rfl
      · rw [hrest, hops, ih]
  refine ⟨hrest, fun hidle => ?_, (Midway.ok_of_reach (Midway.ok_start hnew) hrun).ends⟩
  rw [← hrest, Midway.rest, hidle]

/-- Three lines, of which the third rotates; the system takes the first file in two portions. -/
private def inPortions : List Event :=
  [.begin (.write [65] quietIo), .run 0, .run 0, .begin (.write [66] quietIo), .run 0, .run 0,
    .begin (.write [67] quietIo), .run 3, .run 1, .run 0, .rename, .reopen, .run 0, .run 0]

/-- A call that has come to its end, with an effect that none of its steps has had alone. -/
theorem rest_eq_run_portions :
    ∃ s m, RotatingFileSink.new (fun _ => none) "app.log" (.sizeBased 5) quietIo = some s ∧
      Midway.step.run (.start s) inPortions = some m ∧
      m.files "app.log.1" = some [65, 10, 66, 10] ∧ (m.files, m.sink) = run s m.ops := by
  obtain ⟨s, hnew⟩ : ∃ s, RotatingFileSink.new (fun _ => none) "app.log" (.sizeBased 5) quietIo =
      some s := ⟨_, rfl⟩
  have hrun : (Midway.step.run (.start s) inPortions).map
      (fun m => (m.files "app.log.1", m.phase.isIdle)) = some (some [65, 10, 66, 10], true) := by
    cases hnew
    decide +kernel
  obtain ⟨m, hm, hsummary⟩ := Option.map_eq_some_iff.mp hrun
  obtain ⟨hfirst, hidle⟩ := Prod.mk.inj hsummary
  exact ⟨s, m, hnew, hm, hfirst,
    (rest_eq_run hnew (.of_run (fun _ _ _ => trivial) hm)).2.1 (Phase.eq_idle hidle)⟩

end RotatingFileSink

end RapidLog
