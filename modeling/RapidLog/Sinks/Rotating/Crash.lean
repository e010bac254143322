import RapidLog.Sinks.Rotating.Steps

/-!
# When the process dies

What the files of a rotating sink hold at any point of any call, without I/O errors. Only the bytes
that the writer passes on change what the files hold together: a rotation moves the bytes of one
file to another, and creates an empty one.

## Main results

* `onDisk_prefix`: the files hold what the first one held before and then a prefix of the lines;
  what is missing is not more than the buffer and the line that is being written.
-/

namespace RapidLog

namespace RotatingFileSink

/-- The line that is not given to the writer yet. -/
def Phase.ahead : Phase → List UInt8
  | .closing formatted _ | .moving formatted _ | .opening formatted _ => formatted ++ [10]
  | .idle | .writing _ | .flushing => []

/-- The length of the line that is being written, with its newline. -/
def Phase.lineLength : Phase → ℕ
  | .closing formatted _ | .moving formatted _ | .opening formatted _ | .writing formatted =>
    formatted.length + 1
  | .idle | .flushing => 0

/-- No rotation meets an I/O error. -/
def Event.NoErrors : Event → Prop
  | .begin op => op.NoErrors
  | .run _ | .rename | .reopen => True

namespace Midway

/-- The number of the last file that has been renamed. The number is taken before the file is. -/
def lastIndex (m : Midway) : ℕ :=
  match m.phase with
  | .moving .. => m.sink.inner.rotationIndex - 1
  | .idle | .closing .. | .opening .. | .writing _ | .flushing => m.sink.inner.rotationIndex

/-- `path.1`, …, `path.N` and `path`, one after the other. -/
def archive (files : Files String UInt8) (basePath : String) (n : ℕ) : List UInt8 :=
  ((List.range n).flatMap fun i => (files (rotatedName basePath (i + 1))).getD []) ++
    (files basePath).getD []

def onDisk (m : Midway) : List UInt8 := archive m.files m.sink.basePath m.lastIndex

/-- The bytes that the writer has not passed on. -/
def pending (m : Midway) : List UInt8 :=
  (m.sink.inner.writer.map fun w => (buffered w m.tasks).pending).getD []

/-- The lines of the calls that have begun. -/
def lines (m : Midway) : List Line := m.ops.flatMap Op.lines

/-- What the phase says of the files when no rotation has failed. -/
def FilesOk (m : Midway) : Prop :=
  match m.phase with
  | .idle | .flushing => m.sink.inner.writer.isSome
  | .closing _ io => io.renameOk = true ∧ io.openOk = true
  | .moving _ io => io.renameOk = true ∧ io.openOk = true ∧ (m.files m.sink.basePath).isSome ∧
    0 < m.sink.inner.rotationIndex
  | .opening _ io => io.openOk = true ∧ m.files m.sink.basePath = none
  | .writing formatted =>
    (m.tasks.map WriterTask.bytes).flatten.length ≤ formatted.length + 1

/-- The files hold all but what is pending and the line that the writer has not been given. -/
structure Disk (initial : List UInt8) (m : Midway) : Prop where
  ok : m.Ok
  files : m.FilesOk
  lines : m.onDisk ++ (m.pending ++ m.phase.ahead) = initial ++ joinLines m.lines

/-! ### The files together -/

section

variable {files : Files String UInt8} {basePath : String} {n : ℕ}

theorem archive_append (files : Files String UInt8) (basePath : String) (n : ℕ)
    (xs : List UInt8) :
    archive (files.append basePath xs) basePath n = archive files basePath n ++ xs := by
  rw [archive, archive, Files.append_self, Option.getD_some, List.append_assoc]
  congr 2
  funext i
  rw [Files.append_of_ne _ (rotatedName_ne basePath _)]

/-- The bytes of a file that is renamed stay where they are in the archive. -/
theorem archive_rename (hn : 0 < n) :
    archive (files.rename basePath (rotatedName basePath n)) basePath n =
      archive files basePath (n - 1) := by
  obtain ⟨k, rfl⟩ : ∃ k, n = k + 1 := ⟨n - 1, by omega⟩
  have hne : basePath ≠ rotatedName basePath (k + 1) := (rotatedName_ne basePath _).symm
  rw [archive, archive, List.range_succ, List.flatMap_append, List.flatMap_singleton,
    Files.rename_source _ hne, Files.rename_target _ hne, Option.getD_none, List.append_nil,
    Nat.add_sub_cancel]
  congr 1
  refine List.flatMap_congr fun i hi => ?_
  have hlt := List.mem_range.mp hi
  have hne' : rotatedName basePath (i + 1) ≠ rotatedName basePath (k + 1) :=
    fun heq => absurd (rotatedName_injective basePath heq) (by omega)
  rw [Files.rename_of_ne _ (rotatedName_ne basePath _) hne']

theorem archive_create (files : Files String UInt8) (basePath : String) (n : ℕ) :
    archive (files.create basePath) basePath n = archive files basePath n := by
  rw [archive, archive, Files.create_self, Option.getD_some]
  congr 2
  funext i
  rw [Files.create_of_ne _ (rotatedName_ne basePath _)]

end

/-! ### Every step -/

variable {initial : List UInt8} {m m' : Midway} {w : Writer} {formatted : Line}

theorem pending_of_writer (hw : m.sink.inner.writer = some w) :
    m.pending = (buffered w m.tasks).pending := by
  rw [pending, hw]
  rfl

/-- A sink whose writer is open. -/
theorem Disk.of_writer (hok : m.Ok) (hfiles : m.FilesOk) (hw : m.sink.inner.writer = some w)
    (hlines : archive m.files m.sink.basePath m.lastIndex ++
      (w.buf ++ (m.tasks.map WriterTask.bytes).flatten ++ m.phase.ahead) =
        initial ++ joinLines m.lines) : Disk initial m := by
  refine ⟨hok, hfiles, ?_⟩
  rw [pending_of_writer hw]
  exact hlines

/-- A line is given to the writer. -/
theorem disk_line (hok : (m.line formatted).Ok) (hw : m.sink.inner.writer = some w)
    (hdisk : archive m.files m.sink.basePath m.sink.inner.rotationIndex ++
      (w.buf ++ (formatted ++ [10])) = initial ++ joinLines m.lines) :
    Disk initial (m.line formatted) := by
  have hline : m.line formatted =
      { m with tasks := [.writeAll formatted, .writeAll [10]], phase := .writing formatted } := by
    simp only [line, hw]
  rw [hline] at hok ⊢
  refine .of_writer hok (by simp [FilesOk, WriterTask.bytes]) hw (Eq.trans ?_ hdisk)
  simp [lastIndex, Phase.ahead, WriterTask.bytes]

/-- The beginning of a call. -/
theorem Disk.begin (h : Disk initial m) (hidle : m.phase = .idle) {op : Op}
    (hop : op.NoErrors) : Disk initial ({ m with ops := m.ops ++ [op] }.begin op) := by
  have hops : Ok { m with ops := m.ops ++ [op] } := ⟨h.ok.currentPath_eq, h.ok.writer, h.ok.phase⟩
  have hok := hops.begin hidle op
  have hfiles := h.files
  rw [FilesOk, hidle] at hfiles
  obtain ⟨w, hw⟩ := Option.isSome_iff_exists.mp hfiles
  -- between two calls only the buffer is pending
  have hdisk : archive m.files m.sink.basePath m.sink.inner.rotationIndex ++ w.buf =
      initial ++ joinLines m.lines := by
    rw [← h.lines, pending_of_writer hw, onDisk, lastIndex, hidle, buffered, Buffered.pending,
      h.ok.tasks_idle hidle]
    simp [Phase.ahead]
  have hlines : Midway.lines { m with ops := m.ops ++ [op] } = m.lines ++ op.lines := by
    simp [Midway.lines]
  have hjoin : initial ++ joinLines (m.lines ++ op.lines) =
      archive m.files m.sink.basePath m.sink.inner.rotationIndex ++
        (w.buf ++ joinLines op.lines) := by
    rw [joinLines_append, ← List.append_assoc, ← hdisk, List.append_assoc]
  cases op with
  | write formatted io =>
    -- a line that rotates first stays ahead of the writer until the file is reopened
    by_cases hexceed : m.sink.wouldExceed formatted io = true
    · have hbegin : Midway.begin { m with ops := m.ops ++ [.write formatted io] }
          (.write formatted io) =
          { m with
            ops := m.ops ++ [.write formatted io]
            tasks := [.flushBuf []]
            phase := .closing formatted io } := by
        simp only [Midway.begin, if_pos hexceed, hw]
      rw [hbegin] at hok ⊢
      refine .of_writer hok hop hw (Eq.trans ?_ (hlines ▸ hjoin).symm)
      simp [lastIndex, Phase.ahead, WriterTask.bytes, Op.lines, joinLines]
    · have hbegin : Midway.begin { m with ops := m.ops ++ [.write formatted io] }
          (.write formatted io) =
          Midway.line { m with ops := m.ops ++ [.write formatted io] } formatted := by
        simp only [Midway.begin, if_neg hexceed]
      rw [hbegin] at hok ⊢
      refine disk_line hok hw (Eq.trans ?_ (hlines ▸ hjoin).symm)
      simp [Op.lines, joinLines]
  | flush =>
    have hbegin : Midway.begin { m with ops := m.ops ++ [.flush] } .flush =
        { m with ops := m.ops ++ [.flush], tasks := [.flushBuf []], phase := .flushing } := by
      simp only [Midway.begin, hw]
    rw [hbegin] at hok ⊢
    refine .of_writer hok (Option.isSome_of_eq_some hw) hw (Eq.trans ?_ (hlines ▸ hjoin).symm)
    simp [lastIndex, Phase.ahead, WriterTask.bytes, Op.lines, joinLines]

/-- Bytes that the system takes go to the end of the archive. -/
theorem Disk.went (h : Disk initial m) (hw : m.sink.inner.writer = some w) {n : ℕ}
    {out : List UInt8} {w' : Buffered UInt8}
    (hstep : (buffered w m.tasks).step n = some (out, w')) :
    (m.went w out w').onDisk ++ ((m.went w out w').pending ++ m.phase.ahead) =
      initial ++ joinLines m.lines := by
  have hwriter := h.ok.writerOk hw
  have hpending : (m.went w out w').pending = w'.pending := by
    rw [pending_of_writer (w := { w with buf := w'.buf }) rfl]
    exact congrArg Buffered.pending (buffered_of_step hstep)
  have hdisk : (m.went w out w').onDisk = m.onDisk ++ out := by
    rw [onDisk, onDisk, ← archive_append]
    exact congrArg (archive · m.sink.basePath m.lastIndex)
      (congrArg (m.files.append · out) hwriter.path_eq)
  rw [hpending, hdisk, ← h.lines, pending_of_writer hw,
    ← hwriter.wellFormed.pending_of_step hstep]
  simp

/-- The writer goes on. -/
theorem Disk.run (h : Disk initial m) (hw : m.sink.inner.writer = some w) {n : ℕ}
    {out : List UInt8} {w' : Buffered UInt8}
    (hstep : (buffered w m.tasks).step n = some (out, w')) (hbusy : w'.tasks ≠ []) :
    Disk initial (m.went w out w') := by
  refine ⟨(h.ok.run hw hstep).1 hbusy, ?_, h.went hw hstep⟩
  have hphase := h.ok.phase
  have hfiles := h.files
  have hsame : (m.went w out w').phase = m.phase := rfl
  cases hm : m.phase with
  | idle | flushing => simp only [FilesOk, hm, Midway.went, setInner, Option.isSome_some]
  | closing formatted io =>
    rw [FilesOk, hm] at hfiles
    rw [FilesOk, hsame, hm]
    exact hfiles
  | moving formatted io | opening formatted io =>
    rw [PhaseOk, hm] at hphase
    cases hphase.2.symm.trans hw
  | writing formatted =>
    rw [FilesOk, hm] at hfiles
    rw [FilesOk, hsame, hm]
    exact (Buffered.length_bytes_of_step hstep).trans hfiles

/-- The tasks of the writer are done. -/
theorem Disk.done (h : Disk initial m) (hw : m.sink.inner.writer = some w) {n : ℕ}
    {out : List UInt8} {w' : Buffered UInt8}
    (hstep : (buffered w m.tasks).step n = some (out, w')) (hdone : w'.tasks = []) :
    Disk initial (m.went w out w').finish := by
  have hok := (h.ok.run hw hstep).2 hdone
  have hphase := h.ok.phase
  have hfiles := h.files
  have hwent := h.went hw hstep
  have hwentOk := h.ok.went hw hstep
  have hsame : (m.went w out w').phase = m.phase := rfl
  unfold finish at hok ⊢
  rw [hsame] at hok ⊢
  rw [onDisk, lastIndex, hsame] at hwent
  cases hm : m.phase with
  | idle =>
    rw [PhaseOk, hm] at hphase
    rw [buffered, hphase] at hstep
    cases hstep
  | moving formatted io | opening formatted io =>
    rw [PhaseOk, hm] at hphase
    cases hphase.2.symm.trans hw
  | flushing =>
    simp only [hm] at hok hwent ⊢
    exact ⟨hok, rfl, hwent⟩
  | writing formatted =>
    simp only [hm] at hok hwent ⊢
    exact ⟨hok, rfl, hwent⟩
  | closing formatted io =>
    rw [PhaseOk, hm] at hphase
    rw [FilesOk, hm] at hfiles
    -- the writer is dropped with an empty buffer
    have hnil : (m.went w out w').pending = [] := by
      rw [pending_of_writer (w := { w with buf := w'.buf }) rfl]
      show (buffered { w with buf := w'.buf } w'.tasks).pending = []
      rw [buffered_of_step hstep]
      rcases (h.ok.writerOk hw).flushBuf_of_step hphase.1 hstep with hbusy | ⟨-, hnil⟩
      · cases hdone.symm.trans hbusy
      · exact hnil
    simp only [hm] at hok hwent ⊢
    rw [hnil] at hwent
    exact ⟨hok, ⟨hfiles.1, hfiles.2, hwentOk.exists_file, Nat.succ_pos _⟩, hwent⟩

/-- Every step keeps what the files hold. -/
theorem Disk.step (h : Disk initial m) {e : Event} (he : e.NoErrors)
    (hs : Midway.step m e = some m') : Disk initial m' := by
  have hok := h.ok.step hs
  have hphase := h.ok.phase
  have hfiles := h.files
  have hlines := h.lines
  have hcurrent := h.ok.currentPath_eq
  rw [onDisk, lastIndex] at hlines
  cases step_effect hs with
  | begin hidle => exact h.begin hidle he
  | run hw hstep hbusy => exact h.run hw hstep hbusy
  | done hw hstep hdone => exact h.done hw hstep hdone
  | @rename formatted io hm hrename =>
    rw [FilesOk, hm] at hfiles
    obtain ⟨-, hopen, -, hpos⟩ := hfiles
    simp only [hm] at hlines
    -- the archive is the same, with the last file under its new name
    refine ⟨hok, ⟨hopen, ?_⟩, Eq.trans ?_ hlines⟩
    · rw [hcurrent]
      exact Files.rename_source _ fun heq => rotatedName_ne _ _ heq.symm
    · rw [← archive_rename hpos]
      simp only [onDisk, lastIndex, hcurrent]
      rfl
  | @renameFails formatted io hm hrename =>
    rw [FilesOk, hm] at hfiles
    rw [hcurrent, hfiles.1, hfiles.2.2.1] at hrename
    exact absurd rfl hrename
  | @reopen formatted io hm hopen =>
    rw [PhaseOk, hm] at hphase
    simp only [hm, Phase.ahead, pending, hphase.2] at hlines
    refine disk_line hok rfl (Eq.trans ?_ hlines)
    exact congrArg (· ++ _) (archive_create ..)
  | @reopenFails formatted io hm hopen =>
    rw [FilesOk, hm] at hfiles
    cases hopen.symm.trans hfiles.1

theorem disk_start {files : Files String UInt8} {basePath : String} {policy : RotationPolicy}
    {io : Io} {s : Files String UInt8 × RotatingFileSink}
    (hnew : RotatingFileSink.new files basePath policy io = some s) :
    Disk ((files basePath).getD []) (start s) := by
  have hok := ok_start hnew
  obtain ⟨opened, hopened, rfl⟩ := Option.map_eq_some_iff.mp hnew
  simp only [openWriter] at hopened
  split at hopened
  · cases hopened
    refine .of_writer hok rfl rfl ?_
    simp [start, archive, lastIndex, Phase.ahead, Midway.lines, joinLines, Files.create_self]
  · cases hopened

/-- What is missing is in the buffer, or belongs to the line that is being written. -/
theorem Disk.length_le (h : Disk initial m) :
    (m.pending ++ m.phase.ahead).length ≤ defaultBufSize + m.phase.lineLength := by
  have hphase := h.ok.phase
  have hfiles := h.files
  have hpending : m.pending.length ≤
      defaultBufSize + (m.tasks.map WriterTask.bytes).flatten.length := by
    cases hw : m.sink.inner.writer with
    | none => simp [pending, hw]
    | some w =>
      have hwriter := h.ok.writerOk hw
      rw [pending_of_writer hw, Buffered.pending, List.length_append, ← hwriter.capacity_eq]
      exact Nat.add_le_add_right hwriter.wellFormed.length_buf _
  rw [List.length_append]
  cases hm : m.phase with
  | idle =>
    rw [PhaseOk, hm] at hphase
    simpa [hphase, Phase.ahead, Phase.lineLength] using hpending
  | flushing =>
    rw [PhaseOk, hm] at hphase
    simpa [hphase.1, WriterTask.bytes, Phase.ahead, Phase.lineLength] using hpending
  | closing formatted io =>
    rw [PhaseOk, hm] at hphase
    simpa [hphase.1, WriterTask.bytes, Phase.ahead, Phase.lineLength] using hpending
  | moving formatted io | opening formatted io =>
    rw [PhaseOk, hm] at hphase
    simpa [hphase.1, Phase.ahead, Phase.lineLength] using hpending
  | writing formatted =>
    rw [FilesOk, hm] at hfiles
    simp only [Phase.ahead, Phase.lineLength, List.length_nil]
    omega

end Midway

/-- When the process dies, at any point of any call of a sink without I/O errors, the files
`path.1`, …, `path.N` and `path` hold the initial contents and then a prefix of the lines of all the
calls that have begun. Not more is missing than a full buffer and the line that is being written. -/
theorem onDisk_prefix {files : Files String UInt8} {basePath : String} {policy : RotationPolicy}
    {io : Io} {s : Files String UInt8 × RotatingFileSink}
    (hnew : RotatingFileSink.new files basePath policy io = some s) {m : Midway}
    (hrun : Midway.step.Reach (fun _ e => e.NoErrors) (.start s) m) :
    ∃ missing, m.onDisk ++ missing = (files basePath).getD [] ++ joinLines m.lines ∧
      missing.length ≤ defaultBufSize + m.phase.lineLength := by
  have hdisk : Midway.Disk ((files basePath).getD []) m :=
    hrun.invariant (Midway.disk_start hnew) fun _ _ _ h he hs => h.step he hs
  exact ⟨_, hdisk.lines, hdisk.length_le⟩

instance : (op : Op) → Decidable op.NoErrors
  | .write _ io => inferInstanceAs (Decidable (io.renameOk = true ∧ io.openOk = true))
  | .flush => .isTrue trivial

instance : (e : Event) → Decidable e.NoErrors
  | .begin op => inferInstanceAs (Decidable op.NoErrors)
  | .run _ | .rename | .reopen => .isTrue trivial

/-- A third line rotates, and the process dies when the first file has been renamed. -/
private def diesInRotation : List Event :=
  [.begin (.write [65] quietIo), .run 0, .run 0, .begin (.write [66] quietIo), .run 0, .run 0,
    .begin (.write [67] quietIo), .run 3, .run 1, .run 0, .rename]

theorem onDisk_prefix_renamed :
    ∃ s m, RotatingFileSink.new (fun _ => none) "app.log" (.sizeBased 5) quietIo = some s ∧
      Midway.step.runWhile (fun _ e => e.NoErrors) (.start s) diesInRotation = some m ∧
      m.files "app.log" = none ∧ m.files "app.log.1" = some [65, 10, 66, 10] ∧
      ∃ missing, m.onDisk ++ missing = [] ++ joinLines m.lines ∧
        missing.length ≤ defaultBufSize + m.phase.lineLength := by
  obtain ⟨s, hnew⟩ : ∃ s, RotatingFileSink.new (fun _ => none) "app.log" (.sizeBased 5) quietIo =
      some s := ⟨_, rfl⟩
  have hrun : (Midway.step.runWhile (fun _ e => e.NoErrors) (.start s) diesInRotation).map
      (fun m => (m.files "app.log", m.files "app.log.1")) = some (none, some [65, 10, 66, 10]) := by
    cases hnew
    decide +kernel
  obtain ⟨m, hm, hfiles⟩ := Option.map_eq_some_iff.mp hrun
  obtain ⟨hbase, hfirst⟩ := Prod.mk.inj hfiles
  exact ⟨s, m, hnew, hm, hbase, hfirst, onDisk_prefix hnew (.of_runWhile hm)⟩

end RotatingFileSink

end RapidLog
