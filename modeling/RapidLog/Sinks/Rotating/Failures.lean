import RapidLog.Sinks.Rotating.Lines

/-!
# Rotations that fail

`rotate_inner` drops the writer and counts the rotation before it renames the file and opens a new
one, and `write` ignores its error. A failure is harmless when it leaves the state as it was and the
line is still written, and a state is recoverable when every line is written from then on as long as
nothing fails (`Recovers` says both of every state of a run). A run recovers exactly when none of
its rotations fails (`run_recovers_iff`): a rotation that fails has counted itself and left no
writer.
-/

namespace RapidLog

namespace RotatingFileSink

namespace Op

/-- The call rotates, and the file cannot be renamed or the new one cannot be opened. -/
def RotationFails (s : Files String UInt8 × RotatingFileSink) : Op → Prop
  | write formatted io => s.2.wouldExceed formatted io = true ∧
      ¬ ((io.renameOk && (dropWriter s.1 s.2.inner.writer s.2.inner.currentPath).isSome) = true ∧
        io.openOk = true)
  | flush => False

/-- The line of the call is the last one in the file of the writer. -/
def Written (s : Files String UInt8 × RotatingFileSink) : Op → Prop
  | write formatted io => ∃ w, (s.2.write s.1 formatted io).2.inner.writer = some w ∧
      (formatted ++ [10]) <:+ w.contents (s.2.write s.1 formatted io).1
  | flush => True

/-- If its rotation fails, the call leaves the state as it was and appends its line to the same
file. -/
def FailureHarmless (s : Files String UInt8 × RotatingFileSink) : Op → Prop
  | write formatted io => RotationFails s (write formatted io) →
      (s.2.beforeLine s.1 formatted io).2 = s.2.inner ∧
      ∃ w w', s.2.inner.writer = some w ∧
        (s.2.write s.1 formatted io).2.inner.writer = some w' ∧ w'.path = w.path ∧
        w'.contents (s.2.write s.1 formatted io).1 = w.contents s.1 ++ (formatted ++ [10])
  | flush => True

end Op

/-- Every line of the calls is written. -/
def AllWritten (s : Files String UInt8 × RotatingFileSink) : List Op → Prop
  | [] => True
  | op :: ops => op.Written s ∧ AllWritten (op.apply s) ops

/-- Once file operations succeed, every later line is written. -/
def Recoverable (s : Files String UInt8 × RotatingFileSink) : Prop :=
  ∀ later : List Op, (∀ op ∈ later, op.NoErrors) → AllWritten s later

/-- Every failure in the run is harmless, and every state of the run is recoverable. -/
def Recovers (s : Files String UInt8 × RotatingFileSink) : List Op → Prop
  | [] => Recoverable s
  | op :: ops => Recoverable s ∧ op.FailureHarmless s ∧ Recovers (op.apply s) ops

/-- No rotation in the run fails. -/
def NoneFails (s : Files String UInt8 × RotatingFileSink) : List Op → Prop
  | [] => True
  | op :: ops => ¬ op.RotationFails s ∧ NoneFails (op.apply s) ops

/-- Every rotation counts itself, whatever happens afterwards. -/
theorem rotationIndex_rotateInner (files : Files String UInt8) (state : RotatingState)
    (policy : RotationPolicy) (basePath : String) (io : Io) :
    (rotateInner files state policy basePath io).2.rotationIndex = state.rotationIndex + 1 := by
  by_cases h : (io.renameOk && (dropWriter files state.writer state.currentPath).isSome) = true
  · cases hopen : io.openOk with
    | false => rw [rotateInner_of_not_opened h hopen]; rfl
    | true => rw [rotateInner_of_opened h hopen]; rfl
  · rw [rotateInner_of_not_renamed h]
    rfl

/-- No failure is harmless. -/
theorem not_rotationFails_of_harmless {s : Files String UInt8 × RotatingFileSink} {op : Op}
    (h : op.FailureHarmless s) : ¬ op.RotationFails s := by
  intro hfails
  cases op with
  | write formatted io =>
    -- the state is not the same, as the rotation has counted itself
    obtain ⟨hsame, -⟩ := h hfails
    have hindex := rotationIndex_rotateInner s.1 s.2.inner s.2.policy s.2.basePath io
    rw [beforeLine, if_pos hfails.1] at hsame
    rw [hsame] at hindex
    omega
  | flush => exact hfails

namespace Archive

variable {basePath : String} {initial : List UInt8} {s : Files String UInt8 × RotatingFileSink}
  {groups : List (List Line)} {lines : List Line}

/-- Where no operation fails, no rotation does. -/
theorem not_rotationFails (h : Archive basePath initial s.1 s.2 groups lines) {op : Op}
    (hop : op.NoErrors) : ¬ op.RotationFails s := by
  intro hfails
  cases op with
  | write formatted io => exact hfails.2 ⟨h.renamed hop.1, hop.2⟩
  | flush => exact hfails

/-- A call whose rotation does not fail keeps the lines in order, and its line is written. -/
theorem step (h : Archive basePath initial s.1 s.2 groups lines) {op : Op}
    (hop : ¬ op.RotationFails s) :
    op.Written s ∧ ∃ groups' lines', Archive basePath initial (op.apply s).1 (op.apply s).2
      groups' lines' := by
  have hlast : ∀ {files : Files String UInt8} {sink : RotatingFileSink} {groups : List (List Line)}
      {lines : List Line} {formatted : Line},
      Archive basePath initial files sink groups (lines ++ [formatted]) →
        ∃ w, sink.inner.writer = some w ∧ (formatted ++ [10]) <:+ w.contents files := by
    intro files sink groups lines formatted harchive
    obtain ⟨w, hw, -, hcontents⟩ := harchive.writer
    refine ⟨w, hw, ?_⟩
    have hline : joinLines [formatted] = formatted ++ [10] := List.flatMap_singleton ..
    rw [hcontents, joinLines_append, hline, ← List.append_assoc]
    exact List.suffix_append _ _
  cases op with
  | write formatted io =>
    cases hrotates : s.2.wouldExceed formatted io with
    | false =>
      have hnext := h.writeLine hrotates
      exact ⟨hlast hnext, _, _, hnext⟩
    | true =>
      obtain ⟨hrename, hopen⟩ := not_not.mp fun hnot => hop ⟨hrotates, hnot⟩
      rw [Bool.and_eq_true] at hrename
      have hnext := h.rotateLine hrotates hrename.1 hopen
      -- the line is the first one of the new file
      exact ⟨@hlast _ _ _ [] _ hnext, _, _, hnext⟩
  | flush => exact ⟨trivial, groups, lines, h.flush⟩

/-- A state with an open writer is recoverable. -/
theorem recoverable (h : Archive basePath initial s.1 s.2 groups lines) : Recoverable s := by
  intro later hlater
  induction later generalizing s groups lines with
  | nil => exact trivial
  | cons op later ih =>
    obtain ⟨hwritten, groups', lines', hnext⟩ := h.step (h.not_rotationFails (hlater op (by simp)))
    exact ⟨hwritten, ih hnext fun op' hop' => hlater op' (by simp [hop'])⟩

/-- A run from a state with an open writer recovers exactly when none of its rotations fails. -/
theorem recovers_iff (h : Archive basePath initial s.1 s.2 groups lines) (ops : List Op) :
    Recovers s ops ↔ NoneFails s ops := by
  induction ops generalizing s groups lines with
  | nil => exact ⟨fun _ => trivial, fun _ => h.recoverable⟩
  | cons op ops ih =>
    constructor
    · rintro ⟨-, hharmless, hrest⟩
      have hop := not_rotationFails_of_harmless hharmless
      obtain ⟨-, groups', lines', hnext⟩ := h.step hop
      exact ⟨hop, (ih hnext).mp hrest⟩
    · rintro ⟨hop, hrest⟩
      obtain ⟨-, groups', lines', hnext⟩ := h.step hop
      refine ⟨h.recoverable, ?_, (ih hnext).mpr hrest⟩
      cases op with
      | write formatted io => exact fun hfails => absurd hfails hop
      | flush => exact trivial

end Archive

/-- A run of a sink recovers from its failures exactly when it has none. -/
theorem run_recovers_iff {files : Files String UInt8} {basePath : String} {policy : RotationPolicy}
    {io : Io} {s : Files String UInt8 × RotatingFileSink}
    (hnew : RotatingFileSink.new files basePath policy io = some s) (ops : List Op) :
    Recovers s ops ↔ NoneFails s ops :=
  (Archive.new hnew).recovers_iff ops

/-- Three lines, of which the last one rotates. -/
theorem run_recovers_iff_three :
    ∃ s, RotatingFileSink.new (fun _ => none) "app.log" (.sizeBased 5) quietIo = some s ∧
      Recovers s [.write [65] quietIo, .write [66] quietIo, .write [67] quietIo] := by
  obtain ⟨s, hnew⟩ : ∃ s, RotatingFileSink.new (fun _ => none) "app.log" (.sizeBased 5) quietIo =
      some s := ⟨_, rfl⟩
  refine ⟨s, hnew, (run_recovers_iff hnew _).mpr ?_⟩
  cases hnew
  refine ⟨?_, ?_, ?_, trivial⟩ <;> rintro ⟨hrotates, hfails⟩ <;> revert hrotates hfails <;> decide

/-- A call whose file cannot be opened again. -/
def reopenFails : Io := { quietIo with openOk := false }

/-- The file is renamed and no new one is opened. From then on there is no writer and no file to
rename, so no later line is written although nothing fails any more. -/
theorem run_not_recovers :
    ∃ s, RotatingFileSink.new (fun _ => none) "app.log" (.sizeBased 5) quietIo = some s ∧
      ¬ Recovers s [.write [65, 66, 67, 68, 69] reopenFails] := by
  refine ⟨_, rfl, ?_⟩
  rintro ⟨-, -, hrecoverable⟩
  obtain ⟨⟨w, hw, -⟩, -⟩ := hrecoverable [.write [70, 71, 72, 73, 74] quietIo] (by
    simp [Op.NoErrors, quietIo])
  have hsome := Option.isSome_of_eq_some hw
  revert hsome
  decide

end RotatingFileSink

end RapidLog
