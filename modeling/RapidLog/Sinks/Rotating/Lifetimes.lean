import RapidLog.Lib.Transition
import RapidLog.Sinks.Rotating

/-!
# Sinks that follow one another on one path

The rotation index lives in a sink and starts again at 0 with the next one, while the numbered
files stay. `step` runs one sink after the other on a base path, with any clock readings, any
outcome of the renames and opens, and any files to begin with. It records every rename that a
rotation performs, with the files that the sink found when it was opened, which renames replaced a
file, and which lines have been flushed.

A sink meets only its own numbers and those that it found (`Inv.later`), so a rename replaces a
file exactly when its number was taken when the sink was opened.
-/

namespace RapidLog

namespace RotatingFileSink

/-- The number of the name that a write renames the file to, when it does. -/
def renames? (sink : RotatingFileSink) (files : Files String UInt8) (formatted : Line) (io : Io) :
    Option ℕ :=
  if sink.wouldExceed formatted io && (io.renameOk &&
      (dropWriter files sink.inner.writer sink.inner.currentPath).isSome) then
    some (sink.inner.rotationIndex + 1)
  else none

namespace Lifetimes

/-- The files and the sink that is open, with what has happened so far. -/
structure State where
  files : Files String UInt8
  sink : Option RotatingFileSink
  /-- The files when the sink was opened. -/
  opened : Files String UInt8
  /-- The number of every rename, and the files when its sink was opened. -/
  renames : List (ℕ × Files String UInt8)
  /-- The files that a rename has replaced. -/
  replaced : List String
  /-- The lines that the sink has written since it last flushed. -/
  pending : List Line
  /-- The lines that have been written and flushed. -/
  flushed : List Line

inductive Event
  | new (policy : RotationPolicy) (io : Io)
  | write (formatted : Line) (io : Io)
  | flush
  | drop

def init (files : Files String UInt8) : State where
  files
  sink := none
  opened := files
  renames := []
  replaced := []
  pending := []
  flushed := []

def step (basePath : String) : Machine State Event
  | s, .new policy io =>
    match s.sink with
    | some _ => none
    | none =>
      match RotatingFileSink.new s.files basePath policy io with
      | none => some s
      | some (files, sink) => some { s with files, sink := some sink, opened := s.files }
  | s, .write formatted io =>
    match s.sink with
    | none => none
    | some sink =>
      let written := sink.write s.files formatted io
      let renamed := (sink.renames? s.files formatted io).toList
      let taken := renamed.filter fun k => (s.files (rotatedName basePath k)).isSome
      -- a rotation flushes the writer before it drops it
      let settled := if sink.wouldExceed formatted io then s.pending else []
      let held := if sink.wouldExceed formatted io then [] else s.pending
      some { s with
        files := written.1
        sink := some written.2
        renames := s.renames ++ renamed.map fun k => (k, s.opened)
        replaced := s.replaced ++ taken.map (rotatedName basePath)
        pending := held ++ if written.2.inner.writer.isSome then [formatted] else []
        flushed := s.flushed ++ settled }
  | s, .flush =>
    match s.sink with
    | none => none
    | some sink =>
      let flushed := sink.flush s.files
      some { s with
        files := flushed.1
        sink := some flushed.2
        pending := []
        flushed := s.flushed ++ s.pending }
  | s, .drop =>
    match s.sink with
    | none => none
    | some sink =>
      some { s with
        files := dropWriter s.files sink.inner.writer
        sink := none
        pending := []
        flushed := s.flushed ++ s.pending }

/-- The line stands in some file. -/
def Remains (files : Files String UInt8) (line : Line) : Prop :=
  ∃ path bytes, files path = some bytes ∧ (line ++ [10]) <:+: bytes

/-- No rename has replaced a file, and every line that has been flushed is still there. -/
def Preserved (s : State) : Prop :=
  s.replaced = [] ∧ ∀ line ∈ s.flushed, Remains s.files line

/-! ### What the operations keep -/

/-- Every file is still there, under some name and possibly longer. -/
def Keeps (f f' : Files String UInt8) : Prop :=
  ∀ path bytes, f path = some bytes → ∃ path' bytes', f' path' = some bytes' ∧ bytes <:+: bytes'

namespace Keeps

variable {f f₁ f₂ : Files String UInt8}

theorem refl (f : Files String UInt8) : Keeps f f :=
  fun path bytes h => ⟨path, bytes, h, List.infix_rfl⟩

theorem trans (h : Keeps f f₁) (h' : Keeps f₁ f₂) : Keeps f f₂ := by
  intro path bytes hbytes
  obtain ⟨path₁, bytes₁, hbytes₁, hinfix₁⟩ := h path bytes hbytes
  obtain ⟨path₂, bytes₂, hbytes₂, hinfix₂⟩ := h' path₁ bytes₁ hbytes₁
  exact ⟨path₂, bytes₂, hbytes₂, hinfix₁.trans hinfix₂⟩

theorem remains (h : Keeps f f₁) {line : Line} (hline : Remains f line) : Remains f₁ line := by
  obtain ⟨path, bytes, hbytes, hinfix⟩ := hline
  obtain ⟨path', bytes', hbytes', hinfix'⟩ := h path bytes hbytes
  exact ⟨path', bytes', hbytes', hinfix.trans hinfix'⟩

theorem of_wrote {w w' : Writer} {xs : List UInt8} (h : BufWriter.Wrote f w f₁ w' xs) :
    Keeps f f₁ := by
  intro path bytes hbytes
  rcases eq_or_ne path w.path with rfl | hne
  · obtain ⟨bytes', hbytes'⟩ := Option.isSome_iff_exists.mp (h.isSome (by rw [hbytes]; rfl))
    have hpre := h.prefix_file
    rw [hbytes, hbytes'] at hpre
    exact ⟨_, bytes', hbytes', hpre.isInfix⟩
  · exact ⟨path, bytes, (h.other path hne).trans hbytes, List.infix_rfl⟩

theorem create (f : Files String UInt8) (p : String) : Keeps f (f.create p) := by
  intro path bytes hbytes
  rcases eq_or_ne path p with rfl | hne
  · exact ⟨path, bytes, by rw [Files.create_self, hbytes, Option.getD_some], List.infix_rfl⟩
  · exact ⟨path, bytes, (Files.create_of_ne f hne).trans hbytes, List.infix_rfl⟩

/-- A rename that replaces nothing keeps every file. -/
theorem rename {p q : String} (hne : p ≠ q) (hfree : f q = none) : Keeps f (f.rename p q) := by
  intro path bytes hbytes
  rcases eq_or_ne path p with rfl | hp
  · exact ⟨q, bytes, (Files.rename_target f hne).trans hbytes, List.infix_rfl⟩
  · have hq : path ≠ q := by
      rintro rfl
      rw [hfree] at hbytes
      cases hbytes
    exact ⟨path, bytes, (Files.rename_of_ne f hp hq).trans hbytes, List.infix_rfl⟩

end Keeps

/-- A sink on the base path, whose writer appends to the file there. -/
structure OnPath (basePath : String) (files : Files String UInt8) (state : RotatingState) :
    Prop where
  currentPath_eq : state.currentPath = basePath
  writer : ∀ w, state.writer = some w → w.path = basePath ∧ (files basePath).isSome

section

variable {basePath : String} {files : Files String UInt8} {state : RotatingState}
  {policy : RotationPolicy} {io : Io} {formatted : Line} {sink : RotatingFileSink}

theorem keeps_dropWriter (files : Files String UInt8) (writer : Option Writer) :
    Keeps files (dropWriter files writer) := by
  cases writer with
  | none => exact .refl _
  | some w => exact .of_wrote (w.wrote_flushBuf files)

/-- Dropping the writer touches the file at the base path only. -/
theorem dropWriter_of_ne (h : OnPath basePath files state) {path : String} (hne : path ≠ basePath) :
    dropWriter files state.writer path = files path := by
  cases hw : state.writer with
  | none => rfl
  | some w => exact (w.wrote_flushBuf files).other _ ((h.writer w hw).1.symm ▸ hne)

/-- What a rotation does, however far it gets. -/
structure Rotated (basePath : String) (files : Files String UInt8) (state : RotatingState)
    (renamed : Bool) (files' : Files String UInt8) (state' : RotatingState) : Prop where
  onPath : OnPath basePath files' state'
  index_eq : state'.rotationIndex = state.rotationIndex + 1
  later : ∀ k, state.rotationIndex + 1 < k →
    files' (rotatedName basePath k) = files (rotatedName basePath k)
  keeps : (renamed = true → files (rotatedName basePath (state.rotationIndex + 1)) = none) →
    Keeps (dropWriter files state.writer) files'

theorem rotated_rotateInner (policy : RotationPolicy) (io : Io)
    (h : OnPath basePath files state) :
    Rotated basePath files state
      (io.renameOk && (dropWriter files state.writer state.currentPath).isSome)
      (rotateInner files state policy basePath io).1
      (rotateInner files state policy basePath io).2 := by
  have hne : basePath ≠ rotatedName basePath (state.rotationIndex + 1) :=
    (rotatedName_ne basePath _).symm
  have hother : ∀ k, dropWriter files state.writer (rotatedName basePath k) =
      files (rotatedName basePath k) := fun k => dropWriter_of_ne h (rotatedName_ne basePath k)
  -- the renames touch the base path and the next number only
  have hlater : ∀ k, state.rotationIndex + 1 < k →
      ((dropWriter files state.writer).rename state.currentPath
        (rotatedName basePath (state.rotationIndex + 1))) (rotatedName basePath k) =
        files (rotatedName basePath k) := by
    intro k hk
    rw [h.currentPath_eq, Files.rename_of_ne _ (rotatedName_ne basePath k), hother]
    intro heq
    exact absurd (rotatedName_injective basePath heq) (by omega)
  have hkeeps : files (rotatedName basePath (state.rotationIndex + 1)) = none →
      Keeps (dropWriter files state.writer) ((dropWriter files state.writer).rename
        state.currentPath (rotatedName basePath (state.rotationIndex + 1))) := by
    intro hfree
    rw [h.currentPath_eq]
    exact .rename hne ((hother _).trans hfree)
  by_cases hrenamed :
      (io.renameOk && (dropWriter files state.writer state.currentPath).isSome) = true
  · cases hopen : io.openOk with
    | false =>
      -- the old file has its number, and there is no new one
      rw [rotateInner_of_not_opened hrenamed hopen]
      exact
        { onPath := ⟨h.currentPath_eq, fun w hw => by cases hw⟩
          index_eq := rfl
          later := hlater
          keeps := fun hfree => hkeeps (hfree hrenamed) }
    | true =>
      rw [rotateInner_of_opened hrenamed hopen]
      refine
        { onPath := ⟨h.currentPath_eq, fun w hw => ?_⟩
          index_eq := rfl
          later := fun k hk => ?_
          keeps := fun hfree => (hkeeps (hfree hrenamed)).trans (.create _ _) }
      · cases hw
        exact ⟨rfl, by simp [Files.create_self]⟩
      · show (Files.create _ basePath) _ = _
        rw [Files.create_of_ne _ (rotatedName_ne basePath k)]
        exact hlater k hk
  -- only the writer is gone
  · rw [rotateInner_of_not_renamed hrenamed]
    exact
      { onPath := ⟨h.currentPath_eq, fun w hw => by cases hw⟩
        index_eq := rfl
        later := fun k _ => hother k
        keeps := fun _ => .refl _ }

theorem basePath_write : (sink.write files formatted io).2.basePath = sink.basePath := by
  cases hw : (sink.beforeLine files formatted io).2.writer with
  | none => rw [write_of_no_writer hw]
  | some w => rw [write_of_writer hw]

/-- What happens before the line is written: nothing, or a rotation. -/
structure Prepared (basePath : String) (sink : RotatingFileSink) (files : Files String UInt8)
    (formatted : Line) (io : Io) : Prop where
  onPath : OnPath basePath (sink.beforeLine files formatted io).1
    (sink.beforeLine files formatted io).2
  index_le : sink.inner.rotationIndex ≤ (sink.beforeLine files formatted io).2.rotationIndex
  later : ∀ k, (sink.beforeLine files formatted io).2.rotationIndex < k →
    (sink.beforeLine files formatted io).1 (rotatedName basePath k) =
      files (rotatedName basePath k)
  keeps : (∀ k, sink.renames? files formatted io = some k →
      files (rotatedName basePath k) = none) →
    Keeps (if sink.wouldExceed formatted io then dropWriter files sink.inner.writer else files)
      (sink.beforeLine files formatted io).1

theorem prepared_beforeLine (formatted : Line) (io : Io)
    (h : OnPath basePath files sink.inner)
    (hbase : sink.basePath = basePath) : Prepared basePath sink files formatted io := by
  cases hexceed : sink.wouldExceed formatted io with
  | false =>
    have hbefore : sink.beforeLine files formatted io = (files, sink.inner) := by
      rw [beforeLine, hexceed, if_neg Bool.false_ne_true]
    constructor
    · rwa [hbefore]
    · rw [hbefore]
    · intro k _
      rw [hbefore]
    · intro _
      rw [hbefore, hexceed]
      exact .refl files
  | true =>
    have hbefore : sink.beforeLine files formatted io =
        rotateInner files sink.inner sink.policy basePath io := by
      rw [beforeLine, hexceed, if_pos rfl, hbase]
    have hrot := rotated_rotateInner sink.policy io h
    constructor
    · rw [hbefore]
      exact hrot.onPath
    · rw [hbefore, hrot.index_eq]
      exact Nat.le_succ _
    · intro k hk
      rw [hbefore, hrot.index_eq] at hk
      rw [hbefore]
      exact hrot.later k hk
    · intro hfree
      rw [hbefore, hexceed, if_pos rfl]
      refine hrot.keeps fun hrenamed => hfree _ ?_
      rw [renames?, hexceed, hrenamed]
      rfl

/-- What the line itself does: it goes to the end of the writer's contents, if there is a writer. -/
structure LineWritten (basePath : String) (files : Files String UInt8) (state : RotatingState)
    (formatted : Line) (files' : Files String UInt8) (state' : RotatingState) : Prop where
  onPath : OnPath basePath files' state'
  index_eq : state'.rotationIndex = state.rotationIndex
  later : ∀ k, files' (rotatedName basePath k) = files (rotatedName basePath k)
  keeps : Keeps files files'
  grows : ∀ w, state.writer = some w → ∃ w', state'.writer = some w' ∧
    w'.contents files' = w.contents files ++ (formatted ++ [10])
  no_writer : state.writer = none → state'.writer = none

theorem lineWritten_write
    (h : OnPath basePath (sink.beforeLine files formatted io).1
      (sink.beforeLine files formatted io).2) :
    LineWritten basePath (sink.beforeLine files formatted io).1
      (sink.beforeLine files formatted io).2 formatted (sink.write files formatted io).1
      (sink.write files formatted io).2.inner := by
  cases hw : (sink.beforeLine files formatted io).2.writer with
  | none =>
    rw [write_of_no_writer hw]
    exact ⟨h, rfl, fun _ => rfl, .refl _, fun w hw' => (nomatch hw.symm.trans hw'),
      fun _ => hw⟩
  | some w =>
    rw [write_of_writer hw]
    obtain ⟨hpath, hexists⟩ := h.writer w hw
    have hwrote := wrote_writeLine (sink.beforeLine files formatted io).1 w formatted
    refine
      { onPath := ⟨h.currentPath_eq, fun w' hw' => ?_⟩
        index_eq := rfl
        later := fun k => hwrote.other _ (hpath ▸ rotatedName_ne basePath k)
        keeps := .of_wrote hwrote
        grows := fun w₀ hw₀ => ⟨_, rfl, ?_⟩
        no_writer := fun hnone => nomatch hnone.symm.trans hw }
    · cases hw'
      exact ⟨hwrote.path_eq.trans hpath, hpath ▸ hwrote.isSome (hpath.symm ▸ hexists)⟩
    · cases hw.symm.trans hw₀
      exact hwrote.contents_eq

end

/-! ### The invariant -/

/-- What holds between any two calls. -/
structure Inv (basePath : String) (s : State) : Prop where
  basePath_eq : ∀ sink, s.sink = some sink → sink.basePath = basePath
  onPath : ∀ sink, s.sink = some sink → OnPath basePath s.files sink.inner
  /-- The sink has not touched the numbers that it has yet to come to. -/
  later : ∀ sink, s.sink = some sink → ∀ k, sink.inner.rotationIndex < k →
    s.files (rotatedName basePath k) = s.opened (rotatedName basePath k)
  replaced_iff : s.replaced = [] ↔ ∀ r ∈ s.renames, r.2 (rotatedName basePath r.1) = none
  flushed : s.replaced = [] → ∀ line ∈ s.flushed, Remains s.files line
  /-- A line that has not been flushed stands in the contents of the writer. -/
  pending : s.replaced = [] → ∀ line ∈ s.pending, ∃ sink w, s.sink = some sink ∧
    sink.inner.writer = some w ∧ (line ++ [10]) <:+: w.contents s.files

namespace Inv

variable {basePath : String} {s s' : State}

/-- Once the writer is dropped, its lines stand in the file. -/
theorem remains_drop (h : Inv basePath s) (hnone : s.replaced = []) {sink : RotatingFileSink}
    (hsink : s.sink = some sink) {line : Line} (hline : line ∈ s.pending) :
    Remains (dropWriter s.files sink.inner.writer) line := by
  obtain ⟨sink', w, hsink', hw, hinfix⟩ := h.pending hnone line hline
  cases hsink.symm.trans hsink'
  exact ⟨w.path, w.contents s.files, by rw [hw]; exact w.file_flushBuf s.files, hinfix⟩

/-- Without a writer every line has been flushed. -/
theorem pending_nil (h : Inv basePath s) (hnone : s.replaced = [])
    (hno : ∀ sink, s.sink = some sink → sink.inner.writer = none) : s.pending = [] := by
  refine List.eq_nil_iff_forall_not_mem.mpr fun line hline => ?_
  obtain ⟨sink, w, hsink, hw, -⟩ := h.pending hnone line hline
  cases (hno sink hsink).symm.trans hw

theorem new (h : Inv basePath s) {policy : RotationPolicy} {io : Io}
    (hs : step basePath s (.new policy io) = some s') : Inv basePath s' := by
  simp only [step] at hs
  split at hs
  · cases hs
  · next hsink =>
    have hpending : s.replaced = [] → s.pending = [] :=
      fun hnone => h.pending_nil hnone fun sink hsink' => nomatch hsink.symm.trans hsink'
    split at hs
    · cases hs
      exact h
    · next files sink hnew =>
      cases hs
      obtain ⟨⟨files', w⟩, hopened, heq⟩ := Option.map_eq_some_iff.mp hnew
      simp only [openWriter] at hopened
      split at hopened
      · cases hopened
        cases heq
        refine
          { basePath_eq := fun sink hsink => ?_
            onPath := fun sink hsink => ?_
            later := fun sink hsink k _ => ?_
            replaced_iff := h.replaced_iff
            flushed := fun hnone line hline =>
              (Keeps.create s.files basePath).remains (h.flushed hnone line hline)
            pending := fun hnone line hline => ?_ }
        · cases hsink
          rfl
        · cases hsink
          refine ⟨rfl, fun w hw => ?_⟩
          cases hw
          exact ⟨rfl, by simp [Files.create_self]⟩
        · cases hsink
          exact Files.create_of_ne _ (rotatedName_ne basePath k)
        · rw [hpending hnone] at hline
          cases hline
      · cases hopened

theorem flush (h : Inv basePath s) (hs : step basePath s .flush = some s') : Inv basePath s' := by
  simp only [step] at hs
  split at hs
  · cases hs
  · next sink hsink =>
    cases hs
    have hon := h.onPath sink hsink
    cases hw : sink.inner.writer with
    | none =>
      have hpending : s.replaced = [] → s.pending = [] :=
        fun hnone => h.pending_nil hnone fun _ hsink' =>
          Option.some.inj (hsink.symm.trans hsink') ▸ hw
      simp only [RotatingFileSink.flush, hw]
      refine
        { basePath_eq := fun _ heq => ?_
          onPath := fun _ heq => ?_
          later := fun _ heq => ?_
          replaced_iff := h.replaced_iff
          flushed := fun hnone => ?_
          pending := fun _ _ hmem => nomatch hmem }
      · exact Option.some.inj heq ▸ h.basePath_eq sink hsink
      · exact Option.some.inj heq ▸ hon
      · exact Option.some.inj heq ▸ h.later sink hsink
      · simpa only [hpending hnone, List.append_nil] using h.flushed hnone
    | some w =>
      obtain ⟨hpath, hexists⟩ := hon.writer w hw
      have hwrote := w.wrote_flushBuf s.files
      have hother : ∀ k, (w.flushBuf s.files).1 (rotatedName basePath k) =
          s.files (rotatedName basePath k) :=
        fun k => hwrote.other _ (hpath ▸ rotatedName_ne basePath k)
      simp only [RotatingFileSink.flush, hw]
      refine
        { basePath_eq := fun _ heq => ?_
          onPath := fun _ heq => ?_
          later := fun _ heq k hk => ?_
          replaced_iff := h.replaced_iff
          flushed := fun hnone line hline => ?_
          pending := fun _ _ hmem => nomatch hmem }
      · cases heq
        exact h.basePath_eq sink hsink
      · cases heq
        refine ⟨hon.currentPath_eq, fun w' hw' => ?_⟩
        cases hw'
        exact ⟨hpath, hpath ▸ hwrote.isSome (hpath.symm ▸ hexists)⟩
      · cases heq
        exact (hother k).trans (h.later sink hsink k hk)
      · rcases List.mem_append.mp hline with hold | hnew
        · exact (Keeps.of_wrote hwrote).remains (h.flushed hnone line hold)
        · have hremains := h.remains_drop hnone hsink hnew
          rwa [hw] at hremains

theorem drop (h : Inv basePath s) (hs : step basePath s .drop = some s') : Inv basePath s' := by
  simp only [step] at hs
  split at hs
  · cases hs
  · next sink hsink =>
    cases hs
    exact
      { basePath_eq := fun _ hnone => nomatch hnone
        onPath := fun _ hnone => nomatch hnone
        later := fun _ hnone => nomatch hnone
        replaced_iff := h.replaced_iff
        flushed := fun hnone line hline => (List.mem_append.mp hline).elim
          (fun hold => (keeps_dropWriter s.files _).remains (h.flushed hnone line hold))
          (h.remains_drop hnone hsink)
        pending := fun _ _ hmem => nomatch hmem }

section Write

variable {sink : RotatingFileSink} {formatted : Line} {io : Io}

/-- The number that a write renames to was taken exactly when it was at the opening. -/
theorem renames_opened (h : Inv basePath s) (hsink : s.sink = some sink) {k : ℕ}
    (hk : sink.renames? s.files formatted io = some k) :
    s.files (rotatedName basePath k) = s.opened (rotatedName basePath k) := by
  refine h.later sink hsink k ?_
  simp only [renames?] at hk
  split at hk
  · cases hk
    exact Nat.lt_succ_self _
  · cases hk

/-- A rotation drops the writer, after which the lines it held stand in the file. -/
theorem settled (h : Inv basePath s) (hsink : s.sink = some sink) (hnone : s.replaced = [])
    {line : Line}
    (hline : line ∈ s.flushed ++ (if sink.wouldExceed formatted io then s.pending else [])) :
    Remains (if sink.wouldExceed formatted io then dropWriter s.files sink.inner.writer
      else s.files) line := by
  cases hexceed : sink.wouldExceed formatted io with
  | false =>
    rw [hexceed] at hline
    exact h.flushed hnone line (by simpa using hline)
  | true =>
    rw [hexceed] at hline
    rcases List.mem_append.mp hline with hold | hnew
    · exact (keeps_dropWriter s.files _).remains (h.flushed hnone line hold)
    · exact h.remains_drop hnone hsink hnew

/-- After a write that does not rotate, the lines that were held before are still held. -/
theorem held_write (h : Inv basePath s) (hsink : s.sink = some sink) (hnone : s.replaced = [])
    {line : Line} (hline : line ∈ if sink.wouldExceed formatted io then [] else s.pending) :
    ∃ w, (sink.write s.files formatted io).2.inner.writer = some w ∧
      (line ++ [10]) <:+: w.contents (sink.write s.files formatted io).1 := by
  have hbase := h.basePath_eq sink hsink
  have hprepared := prepared_beforeLine formatted io (h.onPath sink hsink) hbase
  have hwritten := lineWritten_write hprepared.onPath
  cases hexceed : sink.wouldExceed formatted io with
  | false =>
    rw [hexceed] at hline
    have hsame : sink.beforeLine s.files formatted io = (s.files, sink.inner) := by
      rw [beforeLine, hexceed, if_neg Bool.false_ne_true]
    obtain ⟨sink', w, hsink', hw, hinfix⟩ := h.pending hnone line (by simpa using hline)
    cases hsink.symm.trans hsink'
    rw [hsame] at hwritten
    obtain ⟨w', hw', hcontents⟩ := hwritten.grows w hw
    exact ⟨w', hw', hcontents ▸ hinfix.trans (List.prefix_append _ _).isInfix⟩
  | true =>
    rw [hexceed] at hline
    cases hline

/-- The line itself is held if a writer took it. -/
theorem held_line (h : Inv basePath s) (hsink : s.sink = some sink)
    (hsome : (sink.write s.files formatted io).2.inner.writer.isSome) :
    ∃ w, (sink.write s.files formatted io).2.inner.writer = some w ∧
      (formatted ++ [10]) <:+: w.contents (sink.write s.files formatted io).1 := by
  have hbase := h.basePath_eq sink hsink
  have hprepared := prepared_beforeLine formatted io (h.onPath sink hsink) hbase
  have hwritten := lineWritten_write hprepared.onPath
  cases hw : (sink.beforeLine s.files formatted io).2.writer with
  | none =>
    rw [hwritten.no_writer hw] at hsome
    cases hsome
  | some w =>
    obtain ⟨w', hw', hcontents⟩ := hwritten.grows w hw
    exact ⟨w', hw', hcontents ▸ (List.suffix_append _ _).isInfix⟩

theorem write (h : Inv basePath s) (hs : step basePath s (.write formatted io) = some s') :
    Inv basePath s' := by
  simp only [step] at hs
  split at hs
  · cases hs
  · next sink hsink =>
    cases hs
    have hbase := h.basePath_eq sink hsink
    have hbefore := prepared_beforeLine formatted io (h.onPath sink hsink) hbase
    have hline := lineWritten_write hbefore.onPath
    have hindex := hline.index_eq
    -- no file is replaced by this write exactly when the number that it renames to was free
    have htaken : ((sink.renames? s.files formatted io).toList.filter fun k =>
        (s.files (rotatedName basePath k)).isSome) = [] ↔
        ∀ k, sink.renames? s.files formatted io = some k →
          s.files (rotatedName basePath k) = none := by
      rw [List.filter_eq_nil_iff]
      simp
    refine
      { basePath_eq := fun _ heq => ?_
        onPath := fun _ heq => ?_
        later := fun _ heq k hk => ?_
        replaced_iff := ?_
        flushed := fun hnone line hmem => ?_
        pending := fun hnone line hmem => ?_ }
    · cases heq
      exact basePath_write.trans hbase
    · cases heq
      exact hline.onPath
    · cases heq
      rw [hindex] at hk
      show (sink.write s.files formatted io).1 _ = s.opened _
      rw [hline.later k, hbefore.later k hk]
      exact h.later sink hsink k (lt_of_le_of_lt hbefore.index_le hk)
    · rw [List.append_eq_nil_iff, List.map_eq_nil_iff, htaken, h.replaced_iff]
      constructor
      · rintro ⟨hold, hnew⟩ r hr
        rcases List.mem_append.mp hr with hr | hr
        · exact hold r hr
        · obtain ⟨k, hk, rfl⟩ := List.mem_map.mp hr
          have hk : sink.renames? s.files formatted io = some k := by simpa using hk
          exact (h.renames_opened hsink hk).symm.trans (hnew k hk)
      · intro hall
        refine ⟨fun r hr => hall r (List.mem_append_left _ hr), fun k hk => ?_⟩
        rw [h.renames_opened hsink hk]
        exact hall (k, s.opened) (List.mem_append_right _ (List.mem_map.mpr ⟨k, by simp [hk], rfl⟩))
    · obtain ⟨hold, hnew⟩ := List.append_eq_nil_iff.mp hnone
      have hkeeps := hbefore.keeps (htaken.mp (List.map_eq_nil_iff.mp hnew))
      exact hline.keeps.remains (hkeeps.remains (h.settled hsink hold hmem))
    · obtain ⟨hold, -⟩ := List.append_eq_nil_iff.mp hnone
      have hheld : ∃ w, (sink.write s.files formatted io).2.inner.writer = some w ∧
          (line ++ [10]) <:+: w.contents (sink.write s.files formatted io).1 := by
        rcases List.mem_append.mp hmem with hheld | hnew
        · exact h.held_write hsink hold hheld
        · split at hnew
          · next hsome =>
            obtain rfl := List.mem_singleton.mp hnew
            exact h.held_line hsink hsome
          · cases hnew
      obtain ⟨w, hw, hinfix⟩ := hheld
      exact ⟨_, w, rfl, hw, hinfix⟩

end Write

theorem step (h : Inv basePath s) {e : Event} (hs : Lifetimes.step basePath s e = some s') :
    Inv basePath s' := by
  cases e with
  | new policy io => exact h.new hs
  | write formatted io => exact h.write hs
  | flush => exact h.flush hs
  | drop => exact h.drop hs

end Inv

theorem inv_init (basePath : String) (files : Files String UInt8) : Inv basePath (init files) where
  basePath_eq _ hnone := nomatch hnone
  onPath _ hnone := nomatch hnone
  later _ hnone := nomatch hnone
  replaced_iff := iff_of_true rfl fun _ hr => nomatch hr
  flushed _ _ hmem := nomatch hmem
  pending _ _ hmem := nomatch hmem

/-- In every run of sinks on one base path, no rename replaces a file and every flushed line
remains in some file exactly when no rename is to a number whose file the sink found when it was
opened. -/
theorem rotation_preserves_iff (basePath : String) (files : Files String UInt8) {s : State}
    (hreach : (step basePath).Reach (fun _ _ => True) (init files) s) :
    Preserved s ↔ ∀ r ∈ s.renames, r.2 (rotatedName basePath r.1) = none := by
  have h : Inv basePath s :=
    hreach.invariant (inv_init basePath files) fun _ _ _ h _ hs => h.step hs
  exact ⟨fun hp => h.replaced_iff.mp hp.1, fun hfree =>
    ⟨h.replaced_iff.mpr hfree, h.flushed (h.replaced_iff.mpr hfree)⟩⟩

/-- A clock that stands still, and operations that succeed. -/
def quiet : Io := { now := 0, rotationNow := 0, renameOk := true, openOk := true }

/-- One sink that writes two lines, the second into a new file. -/
def lifetime (first second : Line) : List Event :=
  [.new (.sizeBased 2) quiet, .write first quiet, .write second quiet, .drop]

/-- A single sink in an empty directory keeps its lines. -/
theorem rotation_preserves_iff_single :
    ∃ s, (step "app.log").run (init fun _ => none) (lifetime [65] [66]) = some s ∧
      s.renames.length = 1 ∧ Preserved s := by
  obtain ⟨s, hs, hrenames⟩ : ∃ s, (step "app.log").run (init fun _ => none)
      (lifetime [65] [66]) = some s ∧ s.renames = [(1, fun _ => none)] := ⟨_, rfl, rfl⟩
  refine ⟨s, hs, by rw [hrenames]; rfl,
    (rotation_preserves_iff "app.log" _ (.of_run (fun _ _ _ => trivial) hs)).mpr ?_⟩
  intro r hr
  rw [hrenames] at hr
  obtain rfl := List.mem_singleton.mp hr
  rfl

/-- The second sink on a path renames to the number that the first one has used, and so replaces
the file that the first one left there. -/
theorem second_sink_replaces :
    ∃ s, (step "app.log").Reach (fun _ _ => True) (init fun _ => none) s ∧
      s.replaced = ["app.log.1"] ∧ [65] ∈ s.flushed ∧ ¬ Preserved s := by
  have hrun : ((step "app.log").run (init fun _ => none)
      (lifetime [65] [66] ++ lifetime [67] [68])).map (fun s => decide
        (s.replaced = ["app.log.1"] ∧ [65] ∈ s.flushed)) = some true := by
    decide +kernel
  obtain ⟨s, hs, hs'⟩ := Option.map_eq_some_iff.mp hrun
  obtain ⟨hreplaced, hflushed⟩ := of_decide_eq_true hs'
  refine ⟨s, .of_run (fun _ _ _ => trivial) hs, hreplaced, hflushed, fun h => ?_⟩
  rw [h.1] at hreplaced
  cases hreplaced

end Lifetimes

end RotatingFileSink

end RapidLog
