import RapidLog.Sinks.Rotating

/-!
# Where the lines of one sink end up

The calls of one sink without I/O errors, from `new` to a last flush. Every rotation closes a group
of lines: the numbered files hold the closed groups in order, the first one behind what the file
held before, and the writer holds the lines since the last rotation. `Archive` says so of a state,
`Archive.apply` that every call keeps it, and `rotated_files_concat` what follows for the files.
-/

namespace RapidLog

namespace RotatingFileSink

/-- A call of a sink. -/
inductive Op
  | write (formatted : Line) (io : Io)
  | flush

namespace Op

/-- The rotation that the call may perform meets no I/O error. -/
def NoErrors : Op → Prop
  | write _ io => io.renameOk = true ∧ io.openOk = true
  | flush => True

def apply (s : Files String UInt8 × RotatingFileSink) :
    Op → Files String UInt8 × RotatingFileSink
  | write formatted io => s.2.write s.1 formatted io
  | flush => s.2.flush s.1

/-- Whether the call rotates. -/
def rotates (sink : RotatingFileSink) : Op → Bool
  | write formatted io => sink.wouldExceed formatted io
  | flush => false

/-- The lines that the call writes. -/
def lines : Op → List Line
  | write formatted _ => [formatted]
  | flush => []

end Op

/-- The calls one after the other. -/
def run (s : Files String UInt8 × RotatingFileSink) (ops : List Op) :
    Files String UInt8 × RotatingFileSink :=
  ops.foldl Op.apply s

/-- The number of rotations that the calls perform. -/
def rotations (s : Files String UInt8 × RotatingFileSink) : List Op → ℕ
  | [] => 0
  | op :: ops => (op.rotates s.2).toNat + rotations (op.apply s) ops

/-- Each line with its newline. -/
def joinLines (lines : List Line) : List UInt8 := lines.flatMap (· ++ [10])

@[simp]
theorem joinLines_append (xs ys : List Line) :
    joinLines (xs ++ ys) = joinLines xs ++ joinLines ys :=
  List.flatMap_append ..

/-- What precedes the lines of the `i`-th file: the first one starts with what was there before. -/
def heading (initial : List UInt8) (i : ℕ) : List UInt8 := if i = 0 then initial else []

/-- The numbered files hold the groups, and the writer holds the lines after the last of them. -/
structure Archive (basePath : String) (initial : List UInt8) (files : Files String UInt8)
    (sink : RotatingFileSink) (groups : List (List Line)) (lines : List Line) : Prop where
  basePath_eq : sink.basePath = basePath
  currentPath_eq : sink.inner.currentPath = basePath
  index_eq : sink.inner.rotationIndex = groups.length
  exists_file : (files basePath).isSome
  rotated : ∀ (i : ℕ) (hi : i < groups.length), files (rotatedName basePath (i + 1)) =
    some (heading initial i ++ joinLines groups[i])
  writer : ∃ w, sink.inner.writer = some w ∧ w.path = basePath ∧
    w.contents files = heading initial groups.length ++ joinLines lines

namespace Archive

variable {basePath : String} {initial : List UInt8} {files : Files String UInt8}
  {sink : RotatingFileSink} {groups : List (List Line)} {lines : List Line} {io : Io}
  {formatted : Line}

/-- A sink starts with the contents of its file and no line. -/
theorem new {policy : RotationPolicy} {s : Files String UInt8 × RotatingFileSink}
    (h : RotatingFileSink.new files basePath policy io = some s) :
    Archive basePath ((files basePath).getD []) s.1 s.2 [] [] := by
  obtain ⟨opened, hopened, rfl⟩ := Option.map_eq_some_iff.mp h
  simp only [openWriter] at hopened
  split at hopened
  · cases hopened
    exact
      { basePath_eq := rfl
        currentPath_eq := rfl
        index_eq := rfl
        exists_file := by simp [Files.create_self]
        rotated := fun i hi => absurd hi (Nat.not_lt_zero i)
        writer := ⟨_, rfl, rfl, by
          simp [BufWriter.contents, Files.create_self, heading, joinLines]⟩ }
  · cases hopened

/-- A writer that has written more bytes holds more contents, and the numbered files are the
same. -/
private theorem wrote (h : Archive basePath initial files sink groups lines) {w w' : Writer}
    (hw : sink.inner.writer = some w) {files' : Files String UInt8} {xs : List UInt8}
    (hwrote : BufWriter.Wrote files w files' w' xs) {sink' : RotatingFileSink}
    {lines' : List Line} (hbase : sink'.basePath = sink.basePath)
    (hcurrent : sink'.inner.currentPath = sink.inner.currentPath)
    (hindex : sink'.inner.rotationIndex = sink.inner.rotationIndex)
    (hw' : sink'.inner.writer = some w') (hlines : joinLines lines' = joinLines lines ++ xs) :
    Archive basePath initial files' sink' groups lines' := by
  obtain ⟨w₀, hw₀, hpath, hcontents⟩ := h.writer
  cases hw.symm.trans hw₀
  refine
    { basePath_eq := hbase.trans h.basePath_eq
      currentPath_eq := hcurrent.trans h.currentPath_eq
      index_eq := hindex.trans h.index_eq
      exists_file := hpath ▸ hwrote.isSome (hpath.symm ▸ h.exists_file)
      rotated := fun i hi => ?_
      writer := ⟨w', hw', hwrote.path_eq.trans hpath, ?_⟩ }
  · rw [hwrote.other _ (hpath ▸ rotatedName_ne basePath _)]
    exact h.rotated i hi
  · rw [hwrote.contents_eq, hcontents, hlines, List.append_assoc]

/-- A line that is written without a rotation joins the last lines. -/
theorem writeLine (h : Archive basePath initial files sink groups lines)
    (hrotates : sink.wouldExceed formatted io = false) :
    Archive basePath initial (sink.write files formatted io).1 (sink.write files formatted io).2
      groups (lines ++ [formatted]) := by
  obtain ⟨w, hw, -⟩ := h.writer
  simp only [write, hrotates, Bool.false_eq_true, if_false, hw]
  exact h.wrote hw (wrote_writeLine files w formatted) rfl rfl rfl rfl (by simp [joinLines])

/-- A flush passes on what the writer holds. -/
theorem flush (h : Archive basePath initial files sink groups lines) :
    Archive basePath initial (sink.flush files).1 (sink.flush files).2 groups lines := by
  obtain ⟨w, hw, -⟩ := h.writer
  simp only [RotatingFileSink.flush, hw]
  exact h.wrote hw (w.wrote_flushBuf files) rfl rfl rfl rfl (by simp)

/-- The file of an open writer is there to be renamed. -/
theorem renamed (h : Archive basePath initial files sink groups lines)
    (hrename : io.renameOk = true) :
    (io.renameOk && (dropWriter files sink.inner.writer sink.inner.currentPath).isSome) = true := by
  obtain ⟨w, hw, hpath, -⟩ := h.writer
  have hsome : (dropWriter files sink.inner.writer sink.inner.currentPath).isSome := by
    rw [hw, h.currentPath_eq, ← hpath]
    exact Option.isSome_of_eq_some (w.file_flushBuf files)
  rw [hrename, hsome]
  rfl

/-- A rotation closes the group of the last lines. -/
theorem rotate (h : Archive basePath initial files sink groups lines)
    (hrename : io.renameOk = true) (hopen : io.openOk = true) :
    Archive basePath initial
      (rotateInner files sink.inner sink.policy sink.basePath io).1
      { sink with inner := (rotateInner files sink.inner sink.policy sink.basePath io).2 }
      (groups ++ [lines]) [] := by
  obtain ⟨w, hw, hpath, hcontents⟩ := h.writer
  have hcurrent : sink.inner.currentPath = basePath := h.currentPath_eq
  have hbase : sink.basePath = basePath := h.basePath_eq
  have hindex : sink.inner.rotationIndex = groups.length := h.index_eq
  -- dropping the writer leaves all of its contents in the file
  have hdrop : dropWriter files sink.inner.writer = (w.flushBuf files).1 := by rw [hw]; rfl
  have hfile : (w.flushBuf files).1 basePath =
      some (heading initial groups.length ++ joinLines lines) := by
    rw [← hcontents, ← hpath]
    exact w.file_flushBuf files
  rw [rotateInner_of_opened (h.renamed hrename) hopen, hdrop, hcurrent, hbase, hindex]
  have hne : basePath ≠ rotatedName basePath (groups.length + 1) :=
    (rotatedName_ne basePath _).symm
  refine
    { basePath_eq := rfl
      currentPath_eq := hcurrent
      index_eq := by simp [RotatingState.dropped, hindex]
      exists_file := by simp [Files.create_self]
      rotated := fun i hi => ?_
      writer := ⟨_, rfl, rfl, ?_⟩ }
  · show (Files.create _ basePath) _ = _
    rw [Files.create_of_ne _ (rotatedName_ne basePath _)]
    rw [List.length_append, List.length_singleton] at hi
    rcases Nat.lt_or_eq_of_le (Nat.lt_succ_iff.mp hi) with hlt | rfl
    · have hne' : rotatedName basePath (i + 1) ≠ rotatedName basePath (groups.length + 1) :=
        fun heq => absurd (rotatedName_injective basePath heq) (by omega)
      rw [Files.rename_of_ne _ (rotatedName_ne basePath _) hne',
        (w.wrote_flushBuf files).other _ (hpath ▸ rotatedName_ne basePath _),
        List.getElem_append_left hlt]
      exact h.rotated i hlt
    · rw [Files.rename_target _ hne, hfile, List.getElem_concat_length rfl]
  · simp [BufWriter.contents, Files.create_self, Files.rename_source _ hne, heading, joinLines]

/-- A line that rotates first opens a new group. -/
theorem rotateLine (h : Archive basePath initial files sink groups lines)
    (hrotates : sink.wouldExceed formatted io = true) (hrename : io.renameOk = true)
    (hopen : io.openOk = true) :
    Archive basePath initial (sink.write files formatted io).1 (sink.write files formatted io).2
      (groups ++ [lines]) [formatted] := by
  have hrot := h.rotate hrename hopen
  obtain ⟨w, hw, -⟩ := hrot.writer
  simp only at hw
  simp only [write, hrotates, if_true, hw]
  exact hrot.wrote hw (wrote_writeLine _ w formatted) rfl rfl rfl rfl (by simp [joinLines])

/-- Every call without an I/O error keeps the lines in order. -/
theorem apply (h : Archive basePath initial files sink groups lines) {op : Op}
    (hop : op.NoErrors) :
    ∃ groups' lines', Archive basePath initial (op.apply (files, sink)).1
      (op.apply (files, sink)).2 groups' lines' ∧
      groups'.length = groups.length + (op.rotates sink).toNat ∧
      groups'.flatten ++ lines' = groups.flatten ++ lines ++ op.lines := by
  cases op with
  | write formatted io =>
    cases hrotates : sink.wouldExceed formatted io with
    | false =>
      refine ⟨groups, lines ++ [formatted], h.writeLine hrotates, ?_, ?_⟩
      · simp [Op.rotates, hrotates]
      · simp [Op.lines]
    | true =>
      refine ⟨groups ++ [lines], [formatted], h.rotateLine hrotates hop.1 hop.2, ?_, ?_⟩
      · simp [Op.rotates, hrotates]
      · simp [Op.lines]
  | flush => exact ⟨groups, lines, h.flush, rfl, by simp [Op.lines]⟩

/-- A run without I/O errors keeps the lines in order; each rotation has closed one group. -/
theorem run (ops : List Op) {s : Files String UInt8 × RotatingFileSink}
    (h : Archive basePath initial s.1 s.2 groups lines) (hops : ∀ op ∈ ops, op.NoErrors) :
    ∃ groups' lines', Archive basePath initial (run s ops).1 (run s ops).2 groups' lines' ∧
      groups'.length = groups.length + rotations s ops ∧
      groups'.flatten ++ lines' = groups.flatten ++ lines ++ ops.flatMap Op.lines := by
  induction ops generalizing s groups lines with
  | nil => exact ⟨groups, lines, h, rfl, by simp⟩
  | cons op ops ih =>
    obtain ⟨groups₁, lines₁, h₁, hlength₁, hlines₁⟩ := h.apply (hops op (by simp))
    obtain ⟨groups₂, lines₂, h₂, hlength₂, hlines₂⟩ :=
      ih (s := op.apply s) h₁ fun op' hop' => hops op' (by simp [hop'])
    refine ⟨groups₂, lines₂, h₂, ?_, ?_⟩
    · rw [hlength₂, hlength₁, rotations, Nat.add_assoc]
    · rw [hlines₂, hlines₁, List.flatMap_cons, List.append_assoc]

/-- Behind a flush the file at the base path holds what the writer held. -/
theorem file_flush (h : Archive basePath initial files sink groups lines) :
    (sink.flush files).1 basePath = some (heading initial groups.length ++ joinLines lines) := by
  obtain ⟨w, hw, hpath, hcontents⟩ := h.writer
  simp only [RotatingFileSink.flush, hw]
  rw [← hpath, ← hcontents]
  exact w.file_flushBuf files

end Archive

/-- The numbered files one after the other hold the initial contents and the closed groups. -/
theorem flatMap_rotated {files : Files String UInt8} {basePath : String} {initial : List UInt8}
    {groups : List (List Line)}
    (h : ∀ (i : ℕ) (hi : i < groups.length), files (rotatedName basePath (i + 1)) =
      some (heading initial i ++ joinLines groups[i])) (last : List UInt8) :
    ((List.range groups.length).flatMap fun i =>
        (files (rotatedName basePath (i + 1))).getD []) ++
      (heading initial groups.length ++ last) = initial ++ joinLines groups.flatten ++ last := by
  induction groups using List.reverseRecOn generalizing last with
  | nil => simp [heading, joinLines]
  | append_singleton groups group ih =>
    have hinit : ∀ (i : ℕ) (hi : i < groups.length), files (rotatedName basePath (i + 1)) =
        some (heading initial i ++ joinLines groups[i]) := by
      intro i hi
      rw [h i (by simp; omega), List.getElem_append_left hi]
    have hlast : files (rotatedName basePath (groups.length + 1)) =
        some (heading initial groups.length ++ joinLines group) := by
      rw [h groups.length (by simp), List.getElem_concat_length rfl]
    have hlength : (groups ++ [group]).length = groups.length + 1 := by simp
    rw [hlength, List.range_succ, List.flatMap_append, List.flatMap_singleton, hlast,
      Option.getD_some, List.append_assoc, List.append_assoc (heading ..), ih hinit]
    simp [heading]

/-- After the calls of one sink without I/O errors and a flush, the files `path.1`, …, `path.N` and
`path` hold the initial contents and then all written lines in order, each whole and in one file;
`N` is the number of rotations. -/
theorem rotated_files_concat {files : Files String UInt8} {basePath : String}
    {policy : RotationPolicy} {io : Io} {s : Files String UInt8 × RotatingFileSink}
    (hnew : RotatingFileSink.new files basePath policy io = some s) (ops : List Op)
    (hops : ∀ op ∈ ops, op.NoErrors) :
    ∃ groups : List (List Line), groups.length = rotations s ops + 1 ∧
      groups.flatten = ops.flatMap Op.lines ∧
      (∀ (i : ℕ) (hi : i < groups.length),
        (run s (ops ++ [.flush])).1
            (if i < rotations s ops then rotatedName basePath (i + 1) else basePath) =
          some (heading ((files basePath).getD []) i ++ joinLines groups[i])) ∧
      ((List.range (rotations s ops)).flatMap fun i =>
          ((run s (ops ++ [.flush])).1 (rotatedName basePath (i + 1))).getD []) ++
        ((run s (ops ++ [.flush])).1 basePath).getD [] =
          (files basePath).getD [] ++ joinLines (ops.flatMap Op.lines) := by
  obtain ⟨groups, lines, harchive, hlength, hlines⟩ := (Archive.new hnew).run ops hops
  rw [List.length_nil, Nat.zero_add] at hlength
  rw [List.flatten_nil, List.nil_append, List.nil_append] at hlines
  have hrun : run s (ops ++ [.flush]) = (run s ops).2.flush (run s ops).1 := by
    rw [run, List.foldl_append]
    rfl
  have hflushed := harchive.flush
  have hbase := harchive.file_flush
  rw [hrun, ← hlength]
  refine ⟨groups ++ [lines], by simp, by simpa using hlines, fun i hi => ?_, ?_⟩
  · rw [List.length_append, List.length_singleton] at hi
    split
    · next hlt =>
      rw [List.getElem_append_left hlt]
      exact hflushed.rotated i hlt
    · next hge =>
      obtain rfl : i = groups.length := by omega
      rw [List.getElem_concat_length rfl]
      exact hbase
  · rw [hbase, Option.getD_some, flatMap_rotated hflushed.rotated, ← hlines, joinLines_append,
      List.append_assoc]

/-- A call whose clock stands still. -/
def quietIo : Io := { now := 0, rotationNow := 0, renameOk := true, openOk := true }

/-- Two lines that fill a file of five bytes, and a third one that no longer fits. -/
theorem rotated_files_concat_three :
    let policy := RotationPolicy.sizeBased 5
    let ops := [Op.write [65] quietIo, .write [66] quietIo, .write [67] quietIo]
    ∃ s, RotatingFileSink.new (fun _ => none) "app.log" policy quietIo = some s ∧
      rotations s ops = 1 ∧
      ((run s (ops ++ [.flush])).1 "app.log.1").getD [] ++
        ((run s (ops ++ [.flush])).1 "app.log").getD [] = [65, 10, 66, 10, 67, 10] := by
  intro policy ops
  obtain ⟨s, hnew⟩ : ∃ s, RotatingFileSink.new (fun _ => none) "app.log" policy quietIo = some s :=
    ⟨_, rfl⟩
  have hrotations : rotations s ops = 1 := by
    cases hnew
    decide
  obtain ⟨-, -, -, -, hconcat⟩ := rotated_files_concat hnew ops fun op hop => by
    simp only [ops, List.mem_cons, List.not_mem_nil, or_false] at hop
    rcases hop with rfl | rfl | rfl <;> exact ⟨rfl, rfl⟩
  have hname : rotatedName "app.log" 1 = "app.log.1" := by decide
  rw [hrotations, List.range_one, List.flatMap_singleton, Nat.zero_add, hname] at hconcat
  exact ⟨s, hnew, hrotations, hconcat⟩

end RotatingFileSink

end RapidLog
