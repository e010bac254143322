import RapidLog.Sinks.Rotating.Lines

/-!
# The size of the current file

A sink with a size limit counts the bytes it has written since it was created or since its last
rotation. That is the size of the current file once a rotation has started a new one, but a sink
that opens a file with contents begins to count at zero. So the limit is kept exactly when the lines
that fit the limit still fit it together with what the file held before (`limitKept_iff`).
-/

namespace RapidLog

namespace RotatingFileSink

/-- The bytes of the lines with their newlines. -/
def size (lines : List Line) : ℕ := (joinLines lines).length

@[simp]
theorem size_append (xs ys : List Line) : size (xs ++ ys) = size xs + size ys := by
  simp [size]

@[simp]
theorem size_singleton (line : Line) : size [line] = line.length + 1 := by
  simp [size, joinLines]

/-- Once the line is written and flushed, the file is within the limit, or it is just that line and
the line alone exceeds the limit. -/
def Within (maxBytes : ℕ) (basePath : String) (line : Line)
    (s : Files String UInt8 × RotatingFileSink) : Prop :=
  ∃ content, (s.2.flush s.1).1 basePath = some content ∧
    (content.length ≤ maxBytes ∨ content = line ++ [10] ∧ maxBytes < content.length)

/-- The limit is kept after every line of the run. -/
def LimitKept (maxBytes : ℕ) (basePath : String) (s : Files String UInt8 × RotatingFileSink) :
    List Op → Prop
  | [] => True
  | .write line io :: ops =>
    Within maxBytes basePath line (Op.apply s (.write line io)) ∧
      LimitKept maxBytes basePath (Op.apply s (.write line io)) ops
  | .flush :: ops => LimitKept maxBytes basePath (Op.apply s .flush) ops

/-- As long as the lines fit the limit, they fit it behind `initial` bytes. -/
def FitsBehind (maxBytes initial : ℕ) (lines : List Line) : Prop :=
  ∀ first, first <+: lines → first ≠ [] → size first ≤ maxBytes → initial + size first ≤ maxBytes

/-- What a sink with a limit knows of its files: `written` are all lines so far. Before the first
rotation all of them are in the current file, behind the initial contents. -/
structure Limited (maxBytes : ℕ) (basePath : String) (initial : List UInt8)
    (s : Files String UInt8 × RotatingFileSink) (groups : List (List Line)) (lines : List Line)
    (written : List Line) : Prop where
  archive : Archive basePath initial s.1 s.2 groups lines
  policy_eq : s.2.policy = .sizeBased maxBytes
  bytesWritten_eq : s.2.inner.bytesWritten = size lines
  suffix : lines <:+ written
  first : groups = [] → lines = written ∧ size lines ≤ maxBytes
  later : groups ≠ [] → maxBytes < size written ∧
    (size lines ≤ maxBytes ∨ ∃ line, lines = [line] ∧ maxBytes < size lines)

namespace Limited

variable {maxBytes : ℕ} {basePath : String} {initial : List UInt8}
  {s : Files String UInt8 × RotatingFileSink} {groups : List (List Line)}
  {lines written : List Line}
  {line : Line} {io : Io}

theorem new {files : Files String UInt8}
    (h : RotatingFileSink.new files basePath (.sizeBased maxBytes) io = some s) :
    Limited maxBytes basePath ((files basePath).getD []) s [] [] [] := by
  have harchive := Archive.new h
  obtain ⟨opened, -, rfl⟩ := Option.map_eq_some_iff.mp h
  exact ⟨harchive, rfl, rfl, List.nil_suffix, fun _ => ⟨rfl, Nat.zero_le _⟩,
    fun hne => absurd rfl hne⟩

theorem flush (h : Limited maxBytes basePath initial s groups lines written) :
    Limited maxBytes basePath initial (Op.apply s .flush) groups lines written := by
  have harchive := h.archive.flush
  obtain ⟨w, hw, -⟩ := h.archive.writer
  have hflush : s.2.flush s.1 = ((w.flushBuf s.1).1,
      { s.2 with inner := { s.2.inner with writer := some (w.flushBuf s.1).2 } }) := by
    simp only [RotatingFileSink.flush, hw]
  refine ⟨harchive, ?_, ?_, h.suffix, h.first, h.later⟩
  · show (s.2.flush s.1).2.policy = _
    rw [hflush]
    exact h.policy_eq
  · show (s.2.flush s.1).2.inner.bytesWritten = _
    rw [hflush]
    exact h.bytesWritten_eq

/-- A line rotates when it does not fit behind the lines of the writer. -/
theorem wouldExceed_iff (h : Limited maxBytes basePath initial s groups lines written) :
    s.2.wouldExceed line io = true ↔ maxBytes < size lines + (line.length + 1) := by
  simp [wouldExceed, h.policy_eq, h.bytesWritten_eq]

/-- A written line counts with its newline. -/
theorem bytesWritten_write {w : Writer} (hw : (s.2.beforeLine s.1 line io).2.writer = some w) :
    (Op.apply s (.write line io)).2.inner.bytesWritten =
      (s.2.beforeLine s.1 line io).2.bytesWritten + (line.length + 1) := by
  show (s.2.write s.1 line io).2.inner.bytesWritten = _
  rw [write_of_writer hw]

/-- A line that fits joins the others. -/
theorem writeLine (h : Limited maxBytes basePath initial s groups lines written)
    (hrotates : s.2.wouldExceed line io = false) :
    Limited maxBytes basePath initial (Op.apply s (.write line io)) groups (lines ++ [line])
      (written ++ [line]) := by
  have hfits : size lines + (line.length + 1) ≤ maxBytes := by
    by_contra hlt
    rw [h.wouldExceed_iff.mpr (not_le.mp hlt)] at hrotates
    cases hrotates
  obtain ⟨w, hw, -⟩ := h.archive.writer
  have hbefore : s.2.beforeLine s.1 line io = (s.1, s.2.inner) := by
    rw [beforeLine, if_neg (by rw [hrotates]; decide)]
  refine ⟨h.archive.writeLine hrotates, (policy_write ..).trans h.policy_eq, ?_,
    List.suffix_append_self_iff.mpr h.suffix, ?_, ?_⟩
  · rw [bytesWritten_write (w := w) (by rw [hbefore]; exact hw), hbefore, size_append,
      size_singleton, ← h.bytesWritten_eq]
  · intro hnil
    rw [(h.first hnil).1] at hfits ⊢
    exact ⟨rfl, by rw [size_append, size_singleton]; exact hfits⟩
  · intro hne
    rw [size_append, size_append, size_singleton]
    exact ⟨Nat.lt_add_right _ (h.later hne).1, .inl hfits⟩

/-- A line that does not fit is the first one of a new file. -/
theorem rotateLine (h : Limited maxBytes basePath initial s groups lines written)
    (hrotates : s.2.wouldExceed line io = true) (hop : (Op.write line io).NoErrors) :
    Limited maxBytes basePath initial (Op.apply s (.write line io)) (groups ++ [lines]) [line]
      (written ++ [line]) := by
  have hexceeds := h.wouldExceed_iff.mp hrotates
  have hbefore : s.2.beforeLine s.1 line io =
      rotateInner s.1 s.2.inner s.2.policy s.2.basePath io := by
    rw [beforeLine, if_pos hrotates]
  rw [rotateInner_of_opened (h.archive.renamed hop.1) hop.2] at hbefore
  refine ⟨h.archive.rotateLine hrotates hop.1 hop.2, (policy_write ..).trans h.policy_eq, ?_,
    List.suffix_append _ _, ?_, ?_⟩
  · rw [bytesWritten_write (by rw [hbefore]), hbefore, size_singleton]
    exact Nat.zero_add _
  · intro hnil
    exact absurd hnil (by simp)
  · intro _
    refine ⟨?_, ?_⟩
    · -- the lines so far did not fit before, or they do not fit with this one
      rw [size_append, size_singleton]
      by_cases hnil : groups = []
      · rw [(h.first hnil).1] at hexceeds
        exact hexceeds
      · exact Nat.lt_add_right _ (h.later hnil).1
    · rcases Nat.lt_or_ge maxBytes (size [line]) with hlt | hge
      · exact .inr ⟨line, rfl, hlt⟩
      · exact .inl hge

/-- After a line, the limit is kept exactly when what was written so far, if it fits the limit, fits
it behind the initial contents. -/
theorem within_iff (h : Limited maxBytes basePath initial s groups lines (written ++ [line])) :
    Within maxBytes basePath line s ↔
      (size (written ++ [line]) ≤ maxBytes →
        initial.length + size (written ++ [line]) ≤ maxBytes) := by
  have hfile := h.archive.file_flush
  by_cases hnil : groups = []
  · obtain ⟨hlines, hsize⟩ := h.first hnil
    rw [hnil, hlines, List.length_nil, heading, if_pos rfl] at hfile
    have hlength : (initial ++ joinLines (written ++ [line])).length =
        initial.length + size (written ++ [line]) := List.length_append
    rw [hlines] at hsize
    constructor
    · rintro ⟨content, hcontent, hwithin⟩ -
      cases hfile.symm.trans hcontent
      rcases hwithin with hle | ⟨hline, hlt⟩
      · rwa [← hlength]
      · -- a line that is alone in the file is within the limit, like all lines before a rotation
        have hsingle := congrArg List.length hline
        rw [hlength, size_append, size_singleton, List.length_append, List.length_singleton]
          at hsingle
        rw [hlength] at hlt
        omega
    · intro himp
      exact ⟨_, hfile, .inl (by rw [hlength]; exact himp hsize)⟩
  -- after a rotation the limit was exceeded once, and the file has lines of this sink only
  · obtain ⟨hwritten, hlines⟩ := h.later hnil
    have hheading : heading initial groups.length = [] := by
      rw [heading, if_neg (by simpa using hnil)]
    rw [hheading, List.nil_append] at hfile
    refine ⟨fun _ hle => absurd hwritten (not_lt.mpr hle), fun _ => ⟨_, hfile, ?_⟩⟩
    rcases hlines with hle | ⟨line', rfl, hlt⟩
    · exact .inl hle
    · obtain rfl := List.singleton_suffix_append_singleton_iff.mp h.suffix
      exact .inr ⟨List.flatMap_singleton .., hlt⟩

/-- Every call without an I/O error keeps count of the lines. -/
theorem write (h : Limited maxBytes basePath initial s groups lines written)
    (hop : (Op.write line io).NoErrors) :
    ∃ groups' lines', Limited maxBytes basePath initial (Op.apply s (.write line io)) groups' lines'
      (written ++ [line]) := by
  cases hrotates : s.2.wouldExceed line io with
  | false => exact ⟨_, _, h.writeLine hrotates⟩
  | true => exact ⟨_, _, h.rotateLine hrotates hop⟩

/-- The limit is kept in a run exactly when the lines that fit it fit it behind the initial
contents. -/
theorem kept_iff (h : Limited maxBytes basePath initial s groups lines written)
    {ops : List Op} (hops : ∀ op ∈ ops, op.NoErrors) :
    LimitKept maxBytes basePath s ops ↔
      ∀ first, first <+: ops.flatMap Op.lines → first ≠ [] → size (written ++ first) ≤ maxBytes →
        initial.length + size (written ++ first) ≤ maxBytes := by
  induction ops generalizing s groups lines written with
  | nil =>
    refine ⟨fun _ first hfirst hne => absurd (List.prefix_nil.mp hfirst) hne, fun _ => trivial⟩
  | cons op ops ih =>
    have hrest : ∀ op' ∈ ops, op'.NoErrors := fun op' hop' => hops op' (by simp [hop'])
    cases op with
    | flush => exact ih h.flush hrest
    | write line io =>
      obtain ⟨groups', lines', hnext⟩ := h.write (hops (.write line io) List.mem_cons_self)
      have hafter := ih hnext hrest
      simp only [List.append_assoc, List.singleton_append] at hafter
      constructor
      · rintro ⟨hwithin, hkept⟩ first hfirst hne
        rw [List.flatMap_cons, Op.lines, List.singleton_append] at hfirst
        -- the first line is checked now, and longer beginnings after it
        obtain rfl | ⟨others, rfl, hothers⟩ := List.prefix_cons_iff.mp hfirst
        · exact absurd rfl hne
        · by_cases hnil : others = []
          · rw [hnil]
            exact hnext.within_iff.mp hwithin
          · exact hafter.mp hkept others hothers hnil
      · intro hfits
        have hcons : ∀ first, first <+: ops.flatMap Op.lines →
            (line :: first) <+: (Op.write line io :: ops).flatMap Op.lines := by
          intro first hfirst
          rw [List.flatMap_cons, Op.lines, List.singleton_append]
          exact List.prefix_cons_iff.mpr (.inr ⟨first, rfl, hfirst⟩)
        refine ⟨hnext.within_iff.mpr (hfits [line] (hcons [] List.nil_prefix) (by simp)), ?_⟩
        exact hafter.mpr fun first hfirst _ => hfits (line :: first) (hcons first hfirst) (by simp)

end Limited

/-- Without I/O errors a sink keeps its limit exactly when the lines that fit the limit fit it
behind what the file held before. -/
theorem limitKept_iff {files : Files String UInt8} {basePath : String} {maxBytes : ℕ} {io : Io}
    {s : Files String UInt8 × RotatingFileSink}
    (hnew : RotatingFileSink.new files basePath (.sizeBased maxBytes) io = some s) {ops : List Op}
    (hops : ∀ op ∈ ops, op.NoErrors) :
    LimitKept maxBytes basePath s ops ↔
      FitsBehind maxBytes ((files basePath).getD []).length (ops.flatMap Op.lines) :=
  (Limited.new hnew).kept_iff hops

/-- A new file keeps the limit. -/
theorem limitKept_iff_three :
    ∃ s, RotatingFileSink.new (fun _ => none) "app.log" (.sizeBased 5) quietIo = some s ∧
      LimitKept 5 "app.log" s [.write [65] quietIo, .write [66] quietIo, .write [67] quietIo] := by
  obtain ⟨s, hnew⟩ : ∃ s, RotatingFileSink.new (fun _ => none) "app.log" (.sizeBased 5) quietIo =
      some s := ⟨_, rfl⟩
  refine ⟨s, hnew, (limitKept_iff hnew fun op hop => ?_).mpr ?_⟩
  · simp only [List.mem_cons, List.not_mem_nil, or_false] at hop
    rcases hop with rfl | rfl | rfl <;> exact ⟨rfl, rfl⟩
  · intro first _ _ hle
    simpa using hle

/-- Behind five bytes of an earlier run a line of two bytes makes the file longer than its limit. -/
theorem limit_exceeded_behind_earlier_run :
    ∃ s, RotatingFileSink.new (fun _ => some [1, 2, 3, 4, 5]) "app.log" (.sizeBased 5) quietIo =
        some s ∧
      ¬ LimitKept 5 "app.log" s [.write [65] quietIo] := by
  refine ⟨_, rfl, ?_⟩
  rintro ⟨⟨content, hcontent, hwithin⟩, -⟩
  obtain rfl : [1, 2, 3, 4, 5, 65, 10] = content := Option.some_inj.mp hcontent
  rcases hwithin with hle | ⟨hline, -⟩
  · simp at hle
  · simp at hline

end RotatingFileSink

end RapidLog
