import RapidLog.Sinks.Rotating.Lines

/-!
# The intervals of the lines of a file

A sink that rotates with time compares the clock with a deadline, and computes the next deadline
from a second reading of the clock. When the clock passes the end of an interval between the two
readings, the line of the first reading begins a file that is meant for the next interval.

`filed` are the lines of each file with the readings at which they were written. The lines of every
file are from one interval exactly when no line that was written so is followed by one of that next
interval, and no line before the epoch shares the file of the first interval
(`filed_separated_iff`).
-/

namespace RapidLog

namespace TimeInterval

def nanos : TimeInterval → ℤ
  | hourly => 3600 * RotatingFileSink.nanosPerSec
  | daily => 86400 * RotatingFileSink.nanosPerSec

/-- The number of the hour or day of a reading, counted from the epoch. -/
def index (interval : TimeInterval) (now : SystemTime) : ℤ := now / interval.nanos

variable {interval : TimeInterval} {now : SystemTime} {m : ℤ}

theorem nanos_pos (interval : TimeInterval) : 0 < interval.nanos := by
  cases interval <;> decide

theorem le_index_iff : m ≤ interval.index now ↔ m * interval.nanos ≤ now :=
  Int.le_ediv_iff_mul_le interval.nanos_pos

theorem index_mono {now' : SystemTime} (h : now ≤ now') :
    interval.index now ≤ interval.index now' :=
  Int.ediv_le_ediv interval.nanos_pos h

end TimeInterval

namespace RotatingFileSink

open TimeInterval

/-- The end of the interval of a reading; a reading before the epoch counts as one at it. -/
theorem computeNextRotation_timeBased (interval : TimeInterval) (now : SystemTime) :
    computeNextRotation (.timeBased interval) now =
      (max (interval.index now) 0 + 1) * interval.nanos := by
  cases interval with
  | hourly =>
    show (((now.toNat / 1000000000 / 3600 + 1) * 3600 * 1000000000 : ℕ) : ℤ) =
      (max (now / (3600 * (1000000000 : ℕ))) 0 + 1) * (3600 * (1000000000 : ℕ))
    push_cast
    omega
  | daily =>
    show (((now.toNat / 1000000000 / 86400 + 1) * 86400 * 1000000000 : ℕ) : ℤ) =
      (max (now / (86400 * (1000000000 : ℕ))) 0 + 1) * (86400 * (1000000000 : ℕ))
    push_cast
    omega

/-- A line, and the reading of the clock at which it was written. -/
abbrev Stamped := Line × SystemTime

namespace Op

def stamped : Op → List Stamped
  | write formatted io => [(formatted, io.now)]
  | flush => []

/-- The readings of the clock that the call takes. -/
def readings (sink : RotatingFileSink) : Op → List SystemTime
  | write formatted io =>
    if sink.wouldExceed formatted io then [io.now, io.rotationNow] else [io.now]
  | flush => []

end Op

/-- All readings, in the order in which they are taken. -/
def readings (s : Files String UInt8 × RotatingFileSink) : List Op → List SystemTime
  | [] => []
  | op :: ops => op.readings s.2 ++ readings (op.apply s) ops

/-- The lines of each file, when the current one has the lines `current`. -/
def filed (s : Files String UInt8 × RotatingFileSink) (current : List Stamped) :
    List Op → List (List Stamped)
  | [] => [current]
  | op :: ops =>
    if op.rotates s.2 then current :: filed (op.apply s) op.stamped ops
    else filed (op.apply s) (current ++ op.stamped) ops

/-- All lines of the file were written in one interval. -/
def SameInterval (interval : TimeInterval) (file : List Stamped) : Prop :=
  ∀ a ∈ file, ∀ b ∈ file, interval.index a.2 = interval.index b.2

/-- The readings of a rotation are from one interval, or no line of the interval of the second one
comes next. -/
def InTime (interval : TimeInterval) (io : Io) (ops : List Op) : Prop :=
  interval.index io.now = interval.index io.rotationNow ∨
    ∀ next ∈ (ops.flatMap Op.stamped).head?, interval.index next.2 ≠ interval.index io.rotationNow

/-- Every rotation of the run is in time. -/
def RotatesInTime (interval : TimeInterval) (s : Files String UInt8 × RotatingFileSink) :
    List Op → Prop
  | [] => True
  | .flush :: ops => RotatesInTime interval (Op.apply s .flush) ops
  | .write formatted io :: ops =>
    (s.2.wouldExceed formatted io = true → InTime interval io ops) ∧
      RotatesInTime interval (Op.apply s (.write formatted io)) ops

/-- What a sink with a deadline knows: the deadline is the end of interval `m`. -/
structure Timed (interval : TimeInterval) (basePath : String)
    (s : Files String UInt8 × RotatingFileSink) (m : ℤ) (groups : List (List Line))
    (lines : List Line) : Prop where
  archive : Archive basePath [] s.1 s.2 groups lines
  policy_eq : s.2.policy = .timeBased interval
  deadline : s.2.inner.nextRotationAt = (m + 1) * interval.nanos

namespace Timed

variable {interval : TimeInterval} {basePath : String} {s : Files String UInt8 × RotatingFileSink}
  {m : ℤ} {groups : List (List Line)} {lines : List Line} {line : Line} {io : Io}

theorem new {files : Files String UInt8} (hempty : (files basePath).getD [] = [])
    (h : RotatingFileSink.new files basePath (.timeBased interval) io = some s) :
    Timed interval basePath s (max (interval.index io.rotationNow) 0) [] [] := by
  have harchive := Archive.new h
  rw [hempty] at harchive
  obtain ⟨opened, -, rfl⟩ := Option.map_eq_some_iff.mp h
  exact ⟨harchive, rfl, computeNextRotation_timeBased interval _⟩

/-- A line rotates when it is written after interval `m`. -/
theorem wouldExceed_iff (h : Timed interval basePath s m groups lines) :
    s.2.wouldExceed line io = true ↔ m < interval.index io.now := by
  have hlt : m < interval.index io.now ↔ m + 1 ≤ interval.index io.now := Int.lt_iff_add_one_le
  rw [hlt, le_index_iff, ← h.deadline]
  simp [wouldExceed, h.policy_eq]

theorem flush (h : Timed interval basePath s m groups lines) :
    Timed interval basePath (Op.apply s .flush) m groups lines := by
  obtain ⟨w, hw, -⟩ := h.archive.writer
  have hflush : s.2.flush s.1 = ((w.flushBuf s.1).1,
      { s.2 with inner := { s.2.inner with writer := some (w.flushBuf s.1).2 } }) := by
    simp only [RotatingFileSink.flush, hw]
  refine ⟨h.archive.flush, ?_, ?_⟩
  · show (s.2.flush s.1).2.policy = _
    rw [hflush]
    exact h.policy_eq
  · show (s.2.flush s.1).2.inner.nextRotationAt = _
    rw [hflush]
    exact h.deadline

/-- A line that is written before the deadline leaves it as it is. -/
theorem writeLine (h : Timed interval basePath s m groups lines)
    (hrotates : s.2.wouldExceed line io = false) :
    Timed interval basePath (Op.apply s (.write line io)) m groups (lines ++ [line]) := by
  obtain ⟨w, hw, -⟩ := h.archive.writer
  have hbefore : s.2.beforeLine s.1 line io = (s.1, s.2.inner) := by
    rw [beforeLine, if_neg (by rw [hrotates]; decide)]
  refine ⟨h.archive.writeLine hrotates, (policy_write ..).trans h.policy_eq, ?_⟩
  show (s.2.write s.1 line io).2.inner.nextRotationAt = _
  rw [write_of_writer (w := w) (by rw [hbefore]; exact hw), hbefore]
  exact h.deadline

/-- After a rotation the deadline is the end of the interval of the second reading. -/
theorem rotateLine (h : Timed interval basePath s m groups lines)
    (hrotates : s.2.wouldExceed line io = true) (hop : (Op.write line io).NoErrors) :
    Timed interval basePath (Op.apply s (.write line io))
      (max (interval.index io.rotationNow) 0) (groups ++ [lines]) [line] := by
  have hbefore : s.2.beforeLine s.1 line io =
      rotateInner s.1 s.2.inner s.2.policy s.2.basePath io := by
    rw [beforeLine, if_pos hrotates]
  rw [rotateInner_of_opened (h.archive.renamed hop.1) hop.2] at hbefore
  refine ⟨h.archive.rotateLine hrotates hop.1 hop.2, (policy_write ..).trans h.policy_eq, ?_⟩
  show (s.2.write s.1 line io).2.inner.nextRotationAt = _
  rw [write_of_writer (by rw [hbefore]), hbefore, h.policy_eq]
  exact computeNextRotation_timeBased interval _

section Stamped

variable {current : List Stamped}

/-- A line before the deadline, with its reading, is the last one of the current file. -/
theorem stays (h : Timed interval basePath s m groups (current.map Prod.fst))
    (hrotates : s.2.wouldExceed line io = false) :
    Timed interval basePath (Op.apply s (.write line io)) m groups
      ((current ++ [(line, io.now)]).map Prod.fst) := by
  have hnext := h.writeLine hrotates
  rw [List.map_append]
  exact hnext

/-- A line after the deadline, with its reading, is the first one of a new file. -/
theorem begins (h : Timed interval basePath s m groups (current.map Prod.fst))
    (hrotates : s.2.wouldExceed line io = true) (hop : (Op.write line io).NoErrors) :
    Timed interval basePath (Op.apply s (.write line io)) (max (interval.index io.rotationNow) 0)
      (groups ++ [current.map Prod.fst]) ([((line, io.now) : Stamped)].map Prod.fst) :=
  h.rotateLine hrotates hop

/-- A line that does not rotate is from before the deadline. -/
theorem index_le (h : Timed interval basePath s m groups (current.map Prod.fst))
    (hrotates : s.2.wouldExceed line io = false) : interval.index io.now ≤ m := by
  refine not_lt.mp fun hlt => ?_
  rw [h.wouldExceed_iff.mpr hlt] at hrotates
  cases hrotates

/-- A line that rotates begins a file of the interval of the second reading, which is after the
epoch as the deadline is. -/
theorem begins_later (h : Timed interval basePath s m groups (current.map Prod.fst))
    (hrotates : s.2.wouldExceed line io = true) (hop : (Op.write line io).NoErrors) (hm : 0 ≤ m)
    (hle : interval.index io.now ≤ interval.index io.rotationNow) :
    m < interval.index io.rotationNow ∧
      Timed interval basePath (Op.apply s (.write line io)) (interval.index io.rotationNow)
        (groups ++ [current.map Prod.fst]) ([((line, io.now) : Stamped)].map Prod.fst) := by
  have hlt := (h.wouldExceed_iff.mp hrotates).trans_le hle
  have hnext := h.begins hrotates hop
  rw [max_eq_left (hm.trans hlt.le)] at hnext
  exact ⟨hlt, hnext⟩

end Stamped

end Timed

section Filed

variable {s : Files String UInt8 × RotatingFileSink} {line : Line} {io : Io}

@[simp]
theorem filed_flush (current : List Stamped) (ops : List Op) :
    filed s current (.flush :: ops) = filed (Op.apply s .flush) current ops := by
  rw [filed, Op.stamped, List.append_nil]
  rfl

theorem filed_of_rotates (h : s.2.wouldExceed line io = true) (current : List Stamped)
    (ops : List Op) :
    filed s current (.write line io :: ops) =
      current :: filed (Op.apply s (.write line io)) [(line, io.now)] ops :=
  if_pos h

theorem filed_of_not_rotates (h : s.2.wouldExceed line io = false) (current : List Stamped)
    (ops : List Op) :
    filed s current (.write line io :: ops) =
      filed (Op.apply s (.write line io)) (current ++ [(line, io.now)]) ops :=
  if_neg (by rw [Op.rotates, h]; decide)

/-- No line is lost. -/
theorem flatten_filed (s : Files String UInt8 × RotatingFileSink) (current : List Stamped)
    (ops : List Op) :
    (filed s current ops).flatten = current ++ ops.flatMap Op.stamped := by
  induction ops generalizing s current with
  | nil => simp [filed]
  | cons op ops ih =>
    rw [filed, List.flatMap_cons]
    split
    · rw [List.flatten_cons, ih]
    · rw [ih, List.append_assoc]

/-- The current lines stay together, at the head of the first file. -/
theorem exists_filed_eq (s : Files String UInt8 × RotatingFileSink) (current : List Stamped)
    (ops : List Op) :
    ∃ more files, filed s current ops = (current ++ more) :: files := by
  induction ops generalizing s current with
  | nil => exact ⟨[], [], by simp [filed]⟩
  | cons op ops ih =>
    rw [filed]
    split
    · exact ⟨[], _, by rw [List.append_nil]⟩
    · obtain ⟨more, files, h⟩ := ih (op.apply s) (current ++ op.stamped)
      exact ⟨op.stamped ++ more, files, by rw [h, List.append_assoc]⟩

end Filed

/-- Every rotation closes the current file, and the files hold what `filed` says. -/
theorem Timed.run {interval : TimeInterval} {basePath : String}
    {s : Files String UInt8 × RotatingFileSink} {m : ℤ} {groups : List (List Line)}
    {current : List Stamped} (h : Timed interval basePath s m groups (current.map Prod.fst))
    {ops : List Op} (hops : ∀ op ∈ ops, op.NoErrors) :
    ∃ closed last m', filed s current ops = closed ++ [last] ∧
      Timed interval basePath (RotatingFileSink.run s ops) m'
        (groups ++ closed.map (List.map Prod.fst)) (last.map Prod.fst) := by
  induction ops generalizing s m groups current with
  | nil =>
    refine ⟨[], current, m, rfl, ?_⟩
    rw [List.map_nil, List.append_nil]
    exact h
  | cons op ops ih =>
    have hrest : ∀ op' ∈ ops, op'.NoErrors := fun op' hop' => hops op' (by simp [hop'])
    cases op with
    | flush =>
      rw [filed_flush]
      exact ih h.flush hrest
    | write line io =>
      cases hrotates : s.2.wouldExceed line io with
      | false =>
        have hnext := h.stays hrotates
        rw [filed_of_not_rotates hrotates]
        exact ih hnext hrest
      | true =>
        have hnext := h.begins hrotates (hops (.write line io) List.mem_cons_self)
        obtain ⟨closed, last, m', hfiled, htimed⟩ :=
          ih hnext hrest
        rw [List.append_assoc] at htimed
        exact ⟨current :: closed, last, m', by rw [filed_of_rotates hrotates, hfiled]; rfl, htimed⟩

/-! ### Lines of one interval -/

section Separation

variable {interval : TimeInterval} {basePath : String} {s : Files String UInt8 × RotatingFileSink}
  {m : ℤ} {groups : List (List Line)} {current : List Stamped} {ops : List Op}

theorem SameInterval.singleton (a : Stamped) : SameInterval interval [a] := by
  intro b hb c hc
  rw [List.mem_singleton.mp hb, List.mem_singleton.mp hc]

/-- A line joins the lines of its interval. -/
theorem SameInterval.concat_iff {a : Stamped} :
    SameInterval interval (current ++ [a]) ↔
      ∀ b ∈ current, interval.index b.2 = interval.index a.2 := by
  constructor
  · intro hall b hb
    exact hall b (by simp [hb]) a (by simp)
  · intro hsame b hb c hc
    have hindex : ∀ d ∈ current ++ [a], interval.index d.2 = interval.index a.2 := by
      intro d hd
      rcases List.mem_append.mp hd with hd | hd
      · exact hsame d hd
      · rw [List.mem_singleton.mp hd]
    rw [hindex b hb, hindex c hc]

variable (interval) in
/-- The readings of a rotation come before all later ones. -/
theorem index_le_of_rotates {line : Line} {io : Io} (hrotates : s.2.wouldExceed line io = true)
    (hmono : (readings s (.write line io :: ops)).Pairwise (· ≤ ·)) :
    interval.index io.now ≤ interval.index io.rotationNow ∧
      ∀ t ∈ readings (Op.apply s (.write line io)) ops,
        interval.index io.rotationNow ≤ interval.index t := by
  rw [readings, Op.readings, if_pos hrotates, List.pairwise_append] at hmono
  refine ⟨index_mono ((List.pairwise_pair.mp hmono.1)), fun t ht => index_mono ?_⟩
  exact hmono.2.2 io.rotationNow (by simp) t ht

/-- A line that does not rotate separates nothing: the lines before it must be of its interval. -/
theorem separated_of_stays {line : Line} {io : Io} (hindex : interval.index io.now = m)
    (hrotates : s.2.wouldExceed line io = false)
    (ih : SameInterval interval (current ++ [(line, io.now)]) →
      ((∀ file ∈ filed (Op.apply s (.write line io)) (current ++ [(line, io.now)]) ops,
        SameInterval interval file) ↔
      (∀ a ∈ current ++ [(line, io.now)], interval.index a.2 = m ∨
        ∀ next ∈ (ops.flatMap Op.stamped).head?, interval.index next.2 ≠ m) ∧
      RotatesInTime interval (Op.apply s (.write line io)) ops)) :
    (∀ file ∈ filed s current (.write line io :: ops), SameInterval interval file) ↔
      (∀ a ∈ current, interval.index a.2 = m ∨ interval.index io.now ≠ m) ∧
      RotatesInTime interval s (.write line io :: ops) := by
  rw [filed_of_not_rotates hrotates]
  have hin : RotatesInTime interval s (.write line io :: ops) ↔
      RotatesInTime interval (Op.apply s (.write line io)) ops := by
    simp [RotatesInTime, hrotates]
  rw [hin]
  by_cases hsame : ∀ b ∈ current, interval.index b.2 = m
  · have hjoined : SameInterval interval (current ++ [(line, io.now)]) :=
      SameInterval.concat_iff.mpr fun b hb => (hsame b hb).trans hindex.symm
    rw [ih hjoined]
    refine and_congr_left fun _ => iff_of_true (fun a ha => .inl ?_) fun a ha => .inl (hsame a ha)
    rcases List.mem_append.mp ha with ha | ha
    · exact hsame a ha
    · rwa [List.mem_singleton.mp ha]
  · -- a line of another interval is in the same file
    obtain ⟨b, hb, hne⟩ := not_forall₂.mp hsame
    refine iff_of_false (fun hall => hne ?_) fun hright => ?_
    · obtain ⟨more, files, hfiled⟩ := exists_filed_eq (Op.apply s (.write line io))
        (current ++ [(line, io.now)]) ops
      have hfile := hall _ (by rw [hfiled]; exact List.mem_cons_self)
      rw [← hindex]
      exact hfile b (by simp [hb]) (line, io.now) (by simp)
    · exact (hright.1 b hb).elim hne fun hnow => hnow hindex

/-- When the readings are from interval `m` on, the files are separated exactly when the next line
is not put behind lines of another interval, and every rotation is in time. -/
theorem Timed.separated_iff (h : Timed interval basePath s m groups (current.map Prod.fst))
    (hops : ∀ op ∈ ops, op.NoErrors) (hm : 0 ≤ m)
    (hfrom : ∀ t ∈ readings s ops, m ≤ interval.index t)
    (hmono : (readings s ops).Pairwise (· ≤ ·)) (hcurrent : SameInterval interval current) :
    (∀ file ∈ filed s current ops, SameInterval interval file) ↔
      (∀ a ∈ current, interval.index a.2 = m ∨
        ∀ next ∈ (ops.flatMap Op.stamped).head?, interval.index next.2 ≠ m) ∧
      RotatesInTime interval s ops := by
  induction ops generalizing s m groups current with
  | nil => simp [filed, RotatesInTime, hcurrent]
  | cons op ops ih =>
    have hrest : ∀ op' ∈ ops, op'.NoErrors := fun op' hop' => hops op' (by simp [hop'])
    have hmono' : (readings (op.apply s) ops).Pairwise (· ≤ ·) :=
      (List.pairwise_append.mp hmono).2.1
    have hfrom' : ∀ t ∈ readings (op.apply s) ops, m ≤ interval.index t :=
      fun t ht => hfrom t (List.mem_append_right _ ht)
    cases op with
    | flush =>
      rw [filed_flush]
      exact ih h.flush hrest hm hfrom' hmono' hcurrent
    | write line io =>
      have hnow : m ≤ interval.index io.now := by
        refine hfrom io.now ?_
        rw [readings, Op.readings]
        split <;> simp
      have hhead : (∀ a ∈ current, interval.index a.2 = m ∨
          ∀ next ∈ ((Op.write line io :: ops).flatMap Op.stamped).head?,
            interval.index next.2 ≠ m) ↔
          ∀ a ∈ current, interval.index a.2 = m ∨ interval.index io.now ≠ m := by
        simp [Op.stamped]
      rw [hhead]
      cases hrotates : s.2.wouldExceed line io with
      | false =>
        have hindex : interval.index io.now = m := le_antisymm (h.index_le hrotates) hnow
        have hnext := h.stays hrotates
        exact separated_of_stays hindex hrotates (ih hnext hrest hm hfrom' hmono')
      | true =>
        obtain ⟨hle, hlater⟩ := index_le_of_rotates interval hrotates hmono
        have hlt := h.wouldExceed_iff.mp hrotates
        obtain ⟨hafter, hnext⟩ :=
          h.begins_later hrotates (hops (.write line io) List.mem_cons_self) hm hle
        -- the current file is closed, and the line begins the next one
        have hin := ih hnext hrest (hm.trans hafter.le) hlater hmono' (.singleton _)
        rw [filed_of_rotates hrotates, List.forall_mem_cons, hin, RotatesInTime]
        simp only [List.forall_mem_singleton, hrotates, InTime, hcurrent, true_and, forall_const]
        exact ⟨fun hright => ⟨fun a _ => .inr (by omega), hright⟩, fun hright => hright.2⟩

/-- The lines of a time in the intervals up to the first one after the epoch. -/
def uptoFirst (interval : TimeInterval) (lines : List Stamped) : List Stamped :=
  lines.takeWhile fun a => interval.index a.2 ≤ 0

/-- A sink whose deadline is the end of the first interval does not know how long before the epoch a
line was written. -/
theorem Timed.separated_iff_early (h : Timed interval basePath s 0 groups (current.map Prod.fst))
    (hops : ∀ op ∈ ops, op.NoErrors) (hmono : (readings s ops).Pairwise (· ≤ ·)) :
    (∀ file ∈ filed s current ops, SameInterval interval file) ↔
      SameInterval interval (current ++ uptoFirst interval (ops.flatMap Op.stamped)) ∧
      RotatesInTime interval s ops := by
  induction ops generalizing s groups current with
  | nil => simp [filed, RotatesInTime, uptoFirst]
  | cons op ops ih =>
    have hrest : ∀ op' ∈ ops, op'.NoErrors := fun op' hop' => hops op' (by simp [hop'])
    have hmono' : (readings (op.apply s) ops).Pairwise (· ≤ ·) :=
      (List.pairwise_append.mp hmono).2.1
    cases op with
    | flush =>
      rw [filed_flush]
      exact ih h.flush hrest hmono'
    | write line io =>
      cases hrotates : s.2.wouldExceed line io with
      | false =>
        have hle := h.index_le hrotates
        have hnext := h.stays hrotates
        have hupto : uptoFirst interval ((Op.write line io :: ops).flatMap Op.stamped) =
            (line, io.now) :: uptoFirst interval (ops.flatMap Op.stamped) :=
          List.takeWhile_cons_of_pos (by simpa using hle)
        rw [filed_of_not_rotates hrotates, ih hnext hrest hmono', hupto, RotatesInTime,
          List.append_assoc]
        simp [hrotates]
      | true =>
        have hlt := h.wouldExceed_iff.mp hrotates
        have hupto : uptoFirst interval ((Op.write line io :: ops).flatMap Op.stamped) = [] :=
          List.takeWhile_cons_of_neg (by simpa using hlt)
        obtain ⟨hle, hlater⟩ := index_le_of_rotates interval hrotates hmono
        obtain ⟨hafter, hnext⟩ :=
          h.begins_later hrotates (hops (.write line io) List.mem_cons_self) le_rfl hle
        -- the deadline of the next file is after the epoch
        have hin := hnext.separated_iff hrest hafter.le hlater hmono' (.singleton _)
        rw [filed_of_rotates hrotates, List.forall_mem_cons, hin, RotatesInTime, hupto,
          List.append_nil]
        simp only [List.forall_mem_singleton, hrotates, InTime, forall_const]

/-- Without I/O errors and from an empty file, the files of a sink that rotates with time hold the
lines that `filed` says. Each of them has the lines of one interval exactly when every rotation is
in time, and, for a sink that is created before the epoch, no two lines from before the end of the
first interval after it are of different intervals. -/
theorem filed_separated_iff {files : Files String UInt8} {io : Io}
    (hnew : RotatingFileSink.new files basePath (.timeBased interval) io = some s)
    (hempty : (files basePath).getD [] = []) (hops : ∀ op ∈ ops, op.NoErrors)
    (hmono : (io.rotationNow :: readings s ops).Pairwise (· ≤ ·)) :
    (filed s [] ops).flatten = ops.flatMap Op.stamped ∧
    (∀ (i : ℕ) (hi : i < (filed s [] ops).length),
      (run s (ops ++ [.flush])).1
          (if i + 1 < (filed s [] ops).length then rotatedName basePath (i + 1) else basePath) =
        some (joinLines ((filed s [] ops)[i].map Prod.fst))) ∧
    ((∀ file ∈ filed s [] ops, SameInterval interval file) ↔
      RotatesInTime interval s ops ∧ (io.rotationNow < 0 →
        SameInterval interval (uptoFirst interval (ops.flatMap Op.stamped)))) := by
  have htimed : Timed interval basePath s (max (interval.index io.rotationNow) 0) []
      (([] : List Stamped).map Prod.fst) := Timed.new hempty hnew
  obtain ⟨hle, hmono'⟩ := List.pairwise_cons.mp hmono
  refine ⟨flatten_filed s [] ops, fun i hi => ?_, ?_⟩
  · obtain ⟨closed, last, m', hfiled, hlast⟩ := htimed.run hops
    have hrun : run s (ops ++ [.flush]) = (run s ops).2.flush (run s ops).1 := by
      rw [run, List.foldl_append]
      rfl
    have hheading : ∀ n, heading [] n = [] := fun n => by rw [heading, ite_self]
    have hclosed := hlast.archive.flush.rotated
    have hcurrent := hlast.archive.file_flush
    simp only [hheading, List.nil_append] at hclosed hcurrent
    rw [hrun]
    simp only [hfiled, List.length_append, List.length_singleton] at hi ⊢
    split
    · next hlt =>
      -- a closed file
      have hlt' : i < closed.length := by omega
      rw [List.getElem_append_left hlt', hclosed i (by simpa using hlt'), List.getElem_map]
    · next hge =>
      obtain rfl : i = closed.length := by omega
      rw [List.getElem_concat_length rfl]
      exact hcurrent
  · rcases lt_or_ge io.rotationNow 0 with hneg | hpos
    · have hindex : interval.index io.rotationNow ≤ 0 :=
        (index_mono hneg.le).trans (by rw [index, Int.zero_ediv])
      rw [max_eq_right hindex] at htimed
      rw [htimed.separated_iff_early hops hmono', List.nil_append]
      exact ⟨fun hright => ⟨hright.2, fun _ => hright.1⟩, fun hright => ⟨hright.2 hneg, hright.1⟩⟩
    · have hindex : 0 ≤ interval.index io.rotationNow := by
        rw [le_index_iff, zero_mul]
        exact hpos
      rw [max_eq_left hindex] at htimed
      rw [htimed.separated_iff hops hindex (fun t ht => index_mono (hle t ht)) hmono'
        (fun a ha => absurd ha List.not_mem_nil)]
      exact ⟨fun hright => ⟨hright.2, fun hneg => absurd hneg (not_lt.mpr hpos)⟩,
        fun hright => ⟨(fun a ha => absurd ha List.not_mem_nil), hright.1⟩⟩

end Separation

/-- A clock that reads the same twice. -/
def steadyIo (now : SystemTime) : Io :=
  { now, rotationNow := now, renameOk := true, openOk := true }

/-- Two lines at the beginning of the second hour, the first of which rotates. -/
theorem filed_separated_iff_second_hour :
    let ops := [Op.write [65] (steadyIo 3600000000000), .write [66] (steadyIo 3600000000001)]
    ∃ s, RotatingFileSink.new (fun _ => none) "app.log" (.timeBased .hourly) quietIo = some s ∧
      ∀ file ∈ filed s [] ops, SameInterval .hourly file := by
  intro ops
  obtain ⟨s, hnew⟩ : ∃ s, RotatingFileSink.new (fun _ => none) "app.log" (.timeBased .hourly)
      quietIo = some s := ⟨_, rfl⟩
  have hops : ∀ op ∈ ops, op.NoErrors := by
    intro op hop
    simp only [ops, List.mem_cons, List.not_mem_nil, or_false] at hop
    rcases hop with rfl | rfl <;> exact ⟨rfl, rfl⟩
  have hmono : (quietIo.rotationNow :: readings s ops).Pairwise (· ≤ ·) := by
    cases hnew
    decide
  obtain ⟨-, -, hiff⟩ := filed_separated_iff hnew rfl hops hmono
  refine ⟨s, hnew, hiff.mpr ⟨⟨fun _ => .inl rfl, fun _ => .inl rfl, trivial⟩, ?_⟩⟩
  intro hneg
  exact absurd hneg (by decide)

/-- The clock passes the end of the second hour between the two readings of a rotation: a line of
the second hour and one of the third are in one file. -/
theorem hours_share_file :
    let io := { steadyIo 7199999999999 with rotationNow := 7200000000000 }
    let ops := [Op.write [65] io, .write [66] (steadyIo 7200000000000)]
    ∃ s, RotatingFileSink.new (fun _ => none) "app.log" (.timeBased .hourly) quietIo = some s ∧
      (quietIo.rotationNow :: readings s ops).Pairwise (· ≤ ·) ∧
      (run s (ops ++ [.flush])).1 "app.log" = some [65, 10, 66, 10] ∧
      TimeInterval.hourly.index io.now ≠ TimeInterval.hourly.index 7200000000000 := by
  refine ⟨_, rfl, ?_, ?_, ?_⟩
  · decide
  · decide
  · decide

end RotatingFileSink

end RapidLog
