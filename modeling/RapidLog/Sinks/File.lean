import RapidLog.Lib.Handles
import RapidLog.Sinks.Rotating

/-!
# The file sink

`sinks/file.rs`: any number of sinks, on any paths, over one file system. Each sink has its own
handle and its own buffer, and its lock is held from the beginning of a call to the end of it. The
calls of different sinks interleave at each call of the system; the system may take any number of
bytes of those that it is offered, or report an error, which every method ignores.

A byte in a file is kept with the sink that wrote it. Nothing else touches the files.
-/

namespace RapidLog

/-- Whether to append to an existing file or truncate it. -/
inductive FileMode
  | append
  | truncate
  deriving DecidableEq, Repr

/-- The methods that hold the lock; dropping a sink flushes its writer. -/
inductive FileCall
  | write
  | flush
  | drop
  deriving DecidableEq, Repr

/-- `file` and `handle` are the `BufWriter` and the `File` in it. -/
structure FileSink (α : Type) where
  file : Buffered α
  handle : Handle
  path : String
  /-- The call that holds the lock. -/
  call : Option FileCall

namespace FileSink

variable {α ι : Type}

/-- `new`; `none` when the file cannot be opened. -/
def new (files : Files String α) (path : String) (mode : FileMode) (openOk : Bool) :
    Option (Files String α × FileSink α) :=
  let sink (handle : Handle) : FileSink α :=
    { file := { capacity := defaultBufSize, buf := [], tasks := [] }, handle, path, call := none }
  if openOk then
    match mode with
    | .append => some (files.create path, sink .append)
    | .truncate => some (Function.update files path (some []), sink (.positioned 0))
  else none

/-- `writeln!(file, "{formatted}")`: the line and the newline are written one after the other. -/
def write (sink : FileSink α) (formatted : List α) (newline : α) : FileSink α :=
  { sink with
    file := { sink.file with tasks := [.writeAll formatted, .writeAll [newline]] }
    call := some .write }

def flush (sink : FileSink α) : FileSink α :=
  { sink with file := { sink.file with tasks := [.flushBuf []] }, call := some .flush }

def drop (sink : FileSink α) : FileSink α :=
  { sink with file := { sink.file with tasks := [.flushBuf []] }, call := some .drop }

/-- A byte with the sink that wrote it; `none` for what was in a file before. -/
abbrev OwnedByte (ι : Type) := Option ι × UInt8

structure State (ι : Type) where
  files : Files String (OwnedByte ι)
  /-- The sinks that have not been dropped. -/
  sinks : ι → Option (FileSink (OwnedByte ι))
  /-- The path that a sink has been opened on. -/
  paths : ι → Option String
  /-- The lines of the `write` calls of a sink. -/
  logged : ι → List Line
  /-- What the system has taken from a sink. -/
  taken : ι → List UInt8
  /-- A sink has ignored an error. -/
  failed : ι → Bool
  /-- A call of `flush` has come to its end without an error, and no line has been written since. -/
  flushed : ι → Bool
  /-- What was in a file before the sinks, unless one has truncated it. -/
  base : String → List (OwnedByte ι)
  /-- The sinks that have been opened on a path since it was truncated for the last time. -/
  opened : String → List ι

inductive Event (ι : Type)
  | new (i : ι) (path : String) (mode : FileMode) (openOk : Bool)
  | write (i : ι) (formatted : Line)
  | flush (i : ι)
  | drop (i : ι)
  /-- The call that holds the lock of a sink goes on; the system takes `n` bytes if it is asked. -/
  | run (i : ι) (n : ℕ)
  /-- The system is asked to take bytes, and reports an error. -/
  | fail (i : ι)

def unowned (xs : List UInt8) : List (OwnedByte ι) := xs.map fun x => (none, x)

def owned (i : ι) (xs : List UInt8) : List (OwnedByte ι) := xs.map fun x => (some i, x)

def init (files : Files String UInt8) : State ι where
  files path := (files path).map unowned
  sinks _ := none
  paths _ := none
  logged _ := []
  taken _ := []
  failed _ := false
  flushed _ := false
  base path := unowned ((files path).getD [])
  opened _ := []

variable [DecidableEq ι]

/-- A call of the sink `i` begins. -/
def State.begin (s : State ι) (i : ι)
    (call : FileSink (OwnedByte ι) → FileSink (OwnedByte ι)) : Option (State ι) :=
  match s.sinks i with
  | some sink =>
    -- a thread waits while another one has the lock
    if sink.call = none then some { s with sinks := Function.update s.sinks i (some (call sink)) }
    else none
  | none => none

/-- A sink after the end of a call; the last one drops it. -/
def ended (sink : FileSink α) : Option (FileSink α) :=
  if sink.call = some .drop then none else some { sink with call := none }

/-- The call that holds the lock of the sink `i` has come to its end, with or without an error. -/
def State.finish (s : State ι) (i : ι) (sink : FileSink (OwnedByte ι)) (ok : Bool) : State ι :=
  { s with
    sinks := Function.update s.sinks i sink.ended
    failed := Function.update s.failed i (s.failed i || !ok)
    flushed := Function.update s.flushed i (s.flushed i || (ok && sink.call == some .flush)) }

/-- The system takes bytes; it is not asked when there are none. -/
def writeOut (sink : FileSink (OwnedByte ι)) (content out : List (OwnedByte ι)) :
    List (OwnedByte ι) × Handle :=
  if out = [] then (content, sink.handle) else sink.handle.write (none, 0) content out

def step : Machine (State ι) (Event ι)
  | s, .new i path mode openOk =>
    if s.paths i = none then
      (new s.files path mode openOk).map fun (files, sink) =>
        { s with
          files
          sinks := Function.update s.sinks i (some sink)
          paths := Function.update s.paths i (some path)
          base := if mode = .truncate then Function.update s.base path [] else s.base
          opened := Function.update s.opened path
            (if mode = .truncate then [i] else i :: s.opened path) }
    else none
  | s, .write i formatted =>
    (s.begin i fun sink => sink.write (owned i formatted) (some i, 10)).map fun s =>
      { s with
        logged := Function.update s.logged i (s.logged i ++ [formatted])
        flushed := Function.update s.flushed i false }
  | s, .flush i => s.begin i flush
  | s, .drop i => s.begin i drop
  | s, .run i n =>
    match s.sinks i with
    | some sink =>
      (sink.file.step n).map fun (out, file) =>
        let (content, handle) := sink.writeOut ((s.files sink.path).getD []) out
        let s :=
          { s with
            files := Function.update s.files sink.path (some content)
            taken := Function.update s.taken i (s.taken i ++ out.map Prod.snd) }
        let sink := { sink with file, handle }
        if file.tasks = [] then s.finish i sink true
        else { s with sinks := Function.update s.sinks i (some sink) }
    | none => none
  | s, .fail i =>
    match s.sinks i with
    | some sink =>
      if sink.file.Calls then some (s.finish i { sink with file := sink.file.abort } false)
      else none
    | none => none

end FileSink

end RapidLog
