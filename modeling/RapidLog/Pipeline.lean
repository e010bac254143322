import RapidLog.Backend.Steps
import RapidLog.CallSite
import RapidLog.Arg.Shipped
import RapidLog.Formatter

/-!
# From the log macro to the sinks

The parts of the program put together: the log macros with the statics of their call sites, the
queues, the workers, and the text that a worker makes of a message. `step` is the machine of the
backend with two things added. A call goes through the stages of `log_impl!` at the call site of its
metadata before it pushes, interleaved with the calls of other threads at the same call site. And a
worker that has checked a message formats it with what the statics of its call site hold by then,
before it writes the text to the sinks of the logger.

The arguments of a call are values: an expression that is evaluated several times gives the same
value each time. The timestamps are those of the system clock, which `to_display_nanos` returns as
they are.
-/

namespace RapidLog

open Backend

/-- What a thread logs with one call of a log macro. -/
structure Call where
  timestampNs : UInt64
  metadataPtr : UInt64
  loggerPtr : UInt64
  args : List Logged.Value

namespace Call

/-- The execution of the macro, when the level of the logger is `logLevel`. -/
def execution (call : Call) (logLevel : LogLevel) : CallSite.Execution where
  logLevel
  args := call.args.map fun q => ⟨q.1.impl, q.2⟩

/-- `_payloads_size`, where the sum is a `usize`. -/
def payloadsSize (call : Call) : ℕ := (call.args.map fun q => q.1.impl.encodedSize q.2).sum

/-- The part of the closure behind the header. -/
def encodeArgs (call : Call) : SliceWriter UInt8 :=
  .all (call.args.map fun q => q.1.impl.encodeTo q.2)

/-- The closure writes all arguments into the space that is reserved for them; otherwise it
panics. -/
def Fits (call : Call) : Prop :=
  (call.encodeArgs.run (List.replicate call.payloadsSize 0)).isSome

instance (call : Call) : Decidable call.Fits := inferInstanceAs (Decidable (_ = true))

/-- What the call asks the queue to accept. Where the closure would panic the buffer is left as it
is; the runs below have no such call. -/
def logCall (call : Call) : LogCall where
  timestampNs := call.timestampNs
  metadataPtr := call.metadataPtr
  loggerPtr := call.loggerPtr
  payloadsSize := call.payloadsSize
  encodeArgs :=
    { run := fun buf => (((call.encodeArgs.run buf).map Prod.fst).getD buf, ())
      length_run := fun buf => by
        cases hrun : call.encodeArgs.run buf with
        | none => rfl
        | some x => exact call.encodeArgs.length_run hrun }

end Call

/-- A call that has passed the level check: the level it read, and where it stands. -/
structure Progress where
  call : Call
  logLevel : LogLevel
  phase : CallSite.Phase

def Progress.execution (p : Progress) : CallSite.Execution := p.call.execution p.logLevel

/-- The next stage of the macro, a step of its call site with this execution alone. -/
def Progress.advance (metadata : Metadata) (p : Progress) (site : CallSite) :
    Option (CallSite × CallSite.Phase) :=
  let s : CallSite.State Unit := { site, phase := fun _ => p.phase, queued := [], formatted := [] }
  (s.advance metadata (fun _ => p.execution) ()).map fun s => (s.site, s.phase ())

/-- A text that has been written to a sink, with the worker and the message that it is of. -/
structure Written (τ : Type) where
  worker : ℕ
  raw : Raw τ
  sink : ℕ
  text : String

namespace Pipeline

/-- `backend` leaves the texts out. -/
structure State (τ : Type) where
  backend : Backend.State τ
  /-- The statics of the call sites, by the address of their metadata. -/
  sites : UInt64 → CallSite
  /-- The calls that have passed the level check and have not pushed yet. -/
  calling : τ → Option Progress
  /-- The calls that have reached the queue, in that order. -/
  pushed : List (τ × Call)
  /-- `pattern_formatter` of the options of each worker. -/
  formatters : ℕ → Option PatternFormatter
  /-- `formatted`, the text of the message that each worker is writing. -/
  formatted : ℕ → String
  written : List (Written τ)
  /-- `format_message` of some worker has panicked. -/
  panicked : Bool

inductive Event (τ : Type)
  /-- The level check of a call. -/
  | logCheck (t : τ) (call : Call)
  /-- The next stage of the macro that `t` is in. -/
  | advance (t : τ)
  | logPush (t : τ)
  | start (minBatchSize : ℕ) (patternFormatter : Option PatternFormatter)
  | checkFilters (w : ℕ)
  | writeSink (w : ℕ)
  /-- Any other step of the backend. -/
  | backend (e : Backend.Event τ)

def init {τ : Type} (loggers : UInt64 → Logger) : State τ where
  backend := Backend.init loggers
  sites _ := {}
  calling _ := none
  pushed := []
  formatters _ := none
  formatted _ := ""
  written := []
  panicked := false

/-- The steps of the backend that have nothing to do with the macros or with texts. -/
def isPlain {τ : Type} : Backend.Event τ → Bool
  | .logCheck .. | .logPush _ | .start _ | .checkFilters _ | .writeSink _ => false
  | .thread _ | .setLogLevel .. | .addFilter .. | .clearFilters _ | .stop _ | .loadStop ..
  | .pollBegin _ | .pollStep _ | .pollEnd _ | .sort .. | .next _ => true

variable [Target] [FloatDisplay] [Calendar] {τ : Type} [DecidableEq τ]

/-- `format_message` of a worker on the message that it is about to write. -/
def State.format (env : Env) (s : State τ) (w : ℕ) (cur : Decoded τ) : Option String :=
  formatMessage some (env.metas cur.1.metadataPtr) (s.sites cur.1.metadataPtr).provided cur.1
    (payload cur.2) (s.formatters w)

/-- One step of a thread or of a worker. -/
def step (env : Env) : Machine (State τ) (Event τ)
  | s, .logCheck t call =>
    match s.calling t with
    -- the thread is in another call
    | some _ => none
    | none =>
      let logLevel := (s.backend.loggers call.loggerPtr).logLevel
      let progress := if (call.execution logLevel).Enabled (env.metas call.metadataPtr).level then
        some { call, logLevel, phase := .testSchemas } else none
      (Backend.step env s.backend (.logCheck t call.logCall)).map fun backend =>
        { s with backend, calling := Function.update s.calling t progress }
  | s, .advance t =>
    match s.calling t with
    | some p =>
      let ptr := p.call.metadataPtr
      (p.advance (env.metas ptr) (s.sites ptr)).map fun (site, phase) =>
        { s with
          sites := Function.update s.sites ptr site
          calling := Function.update s.calling t (some { p with phase }) }
    | none => none
  | s, .logPush t =>
    match s.calling t with
    | some p =>
      if p.phase = .push then
        (Backend.step env s.backend (.logPush t)).map fun backend =>
          { s with
            backend
            calling := Function.update s.calling t none
            pushed := s.pushed ++ [(t, p.call)] }
      else none
    | none => none
  | s, .start minBatchSize patternFormatter =>
    let options := { minBatchSize, formatMessage := fun _ _ => "" }
    (Backend.step env s.backend (.start options)).map fun backend =>
      { s with
        backend
        formatters := Function.update s.formatters s.backend.started patternFormatter }
  | s, .checkFilters w =>
    (Backend.step env s.backend (.checkFilters w)).map fun backend =>
      match (backend.workers w).phase with
      | .writing cur _ _ _ _ =>
        match s.format env w cur with
        | some text => { s with backend, formatted := Function.update s.formatted w text }
        | none => { s with backend, panicked := true }
      -- the message has not passed
      | _ => { s with backend }
  | s, .writeSink w =>
    (Backend.step env s.backend (.writeSink w)).map fun backend =>
      match (s.backend.workers w).phase with
      | .writing cur _ _ (sink :: _) _ =>
        { s with backend, written := s.written ++ [⟨w, cur.2, sink, s.formatted w⟩] }
      -- the message has been written to all sinks
      | _ => { s with backend }
  | s, .backend e =>
    if isPlain e then
      (Backend.step env s.backend e).map fun backend => { s with backend }
    else none

end Pipeline

end RapidLog
