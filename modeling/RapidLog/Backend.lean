import RapidLog.Logger
import RapidLog.Message
import RapidLog.ThreadContext.Steps

/-!
# The backend

`backend.rs` and the log macros: the threads, the registry of their rings and any number of
workers. A worker polls until it has a batch, decodes and sorts it by timestamp, and hands each
message that passes the level and the filters of its logger to the sinks of that logger.

`step` interleaves the threads, the callers of `stop`, the changes to the loggers and the workers.
A worker takes one step for each load of its stop signal, each step of a poll, each sort, each read
of a level or of the filters, and each write to a sink. The signal is an `AtomicBool` with relaxed
ordering, so a worker may load it without seeing a `stop` that has been called.

The text that `format_message` makes of a message is a parameter of the worker: these are the runs
in which it does not panic. `Unwinding.step` makes the text with `format_message` itself and has its
panics. Filters and sinks do not panic.
-/

namespace RapidLog

variable [Target] {τ : Type} [DecidableEq τ]

/-- What a thread logs with one call of a log macro. The closure of the macro reads the timestamp
when the queue runs it. -/
structure LogCall where
  timestampNs : UInt64
  metadataPtr : UInt64
  loggerPtr : UInt64
  /-- The sum of the `encoded_size` of the arguments, in the runs in which it is a `usize`. -/
  payloadsSize : ℕ
  /-- The `encode_to` of the arguments, one after the other. -/
  encodeArgs : EncodeFn Unit

namespace LogCall

omit [Target] in
def header (call : LogCall) : ArchivedHeader :=
  .new call.timestampNs call.metadataPtr call.loggerPtr

/-- The closure of `log_impl!`. -/
def encode (call : LogCall) : EncodeFn Unit where
  run buf :=
    -- a buffer without room for a header would panic; `push_encoded` never lends one
    if ArchivedHeader.headerSize ≤ buf.length then
      (call.header.serializeInto (buf.take ArchivedHeader.headerSize) ++
        (call.encodeArgs.run (buf.drop ArchivedHeader.headerSize)).1, ())
    else (buf, ())
  length_run buf := by
    split
    · next hlen =>
      have htake : (buf.take ArchivedHeader.headerSize).length = ArchivedHeader.headerSize := by
        rw [List.length_take, min_eq_left hlen]
      rw [List.length_append, ArchivedHeader.length_serializeInto _ htake.ge, htake,
        EncodeFn.length_run, List.length_drop]
      omega
    · rfl

/-- What the macro asks the queue to accept. -/
def request (call : LogCall) : Request :=
  .pushEncoded (ArchivedHeader.headerSize + call.payloadsSize) call.encode

/-- Every message that the closure writes decodes to the header of its call. -/
theorem decode_encode (call : LogCall) {buf : List UInt8}
    (hlen : buf.length = ArchivedHeader.headerSize + call.payloadsSize) :
    ArchivedHeader.decode (call.encode.run buf).1 = some call.header := by
  have hle : ArchivedHeader.headerSize ≤ buf.length := by omega
  have htake : (buf.take ArchivedHeader.headerSize).length = ArchivedHeader.headerSize := by
    rw [List.length_take, min_eq_left hle]
  have hrun : (call.encode.run buf).1 = call.header.bytes ++
      (call.encodeArgs.run (buf.drop ArchivedHeader.headerSize)).1 := by
    simp only [encode, if_pos hle, ArchivedHeader.serializeInto_eq _ htake.ge]
    rw [List.drop_of_length_le htake.le, List.append_nil]
  rw [hrun, ArchivedHeader.decode_bytes_append]
  rfl

end LogCall

structure BackendOptions where
  minBatchSize : ℕ
  /-- `format_message` under the `pattern_formatter` of the options. -/
  formatMessage : ArchivedHeader → List UInt8 → String

/-- `DEFAULT_MIN_BATCH_SIZE`. -/
def defaultMinBatchSize : ℕ := 256

/-- A queued message, with the thread whose ring it came from. -/
abbrev Raw (τ : Type) := Option τ × List UInt8

/-- A message of a batch with its header. -/
abbrev Decoded (τ : Type) := ArchivedHeader × Raw τ

/-- `ArchivedHeader::decode` in the `filter_map` of the worker. -/
def decodeRaw (raw : Raw τ) : Option (Decoded τ) :=
  (ArchivedHeader.decode raw.2).map fun header => (header, raw)

/-- Where a worker stands in `worker_loop`. -/
inductive WorkerPhase (τ : Type)
  /-- At the head of the outer loop, about to load the stop signal. -/
  | loopHead
  /-- In the first poll of a batch. -/
  | firstPoll
  /-- At the head of the inner loop with a batch that is too small, about to load the signal. -/
  | batchHead (rawMessages : List (Raw τ))
  /-- In a further poll for the batch. -/
  | morePoll (rawMessages : List (Raw τ))
  /-- About to decode and sort the batch. -/
  | sorting (rawMessages : List (Raw τ))
  /-- At the head of the loop over the decoded batch. -/
  | dispatching (rest : List (Decoded τ))
  /-- The message is not below the level; its filters are about to be read. -/
  | filtering (cur : Decoded τ) (level : LogLevel) (rest : List (Decoded τ))
  /-- The message has passed; it is being written to the sinks that are left. -/
  | writing (cur : Decoded τ) (level : LogLevel) (filters : List Filter) (sinks : List ℕ)
      (rest : List (Decoded τ))
  | exited

structure Worker (τ : Type) where
  options : BackendOptions
  /-- `stop` has been called on the handle. -/
  stopSignal : Bool
  phase : WorkerPhase τ

/-- What a worker made of a message, with the level and the filters it read from the logger. -/
inductive Verdict
  | belowLevel (level : LogLevel)
  | filtered (level : LogLevel) (filters : List Filter)
  | passed (level : LogLevel) (filters : List Filter)

/-- A message that a worker has finished with. -/
structure Handled (τ : Type) where
  worker : ℕ
  header : ArchivedHeader
  raw : Raw τ
  verdict : Verdict

/-- A call of a method of a sink. -/
inductive SinkCall (τ : Type)
  /-- `write`, with the worker and the message that it is about. -/
  | write (worker : ℕ) (raw : Raw τ) (sink : ℕ) (formatted : String)
  | flush (worker : ℕ) (sink : ℕ)
  deriving DecidableEq

def SinkCall.worker : SinkCall τ → ℕ
  | write worker .. | flush worker _ => worker

namespace Backend

/-- What the run does not change. -/
structure Env where
  /-- The metadata of the call sites, by address. -/
  metas : UInt64 → Metadata
  /-- What the memory of a new ring holds. -/
  uninit : ℕ → ℕ → UInt8

/-- The loggers are the ones that are created at any time in the run, by address; they are never
freed. -/
structure State (τ : Type) where
  tc : ThreadContext.State τ
  loggers : UInt64 → Logger
  /-- The calls of a thread that have passed the level check of `log_impl!` and are about to
  push. -/
  calling : τ → Option LogCall
  workers : ℕ → Worker τ
  started : ℕ
  /-- The calls that have reached the queue, in that order. -/
  logged : List (τ × LogCall)
  handled : List (Handled τ)
  sinkCalls : List (SinkCall τ)

inductive Event (τ : Type)
  /-- A step of a thread that is not a log call reaching the queue. -/
  | thread (e : ThreadContext.Event τ)
  /-- The level check of `log_impl!`. -/
  | logCheck (t : τ) (call : LogCall)
  /-- `push_encoded` of a call that has passed the level check. -/
  | logPush (t : τ)
  | setLogLevel (logger : UInt64) (level : LogLevel)
  | addFilter (logger : UInt64) (filter : Filter)
  | clearFilters (logger : UInt64)
  | start (options : BackendOptions)
  | stop (w : ℕ)
  /-- The worker loads its stop signal; `seen` says what it reads. -/
  | loadStop (w : ℕ) (seen : Bool)
  | pollBegin (w : ℕ)
  | pollStep (w : ℕ)
  | pollEnd (w : ℕ)
  /-- The worker decodes its batch and sorts it; `decoded` says in which order. -/
  | sort (w : ℕ) (decoded : List (Decoded τ))
  /-- The worker takes the next message of its batch and checks its level. -/
  | next (w : ℕ)
  | checkFilters (w : ℕ)
  /-- The worker writes the message to the next sink, or has written it to all. -/
  | writeSink (w : ℕ)

def init (loggers : UInt64 → Logger) : State τ where
  tc := ThreadContext.init
  loggers := loggers
  calling _ := none
  workers _ :=
    { options := { minBatchSize := defaultMinBatchSize, formatMessage := fun _ _ => "" }
      stopSignal := false
      phase := .loopHead }
  started := 0
  logged := []
  handled := []
  sinkCalls := []

namespace State

def setPhase (s : State τ) (w : ℕ) (phase : WorkerPhase τ) : State τ :=
  { s with workers := Function.update s.workers w { s.workers w with phase } }

def setLogger (s : State τ) (ptr : UInt64) (logger : Logger) : State τ :=
  { s with loggers := Function.update s.loggers ptr logger }

/-- The worker is done with a message. -/
def finish (s : State τ) (w : ℕ) (cur : Decoded τ) (verdict : Verdict)
    (rest : List (Decoded τ)) : State τ :=
  { s.setPhase w (.dispatching rest) with
    handled := s.handled ++ [{ worker := w, header := cur.1, raw := cur.2, verdict }] }

end State

/-- The head of the inner loop. The stop signal is loaded only when the batch is too small. -/
def gather (options : BackendOptions) (rawMessages : List (Raw τ)) : WorkerPhase τ :=
  if rawMessages.length < options.minBatchSize then .batchHead rawMessages else .sorting rawMessages

/-- `&data[HEADER_SIZE..]` -/
def payload (raw : Raw τ) : List UInt8 := raw.2.drop ArchivedHeader.headerSize

/-- `decoded` is a result of `sort_unstable_by_key` on the messages that decode: some order that is
sorted by timestamp. -/
def Sorted (rawMessages : List (Raw τ)) (decoded : List (Decoded τ)) : Prop :=
  decoded.Perm (rawMessages.filterMap decodeRaw) ∧
    decoded.Pairwise fun a b => a.1.timestampNs ≤ b.1.timestampNs

instance (rawMessages : List (Raw τ)) (decoded : List (Decoded τ)) :
    Decidable (Sorted rawMessages decoded) :=
  inferInstanceAs (Decidable (_ ∧ _))

/-- The end of a poll by a worker: what it does with the messages. -/
def afterPoll (worker : Worker τ) (msgs : List (Raw τ)) : Option (WorkerPhase τ) :=
  match worker.phase with
  | .firstPoll =>
    -- `thread::sleep` and `continue`
    if msgs.isEmpty then some .loopHead else some (gather worker.options msgs)
  | .morePoll rawMessages =>
    if msgs.isEmpty then some (.sorting rawMessages)
    else some (gather worker.options (rawMessages ++ msgs))
  | _ => none

/-- One step of a worker that has been started, other than the steps of its polls. -/
def workerStep (env : Env) (s : State τ) (w : ℕ) : Event τ → Option (State τ)
  | .loadStop _ seen =>
    -- a load may miss a store of another thread, but never sees one that has not happened
    if seen && !(s.workers w).stopSignal then none else
    match (s.workers w).phase with
    | .loopHead => some (s.setPhase w (if seen then .exited else .firstPoll))
    | .batchHead rawMessages =>
      some (s.setPhase w (if seen then .sorting rawMessages else .morePoll rawMessages))
    | _ => none
  | .sort _ decoded =>
    match (s.workers w).phase with
    | .sorting rawMessages =>
      if Sorted rawMessages decoded then some (s.setPhase w (.dispatching decoded)) else none
    | _ => none
  | .next _ =>
    match (s.workers w).phase with
    | .dispatching [] => some (s.setPhase w .loopHead)
    | .dispatching (cur :: rest) =>
      -- the level of the logger now, not when the message was logged
      let level := (s.loggers cur.1.loggerPtr).logLevel
      if (env.metas cur.1.metadataPtr).meetsLevel level then
        some (s.setPhase w (.filtering cur level rest))
      else
        some (s.finish w cur (.belowLevel level) rest)
    | _ => none
  | .checkFilters _ =>
    match (s.workers w).phase with
    | .filtering cur level rest =>
      -- the filters may have changed since the level was read
      let logger := s.loggers cur.1.loggerPtr
      if (env.metas cur.1.metadataPtr).passesFilters logger.filters (payload cur.2) then
        some (s.setPhase w (.writing cur level logger.filters logger.sinks rest))
      else
        some (s.finish w cur (.filtered level logger.filters) rest)
    | _ => none
  | .writeSink _ =>
    match (s.workers w).phase with
    | .writing cur level filters (sink :: sinks) rest =>
      let formatted := (s.workers w).options.formatMessage cur.1 (payload cur.2)
      some
        { s.setPhase w (.writing cur level filters sinks rest) with
          sinkCalls := s.sinkCalls ++ [.write w cur.2 sink formatted] }
    | .writing cur level filters [] rest => some (s.finish w cur (.passed level filters) rest)
    | _ => none
  | _ => none

/-- One step of a thread, of a caller of `stop`, of a change to a logger or of a worker. -/
def step (env : Env) : Machine (State τ) (Event τ)
  | s, .thread e =>
    if e.isThreadStep then
      (ThreadContext.step env.uninit s.tc e).map fun tc => { s with tc }
    else none
  | s, .logCheck t call =>
    -- a call that is not enabled goes no further
    let logger := s.loggers call.loggerPtr
    let enabled := logger.logLevel.asUsize ≤ (env.metas call.metadataPtr).level.asUsize
    some { s with calling := Function.update s.calling t (if enabled then some call else none) }
  | s, .logPush t =>
    match s.calling t with
    | some call =>
      (ThreadContext.step env.uninit s.tc (.attempt t call.request)).map fun tc =>
        { s with
          tc
          calling := Function.update s.calling t none
          logged := s.logged ++ [(t, call)] }
    | none => none
  | s, .setLogLevel ptr level => some (s.setLogger ptr ((s.loggers ptr).setLogLevel level))
  | s, .addFilter ptr filter => some (s.setLogger ptr ((s.loggers ptr).addFilter filter))
  | s, .clearFilters ptr => some (s.setLogger ptr (s.loggers ptr).clearFilters)
  | s, .start options =>
    some
      { s with
        workers := Function.update s.workers s.started
          { options, stopSignal := false, phase := .loopHead }
        started := s.started + 1 }
  | s, .stop w =>
    if w < s.started then
      some
        { s with
          workers := Function.update s.workers w { s.workers w with stopSignal := true } }
    else none
  | s, .pollBegin w =>
    if w < s.started then
      match (s.workers w).phase with
      | .firstPoll | .morePoll _ =>
        (ThreadContext.step env.uninit s.tc (.pollBegin w)).map fun tc => { s with tc }
      | _ => none
    else none
  | s, .pollStep w =>
    match s.tc.poll with
    | some p =>
      if p.poller = w then
        (ThreadContext.step env.uninit s.tc .pollStep).map fun tc => { s with tc }
      else none
    | none => none
  | s, .pollEnd w =>
    match s.tc.poll with
    | some p =>
      if p.poller = w then
        (ThreadContext.step env.uninit s.tc .pollEnd).bind fun tc =>
          (afterPoll (s.workers w) p.allMsgs).map fun phase => { s.setPhase w phase with tc }
      else none
    | none => none
  | s, .loadStop w seen => if w < s.started then workerStep env s w (.loadStop w seen) else none
  | s, .sort w decoded => if w < s.started then workerStep env s w (.sort w decoded) else none
  | s, .next w => if w < s.started then workerStep env s w (.next w) else none
  | s, .checkFilters w => if w < s.started then workerStep env s w (.checkFilters w) else none
  | s, .writeSink w => if w < s.started then workerStep env s w (.writeSink w) else none

end Backend

end RapidLog
