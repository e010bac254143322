import RapidLog.Backend.Unwinding
import RapidLog.CallSite
import RapidLog.Derive

/-!
# The backend neither loses nor repeats a message

For any number of threads and backends and any interleaving of their steps with changes to the
loggers, every accepted message is in one place: in a registered ring, in the batch of one worker,
or handled. A worker has called the sinks for the messages it has handled and for the one it is at,
and for no other.

A worker on which `format_message` panics drops its batch, and with it messages that have been
accepted.

## Main results

* `conserved`: what holds in every state of every run without such a panic (`Conserved`).
-/

namespace RapidLog

open Queue

variable [Target] {τ : Type} [DecidableEq τ]

namespace Backend

/-- The batch of a worker: the messages it is not done with, and what its running poll has
popped. -/
def State.batch (s : State τ) (w : ℕ) : List (Raw τ) :=
  (s.workers w).phase.held ++
    match s.tc.poll with
    | some p => if p.poller = w then p.allMsgs else []
    | none => []

/-- Where a worker checks the level of a message, and the level of the logger there. -/
def LevelRead (w : ℕ) (cur : Decoded τ) (level : LogLevel) (s : State τ) : Prop :=
  (∃ rest, (s.workers w).phase = .dispatching (cur :: rest)) ∧
    (s.loggers cur.1.loggerPtr).logLevel = level

/-- Where a worker checks the filters of a message, and the filters of the logger there. -/
def FiltersRead (w : ℕ) (cur : Decoded τ) (filters : List Filter) (s : State τ) : Prop :=
  (∃ level rest, (s.workers w).phase = .filtering cur level rest) ∧
    (s.loggers cur.1.loggerPtr).filters = filters

/-- The run went through the states in which the level and the filters of the verdict were read. -/
def VerdictRead (passed : (State τ → Prop) → Prop) (w : ℕ) (cur : Decoded τ) : Verdict → Prop
  | .belowLevel level => passed (LevelRead w cur level)
  | .filtered level filters | .passed level filters =>
    passed (LevelRead w cur level) ∧ passed (FiltersRead w cur filters)

/-- What holds of the messages and the sinks in a state, when `passed` are the properties of the
states that the run went through. -/
structure Conserved (env : Env) (passed : (State τ → Prop) → Prop) (s : State τ) : Prop where
  /-- Every write stayed in the slices reserved for it. -/
  faulted : s.tc.faulted = false
  /-- An accepted message decodes to the header of the call that logged it. -/
  logged : ∀ raw ∈ s.tc.accepted, ∃ t call, raw.1 = some t ∧ (t, call) ∈ s.logged ∧
    ArchivedHeader.decode raw.2 = some call.header
  /-- Every accepted message is in a registered ring, in one batch, or handled. -/
  places : s.tc.accepted.Perm
    (s.tc.inRings ++ (List.range s.started).flatMap s.batch ++ s.handled.map Handled.raw)
  /-- A handled message was judged by the level and the filters of its logger. -/
  verdicts : ∀ r ∈ s.handled, ArchivedHeader.decode r.raw.2 = some r.header ∧
    r.verdict.Agrees (env.metas r.header.metadataPtr) (payload r.raw) ∧
    VerdictRead passed r.worker (r.header, r.raw) r.verdict
  /-- A worker has written the messages it has handled that passed, each once to every sink of its
  logger in their order, and then the message it is at to some of them. -/
  writes : ∀ w, s.callsOf w = (s.handledBy w).flatMap s.expectedCalls ++ s.begun w
  /-- A worker that has exited holds nothing. -/
  exited : ∀ w < s.started, (s.workers w).phase = .exited → s.batch w = [] ∧ s.begun w = []
  /-- Once all workers have exited, the messages that are not handled are those in the rings. -/
  left : (∀ w < s.started, (s.workers w).phase = .exited) →
    s.tc.accepted.Perm (s.tc.inRings ++ s.handled.map Handled.raw)

section

variable {env : Env} {s₀ s s' : State τ} {w : ℕ}

/-- All batches together: what the workers hold and what a running poll has popped. -/
theorem Inv.batches_perm (h : Inv env s) :
    ((List.range s.started).flatMap s.batch).Perm (s.tc.inFlight ++ s.held) := by
  cases hp : s.tc.poll with
  | none =>
    have hsame : s.batch = fun w => (s.workers w).phase.held := by
      funext w
      simp [State.batch, hp]
    rw [ThreadContext.State.inFlight, hp, hsame]
    exact .rfl
  | some p =>
    rw [ThreadContext.inFlight_of_poll hp]
    refine FlatMap.perm_of_ne p.allMsgs (h.polling p hp).1 ?_ fun j hj => ?_
    · simp only [State.batch, hp, if_true]
      exact List.perm_append_comm
    · simp [State.batch, hp, Ne.symm hj]

/-- Every accepted message is in one place. -/
theorem Inv.places (h : Inv env s) : s.tc.accepted.Perm
    (s.tc.inRings ++ (List.range s.started).flatMap s.batch ++ s.handled.map Handled.raw) := by
  have howned : ∀ raw ∈ s.tc.accepted, ∃ t, raw.1 = some t := by
    intro raw hraw
    obtain ⟨t, -, ht, -⟩ := h.accepted raw hraw
    exact ⟨t, ht⟩
  refine (h.tc.accepted_perm howned).trans (List.perm_append_comm.trans ?_)
  rw [List.append_assoc]
  refine List.Perm.append_left _ ?_
  -- what polls have handed out is in a batch or handled, what they hold is in a batch
  calc (s.tc.polled ++ s.tc.inFlight).Perm (s.tc.inFlight ++ s.tc.polled) := List.perm_append_comm
    List.Perm _ (s.tc.inFlight ++ (s.held ++ s.handled.map Handled.raw)) := h.taken.append_left _
    _ = (s.tc.inFlight ++ s.held) ++ s.handled.map Handled.raw := (List.append_assoc ..).symm
    List.Perm _ ((List.range s.started).flatMap s.batch ++ s.handled.map Handled.raw) :=
      h.batches_perm.symm.append_right _

/-- A worker that has exited is not in a poll and holds nothing. -/
theorem Inv.batch_exited (h : Inv env s) (hphase : (s.workers w).phase = .exited) :
    s.batch w = [] ∧ s.begun w = [] := by
  refine ⟨?_, by rw [State.begun, hphase]; rfl⟩
  simp only [State.batch, hphase, WorkerPhase.held, List.nil_append]
  split
  · next p hp =>
    split
    · next hw =>
      have := (h.polling p hp).2
      rw [hw, hphase] at this
      exact this.elim
    · rfl
  · rfl

/-- Without batches the accepted messages are in the rings or handled. -/
theorem Inv.left (h : Inv env s) (hexited : ∀ w < s.started, (s.workers w).phase = .exited) :
    s.tc.accepted.Perm (s.tc.inRings ++ s.handled.map Handled.raw) := by
  have hnil : (List.range s.started).flatMap s.batch = [] := by
    simp only [List.flatMap_eq_nil_iff, List.mem_range]
    exact fun w hw => (h.batch_exited (hexited w hw)).1
  have hplaces := h.places
  rwa [hnil, List.append_nil] at hplaces

/-! ### When the level and the filters were read -/

/-- What the phase of a worker remembers was read in a state that the run went through. -/
def PhaseRead (passed : (State τ → Prop) → Prop) (w : ℕ) : WorkerPhase τ → Prop
  | .filtering cur level _ => passed (LevelRead w cur level)
  | .writing cur level filters _ _ =>
    passed (LevelRead w cur level) ∧ passed (FiltersRead w cur filters)
  | _ => True

omit [Target] [DecidableEq τ] in
theorem VerdictRead.mono {passed passed' : (State τ → Prop) → Prop} {cur : Decoded τ}
    {verdict : Verdict} (h : VerdictRead passed w cur verdict)
    (hmono : ∀ P, passed P → passed' P) : VerdictRead passed' w cur verdict := by
  cases verdict with
  | belowLevel => exact hmono _ h
  | filtered | passed => exact ⟨hmono _ h.1, hmono _ h.2⟩

omit [Target] [DecidableEq τ] in
theorem PhaseRead.mono {passed passed' : (State τ → Prop) → Prop} {phase : WorkerPhase τ}
    (h : PhaseRead passed w phase) (hmono : ∀ P, passed P → passed' P) :
    PhaseRead passed' w phase := by
  cases phase with
  | filtering => exact hmono _ h
  | writing => exact ⟨hmono _ h.1, hmono _ h.2⟩
  | _ => trivial

omit [DecidableEq τ] in
/-- A worker that goes on remembers the level that it reads, then the filters. -/
theorem PhaseRead.move {passed : (State τ → Prop) → Prop} {e : Event τ} {phase : WorkerPhase τ}
    (hold : PhaseRead passed w (s.workers w).phase) (hnow : ∀ P : State τ → Prop, P s → passed P)
    (hmove : Moves env s w e (s.workers w).phase phase) : PhaseRead passed w phase := by
  cases hphase : (s.workers w).phase with
  | dispatching =>
    rw [hphase] at hmove
    cases hmove with
    | batchDone => trivial
    | meetsLevel => exact hnow _ ⟨⟨_, hphase⟩, rfl⟩
  | filtering =>
    rw [hphase] at hmove hold
    cases hmove
    exact ⟨hold, hnow _ ⟨⟨_, _, hphase⟩, rfl⟩⟩
  | _ =>
    rw [hphase] at hmove
    cases hmove <;> trivial

omit [Target] [DecidableEq τ] in
/-- The verdict of a worker rests on what it has read, now or before. -/
theorem PhaseRead.finish {passed : (State τ → Prop) → Prop} {cur : Decoded τ} {verdict : Verdict}
    {rest : List (Decoded τ)} (hold : PhaseRead passed w (s.workers w).phase)
    (hnow : ∀ P : State τ → Prop, P s → passed P)
    (hfinish : Finishes env s w (s.workers w).phase cur verdict rest) :
    VerdictRead passed w cur verdict := by
  cases hphase : (s.workers w).phase with
  | dispatching =>
    rw [hphase] at hfinish
    cases hfinish
    exact hnow _ ⟨⟨_, hphase⟩, rfl⟩
  | filtering =>
    rw [hphase] at hfinish hold
    cases hfinish
    exact ⟨hold, hnow _ ⟨⟨_, _, hphase⟩, rfl⟩⟩
  | writing =>
    rw [hphase] at hfinish hold
    cases hfinish
    exact hold
  | _ =>
    rw [hphase] at hfinish
    cases hfinish

/-- Every verdict, and every check in progress, names what was read in the run. -/
def Reads (passed : (State τ → Prop) → Prop) (s : State τ) : Prop :=
  (∀ r ∈ s.handled, VerdictRead passed r.worker (r.header, r.raw) r.verdict) ∧
    ∀ w, PhaseRead passed w (s.workers w).phase

/-- A step that remembers what it reads, and keeps what was remembered. -/
theorem Reads.step {before passed : (State τ → Prop) → Prop} (hr : Reads before s)
    (hmono : ∀ P, before P → passed P) (hnow : ∀ P : State τ → Prop, P s → passed P) {e : Event τ}
    (hs : Backend.step env s e = some s') : Reads passed s' := by
  have hhandled : ∀ r ∈ s.handled, VerdictRead passed r.worker (r.header, r.raw) r.verdict :=
    fun r hr' => (hr.1 r hr').mono hmono
  have hphases : ∀ w, PhaseRead passed w (s.workers w).phase := fun w => (hr.2 w).mono hmono
  have hset : ∀ w phase, PhaseRead passed w phase →
      ∀ w', PhaseRead passed w' ((s.setPhase w phase).workers w').phase := by
    intro w phase hphase w'
    rcases eq_or_ne w' w with rfl | hne
    · rwa [Inv.workers_setPhase_self]
    · rw [Inv.workers_setPhase_of_ne s phase hne]
      exact hphases w'
  cases step_effect hs with
  | thread | logCheck | logPush | logger | pollBegin | pollStep => exact ⟨hhandled, hphases⟩
  | start =>
    refine ⟨hhandled, fun w => ?_⟩
    rcases eq_or_ne w s.started with rfl | hne
    · simp only [Function.update_self]
      trivial
    · simp only [Function.update_of_ne hne]
      exact hphases w
  | @stop w hw =>
    refine ⟨hhandled, fun w' => ?_⟩
    rcases eq_or_ne w' w with rfl | hne
    · simp only [Function.update_self]
      exact hphases w'
    · simp only [Function.update_of_ne hne]
      exact hphases w'
  | @pollEnd p tc phase hp htc hphase =>
    -- no check begins at the end of a poll
    refine ⟨hhandled, hset _ _ ?_⟩
    have hnil := (held_afterPoll hphase).2.2.1
    cases phase with
    | filtering | writing => cases hnil
    | _ => trivial
  | @move _ w phase hw hmove =>
    exact ⟨hhandled, hset _ _ ((hphases w).move hnow hmove)⟩
  | @finish _ w cur verdict rest hw hfinish =>
    refine ⟨fun r hr' => ?_, hset _ _ trivial⟩
    rcases List.mem_append.mp hr' with hr' | hr'
    · exact hhandled r hr'
    · obtain rfl := List.mem_singleton.mp hr'
      exact (hphases w).finish hnow hfinish
  | @write w _ _ _ _ _ _ hw hphase =>
    refine ⟨hhandled, hset _ _ ?_⟩
    have hold := hphases w
    rw [hphase] at hold
    exact hold

/-- Every verdict of a run names what was read in it, also when the run is one of another machine
whose steps are steps of the backend. -/
theorem reads_of_reach {ε : Type*} {m : Machine (State τ) ε} {ok : State τ → ε → Prop}
    (hm : ∀ s e s', ok s e → m s e = some s' → ∃ e', Backend.step env s e' = some s')
    {loggers : UInt64 → Logger} (hrun : m.Reach ok (init loggers) s) :
    Reads (m.Passed ok (init loggers) s) s := by
  induction hrun with
  | refl => exact ⟨fun _ hr => (nomatch hr), fun _ => trivial⟩
  | @step s s' e hreach hok hs ih =>
    obtain ⟨e', he'⟩ := hm s e s' hok hs
    exact ih.step (fun P hP => hP.step hok hs) (fun P hP => .last hreach hP hok hs) he'

/-- The invariant holds in every state of a run whose capacities are valid. -/
theorem inv_of_reach {ok : State τ → Event τ → Prop} (hok : ∀ s e, ok s e → CapacityOk e)
    {loggers : UInt64 → Logger} (hrun : Machine.Reach (step env) ok (init loggers) s) :
    Inv env s :=
  hrun.invariant (inv_init env loggers) fun _ _ _ h hs he => h.step (hok _ _ hs) he

end

/-! ### Whole runs -/

instance : (e : Event τ) → Decidable (CapacityOk e)
  | .thread (.initWithMode _ _ startCapacity) =>
    inferInstanceAs (Decidable ((0 < startCapacity ∧ 64 ∣ startCapacity) ∧
      startCapacity ≤ maxBlockCapacity))
  | .thread (.access _) | .thread (.register _) | .thread (.attempt ..) | .thread (.retry _)
  | .thread (.grow _) | .thread (.exit _) | .thread (.pollBegin _) | .thread .pollStep
  | .thread .pollEnd | .logCheck .. | .logPush _ | .setLogLevel .. | .addFilter ..
  | .clearFilters _ | .start _ | .stop _ | .loadStop .. | .pollBegin _ | .pollStep _ | .pollEnd _
  | .sort .. | .next _ | .checkFilters _ | .writeSink _ => .isTrue trivial

section

variable [FloatDisplay] [Calendar] (fmt : Formatting) (env : Env) (s : State τ)

instance (w : ℕ) : (phase : WorkerPhase τ) → Decidable (Unwinding.FormatsAt fmt env s w phase)
  | .filtering .. => inferInstanceAs (Decidable (_ → _))
  | .loopHead | .firstPoll | .batchHead _ | .morePoll _ | .sorting _ | .dispatching _
  | .writing .. | .exited => .isTrue trivial

instance : (e : Event τ) → Decidable (Unwinding.Formats fmt env s e)
  | .checkFilters w =>
    inferInstanceAs (Decidable (Unwinding.FormatsAt fmt env s w (s.workers w).phase))
  | .thread _ | .logCheck .. | .logPush _ | .setLogLevel .. | .addFilter .. | .clearFilters _
  | .start _ | .stop _ | .loadStop .. | .pollBegin _ | .pollStep _ | .pollEnd _ | .sort ..
  | .next _ | .writeSink _ => .isTrue trivial

end

/-- In every state of every run whose ring capacities are positive multiples of the cache line
within the block limit, and in which no worker comes to a message that `format_message` panics on,
every accepted message is in one place and the sinks have been called for the handled messages that
passed. -/
theorem conserved [FloatDisplay] [Calendar] (fmt : Formatting) (env : Env)
    (loggers : UInt64 → Logger) {s : State τ}
    (hrun : Machine.Reach (Unwinding.step fmt env)
      (fun s e => CapacityOk e ∧ Unwinding.Formats fmt env s e) (init loggers) s) :
    Conserved env (Machine.Passed (Unwinding.step fmt env)
      (fun s e => CapacityOk e ∧ Unwinding.Formats fmt env s e) (init loggers) s) s := by
  have hbackend : Machine.Reach (Backend.step env) (fun _ e => CapacityOk e) (init loggers) s :=
    hrun.project (f := id) fun s e s' hok hs => .inr
      ⟨_, Unwinding.capacityOk_withText.mpr hok.1, Unwinding.step_of_formats hok.2 hs⟩
  have h : Inv env s := inv_of_reach (fun _ _ hcap => hcap) hbackend
  have hreads := reads_of_reach (fun s e s' hok hs => ⟨_, Unwinding.step_of_formats hok.2 hs⟩) hrun
  exact
    { faulted := h.tc.faulted
      logged := h.accepted
      places := h.places
      verdicts := fun r hr => ⟨(h.verdicts r hr).2.1, (h.verdicts r hr).2.2, hreads.1 r hr⟩
      writes := h.calls
      exited := fun w _ hphase => h.batch_exited hphase
      left := h.left }

/-- Loggers with two sinks, the second one twice. -/
def twoSinks : UInt64 → Logger := fun _ => .new "app" [0, 1, 1]

/-- Call sites of level `error` at even addresses and of level `info` at odd ones. -/
def callSites : Env where
  metas ptr :=
    { level := if ptr % 2 = 0 then .error else .info
      formatStr := "", file := "", line := 0, modulePath := "" }
  uninit _ _ := 0

/-- A call without arguments. -/
def bareCall (timestampNs metadataPtr : UInt64) : LogCall where
  timestampNs := timestampNs
  metadataPtr := metadataPtr
  loggerPtr := 1
  payloadsSize := 0
  encodeArgs := { run := fun buf => (buf, ()), length_run := fun _ => rfl }

/-- The message that `bareCall` queues, decoded. -/
def bareDecoded (t : τ) (call : LogCall) : Decoded τ := (call.header, some t, call.header.bytes)

/-- First use of the queue by a thread, and one log call. -/
def logOnce (t : τ) (call : LogCall) : List (Event τ) :=
  [.thread (.access t), .thread (.register t), .logCheck t call, .logPush t]

/-- One poll by a worker with `n` steps. -/
def pollOnce (w n : ℕ) : List (Event τ) :=
  .pollBegin w :: (List.replicate n (.pollStep w) ++ [.pollEnd w])

/-- Call sites without arguments, under a pattern. -/
def shortText : Formatting where
  toDisplayNanos := some
  provided _ := ({ logLevel := .info, args := [] } : CallSite.Execution).own
  patternFormatter _ := some (.new "%f %l")

/-- Two threads log, the level is raised above the message of one of them, a filter lets errors
pass, and a worker handles both messages before it sees that it should stop. -/
def raisedLevelRun : List (Event Bool) :=
  logOnce true (bareCall 5 2) ++ logOnce false (bareCall 3 1) ++
    [.setLogLevel 1 .warning, .addFilter 1 (LevelFilter.accept .error),
      .start { minBatchSize := 1, formatMessage := fun _ _ => "" }, .loadStop 0 false] ++
    pollOnce 0 6 ++
    [.sort 0 [bareDecoded false (bareCall 3 1), bareDecoded true (bareCall 5 2)], .next 0, .next 0,
      .checkFilters 0, .writeSink 0, .writeSink 0, .writeSink 0, .writeSink 0, .next 0, .stop 0,
      .loadStop 0 true]

omit [Target] in
/-- Only the message that is not below the level has been written, to each entry of the sinks. -/
theorem conserved_raisedLevel :
    letI : Target := x86_64
    letI : FloatDisplay := noFloats
    letI : Calendar := { fromUnixTimestamp := fun _ => none }
    let ok := fun s e => CapacityOk e ∧ Unwinding.Formats shortText callSites s e
    ∃ s, (Unwinding.step shortText callSites).runWhile ok (init twoSinks) raisedLevelRun =
        some s ∧
      s.sinkCalls = [0, 1, 1].map (fun sink => SinkCall.write 0
        (some true, (bareCall 5 2).header.bytes) sink "000000005 Error") ∧
      Conserved callSites
        (Machine.Passed (Unwinding.step shortText callSites) ok (init twoSinks) s) s := by
  let _ : Target := x86_64
  let _ : FloatDisplay := noFloats
  let _ : Calendar := { fromUnixTimestamp := fun _ => none }
  intro ok
  have hrun : ((Unwinding.step shortText callSites).runWhile ok (init twoSinks)
      raisedLevelRun).map (fun s => s.sinkCalls) = some ([0, 1, 1].map fun sink =>
        SinkCall.write 0 (some true, (bareCall 5 2).header.bytes) sink "000000005 Error") := by
    decide +kernel
  obtain ⟨s, hs, hcalls⟩ := Option.map_eq_some_iff.mp hrun
  exact ⟨s, hs, hcalls, conserved shortText callSites twoSinks (.of_runWhile hs)⟩

/-- The same call sites with a place for an argument. -/
def oneArgument : Env :=
  { callSites with metas := fun ptr => { callSites.metas ptr with formatStr := "\x7b\x7d" } }

/-- The argument is a derived struct without fields. -/
def emptyStructText : Formatting where
  toDisplayNanos := some
  provided _ := ({ logLevel := .info, args := [⟨.deriveStruct [], ()⟩] } :
    CallSite.Execution).own
  patternFormatter _ := none

/-- A message is logged at such a call site, and a worker comes to it. -/
def unwoundRun : List (Event Unit) :=
  logOnce () (bareCall 5 2) ++
    [.start { minBatchSize := 1, formatMessage := fun _ _ => "" }, .loadStop 0 false] ++
    pollOnce 0 3 ++ [.sort 0 [bareDecoded () (bareCall 5 2)], .next 0, .checkFilters 0]

omit [Target] in
/-- The worker has panicked, and the message is nowhere. -/
theorem not_conserved_emptyStruct :
    letI : Target := x86_64
    letI : FloatDisplay := noFloats
    letI : Calendar := { fromUnixTimestamp := fun _ => none }
    ∃ s : State Unit, Machine.Reach (Unwinding.step emptyStructText oneArgument)
        (fun _ e => CapacityOk e) (init twoSinks) s ∧
      s.tc.accepted = [(some (), (bareCall 5 2).header.bytes)] ∧
      ¬ Conserved oneArgument (Machine.Passed (Unwinding.step emptyStructText oneArgument)
        (fun _ e => CapacityOk e) (init twoSinks) s) s := by
  let _ : Target := x86_64
  let _ : FloatDisplay := noFloats
  let _ : Calendar := { fromUnixTimestamp := fun _ => none }
  have hrun : ((Unwinding.step emptyStructText oneArgument).runWhile
      (fun _ e => CapacityOk e) (init twoSinks) unwoundRun).map (fun s => (s.tc.accepted,
        s.tc.inRings ++ (List.range s.started).flatMap s.batch ++ s.handled.map Handled.raw)) =
      some ([(some (), (bareCall 5 2).header.bytes)], []) := by
    decide +kernel
  obtain ⟨s, hs, hsummary⟩ := Option.map_eq_some_iff.mp hrun
  -- one message has been accepted, and no place holds any
  obtain ⟨haccepted, hnowhere⟩ := Prod.mk.inj hsummary
  refine ⟨s, .of_runWhile hs, haccepted, fun h => ?_⟩
  have hplaces := h.places
  rw [haccepted, hnowhere] at hplaces
  exact List.cons_ne_nil _ _ hplaces.eq_nil

end Backend

end RapidLog
