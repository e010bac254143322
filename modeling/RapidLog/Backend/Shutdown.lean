import RapidLog.Backend.Order

/-!
# What is left when a backend stops

A worker leaves its loop as soon as it sees the stop signal at the head of it, without another
poll, and nothing in the backend calls `flush`. So a message is written only if a poll took it out
of its ring before that, and no sink is flushed after its last write.

Whether a message passes is a matter of the message as long as the loggers are configured before
the first message is accepted (`ConfiguredFirst`).

## Main results

* `shutdown_complete_iff`: once the worker of a single backend has exited, every message that
  passes has been written and every sink flushed exactly when no accepted message passes and has a
  sink to go to; and every message that passes has been written exactly when none that does is left
  in a ring;
* `pending_message_lost`: a message that was accepted before `stop` is never written.
-/

namespace RapidLog

open Queue ThreadContext

variable [Target] {τ : Type} [DecidableEq τ]

/-- The worker has left its loop. -/
def WorkerPhase.isExited : WorkerPhase τ → Bool
  | exited => true
  | _ => false

namespace Backend

/-- The message passes the level and the filters of its logger. -/
def Passes (env : Env) (s : State τ) (raw : Raw τ) (header : ArchivedHeader) : Prop :=
  ArchivedHeader.decode raw.2 = some header ∧
    (env.metas header.metadataPtr).meetsLevel (s.loggers header.loggerPtr).logLevel = true ∧
    (env.metas header.metadataPtr).passesFilters (s.loggers header.loggerPtr).filters
      (payload raw) = true

/-- The message passes and its logger has a sink. -/
def Deliverable (env : Env) (s : State τ) (raw : Raw τ) : Prop :=
  ∃ header, Passes env s raw header ∧ s.sinksOf header ≠ []

/-- The call writes the message to the sink. -/
def writesTo (raw : Raw τ) (sink : ℕ) : SinkCall τ → Bool
  | .write _ raw' sink' _ => decide (raw' = raw ∧ sink' = sink)
  | .flush .. => false

/-- Every accepted message that passes has been written to every sink of its logger, as often as it
was accepted and as the logger lists the sink. -/
def AllWritten (env : Env) (s : State τ) : Prop :=
  ∀ raw header, Passes env s raw header → ∀ sink,
    s.tc.accepted.count raw * (s.sinksOf header).count sink ≤
      s.sinkCalls.countP (writesTo raw sink)

/-- Every sink that was written to has been flushed since. -/
def FlushedAfterWrites (calls : List (SinkCall τ)) : Prop :=
  ∀ before w raw sink formatted after, calls = before ++ .write w raw sink formatted :: after →
    ∃ w', .flush w' sink ∈ after

/-- What stopping and joining a backend promises. -/
def ShutdownComplete (env : Env) (s : State τ) : Prop :=
  AllWritten env s ∧ FlushedAfterWrites s.sinkCalls

/-- The levels and filters change only before the first message is accepted. -/
def ConfiguredFirst (s : State τ) : Event τ → Prop
  | .setLogLevel .. | .addFilter .. | .clearFilters _ => s.tc.accepted = []
  | _ => True

/-- No message is accepted after `stop` has been called. -/
def PushesBeforeStop (s : State τ) : Event τ → Prop
  | .logPush _ | .thread (.retry _) => ∀ w < s.started, (s.workers w).stopSignal = false
  | _ => True

section

variable {env : Env} {s₁ s s' : State τ} {e : Event τ}

/-- The loggers stay as they are once a message has been accepted. -/
theorem loggers_of_reach (h : Inv env s₁) (hne : s₁.tc.accepted ≠ [])
    (hrun : Machine.Reach (step env)
      (fun s e => CapacityOk e ∧ SingleBackend s e ∧ ConfiguredFirst s e) s₁ s) :
    s.loggers = s₁.loggers := by
  have hkept : Inv env s ∧ s.tc.accepted ≠ [] ∧ s.loggers = s₁.loggers := by
    refine hrun.invariant (P := fun s => Inv env s ∧ s.tc.accepted ≠ [] ∧ s.loggers = s₁.loggers)
      ⟨h, hne, rfl⟩ ?_
    rintro s e s' ⟨hinv, hacc, hsame⟩ ⟨hcap, -, hconf⟩ hs
    refine ⟨hinv.step hcap hs, ?_, ?_⟩
    · intro hnil
      have hpre := accepted_isPrefix hinv hcap hs
      rw [hnil] at hpre
      exact hacc (List.prefix_nil.mp hpre)
    · rw [← hsame]
      cases step_effect hs with
      | logger he _ =>
        -- the step would have had to come before the first accepted message
        cases e with
        | setLogLevel | addFilter | clearFilters => exact absurd hconf hacc
        | _ => cases he
      | _ => rfl
  exact hkept.2.2

omit [Target] [DecidableEq τ] in
/-- Where a worker is at a message, it holds that message. -/
private theorem lt_started (h : ∀ w, s.started ≤ w → (s.workers w).phase = .loopHead) {w : ℕ}
    (hphase : (s.workers w).phase ≠ .loopHead) : w < s.started :=
  not_le.mp fun hle => hphase (h w hle)

/-- Where a worker reads the level or the filters of a message, the loggers are those that the run
ends with. -/
theorem loggers_of_passed {s₀ : State τ} {P : State τ → Prop} (raw : Raw τ)
    (hpassed : Machine.Passed (step env)
      (fun s e => CapacityOk e ∧ SingleBackend s e ∧ ConfiguredFirst s e) s₀ s P)
    (h₀ : Inv env s₀)
    (hheld : ∀ s₁, P s₁ → ∃ w, (s₁.workers w).phase ≠ .loopHead ∧
      raw ∈ (s₁.workers w).phase.held) :
    ∃ s₁, P s₁ ∧ s.loggers = s₁.loggers := by
  obtain ⟨s₁, hreach, hP, hrest⟩ := hpassed
  have h₁ : Inv env s₁ := hreach.invariant h₀ fun _ _ _ h hok hs => h.step hok.1 hs
  obtain ⟨w, hphase, hraw⟩ := hheld s₁ hP
  have hacc := h₁.accepted_of_held (lt_started h₁.unstarted hphase) hraw
  exact ⟨s₁, hP, loggers_of_reach h₁ (List.ne_nil_of_mem hacc) hrest⟩

/-- A message was handled as passed exactly when it passes. -/
theorem isPassed_iff {loggers : UInt64 → Logger}
    (hrun : Machine.Reach (step env)
      (fun s e => CapacityOk e ∧ SingleBackend s e ∧ ConfiguredFirst s e) (init loggers) s)
    {r : Handled τ} (hr : r ∈ s.handled) :
    r.verdict.isPassed = true ↔ Passes env s r.raw r.header := by
  have h : Inv env s := inv_of_reach (fun _ _ hok => hok.1) hrun
  obtain ⟨-, hdec, hagrees⟩ := h.verdicts r hr
  have hread := (reads_of_reach (fun _ e _ _ hs => ⟨e, hs⟩) hrun).1 r hr
  -- what was read is what the loggers still have
  have hlevel : ∀ level, Machine.Passed (step env)
      (fun s e => CapacityOk e ∧ SingleBackend s e ∧ ConfiguredFirst s e) (init loggers) s
      (LevelRead r.worker (r.header, r.raw) level) →
      (s.loggers r.header.loggerPtr).logLevel = level := by
    intro level hpassed
    obtain ⟨s₁, ⟨-, hl⟩, heq⟩ := loggers_of_passed r.raw hpassed (inv_init env loggers)
      fun s₁ ⟨⟨rest, hphase⟩, _⟩ => ⟨r.worker, by rw [hphase]; simp, by
        rw [hphase]; exact List.mem_cons_self⟩
    rw [heq, hl]
  have hfilters : ∀ filters, Machine.Passed (step env)
      (fun s e => CapacityOk e ∧ SingleBackend s e ∧ ConfiguredFirst s e) (init loggers) s
      (FiltersRead r.worker (r.header, r.raw) filters) →
      (s.loggers r.header.loggerPtr).filters = filters := by
    intro filters hpassed
    obtain ⟨s₁, ⟨-, hf⟩, heq⟩ := loggers_of_passed r.raw hpassed (inv_init env loggers)
      fun s₁ ⟨⟨level, rest, hphase⟩, _⟩ => ⟨r.worker, by rw [hphase]; simp, by
        rw [hphase]; exact List.mem_cons_self⟩
    rw [heq, hf]
  unfold Passes
  cases hv : r.verdict with
  | belowLevel level =>
    rw [hv] at hagrees hread
    rw [hlevel level hread]
    simp [Verdict.isPassed, show _ = false from hagrees]
  | filtered level filters =>
    rw [hv] at hagrees hread
    rw [hfilters filters hread.2]
    simp [Verdict.isPassed, hagrees.2]
  | passed level filters =>
    rw [hv] at hagrees hread
    rw [hlevel level hread.1, hfilters filters hread.2]
    simp [Verdict.isPassed, hdec, hagrees.1, hagrees.2]

/-! ### Counting the writes of a message -/

omit [Target] in
theorem countP_writes (s : State τ) (w : ℕ) (header : ArchivedHeader) (raw raw' : Raw τ)
    (sinks : List ℕ) (sink : ℕ) : (s.writes w header raw' sinks).countP (writesTo raw sink) =
      if raw' = raw then sinks.count sink else 0 := by
  unfold State.writes
  rw [List.countP_map]
  by_cases hraw : raw' = raw
  · rw [if_pos hraw, List.count]
    refine List.countP_congr fun sink' _ => ?_
    simp [writesTo, hraw]
  · rw [if_neg hraw]
    simp [writesTo, hraw]

omit [Target] in
/-- A message that was handled as passed each time was written each time to every sink. -/
theorem countP_expectedCalls (s : State τ) {raw : Raw τ} {header : ArchivedHeader} (sink : ℕ)
    {rs : List (Handled τ)}
    (h : ∀ r ∈ rs, r.raw = raw → r.header = header ∧ r.verdict.isPassed = true) :
    (rs.flatMap s.expectedCalls).countP (writesTo raw sink) =
      (rs.map Handled.raw).count raw * (s.sinksOf header).count sink := by
  induction rs with
  | nil => simp
  | cons r rs ih =>
    rw [List.flatMap_cons, List.countP_append, List.map_cons,
      ih fun r' hr' => h r' (List.mem_cons_of_mem _ hr')]
    by_cases hraw : r.raw = raw
    · obtain ⟨hheader, hpassed⟩ := h r List.mem_cons_self hraw
      rw [State.expectedCalls, if_pos hpassed, countP_writes, if_pos hraw, hheader, hraw,
        List.count_cons_self, Nat.add_mul, Nat.one_mul, Nat.add_comm]
    · have hzero : (s.expectedCalls r).countP (writesTo raw sink) = 0 := by
        unfold State.expectedCalls
        split
        · rw [countP_writes, if_neg hraw]
        · rfl
      rw [hzero, Nat.zero_add, List.count_cons_of_ne hraw]

/-! ### What is left at the end -/

/-- A single backend stays single. -/
theorem single_of_reach {ok : State τ → Event τ → Prop}
    {loggers : UInt64 → Logger} (hok : ∀ s e, ok s e → SingleBackend s e)
    (hrun : Machine.Reach (step env) ok (init loggers) s) : s.started ≤ 1 := by
  refine hrun.invariant (P := fun s => s.started ≤ 1) (Nat.zero_le 1) ?_
  intro s e s' hle hs he
  have hone := hok s e hs
  cases step_effect he with
  | start =>
    have hzero : s.started = 0 := hone
    simp [hzero]
  | _ => exact hle

/-- The number of writes of a message that passes, once the worker has exited. -/
theorem countP_sinkCalls {loggers : UInt64 → Logger}
    (hrun : Machine.Reach (step env)
      (fun s e => CapacityOk e ∧ SingleBackend s e ∧ ConfiguredFirst s e) (init loggers) s)
    (hexited : (s.workers 0).phase = .exited) {raw : Raw τ} {header : ArchivedHeader}
    (hpasses : Passes env s raw header) (sink : ℕ) :
    s.sinkCalls.countP (writesTo raw sink) =
      (s.handled.map Handled.raw).count raw * (s.sinksOf header).count sink := by
  have h : Inv env s := inv_of_reach (fun _ _ hok => hok.1) hrun
  have hbegun : s.begun 0 = [] := by rw [State.begun, hexited]; rfl
  rw [h.sinkCalls_eq (single_of_reach (fun _ _ hok => hok.2.1) hrun), hbegun, List.append_nil]
  refine countP_expectedCalls s sink fun r hr hraw => ?_
  obtain ⟨-, hdec, -⟩ := h.verdicts r hr
  have hheader : r.header = header := by
    rw [hraw] at hdec
    exact Option.some.inj (hdec.symm.trans hpasses.1)
  refine ⟨hheader, (isPassed_iff hrun hr).mpr ?_⟩
  rw [hraw, hheader]
  exact hpasses

/-- Once the worker has exited, the messages are in the rings or handled. -/
theorem count_accepted {loggers : UInt64 → Logger}
    (hrun : Machine.Reach (step env)
      (fun s e => CapacityOk e ∧ SingleBackend s e ∧ ConfiguredFirst s e) (init loggers) s)
    (hexited : (s.workers 0).phase = .exited) (raw : Raw τ) :
    s.tc.accepted.count raw = s.tc.inRings.count raw + (s.handled.map Handled.raw).count raw := by
  have h : Inv env s := inv_of_reach (fun _ _ hok => hok.1) hrun
  have hsingle := single_of_reach (fun _ _ hok => hok.2.1) hrun
  rw [(h.left fun w hw => by rwa [eq_zero_of_lt hsingle hw]).count_eq, List.count_append]

/-- All messages that pass have been written exactly when none of those that are deliverable is
left in a ring. -/
theorem allWritten_iff {loggers : UInt64 → Logger}
    (hrun : Machine.Reach (step env)
      (fun s e => CapacityOk e ∧ SingleBackend s e ∧ ConfiguredFirst s e) (init loggers) s)
    (hexited : (s.workers 0).phase = .exited) :
    AllWritten env s ↔ ∀ raw ∈ s.tc.inRings, ¬ Deliverable env s raw := by
  constructor
  · rintro hall raw hraw ⟨header, hpasses, hsinks⟩
    obtain ⟨sink, hsink⟩ := List.exists_mem_of_ne_nil _ hsinks
    have hle := hall raw header hpasses sink
    rw [countP_sinkCalls hrun hexited hpasses, count_accepted hrun hexited] at hle
    -- the copies that are left in the rings were not written
    have hpos : 0 < (s.sinksOf header).count sink := List.count_pos_iff.mpr hsink
    have hleft : 0 < s.tc.inRings.count raw := List.count_pos_iff.mpr hraw
    have := Nat.le_of_mul_le_mul_right hle hpos
    omega
  · intro hnone raw header hpasses sink
    rw [countP_sinkCalls hrun hexited hpasses, count_accepted hrun hexited]
    by_cases hsinks : s.sinksOf header = []
    · simp [hsinks]
    · have hzero : s.tc.inRings.count raw = 0 :=
        List.count_eq_zero.mpr fun hraw => hnone raw hraw ⟨header, hpasses, hsinks⟩
      rw [hzero, Nat.zero_add]

/-- Every call of a sink is a write of a handled message that passed. -/
theorem mem_sinkCalls (h : Inv env s) (hsingle : s.started ≤ 1)
    (hexited : (s.workers 0).phase = .exited) (call : SinkCall τ) (hcall : call ∈ s.sinkCalls) :
    ∃ r ∈ s.handled, r.verdict.isPassed = true ∧ ∃ sink ∈ s.sinksOf r.header, ∃ formatted,
      call = .write r.worker r.raw sink formatted := by
  have hbegun : s.begun 0 = [] := by rw [State.begun, hexited]; rfl
  rw [h.sinkCalls_eq hsingle, hbegun, List.append_nil] at hcall
  obtain ⟨r, hr, hmem⟩ := List.mem_flatMap.mp hcall
  unfold State.expectedCalls at hmem
  split at hmem
  · next hpassed =>
    obtain ⟨sink, hsink, rfl⟩ := List.mem_map.mp hmem
    exact ⟨r, hr, hpassed, sink, hsink, _, rfl⟩
  · cases hmem

end

/-- Once the worker of a single backend has exited: all messages that pass have been written and
all sinks flushed exactly when no accepted message was deliverable; and all messages that pass have
been written exactly when no deliverable one is left in a ring. -/
theorem shutdown_complete_iff (env : Env) (loggers : UInt64 → Logger) {s : State τ}
    (hrun : Machine.Reach (step env)
      (fun s e => CapacityOk e ∧ SingleBackend s e ∧ ConfiguredFirst s e) (init loggers) s)
    (hexited : (s.workers 0).phase = .exited) :
    (ShutdownComplete env s ↔ ∀ raw ∈ s.tc.accepted, ¬ Deliverable env s raw) ∧
      (AllWritten env s ↔ ∀ raw ∈ s.tc.inRings, ¬ Deliverable env s raw) := by
  have h : Inv env s := inv_of_reach (fun _ _ hok => hok.1) hrun
  have hsingle := single_of_reach (fun _ _ hok => hok.2.1) hrun
  have hcalls := fun call => mem_sinkCalls h hsingle hexited call
  refine ⟨⟨?_, fun hnone => ⟨(allWritten_iff hrun hexited).mpr ?_, ?_⟩⟩,
    allWritten_iff hrun hexited⟩
  · rintro ⟨hall, hflushed⟩ raw hraw ⟨header, hpasses, hsinks⟩
    obtain ⟨sink, hsink⟩ := List.exists_mem_of_ne_nil _ hsinks
    have hle := hall raw header hpasses sink
    have hpos : 0 < s.sinkCalls.countP (writesTo raw sink) :=
      lt_of_lt_of_le (Nat.mul_pos (List.count_pos_iff.mpr hraw) (List.count_pos_iff.mpr hsink)) hle
    obtain ⟨call, hcall, hwrites⟩ := List.countP_pos_iff.mp hpos
    obtain ⟨r, -, -, sink', -, formatted, rfl⟩ := hcalls call hcall
    -- the write would have to be followed by a flush, and no step calls `flush`
    obtain ⟨before, after, hsplit⟩ := List.append_of_mem hcall
    obtain ⟨w', hflush⟩ := hflushed _ _ _ _ _ _ hsplit
    obtain ⟨r', -, -, sink'', -, formatted', heq⟩ := hcalls (.flush w' sink')
      (by rw [hsplit]; exact List.mem_append_right _ (List.mem_cons_of_mem _ hflush))
    cases heq
  · intro raw hraw
    have hperm := h.left fun w hw => by rwa [eq_zero_of_lt hsingle hw]
    exact hnone raw (hperm.mem_iff.mpr (List.mem_append_left _ hraw))
  · intro before w raw sink formatted after hsplit
    obtain ⟨r, hr, hpassed, sink', hsink, formatted', heq⟩ := hcalls (.write w raw sink formatted)
      (by rw [hsplit]; simp)
    have hperm := h.left fun w hw => by rwa [eq_zero_of_lt hsingle hw]
    have hacc : r.raw ∈ s.tc.accepted :=
      hperm.mem_iff.mpr (List.mem_append_right _ (List.mem_map_of_mem hr))
    exact absurd ⟨r.header, (isPassed_iff hrun hr).mp hpassed, List.ne_nil_of_mem hsink⟩
      (hnone r.raw hacc)

instance (s : State τ) : (e : Event τ) → Decidable (ConfiguredFirst s e)
  | .setLogLevel .. | .addFilter .. | .clearFilters _ =>
    inferInstanceAs (Decidable (s.tc.accepted = []))
  | .thread _ | .logCheck .. | .logPush _ | .start _ | .stop _ | .loadStop .. | .pollBegin _
  | .pollStep _ | .pollEnd _ | .sort .. | .next _ | .checkFilters _ | .writeSink _ =>
    .isTrue trivial

instance (s : State τ) : (e : Event τ) → Decidable (PushesBeforeStop s e)
  | .logPush _ | .thread (.retry _) =>
    inferInstanceAs (Decidable (∀ w < s.started, (s.workers w).stopSignal = false))
  | .thread (.access _) | .thread (.register _) | .thread (.attempt ..) | .thread (.grow _)
  | .thread (.initWithMode ..) | .thread (.exit _) | .thread (.pollBegin _) | .thread .pollStep
  | .thread .pollEnd | .logCheck .. | .setLogLevel .. | .addFilter .. | .clearFilters _
  | .start _ | .stop _ | .loadStop .. | .pollBegin _ | .pollStep _ | .pollEnd _ | .sort .. | .next _
  | .checkFilters _ | .writeSink _ => .isTrue trivial

instance (env : Env) (s : State τ) (raw : Raw τ) (header : ArchivedHeader) :
    Decidable (Passes env s raw header) :=
  inferInstanceAs (Decidable (_ ∧ _ ∧ _))

omit [Target] [DecidableEq τ] in
theorem eq_exited {phase : WorkerPhase τ} (h : phase.isExited = true) : phase = .exited := by
  cases phase <;> first | rfl | cases h

/-- The message of a bare call, as the thread queues it. -/
def bareRaw (call : LogCall) : Raw Unit := (some (), call.header.bytes)

/-- A thread logs once and a worker delivers the message before it is stopped. -/
def deliveredRun : List (Event Unit) :=
  logOnce () (bareCall 5 2) ++
    [.start { minBatchSize := 1, formatMessage := fun _ _ => "" }, .loadStop 0 false] ++
    pollOnce 0 3 ++ [.sort 0 [bareDecoded () (bareCall 5 2)]] ++ deliver ++
    [.next 0, .stop 0, .loadStop 0 true]

/-- A thread logs once, and the worker of a backend that is stopped after that sees the signal
before it polls. -/
def stoppedRun : List (Event Unit) :=
  [.start { minBatchSize := 1, formatMessage := fun _ _ => "" }] ++ logOnce () (bareCall 5 2) ++
    [.stop 0, .loadStop 0 true]

omit [Target] in
/-- A message that a poll took in time has been written, but its sinks have not been flushed. -/
theorem shutdown_complete_iff_delivered :
    letI : Target := x86_64
    ∃ s, (step callSites).runWhile
        (fun s e => CapacityOk e ∧ SingleBackend s e ∧ ConfiguredFirst s e) (init twoSinks)
        deliveredRun = some s ∧ AllWritten callSites s ∧ ¬ ShutdownComplete callSites s := by
  let _ : Target := x86_64
  have hrun : ((step callSites).runWhile
      (fun s e => CapacityOk e ∧ SingleBackend s e ∧ ConfiguredFirst s e) (init twoSinks)
      deliveredRun).map (fun s => decide ((s.workers 0).phase.isExited = true ∧
        s.tc.inRings = [] ∧ s.tc.accepted = [bareRaw (bareCall 5 2)] ∧
        Passes callSites s (bareRaw (bareCall 5 2)) (bareCall 5 2).header ∧
        s.sinksOf (bareCall 5 2).header = [0, 1, 1])) = some true := by
    decide +kernel
  obtain ⟨s, hs, hs'⟩ := Option.map_eq_some_iff.mp hrun
  obtain ⟨hexited, hrings, haccepted, hpasses, hsinks⟩ := of_decide_eq_true hs'
  have hphase := eq_exited hexited
  obtain ⟨hcomplete, hwritten⟩ := shutdown_complete_iff callSites twoSinks (.of_runWhile hs) hphase
  refine ⟨s, hs, hwritten.mpr (by simp [hrings]), fun h => ?_⟩
  refine hcomplete.mp h (bareRaw (bareCall 5 2)) (by simp [haccepted]) ⟨_, hpasses, ?_⟩
  simp [hsinks]

omit [Target] in
/-- A message that was accepted before `stop` and passes is not written when the worker sees the
stop signal first. -/
theorem pending_message_lost :
    letI : Target := x86_64
    ∃ s : State Unit, Machine.Reach (step callSites)
        (fun s e => CapacityOk e ∧ SingleBackend s e ∧ ConfiguredFirst s e ∧ PushesBeforeStop s e)
        (init twoSinks) s ∧
      (s.workers 0).phase = .exited ∧ ¬ AllWritten callSites s ∧
      ¬ ShutdownComplete callSites s := by
  let _ : Target := x86_64
  have hrun : ((step callSites).runWhile
      (fun s e => CapacityOk e ∧ SingleBackend s e ∧ ConfiguredFirst s e ∧ PushesBeforeStop s e)
      (init twoSinks) stoppedRun).map (fun s => decide ((s.workers 0).phase.isExited = true ∧
        s.sinkCalls = [] ∧ s.tc.accepted = [bareRaw (bareCall 5 2)] ∧
        Passes callSites s (bareRaw (bareCall 5 2)) (bareCall 5 2).header ∧
        s.sinksOf (bareCall 5 2).header = [0, 1, 1])) = some true := by
    decide +kernel
  obtain ⟨s, hs, hs'⟩ := Option.map_eq_some_iff.mp hrun
  obtain ⟨hexited, hcalls, haccepted, hpasses, hsinks⟩ := of_decide_eq_true hs'
  have hlost : ¬ AllWritten callSites s := by
    intro hall
    have hle := hall _ _ hpasses 0
    rw [hcalls, haccepted, hsinks] at hle
    simp at hle
  exact ⟨s, .of_runWhile hs, eq_exited hexited, hlost, fun h => hlost h.1⟩

end Backend

end RapidLog
