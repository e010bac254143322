import RapidLog.Backend

/-!
# What one step of the backend does

Every step of the backend is one of those that `Effect` lists. The steps of a worker between two
polls are split once more: `Moves` are the ones that leave the batch and the sinks alone,
`Finishes` the ones with which the worker is done with a message.
-/

namespace RapidLog

variable [Target] {τ : Type} [DecidableEq τ]

namespace WorkerPhase

/-- The messages of the batch that the worker is not done with. -/
def held : WorkerPhase τ → List (Raw τ)
  | loopHead | firstPoll | exited => []
  | batchHead rawMessages | morePoll rawMessages | sorting rawMessages => rawMessages
  | dispatching rest => rest.map Prod.snd
  | filtering cur _ rest | writing cur _ _ _ rest => cur.2 :: rest.map Prod.snd

/-- The same messages with their headers, once they are decoded. -/
def decoded : WorkerPhase τ → List (Decoded τ)
  | dispatching rest => rest
  | filtering cur _ rest | writing cur _ _ _ rest => cur :: rest
  | _ => []

/-- The worker is in `poll_all_registered_queues`. -/
def Polling : WorkerPhase τ → Prop
  | firstPoll | morePoll _ => True
  | _ => False

end WorkerPhase

/-- Whether the message was written to the sinks. -/
def Verdict.isPassed : Verdict → Bool
  | passed .. => true
  | belowLevel _ | filtered .. => false

namespace Backend

/-- The steps that change the level or the filters of a logger. -/
def Event.configures : Event τ → Bool
  | .setLogLevel .. | .addFilter .. | .clearFilters _ => true
  | _ => false

/-- The steps of a worker that keep its batch. -/
inductive Moves (env : Env) (s : State τ) (w : ℕ) :
    Event τ → WorkerPhase τ → WorkerPhase τ → Prop
  | exit : Moves env s w (.loadStop w true) .loopHead .exited
  | firstPoll : Moves env s w (.loadStop w false) .loopHead .firstPoll
  | stopGathering {raws} : Moves env s w (.loadStop w true) (.batchHead raws) (.sorting raws)
  | morePoll {raws} : Moves env s w (.loadStop w false) (.batchHead raws) (.morePoll raws)
  | sort {raws decoded} (hsorted : Sorted raws decoded) :
    Moves env s w (.sort w decoded) (.sorting raws) (.dispatching decoded)
  | batchDone : Moves env s w (.next w) (.dispatching []) .loopHead
  | meetsLevel {cur rest}
    (hlevel : (env.metas cur.1.metadataPtr).meetsLevel (s.loggers cur.1.loggerPtr).logLevel) :
    Moves env s w (.next w) (.dispatching (cur :: rest))
      (.filtering cur (s.loggers cur.1.loggerPtr).logLevel rest)
  | passesFilters {cur level rest}
    (hpass : (env.metas cur.1.metadataPtr).passesFilters (s.loggers cur.1.loggerPtr).filters
      (payload cur.2)) :
    Moves env s w (.checkFilters w) (.filtering cur level rest)
      (.writing cur level (s.loggers cur.1.loggerPtr).filters (s.loggers cur.1.loggerPtr).sinks
        rest)

/-- The steps with which a worker is done with a message. -/
inductive Finishes (env : Env) (s : State τ) (w : ℕ) :
    WorkerPhase τ → Decoded τ → Verdict → List (Decoded τ) → Prop
  | belowLevel {cur rest}
    (hlevel : ¬ (env.metas cur.1.metadataPtr).meetsLevel (s.loggers cur.1.loggerPtr).logLevel) :
    Finishes env s w (.dispatching (cur :: rest)) cur
      (.belowLevel (s.loggers cur.1.loggerPtr).logLevel) rest
  | filtered {cur level rest}
    (hpass : ¬ (env.metas cur.1.metadataPtr).passesFilters (s.loggers cur.1.loggerPtr).filters
      (payload cur.2)) :
    Finishes env s w (.filtering cur level rest) cur
      (.filtered level (s.loggers cur.1.loggerPtr).filters) rest
  | passed {cur level filters rest} :
    Finishes env s w (.writing cur level filters [] rest) cur (.passed level filters) rest

/-- What a step can do. -/
inductive Effect (env : Env) (s : State τ) : Event τ → State τ → Prop
  | thread {e tc} (he : e.isThreadStep = true)
    (htc : ThreadContext.step env.uninit s.tc e = some tc) :
    Effect env s (.thread e) { s with tc }
  | logCheck {t call} (calling : τ → Option LogCall) :
    Effect env s (.logCheck t call) { s with calling }
  | logPush {t call tc} (calling : τ → Option LogCall)
    (htc : ThreadContext.step env.uninit s.tc (.attempt t call.request) = some tc) :
    Effect env s (.logPush t) { s with tc, calling, logged := s.logged ++ [(t, call)] }
  | logger {e ptr logger} (he : e.configures = true)
    (hsinks : logger.sinks = (s.loggers ptr).sinks) :
    Effect env s e (s.setLogger ptr logger)
  | start {options} :
    Effect env s (.start options)
      { s with
        workers := Function.update s.workers s.started
          { options, stopSignal := false, phase := .loopHead }
        started := s.started + 1 }
  | stop {w} (hw : w < s.started) :
    Effect env s (.stop w)
      { s with workers := Function.update s.workers w { s.workers w with stopSignal := true } }
  | pollBegin {w tc} (hw : w < s.started) (hphase : (s.workers w).phase.Polling)
    (htc : ThreadContext.step env.uninit s.tc (.pollBegin w) = some tc) :
    Effect env s (.pollBegin w) { s with tc }
  | pollStep {p tc} (hp : s.tc.poll = some p)
    (htc : ThreadContext.step env.uninit s.tc .pollStep = some tc) :
    Effect env s (.pollStep p.poller) { s with tc }
  | pollEnd {p tc phase} (hp : s.tc.poll = some p)
    (htc : ThreadContext.step env.uninit s.tc .pollEnd = some tc)
    (hphase : afterPoll (s.workers p.poller) p.allMsgs = some phase) :
    Effect env s (.pollEnd p.poller) { s.setPhase p.poller phase with tc }
  | move {e w phase} (hw : w < s.started) (hmove : Moves env s w e (s.workers w).phase phase) :
    Effect env s e (s.setPhase w phase)
  | finish {e w cur verdict rest} (hw : w < s.started)
    (hfinish : Finishes env s w (s.workers w).phase cur verdict rest) :
    Effect env s e (s.finish w cur verdict rest)
  | write {w cur level filters sink sinks rest} (hw : w < s.started)
    (hphase : (s.workers w).phase = .writing cur level filters (sink :: sinks) rest) :
    Effect env s (.writeSink w)
      { s.setPhase w (.writing cur level filters sinks rest) with
        sinkCalls := s.sinkCalls ++
          [.write w cur.2 sink ((s.workers w).options.formatMessage cur.1 (payload cur.2))] }

omit [Target] [DecidableEq τ] in
/-- After a poll the worker holds its batch and what the poll has returned. -/
theorem held_afterPoll {worker : Worker τ} {msgs : List (Raw τ)} {phase : WorkerPhase τ}
    (h : afterPoll worker msgs = some phase) :
    worker.phase.Polling ∧ phase.held = worker.phase.held ++ msgs ∧ phase.decoded = [] ∧
      worker.phase.decoded = [] := by
  have hgather : ∀ raws : List (Raw τ), (gather worker.options raws).held = raws ∧
      (gather worker.options raws).decoded = [] := by
    intro raws
    unfold gather
    split <;> exact ⟨rfl, rfl⟩
  cases hphase : worker.phase with
  | firstPoll =>
    simp only [afterPoll, hphase] at h
    cases msgs with
    | nil =>
      cases h
      exact ⟨trivial, rfl, rfl, rfl⟩
    | cons m ms =>
      cases h
      exact ⟨trivial, (hgather _).1, (hgather _).2, rfl⟩
  | morePoll raws =>
    simp only [afterPoll, hphase] at h
    cases msgs with
    | nil =>
      cases h
      exact ⟨trivial, (List.append_nil raws).symm, rfl, rfl⟩
    | cons m ms =>
      cases h
      exact ⟨trivial, (hgather _).1, (hgather _).2, rfl⟩
  | _ =>
    simp only [afterPoll, hphase] at h
    cases h

section Cases

variable {env : Env} {s s' : State τ} {w : ℕ} {e : Event τ}

private theorem loadStop_effect {seen : Bool} (hw : w < s.started)
    (hs : workerStep env s w (.loadStop w seen) = some s') :
    Effect env s (.loadStop w seen) s' := by
  simp only [workerStep] at hs
  split at hs
  · cases hs
  · split at hs
    · next hphase =>
      cases hs
      refine .move hw ?_
      rw [hphase]
      cases seen
      · exact .firstPoll
      · exact .exit
    · next raws hphase =>
      cases hs
      refine .move hw ?_
      rw [hphase]
      cases seen
      · exact .morePoll
      · exact .stopGathering
    · cases hs

private theorem sort_effect {decoded : List (Decoded τ)} (hw : w < s.started)
    (hs : workerStep env s w (.sort w decoded) = some s') :
    Effect env s (.sort w decoded) s' := by
  simp only [workerStep] at hs
  split at hs
  · next raws hphase =>
    split at hs
    · next hsorted =>
      cases hs
      refine .move hw ?_
      rw [hphase]
      exact .sort hsorted
    · cases hs
  · cases hs

private theorem next_effect (hw : w < s.started)
    (hs : workerStep env s w (.next w) = some s') : Effect env s (.next w) s' := by
  simp only [workerStep] at hs
  split at hs
  · next hphase =>
    cases hs
    refine .move hw ?_
    rw [hphase]
    exact .batchDone
  · next cur rest hphase =>
    split at hs
    · next hlevel =>
      cases hs
      refine .move hw ?_
      rw [hphase]
      exact .meetsLevel hlevel
    · next hlevel =>
      cases hs
      refine .finish hw ?_
      rw [hphase]
      exact .belowLevel hlevel
  · cases hs

private theorem checkFilters_effect (hw : w < s.started)
    (hs : workerStep env s w (.checkFilters w) = some s') :
    Effect env s (.checkFilters w) s' := by
  simp only [workerStep] at hs
  split at hs
  · next cur level rest hphase =>
    split at hs
    · next hpass =>
      cases hs
      refine .move hw ?_
      rw [hphase]
      exact .passesFilters hpass
    · next hpass =>
      cases hs
      refine .finish hw ?_
      rw [hphase]
      exact .filtered hpass
  · cases hs

private theorem writeSink_effect (hw : w < s.started)
    (hs : workerStep env s w (.writeSink w) = some s') : Effect env s (.writeSink w) s' := by
  simp only [workerStep] at hs
  split at hs
  · next hphase =>
    cases hs
    exact .write hw hphase
  · next hphase =>
    cases hs
    refine .finish hw ?_
    rw [hphase]
    exact .passed
  · cases hs

/-- Every step is one of those that `Effect` lists. -/
theorem step_effect (hs : step env s e = some s') : Effect env s e s' := by
  cases e with
  | thread e =>
    simp only [step] at hs
    split at hs
    · next he =>
      obtain ⟨tc, htc, rfl⟩ := Option.map_eq_some_iff.mp hs
      exact .thread he htc
    · cases hs
  | logCheck t call =>
    simp only [step] at hs
    cases hs
    exact .logCheck _
  | logPush t =>
    simp only [step] at hs
    split at hs
    · obtain ⟨tc, htc, rfl⟩ := Option.map_eq_some_iff.mp hs
      exact .logPush _ htc
    · cases hs
  | setLogLevel ptr level =>
    cases hs
    exact .logger rfl rfl
  | addFilter ptr filter =>
    cases hs
    exact .logger rfl rfl
  | clearFilters ptr =>
    cases hs
    exact .logger rfl rfl
  | start options =>
    cases hs
    exact .start
  | stop w =>
    simp only [step] at hs
    split at hs
    · next hw =>
      cases hs
      exact .stop hw
    · cases hs
  | pollBegin w =>
    simp only [step] at hs
    split at hs
    · next hw =>
      split at hs
      · next hphase =>
        obtain ⟨tc, htc, rfl⟩ := Option.map_eq_some_iff.mp hs
        exact .pollBegin hw (by rw [hphase]; trivial) htc
      · next hphase =>
        obtain ⟨tc, htc, rfl⟩ := Option.map_eq_some_iff.mp hs
        exact .pollBegin hw (by rw [hphase]; trivial) htc
      · cases hs
    · cases hs
  | pollStep w =>
    simp only [step] at hs
    split at hs
    · next p hp =>
      split at hs
      · next hw =>
        obtain ⟨tc, htc, rfl⟩ := Option.map_eq_some_iff.mp hs
        exact hw ▸ .pollStep hp htc
      · cases hs
    · cases hs
  | pollEnd w =>
    simp only [step] at hs
    split at hs
    · next p hp =>
      split at hs
      · next hw =>
        obtain ⟨tc, htc, hrest⟩ := Option.bind_eq_some_iff.mp hs
        obtain ⟨phase, hphase, rfl⟩ := Option.map_eq_some_iff.mp hrest
        subst hw
        exact .pollEnd hp htc hphase
      · cases hs
    · cases hs
  | loadStop w seen =>
    simp only [step] at hs
    split at hs
    · next hw => exact loadStop_effect hw hs
    · cases hs
  | sort w decoded =>
    simp only [step] at hs
    split at hs
    · next hw => exact sort_effect hw hs
    · cases hs
  | next w =>
    simp only [step] at hs
    split at hs
    · next hw => exact next_effect hw hs
    · cases hs
  | checkFilters w =>
    simp only [step] at hs
    split at hs
    · next hw => exact checkFilters_effect hw hs
    · cases hs
  | writeSink w =>
    simp only [step] at hs
    split at hs
    · next hw => exact writeSink_effect hw hs
    · cases hs

end Cases

end Backend

end RapidLog
