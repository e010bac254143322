import RapidLog.Backend.Invariant
import RapidLog.Formatter
import RapidLog.Lib.Simulation

/-!
# Workers that unwind

`format_message` panics on some messages, for one on those whose schemas the interpreter cannot
read. The worker calls it behind the filters and before the sinks, and nothing catches the panic:
its thread ends, and the rest of its batch goes with it.

`Unwinding.step` is the machine of the backend with the text that `format_message` makes of each
message, and with its panics. No other part of the program notices the end of a worker, so a worker
that has unwound is like one that takes no further step. `step_unwind` says this of one step, and
`stalled_of_reach` of whole runs.
-/

namespace RapidLog

namespace Backend

section Unwound

variable {τ : Type}

/-- The same state with the workers in `unwound` out of their loop. -/
def State.unwind (s : State τ) (unwound : ℕ → Bool) : State τ :=
  { s with workers := fun w =>
      if unwound w then { s.workers w with phase := .exited } else s.workers w }

namespace Unwinding

variable {s : State τ} {w : ℕ}

@[simp]
theorem tc_unwind (u : ℕ → Bool) : (s.unwind u).tc = s.tc := rfl

@[simp]
theorem loggers_unwind (u : ℕ → Bool) : (s.unwind u).loggers = s.loggers := rfl

@[simp]
theorem calling_unwind (u : ℕ → Bool) : (s.unwind u).calling = s.calling := rfl

theorem workers_unwind {u : ℕ → Bool} (hu : u w = false) :
    (s.unwind u).workers w = s.workers w := by
  simp [State.unwind, hu]

theorem phase_unwind {u : ℕ → Bool} (hu : u w = true) :
    ((s.unwind u).workers w).phase = .exited := by
  simp [State.unwind, hu]

/-- A worker whose phase is another one has not unwound. -/
theorem eq_false_of_phase {u : ℕ → Bool} (h : ((s.unwind u).workers w).phase ≠ .exited) :
    u w = false := by
  cases hu : u w with
  | false => rfl
  | true => exact absurd (phase_unwind hu) h

theorem setPhase_unwind {u : ℕ → Bool} (hu : u w = false) (phase : WorkerPhase τ) :
    (s.unwind u).setPhase w phase = (s.setPhase w phase).unwind u := by
  simp only [State.unwind, State.setPhase, State.mk.injEq, and_true, true_and]
  funext w'
  rcases eq_or_ne w' w with rfl | hne
  · simp [hu]
  · simp [hne]

variable [Target] [DecidableEq τ] {env : Env} {s' : State τ} {e : Event τ}

/-- A worker that is about to write has just found that the message passes its filters. -/
private theorem phase_of_checkFilters {t : State τ} {cur : Decoded τ} {level : LogLevel}
    {filters : List Filter} {sinks : List ℕ} {rest : List (Decoded τ)}
    (hs : Backend.step env s (.checkFilters w) = some t)
    (hphase : (t.workers w).phase = .writing cur level filters sinks rest) :
    w < s.started ∧ (s.workers w).phase = .filtering cur level rest ∧
      (env.metas cur.1.metadataPtr).passesFilters (s.loggers cur.1.loggerPtr).filters
        (payload cur.2) = true := by
  simp only [Backend.step, workerStep] at hs
  split at hs
  · next hw =>
    split at hs
    · next hold =>
      split at hs
      · next hpass =>
        cases hs
        rw [Inv.workers_setPhase_self] at hphase
        cases hphase
        exact ⟨hw, hold, hpass⟩
      · cases hs
        rw [State.finish, Inv.workers_setPhase_self] at hphase
        cases hphase
    · cases hs
  · cases hs

/-- A worker that has not unwound goes on as before. -/
private theorem workerStep_unwind {u : ℕ → Bool} (hu : u w = false) :
    workerStep env (s.unwind u) w e = (workerStep env s w e).map (·.unwind u) := by
  have hset := setPhase_unwind (s := s) hu
  have hfinish : ∀ cur verdict rest,
      (s.unwind u).finish w cur verdict rest = (s.finish w cur verdict rest).unwind u := by
    intro cur verdict rest
    rw [State.finish, hset]
    rfl
  cases e with
  | loadStop w' seen =>
    simp only [workerStep, workers_unwind hu, hset]
    split
    · rfl
    · split <;> rfl
  | sort w' decoded =>
    simp only [workerStep, workers_unwind hu, hset]
    split
    · split <;> rfl
    · rfl
  | next w' =>
    simp only [workerStep, workers_unwind hu, hset, hfinish, loggers_unwind]
    split
    · rfl
    · split <;> rfl
    · rfl
  | checkFilters w' =>
    simp only [workerStep, workers_unwind hu, hset, hfinish, loggers_unwind]
    split
    · split <;> rfl
    · rfl
  | writeSink w' =>
    simp only [workerStep, workers_unwind hu, hset, hfinish]
    split <;> rfl
  | _ => rfl

/-- A step of a worker between two polls leaves the other workers alone. -/
private theorem workerStep_frame {t : State τ} (hs : workerStep env s w e = some t) :
    t.started = s.started ∧ ∀ w', w' ≠ w → t.workers w' = s.workers w' := by
  have hset : ∀ phase, (s.setPhase w phase).started = s.started ∧
      ∀ w', w' ≠ w → (s.setPhase w phase).workers w' = s.workers w' :=
    fun phase => ⟨rfl, fun w' hne => Inv.workers_setPhase_of_ne s phase hne⟩
  cases e with
  | loadStop w' seen =>
    simp only [workerStep] at hs
    split at hs
    · cases hs
    · split at hs <;> cases hs <;> exact hset _
  | sort w' decoded =>
    simp only [workerStep] at hs
    split at hs
    · split at hs <;> cases hs
      exact hset _
    · cases hs
  | next w' =>
    simp only [workerStep] at hs
    split at hs
    · cases hs
      exact hset _
    · split at hs <;> cases hs <;> exact hset _
    · cases hs
  | checkFilters w' =>
    simp only [workerStep] at hs
    split at hs
    · split at hs <;> cases hs <;> exact hset _
    · cases hs
  | writeSink w' =>
    simp only [workerStep] at hs
    split at hs <;> cases hs <;> exact hset _
  | _ => cases hs

/-- The others do not notice the workers that have unwound, and these stay where they are. -/
theorem step_unwind {u : ℕ → Bool} (hu : ∀ w, u w = true → w < s.started)
    (hs : Backend.step env (s.unwind u) e = some s') :
    ∃ t, Backend.step env s e = some t ∧ s' = t.unwind u ∧ s.started ≤ t.started ∧
      ∀ w, u w = true → (t.workers w).phase = (s.workers w).phase := by
  -- one that has unwound is out of its loop, and takes no step between two polls
  have hown : ∀ w, workerStep env (s.unwind u) w e = some s' → u w = false := by
    intro w hs
    refine eq_false_of_phase (s := s) fun hphase => ?_
    cases e with
    | loadStop | sort | next | checkFilters | writeSink => simp [workerStep, hphase] at hs
    | _ => cases hs
  cases e with
  | thread e =>
    simp only [Backend.step, tc_unwind] at hs ⊢
    split at hs
    · next he =>
      obtain ⟨tc, htc, rfl⟩ := Option.map_eq_some_iff.mp hs
      rw [if_pos he, htc]
      exact ⟨_, rfl, rfl, le_rfl, fun _ _ => rfl⟩
    · cases hs
  | logCheck | setLogLevel | addFilter | clearFilters =>
    cases hs
    exact ⟨_, rfl, rfl, le_rfl, fun _ _ => rfl⟩
  | logPush t =>
    simp only [Backend.step, tc_unwind, calling_unwind] at hs ⊢
    split at hs
    · obtain ⟨tc, htc, rfl⟩ := Option.map_eq_some_iff.mp hs
      rw [htc]
      exact ⟨_, rfl, rfl, le_rfl, fun _ _ => rfl⟩
    · cases hs
  | start options =>
    cases hs
    -- the index of the new worker is that of none before
    have hnew : u s.started = false := by
      cases hstarted : u s.started with
      | false => rfl
      | true => exact absurd (hu _ hstarted) (lt_irrefl _)
    refine ⟨_, rfl, ?_, Nat.le_succ _, fun w hw => ?_⟩
    · simp only [State.unwind, State.mk.injEq, and_true, true_and]
      funext w
      rcases eq_or_ne w s.started with rfl | hne
      · simp [hnew]
      · simp [hne]
    · simp [(hu w hw).ne]
  | stop w =>
    simp only [Backend.step] at hs ⊢
    split at hs
    · next hw =>
      cases hs
      rw [if_pos (show w < s.started from hw)]
      refine ⟨_, rfl, ?_, le_rfl, fun w' _ => ?_⟩
      · simp only [State.unwind, State.mk.injEq, and_true, true_and]
        funext w'
        rcases eq_or_ne w' w with rfl | hne
        · simp only [Function.update_self]
          split <;> rfl
        · simp [hne]
      · rcases eq_or_ne w' w with rfl | hne
        · simp
        · simp [hne]
    · cases hs
  | pollBegin w =>
    simp only [Backend.step, tc_unwind] at hs ⊢
    split at hs
    · next hw =>
      have hphase : ((s.unwind u).workers w).phase ≠ .exited := by
        intro hphase
        simp [hphase] at hs
      rw [workers_unwind (eq_false_of_phase hphase)] at hs
      rw [if_pos (show w < s.started from hw)]
      split at hs
      · obtain ⟨tc, htc, rfl⟩ := Option.map_eq_some_iff.mp hs
        rw [htc]
        exact ⟨_, rfl, rfl, le_rfl, fun _ _ => rfl⟩
      · obtain ⟨tc, htc, rfl⟩ := Option.map_eq_some_iff.mp hs
        rw [htc]
        exact ⟨_, rfl, rfl, le_rfl, fun _ _ => rfl⟩
      · cases hs
    · cases hs
  | pollStep w =>
    simp only [Backend.step, tc_unwind] at hs ⊢
    split at hs
    · next p hp =>
      split at hs
      · next hpoller =>
        -- a poll goes on without reading anything of a worker
        obtain ⟨tc, htc, rfl⟩ := Option.map_eq_some_iff.mp hs
        simp only [if_pos hpoller, htc]
        exact ⟨_, rfl, rfl, le_rfl, fun _ _ => rfl⟩
      · cases hs
    · cases hs
  | pollEnd w =>
    simp only [Backend.step, tc_unwind] at hs ⊢
    split at hs
    · next p hp =>
      split at hs
      · next hpoller =>
        obtain ⟨tc, htc, hrest⟩ := Option.bind_eq_some_iff.mp hs
        obtain ⟨phase, hafter, rfl⟩ := Option.map_eq_some_iff.mp hrest
        -- what comes after the poll depends on the phase of its worker
        have hphase : ((s.unwind u).workers w).phase ≠ .exited := by
          intro hphase
          simp [afterPoll, hphase] at hafter
        have hfalse := eq_false_of_phase hphase
        rw [workers_unwind hfalse] at hafter
        simp only [if_pos hpoller, htc, Option.bind_some, hafter, Option.map_some]
        refine ⟨_, rfl, ?_, le_rfl, fun w' hw' => ?_⟩
        · rw [setPhase_unwind hfalse]
          rfl
        · refine congrArg Worker.phase (Inv.workers_setPhase_of_ne s phase ?_)
          rintro rfl
          rw [hfalse] at hw'
          cases hw'
      · cases hs
    · cases hs
  | loadStop w seen | sort w decoded | next w | checkFilters w | writeSink w =>
    simp only [Backend.step] at hs ⊢
    split at hs
    · next hw =>
      have hfalse := hown w hs
      rw [workerStep_unwind hfalse] at hs
      obtain ⟨t, ht, rfl⟩ := Option.map_eq_some_iff.mp hs
      obtain ⟨hstarted, hother⟩ := workerStep_frame ht
      rw [if_pos (show w < s.started from hw)]
      refine ⟨t, ht, rfl, hstarted.ge, fun w' htrue => congrArg _ (hother w' ?_)⟩
      rintro rfl
      rw [hfalse] at htrue
      cases htrue
    · cases hs

end Unwinding

end Unwound

variable [Target] [FloatDisplay] [Calendar] {τ : Type} [DecidableEq τ]

/-- What `format_message` reads besides the message and its metadata. -/
structure Formatting where
  /-- `to_display_nanos`, which may panic. -/
  toDisplayNanos : UInt64 → Option UInt64
  /-- What the statics of the call sites hold, by the address of the metadata. They are set once,
  before a message of the call site is pushed. -/
  provided : UInt64 → Provided
  /-- `pattern_formatter` of the options of each worker. -/
  patternFormatter : ℕ → Option PatternFormatter

/-- `format_message` of a worker, unless it panics. -/
def Formatting.message (fmt : Formatting) (env : Env) (w : ℕ) (header : ArchivedHeader)
    (payload : List UInt8) : Option String :=
  formatMessage fmt.toDisplayNanos (env.metas header.metadataPtr) (fmt.provided header.metadataPtr)
    header payload (fmt.patternFormatter w)

namespace Unwinding

/-- The options with the text that the worker makes of a message. -/
def textOptions (fmt : Formatting) (env : Env) (w : ℕ) (options : BackendOptions) :
    BackendOptions where
  minBatchSize := options.minBatchSize
  formatMessage header payload := (fmt.message env w header payload).getD ""

/-- One step of the backend. -/
def step (fmt : Formatting) (env : Env) : Machine (State τ) (Event τ)
  | s, .start options => Backend.step env s (.start (textOptions fmt env s.started options))
  | s, .checkFilters w =>
    (Backend.step env s (.checkFilters w)).map fun s' =>
      match (s'.workers w).phase with
      | .writing cur _ _ _ _ =>
        -- a panic leaves the loop, with what is left of the batch
        if (fmt.message env w cur.1 (payload cur.2)).isSome then s' else s'.setPhase w .exited
      -- the message has not passed
      | _ => s'
  | s, e => Backend.step env s e

/-- A message of a worker that is about to check its filters passes them only if `format_message`
does not panic on it. -/
def FormatsAt (fmt : Formatting) (env : Env) (s : State τ) (w : ℕ) : WorkerPhase τ → Prop
  | .filtering cur _ _ =>
    (env.metas cur.1.metadataPtr).passesFilters (s.loggers cur.1.loggerPtr).filters
      (payload cur.2) → (fmt.message env w cur.1 (payload cur.2)).isSome
  | _ => True

/-- No worker comes to a message on which `format_message` panics. -/
def Formats (fmt : Formatting) (env : Env) (s : State τ) : Event τ → Prop
  | .checkFilters w => FormatsAt fmt env s w (s.workers w).phase
  | _ => True

section

variable {fmt : Formatting} {env : Env} {s s' : State τ} {e : Event τ}

/-- The step of the backend that a step makes. -/
def withText (fmt : Formatting) (env : Env) (s : State τ) : Event τ → Event τ
  | .start options => .start (textOptions fmt env s.started options)
  | e => e

/-- A step is one of the backend, and a worker that panics is out of its loop after it. -/
theorem step_cases (hs : step fmt env s e = some s') :
    ∃ t, Backend.step env s (withText fmt env s e) = some t ∧
      (s' = t ∨ ∃ w cur level filters sinks rest, e = .checkFilters w ∧
        (t.workers w).phase = .writing cur level filters sinks rest ∧
        fmt.message env w cur.1 (payload cur.2) = none ∧ s' = t.setPhase w .exited) := by
  cases e with
  | checkFilters w =>
    obtain ⟨t, ht, rfl⟩ := Option.map_eq_some_iff.mp hs
    refine ⟨t, ht, ?_⟩
    split
    · next cur level filters sinks rest hphase =>
      split
      · exact .inl rfl
      · next hnone =>
        have hmessage : fmt.message env w cur.1 (payload cur.2) = none := by simpa using hnone
        exact .inr ⟨w, cur, level, filters, sinks, rest, rfl, hphase, hmessage, rfl⟩
    · exact .inl rfl
  | _ => exact ⟨s', hs, .inl rfl⟩

/-- Without a panic a step is one of the backend. -/
theorem step_of_formats (hformats : Formats fmt env s e) (hs : step fmt env s e = some s') :
    Backend.step env s (withText fmt env s e) = some s' := by
  obtain ⟨t, ht, rfl | ⟨w, cur, level, filters, sinks, rest, rfl, hphase, hnone, rfl⟩⟩ :=
    step_cases hs
  · exact ht
  · -- the message has passed, so the condition is about its text
    obtain ⟨-, hold, hpass⟩ := phase_of_checkFilters ht hphase
    simp only [Formats, hold] at hformats
    have hsome := hformats hpass
    rw [hnone] at hsome
    cases hsome

omit [DecidableEq τ] in
@[simp]
theorem capacityOk_withText : CapacityOk (withText fmt env s e) ↔ CapacityOk e := by
  cases e <;> rfl

/-- `t` is `s` with the workers that have unwound still about to write. -/
def Stalled (s t : State τ) : Prop :=
  ∃ u : ℕ → Bool, s = t.unwind u ∧ ∀ w, u w = true → w < t.started ∧
    ∃ cur level filters sinks rest, (t.workers w).phase = .writing cur level filters sinks rest

/-- A worker that panics is one that takes no further step. -/
theorem Stalled.step {t : State τ} (h : Stalled s t)
    (hs : Unwinding.step fmt env s e = some s') :
    ∃ t', Backend.step env t (withText fmt env s e) = some t' ∧ Stalled s' t' := by
  obtain ⟨u, rfl, hu⟩ := h
  obtain ⟨s₁, hs₁, hcases⟩ := step_cases hs
  obtain ⟨t', ht', rfl, hstarted, hkept⟩ := step_unwind (fun w hw => (hu w hw).1) hs₁
  have hold : ∀ w, u w = true → w < t'.started ∧ ∃ cur level filters sinks rest,
      (t'.workers w).phase = .writing cur level filters sinks rest := by
    intro w hw
    rw [hkept w hw]
    exact ⟨(hu w hw).1.trans_le hstarted, (hu w hw).2⟩
  refine ⟨t', ht', ?_⟩
  obtain rfl | ⟨w, cur, level, filters, sinks, rest, rfl, hphase, -, rfl⟩ := hcases
  · exact ⟨u, rfl, hold⟩
  · -- one more worker has unwound
    have hfalse : u w = false := by
      refine eq_false_of_phase (s := t') ?_
      rw [hphase]
      rintro ⟨⟩
    have hlt : w < t.started := (phase_of_checkFilters hs₁ hphase).1
    rw [workers_unwind hfalse] at hphase
    refine ⟨Function.update u w true, ?_, fun w' hw' => ?_⟩
    · simp only [State.unwind, State.setPhase, State.mk.injEq, and_true, true_and]
      funext w'
      rcases eq_or_ne w' w with rfl | hne
      · simp [hfalse]
      · simp [hne]
    · rcases eq_or_ne w' w with rfl | hne
      · exact ⟨hlt.trans_le hstarted, _, _, _, _, _, hphase⟩
      · rw [Function.update_of_ne hne] at hw'
        exact hold w' hw'

/-- Every run is one of the backend in which the workers that unwind stall. -/
theorem stalled_of_reach {ok : State τ → Event τ → Prop} (hok : ∀ s e, ok s e → CapacityOk e)
    {s₀ : State τ} (hrun : Machine.Reach (Unwinding.step fmt env) ok s₀ s) :
    ∃ t, Machine.Reach (Backend.step env) (fun _ e => CapacityOk e) s₀ t ∧ Stalled s t := by
  refine hrun.simulate (R := Stalled) (fun s e s' t h he hs => .inr ?_) ⟨fun _ => false, rfl, ?_⟩
  · obtain ⟨t', ht', h'⟩ := h.step hs
    exact ⟨_, t', capacityOk_withText.mpr (hok s e he), ht', h'⟩
  · rintro w ⟨⟩

end

end Unwinding

end Backend

end RapidLog
