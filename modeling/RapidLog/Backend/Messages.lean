import RapidLog.Backend.Conservation
import RapidLog.Lib.FlatMap

/-!
# What the messages hold

Every message that the queues have accepted is what the closure of a log call wrote
(`AcceptedWrites`), and a worker writes a message to the sinks only when it has checked its filters
(`writing_of_step`). Once all workers have exited, a sink has been called once for each message that
passed and each time that the logger of the message has the sink (`Inv.writtenTo_perm`). The other
lemmas say what a step leaves alone.
-/

namespace RapidLog

open Queue ThreadContext

variable [Target] {τ : Type} [DecidableEq τ]

namespace Backend

/-- Every accepted message is what the closure of a log call wrote. -/
def AcceptedWrites (s : State τ) : Prop :=
  ∀ raw ∈ s.tc.accepted, ∃ t call, raw.1 = some t ∧ (t, call) ∈ s.logged ∧
    call.request.Writes raw.2

section

variable {env : Env} {s s' : State τ} {e : Event τ}

/-- A step of a thread, or of the queue under a log call. -/
private theorem AcceptedWrites.of_thread (h : AcceptedWrites s) (hinv : Inv env s)
    {e : ThreadContext.Event τ} {tc : ThreadContext.State τ}
    (hcap : ThreadContext.CapacityOk e) (htc : ThreadContext.step env.uninit s.tc e = some tc)
    {logged : List (τ × LogCall)} (hlogged : ∀ x ∈ s.logged, x ∈ logged)
    (hoffer : ∀ t req, e = .attempt t req → ∃ call, (t, call) ∈ logged ∧ req = call.request) :
    ∀ raw ∈ tc.accepted, ∃ t call, raw.1 = some t ∧ (t, call) ∈ logged ∧
      call.request.Writes raw.2 := by
  intro raw hraw
  have hold : raw ∈ s.tc.accepted → ∃ t call, raw.1 = some t ∧ (t, call) ∈ logged ∧
      call.request.Writes raw.2 := by
    intro hmem
    obtain ⟨t, call, ht, hcall, hwrites⟩ := h raw hmem
    exact ⟨t, call, ht, hlogged _ hcall, hwrites⟩
  rcases (hinv.tc.effect hcap htc).accepted with heq | ⟨t, b, req, r, msg, hoffers, hatt, heq⟩
  · exact hold (heq ▸ hraw)
  · rw [heq] at hraw
    rcases List.mem_append.mp hraw with hmem | hmem
    · exact hold hmem
    · obtain rfl := List.mem_singleton.mp hmem
      have hcall : ∃ call, (t, call) ∈ logged ∧ req = call.request := by
        cases hoffers with
        | attempt ht => exact hoffer t req rfl
        | retry ht =>
          obtain ⟨call, hcall, heq⟩ := hinv.requests t req (by rw [ht]; rfl)
          exact ⟨call, hlogged _ hcall, heq⟩
      have hb : b < s.tc.created := by
        cases hoffers with
        | attempt ht => exact hinv.tc.lt_of_owner (hinv.tc.current t b (by rw [ht]; rfl)).1
        | retry ht => exact hinv.tc.lt_of_owner (hinv.tc.current t b (by rw [ht]; rfl)).1
      obtain ⟨call, hcall, rfl⟩ := hcall
      exact ⟨t, call, rfl, hcall, Request.attempt_pushEncoded (hinv.tc.holds b hb).aligned hatt⟩

theorem AcceptedWrites.step (h : AcceptedWrites s) (hinv : Inv env s) (hcap : CapacityOk e)
    (hs : step env s e = some s') : AcceptedWrites s' := by
  cases step_effect hs with
  | @thread e tc he htc =>
    refine h.of_thread hinv hcap htc (fun _ h => h) ?_
    rintro t req rfl
    cases he
  | @logPush t call tc calling htc =>
    refine h.of_thread hinv (e := .attempt t call.request) trivial htc
      (fun _ h => List.mem_append_left _ h) ?_
    intro t' req heq
    cases heq
    exact ⟨call, List.mem_append_right _ List.mem_cons_self, rfl⟩
  | @pollBegin w tc _ _ htc =>
    refine h.of_thread hinv (e := .pollBegin w) trivial htc (fun _ h => h) ?_
    intro t req heq
    cases heq
  | pollStep hp htc =>
    refine h.of_thread hinv (e := .pollStep) trivial htc (fun _ h => h) ?_
    intro t req heq
    cases heq
  | pollEnd hp htc _ =>
    refine h.of_thread hinv (e := .pollEnd) trivial htc (fun _ h => h) ?_
    intro t req heq
    cases heq
  | logCheck | logger | start | stop | move | finish | write => exact h

/-- A worker begins to write a message only when it has checked the filters. -/
theorem writing_of_step (hs : step env s e = some s') {w : ℕ} {cur : Decoded τ} {level : LogLevel}
    {filters : List Filter} {sinks : List ℕ} {rest : List (Decoded τ)}
    (hphase : (s'.workers w).phase = .writing cur level filters sinks rest) :
    e = .checkFilters w ∨
      ∃ sinks', (s.workers w).phase = .writing cur level filters sinks' rest := by
  have hkept : ∀ {w' : ℕ} {phase : WorkerPhase τ},
      ((s.setPhase w' phase).workers w).phase = .writing cur level filters sinks rest →
      (w = w' ∧ phase = .writing cur level filters sinks rest) ∨
        (s.workers w).phase = .writing cur level filters sinks rest := by
    intro w' phase hphase
    rcases eq_or_ne w w' with rfl | hne
    · rw [Inv.workers_setPhase_self] at hphase
      exact .inl ⟨rfl, hphase⟩
    · rw [Inv.workers_setPhase_of_ne s phase hne] at hphase
      exact .inr hphase
  cases step_effect hs with
  | thread | logCheck | logPush | logger | pollBegin | pollStep => exact .inr ⟨sinks, hphase⟩
  | start =>
    rcases eq_or_ne w s.started with rfl | hne
    · simp at hphase
    · exact .inr ⟨sinks, by simpa [hne] using hphase⟩
  | @stop w' hw =>
    rcases eq_or_ne w w' with rfl | hne
    · exact .inr ⟨sinks, by simpa using hphase⟩
    · exact .inr ⟨sinks, by simpa [hne] using hphase⟩
  | @pollEnd p tc phase hp htc hafter =>
    rcases hkept hphase with ⟨-, rfl⟩ | hold
    · have hdecoded := (held_afterPoll hafter).2.2.1
      cases hdecoded
    · exact .inr ⟨sinks, hold⟩
  | @move e w' phase hw hmove =>
    rcases hkept hphase with ⟨rfl, rfl⟩ | hold
    · generalize (s.workers w).phase = old at hmove
      cases hmove with
      | passesFilters => exact .inl rfl
    · exact .inr ⟨sinks, hold⟩
  | finish hw hfinish =>
    rcases hkept hphase with ⟨-, hnone⟩ | hold
    · cases hnone
    · exact .inr ⟨sinks, hold⟩
  | write hw hold =>
    rcases hkept hphase with ⟨rfl, heq⟩ | hold
    · cases heq
      exact .inr ⟨_, hold⟩
    · exact .inr ⟨sinks, hold⟩

/-- Only a log call changes what is being logged and what has reached the queue. -/
theorem calling_of_step (hs : step env s e = some s') (hcheck : ∀ t call, e ≠ .logCheck t call)
    (hpush : ∀ t, e ≠ .logPush t) : s'.calling = s.calling ∧ s'.logged = s.logged := by
  cases step_effect hs with
  | logCheck => exact absurd rfl (hcheck _ _)
  | logPush => exact absurd rfl (hpush _)
  | _ => exact ⟨rfl, rfl⟩

/-- Only `writeSink` calls a sink. -/
theorem sinkCalls_of_step_ne (hs : step env s e = some s') (hwrite : ∀ w, e ≠ .writeSink w) :
    s'.sinkCalls = s.sinkCalls := by
  cases step_effect hs with
  | write => exact absurd rfl (hwrite _)
  | _ => rfl

theorem started_of_step (hs : step env s e = some s') : s.started ≤ s'.started := by
  cases step_effect hs with
  | start => exact Nat.le_succ _
  | _ => exact le_rfl

/-- Workers that leave the texts out. -/
def Blank (s : State τ) : Prop :=
  ∀ w header bytes, (s.workers w).options.formatMessage header bytes = ""

theorem Blank.step (h : Blank s) (hs : step env s e = some s')
    (hstart : ∀ options, e = .start options → options.formatMessage = fun _ _ => "") :
    Blank s' := by
  have hset : ∀ (w : ℕ) (phase : WorkerPhase τ), Blank (s.setPhase w phase) := by
    intro w phase w' header bytes
    rw [Inv.options_setPhase]
    exact h w' header bytes
  cases step_effect hs with
  | thread | logCheck | logPush | logger | pollBegin | pollStep => exact h
  | start =>
    intro w header bytes
    rcases eq_or_ne w s.started with rfl | hne
    · simp [hstart _ rfl]
    · simpa [hne] using h w header bytes
  | @stop w' hw =>
    intro w header bytes
    rcases eq_or_ne w w' with rfl | hne
    · simpa using h w header bytes
    · simpa [hne] using h w header bytes
  | pollEnd | move | finish | write => exact hset _ _

/-! ### What the sinks have been called with -/

/-- Once all workers have exited, the sinks have been called for the messages that are handled. -/
theorem Inv.sinkCalls_perm (h : Inv env s)
    (hexited : ∀ w < s.started, (s.workers w).phase = .exited) :
    s.sinkCalls.Perm (s.handled.flatMap s.expectedCalls) := by
  have hbegun : ∀ w, s.begun w = [] := by
    intro w
    rcases Nat.lt_or_ge w s.started with hw | hw
    · exact (h.batch_exited (hexited w hw)).2
    · rw [State.begun, h.unstarted w hw]
      rfl
  -- the calls of each worker are in the order of what it has handled, those of all are not
  have hworker : ∀ r : Handled τ, ∀ call ∈ s.expectedCalls r, call.worker = r.worker := by
    intro r call hcall
    unfold State.expectedCalls at hcall
    split at hcall
    · obtain ⟨sink, -, rfl⟩ := List.mem_map.mp hcall
      rfl
    · cases hcall
  refine FlatMap.perm_of_keys SinkCall.worker fun w => ?_
  rw [FlatMap.filter_flatMap_key hworker]
  have hcalls := h.calls w
  rwa [hbegun, List.append_nil] at hcalls

/-- The message that a call writes to a sink. -/
def writtenTo (sink : ℕ) : SinkCall τ → Option (Raw τ)
  | .write _ raw sink' _ => if sink' = sink then some raw else none
  | .flush .. => none

/-- A message that has passed, once for each time that its logger has the sink. -/
def State.copies (s : State τ) (sink : ℕ) (r : Handled τ) : List (Raw τ) :=
  if r.verdict.isPassed then List.replicate ((s.sinksOf r.header).count sink) r.raw else []

omit [Target] [DecidableEq τ] in
theorem filterMap_writtenTo (s : State τ) (sink : ℕ) (r : Handled τ) :
    (s.expectedCalls r).filterMap (writtenTo sink) = s.copies sink r := by
  have hwrites : ∀ sinks : List ℕ,
      (s.writes r.worker r.header r.raw sinks).filterMap (writtenTo sink) =
        List.replicate (sinks.count sink) r.raw := by
    intro sinks
    induction sinks with
    | nil => rfl
    | cons sink' sinks ih =>
      rw [State.writes, List.map_cons, List.filterMap_cons, ← State.writes, ih]
      by_cases hsink : sink' = sink
      · simp [writtenTo, hsink, List.replicate_succ]
      · simp [writtenTo, hsink]
  unfold State.expectedCalls State.copies
  split
  · exact hwrites _
  · rfl

/-- What a sink has been called with, once all workers have exited. -/
theorem Inv.writtenTo_perm (h : Inv env s)
    (hexited : ∀ w < s.started, (s.workers w).phase = .exited) (sink : ℕ) :
    (s.sinkCalls.filterMap (writtenTo sink)).Perm (s.handled.flatMap (s.copies sink)) := by
  have hperm := (h.sinkCalls_perm hexited).filterMap (writtenTo sink)
  rwa [List.filterMap_flatMap, List.flatMap_congr fun r _ => filterMap_writtenTo s sink r] at hperm

end

end Backend

end RapidLog
