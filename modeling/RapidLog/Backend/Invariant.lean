import RapidLog.Backend.Steps

/-!
# The invariant of the backend

What holds between any two steps of the threads and the workers:

* every accepted message comes from a log call and decodes to its header;
* the messages that polls have handed out are in the batch of a worker or have been handled;
* a worker has written what it has handled: the messages that passed, each to all sinks of its
  logger, and the one it is at to some of them;
* the worker whose poll is running is in `poll_all_registered_queues`.

`Inv.step` shows that every step keeps the invariant, one lemma for each case of `Effect`.
-/

namespace RapidLog

variable [Target] {τ : Type} [DecidableEq τ]

/-- The verdict is the one that the level and the filters it names give. -/
def Verdict.Agrees (metadata : Metadata) (payload : List UInt8) : Verdict → Prop
  | belowLevel level => metadata.meetsLevel level = false
  | filtered level filters =>
    metadata.meetsLevel level = true ∧ metadata.passesFilters filters payload = false
  | passed level filters =>
    metadata.meetsLevel level = true ∧ metadata.passesFilters filters payload = true

namespace Backend

namespace State

/-- The calls of one worker. -/
def callsOf (s : State τ) (w : ℕ) : List (SinkCall τ) :=
  s.sinkCalls.filter fun call => call.worker = w

/-- What one worker has handled. -/
def handledBy (s : State τ) (w : ℕ) : List (Handled τ) := s.handled.filter fun r => r.worker = w

/-- The sinks of the logger of a message. -/
def sinksOf (s : State τ) (header : ArchivedHeader) : List ℕ := (s.loggers header.loggerPtr).sinks

/-- One write of a message by a worker to each of the sinks. -/
def writes (s : State τ) (w : ℕ) (header : ArchivedHeader) (raw : Raw τ) (sinks : List ℕ) :
    List (SinkCall τ) :=
  sinks.map fun sink =>
    .write w raw sink ((s.workers w).options.formatMessage header (payload raw))

/-- What a worker owes the sinks for a message that it has handled. -/
def expectedCalls (s : State τ) (r : Handled τ) : List (SinkCall τ) :=
  if r.verdict.isPassed then s.writes r.worker r.header r.raw (s.sinksOf r.header) else []

/-- What a worker that stands in `phase` has written of the message that it is at. -/
def begunIn (s : State τ) (w : ℕ) : WorkerPhase τ → List (SinkCall τ)
  | .writing cur _ _ left _ =>
    s.writes w cur.1 cur.2 ((s.sinksOf cur.1).take ((s.sinksOf cur.1).length - left.length))
  | _ => []

def begun (s : State τ) (w : ℕ) : List (SinkCall τ) := s.begunIn w (s.workers w).phase

/-- The messages that all workers hold. -/
def held (s : State τ) : List (Raw τ) :=
  (List.range s.started).flatMap fun w => (s.workers w).phase.held

end State

/-- What the checks of a message have given so far. -/
def Checked (env : Env) (s : State τ) : WorkerPhase τ → Prop
  | .filtering cur level _ => (env.metas cur.1.metadataPtr).meetsLevel level = true
  | .writing cur level filters left _ =>
    (Verdict.passed level filters).Agrees (env.metas cur.1.metadataPtr) (payload cur.2) ∧
      left <:+ s.sinksOf cur.1
  | _ => True

/-- What holds between any two steps. -/
structure Inv (env : Env) (s : State τ) : Prop where
  tc : ThreadContext.Inv s.tc
  bounded : ThreadContext.Bounded s.tc
  requests : ∀ t req, (s.tc.threads t).request? = some req →
    ∃ call, (t, call) ∈ s.logged ∧ req = call.request
  accepted : ∀ raw ∈ s.tc.accepted, ∃ t call, raw.1 = some t ∧ (t, call) ∈ s.logged ∧
    ArchivedHeader.decode raw.2 = some call.header
  polling : ∀ p, s.tc.poll = some p → p.poller < s.started ∧ (s.workers p.poller).phase.Polling
  taken : s.tc.polled.Perm (s.held ++ s.handled.map Handled.raw)
  decoded : ∀ w, ∀ d ∈ (s.workers w).phase.decoded, ArchivedHeader.decode d.2.2 = some d.1
  checked : ∀ w, Checked env s (s.workers w).phase
  unstarted : ∀ w, s.started ≤ w → (s.workers w).phase = .loopHead
  verdicts : ∀ r ∈ s.handled, r.worker < s.started ∧
    ArchivedHeader.decode r.raw.2 = some r.header ∧
    r.verdict.Agrees (env.metas r.header.metadataPtr) (payload r.raw)
  calls : ∀ w, s.callsOf w = (s.handledBy w).flatMap s.expectedCalls ++ s.begun w

namespace Inv

variable {env : Env} {s : State τ} {w : ℕ} {t : τ} {tc : ThreadContext.State τ}

/-- A step of a thread, or of the queue under a log call. The new messages and requests come from
calls in `logged`. -/
theorem of_thread (h : Inv env s) {e : ThreadContext.Event τ} (hcap : ThreadContext.CapacityOk e)
    (hpoll : e.isPoll = false) (htc : ThreadContext.step env.uninit s.tc e = some tc)
    {logged : List (τ × LogCall)} (calling : τ → Option LogCall)
    (hlogged : ∀ t call, (t, call) ∈ s.logged → (t, call) ∈ logged)
    (hoffer : ∀ t req, e = .attempt t req → ∃ call, (t, call) ∈ logged ∧ req = call.request) :
    Inv env { s with tc, calling, logged } := by
  have heff := h.tc.effect hcap htc
  obtain ⟨hpoll', hpolled⟩ := heff.poll hpoll
  have hold : ∀ t req, (s.tc.threads t).request? = some req →
      ∃ call, (t, call) ∈ logged ∧ req = call.request := by
    intro t req hreq
    obtain ⟨call, hcall, heq⟩ := h.requests t req hreq
    exact ⟨call, hlogged t call hcall, heq⟩
  refine { h with
    tc := h.tc.step hcap.valid (h.bounded.shortMessage h.tc e) htc
    bounded := heff.bounded h.bounded
    requests := fun t req hreq => ?_
    accepted := fun raw hraw => ?_
    polling := fun p hp => h.polling p (hpoll'.symm.trans hp)
    taken := ?_ }
  · rcases heff.request t req hreq with hreq | he
    · exact hold t req hreq
    · exact hoffer t req he
  · have hknown : raw ∈ s.tc.accepted → ∃ t call, raw.1 = some t ∧ (t, call) ∈ logged ∧
        ArchivedHeader.decode raw.2 = some call.header := by
      intro hmem
      obtain ⟨t, call, ht, hcall, hdec⟩ := h.accepted raw hmem
      exact ⟨t, call, ht, hlogged t call hcall, hdec⟩
    rcases heff.accepted with heq | ⟨t, b, req, r, msg, hoffers, hatt, heq⟩
    · exact hknown (heq ▸ hraw)
    · rw [heq] at hraw
      rcases List.mem_append.mp hraw with hmem | hmem
      · exact hknown hmem
      · obtain rfl := List.mem_singleton.mp hmem
        -- the message is what the closure of a log call wrote
        obtain ⟨call, hcall, rfl⟩ : ∃ call, (t, call) ∈ logged ∧ req = call.request := by
          cases hoffers with
          | attempt ht => exact hoffer t req rfl
          | retry ht => exact hold t req (by rw [ht]; rfl)
        have hb : b < s.tc.created := by
          cases hoffers with
          | attempt ht => exact h.tc.lt_of_owner (h.tc.current t b (by rw [ht]; rfl)).1
          | retry ht => exact h.tc.lt_of_owner (h.tc.current t b (by rw [ht]; rfl)).1
        obtain ⟨buf, hlen, rfl⟩ := Request.attempt_pushEncoded (h.tc.holds b hb).aligned hatt
        exact ⟨t, call, rfl, hcall, call.decode_encode hlen⟩
  · rw [hpolled]
    exact h.taken

/-- A step of a poll that hands nothing out. -/
theorem of_poll (h : Inv env s) {e : ThreadContext.Event τ} (hcap : ThreadContext.CapacityOk e)
    (hpoll : e.isPoll = true) (htc : ThreadContext.step env.uninit s.tc e = some tc)
    (hpolling : ∀ p, tc.poll = some p → p.poller < s.started ∧
      (s.workers p.poller).phase.Polling)
    (hpolled : tc.polled = s.tc.polled) : Inv env { s with tc } := by
  have heff := h.tc.effect hcap htc
  obtain ⟨hthreads, haccepted⟩ := heff.threads hpoll
  refine { h with
    tc := h.tc.step hcap.valid (h.bounded.shortMessage h.tc e) htc
    bounded := heff.bounded h.bounded
    requests := fun t req hreq => h.requests t req (hthreads ▸ hreq)
    accepted := fun raw hraw => h.accepted raw (haccepted ▸ hraw)
    polling := hpolling
    taken := ?_ }
  rw [hpolled]
  exact h.taken

/-- The level or the filters of a logger change. -/
theorem setLogger (h : Inv env s) {ptr : UInt64} {logger : Logger}
    (hsinks : logger.sinks = (s.loggers ptr).sinks) : Inv env (s.setLogger ptr logger) := by
  have hsinksOf : ∀ header, (s.setLogger ptr logger).sinksOf header = s.sinksOf header := by
    intro header
    simp only [State.sinksOf, State.setLogger]
    rcases eq_or_ne header.loggerPtr ptr with heq | hne
    · rw [heq, Function.update_self, hsinks]
    · rw [Function.update_of_ne hne]
  have hchecked : ∀ phase, Checked env s phase → Checked env (s.setLogger ptr logger) phase := by
    intro phase hphase
    cases phase with
    | writing => exact ⟨hphase.1, (hsinksOf _).symm ▸ hphase.2⟩
    | _ => exact hphase
  have hexpected : (s.setLogger ptr logger).expectedCalls = s.expectedCalls := by
    funext r
    simp only [State.expectedCalls, hsinksOf]
    rfl
  have hbegun : (s.setLogger ptr logger).begun = s.begun := by
    funext w
    unfold State.begun State.begunIn
    simp only [hsinksOf]
    rfl
  exact { h with
    checked := fun w => hchecked _ (h.checked w)
    calls := fun w => by
      rw [hexpected, hbegun]
      exact h.calls w }

/-! ### Workers -/

omit [Target] [DecidableEq τ] in
/-- What the other workers hold does not depend on the phase of one. -/
theorem held_setPhase (hw : w < s.started) : ∃ others, ∀ phase,
    (s.setPhase w phase).held.Perm (phase.held ++ others) := by
  refine ⟨(List.range s.started).flatMap
    fun w' => if w' = w then [] else (s.workers w').phase.held, fun phase => ?_⟩
  refine FlatMap.perm_of_ne _ hw ?_ fun j hj => ?_
  · simp [State.setPhase]
  · simp [State.setPhase, hj]

omit [Target] [DecidableEq τ] in
private theorem setPhase_self (s : State τ) (w : ℕ) : s.setPhase w (s.workers w).phase = s := by
  simp [State.setPhase]

omit [Target] [DecidableEq τ] in
/-- What a worker gets and gives away is what its batch changes by. -/
theorem held_perm (hw : w < s.started) (got gone : List (Raw τ)) {phase : WorkerPhase τ}
    (h : (got ++ (s.workers w).phase.held).Perm (gone ++ phase.held)) :
    (got ++ s.held).Perm (gone ++ (s.setPhase w phase).held) := by
  obtain ⟨others, hothers⟩ := held_setPhase (s := s) hw
  have hold : s.held.Perm ((s.workers w).phase.held ++ others) := by
    have := hothers (s.workers w).phase
    rwa [setPhase_self] at this
  calc (got ++ s.held).Perm (got ++ ((s.workers w).phase.held ++ others)) := hold.append_left _
    _ = (got ++ (s.workers w).phase.held) ++ others := (List.append_assoc ..).symm
    List.Perm _ ((gone ++ phase.held) ++ others) := h.append_right _
    _ = gone ++ (phase.held ++ others) := List.append_assoc ..
    List.Perm _ (gone ++ (s.setPhase w phase).held) := (hothers phase).symm.append_left _

omit [Target] [DecidableEq τ] in
@[simp]
theorem workers_setPhase_self (s : State τ) (w : ℕ) (phase : WorkerPhase τ) :
    ((s.setPhase w phase).workers w).phase = phase := by
  simp [State.setPhase]

omit [Target] [DecidableEq τ] in
theorem workers_setPhase_of_ne (s : State τ) {w w' : ℕ} (phase : WorkerPhase τ) (h : w' ≠ w) :
    (s.setPhase w phase).workers w' = s.workers w' := by
  simp [State.setPhase, h]

omit [Target] [DecidableEq τ] in
theorem options_setPhase (s : State τ) (w w' : ℕ) (phase : WorkerPhase τ) :
    ((s.setPhase w phase).workers w').options = (s.workers w').options := by
  rcases eq_or_ne w' w with rfl | hne
  · simp [State.setPhase]
  · rw [workers_setPhase_of_ne s phase hne]

omit [Target] [DecidableEq τ] in
/-- What a worker writes of a message depends on its options only. -/
theorem writes_congr {s' : State τ} {w : ℕ} (header : ArchivedHeader) (raw : Raw τ)
    (sinks : List ℕ) (h : (s'.workers w).options = (s.workers w).options) :
    s'.writes w header raw sinks = s.writes w header raw sinks := by
  unfold State.writes
  rw [h]

omit [Target] [DecidableEq τ] in
/-- What a handled message was owed depends on the options of its worker and on the sinks. -/
theorem expectedCalls_congr {s' : State τ} {r : Handled τ} (hloggers : s'.loggers = s.loggers)
    (h : (s'.workers r.worker).options = (s.workers r.worker).options) :
    s'.expectedCalls r = s.expectedCalls r := by
  unfold State.expectedCalls State.sinksOf
  rw [writes_congr _ _ _ h, hloggers]

omit [Target] [DecidableEq τ] in
theorem begunIn_congr {s' : State τ} {w : ℕ} (phase : WorkerPhase τ)
    (hloggers : s'.loggers = s.loggers)
    (h : (s'.workers w).options = (s.workers w).options) :
    s'.begunIn w phase = s.begunIn w phase := by
  cases phase with
  | writing => simp only [State.begunIn, State.sinksOf, writes_congr _ _ _ h, hloggers]
  | _ => rfl

/-- A worker moves on within its batch. It has handled the messages `new` and written
`newCalls`. -/
theorem worker (h : Inv env s) (hw : w < s.started) (phase : WorkerPhase τ)
    (new : List (Handled τ)) (newCalls : List (SinkCall τ))
    (hpolling : (s.workers w).phase.Polling → phase.Polling)
    (hheld : (s.workers w).phase.held.Perm (new.map Handled.raw ++ phase.held))
    (hdecoded : ∀ d ∈ phase.decoded, ArchivedHeader.decode d.2.2 = some d.1)
    (hchecked : Checked env s phase)
    (hnew : ∀ r ∈ new, r.worker = w ∧ ArchivedHeader.decode r.raw.2 = some r.header ∧
      r.verdict.Agrees (env.metas r.header.metadataPtr) (payload r.raw))
    (hnewCalls : ∀ call ∈ newCalls, call.worker = w)
    (hcalls : s.begun w ++ newCalls = new.flatMap s.expectedCalls ++ s.begunIn w phase) :
    Inv env { s.setPhase w phase with
      handled := s.handled ++ new
      sinkCalls := s.sinkCalls ++ newCalls } := by
  set s' : State τ := { s.setPhase w phase with
    handled := s.handled ++ new
    sinkCalls := s.sinkCalls ++ newCalls } with hs'
  have hopt : ∀ w', (s'.workers w').options = (s.workers w').options :=
    fun w' => options_setPhase s w w' phase
  have hself : (s'.workers w).phase = phase := workers_setPhase_self s w phase
  have hother : ∀ w', w' ≠ w → s'.workers w' = s.workers w' :=
    fun w' hne => workers_setPhase_of_ne s phase hne
  have hexpected : s'.expectedCalls = s.expectedCalls :=
    funext fun r => expectedCalls_congr rfl (hopt _)
  refine { h with
    polling := fun p hp => ?_
    taken := ?_
    decoded := fun w' => ?_
    checked := fun w' => ?_
    unstarted := fun w' hw' => ?_
    verdicts := fun r hr => ?_
    calls := fun w' => ?_ }
  · obtain ⟨hlt, hphase⟩ := h.polling p hp
    refine ⟨hlt, ?_⟩
    rcases eq_or_ne p.poller w with heq | hne
    · rw [heq] at hphase ⊢
      exact hself ▸ hpolling hphase
    · rwa [hother _ hne]
  · have hperm := held_perm hw [] _ hheld
    refine h.taken.trans ((hperm.append_right _).trans ?_)
    -- the handled messages move to the end
    rw [List.map_append, List.append_assoc]
    refine List.perm_append_comm.trans ?_
    rw [List.append_assoc]
    rfl
  · rcases eq_or_ne w' w with rfl | hne
    · rwa [hself]
    · rw [hother _ hne]
      exact h.decoded w'
  · rcases eq_or_ne w' w with rfl | hne
    · rw [hself]
      exact hchecked
    · rw [hother _ hne]
      exact h.checked w'
  · rw [hother w' (by rintro rfl; exact absurd hw (not_lt.mpr hw'))]
    exact h.unstarted w' hw'
  · rcases List.mem_append.mp hr with hr | hr
    · exact h.verdicts r hr
    · obtain ⟨rfl, hrest⟩ := hnew r hr
      exact ⟨hw, hrest⟩
  · have hbegun : s'.begun w' = s.begunIn w' (s'.workers w').phase := begunIn_congr _ rfl (hopt w')
    rw [hexpected, hbegun]
    simp only [State.callsOf, State.handledBy, hs', List.filter_append]
    rcases eq_or_ne w' w with rfl | hne
    · have hall : newCalls.filter (fun call => call.worker = w') = newCalls :=
        List.filter_eq_self.mpr fun call hcall => by simpa using hnewCalls call hcall
      have hall' : new.filter (fun r => r.worker = w') = new :=
        List.filter_eq_self.mpr fun r hr => by simpa using (hnew r hr).1
      rw [hall, hall', List.flatMap_append, List.append_assoc, workers_setPhase_self, ← hcalls,
        ← List.append_assoc]
      exact congrArg (· ++ newCalls) (h.calls w')
    · have hnone : newCalls.filter (fun call => call.worker = w') = [] :=
        List.filter_eq_nil_iff.mpr fun call hcall => by
          simpa using fun heq => hne ((hnewCalls call hcall).symm.trans heq).symm
      have hnone' : new.filter (fun r => r.worker = w') = [] :=
        List.filter_eq_nil_iff.mpr fun r hr => by
          simpa using fun heq => hne ((hnew r hr).1.symm.trans heq).symm
      rw [hnone, hnone', List.append_nil, List.append_nil, workers_setPhase_of_ne s phase hne]
      exact h.calls w'

/-- `stop` is called on a handle: nothing else that the invariant mentions changes. -/
theorem stop (h : Inv env s) (w : ℕ) :
    Inv env { s with
      workers := Function.update s.workers w { s.workers w with stopSignal := true } } := by
  set s' : State τ := { s with
    workers := Function.update s.workers w { s.workers w with stopSignal := true } }
  have hworker : ∀ w', (s'.workers w').phase = (s.workers w').phase ∧
      (s'.workers w').options = (s.workers w').options := by
    intro w'
    simp only [s']
    rcases eq_or_ne w' w with rfl | hne
    · rw [Function.update_self]
      exact ⟨rfl, rfl⟩
    · rw [Function.update_of_ne hne]
      exact ⟨rfl, rfl⟩
  have hheld : s'.held = s.held := List.flatMap_congr fun w' _ => by rw [(hworker w').1]
  have hexpected : s'.expectedCalls = s.expectedCalls :=
    funext fun r => expectedCalls_congr rfl (hworker _).2
  refine { h with
    polling := fun p hp => ?_
    taken := hheld ▸ h.taken
    decoded := fun w' => (hworker w').1 ▸ h.decoded w'
    checked := fun w' => ?_
    unstarted := fun w' hw' => (hworker w').1 ▸ h.unstarted w' hw'
    calls := fun w' => ?_ }
  · rw [(hworker p.poller).1]
    exact h.polling p hp
  · rw [(hworker w').1]
    exact h.checked w'
  · have hbegun : s'.begun w' = s.begun w' := by
      rw [State.begun, State.begun, (hworker w').1]
      exact begunIn_congr _ rfl (hworker w').2
    rw [hexpected, hbegun]
    exact h.calls w'

/-- A backend is started. -/
theorem start (h : Inv env s) (options : BackendOptions) :
    Inv env { s with
      workers := Function.update s.workers s.started
        { options, stopSignal := false, phase := .loopHead }
      started := s.started + 1 } := by
  set s' : State τ := { s with
    workers := Function.update s.workers s.started
      { options, stopSignal := false, phase := .loopHead }
    started := s.started + 1 }
  have hself : (s'.workers s.started).phase = .loopHead := by simp [s']
  have hother : ∀ w, w ≠ s.started → s'.workers w = s.workers w := by
    intro w hne
    simp [s', hne]
  -- the worker that is new held the same phase before
  have hphase : ∀ w, (s'.workers w).phase = (s.workers w).phase := by
    intro w
    rcases eq_or_ne w s.started with rfl | hne
    · rw [hself, h.unstarted s.started le_rfl]
    · rw [hother w hne]
  have hheld : s'.held = s.held := by
    have hnil : (s'.workers s.started).phase.held = [] := by rw [hself]; rfl
    have hsame : (List.range s.started).flatMap (fun w => (s'.workers w).phase.held) = s.held :=
      List.flatMap_congr fun w _ => by rw [hphase]
    unfold State.held
    rw [List.range_succ, List.flatMap_append, List.flatMap_singleton, hnil, List.append_nil, hsame]
    rfl
  refine { h with
    polling := fun p hp => ?_
    taken := hheld ▸ h.taken
    decoded := fun w => hphase w ▸ h.decoded w
    checked := fun w => ?_
    unstarted := fun w hw => ?_
    verdicts := fun r hr => ⟨Nat.lt_succ_of_lt (h.verdicts r hr).1, (h.verdicts r hr).2⟩
    calls := fun w => ?_ }
  · rw [hphase]
    exact ⟨Nat.lt_succ_of_lt (h.polling p hp).1, (h.polling p hp).2⟩
  · rw [hphase]
    exact h.checked w
  · exact (hphase w).trans (h.unstarted w (Nat.le_of_succ_le hw))
  · have hexpected : ∀ r ∈ s.handledBy w, s'.expectedCalls r = s.expectedCalls r := by
      intro r hr
      have hlt := (h.verdicts r (List.mem_of_mem_filter hr)).1
      exact expectedCalls_congr rfl (congrArg _ (hother _ hlt.ne))
    have hbegun : s'.begun w = s.begun w := by
      rw [State.begun, State.begun, hphase]
      rcases eq_or_ne w s.started with rfl | hne
      · rw [h.unstarted s.started le_rfl]
        rfl
      · exact begunIn_congr _ rfl (congrArg _ (hother w hne))
    have hsame : (s'.handledBy w).flatMap s'.expectedCalls =
        (s.handledBy w).flatMap s.expectedCalls := List.flatMap_congr hexpected
    rw [hsame, hbegun]
    exact h.calls w

/-- A poll returns to its worker, which goes on with `phase`. -/
theorem pollEnd (h : Inv env s) {p : Poll τ} {phase : WorkerPhase τ} (hp : s.tc.poll = some p)
    (htc : ThreadContext.step env.uninit s.tc .pollEnd = some tc)
    (hphase : afterPoll (s.workers p.poller) p.allMsgs = some phase) :
    Inv env { s.setPhase p.poller phase with tc } := by
  obtain ⟨hpolling, hheld, hdecoded, hold⟩ := held_afterPoll hphase
  obtain ⟨hnone, hpolled⟩ := ThreadContext.poll_of_pollEnd hp htc
  have heff := h.tc.effect (e := .pollEnd) trivial htc
  obtain ⟨hthreads, haccepted⟩ := heff.threads rfl
  have hw := (h.polling p hp).1
  have hopt : ∀ w', ((s.setPhase p.poller phase).workers w').options = (s.workers w').options :=
    fun w' => options_setPhase s p.poller w' phase
  -- neither the old phase nor the new one is in the middle of a decoded batch
  have hneither : ∀ ph : WorkerPhase τ, ph.decoded = [] →
      Checked env (s.setPhase p.poller phase) ph ∧ s.begunIn p.poller ph = [] := by
    intro ph hnil
    cases ph with
    | filtering => cases hnil
    | writing => cases hnil
    | _ => exact ⟨trivial, rfl⟩
  refine { h with
    tc := h.tc.step (e := .pollEnd) trivial (h.bounded.shortMessage h.tc .pollEnd) htc
    bounded := heff.bounded h.bounded
    requests := fun t req hreq => h.requests t req (hthreads ▸ hreq)
    accepted := fun raw hraw => h.accepted raw (haccepted ▸ hraw)
    polling := fun q hq => nomatch hnone.symm.trans hq
    taken := ?_
    decoded := fun w => ?_
    checked := fun w => ?_
    unstarted := fun w hw' => ?_
    calls := fun w => ?_ }
  · have hperm : (p.allMsgs ++ s.held).Perm ([] ++ (s.setPhase p.poller phase).held) :=
      held_perm hw _ [] (by rw [hheld]; exact List.perm_append_comm)
    rw [hpolled]
    refine (List.perm_append_comm.trans (h.taken.append_left _)).trans ?_
    rw [← List.append_assoc]
    exact hperm.append_right _
  · rcases eq_or_ne w p.poller with rfl | hne
    · intro d hd
      rw [workers_setPhase_self, hdecoded] at hd
      cases hd
    · rw [workers_setPhase_of_ne s phase hne]
      exact h.decoded w
  · rcases eq_or_ne w p.poller with rfl | hne
    · rw [workers_setPhase_self]
      exact (hneither phase hdecoded).1
    · rw [workers_setPhase_of_ne s phase hne]
      exact h.checked w
  · rw [workers_setPhase_of_ne s phase (by rintro rfl; exact absurd hw (not_lt.mpr hw'))]
    exact h.unstarted w hw'
  · have hexpected : (s.setPhase p.poller phase).expectedCalls = s.expectedCalls :=
      funext fun r => expectedCalls_congr rfl (hopt _)
    have hbegun : (s.setPhase p.poller phase).begun w = s.begun w := by
      have hsame : (s.setPhase p.poller phase).begunIn w = s.begunIn w :=
        funext fun ph => begunIn_congr ph rfl (hopt w)
      rw [State.begun, hsame, State.begun]
      rcases eq_or_ne w p.poller with rfl | hne
      · rw [workers_setPhase_self, (hneither phase hdecoded).2, (hneither _ hold).2]
      · rw [workers_setPhase_of_ne s phase hne]
    have hcalls := h.calls w
    rw [← hexpected, ← hbegun] at hcalls
    exact hcalls

/-- What a worker holds has been accepted. -/
theorem accepted_of_held (h : Inv env s) (hw : w < s.started) {raw : Raw τ}
    (hraw : raw ∈ (s.workers w).phase.held) : raw ∈ s.tc.accepted := by
  have hheld : raw ∈ s.held := List.mem_flatMap.mpr ⟨w, List.mem_range.mpr hw, hraw⟩
  have hpolled : raw ∈ s.tc.polled :=
    h.taken.mem_iff.mpr (List.mem_append_left _ hheld)
  exact h.tc.mem_accepted (List.mem_append_left _ hpolled)

/-- What a worker holds decodes. -/
theorem decodes_of_held (h : Inv env s) (hw : w < s.started) (raw : Raw τ)
    (hraw : raw ∈ (s.workers w).phase.held) :
    ∃ header, ArchivedHeader.decode raw.2 = some header := by
  obtain ⟨_, call, -, -, hdec⟩ := h.accepted raw (h.accepted_of_held hw hraw)
  exact ⟨_, hdec⟩

omit [DecidableEq τ] in
/-- Decoding a batch of messages that decode drops none. -/
theorem filterMap_decodeRaw {raws : List (Raw τ)}
    (h : ∀ raw ∈ raws, ∃ header, ArchivedHeader.decode raw.2 = some header) :
    (raws.filterMap decodeRaw).map Prod.snd = raws := by
  induction raws with
  | nil => rfl
  | cons raw raws ih =>
    obtain ⟨header, hdec⟩ := h raw List.mem_cons_self
    have hraw : decodeRaw raw = some (header, raw) := by simp [decodeRaw, hdec]
    rw [List.filterMap_cons_some hraw, List.map_cons,
      ih fun raw' hraw' => h raw' (List.mem_cons_of_mem _ hraw')]

omit [DecidableEq τ] in
theorem decode_of_mem {raws : List (Raw τ)} {d : Decoded τ} (hd : d ∈ raws.filterMap decodeRaw) :
    ArchivedHeader.decode d.2.2 = some d.1 := by
  obtain ⟨raw, -, hraw⟩ := List.mem_filterMap.mp hd
  obtain ⟨header, hdec, rfl⟩ := Option.map_eq_some_iff.mp hraw
  exact hdec

/-- A step of a worker that keeps its batch. -/
theorem move (h : Inv env s) (hw : w < s.started) {e : Event τ} {phase : WorkerPhase τ}
    (hmove : Moves env s w e (s.workers w).phase phase) : Inv env (s.setPhase w phase) := by
  have hdecoded := h.decoded w
  have hchecked := h.checked w
  have hdecodes := h.decodes_of_held hw
  have hbegun : s.begun w = s.begunIn w (s.workers w).phase := rfl
  have hkeep : ((s.workers w).phase.Polling → phase.Polling) →
      (s.workers w).phase.held.Perm phase.held →
      (∀ d ∈ phase.decoded, ArchivedHeader.decode d.2.2 = some d.1) → Checked env s phase →
      s.begunIn w (s.workers w).phase = s.begunIn w phase → Inv env (s.setPhase w phase) := by
    intro hpolling hheld hdec hchk hcalls
    have hinv := h.worker hw phase [] [] hpolling hheld hdec hchk
      (fun r hr => nomatch hr) (fun c hc => nomatch hc)
      (by rw [List.append_nil]; exact hcalls)
    rw [List.append_nil, List.append_nil] at hinv
    exact hinv
  generalize (s.workers w).phase = old at *
  cases hmove with
  | exit => exact hkeep False.elim .rfl (fun d hd => nomatch hd) trivial rfl
  | firstPoll => exact hkeep False.elim .rfl (fun d hd => nomatch hd) trivial rfl
  | stopGathering => exact hkeep False.elim .rfl (fun d hd => nomatch hd) trivial rfl
  | morePoll => exact hkeep False.elim .rfl (fun d hd => nomatch hd) trivial rfl
  | @sort raws decoded hsorted =>
    have hperm : (decoded.map Prod.snd).Perm raws := by
      have := hsorted.1.map Prod.snd
      rwa [filterMap_decodeRaw (show ∀ raw ∈ raws, _ from hdecodes)] at this
    refine hkeep False.elim hperm.symm (fun d hd => ?_) trivial rfl
    exact decode_of_mem (hsorted.1.mem_iff.mp hd)
  | batchDone => exact hkeep False.elim .rfl (fun d hd => nomatch hd) trivial rfl
  | meetsLevel hlevel => exact hkeep False.elim .rfl hdecoded hlevel rfl
  | passesFilters hpass =>
    refine hkeep False.elim .rfl hdecoded ⟨⟨hchecked, hpass⟩, List.suffix_rfl⟩ ?_
    -- no sink has been written to yet
    simp [State.begunIn, State.sinksOf, State.writes]

/-- A worker is done with a message. -/
theorem finish (h : Inv env s) (hw : w < s.started) {cur : Decoded τ} {verdict : Verdict}
    {rest : List (Decoded τ)}
    (hfinish : Finishes env s w (s.workers w).phase cur verdict rest) :
    Inv env (s.finish w cur verdict rest) := by
  have hdecoded := h.decoded w
  have hchecked := h.checked w
  have hbegun : s.begun w = s.begunIn w (s.workers w).phase := rfl
  have hdone : (s.workers w).phase.held.Perm ([cur.2] ++ rest.map Prod.snd) →
      (∀ d ∈ cur :: rest, ArchivedHeader.decode d.2.2 = some d.1) →
      verdict.Agrees (env.metas cur.1.metadataPtr) (payload cur.2) →
      s.begunIn w (s.workers w).phase =
        s.expectedCalls { worker := w, header := cur.1, raw := cur.2, verdict } →
      ¬ (s.workers w).phase.Polling → Inv env (s.finish w cur verdict rest) := by
    intro hheld hdec hagrees hcalls hpolling
    have hinv := h.worker hw (.dispatching rest)
      [{ worker := w, header := cur.1, raw := cur.2, verdict }] []
      (fun hp => absurd hp hpolling) hheld (fun d hd => hdec d (List.mem_cons_of_mem _ hd)) trivial
      (fun r hr => by
        obtain rfl := List.mem_singleton.mp hr
        exact ⟨rfl, hdec cur List.mem_cons_self, hagrees⟩)
      (fun c hc => nomatch hc)
      (by
        rw [List.append_nil, hbegun, hcalls, List.flatMap_singleton]
        exact (List.append_nil _).symm)
    rw [List.append_nil] at hinv
    exact hinv
  generalize (s.workers w).phase = old at *
  cases hfinish with
  | belowLevel hlevel =>
    exact hdone .rfl hdecoded (by simpa [Verdict.Agrees] using hlevel) rfl id
  | filtered hpass =>
    exact hdone .rfl hdecoded ⟨hchecked, by simpa using hpass⟩ rfl id
  | passed =>
    refine hdone .rfl hdecoded hchecked.1 ?_ id
    -- every sink has been written to
    simp [State.begunIn, State.expectedCalls, Verdict.isPassed]

/-- A worker writes a message to the next sink. -/
theorem write (h : Inv env s) (hw : w < s.started) {cur : Decoded τ} {level : LogLevel}
    {filters : List Filter} {sink : ℕ} {sinks : List ℕ} {rest : List (Decoded τ)}
    (hphase : (s.workers w).phase = .writing cur level filters (sink :: sinks) rest) :
    Inv env { s.setPhase w (.writing cur level filters sinks rest) with
      sinkCalls := s.sinkCalls ++
        [.write w cur.2 sink ((s.workers w).options.formatMessage cur.1 (payload cur.2))] } := by
  have hdecoded := h.decoded w
  have hchecked := h.checked w
  rw [hphase] at hdecoded hchecked
  obtain ⟨hagrees, done, hsplit⟩ := hchecked
  have hbegun : s.begun w = s.begunIn w (.writing cur level filters (sink :: sinks) rest) := by
    rw [State.begun, hphase]
  -- the sinks are those written to before, this one, and those that are left
  have htake : (s.sinksOf cur.1).take ((s.sinksOf cur.1).length - sinks.length) =
      done ++ [sink] := by
    rw [← hsplit, show done ++ sink :: sinks = (done ++ [sink]) ++ sinks by simp,
      List.length_append, Nat.add_sub_cancel, List.take_left]
  have htake' : (s.sinksOf cur.1).take ((s.sinksOf cur.1).length - (sink :: sinks).length) =
      done := by
    rw [← hsplit, List.length_append, Nat.add_sub_cancel, List.take_left]
  have hinv := h.worker hw (.writing cur level filters sinks rest) []
    [.write w cur.2 sink ((s.workers w).options.formatMessage cur.1 (payload cur.2))]
    (fun hp => by rw [hphase] at hp; exact hp.elim) (by rw [hphase]; exact .rfl) hdecoded
    ⟨hagrees, done ++ [sink], by rw [List.append_assoc]; exact hsplit⟩
    (fun r hr => nomatch hr) (fun c hc => by rw [List.mem_singleton.mp hc]; rfl)
    (by
      simp only [hbegun, State.begunIn, htake, htake', State.writes, List.map_append]
      rfl)
  rw [List.append_nil] at hinv
  exact hinv

end Inv

/-- No thread and no worker has started: the invariant holds. -/
theorem inv_init (env : Env) (loggers : UInt64 → Logger) : Inv env (init loggers : State τ) where
  tc := ThreadContext.inv_init
  bounded b hb := absurd hb (Nat.not_lt_zero b)
  requests _ _ h := nomatch h
  accepted _ h := nomatch h
  polling _ h := nomatch h
  taken := .rfl
  decoded _ _ h := nomatch h
  checked _ := trivial
  unstarted _ _ := rfl
  verdicts _ h := nomatch h
  calls _ := rfl

/-- The steps that threads take keep to capacities within the block limit. -/
def CapacityOk : Event τ → Prop
  | .thread e => ThreadContext.CapacityOk e
  | _ => True

/-- Every step keeps the invariant. -/
theorem Inv.step {env : Env} {s s' : State τ} {e : Event τ} (h : Inv env s) (hcap : CapacityOk e)
    (hs : Backend.step env s e = some s') : Inv env s' := by
  cases step_effect hs with
  | @thread e tc he htc =>
    have hpoll : e.isPoll = false := by cases e <;> first | rfl | cases he
    refine h.of_thread hcap hpoll htc s.calling (fun _ _ hmem => hmem) ?_
    rintro t req rfl
    cases he
  | logCheck calling => exact { h with }
  | @logPush t call tc calling htc =>
    refine h.of_thread (e := .attempt t call.request) trivial rfl htc calling
      (fun _ _ hmem => List.mem_append_left _ hmem) ?_
    intro t' req he
    cases he
    exact ⟨call, by simp, rfl⟩
  | logger _ hsinks => exact h.setLogger hsinks
  | start => exact h.start _
  | stop => exact h.stop _
  | @pollBegin w tc hw hphase htc =>
    obtain ⟨-, ⟨q, hq, rfl⟩, hpolled⟩ := ThreadContext.poll_of_pollBegin htc
    refine h.of_poll (e := .pollBegin q.poller) trivial rfl htc (fun p hp => ?_) hpolled
    obtain rfl := Option.some.inj (hq.symm.trans hp)
    exact ⟨hw, hphase⟩
  | @pollStep p tc hp htc =>
    obtain ⟨⟨q, hq, hpoller⟩, hpolled⟩ := ThreadContext.poll_of_pollStep hp htc
    refine h.of_poll (e := .pollStep) trivial rfl htc (fun p' hp' => ?_) hpolled
    obtain rfl := Option.some.inj (hq.symm.trans hp')
    exact hpoller ▸ h.polling p hp
  | pollEnd hp htc hphase => exact h.pollEnd hp htc hphase
  | move hw hmove => exact h.move hw hmove
  | finish hw hfinish => exact h.finish hw hfinish
  | write hw hphase => exact h.write hw hphase

end Backend

end RapidLog
