import Mathlib.Tactic.GCongr
import Mathlib.Tactic.Ring
import RapidLog.Backend.Conservation
import RapidLog.Lib.Potential
import RapidLog.ThreadContext.Work

/-!
# Every pass of a worker ends

`stop` sets a flag, and `join` waits for the worker to see it. The worker looks at it at the head
of its outer loop and between the polls of a batch, so it first finishes the pass that it is in:
the poll, the batch with whatever the polls add to it, and every message of it at every sink.

`work` bounds the steps that this takes. A step of the worker does some of it (`work_of_own`). The
others add to it only by what they push and by the rings they register (`work_of_other`). These are
statements about `Backend.step`; the runs of `pass_ends` are those of `Unwinding.step`, in which a
worker also comes to its end when `format_message` panics.
-/

namespace RapidLog

open ThreadContext

variable {τ : Type}

/-- The worker is about to begin a pass. -/
def WorkerPhase.isLoopHead : WorkerPhase τ → Bool
  | .loopHead => true
  | _ => false

namespace Backend

/-- The worker that takes the step. -/
def Event.worker? : Event τ → Option ℕ
  | .loadStop w _ | .pollBegin w | .pollStep w | .pollEnd w | .sort w _ | .next w
  | .checkFilters w | .writeSink w => some w
  | .thread _ | .logCheck .. | .logPush _ | .setLogLevel .. | .addFilter .. | .clearFilters _
  | .start _ | .stop _ => none

/-- The step does not begin another pass of `w`. -/
def StaysIn (w : ℕ) (s : State τ) : Event τ → Prop
  | .loadStop w' false => w' = w → (s.workers w).phase.isLoopHead = false
  | _ => True

/-! ### The work that is left of a pass

A message is popped, taken from the batch, checked and written to at most `k` sinks. -/

section Work

variable (k minBatch : ℕ) (tc : ThreadContext.State τ)

/-- With a batch of `n` messages: those that may join it, and the polls after the next one. -/
def gatherWork (n : ℕ) : ℕ :=
  (k + 3) * n + (k + 4) * tc.unread + 3 + (minBatch - (n + 1)) * (3 * tc.registry.length + 3)

/-- The poll that is going on, or that is about to begin, with the messages that it holds. -/
def pollWork (w : ℕ) : ℕ :=
  match tc.pollOf w with
  | none => 3 * tc.registry.length + 2
  | some p => tc.ringsLeft p + 1 + (k + 3) * p.allMsgs.length

def workAt (w : ℕ) : WorkerPhase τ → ℕ
  | .exited => 0
  | .loopHead => 1
  | .firstPoll => gatherWork k minBatch tc 0 + pollWork k tc w
  | .batchHead raws => gatherWork k minBatch tc raws.length + 3 * tc.registry.length + 3
  | .morePoll raws => gatherWork k minBatch tc raws.length + pollWork k tc w
  | .sorting raws => (k + 3) * raws.length + 3
  | .dispatching rest => (k + 3) * rest.length + 2
  | .filtering _ _ rest => (k + 3) * rest.length + k + 4
  | .writing _ _ _ sinks rest => (k + 3) * rest.length + sinks.length + 3

end Work

/-- The steps that `w` takes at most until it is at the head of its loop again, and leaves it. -/
def State.work (k : ℕ) (s : State τ) (w : ℕ) : ℕ :=
  workAt k (s.workers w).options.minBatchSize s.tc w (s.workers w).phase

/-- The work that all messages and rings so far have brought with them. -/
def arrived (k minBatch : ℕ) (tc : ThreadContext.State τ) : ℕ :=
  (k + 4) * tc.accepted.length + 3 * (minBatch + 1) * tc.registered

/-! ### Steps of others -/

section Drift

variable {k minBatch w : ℕ} {tc tc' : ThreadContext.State τ}

private theorem gatherWork_drift (minBatch : ℕ) (h : Drift w tc tc') (n : ℕ) :
    gatherWork k minBatch tc' n + (k + 4) * tc.accepted.length + 3 * minBatch * tc.registered ≤
      gatherWork k minBatch tc n + (k + 4) * tc'.accepted.length +
        3 * minBatch * tc'.registered := by
  obtain ⟨a, ha⟩ := Nat.exists_eq_add_of_le h.accepted
  obtain ⟨d, hd⟩ := Nat.exists_eq_add_of_le h.registered
  have hunread : tc'.unread ≤ tc.unread + a := by
    have := h.unread
    omega
  have hlen : tc'.registry.length ≤ tc.registry.length + d := by
    have := h.registry
    omega
  -- a new ring makes each poll that is left longer
  have hpolls : (minBatch - (n + 1)) * (3 * tc'.registry.length + 3) ≤
      (minBatch - (n + 1)) * (3 * tc.registry.length + 3) + 3 * minBatch * d := by
    calc (minBatch - (n + 1)) * (3 * tc'.registry.length + 3)
        ≤ (minBatch - (n + 1)) * (3 * (tc.registry.length + d) + 3) := by gcongr
      _ = (minBatch - (n + 1)) * (3 * tc.registry.length + 3) +
            3 * (minBatch - (n + 1)) * d := by ring
      _ ≤ _ := by gcongr; omega
  have hmsgs : (k + 4) * tc'.unread ≤ (k + 4) * tc.unread + (k + 4) * a := by
    rw [← Nat.mul_add]
    gcongr
  rw [gatherWork, gatherWork, ha, hd, Nat.mul_add (k + 4), Nat.mul_add (3 * minBatch)]
  omega

private theorem pollWork_drift (h : Drift w tc tc') :
    pollWork k tc' w + 3 * tc.registered ≤ pollWork k tc w + 3 * tc'.registered := by
  have hregistered := h.registered
  rw [pollWork, pollWork, h.pollOf]
  split
  · have hlen := h.registry
    omega
  · next p hp =>
    have hsame := h.locked (by simp [hp])
    rw [State.ringsLeft, State.ringsLeft, hsame]
    omega

/-- Others add to the work no more than what arrives. -/
theorem workAt_drift (h : Drift w tc tc') (phase : WorkerPhase τ) :
    workAt k minBatch tc' w phase + arrived k minBatch tc ≤
      workAt k minBatch tc w phase + arrived k minBatch tc' := by
  have hgather := gatherWork_drift (k := k) minBatch h
  have hpoll := pollWork_drift (k := k) h
  have haccepted : (k + 4) * tc.accepted.length ≤ (k + 4) * tc'.accepted.length := by
    gcongr
    exact h.accepted
  have hregistered : 3 * minBatch * tc.registered ≤ 3 * minBatch * tc'.registered := by
    gcongr
    exact h.registered
  have hlen := h.registry
  have hle := h.registered
  have hsplit : ∀ n, 3 * (minBatch + 1) * n = 3 * minBatch * n + 3 * n := by
    intro n
    ring
  rw [arrived, arrived, hsplit, hsplit]
  cases phase with
  | firstPoll =>
    have := hgather 0
    simp only [workAt]
    omega
  | batchHead raws | morePoll raws =>
    have := hgather raws.length
    simp only [workAt]
    omega
  | _ =>
    simp only [workAt]
    omega

end Drift

/-! ### Steps of the worker -/

variable [Target] [DecidableEq τ]

section Own

variable {env : Env} {k w : ℕ} {s s' : State τ} {e : Event τ}

/-- What a step of a worker between two polls does: it moves on, and gets closer to the end of its
pass. -/
structure Turn (k : ℕ) (s : State τ) (w : ℕ) (e : Event τ) (s' : State τ)
    (phase : WorkerPhase τ) : Prop where
  tc : s'.tc = s.tc
  workers : s'.workers = Function.update s.workers w { s.workers w with phase }
  paid : StaysIn w s e → ∀ minBatch, workAt k minBatch s.tc w phase + 1 ≤
    workAt k minBatch s.tc w (s.workers w).phase

theorem turn_of_workerStep (hk : ∀ ptr, (s.loggers ptr).sinks.length ≤ k)
    (hidle : ¬ (s.workers w).phase.Polling → s.tc.pollOf w = none)
    (he : e.worker? = some w) (hs : workerStep env s w e = some s') :
    ∃ phase, Turn k s w e s' phase := by
  cases e with
  | loadStop w' seen =>
    cases he
    simp only [workerStep] at hs
    split at hs
    · cases hs
    · split at hs
      · next hphase =>
        cases hs
        refine ⟨_, rfl, rfl, fun hstays minBatch => ?_⟩
        cases seen with
        | true => simp [hphase, workAt]
        | false =>
          -- the worker would begin another pass
          have := hstays rfl
          rw [hphase] at this
          cases this
      · next raws hphase =>
        cases hs
        refine ⟨_, rfl, rfl, fun _ minBatch => ?_⟩
        cases seen with
        | true =>
          simp only [hphase, workAt, gatherWork, if_true]
          omega
        | false =>
          have hnone : s.tc.pollOf w = none := hidle (by rw [hphase]; exact id)
          simp only [hphase, workAt, pollWork, hnone, Bool.false_eq_true, if_false]
          omega
      · cases hs
  | sort w' decoded =>
    cases he
    simp only [workerStep] at hs
    split at hs
    · next raws hphase =>
      split at hs
      · next hsorted =>
        cases hs
        refine ⟨_, rfl, rfl, fun _ minBatch => ?_⟩
        -- messages that do not decode are left out
        have hlen : decoded.length ≤ raws.length :=
          hsorted.1.length_eq.trans_le (List.length_filterMap_le ..)
        have := Nat.mul_le_mul_left (k + 3) hlen
        simp only [hphase, workAt]
        omega
      · cases hs
    · cases hs
  | next w' =>
    cases he
    simp only [workerStep] at hs
    split at hs
    · next hphase =>
      cases hs
      exact ⟨_, rfl, rfl, fun _ minBatch => by simp [hphase, workAt]⟩
    · next cur rest hphase =>
      -- the price of a message pays for its checks and for a write to each sink
      split at hs
      · cases hs
        refine ⟨_, rfl, rfl, fun _ minBatch => ?_⟩
        simp only [hphase, workAt, List.length_cons, Nat.mul_succ]
        omega
      · cases hs
        refine ⟨_, rfl, rfl, fun _ minBatch => ?_⟩
        simp only [hphase, workAt, List.length_cons, Nat.mul_succ]
        omega
    · cases hs
  | checkFilters w' =>
    cases he
    simp only [workerStep] at hs
    split at hs
    · next cur level rest hphase =>
      split at hs
      · cases hs
        refine ⟨_, rfl, rfl, fun _ minBatch => ?_⟩
        have := hk cur.1.loggerPtr
        simp only [hphase, workAt]
        omega
      · cases hs
        refine ⟨_, rfl, rfl, fun _ minBatch => ?_⟩
        simp only [hphase, workAt]
        omega
    · cases hs
  | writeSink w' =>
    cases he
    simp only [workerStep] at hs
    split at hs
    · next hphase =>
      cases hs
      refine ⟨_, rfl, rfl, fun _ minBatch => ?_⟩
      simp only [hphase, workAt, List.length_cons]
      omega
    · next hphase =>
      cases hs
      refine ⟨_, rfl, rfl, fun _ minBatch => ?_⟩
      simp [hphase, workAt]
    · cases hs
  | _ => cases hs

omit [Target] [DecidableEq τ] in
/-- A worker that is not in a poll does not hold the lock. -/
private theorem pollOf_eq_some {tc : ThreadContext.State τ} {p : Poll τ} :
    tc.pollOf w = some p ↔ tc.poll = some p ∧ p.poller = w := by
  simp [State.pollOf, Option.filter_eq_some_iff]

theorem Inv.popped_le (h : Inv env s) :
    s.tc.polled.length + s.tc.inFlight.length ≤ s.tc.accepted.length := by
  refine h.tc.popped_le fun raw hraw => ?_
  obtain ⟨t, -, ht, -⟩ := h.accepted raw hraw
  exact ⟨t, ht⟩

theorem Inv.idle (h : Inv env s) (hphase : ¬ (s.workers w).phase.Polling) :
    s.tc.pollOf w = none := by
  cases hp : s.tc.pollOf w with
  | none => rfl
  | some p =>
    obtain ⟨hpoll, rfl⟩ := pollOf_eq_some.mp hp
    exact absurd (h.polling p hpoll).2 hphase

omit [Target] [DecidableEq τ] in
private theorem gatherWork_le (minBatch j : ℕ) {tc tc' : ThreadContext.State τ}
    (hunread : tc'.unread + j = tc.unread) (hlen : tc'.registry.length ≤ tc.registry.length)
    (n : ℕ) : gatherWork k minBatch tc' n + (k + 4) * j ≤ gatherWork k minBatch tc n := by
  have hpolls : (minBatch - (n + 1)) * (3 * tc'.registry.length + 3) ≤
      (minBatch - (n + 1)) * (3 * tc.registry.length + 3) := by gcongr
  rw [gatherWork, gatherWork, ← hunread, Nat.mul_add (k + 4)]
  omega

omit [Target] [DecidableEq τ] in
/-- Every poll that finds something leaves fewer polls for the batch. -/
private theorem workAt_gather (tc : ThreadContext.State τ) (options : BackendOptions)
    (raws : List (Raw τ)) {msgs : List (Raw τ)} (hmsgs : msgs ≠ []) :
    workAt k options.minBatchSize tc w (gather options (raws ++ msgs)) ≤
      gatherWork k options.minBatchSize tc raws.length + (k + 3) * msgs.length := by
  have hpos := List.length_pos_iff.mpr hmsgs
  have hsum := Nat.mul_add (k + 3) raws.length msgs.length
  unfold gather
  split
  · next hlt =>
    rw [List.length_append] at hlt
    have hpolls : (options.minBatchSize - (raws.length + msgs.length + 1)) *
          (3 * tc.registry.length + 3) + (3 * tc.registry.length + 3) ≤
        (options.minBatchSize - (raws.length + 1)) * (3 * tc.registry.length + 3) := by
      rw [← Nat.succ_mul]
      gcongr
      omega
    simp only [workAt, gatherWork, List.length_append]
    omega
  · simp only [workAt, gatherWork, List.length_append]
    omega

omit [Target] [DecidableEq τ] in
/-- A poll begins with no message. -/
private theorem workAt_pollBegin {minBatch : ℕ} {tc : ThreadContext.State τ}
    (hpoll : tc.poll = none) {phase : WorkerPhase τ} (hphase : phase.Polling) :
    workAt k minBatch { tc with poll := some ⟨w, 0, .popping, []⟩ } w phase + 1 ≤
      workAt k minBatch tc w phase := by
  have hunread : State.unread { tc with poll := some ⟨w, 0, .popping, []⟩ } = tc.unread := by
    simp [State.unread, State.inFlight, hpoll]
  have hgather : ∀ n, gatherWork k minBatch { tc with poll := some ⟨w, 0, .popping, []⟩ } n =
      gatherWork k minBatch tc n := by
    intro n
    rw [gatherWork, hunread]
    rfl
  have hbefore : pollWork k tc w = 3 * tc.registry.length + 2 := by
    simp [pollWork, State.pollOf, hpoll]
  have hbegun : pollWork k { tc with poll := some ⟨w, 0, .popping, []⟩ } w =
      3 * tc.registry.length + 1 := by
    have hown : State.pollOf { tc with poll := some ⟨w, 0, .popping, []⟩ } w =
        some ⟨w, 0, .popping, []⟩ := pollOf_eq_some.mpr ⟨rfl, rfl⟩
    simp [pollWork, hown, State.ringsLeft, phaseRank]
  cases phase with
  | firstPoll =>
    simp only [workAt, hgather, hbefore, hbegun]
    omega
  | morePoll raws =>
    simp only [workAt, hgather, hbefore, hbegun]
    omega
  | _ => exact hphase.elim

omit [Target] [DecidableEq τ] in
/-- The step of a poll, with the messages that it has popped so far. -/
private theorem workAt_advance {minBatch : ℕ} {tc tc' : ThreadContext.State τ} {p q : Poll τ}
    (hp : tc.poll = some p) (hadvance : Advance tc p tc' q)
    (hle : tc'.polled.length + tc'.inFlight.length ≤ tc'.accepted.length)
    {phase : WorkerPhase τ} (hphase : phase.Polling) :
    workAt k minBatch tc' p.poller phase + 1 ≤ workAt k minBatch tc p.poller phase := by
  have hq := pollOf_eq_some.mpr ⟨hadvance.poll, hadvance.poller⟩
  have hp' := pollOf_eq_some.mpr ⟨hp, rfl⟩
  have hunread := hadvance.unread hp hle
  have hpaid : ∀ n, gatherWork k minBatch tc' n + pollWork k tc' p.poller + 1 ≤
      gatherWork k minBatch tc n + pollWork k tc p.poller := by
    intro n
    rcases hadvance.spent with ⟨hmsgs, hrings⟩ | ⟨hmsgs, hrings⟩
    · -- the poll has popped a message, which is cheaper in the batch than in the ring
      have hless : tc'.unread + 1 = tc.unread := by omega
      have hgather := gatherWork_le (k := k) minBatch 1 hless hadvance.registry n
      simp only [pollWork, hq, hp', hmsgs, Nat.mul_succ]
      omega
    · -- it has come closer to the end of the registry
      have hsame : tc'.unread + 0 = tc.unread := by omega
      have hgather := gatherWork_le (k := k) minBatch 0 hsame hadvance.registry n
      simp only [pollWork, hq, hp', hmsgs]
      omega
  cases phase with
  | firstPoll => exact hpaid 0
  | morePoll raws => exact hpaid raws.length
  | _ => exact hphase.elim

omit [Target] [DecidableEq τ] in
/-- The end of a poll. -/
private theorem workAt_afterPoll {worker : Worker τ} {tc tc' : ThreadContext.State τ} {p : Poll τ}
    {phase : WorkerPhase τ} (hp : tc.poll = some p) (hunread : tc'.unread = tc.unread)
    (hregistry : tc'.registry = tc.registry) (hafter : afterPoll worker p.allMsgs = some phase) :
    workAt k worker.options.minBatchSize tc' p.poller phase + 1 ≤
      workAt k worker.options.minBatchSize tc p.poller worker.phase := by
  have hp' := pollOf_eq_some.mpr ⟨hp, rfl⟩
  have hgather : ∀ n, gatherWork k worker.options.minBatchSize tc' n =
      gatherWork k worker.options.minBatchSize tc n := by
    intro n
    rw [gatherWork, gatherWork, hunread, hregistry]
  have hpoll : pollWork k tc p.poller = tc.ringsLeft p + 1 + (k + 3) * p.allMsgs.length := by
    simp only [pollWork, hp']
  cases hphase : worker.phase with
  | firstPoll =>
    change _ ≤ gatherWork k worker.options.minBatchSize tc 0 + pollWork k tc p.poller
    simp only [afterPoll, hphase] at hafter
    rw [hpoll]
    split at hafter
    · cases hafter
      simp only [workAt, gatherWork]
      omega
    · next hmsgs =>
      cases hafter
      have hne : p.allMsgs ≠ [] := by simpa using hmsgs
      have hpaid := workAt_gather (k := k) (w := p.poller) tc' worker.options [] hne
      rw [List.nil_append, List.length_nil, hgather] at hpaid
      omega
  | morePoll raws =>
    change _ ≤ gatherWork k worker.options.minBatchSize tc raws.length + pollWork k tc p.poller
    simp only [afterPoll, hphase] at hafter
    rw [hpoll]
    split at hafter
    · cases hafter
      simp only [workAt, gatherWork]
      omega
    · next hmsgs =>
      cases hafter
      have hne : p.allMsgs ≠ [] := by simpa using hmsgs
      have hpaid := workAt_gather (k := k) (w := p.poller) tc' worker.options raws hne
      rw [hgather] at hpaid
      omega
  | _ =>
    simp only [afterPoll, hphase] at hafter
    cases hafter

/-! The steps of a poll, as steps of the registry. -/

private theorem pollBegin_cases (hs : step env s (.pollBegin w) = some s') :
    (s.workers w).phase.Polling ∧ ∃ tc,
      ThreadContext.step env.uninit s.tc (.pollBegin w) = some tc ∧ s' = { s with tc } := by
  simp only [step] at hs
  split at hs
  · split at hs
    · next hphase =>
      obtain ⟨tc, htc, rfl⟩ := Option.map_eq_some_iff.mp hs
      exact ⟨by rw [hphase]; trivial, tc, htc, rfl⟩
    · next hphase =>
      obtain ⟨tc, htc, rfl⟩ := Option.map_eq_some_iff.mp hs
      exact ⟨by rw [hphase]; trivial, tc, htc, rfl⟩
    · cases hs
  · cases hs

private theorem pollStep_cases (hs : step env s (.pollStep w) = some s') :
    ∃ p tc, s.tc.poll = some p ∧ p.poller = w ∧
      ThreadContext.step env.uninit s.tc .pollStep = some tc ∧ s' = { s with tc } := by
  simp only [step] at hs
  split at hs
  · next p hp =>
    split at hs
    · next hw =>
      obtain ⟨tc, htc, rfl⟩ := Option.map_eq_some_iff.mp hs
      exact ⟨p, tc, hp, hw, htc, rfl⟩
    · cases hs
  · cases hs

private theorem pollEnd_cases (hs : step env s (.pollEnd w) = some s') :
    ∃ p tc phase, s.tc.poll = some p ∧ p.poller = w ∧
      ThreadContext.step env.uninit s.tc .pollEnd = some tc ∧
      afterPoll (s.workers w) p.allMsgs = some phase ∧ s' = { s.setPhase w phase with tc } := by
  simp only [step] at hs
  split at hs
  · next p hp =>
    split at hs
    · next hw =>
      obtain ⟨tc, htc, hrest⟩ := Option.bind_eq_some_iff.mp hs
      obtain ⟨phase, hafter, rfl⟩ := Option.map_eq_some_iff.mp hrest
      exact ⟨p, tc, phase, hp, hw, htc, hafter, rfl⟩
    · cases hs
  · cases hs

/-- A step of the worker is paid for, and brings nothing new. -/
theorem work_of_own (h : Inv env s) (h' : Inv env s') (hk : ∀ ptr, (s.loggers ptr).sinks.length ≤ k)
    (hw : w < s.started) (he : e.worker? = some w) (hstays : StaysIn w s e)
    (hs : step env s e = some s') :
    s'.work k w + 1 ≤ s.work k w ∧ s'.tc.accepted = s.tc.accepted ∧
      s'.tc.registered = s.tc.registered := by
  have hturn : workerStep env s w e = some s' → s'.work k w + 1 ≤ s.work k w ∧
      s'.tc.accepted = s.tc.accepted ∧ s'.tc.registered = s.tc.registered := by
    intro hs
    obtain ⟨phase, hturn⟩ := turn_of_workerStep hk h.idle he hs
    rw [State.work, State.work, hturn.tc, hturn.workers, Function.update_self]
    exact ⟨hturn.paid hstays _, rfl, rfl⟩
  cases e with
  | loadStop | sort | next | checkFilters | writeSink =>
    cases he
    simp only [step, if_pos hw] at hs
    exact hturn hs
  | pollBegin w' =>
    cases he
    obtain ⟨hphase, tc, htc, rfl⟩ := pollBegin_cases hs
    cases step_cases htc with
    | pollBegin hpoll => exact ⟨workAt_pollBegin hpoll hphase, rfl, rfl⟩
  | pollStep w' =>
    cases he
    obtain ⟨p, tc, hp, rfl, htc, rfl⟩ := pollStep_cases hs
    obtain ⟨q, hadvance⟩ := advance_of_pollStep hp htc
    exact ⟨workAt_advance hp hadvance h'.popped_le (h.polling p hp).2, hadvance.accepted,
      hadvance.registered⟩
  | pollEnd w' =>
    cases he
    obtain ⟨p, tc, phase, hp, rfl, htc, hafter, rfl⟩ := pollEnd_cases hs
    cases step_cases htc with
    | pollEnd hp' hi =>
      cases hp.symm.trans hp'
      -- what the poll hands out counted as read before
      have hunread : State.unread
          { s.tc with poll := none, polled := s.tc.polled ++ p.allMsgs } = s.tc.unread := by
        simp [State.unread, State.inFlight, hp]
      have hpaid := workAt_afterPoll (k := k) hp hunread rfl hafter
      exact ⟨by simpa [State.work, Backend.State.setPhase] using hpaid, rfl, rfl⟩
  | _ => cases he

/-- What a step of somebody else does to a worker. -/
structure Beside (w : ℕ) (s s' : State τ) : Prop where
  phase : (s'.workers w).phase = (s.workers w).phase
  drift : Drift w s.tc s'.tc

theorem beside_of_step (h : Inv env s) (h' : Inv env s')
    (hk : ∀ ptr, (s.loggers ptr).sinks.length ≤ k) (hw : w < s.started)
    (he : e.worker? ≠ some w) (hs : step env s e = some s') : Beside w s s' := by
  have hne : ∀ w', e.worker? = some w' → w ≠ w' := by
    rintro w' hw' rfl
    exact he hw'
  have hturn : ∀ w', e.worker? = some w' → workerStep env s w' e = some s' → Beside w s s' := by
    intro w' hw' hs
    obtain ⟨phase, hturn⟩ := turn_of_workerStep hk h.idle hw' hs
    exact ⟨by rw [hturn.workers, Function.update_of_ne (hne w' hw')], hturn.tc ▸ .refl w s.tc⟩
  -- while another one holds the lock, `w` is in no poll
  have hother : ∀ {p : Poll τ}, s.tc.poll = some p → w ≠ p.poller → s.tc.pollOf w = none := by
    intro p hp hpoller
    simp [State.pollOf, hp, hpoller.symm]
  cases e with
  | loadStop w' | sort w' | next w' | checkFilters w' | writeSink w' =>
    simp only [step] at hs
    split at hs
    · exact hturn w' rfl hs
    · cases hs
  | thread e =>
    simp only [step] at hs
    split at hs
    · next hthread =>
      obtain ⟨tc, htc, rfl⟩ := Option.map_eq_some_iff.mp hs
      -- threads do not poll
      have hpoll : e.isPoll = false := by
        cases e with
        | pollBegin | pollStep | pollEnd => cases hthread
        | _ => rfl
      exact ⟨rfl, drift_of_thread hpoll htc⟩
    · cases hs
  | logCheck t call =>
    cases hs
    exact ⟨rfl, .refl w s.tc⟩
  | logPush t =>
    simp only [step] at hs
    split at hs
    · obtain ⟨tc, htc, rfl⟩ := Option.map_eq_some_iff.mp hs
      exact ⟨rfl, drift_of_thread rfl htc⟩
    · cases hs
  | setLogLevel | addFilter | clearFilters =>
    cases hs
    exact ⟨rfl, .refl w s.tc⟩
  | start options =>
    cases hs
    exact ⟨by simp [hw.ne], .refl w s.tc⟩
  | stop w' =>
    simp only [step] at hs
    split at hs
    · cases hs
      refine ⟨?_, .refl w s.tc⟩
      rcases eq_or_ne w w' with rfl | hne
      · simp
      · simp [hne]
    · cases hs
  | pollBegin w' =>
    obtain ⟨-, tc, htc, rfl⟩ := pollBegin_cases hs
    have hnone : s.tc.pollOf w = none := by
      cases step_cases htc with
      | pollBegin hpoll => rw [State.pollOf, hpoll, Option.filter_none]
    refine ⟨rfl, drift_of_poll rfl htc ?_ hnone h'.popped_le⟩
    rintro ⟨⟩
    exact hne w rfl rfl
  | pollStep w' =>
    obtain ⟨p, tc, hp, rfl, htc, rfl⟩ := pollStep_cases hs
    exact ⟨rfl, drift_of_poll rfl htc (by simp) (hother hp (hne _ rfl)) h'.popped_le⟩
  | pollEnd w' =>
    obtain ⟨p, tc, phase, hp, rfl, htc, -, rfl⟩ := pollEnd_cases hs
    exact ⟨congrArg Worker.phase (Inv.workers_setPhase_of_ne s phase (hne _ rfl)),
      drift_of_poll rfl htc (by simp) (hother hp (hne _ rfl)) h'.popped_le⟩

/-- The options of a worker stay as they are. -/
theorem options_of_step (hw : w < s.started) (hs : step env s e = some s') :
    (s'.workers w).options = (s.workers w).options := by
  cases step_effect hs with
  | start => simp [hw.ne]
  | @stop w' hw' => rcases eq_or_ne w w' with rfl | hne <;> simp [*]
  | pollEnd | move | finish | write => exact Inv.options_setPhase ..
  | _ => rfl

theorem work_of_other (h : Inv env s) (h' : Inv env s')
    (hk : ∀ ptr, (s.loggers ptr).sinks.length ≤ k) (hw : w < s.started)
    (he : e.worker? ≠ some w) (hs : step env s e = some s') :
    s'.work k w + arrived k (s.workers w).options.minBatchSize s.tc ≤
      s.work k w + arrived k (s.workers w).options.minBatchSize s'.tc := by
  have hbeside := beside_of_step h h' hk hw he hs
  rw [State.work, State.work, hbeside.phase, options_of_step hw hs]
  exact workAt_drift hbeside.drift _

/-- The worker can take a step that does not begin another pass. -/
def CanGoOn (m : Machine (State τ) (Event τ)) (w : ℕ) (s : State τ) : Prop :=
  ∃ e, e.worker? = some w ∧ CapacityOk e ∧ StaysIn w s e ∧ (m s e).isSome

/-- A poll that holds the lock can go on, and one that does not can take it when it is free. -/
private theorem canGoOn_of_polling (hw : w < s.started) (hphase : (s.workers w).phase.Polling)
    (hpoll : ∀ p, s.tc.poll = some p → p.poller = w) : CanGoOn (step env) w s := by
  cases hp : s.tc.poll with
  | none =>
    refine ⟨.pollBegin w, rfl, trivial, trivial, ?_⟩
    cases hphase' : (s.workers w).phase with
    | firstPoll | morePoll => simp [step, hw, hphase', ThreadContext.step, hp]
    | _ =>
      rw [hphase'] at hphase
      cases hphase
  | some p =>
    obtain rfl := hpoll p hp
    rcases Nat.lt_or_ge p.index s.tc.registry.length with hlt | hge
    · refine ⟨.pollStep p.poller, rfl, trivial, trivial, ?_⟩
      simp [step, hp, ThreadContext.step, List.getElem?_eq_getElem hlt]
    · refine ⟨.pollEnd p.poller, rfl, trivial, trivial, ?_⟩
      have hafter : ∃ phase, afterPoll (s.workers p.poller) p.allMsgs = some phase := by
        cases hphase' : (s.workers p.poller).phase with
        | firstPoll | morePoll =>
          simp only [afterPoll, hphase']
          split <;> exact ⟨_, rfl⟩
        | _ =>
          rw [hphase'] at hphase
          cases hphase
      obtain ⟨phase, hafter⟩ := hafter
      simp [step, hp, ThreadContext.step, hge, hafter]

omit [DecidableEq τ] in
/-- A batch can be sorted. -/
private theorem exists_sorted (raws : List (Raw τ)) : ∃ decoded, Sorted raws decoded := by
  refine ⟨(raws.filterMap decodeRaw).mergeSort fun a b => a.1.timestampNs ≤ b.1.timestampNs,
    List.mergeSort_perm .., ?_⟩
  have htrans : ∀ a b c : Decoded τ, decide (a.1.timestampNs ≤ b.1.timestampNs) = true →
      decide (b.1.timestampNs ≤ c.1.timestampNs) = true →
      decide (a.1.timestampNs ≤ c.1.timestampNs) = true := by
    intro a b c hab hbc
    exact decide_eq_true (UInt64.le_trans (of_decide_eq_true hab) (of_decide_eq_true hbc))
  have htotal : ∀ a b : Decoded τ, (decide (a.1.timestampNs ≤ b.1.timestampNs) ||
      decide (b.1.timestampNs ≤ a.1.timestampNs)) = true := by
    intro a b
    simpa using UInt64.le_total a.1.timestampNs b.1.timestampNs
  exact (List.pairwise_mergeSort htrans htotal _).imp of_decide_eq_true

/-- A worker on which `stop` has been called goes on to its exit, unless it waits for the lock. -/
theorem canGoOn_of_stop (hw : w < s.started) (hstop : (s.workers w).stopSignal = true)
    (hexited : (s.workers w).phase ≠ .exited) (hpoll : ∀ p, s.tc.poll = some p → p.poller = w) :
    CanGoOn (step env) w s := by
  cases hphase : (s.workers w).phase with
  | exited => exact absurd hphase hexited
  | loopHead | batchHead raws =>
    refine ⟨.loadStop w true, rfl, trivial, trivial, ?_⟩
    simp [step, hw, workerStep, hphase, hstop]
  | firstPoll | morePoll raws =>
    exact canGoOn_of_polling hw (by rw [hphase]; trivial) hpoll
  | sorting raws =>
    obtain ⟨decoded, hsorted⟩ := exists_sorted raws
    refine ⟨.sort w decoded, rfl, trivial, trivial, ?_⟩
    simp [step, hw, workerStep, hphase, hsorted]
  | dispatching rest =>
    refine ⟨.next w, rfl, trivial, trivial, ?_⟩
    cases rest with
    | nil => simp [step, hw, workerStep, hphase]
    | cons cur rest =>
      simp only [step, hw, workerStep, hphase, if_true]
      split <;> rfl
  | filtering cur level rest =>
    refine ⟨.checkFilters w, rfl, trivial, trivial, ?_⟩
    simp only [step, hw, workerStep, hphase, if_true]
    split <;> rfl
  | writing cur level filters sinks rest =>
    refine ⟨.writeSink w, rfl, trivial, trivial, ?_⟩
    cases sinks with
    | nil | cons => simp [step, hw, workerStep, hphase]

end Own

/-! ### Whole runs -/

section

variable {env : Env} {k w : ℕ} {s₀ s : State τ}

private theorem sinks_of_step {s' : State τ} {e : Event τ}
    (hk : ∀ ptr, (s.loggers ptr).sinks.length ≤ k) (hs : Backend.step env s e = some s') :
    ∀ ptr, (s'.loggers ptr).sinks.length ≤ k := by
  cases step_effect hs with
  | @logger e ptr logger he hsinks =>
    intro other
    rcases eq_or_ne other ptr with rfl | hne
    · simpa [State.setLogger, hsinks] using hk other
    · simpa [State.setLogger, hne] using hk other
  | _ => exact hk

/-- What every step of a run keeps. -/
private structure Kept (env : Env) (k w : ℕ) (s₀ s : State τ) : Prop where
  inv : Inv env s
  sinks : ∀ ptr, (s.loggers ptr).sinks.length ≤ k
  started : w < s.started
  options : (s.workers w).options = (s₀.workers w).options
  stopSignal : (s₀.workers w).stopSignal = true → (s.workers w).stopSignal = true

private theorem Kept.step {s' : State τ} {e : Event τ} (h : Kept env k w s₀ s) (hcap : CapacityOk e)
    (hs : step env s e = some s') : Kept env k w s₀ s' := by
  refine ⟨h.inv.step hcap hs, sinks_of_step h.sinks hs, h.started.trans_le ?_, ?_,
    fun hstop => ?_⟩
  · cases step_effect hs with
    | start => exact Nat.le_succ _
    | _ => exact le_rfl
  · rw [options_of_step h.started hs, h.options]
  · have hold := h.stopSignal hstop
    have hset : ∀ w' (phase : WorkerPhase τ),
        ((s.setPhase w' phase).workers w).stopSignal = true := by
      intro w' phase
      rcases eq_or_ne w w' with rfl | hne
      · simpa [State.setPhase] using hold
      · simpa [State.setPhase, hne] using hold
    cases step_effect hs with
    | start => simpa [h.started.ne] using hold
    | @stop w' hw' => rcases eq_or_ne w w' with rfl | hne <;> simp [*]
    | pollEnd | move | finish | write => exact hset _ _
    | _ => exact hold

private theorem kept_of_reach {loggers : UInt64 → Logger}
    (hk : ∀ ptr, (loggers ptr).sinks.length ≤ k)
    (h₀ : Machine.Reach (Backend.step env) (fun _ e => CapacityOk e) (init loggers) s₀)
    (hw : w < s₀.started) : Kept env k w s₀ s₀ := by
  refine ⟨inv_of_reach (fun _ _ hcap => hcap) h₀, ?_, hw, rfl, id⟩
  exact h₀.invariant (P := fun s => ∀ ptr, (s.loggers ptr).sinks.length ≤ k) hk
    fun _ _ _ hold _ hs => sinks_of_step hold hs

end

/-! ### Runs in which workers unwind -/

section

variable {env : Env} {k w : ℕ} {s s' t t' : State τ} {e : Event τ} {u : ℕ → Bool}

omit [Target] [DecidableEq τ] in
/-- A worker that is out of its loop has nothing left to do. -/
private theorem work_setPhase_exited_le (w' : ℕ) :
    (s.setPhase w' .exited).work k w ≤ s.work k w := by
  rcases eq_or_ne w w' with rfl | hne
  · rw [State.work, Inv.workers_setPhase_self, workAt]
    exact Nat.zero_le _
  · rw [State.work, State.work, Inv.workers_setPhase_of_ne s _ hne]
    rfl

omit [Target] [DecidableEq τ] in
private theorem work_unwind (hu : u w = false) : (t.unwind u).work k w = t.work k w := by
  rw [State.work, State.work, Unwinding.workers_unwind hu]
  rfl

omit [Target] [DecidableEq τ] in
private theorem work_unwound (hu : u w = true) : (t.unwind u).work k w = 0 := by
  rw [State.work, Unwinding.phase_unwind hu, workAt]

/-- A worker that has unwound takes no step. -/
private theorem eq_false_of_own (h : Inv env t)
    (hu : u w = true → ¬ (t.workers w).phase.Polling) (he : e.worker? = some w)
    (hs : Backend.step env (t.unwind u) e = some s') : u w = false := by
  cases huw : u w with
  | false => rfl
  | true =>
    exfalso
    have hphase := Unwinding.phase_unwind (s := t) huw
    -- the poll that is running is not its own
    have hpoll : ∀ p, t.tc.poll = some p → p.poller ≠ w := by
      rintro p hp rfl
      exact hu huw (h.polling p hp).2
    cases e with
    | loadStop | sort | next | checkFilters | writeSink | pollBegin =>
      cases he
      simp [Backend.step, workerStep, hphase] at hs
    | pollStep w' =>
      cases he
      obtain ⟨p, tc, hp, hpoller, -⟩ := pollStep_cases hs
      exact hpoll p hp hpoller
    | pollEnd w' =>
      cases he
      obtain ⟨p, tc, phase, hp, hpoller, -⟩ := pollEnd_cases hs
      exact hpoll p hp hpoller
    | _ => cases he

end

section

variable [FloatDisplay] [Calendar] {fmt : Formatting} {env : Env} {k w : ℕ} {s s' t₀ : State τ}
  {e : Event τ}

omit [DecidableEq τ] in
private theorem worker?_withText : (Unwinding.withText fmt env s e).worker? = e.worker? := by
  cases e <;> rfl

omit [DecidableEq τ] in
private theorem StaysIn.withText {t : State τ} (h : StaysIn w s e)
    (hphase : (t.workers w).phase = (s.workers w).phase) :
    StaysIn w t (Unwinding.withText fmt env s e) := by
  cases e with
  | loadStop w' seen =>
    cases seen with
    | false =>
      intro hw'
      rw [hphase]
      exact h hw'
    | true => trivial
  | _ => trivial

/-- A step leaves a worker no more to do than the step of the backend that it makes. -/
private theorem work_le_of_step {t : State τ} (hs : Unwinding.step fmt env s e = some s')
    (ht : Backend.step env s (Unwinding.withText fmt env s e) = some t) :
    s'.work k w ≤ t.work k w ∧ s'.tc = t.tc := by
  obtain ⟨t₁, ht₁, rfl | ⟨w', -, -, -, -, -, -, -, -, rfl⟩⟩ := Unwinding.step_cases hs
  · cases ht₁.symm.trans ht
    exact ⟨le_rfl, rfl⟩
  · cases ht₁.symm.trans ht
    exact ⟨work_setPhase_exited_le w', rfl⟩

/-- What every step of a run keeps of the run of the backend in which workers stall. -/
private def Follows (env : Env) (k w : ℕ) (t₀ s : State τ) : Prop :=
  ∃ t, Kept env k w t₀ t ∧ Unwinding.Stalled s t

private theorem Follows.step (h : Follows env k w t₀ s) (hcap : CapacityOk e)
    (hs : Unwinding.step fmt env s e = some s') : Follows env k w t₀ s' := by
  obtain ⟨t, hkept, hstalled⟩ := h
  obtain ⟨t', ht', hstalled'⟩ := hstalled.step hs
  exact ⟨t', hkept.step (Unwinding.capacityOk_withText.mpr hcap) ht', hstalled'⟩

/-- A step and the one that it makes in the run of the backend. -/
private theorem Follows.inBackend (h : Follows env k w t₀ s) (hcap : CapacityOk e)
    (hs : Unwinding.step fmt env s e = some s') :
    ∃ t t' u, s = t.unwind u ∧ Kept env k w t₀ t ∧ Inv env t' ∧
      (u w = true → ¬ (t.workers w).phase.Polling) ∧
      Backend.step env (t.unwind u) (Unwinding.withText fmt env s e) = some (t'.unwind u) ∧
      Backend.step env t (Unwinding.withText fmt env s e) = some t' ∧
      s'.work k w ≤ (t'.unwind u).work k w ∧ s'.tc = t'.tc := by
  obtain ⟨t, hkept, u, rfl, hu⟩ := h
  obtain ⟨s₁, hs₁, -⟩ := Unwinding.step_cases hs
  obtain ⟨hle, htc⟩ := work_le_of_step (k := k) (w := w) hs hs₁
  obtain ⟨t', ht', rfl, -, -⟩ := Unwinding.step_unwind (fun w hw => (hu w hw).1) hs₁
  have hcap' : CapacityOk (Unwinding.withText fmt env (t.unwind u) e) :=
    Unwinding.capacityOk_withText.mpr hcap
  refine ⟨t, t', u, rfl, hkept, hkept.inv.step hcap' ht', ?_, hs₁, ht', hle, htc⟩
  -- a worker that has unwound was about to write
  intro huw
  obtain ⟨-, cur, level, filters, sinks, rest, hphase⟩ := hu w huw
  rw [hphase]
  exact id

/-- A step of the worker is paid for, also when the worker unwinds in it. -/
private theorem Follows.paid (h : Follows env k w t₀ s) (hcap : CapacityOk e)
    (he : e.worker? = some w) (hstays : StaysIn w s e)
    (hs : Unwinding.step fmt env s e = some s') :
    s'.work k w + 1 ≤ s.work k w ∧ s'.tc.accepted = s.tc.accepted ∧
      s'.tc.registered = s.tc.registered := by
  obtain ⟨t, t', u, rfl, hkept, hinv', hnot, hs₁, ht', hle, htc⟩ := h.inBackend hcap hs
  have he' : (Unwinding.withText fmt env (t.unwind u) e).worker? = some w :=
    worker?_withText.trans he
  have hfalse := eq_false_of_own hkept.inv hnot he' hs₁
  have hstays' : StaysIn w t (Unwinding.withText fmt env (t.unwind u) e) :=
    hstays.withText (congrArg Worker.phase (Unwinding.workers_unwind hfalse).symm)
  obtain ⟨hpaid, haccepted, hregistered⟩ :=
    work_of_own hkept.inv hinv' hkept.sinks hkept.started he' hstays' ht'
  rw [work_unwind hfalse] at hle ⊢
  rw [htc]
  exact ⟨by omega, haccepted, hregistered⟩

/-- A step of another one adds no more than what arrives, also when a worker unwinds in it. -/
private theorem Follows.beside (h : Follows env k w t₀ s) (hcap : CapacityOk e)
    (he : e.worker? ≠ some w) (hs : Unwinding.step fmt env s e = some s') :
    s'.work k w + arrived k (t₀.workers w).options.minBatchSize s.tc ≤
      s.work k w + arrived k (t₀.workers w).options.minBatchSize s'.tc := by
  obtain ⟨t, t', u, rfl, hkept, hinv', -, -, ht', hle, htc⟩ := h.inBackend hcap hs
  have he' : (Unwinding.withText fmt env (t.unwind u) e).worker? ≠ some w :=
    worker?_withText.symm ▸ he
  rw [htc, ← hkept.options]
  cases hfalse : u w with
  | false =>
    have hpaid := work_of_other hkept.inv hinv' hkept.sinks hkept.started he' ht'
    rw [work_unwind hfalse] at hle ⊢
    exact (Nat.add_le_add_right hle _).trans hpaid
  | true =>
    -- the worker has nothing left to do, so only what arrives counts
    have hdrift := (beside_of_step hkept.inv hinv' hkept.sinks hkept.started he' ht').drift
    rw [work_unwound hfalse] at hle ⊢
    exact (Nat.add_le_add_right hle _).trans (workAt_drift hdrift .exited)

/-- A panic takes no step from a worker that can go on. -/
theorem CanGoOn.unwinding (h : CanGoOn (Backend.step env) w s) :
    CanGoOn (Unwinding.step fmt env) w s := by
  obtain ⟨e, he, hcap, hstays, hsome⟩ := h
  refine ⟨e, he, hcap, hstays, ?_⟩
  cases e with
  | start => cases he
  | checkFilters => exact Option.isSome_map.trans hsome
  | _ => exact hsome

end

/-- Every pass of a worker ends. Its steps, and those that it still has to take, are paid for by the
work that there was and by what the threads have added. When `stop` has been called, nothing keeps
the worker from its exit but the lock. -/
theorem pass_ends [FloatDisplay] [Calendar] (fmt : Formatting) (env : Env)
    (loggers : UInt64 → Logger) {k w n : ℕ} {s₀ s : State τ}
    (hk : ∀ ptr, (loggers ptr).sinks.length ≤ k)
    (h₀ : Machine.Reach (Unwinding.step fmt env) (fun _ e => CapacityOk e) (init loggers) s₀)
    (hw : w < s₀.started)
    (hrun : Machine.Counts (Unwinding.step fmt env) (fun s e => CapacityOk e ∧ StaysIn w s e)
      (fun e => e.worker? = some w) s₀ n s) :
    n + s.work k w + arrived k (s₀.workers w).options.minBatchSize s₀.tc ≤
        s₀.work k w + arrived k (s₀.workers w).options.minBatchSize s.tc ∧
      ((s₀.workers w).stopSignal = true → (s.workers w).phase ≠ .exited →
        (∀ p, s.tc.poll = some p → p.poller = w) → CanGoOn (Unwinding.step fmt env) w s) := by
  obtain ⟨t₀, ht₀, hstalled⟩ := Unwinding.stalled_of_reach (fun _ _ hcap => hcap) h₀
  obtain ⟨u₀, rfl, hu₀⟩ := hstalled
  have hsame : ∀ (u : ℕ → Bool) (t : State τ),
      ((t.unwind u).workers w).options = (t.workers w).options ∧
        ((t.unwind u).workers w).stopSignal = (t.workers w).stopSignal := by
    intro u t
    simp only [State.unwind]
    split <;> exact ⟨rfl, rfl⟩
  have h₀ : Follows env k w t₀ (t₀.unwind u₀) :=
    ⟨t₀, kept_of_reach hk ht₀ hw, u₀, rfl, hu₀⟩
  have hstep : ∀ s e s', Follows env k w t₀ s → CapacityOk e ∧ StaysIn w s e →
      Unwinding.step fmt env s e = some s' → Follows env k w t₀ s' :=
    fun _ _ _ h hok hs => h.step hok.1 hs
  rw [(hsame u₀ t₀).1]
  constructor
  · refine hrun.bound (fun s => s.work k w)
      (fun s => arrived k (t₀.workers w).options.minBatchSize s.tc) h₀ hstep ?_ ?_
    · intro s e s' h hok he hs
      obtain ⟨hpaid, haccepted, hregistered⟩ := h.paid hok.1 he hok.2 hs
      simp only [arrived, haccepted, hregistered]
      omega
    · intro s e s' h hok he hs
      exact h.beside hok.1 he hs
  · -- `stop` has been seen or will be, and a worker that has not exited has not unwound
    intro hstop hexited hpoll
    obtain ⟨t, hkept, u, rfl, -⟩ := hrun.reach.invariant h₀ hstep
    have hstop' : ((t.unwind u).workers w).stopSignal = true := by
      rw [(hsame u t).2]
      exact hkept.stopSignal ((hsame u₀ t₀).2 ▸ hstop)
    have hw' : w < (t.unwind u).started := hkept.started
    exact (canGoOn_of_stop hw' hstop' hexited hpoll).unwinding

instance (w : ℕ) (s : State τ) : (e : Event τ) → Decidable (StaysIn w s e)
  | .loadStop w' false =>
    inferInstanceAs (Decidable (w' = w → (s.workers w).phase.isLoopHead = false))
  | .loadStop _ true | .thread _ | .logCheck .. | .logPush _ | .setLogLevel .. | .addFilter ..
  | .clearFilters _ | .start _ | .stop _ | .pollBegin _ | .pollStep _ | .pollEnd _ | .sort ..
  | .next _ | .checkFilters _ | .writeSink _ => .isTrue trivial

/-- Two threads have logged, and the worker has begun a pass when `stop` is called. -/
def stoppedInPoll : List (Event Bool) :=
  logOnce true (bareCall 5 2) ++ logOnce false (bareCall 3 2) ++
    [.start { minBatchSize := 4, formatMessage := fun _ _ => "" }, .loadStop 0 false, .stop 0]

/-- The worker writes a message to three sinks. -/
def handleOnce : List (Event Bool) :=
  .next 0 :: .checkFilters 0 :: List.replicate 4 (.writeSink 0)

/-- A third message comes in during the poll. -/
def lastPoll : List (Event Bool) :=
  .pollBegin 0 :: .logCheck true (bareCall 7 2) :: .logPush true ::
    (List.replicate 7 (.pollStep 0)).concat (.pollEnd 0)

def lastBatch : List (Decoded Bool) :=
  [bareDecoded false (bareCall 3 2), bareDecoded true (bareCall 5 2),
    bareDecoded true (bareCall 7 2)]

def lastPass : List (Event Bool) :=
  lastPoll ++ .loadStop 0 true :: .sort 0 lastBatch ::
    (handleOnce ++ handleOnce ++ handleOnce ++ [.next 0, .loadStop 0 true])

omit [Target] [DecidableEq τ] in
/-- The worker takes 31 steps to its exit; there were 52 to pay for, and a message has come in. -/
theorem pass_ends_stopped :
    letI : Target := x86_64
    letI : FloatDisplay := noFloats
    letI : Calendar := { fromUnixTimestamp := fun _ => none }
    ∃ s₀ s, (Unwinding.step shortText callSites).runWhile (fun _ e => CapacityOk e)
        (init twoSinks) stoppedInPoll = some s₀ ∧
      (Unwinding.step shortText callSites).runWhile (fun s e => CapacityOk e ∧ StaysIn 0 s e) s₀
        lastPass = some s ∧
      s.sinkCalls.length = 9 ∧ s.work 3 0 = 0 ∧
      31 + s.work 3 0 + arrived 3 (s₀.workers 0).options.minBatchSize s₀.tc ≤
        s₀.work 3 0 + arrived 3 (s₀.workers 0).options.minBatchSize s.tc := by
  let _ : Target := x86_64
  let _ : FloatDisplay := noFloats
  let _ : Calendar := { fromUnixTimestamp := fun _ => none }
  have hrun : ((Unwinding.step shortText callSites).runWhile (fun _ e => CapacityOk e)
      (init twoSinks) stoppedInPoll).bind (fun s₀ =>
        ((Unwinding.step shortText callSites).runWhile (fun s e => CapacityOk e ∧ StaysIn 0 s e) s₀
          lastPass).map fun s => (s₀.started, s.sinkCalls.length, s.work 3 0)) =
      some (1, 9, 0) := by
    decide +kernel
  obtain ⟨s₀, hs₀, hrest⟩ := Option.bind_eq_some_iff.mp hrun
  obtain ⟨s, hs, hsummary⟩ := Option.map_eq_some_iff.mp hrest
  obtain ⟨hstarted, hsummary⟩ := Prod.mk.inj hsummary
  obtain ⟨hcalls, hwork⟩ := Prod.mk.inj hsummary
  have hown : lastPass.countP (fun e => e.worker? = some 0) = 31 := by decide
  have hcounts := Machine.Counts.of_runWhile (fun e : Event Bool => e.worker? = some 0) hs
  rw [hown] at hcounts
  refine ⟨s₀, s, hs₀, hs, hcalls, hwork, ?_⟩
  exact (pass_ends shortText callSites twoSinks (k := 3) (fun _ => le_rfl) (.of_runWhile hs₀)
    (by rw [hstarted]; decide) hcounts).1

end Backend

end RapidLog
