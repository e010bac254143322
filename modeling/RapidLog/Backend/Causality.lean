import RapidLog.Backend.Shutdown
import RapidLog.ThreadContext.Snapshot

/-!
# The order across threads

A batch is sorted by timestamp, but nothing compares the messages of one batch with those of the
next. Two messages of different threads come out in the order of their timestamps nevertheless when
no poll was running at some moment between them: a poll that takes the second one has begun after
that moment and has taken the first one too (`ThreadContext.After`), if an earlier poll has not, so
that both are in one batch or the first one is in an earlier batch.

A poll that is running at that moment may have passed the ring of the first message and not yet
that of the second, and the second is then delivered in an earlier batch.

## Main results

* `delivered_across_threads`: with a single backend that is configured first, a message is written
  to no sink before all messages with an earlier timestamp that were accepted before it, as long as
  no poll was running at some moment in between.
-/

namespace RapidLog

open Queue ThreadContext

variable [Target] {τ : Type} [DecidableEq τ]

namespace Backend

/-- The messages that a worker has decoded and not handled are in the order of their timestamps. -/
def DecodedSorted (s : State τ) : Prop :=
  ∀ w, (s.workers w).phase.decoded.Pairwise fun a b => a.1.timestampNs ≤ b.1.timestampNs

section

variable {env : Env} {s s₁ s' : State τ} {e : Event τ} {w : ℕ}

omit [Target] [DecidableEq τ] in
private theorem DecodedSorted.setPhase (h : DecodedSorted s) {phase : WorkerPhase τ}
    (hphase : phase.decoded.Sublist (s.workers w).phase.decoded ∨
      phase.decoded.Pairwise fun a b => a.1.timestampNs ≤ b.1.timestampNs) :
    DecodedSorted (s.setPhase w phase) := by
  intro w'
  rcases eq_or_ne w' w with rfl | hne
  · rw [Inv.workers_setPhase_self]
    exact hphase.elim (fun hsub => (h w').sublist hsub) id
  · rw [Inv.workers_setPhase_of_ne s phase hne]
    exact h w'

/-- A batch is sorted when it is decoded, and messages leave it at the front. -/
theorem DecodedSorted.step (h : DecodedSorted s) (hs : step env s e = some s') :
    DecodedSorted s' := by
  cases step_effect hs with
  | thread | logCheck | logPush | logger | pollBegin | pollStep => exact h
  | start =>
    intro w'
    rcases eq_or_ne w' s.started with rfl | hne
    · simp [WorkerPhase.decoded]
    · simpa [hne] using h w'
  | @stop w hw =>
    intro w'
    rcases eq_or_ne w' w with rfl | hne
    · simpa using h w'
    · simpa [hne] using h w'
  | pollEnd hp htc hphase =>
    refine DecodedSorted.setPhase h (.inr ?_)
    rw [(held_afterPoll hphase).2.2.1]
    exact .nil
  | @move e w phase hw hmove =>
    refine h.setPhase ?_
    generalize (s.workers w).phase = old at hmove
    cases hmove with
    | sort hsorted => exact .inr hsorted.2
    | meetsLevel | passesFilters => exact .inl (List.Sublist.refl _)
    | exit | firstPoll | stopGathering | morePoll | batchDone => exact .inr .nil
  | @finish e w cur verdict rest hw hfinish =>
    refine DecodedSorted.setPhase h (.inl ?_)
    generalize (s.workers w).phase = old at hfinish
    cases hfinish <;> exact List.sublist_cons_self _ _
  | write hw hphase =>
    refine DecodedSorted.setPhase h (.inl ?_)
    rw [hphase]
    exact List.Sublist.refl _

/-- A step of the backend leaves the rings and their threads alone or is a step of them. -/
theorem tc_of_step (hcap : CapacityOk e) (hs : step env s e = some s') :
    s'.tc = s.tc ∨ ∃ e', ThreadContext.CapacityOk e' ∧
      ThreadContext.step env.uninit s.tc e' = some s'.tc := by
  cases step_effect hs with
  | thread _ htc => exact .inr ⟨_, hcap, htc⟩
  | @logPush t call tc calling htc => exact .inr ⟨.attempt t call.request, trivial, htc⟩
  | @pollBegin w tc _ _ htc => exact .inr ⟨.pollBegin w, trivial, htc⟩
  | pollStep hp htc => exact .inr ⟨.pollStep, trivial, htc⟩
  | pollEnd hp htc _ => exact .inr ⟨.pollEnd, trivial, htc⟩
  | logCheck | logger | start | stop | move | finish | write => exact .inl rfl

/-- What becomes of the messages of a moment without a poll, through the steps of the backend. -/
theorem after_step {tc₁ : ThreadContext.State τ} (hafter : After tc₁ s.tc) (h : Inv env s)
    (hcap : CapacityOk e) (hs : step env s e = some s') : After tc₁ s'.tc := by
  rcases tc_of_step hcap hs with heq | ⟨e', -, htc⟩
  · rwa [heq]
  · exact hafter.step h.tc htc

/-! ### The writes of two messages -/

/-- Before any write of `raw` there are `n sink` writes of `earlier` to each sink. -/
def WrittenAfter (earlier : Raw τ) (n : ℕ → ℕ) (raw : Raw τ) (calls : List (SinkCall τ)) : Prop :=
  ∀ before w sink' formatted after, calls = before ++ .write w raw sink' formatted :: after →
    ∀ sink, n sink ≤ before.countP (writesTo earlier sink)

omit [Target] in
theorem WrittenAfter.concat {earlier raw : Raw τ} {n : ℕ → ℕ} {calls : List (SinkCall τ)}
    (h : WrittenAfter earlier n raw calls) {w : ℕ} {raw' : Raw τ} {sink' : ℕ} {formatted : String}
    (hcall : raw' = raw → ∀ sink, n sink ≤ calls.countP (writesTo earlier sink)) :
    WrittenAfter earlier n raw (calls ++ [.write w raw' sink' formatted]) := by
  intro before w₁ sink₁ formatted₁ after hsplit
  rcases List.eq_nil_or_concat after with rfl | ⟨after', call, rfl⟩
  -- the last call is the write of `raw`, or it comes after it
  · obtain ⟨rfl, hlast⟩ := List.append_inj' hsplit rfl
    cases hlast
    exact hcall rfl
  · rw [List.concat_eq_append, ← List.cons_append, ← List.append_assoc] at hsplit
    obtain ⟨hbefore, -⟩ := List.append_inj' hsplit rfl
    exact h _ _ _ _ _ hbefore

/-- The calls of an earlier message that was handled as passed each time. -/
theorem count_le_countP (h : Inv env s) (hsingle : s.started ≤ 1) {raw : Raw τ}
    {header : ArchivedHeader} (sink : ℕ)
    (hpassed : ∀ r ∈ s.handled, r.raw = raw → r.header = header ∧ r.verdict.isPassed = true) :
    (s.handled.map Handled.raw).count raw * (s.sinksOf header).count sink ≤
      s.sinkCalls.countP (writesTo raw sink) := by
  rw [h.sinkCalls_eq hsingle, List.countP_append, countP_expectedCalls s sink hpassed]
  exact Nat.le_add_right _ _

/-- What is written has been accepted. -/
theorem accepted_of_written (h : Inv env s) (hsingle : s.started ≤ 1) {raw : Raw τ} {sink : ℕ}
    {formatted : String} (hcall : .write w raw sink formatted ∈ s.sinkCalls) :
    raw ∈ s.tc.accepted := by
  have hpolled : ∀ raw ∈ s.tc.polled, raw ∈ s.tc.accepted :=
    fun raw hraw => h.tc.mem_accepted (List.mem_append_left _ hraw)
  rw [h.sinkCalls_eq hsingle, List.mem_append] at hcall
  rcases hcall with hcall | hcall
  · obtain ⟨r, hr, hmem⟩ := List.mem_flatMap.mp hcall
    unfold State.expectedCalls at hmem
    split at hmem
    · obtain ⟨sink', -, heq⟩ := List.mem_map.mp hmem
      cases heq
      exact hpolled _ (h.taken.mem_iff.mpr
        (List.mem_append_right _ (List.mem_map_of_mem hr)))
    · cases hmem
  · unfold State.begun State.begunIn at hcall
    split at hcall
    · next hphase =>
      obtain ⟨sink', -, heq⟩ := List.mem_map.mp hcall
      cases heq
      have hw : 0 < s.started := by
        by_contra hle
        rw [h.unstarted 0 (not_lt.mp hle)] at hphase
        cases hphase
      exact h.accepted_of_held hw (by rw [hphase]; exact List.mem_cons_self)
    · cases hcall

/-- A step calls a sink only to write the message that a worker is at. -/
theorem sinkCalls_of_step (hs : step env s e = some s') : s'.sinkCalls = s.sinkCalls ∨
    ∃ w < s.started, ∃ cur level filters sinks rest sink formatted,
      (s.workers w).phase = .writing cur level filters sinks rest ∧
      s'.sinkCalls = s.sinkCalls ++ [.write w cur.2 sink formatted] := by
  cases step_effect hs with
  | write hw hphase => exact .inr ⟨_, hw, _, _, _, _, _, _, _, hphase, rfl⟩
  | _ => exact .inl rfl

omit [Target] [DecidableEq τ] in
/-- The only worker that has been started is the one that holds a message. -/
private theorem held_of_single (hsingle : s.started ≤ 1) {raw : Raw τ} (hraw : raw ∈ s.held) :
    raw ∈ (s.workers 0).phase.held := by
  obtain ⟨w, hw, hmem⟩ := List.mem_flatMap.mp hraw
  exact eq_zero_of_lt hsingle (List.mem_range.mp hw) ▸ hmem

/-- When the worker writes a message that polls have handed out since the moment without a poll, it
is done with all messages of that moment that have earlier timestamps. -/
private theorem handled_of_writing (h₁ : Inv env s₁) (h : Inv env s) (hsorted : DecodedSorted s)
    (hsingle : s.started ≤ 1) (hafter : After s₁.tc s.tc) {raw₁ : Raw τ} {cur : Decoded τ}
    {header₁ : ArchivedHeader} (hdec₁ : ArchivedHeader.decode raw₁.2 = some header₁)
    (hlater : cur.2 ∉ s₁.tc.accepted) (hts : header₁.timestampNs < cur.1.timestampNs)
    {level : LogLevel} {filters : List Filter} {sinks : List ℕ} {rest : List (Decoded τ)}
    (hw : 0 < s.started) (hphase : (s.workers 0).phase = .writing cur level filters sinks rest) :
    s₁.tc.accepted.count raw₁ ≤ (s.handled.map Handled.raw).count raw₁ := by
  have htaken := h.taken
  -- the message that is written has been polled, and so have all messages of `s₁`
  have hpolled : cur.2 ∈ s.tc.polled := by
    refine htaken.mem_iff.mpr (List.mem_append_left _ (List.mem_flatMap.mpr ?_))
    exact ⟨0, List.mem_range.mpr hw, by rw [hphase]; exact List.mem_cons_self⟩
  have hdone : ∀ t, ofThread t s₁.tc.accepted <+: ofThread t s.tc.polled := by
    rcases hafter.since with hdone | ⟨hbefore, -⟩
    · exact hdone
    · rw [hbefore] at hpolled
      exact absurd (h₁.tc.mem_accepted (List.mem_append_left _ hpolled)) hlater
  have hcount : s₁.tc.accepted.count raw₁ ≤ s.tc.polled.count raw₁ := by
    by_cases hmem : raw₁ ∈ s₁.tc.accepted
    · obtain ⟨t, -, ht, -, -⟩ := h₁.accepted raw₁ hmem
      obtain ⟨o, msg⟩ := raw₁
      obtain rfl : o = some t := ht
      rw [← count_ofThread, ← count_ofThread]
      exact (hdone t).sublist.count_le msg
    · rw [List.count_eq_zero.mpr hmem]
      exact Nat.zero_le _
  -- what is left of the batch is not earlier than the message at its front
  have hnone : s.held.count raw₁ = 0 := by
    refine List.count_eq_zero.mpr fun hmem => ?_
    have hheld := held_of_single hsingle hmem
    have hbatch := hsorted 0
    have hdecoded := h.decoded 0
    rw [hphase] at hheld hbatch hdecoded
    obtain ⟨hfront, -⟩ := List.pairwise_cons.mp hbatch
    have hheader : ∀ d ∈ cur :: rest, d.2 = raw₁ → d.1 = header₁ := by
      intro d hd hraw
      have hdec := hdecoded d hd
      rw [hraw, hdec₁] at hdec
      exact (Option.some.inj hdec).symm
    rcases List.mem_cons.mp hheld with heq | hrest
    · rw [hheader cur List.mem_cons_self heq.symm] at hts
      exact UInt64.lt_irrefl _ hts
    · obtain ⟨d, hd, hraw⟩ := List.mem_map.mp hrest
      have hle := hfront d hd
      rw [hheader d (List.mem_cons_of_mem _ hd) hraw] at hle
      exact absurd hts (UInt64.not_lt.mpr hle)
  rw [htaken.count_eq, List.count_append, hnone, Nat.zero_add] at hcount
  exact hcount

end

/-- With a single backend, and loggers that are configured before the first message is accepted:
take a moment at which no poll is running, a message `raw₁` that passes and a message `raw₂` with a
later timestamp that has not been accepted yet. Before `raw₂` is written to any sink, `raw₁` has
been written to all of its own, as often as it had been accepted. -/
theorem delivered_across_threads (env : Env) (loggers : UInt64 → Logger) {s₁ s : State τ}
    (h₁ : Machine.Reach (step env)
      (fun s e => CapacityOk e ∧ SingleBackend s e ∧ ConfiguredFirst s e) (init loggers) s₁)
    (hidle : s₁.tc.poll = none)
    (hrun : Machine.Reach (step env)
      (fun s e => CapacityOk e ∧ SingleBackend s e ∧ ConfiguredFirst s e) s₁ s)
    {raw₁ raw₂ : Raw τ} {header₁ header₂ : ArchivedHeader}
    (hpasses : Passes env s₁ raw₁ header₁) (hdec₂ : ArchivedHeader.decode raw₂.2 = some header₂)
    (hlater : raw₂ ∉ s₁.tc.accepted) (hts : header₁.timestampNs < header₂.timestampNs) :
    WrittenAfter raw₁ (fun sink => s₁.tc.accepted.count raw₁ * (s₁.sinksOf header₁).count sink)
      raw₂ s.sinkCalls := by
  have hreach₁ : Inv env s₁ := inv_of_reach (fun _ _ hok => hok.1) h₁
  by_cases hmem : raw₁ ∈ s₁.tc.accepted
  · suffices h : After s₁.tc s.tc ∧ DecodedSorted s ∧ WrittenAfter raw₁ _ raw₂ s.sinkCalls from
      h.2.2
    have hsingle : ∀ {s : State τ}, Machine.Reach (step env)
        (fun s e => CapacityOk e ∧ SingleBackend s e ∧ ConfiguredFirst s e) (init loggers) s →
        s.started ≤ 1 :=
      fun hreach => single_of_reach (fun _ _ hok => hok.2.1) hreach
    induction hrun with
    | refl =>
      refine ⟨.refl hidle, h₁.invariant (fun w => .nil) fun _ _ _ h _ hs => h.step hs, ?_⟩
      -- a write of `raw₂` would come after it was accepted
      intro before w sink' formatted after hsplit
      have hcall : .write w raw₂ sink' formatted ∈ s₁.sinkCalls := by
        rw [hsplit]
        exact List.mem_append_right _ List.mem_cons_self
      exact absurd (accepted_of_written hreach₁ (hsingle h₁) hcall) hlater
    | @step s s' e hrun hok hs ih =>
      obtain ⟨hafter, hsorted, hwritten⟩ := ih
      have hreach := h₁.trans hrun
      have h : Inv env s := inv_of_reach (fun _ _ hok => hok.1) hreach
      refine ⟨after_step hafter h hok.1 hs, hsorted.step hs, ?_⟩
      rcases sinkCalls_of_step hs with hsame | ⟨w, hw, cur, _, _, _, _, sink', text, hphase, hcalls⟩
      · rwa [hsame]
      · obtain rfl := eq_zero_of_lt (hsingle hreach) hw
        rw [hcalls]
        refine hwritten.concat fun hraw sink => ?_
        -- the loggers are still those of `s₁`, so `raw₁` passed whenever it was handled
        have hloggers := loggers_of_reach hreach₁ (List.ne_nil_of_mem hmem) hrun
        have hpasses' : Passes env s raw₁ header₁ := by
          unfold Passes
          rwa [hloggers]
        have hdec : ArchivedHeader.decode cur.2.2 = some cur.1 :=
          h.decoded 0 cur (by rw [hphase]; exact List.mem_cons_self)
        have hcur : cur.1 = header₂ := by
          rw [hraw, hdec₂] at hdec
          exact (Option.some.inj hdec).symm
        have hhandled := handled_of_writing hreach₁ h hsorted (hsingle hreach) hafter hpasses.1
          (hraw ▸ hlater) (hcur ▸ hts) hw hphase
        have hpassed : ∀ r ∈ s.handled, r.raw = raw₁ →
            r.header = header₁ ∧ r.verdict.isPassed = true := by
          intro r hr hr₁
          have hheader : r.header = header₁ := by
            have hdec := (h.verdicts r hr).2.1
            rw [hr₁, hpasses.1] at hdec
            exact (Option.some.inj hdec).symm
          refine ⟨hheader, (isPassed_iff hreach hr).mpr ?_⟩
          rw [hr₁, hheader]
          exact hpasses'
        have hle := count_le_countP h (hsingle hreach) sink hpassed
        rw [State.sinksOf, hloggers] at hle
        exact (Nat.mul_le_mul_right _ hhandled).trans hle
  · intro before w sink' formatted after _ sink
    simp only [List.count_eq_zero.mpr hmem, Nat.zero_mul, Nat.zero_le]

/-- A thread registers its ring, and another one its own, in which it logs. -/
def firstLogged : List (Event Bool) :=
  [.thread (.access false), .thread (.register false)] ++ logOnce true (bareCall 5 2)

/-- The first thread logs a later message, and a poll finds it before the earlier one. -/
def secondLogged : List (Event Bool) :=
  [.logCheck false (bareCall 6 4), .logPush false,
    .start { minBatchSize := 1, formatMessage := fun _ _ => "" }, .loadStop 0 false] ++
    pollOnce 0 6 ++
    [.sort 0 [bareDecoded true (bareCall 5 2), bareDecoded false (bareCall 6 4)], .next 0,
      .checkFilters 0, .writeSink 0, .writeSink 0, .writeSink 0, .writeSink 0, .next 0,
      .checkFilters 0, .writeSink 0]

omit [Target] in
/-- The earlier message has been written three times, once for each entry of the sinks of its
logger, before the first write of the later one. -/
theorem delivered_across_threads_two :
    letI : Target := x86_64
    ∃ s₁ s, (step callSites).runWhile
        (fun s e => CapacityOk e ∧ SingleBackend s e ∧ ConfiguredFirst s e) (init twoSinks)
        firstLogged = some s₁ ∧
      (step callSites).runWhile
        (fun s e => CapacityOk e ∧ SingleBackend s e ∧ ConfiguredFirst s e) s₁ secondLogged =
        some s ∧
      s.tc.polled = [(some false, (bareCall 6 4).header.bytes),
        (some true, (bareCall 5 2).header.bytes)] ∧
      WrittenAfter (some true, (bareCall 5 2).header.bytes)
        (fun sink => s₁.tc.accepted.count (some true, (bareCall 5 2).header.bytes) *
          (s₁.sinksOf (bareCall 5 2).header).count sink)
        (some false, (bareCall 6 4).header.bytes) s.sinkCalls := by
  let _ : Target := x86_64
  have hrun : ((step callSites).runWhile (fun s e => CapacityOk e ∧ SingleBackend s e ∧
      ConfiguredFirst s e) (init twoSinks) firstLogged).bind (fun s₁ =>
      ((step callSites).runWhile (fun s e => CapacityOk e ∧ SingleBackend s e ∧
        ConfiguredFirst s e) s₁ secondLogged).map fun s =>
      (decide (s₁.tc.poll.isNone ∧
        Passes callSites s₁ (some true, (bareCall 5 2).header.bytes) (bareCall 5 2).header ∧
        (some false, (bareCall 6 4).header.bytes) ∉ s₁.tc.accepted), s.tc.polled)) =
      some (true, [(some false, (bareCall 6 4).header.bytes),
        (some true, (bareCall 5 2).header.bytes)]) := by
    decide +kernel
  obtain ⟨s₁, hs₁, hrun⟩ := Option.bind_eq_some_iff.mp hrun
  obtain ⟨s, hs, hrun⟩ := Option.map_eq_some_iff.mp hrun
  obtain ⟨hchecked, hpolled⟩ := Prod.mk.inj hrun
  obtain ⟨hidle, hpasses, hlater⟩ := of_decide_eq_true hchecked
  have hdec : ArchivedHeader.decode (bareCall 6 4).header.bytes = some (bareCall 6 4).header := by
    decide +kernel
  exact ⟨s₁, s, hs₁, hs, hpolled, delivered_across_threads callSites twoSinks (.of_runWhile hs₁)
    (Option.isNone_iff_eq_none.mp hidle) (.of_runWhile hs) hpasses hdec hlater (by decide)⟩

end Backend

end RapidLog
