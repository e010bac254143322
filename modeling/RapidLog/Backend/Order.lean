import RapidLog.Backend.Conservation
import RapidLog.Lib.Repeats

/-!
# The order in which a thread's messages are delivered

Rings, polls and batches keep the order in which a thread logs. The sort of a batch keeps it when
the timestamps tell the messages of a thread apart; it is `sort_unstable_by_key`, so two different
messages of one thread with the same timestamp may change places.

## Main results

* `delivered_in_order`: with a single backend, and timestamps that do not decrease in any thread,
  the messages of a thread reach each sink in the order in which the thread logged them, as long as
  no batch that is sorted holds two different messages of a thread with one timestamp (`NoTies`);
* `tied_messages_swapped`: two messages with one timestamp are delivered in the opposite order.
-/

namespace RapidLog

open Queue ThreadContext

variable [Target] {τ : Type} [DecidableEq τ]

namespace Backend

/-- The timestamps of the messages of each thread do not decrease. -/
def TimestampsMonotone (s : State τ) : Prop :=
  ∀ t, ((ofThread t s.tc.accepted).filterMap ArchivedHeader.decode).Pairwise
    fun a b => a.timestampNs ≤ b.timestampNs

/-- At most one backend is started. -/
def SingleBackend (s : State τ) : Event τ → Prop
  | .start _ => s.started = 0
  | _ => True

/-- A batch that is about to be sorted holds no two different messages of a thread with the same
timestamp. -/
def NoTies (s : State τ) : Event τ → Prop
  | .sort w _ => ∀ raws, (s.workers w).phase = .sorting raws →
    ∀ a ∈ raws.filterMap decodeRaw, ∀ b ∈ raws.filterMap decodeRaw,
      a.2.1 = b.2.1 → a.1.timestampNs = b.1.timestampNs → a = b
  | _ => True

/-- What a call of a sink writes of the messages of a thread. -/
def deliveredBy (t : τ) (sink : ℕ) : SinkCall τ → Option (List UInt8)
  | .write _ raw sink' _ => if raw.1 = some t ∧ sink' = sink then some raw.2 else none
  | .flush .. => none

/-- The messages of a thread as they reach a sink. -/
def State.delivered (s : State τ) (t : τ) (sink : ℕ) : List (List UInt8) :=
  s.sinkCalls.filterMap (deliveredBy t sink)

/-- What a single worker has handled and what it holds, in the order of the polls. -/
structure Ordered (s : State τ) : Prop where
  single : s.started ≤ 1
  order : ∀ t, ofThread t s.tc.polled =
    ofThread t (s.handled.map Handled.raw ++ (s.workers 0).phase.held)

section

variable {env : Env} {s s' : State τ} {e : Event τ} {t : τ}

omit [Target] in
/-- The headers of a thread's messages. -/
theorem filterMap_ofThread [Target] (t : τ) (raws : List (Raw τ)) :
    ((raws.filterMap decodeRaw).filter fun d => d.2.1 = some t).map Prod.fst =
      (ofThread t raws).filterMap ArchivedHeader.decode := by
  induction raws with
  | nil => rfl
  | cons raw raws ih =>
    rw [← List.singleton_append, ofThread_append, List.filterMap_append, List.filterMap_append,
      List.filter_append, List.map_append, ih]
    refine congrArg (· ++ _) ?_
    obtain ⟨o, msg⟩ := raw
    rw [ofThread_singleton]
    cases hdec : ArchivedHeader.decode msg <;> by_cases ho : o = some t <;>
      simp [decodeRaw, hdec, ho]

omit [Target] in
theorem ofThread_eq_map [Target] (t : τ) (ds : List (Decoded τ)) :
    ofThread t (ds.map Prod.snd) = (ds.filter fun d => d.2.1 = some t).map fun d => d.2.2 := by
  simp [ofThread, List.filter_map, Function.comp_def]

/-- Sorting a batch without ties keeps the order of the messages of a thread whose timestamps do
not decrease. -/
theorem Sorted.ofThread_eq {raws : List (Raw τ)} {decoded : List (Decoded τ)}
    (h : Sorted raws decoded)
    (hdec : ∀ raw ∈ raws, ∃ header, ArchivedHeader.decode raw.2 = some header)
    (hmono : ((ofThread t raws).filterMap ArchivedHeader.decode).Pairwise
      fun a b => a.timestampNs ≤ b.timestampNs)
    (hties : ∀ a ∈ raws.filterMap decodeRaw, ∀ b ∈ raws.filterMap decodeRaw,
      a.2.1 = b.2.1 → a.1.timestampNs = b.1.timestampNs → a = b) :
    ofThread t (decoded.map Prod.snd) = ofThread t raws := by
  set mine := fun d : Decoded τ => decide (d.2.1 = some t)
  have hsame : decoded.filter mine = (raws.filterMap decodeRaw).filter mine := by
    rw [← filterMap_ofThread, List.pairwise_map] at hmono
    refine List.Perm.eq_of_pairwise ?_ (h.2.filter mine) hmono (h.1.filter mine)
    intro a b ha hb hab hba
    obtain ⟨ha, hta⟩ := List.mem_filter.mp ha
    obtain ⟨hb, htb⟩ := List.mem_filter.mp hb
    have hthread : a.2.1 = b.2.1 := (of_decide_eq_true hta).trans (of_decide_eq_true htb).symm
    exact hties a (h.1.mem_iff.mp ha) b hb hthread (UInt64.le_antisymm hab hba)
  rw [ofThread_eq_map, hsame, ← ofThread_eq_map, Inv.filterMap_decodeRaw hdec]

/-! ### The order of the polls -/

omit [Target] [DecidableEq τ] in
/-- No worker but the first one has been started. -/
theorem eq_zero_of_lt (hsingle : s.started ≤ 1) {w : ℕ} (hw : w < s.started) : w = 0 := by
  omega

/-- What polls have handed out of a thread's messages comes first among those accepted. -/
theorem polled_isPrefix (h : ThreadContext.Inv s.tc) (t : τ) :
    ofThread t s.tc.polled <+: ofThread t s.tc.accepted := by
  rw [h.conserved t, ofThread_append, List.append_assoc]
  exact List.prefix_append _ _

/-- Messages that were accepted stay accepted. -/
theorem accepted_isPrefix (h : Inv env s) (hcap : CapacityOk e) (hs : step env s e = some s') :
    s.tc.accepted <+: s'.tc.accepted := by
  have hthread : ∀ {e tc}, ThreadContext.CapacityOk e →
      ThreadContext.step env.uninit s.tc e = some tc → s.tc.accepted <+: tc.accepted := by
    intro e tc hcap htc
    rcases (h.tc.effect hcap htc).accepted with heq | ⟨_, _, _, _, _, -, -, heq⟩
    · rw [heq]
    · rw [heq]
      exact List.prefix_append _ _
  cases step_effect hs with
  | thread _ htc => exact hthread hcap htc
  | logPush _ htc => exact hthread (e := .attempt ..) trivial htc
  | pollBegin _ _ htc => exact hthread (e := .pollBegin _) trivial htc
  | pollStep _ htc => exact hthread (e := .pollStep) trivial htc
  | pollEnd _ htc _ => exact hthread (e := .pollEnd) trivial htc
  | logCheck | logger | start | stop | move | finish | write => exact List.prefix_rfl

/-- Timestamps that do not decrease did not decrease before. -/
theorem TimestampsMonotone.mono (h : TimestampsMonotone s')
    (hpre : s.tc.accepted <+: s'.tc.accepted) : TimestampsMonotone s := by
  intro t
  have hsub : (ofThread t s.tc.accepted).Sublist (ofThread t s'.tc.accepted) :=
    (hpre.sublist.filter _).map _
  exact (h t).sublist (hsub.filterMap _)

/-- A step keeps the order of what the worker has handled and holds. -/
theorem Ordered.step (ho : Ordered s) (h : Inv env s) (hcap : CapacityOk e)
    (hone : SingleBackend s e) (hties : NoTies s e) (hmono : TimestampsMonotone s)
    (hs : Backend.step env s e = some s') : Ordered s' := by
  have hsingle := ho.single
  -- a step that keeps the batch and what polls have handed out
  have hkeep : ∀ {s' : State τ}, s'.started ≤ 1 → s'.tc.polled = s.tc.polled →
      (∀ t, ofThread t (s'.handled.map Handled.raw ++ (s'.workers 0).phase.held) =
        ofThread t (s.handled.map Handled.raw ++ (s.workers 0).phase.held)) → Ordered s' := by
    intro s' hstarted hpolled hsame
    exact ⟨hstarted, fun t => by rw [hpolled, hsame, ho.order]⟩
  cases step_effect hs with
  | @thread e tc he htc =>
    have hpoll : e.isPoll = false := by cases e <;> first | rfl | cases he
    exact hkeep hsingle ((h.tc.effect hcap htc).poll hpoll).2 fun t => rfl
  | logCheck => exact hkeep hsingle rfl fun t => rfl
  | @logPush t call tc _ htc =>
    exact hkeep hsingle ((h.tc.effect (e := .attempt t call.request) trivial htc).poll rfl).2
      fun t => rfl
  | logger => exact hkeep hsingle rfl fun t => rfl
  | start =>
    have hzero : s.started = 0 := hone
    refine hkeep (by simp [hzero]) rfl fun t => ?_
    rw [h.unstarted 0 hzero.le]
    simp [hzero, WorkerPhase.held]
  | @stop w hw =>
    refine hkeep hsingle rfl fun t => ?_
    rcases eq_or_ne 0 w with rfl | hne
    · simp
    · simp [hne]
  | pollBegin _ _ htc => exact hkeep hsingle (poll_of_pollBegin htc).2.2 fun t => rfl
  | pollStep hp htc => exact hkeep hsingle (poll_of_pollStep hp htc).2 fun t => rfl
  | @pollEnd p tc phase hp htc hphase =>
    -- what the poll hands out goes to the end of the batch of the only worker
    have hw := eq_zero_of_lt hsingle (h.polling p hp).1
    rw [hw] at hphase
    refine ⟨hsingle, fun t => ?_⟩
    have hheld := (held_afterPoll hphase).2.1
    have hpolled := (poll_of_pollEnd hp htc).2
    simp only [hw, Inv.workers_setPhase_self, hheld, hpolled, ofThread_append, ho.order t,
      List.append_assoc]
    rfl
  | @move e w phase hw hmove =>
    obtain rfl := eq_zero_of_lt hsingle hw
    refine hkeep hsingle rfl fun t => ?_
    rw [ofThread_append, ofThread_append, Inv.workers_setPhase_self]
    refine congrArg (_ ++ ·) ?_
    have horder := ho.order t
    have hdecodes := h.decodes_of_held hw
    have hnoties := hties
    generalize hold : (s.workers 0).phase = old at hmove horder hdecodes
    cases hmove with
    | @sort raws decoded hsorted =>
      -- each thread's messages are sorted already, so the sort keeps them in order
      refine hsorted.ofThread_eq hdecodes ?_ (hnoties raws hold)
      have hsub : (ofThread t raws).Sublist (ofThread t s.tc.accepted) := by
        refine List.Sublist.trans ?_ (polled_isPrefix h.tc t).sublist
        rw [horder, ofThread_append]
        exact List.sublist_append_right _ _
      exact (hmono t).sublist (hsub.filterMap _)
    | _ => rfl
  | @finish e w cur verdict rest hw hfinish =>
    obtain rfl := eq_zero_of_lt hsingle hw
    refine hkeep hsingle rfl fun t => ?_
    -- the message moves from the front of the batch to the end of the handled ones
    have hheld : (s.workers 0).phase.held = cur.2 :: rest.map Prod.snd := by
      generalize (s.workers 0).phase = old at hfinish
      cases hfinish <;> rfl
    have hheld' : ((s.finish 0 cur verdict rest).workers 0).phase.held = rest.map Prod.snd := by
      simp [State.finish, State.setPhase, WorkerPhase.held]
    rw [hheld, hheld']
    simp [State.finish]
  | @write w cur level filters sink sinks rest hw hphase =>
    obtain rfl := eq_zero_of_lt hsingle hw
    refine hkeep hsingle rfl fun t => ?_
    rw [hphase, Inv.workers_setPhase_self]
    rfl

/-! ### What reaches a sink -/

omit [Target] in
/-- Of the writes of a message to some sinks, those that count for a thread and a sink. -/
theorem filterMap_writes (s : State τ) (t : τ) (sink w : ℕ) (header : ArchivedHeader) (raw : Raw τ)
    (sinks : List ℕ) : (s.writes w header raw sinks).filterMap (deliveredBy t sink) =
      if raw.1 = some t then List.replicate (sinks.count sink) raw.2 else [] := by
  induction sinks with
  | nil => simp [State.writes]
  | cons sink' sinks ih =>
    have hcons : s.writes w header raw (sink' :: sinks) =
        .write w raw sink' ((s.workers w).options.formatMessage header (payload raw)) ::
          s.writes w header raw sinks := rfl
    rw [hcons, List.filterMap_cons, ih]
    by_cases ht : raw.1 = some t
    · by_cases hsink : sink' = sink
      · simp [deliveredBy, ht, hsink, List.replicate_succ]
      · simp [deliveredBy, ht, hsink]
    · simp [deliveredBy, ht]

/-- The message of a thread with the number of times that it was written to a sink. -/
def timesWritten (s : State τ) (t : τ) (sink : ℕ) (r : Handled τ) : List (List UInt8 × ℕ) :=
  if r.raw.1 = some t then
    [(r.raw.2, if r.verdict.isPassed then (s.sinksOf r.header).count sink else 0)]
  else []

/-- The same for the message that a worker is at. -/
def timesBegun (s : State τ) (t : τ) (sink : ℕ) : WorkerPhase τ → List (List UInt8 × ℕ)
  | .writing cur _ _ left _ =>
    if cur.2.1 = some t then
      [(cur.2.2, ((s.sinksOf cur.1).take ((s.sinksOf cur.1).length - left.length)).count sink)]
    else []
  | _ => []

omit [Target] in
private theorem filterMap_expectedCalls (s : State τ) (t : τ) (sink : ℕ) (rs : List (Handled τ)) :
    (rs.flatMap s.expectedCalls).filterMap (deliveredBy t sink) =
        (rs.flatMap (timesWritten s t sink)).flatMap (fun x => List.replicate x.2 x.1) ∧
      (rs.flatMap (timesWritten s t sink)).map Prod.fst = ofThread t (rs.map Handled.raw) := by
  induction rs with
  | nil => exact ⟨rfl, rfl⟩
  | cons r rs ih =>
    obtain ⟨ih₁, ih₂⟩ := ih
    have hone : (s.expectedCalls r).filterMap (deliveredBy t sink) =
        (timesWritten s t sink r).flatMap fun x => List.replicate x.2 x.1 := by
      unfold State.expectedCalls timesWritten
      cases r.verdict.isPassed
      · by_cases ht : r.raw.1 = some t <;> simp [ht]
      · rw [if_pos rfl, filterMap_writes]
        by_cases ht : r.raw.1 = some t <;> simp [ht]
    have htag : (timesWritten s t sink r).map Prod.fst = ofThread t [r.raw] := by
      unfold timesWritten
      rw [ofThread_singleton t r.raw.1 r.raw.2]
      split <;> rfl
    constructor
    · rw [List.flatMap_cons, List.filterMap_append, hone, ih₁, List.flatMap_cons,
        List.flatMap_append]
    · rw [List.flatMap_cons, List.map_append, htag, ih₂, List.map_cons, ← ofThread_append]
      rfl

omit [Target] in
private theorem filterMap_begunIn (s : State τ) (t : τ) (sink : ℕ) (phase : WorkerPhase τ) :
    (s.begunIn 0 phase).filterMap (deliveredBy t sink) =
        (timesBegun s t sink phase).flatMap (fun x => List.replicate x.2 x.1) ∧
      (timesBegun s t sink phase).map Prod.fst <+: ofThread t phase.held := by
  cases phase with
  | writing cur level filters left rest =>
    have hheld : ofThread t (WorkerPhase.writing cur level filters left rest).held =
        ofThread t [cur.2] ++ ofThread t (rest.map Prod.snd) := by
      rw [← ofThread_append]
      rfl
    simp only [State.begunIn, timesBegun, filterMap_writes]
    constructor
    · by_cases ht : cur.2.1 = some t <;> simp [ht]
    · rw [hheld, ofThread_singleton t cur.2.1 cur.2.2]
      by_cases ht : cur.2.1 = some t <;> simp [ht]
  | _ => exact ⟨rfl, List.nil_prefix⟩

/-- With a single worker, all calls are its own. -/
theorem Inv.sinkCalls_eq (h : Inv env s) (hsingle : s.started ≤ 1) :
    s.sinkCalls = s.handled.flatMap s.expectedCalls ++ s.begun 0 := by
  have hhandled : s.handledBy 0 = s.handled := by
    refine List.filter_eq_self.mpr fun r hr => ?_
    simpa using eq_zero_of_lt hsingle (h.verdicts r hr).1
  have hcalls : s.callsOf 0 = s.sinkCalls := by
    refine List.filter_eq_self.mpr fun call hcall => ?_
    by_contra hne
    have hworker : call.worker ≠ 0 := by simpa using hne
    -- a worker that was never started has handled nothing and writes nothing
    have hnone : s.callsOf call.worker = [] := by
      have hnil : s.handledBy call.worker = [] := List.filter_eq_nil_iff.mpr fun r hr => by
        simpa [eq_zero_of_lt hsingle (h.verdicts r hr).1] using hworker.symm
      rw [h.calls, hnil, State.begun, h.unstarted _ (by omega)]
      rfl
    have hmem : call ∈ s.callsOf call.worker := List.mem_filter.mpr ⟨hcall, by simp⟩
    rw [hnone] at hmem
    cases hmem
  rw [← hcalls, h.calls 0, hhandled]

/-- What reaches a sink follows what the worker has handled and holds, which follows what was
accepted. -/
theorem Ordered.repeats (ho : Ordered s) (h : Inv env s) (t : τ) (sink : ℕ) :
    Repeats (ofThread t s.tc.accepted) (s.delivered t sink) := by
  obtain ⟨hcalls, hfst⟩ := filterMap_expectedCalls s t sink s.handled
  obtain ⟨hbegun, hpre⟩ := filterMap_begunIn s t sink (s.workers 0).phase
  have hdelivered : s.delivered t sink = (s.handled.flatMap (timesWritten s t sink) ++
      timesBegun s t sink (s.workers 0).phase).flatMap fun x => List.replicate x.2 x.1 := by
    rw [State.delivered, h.sinkCalls_eq ho.single, List.filterMap_append, List.flatMap_append,
      hcalls, State.begun, hbegun]
  rw [hdelivered]
  apply repeats_mono
  rw [List.map_append, hfst]
  refine List.IsPrefix.trans ?_ (polled_isPrefix h.tc t)
  rw [ho.order t, ofThread_append]
  exact (List.prefix_append_right_inj _).mpr hpre

end

/-- With a single backend, and timestamps that do not decrease in any thread, the messages of a
thread reach each sink in the order in which the thread logged them, as long as no batch that is
sorted holds two different messages of a thread with one timestamp. -/
theorem delivered_in_order (env : Env) (loggers : UInt64 → Logger) {s : State τ}
    (hrun : Machine.Reach (step env)
      (fun s e => CapacityOk e ∧ SingleBackend s e ∧ NoTies s e) (init loggers) s)
    (hmono : TimestampsMonotone s) (t : τ) (sink : ℕ) :
    Repeats (ofThread t s.tc.accepted) (s.delivered t sink) := by
  have hinv : ∀ {s : State τ}, Machine.Reach (step env)
      (fun s e => CapacityOk e ∧ SingleBackend s e ∧ NoTies s e) (init loggers) s → Inv env s :=
    fun hrun => inv_of_reach (fun _ _ hok => hok.1) hrun
  have hordered : Ordered s := by
    induction hrun with
    | refl => exact ⟨Nat.zero_le 1, fun _ => rfl⟩
    | step hreach hok hs ih =>
      have hbefore := hmono.mono (accepted_isPrefix (hinv hreach) hok.1 hs)
      exact (ih hbefore).step (hinv hreach) hok.1 hok.2.1 hok.2.2 hbefore hs
  exact hordered.repeats (hinv hrun) t sink

instance (s : State τ) : (e : Event τ) → Decidable (SingleBackend s e)
  | .start _ => inferInstanceAs (Decidable (s.started = 0))
  | .thread _ | .logCheck .. | .logPush _ | .setLogLevel .. | .addFilter .. | .clearFilters _
  | .stop _ | .loadStop .. | .pollBegin _ | .pollStep _ | .pollEnd _ | .sort .. | .next _
  | .checkFilters _ | .writeSink _ => .isTrue trivial

instance (s : State τ) : (e : Event τ) → Decidable (NoTies s e)
  | .sort w _ =>
    match h : (s.workers w).phase with
    | .sorting raws =>
      decidable_of_iff (∀ a ∈ raws.filterMap decodeRaw, ∀ b ∈ raws.filterMap decodeRaw,
        a.2.1 = b.2.1 → a.1.timestampNs = b.1.timestampNs → a = b) (by
        refine ⟨fun hties raws' hraws' => ?_, fun hties => hties raws h⟩
        cases h.symm.trans hraws'
        exact hties)
    | .loopHead | .firstPoll | .batchHead _ | .morePoll _ | .dispatching _ | .filtering ..
    | .writing .. | .exited => .isTrue fun _ hraws => nomatch h.symm.trans hraws
  | .thread _ | .logCheck .. | .logPush _ | .setLogLevel .. | .addFilter .. | .clearFilters _
  | .start _ | .stop _ | .loadStop .. | .pollBegin _ | .pollStep _ | .pollEnd _ | .next _
  | .checkFilters _ | .writeSink _ => .isTrue trivial

/-- A thread logs twice at one level, at the given times. -/
def logTwice (ts₁ ts₂ : UInt64) : List (Event Unit) :=
  logOnce () (bareCall ts₁ 2) ++ [.logCheck () (bareCall ts₂ 4), .logPush ()]

/-- A worker handles a message that passes, on a logger with three sinks. -/
def deliver : List (Event Unit) :=
  [.next 0, .checkFilters 0, .writeSink 0, .writeSink 0, .writeSink 0, .writeSink 0]

/-- A backend takes both messages into one batch, sorts them into the order `decoded` and delivers
them. -/
def deliverTwo (decoded : List (Decoded Unit)) : List (Event Unit) :=
  [.start { minBatchSize := 2, formatMessage := fun _ _ => "" }, .loadStop 0 false] ++
    pollOnce 0 4 ++ [.sort 0 decoded] ++ deliver ++ deliver

/-- The first message of `logTwice`. -/
def first (ts : UInt64) : List UInt8 := (bareCall ts 2).header.bytes

/-- The second message of `logTwice`. -/
def second (ts : UInt64) : List UInt8 := (bareCall ts 4).header.bytes

omit [Target] in
/-- Two messages with different timestamps reach a sink in order, here one that its logger lists
twice. -/
theorem delivered_in_order_two :
    letI : Target := x86_64
    ∃ s, (step callSites).runWhile (fun s e => CapacityOk e ∧ SingleBackend s e ∧ NoTies s e)
        (init twoSinks) (logTwice 5 6 ++ deliverTwo
          [bareDecoded () (bareCall 5 2), bareDecoded () (bareCall 6 4)]) = some s ∧
      s.delivered () 1 = [first 5, first 5, second 6, second 6] ∧
      Repeats (ofThread () s.tc.accepted) (s.delivered () 1) := by
  let _ : Target := x86_64
  have hrun : ((step callSites).runWhile
      (fun s e => CapacityOk e ∧ SingleBackend s e ∧ NoTies s e) (init twoSinks)
      (logTwice 5 6 ++ deliverTwo
        [bareDecoded () (bareCall 5 2), bareDecoded () (bareCall 6 4)])).map
      (fun s => (s.delivered () 1, ofThread () s.tc.accepted)) =
      some ([first 5, first 5, second 6, second 6], [first 5, second 6]) := by
    decide +kernel
  obtain ⟨s, hs, hs'⟩ := Option.map_eq_some_iff.mp hrun
  obtain ⟨hdelivered, haccepted⟩ := Prod.mk.inj hs'
  refine ⟨s, hs, hdelivered, delivered_in_order callSites twoSinks (.of_runWhile hs) ?_ () 1⟩
  intro t
  rw [haccepted]
  decide +kernel

omit [Target] in
/-- The sort may swap two messages of one thread with the same timestamp: the sinks get them in the
opposite order. -/
theorem tied_messages_swapped :
    letI : Target := x86_64
    ∃ s : State Unit, Machine.Reach (step callSites) (fun s e => CapacityOk e ∧ SingleBackend s e)
        (init twoSinks) s ∧ TimestampsMonotone s ∧
      ofThread () s.tc.accepted = [first 5, second 5] ∧
      ¬ Repeats (ofThread () s.tc.accepted) (s.delivered () 0) := by
  let _ : Target := x86_64
  have hrun : ((step callSites).runWhile (fun s e => CapacityOk e ∧ SingleBackend s e)
      (init twoSinks) (logTwice 5 5 ++ deliverTwo
        [bareDecoded () (bareCall 5 4), bareDecoded () (bareCall 5 2)])).map
      (fun s => (s.delivered () 0, ofThread () s.tc.accepted)) =
      some ([second 5, first 5], [first 5, second 5]) := by
    decide +kernel
  obtain ⟨s, hs, hs'⟩ := Option.map_eq_some_iff.mp hrun
  obtain ⟨hdelivered, haccepted⟩ := Prod.mk.inj hs'
  refine ⟨s, .of_runWhile hs, fun t => ?_, haccepted, fun h => ?_⟩
  · rw [haccepted]
    decide +kernel
  · rw [haccepted, hdelivered] at h
    have hne : first 5 ≠ second 5 := by decide +kernel
    exact hne h.eq_of_swap

end Backend

end RapidLog
