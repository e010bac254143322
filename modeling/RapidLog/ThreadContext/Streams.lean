import RapidLog.ThreadContext.Invariant

/-!
# Block chaining preserves the stream of a thread

What the registry guarantees over whole runs, for any number of threads and any interleaving of
their steps with the steps of the polls. A thread's messages pass through a chain of rings, and
polls take them out in the order in which the thread pushed them.

## Main results

* `streams_preserved`: no loss, no duplicate and no reordering, as long as no accepted message is
  too long for the `u32` of its header (`ShortMessage`);
* `oversized_message_lost`: a message of `2 ^ 32` bytes is accepted by a ring that is large enough
  and polled as an empty one.
-/

namespace RapidLog

open Queue RingBuffer

variable [Target] {τ : Type} [DecidableEq τ]

namespace ThreadContext

/-- No registered ring holds a message and none is abandoned. -/
def State.Settled (s : State τ) : Prop :=
  ∀ b ∈ s.registry, SpscConsumer.isEmpty (s.rings b) = true ∧ s.abandoned b = false

/-- A poll by `poller` that no thread interrupts, with `n` steps before it returns. -/
def quietPoll (poller n : ℕ) : List (Event τ) :=
  .pollBegin poller :: (List.replicate n .pollStep ++ [.pollEnd])

/-- What polls hand out agrees with what the threads pushed; `ok` restricts the steps to come. -/
structure StreamsPreserved (uninit : ℕ → ℕ → UInt8) (ok : State τ → Event τ → Prop)
    (s : State τ) : Prop where
  /-- Every write stayed in the slices reserved for it. -/
  faulted : s.faulted = false
  /-- The results of the polls, restricted to a thread, are the first of its messages. -/
  polled : ∀ t, ofThread t s.polled <+: ofThread t s.accepted
  /-- The others are in the hands of a running poll or in the rings of the thread. -/
  conserved : ∀ t, ofThread t s.accepted =
    ofThread t s.polled ++ (ofThread t s.inFlight ++ s.pendingOf t)
  /-- A consumer that was removed never yields a message again. -/
  removed : ∀ b ∈ s.removed, ∀ s', Machine.Reach (step uninit) ok s s' →
    pending (s'.rings b) = []
  /-- A poll during which no thread steps returns, and leaves nothing behind. -/
  quiet : s.poll = none → ∀ poller, (∃ n s', (step uninit).run s (quietPoll poller n) = some s') ∧
    ∀ n s', (step uninit).run s (quietPoll poller n) = some s' → s'.Settled

/-! ### Quiet polls -/

/-- The rings that a poll has passed without interruption are settled. -/
structure Quiet (s : State τ) (p : Poll τ) : Prop where
  poll_eq : s.poll = some p
  passed : ∀ a ∈ s.registry.take p.index, pending (s.rings a) = [] ∧ s.abandoned a = false
  here : p.phase ≠ .popping → ∀ b, s.registry[p.index]? = some b → pending (s.rings b) = []

/-- How far a poll is from leaving the ring it looks at. -/
def phaseRank : PollPhase → ℕ
  | .popping => 2
  | .checkAbandoned => 1
  | .checkEmpty => 0

/-- What a poll has yet to do: the rings from its index on, with their messages. -/
def State.work (s : State τ) (p : Poll τ) : ℕ :=
  ((s.registry.drop p.index).map fun b => 3 + (pending (s.rings b)).length).sum + phaseRank p.phase

section Quiet

variable {uninit : ℕ → ℕ → UInt8} {s s' : State τ} {p : Poll τ} {b : ℕ}

/-- One step of an uninterrupted poll does some of its work and leaves behind what it should. -/
theorem Quiet.step (hq : Quiet s p) (h : Inv s) (hb : s.registry[p.index]? = some b) :
    ∃ p', Quiet (s.pollAt p b) p' ∧ (s.pollAt p b).work p' < s.work p := by
  have hmem := List.mem_of_getElem? hb
  have hholds := h.holds b (h.registry_lt b hmem)
  obtain ⟨hi, -⟩ := List.getElem?_eq_some_iff.mp hb
  have hdrop : s.registry.drop p.index = b :: s.registry.drop (p.index + 1) := by
    rw [List.drop_eq_getElem_cons hi, (List.getElem?_eq_some_iff.mp hb).2]
  have hbefore : ∀ a ∈ s.registry.take p.index, a ≠ b := by
    rintro a ha rfl
    exact h.passed p hq.poll_eq a ha a (hdrop ▸ List.mem_cons_self) rfl
  have hafter : ∀ a ∈ s.registry.drop (p.index + 1), a ≠ b := by
    rintro a ha rfl
    exact absurd (h.lt_of_mem_drop hb ha rfl) (lt_irrefl _)
  have hwork : s.work p = 3 + (pending (s.rings b)).length +
      ((s.registry.drop (p.index + 1)).map fun b => 3 + (pending (s.rings b)).length).sum +
      phaseRank p.phase := by
    rw [State.work, hdrop, List.map_cons, List.sum_cons]
  rw [hwork]
  cases hphase : p.phase with
  | popping =>
    -- one message less, or on to the check of a ring that is now empty
    cases hpend : pending (s.rings b) with
    | nil =>
      rw [hpend] at hholds
      simp only [State.pollAt, hphase, pop_nil hholds, Function.update_eq_self]
      refine ⟨_, ⟨rfl, hq.passed, fun _ b' hb' => ?_⟩, ?_⟩
      · obtain rfl : b = b' := Option.some.inj (hb.symm.trans hb')
        exact hpend
      · simp [State.work, hdrop, hpend, phaseRank]
    | cons msg msgs =>
      rw [hpend] at hholds
      obtain ⟨hpop, hrest⟩ := pop_cons hholds
      simp only [State.pollAt, hphase, hpop]
      refine ⟨_, ⟨rfl, fun a ha => ?_, fun hne => absurd rfl hne⟩, ?_⟩
      · dsimp only
        rw [Function.update_of_ne (hbefore a ha)]
        exact hq.passed a ha
      · have hsame : (s.registry.drop (p.index + 1)).map (fun a => 3 +
            (pending (Function.update s.rings b ((s.rings b).commitRead
              (paddedSize msg.length)) a)).length) =
            (s.registry.drop (p.index + 1)).map fun a => 3 + (pending (s.rings a)).length :=
          List.map_congr_left fun a ha => by rw [Function.update_of_ne (hafter a ha)]
        simp only [State.work, hdrop, List.map_cons, List.sum_cons, hsame, Function.update_self,
          pending_of_holds hrest, List.length_cons]
        omega
  | checkAbandoned =>
    -- an abandoned ring is looked at once more, any other is left behind
    have hnil := hq.here (by simp [hphase]) b hb
    by_cases hab : s.abandoned b = true
    · simp only [State.pollAt, hphase, if_pos hab]
      refine ⟨_, ⟨rfl, hq.passed, fun _ => hq.here (by simp [hphase])⟩, ?_⟩
      simp [State.work, hdrop, phaseRank]
    · simp only [State.pollAt, hphase, if_neg hab]
      refine ⟨_, ⟨rfl, fun a ha => ?_, fun hne => absurd rfl hne⟩, ?_⟩
      · simp only [List.take_add_one, hb, Option.toList_some, List.mem_append,
          List.mem_singleton] at ha
        rcases ha with ha | rfl
        · exact hq.passed a ha
        · exact ⟨hnil, by simpa using hab⟩
      · simp only [State.work, phaseRank]
        omega
  | checkEmpty =>
    -- nothing has been pushed since, so the ring goes and the next one takes its index
    have hnil := hq.here (by simp [hphase]) b hb
    have hempty := (isEmpty_of_holds hholds).mpr hnil
    simp only [State.pollAt, hphase, if_pos hempty]
    have htake : (s.registry.take p.index ++ s.registry.drop (p.index + 1)).take p.index =
        s.registry.take p.index := List.take_left' (by rw [List.length_take]; omega)
    have hrest : (s.registry.take p.index ++ s.registry.drop (p.index + 1)).drop p.index =
        s.registry.drop (p.index + 1) := List.drop_left' (by rw [List.length_take]; omega)
    refine ⟨_, ⟨rfl, fun a ha => ?_, fun hne => absurd rfl hne⟩, ?_⟩
    · simp only [List.eraseIdx_eq_take_drop_succ, htake] at ha
      exact hq.passed a ha
    · simp only [State.work, List.eraseIdx_eq_take_drop_succ, hrest, phaseRank]
      omega

/-- An uninterrupted poll at a ring that it has yet to look at. -/
private theorem step_pollStep (hq : Quiet s p) (hb : s.registry[p.index]? = some b) :
    ThreadContext.step uninit s .pollStep = some (s.pollAt p b) := by
  simp [ThreadContext.step, hq.poll_eq, hb]

/-- An uninterrupted poll returns. -/
theorem Quiet.returns (hq : Quiet s p) (h : Inv s) :
    ∃ n s', (ThreadContext.step uninit).run s (List.replicate n .pollStep ++ [.pollEnd]) =
      some s' := by
  induction hw : s.work p using Nat.strong_induction_on generalizing s p with
  | _ w ih =>
    rcases Nat.lt_or_ge p.index s.registry.length with hi | hi
    · have hb := List.getElem?_eq_getElem hi
      obtain ⟨p', hq', hlt⟩ := hq.step h hb
      obtain ⟨n, s', hrun⟩ := ih _ (hw ▸ hlt) hq' (h.pollAt hq.poll_eq hb) rfl
      refine ⟨n + 1, s', ?_⟩
      simp only [List.replicate_succ, List.cons_append, Machine.run_cons, step_pollStep hq hb,
        Option.bind_some]
      exact hrun
    · exact ⟨0, { s with poll := none, polled := s.polled ++ p.allMsgs }, by
        simp [ThreadContext.step, hq.poll_eq, hi]⟩

/-- When an uninterrupted poll returns, every registered ring is settled. -/
theorem Quiet.settled (hq : Quiet s p) (h : Inv s) {n : ℕ}
    (hrun : (ThreadContext.step uninit).run s (List.replicate n .pollStep ++ [.pollEnd]) =
      some s') :
    s'.Settled := by
  induction n generalizing s p with
  | zero =>
    simp only [List.replicate_zero, List.nil_append, Machine.run_cons, ThreadContext.step,
      hq.poll_eq] at hrun
    split at hrun
    · next hi =>
      cases hrun
      intro b hb
      obtain ⟨hnil, hlive⟩ := hq.passed b (by rwa [List.take_of_length_le hi])
      exact ⟨(isEmpty_of_holds (h.holds b (h.registry_lt b hb))).mpr hnil, hlive⟩
    · cases hrun
  | succ n ih =>
    simp only [List.replicate_succ, List.cons_append, Machine.run_cons] at hrun
    obtain ⟨s₁, hs₁, hrest⟩ := Option.bind_eq_some_iff.mp hrun
    cases hb : s.registry[p.index]? with
    | none => simp [ThreadContext.step, hq.poll_eq, hb] at hs₁
    | some b =>
      rw [step_pollStep hq hb] at hs₁
      cases hs₁
      obtain ⟨p', hq', -⟩ := hq.step h hb
      exact ih hq' (h.pollAt hq.poll_eq hb) hrest

end Quiet

/-! ### Whole runs -/

/-- A consumer that has been removed stays removed. -/
theorem removed_mono {uninit : ℕ → ℕ → UInt8} {s s' : State τ} {e : Event τ} {b : ℕ}
    (hs : step uninit s e = some s') (hb : b ∈ s.removed) : b ∈ s'.removed := by
  have htry : ∀ t block mode req, (s.tryPush t block mode req).removed = s.removed := by
    intro t block mode req
    simp only [State.tryPush]
    split
    · rfl
    · rfl
    · cases mode <;> rfl
  have hpoll : ∀ p block, b ∈ (s.pollAt p block).removed := by
    intro p block
    simp only [State.pollAt]
    cases p.phase with
    | popping =>
      rcases SpscConsumer.pop (s.rings block) with ⟨_ | msg, r⟩ <;> exact hb
    | checkAbandoned => cases s.abandoned block <;> exact hb
    | checkEmpty =>
      cases SpscConsumer.isEmpty (s.rings block)
      · exact hb
      · exact List.mem_append_left _ hb
  cases step_cases hs with
  | attempt | retry => rwa [htry]
  | pollStep => exact hpoll _ _
  | _ => exact hb

/-- In every state of a run whose capacities are valid and whose accepted messages fit their
headers, what polls hand out agrees with what the threads pushed. -/
theorem streams_preserved (uninit : ℕ → ℕ → UInt8) {s : State τ}
    (hrun : Machine.Reach (step uninit) (fun s e => ValidCapacity e ∧ ShortMessage s e) init s) :
    StreamsPreserved uninit (fun s e => ValidCapacity e ∧ ShortMessage s e) s := by
  have h := inv_of_reach hrun
  have hcons : ∀ t, ofThread t s.accepted =
      ofThread t s.polled ++ (ofThread t s.inFlight ++ s.pendingOf t) := by
    intro t
    rw [h.conserved t, ofThread_append, List.append_assoc]
  refine ⟨h.faulted, fun t => ⟨_, (hcons t).symm⟩, hcons, fun b hb s' hrun' => ?_, ?_⟩
  · have hb' : b ∈ s'.removed := hrun'.invariant (P := fun s => b ∈ s.removed) hb
      fun _ _ _ hmem _ hs => removed_mono hs hmem
    exact ((inv_of_reach (hrun.trans hrun')).removed b hb').2.1
  · intro hpoll poller
    set s₀ : State τ :=
      { s with poll := some { poller, index := 0, phase := .popping, allMsgs := [] } }
    have hbegin : step uninit s (.pollBegin poller) = some s₀ := by
      simp only [step, hpoll]
      rfl
    have hq : Quiet s₀ { poller, index := 0, phase := .popping, allMsgs := [] } :=
      ⟨rfl, fun a ha => by simp at ha, fun hne => absurd rfl hne⟩
    have hinv := h.pollBegin hpoll poller
    refine ⟨?_, fun n s' hrun' => ?_⟩
    · obtain ⟨n, s', hret⟩ := hq.returns hinv
      exact ⟨n, s', by rw [quietPoll, Machine.run_cons, hbegin]; exact hret⟩
    · rw [quietPoll, Machine.run_cons, hbegin] at hrun'
      exact hq.settled hinv hrun'

instance (s : State τ) (block : ℕ) (req : Request) : Decidable (HeaderFits s block req) :=
  inferInstanceAs (Decidable (_ → _))

instance (s : State τ) (e : Event τ) : Decidable (ValidCapacity e ∧ ShortMessage s e) :=
  match e with
  | .attempt t req =>
    match h : s.threads t with
    | .ready block mode => decidable_of_iff (HeaderFits s block req) (by
        simp [ValidCapacity, ShortMessage, h])
    | .unstarted | .exited | .full .. | .registering .. | .retrying .. =>
      .isTrue ⟨trivial, fun _ _ ht => nomatch h.symm.trans ht⟩
  | .retry t =>
    match h : s.threads t with
    | .retrying block req => decidable_of_iff (HeaderFits s block req) (by
        simp [ValidCapacity, ShortMessage, h])
    | .unstarted | .exited | .full .. | .registering .. | .ready .. =>
      .isTrue ⟨trivial, fun _ _ ht => nomatch h.symm.trans ht⟩
  | .initWithMode _ _ startCapacity =>
    decidable_of_iff (0 < startCapacity ∧ 64 ∣ startCapacity) (by
      simp [ValidCapacity, ShortMessage])
  | .access _ | .register _ | .grow _ | .exit _ | .pollBegin _ | .pollStep | .pollEnd =>
    .isTrue ⟨trivial, trivial⟩

/-- A thread in unbounded mode on a ring of one cache line pushes twice, which grows the queue; the
poll that follows goes through three rings, two of them abandoned. -/
def growingRun : List (Event Unit) :=
  [.access (), .register (), .initWithMode () .unboundedBlocking 64, .register (),
    .attempt () (.push [1, 2, 3]), .attempt () (.push [4]), .grow (), .register (), .retry ()] ++
    quietPoll 0 10

omit [Target] in
/-- The poll of `growingRun` hands out both messages in order. -/
theorem streams_preserved_growing :
    letI : Target := x86_64
    ∃ s, (step fun _ _ => 0).runWhile (fun s e => ValidCapacity e ∧ ShortMessage s e) init
        growingRun = some s ∧
      ofThread () s.polled = [[1, 2, 3], [4]] ∧
      StreamsPreserved (fun _ _ => 0) (fun s e => ValidCapacity e ∧ ShortMessage s e) s := by
  let _ : Target := x86_64
  have hrun : ((step fun _ _ => 0).runWhile (fun s e => ValidCapacity e ∧ ShortMessage s e) init
      growingRun).map (fun s => ofThread () s.polled) = some [[1, 2, 3], [4]] := by
    decide +kernel
  obtain ⟨s, hs, hpolled⟩ := Option.map_eq_some_iff.mp hrun
  exact ⟨s, hs, hpolled, streams_preserved (fun _ _ => 0) (.of_runWhile hs)⟩

/-! ### A message too long for its header -/

/-- The shortest message that is too long for the `u32` of its header. -/
def oversized : List UInt8 := List.replicate (2 ^ 32) 255

/-- A ring that `oversized` fits. -/
def oversizedCapacity : ℕ := 2 ^ 32 + 64

omit [Target] in
/-- The ring accepts the message, and `pop` reads a message of length zero and then none at all. -/
theorem pop_oversized (mem : ℕ → UInt8) :
    letI : Target := x86_64
    ∃ r, (Request.push oversized).attempt (createQueue oversizedCapacity mem) =
        some (.ok (r, oversized)) ∧
      SpscConsumer.pop r = (some [], r.commitRead 64) ∧
      SpscConsumer.pop (r.commitRead 64) = (none, r.commitRead 64) := by
  let _ : Target := x86_64
  have hlen : oversized.length = 2 ^ 32 := by rw [oversized, List.length_replicate]
  have hpadded : paddedSize oversized.length = 2 ^ 32 + 64 := by
    rw [paddedSize_eq, hlen]
    norm_num
  have ha : Aligned (createQueue oversizedCapacity mem) :=
    aligned_createQueue (by norm_num [oversizedCapacity]) (by norm_num [oversizedCapacity]) mem
  have hfree : paddedSize oversized.length ≤ (createQueue oversizedCapacity mem).freeSlots := by
    simp [hpadded, freeSlots, slots, createQueue, RingBuffer.new, oversizedCapacity]
  obtain ⟨r, hpush, happ⟩ := push_spec ha.hasRoom_tail hfree
  have hr := ha.appended happ hfree
  have hhead : r.head = 0 := happ.head_eq
  have htail : r.tail = 2 ^ 32 + 64 := by
    rw [happ.tail_eq, hpadded]
    simp [createQueue, RingBuffer.new]
  refine ⟨r, by rw [Request.attempt, hpush]; rfl, ?_, ?_⟩
  · -- `2 ^ 32` is truncated to zero
    have hzero : fromNeBytes (r.window r.head 4) = 0 := by
      rw [hhead, show r.window 0 4 = _ from happ.header_eq, hlen]
      rfl
    rw [pop_eq hr.hasRoom_head hzero, if_pos (by rw [slots, hhead, htail, paddedSize_eq]; norm_num)]
    rfl
  · -- the next header is read from the payload
    have hwindow : (r.commitRead 64).window (r.commitRead 64).head 4 = List.replicate 4 255 := by
      have hpay : r.window 8 (2 ^ 32) = oversized := hlen ▸ happ.payload_eq
      have hdrop := drop_window r 8 (show 56 ≤ 2 ^ 32 by decide)
      rw [hpay, oversized, List.drop_replicate] at hdrop
      have htake := take_window r (8 + 56) (show 4 ≤ 2 ^ 32 - 56 by decide)
      rw [← hdrop, List.take_replicate] at htake
      rw [window_commitRead, RingBuffer.commitRead, hhead]
      exact htake.symm
    have hmax : fromNeBytes ((r.commitRead 64).window (r.commitRead 64).head 4) = 2 ^ 32 - 1 := by
      rw [hwindow]
      decide
    have ha' : Aligned (r.commitRead 64) := by
      refine ⟨hr.capacity_pos, hr.capacity_dvd, Nat.dvd_add hr.head_dvd ⟨1, rfl⟩, hr.tail_dvd, ?_,
        ?_⟩
      · simp only [RingBuffer.commitRead]; omega
      · have := hr.tail_le
        simp only [RingBuffer.commitRead]
        omega
    rw [pop_eq ha'.hasRoom_head hmax, if_neg]
    rw [slots_commitRead, slots, hhead, htail, paddedSize_eq]
    norm_num

/-- A thread asks for a ring of the given capacity, pushes one message, and a poll runs. -/
def singleRun (capacity : ℕ) (data : List UInt8) : List (Event Unit) :=
  [.access (), .register (), .initWithMode () .boundedDropping capacity, .register (),
    .attempt () (.push data)] ++ quietPoll 0 6

/-- A poll hands out what `pop` reads, whatever was pushed. -/
theorem singleRun_polled {capacity : ℕ} {data msg : List UInt8} {r r' : Ring}
    (hcap : SpscProducer.capacity (createQueue defaultStartCapacity fun _ => 0) ≠ capacity)
    (hatt : (Request.push data).attempt (createQueue capacity fun _ => 0) = some (.ok (r, data)))
    (hpop : SpscConsumer.pop r = (some msg, r')) (hpop' : SpscConsumer.pop r' = (none, r')) :
    ∃ s, (step fun _ _ => 0).run init (singleRun capacity data) = some s ∧
      s.polled = [(some (), msg)] ∧ s.accepted = [(some (), data)] := by
  have hempty : Holds (createQueue defaultStartCapacity fun _ => 0) [] :=
    holds_createQueue (by decide) (by decide) _
  have hfirst := (isEmpty_of_holds hempty).mpr rfl
  have hpop₀ := pop_nil hempty
  simp [singleRun, quietPoll, List.replicate_succ, step, init, State.create, State.setThread,
    State.dropProducer, State.tryPush, State.pollAt, hcap, hatt, hpop, hpop', hpop₀, hfirst]

omit [Target] in
theorem validCapacity_singleRun {capacity : ℕ} (hpos : 0 < capacity) (hdvd : 64 ∣ capacity)
    (data : List UInt8) : ∀ e ∈ singleRun capacity data, ValidCapacity e := by
  simp [singleRun, quietPoll, ValidCapacity, hpos, hdvd]

omit [Target] in
/-- The poll of a run that pushes `oversized` hands out an empty message. -/
theorem oversized_message_lost :
    letI : Target := x86_64
    ¬ ∀ s : State Unit, Machine.Reach (step fun _ _ => 0) (fun _ e => ValidCapacity e) init s →
      StreamsPreserved (fun _ _ => 0) (fun _ e => ValidCapacity e) s := by
  let _ : Target := x86_64
  intro hall
  obtain ⟨r, hatt, hpop, hpop'⟩ := pop_oversized fun _ => 0
  obtain ⟨s, hrun, hpolled, haccepted⟩ := singleRun_polled
    (by norm_num [SpscProducer.capacity, createQueue, RingBuffer.new, defaultStartCapacity,
      oversizedCapacity]) hatt hpop hpop'
  have hvalid := validCapacity_singleRun
    (show 0 < oversizedCapacity by norm_num [oversizedCapacity])
    (by norm_num [oversizedCapacity]) oversized
  obtain ⟨rest, hrest⟩ := (hall s (.of_run (fun _ => hvalid) hrun)).polled ()
  rw [hpolled, haccepted, ofThread_singleton, ofThread_singleton, if_pos rfl, if_pos rfl,
    List.singleton_append, List.cons.injEq] at hrest
  have hlen : oversized.length = 2 ^ 32 := by rw [oversized, List.length_replicate]
  rw [← hrest.1] at hlen
  cases hlen

end ThreadContext

end RapidLog
