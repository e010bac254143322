import RapidLog.ThreadContext.Steps
import RapidLog.ThreadContext.Streams

/-!
# What a poll has taken when it returns

Threads go on pushing while `poll_all_registered_queues` goes through the registry, and what they
push behind its back waits for the next poll. What they had pushed before the poll took the lock
does not: the poll leaves a thread's last registered ring only after it has found it empty.

`State.ahead` are the rings that a poll has yet to find empty. A thread that has none among them is
caught up with (`CaughtUp`), and every step of a run keeps it so (`Since.step`).

## Main results

* `poll_takes_snapshot`: when a poll returns, every message that was accepted before it began has
  been handed out, whatever the threads have done since;
* `not_hasPendingMessages_iff`: `has_pending_messages` returns `false` exactly when polls have
  handed out every message that was accepted.
-/

namespace RapidLog

open Queue RingBuffer

variable [Target] {τ : Type} [DecidableEq τ]

namespace ThreadContext

/-- The rings that a poll has yet to find empty: the one it is popping from and those after it. -/
def State.ahead (s : State τ) (p : Poll τ) : List ℕ :=
  s.registry.drop (if p.phase = .popping then p.index else p.index + 1)

/-- A poll has popped the given messages of every thread that has no ring ahead of it. -/
def CaughtUp (earlier : τ → List (List UInt8)) (s : State τ) (p : Poll τ) : Prop :=
  ∀ t, (∀ b ∈ s.ahead p, s.owner b ≠ some t) → earlier t <+: ofThread t (s.polled ++ p.allMsgs)

/-- Polls have handed out the given messages, or still no more than `before`, and a poll that is
running is catching up with them. -/
def Since (earlier : τ → List (List UInt8)) (before : List (Option τ × List UInt8))
    (s : State τ) : Prop :=
  (∀ t, earlier t <+: ofThread t s.polled) ∨
    s.polled = before ∧ ∀ p, s.poll = some p → CaughtUp earlier s p

section

variable {uninit : ℕ → ℕ → UInt8} {s s' : State τ} {e : Event τ} {p q : Poll τ} {t : τ} {b : ℕ}
  {earlier : τ → List (List UInt8)} {before : List (Option τ × List UInt8)}

omit [Target] in
private theorem ofThread_isPrefix {xs ys : List (Option τ × List UInt8)} (h : xs <+: ys) (t : τ) :
    ofThread t xs <+: ofThread t ys := by
  obtain ⟨zs, rfl⟩ := h
  rw [ofThread_append]
  exact List.prefix_append _ _

/-- What a step of a thread does to the parts of the state that a poll looks at. -/
private structure Beside (s s' : State τ) : Prop where
  poll : s'.poll = s.poll
  polled : s'.polled = s.polled
  /-- A thread registers a ring only while no poll holds the lock. -/
  registry : s.poll ≠ none → s'.registry = s.registry
  owner : ∀ b < s.created, s'.owner b = s.owner b
  accepted : s.accepted <+: s'.accepted

omit [Target] [DecidableEq τ] in
private theorem Beside.of_eq (hpoll : s'.poll = s.poll) (hpolled : s'.polled = s.polled)
    (hregistry : s'.registry = s.registry) (howner : s'.owner = s.owner)
    (haccepted : s.accepted <+: s'.accepted) : Beside s s' :=
  ⟨hpoll, hpolled, fun _ => hregistry, fun b _ => congrFun howner b, haccepted⟩

private theorem Beside.of_tryPush (s : State τ) (t : τ) (b : ℕ) (mode : QueueMode)
    (req : Request) : Beside s (s.tryPush t b mode req) := by
  simp only [State.tryPush]
  split
  · exact .of_eq rfl rfl rfl rfl List.prefix_rfl
  · exact .of_eq rfl rfl rfl rfl (List.prefix_append _ _)
  · cases mode <;> exact .of_eq rfl rfl rfl rfl List.prefix_rfl

private theorem beside_of_step (he : e.isPoll = false) (hs : step uninit s e = some s') :
    Beside s s' := by
  cases step_cases hs with
  | access | grow | replace =>
    exact ⟨rfl, rfl, fun _ => rfl, fun _ hb => Function.update_of_ne (Nat.ne_of_lt hb) ..,
      List.prefix_rfl⟩
  | register _ hpoll | registerGrown _ hpoll =>
    exact ⟨rfl, rfl, fun hne => absurd hpoll hne, fun _ _ => rfl, List.prefix_rfl⟩
  | attempt | retry => exact .of_tryPush ..
  | atLimit | setMode | exitUnstarted | exit => exact .of_eq rfl rfl rfl rfl List.prefix_rfl
  | pollBegin | pollStep | pollEnd => cases he

/-- A step of a thread leaves a poll where it is with the messages that it has popped. -/
private theorem CaughtUp.beside (hc : CaughtUp earlier s p) (h : Inv s) (hp : s.poll = some p)
    (hs : Beside s s') : CaughtUp earlier s' p := by
  have hahead : s'.ahead p = s.ahead p := by
    rw [State.ahead, State.ahead, hs.registry (by simp [hp])]
  intro t hnone
  rw [hs.polled]
  refine hc t fun b hb => ?_
  rw [← hs.owner b (h.registry_lt b (List.mem_of_mem_drop hb))]
  exact hnone b (hahead ▸ hb)

/-! ### Steps of a poll -/

omit [Target] in
/-- A poll that has popped more and has the same rings ahead. -/
private theorem CaughtUp.of_isPrefix (hc : CaughtUp earlier s p) (hahead : s'.ahead q = s.ahead p)
    (howner : s'.owner = s.owner) (hpolled : s'.polled = s.polled)
    (hmsgs : p.allMsgs <+: q.allMsgs) : CaughtUp earlier s' q := by
  intro t hnone
  rw [hahead, howner] at hnone
  rw [hpolled]
  exact (hc t hnone).trans (ofThread_isPrefix ((List.prefix_append_right_inj _).mpr hmsgs) t)

/-- The messages of a thread whose rings are all empty have all been popped. -/
theorem Inv.popped_of_empty (h : Inv s)
    (hempty : ∀ b ∈ s.registry, s.owner b = some t → pending (s.rings b) = []) :
    ofThread t s.accepted = ofThread t (s.polled ++ s.inFlight) := by
  have hnil : s.pendingOf t = [] := by
    refine List.flatMap_eq_nil_iff.mpr fun b hb => ?_
    unfold State.pendingIn
    split
    · next ho =>
      by_cases hmem : b ∈ s.registry
      · exact hempty b hmem ho
      · exact h.pending_unregistered (List.mem_range.mp hb) hmem
    · rfl
  rw [h.conserved t, hnil, List.append_nil]

omit [Target] [DecidableEq τ] in
/-- The registry from the index of a poll on. -/
private theorem drop_index (hb : s.registry[p.index]? = some b) :
    s.registry.drop p.index = b :: s.registry.drop (p.index + 1) := by
  obtain ⟨hi, rfl⟩ := List.getElem?_eq_some_iff.mp hb
  exact List.drop_eq_getElem_cons hi

/-- When the `pop` loop finds a ring empty that is the last one of its thread, the thread has been
caught up with. -/
private theorem CaughtUp.found_empty (hc : CaughtUp earlier s p) (h : Inv s)
    (hearlier : ∀ t, earlier t <+: ofThread t s.accepted) (hp : s.poll = some p)
    (hphase : p.phase = .popping) (hb : s.registry[p.index]? = some b)
    (hpend : pending (s.rings b) = []) :
    CaughtUp earlier s { p with phase := .checkAbandoned } := by
  have hahead : s.ahead p = b :: s.registry.drop (p.index + 1) := by
    rw [State.ahead, if_pos hphase, drop_index hb]
  intro t hnone
  have hnone : ∀ b' ∈ s.registry.drop (p.index + 1), s.owner b' ≠ some t := hnone
  by_cases ho : s.owner b = some t
  · -- the rings of `t` that the poll has passed are not those of `b`, and none are left
    refine (hearlier t).trans ?_
    rw [h.popped_of_empty fun b' hb' ho' => ?_, inFlight_of_poll hp]
    rw [← List.take_append_drop p.index s.registry, drop_index hb, List.mem_append,
      List.mem_cons] at hb'
    rcases hb' with hpassed | rfl | hlater
    · refine absurd (ho'.trans ho.symm) (h.passed p hp b' hpassed b ?_)
      rw [drop_index hb]
      exact List.mem_cons_self
    · exact hpend
    · exact absurd ho' (hnone b' hlater)
  · refine hc t fun b' hb' => ?_
    rw [hahead, List.mem_cons] at hb'
    rcases hb' with rfl | hlater
    · exact ho
    · exact hnone b' hlater

/-- One step of a poll. -/
private theorem CaughtUp.pollAt (hc : CaughtUp earlier s p) (h : Inv s)
    (hearlier : ∀ t, earlier t <+: ofThread t s.accepted) (hp : s.poll = some p)
    (hb : s.registry[p.index]? = some b) :
    ∃ q, (s.pollAt p b).poll = some q ∧ CaughtUp earlier (s.pollAt p b) q := by
  have hholds := h.holds b (h.registry_lt b (List.mem_of_getElem? hb))
  cases hphase : p.phase with
  | popping =>
    cases hpend : pending (s.rings b) with
    | nil =>
      rw [hpend] at hholds
      simp only [State.pollAt, hphase, pop_nil hholds, Function.update_eq_self]
      exact ⟨_, rfl, hc.found_empty h hearlier hp hphase hb hpend⟩
    | cons msg msgs =>
      rw [hpend] at hholds
      simp only [State.pollAt, hphase, (pop_cons hholds).1]
      exact ⟨_, rfl, hc.of_isPrefix (by simp [State.ahead, hphase]) rfl rfl
        (List.prefix_append _ _)⟩
  | checkAbandoned =>
    -- either way the ring has been found empty
    by_cases hab : s.abandoned b = true
    · simp only [State.pollAt, hphase, if_pos hab]
      exact ⟨_, rfl, hc.of_isPrefix (by simp [State.ahead, hphase]) rfl rfl List.prefix_rfl⟩
    · simp only [State.pollAt, hphase, if_neg hab]
      exact ⟨_, rfl, hc.of_isPrefix (by simp [State.ahead, hphase]) rfl rfl List.prefix_rfl⟩
  | checkEmpty =>
    by_cases hempty : SpscConsumer.isEmpty (s.rings b) = true
    · simp only [State.pollAt, hphase, if_pos hempty]
      -- the ring after the removed one takes its index
      have hrest : (s.registry.eraseIdx p.index).drop p.index = s.registry.drop (p.index + 1) := by
        obtain ⟨hi, -⟩ := List.getElem?_eq_some_iff.mp hb
        rw [List.eraseIdx_eq_take_drop_succ]
        exact List.drop_left' (by rw [List.length_take]; omega)
      exact ⟨_, rfl, hc.of_isPrefix (by simp [State.ahead, hphase, hrest]) rfl rfl
        List.prefix_rfl⟩
    · simp only [State.pollAt, hphase, if_neg hempty]
      exact ⟨_, rfl, hc.of_isPrefix (by simp [State.ahead, hphase]) rfl rfl List.prefix_rfl⟩

/-! ### Whole runs -/

omit [DecidableEq τ] in
private theorem accepted_pollAt [DecidableEq τ] (s : State τ) (p : Poll τ) (b : ℕ) :
    (s.pollAt p b).accepted = s.accepted := by
  simp only [State.pollAt]
  cases p.phase with
  | popping => rcases SpscConsumer.pop (s.rings b) with ⟨_ | msg, r⟩ <;> rfl
  | checkAbandoned => cases s.abandoned b <;> rfl
  | checkEmpty => cases SpscConsumer.isEmpty (s.rings b) <;> rfl

/-- Messages stay accepted. -/
theorem accepted_isPrefix_of_step (hs : step uninit s e = some s') :
    s.accepted <+: s'.accepted := by
  cases he : e.isPoll with
  | false => exact (beside_of_step he hs).accepted
  | true =>
    cases step_cases hs with
    | pollBegin | pollEnd => exact List.prefix_rfl
    | pollStep => rw [accepted_pollAt]
    | _ => cases he

/-- A poll begins with all registered rings ahead of it; a thread without one has nothing left. -/
private theorem caughtUp_pollBegin (h : Inv s)
    (hearlier : ∀ t, earlier t <+: ofThread t s.accepted) (hpoll : s.poll = none) (w : ℕ) :
    CaughtUp earlier { s with poll := some ⟨w, 0, .popping, []⟩ } ⟨w, 0, .popping, []⟩ := by
  intro t hnone
  have hpopped := h.popped_of_empty fun b hb ho => absurd ho (hnone b hb)
  rw [State.inFlight, hpoll] at hpopped
  exact hpopped ▸ hearlier t

omit [Target] in
/-- A poll that has gone through the whole registry has caught up with every thread. -/
private theorem CaughtUp.isPrefix (hc : CaughtUp earlier s p) (hi : s.registry.length ≤ p.index)
    (t : τ) : earlier t <+: ofThread t (s.polled ++ p.allMsgs) := by
  refine hc t fun b hb => ?_
  have hmem : b ∈ s.registry.drop p.index := by
    unfold State.ahead at hb
    split at hb
    · exact hb
    · rw [← List.drop_drop] at hb
      exact List.mem_of_mem_drop hb
  rw [List.drop_eq_nil_of_le hi] at hmem
  cases hmem

/-- Every step of a thread or a poll keeps to the messages that are to be handed out. -/
theorem Since.step (h : Since earlier before s) (hinv : Inv s)
    (hearlier : ∀ t, earlier t <+: ofThread t s.accepted)
    (hs : ThreadContext.step uninit s e = some s') : Since earlier before s' := by
  rcases h with hdone | ⟨hbefore, hpoll⟩
  · refine .inl fun t => (hdone t).trans (ofThread_isPrefix ?_ t)
    cases he : e.isPoll with
    | false => rw [(beside_of_step he hs).polled]
    | true =>
      cases step_cases hs with
      | pollBegin => exact List.prefix_rfl
      | pollStep hp hb => rw [(poll_of_pollStep hp hs).2]
      | pollEnd => exact List.prefix_append _ _
      | _ => cases he
  · cases he : e.isPoll with
    | false =>
      have hbeside := beside_of_step he hs
      refine .inr ⟨hbeside.polled.trans hbefore, fun p hp => ?_⟩
      have hp' := hbeside.poll.symm.trans hp
      exact (hpoll p hp').beside hinv hp' hbeside
    | true =>
      cases step_cases hs with
      | pollBegin hnone =>
        refine .inr ⟨hbefore, fun p hp => ?_⟩
        cases hp
        exact caughtUp_pollBegin hinv hearlier hnone _
      | pollStep hp hb =>
        obtain ⟨q, hq, hc⟩ := (hpoll _ hp).pollAt hinv hearlier hp hb
        refine .inr ⟨(poll_of_pollStep hp hs).2.trans hbefore, fun p' hp' => ?_⟩
        cases hq.symm.trans hp'
        exact hc
      | pollEnd hp hi => exact .inl ((hpoll _ hp).isPrefix hi)
      | _ => cases he

/-- What the messages of a state without a poll become in the run after it. -/
structure After (s₀ s : State τ) : Prop where
  accepted : s₀.accepted <+: s.accepted
  since : Since (fun t => ofThread t s₀.accepted) s₀.polled s

omit [Target] in
theorem After.refl (hpoll : s.poll = none) : After s s :=
  ⟨List.prefix_rfl, .inr ⟨rfl, fun p hp => by cases hpoll.symm.trans hp⟩⟩

theorem After.step {s₀ : State τ} (h : After s₀ s) (hinv : Inv s)
    (hs : ThreadContext.step uninit s e = some s') : After s₀ s' :=
  ⟨h.accepted.trans (accepted_isPrefix_of_step hs),
    h.since.step hinv (fun t => ofThread_isPrefix h.accepted t) hs⟩

/-- The end of a poll hands out what was accepted before. -/
theorem After.pollEnd {s₀ : State τ} (h : After s₀ s)
    (hs : ThreadContext.step uninit s .pollEnd = some s') (t : τ) :
    ofThread t s₀.accepted <+: ofThread t s'.polled := by
  cases step_cases hs with
  | pollEnd hp hi =>
    -- another poll may have handed them out already
    rcases h.since with hdone | ⟨-, hpoll⟩
    · exact (hdone t).trans (ofThread_isPrefix (List.prefix_append _ _) t)
    · exact (hpoll _ hp).isPrefix hi t

end

/-- When a poll returns, every message that was accepted before it began has been handed out,
thread by thread and without a gap, whatever the threads and other polls have done since. -/
theorem poll_takes_snapshot (uninit : ℕ → ℕ → UInt8) {s₀ s₁ s₂ s₃ : State τ} {w : ℕ}
    (h₀ : Machine.Reach (step uninit) (fun s e => ValidCapacity e ∧ ShortMessage s e) init s₀)
    (hbegin : step uninit s₀ (.pollBegin w) = some s₁)
    (hrun : Machine.Reach (step uninit) (fun s e => ValidCapacity e ∧ ShortMessage s e) s₁ s₂)
    (hend : step uninit s₂ .pollEnd = some s₃) (t : τ) :
    ofThread t s₀.accepted <+: ofThread t s₃.polled := by
  have hinv := inv_of_reach h₀
  have hidle : s₀.poll = none := (poll_of_pollBegin hbegin).1
  have hrun' : Inv s₂ ∧ After s₀ s₂ := by
    refine hrun.invariant (P := fun s => Inv s ∧ After s₀ s) ⟨?_, ?_⟩ ?_
    · exact hinv.step (e := .pollBegin w) trivial trivial hbegin
    · exact (After.refl hidle).step hinv hbegin
    · rintro s e s' ⟨h, hafter⟩ hok hs
      exact ⟨h.step hok.1 hok.2 hs, hafter.step h hs⟩
  exact hrun'.2.pollEnd hend t

/-- While no poll holds the lock, `has_pending_messages` returns `false` exactly when polls have
handed out every message that was accepted. -/
theorem not_hasPendingMessages_iff (uninit : ℕ → ℕ → UInt8) {s : State τ}
    (hrun : Machine.Reach (step uninit) (fun s e => ValidCapacity e ∧ ShortMessage s e) init s)
    (hpoll : s.poll = none) :
    hasPendingMessages s = false ↔ ∀ t, ofThread t s.polled = ofThread t s.accepted := by
  have h := inv_of_reach hrun
  have hempty : ∀ b ∈ s.registry,
      SpscConsumer.isEmpty (s.rings b) = true ↔ pending (s.rings b) = [] :=
    fun b hb => isEmpty_of_holds (h.holds b (h.registry_lt b hb))
  have hflight : s.inFlight = [] := by simp [State.inFlight, hpoll]
  rw [hasPendingMessages, List.any_eq_false]
  constructor
  · intro hnone t
    have hpopped := h.popped_of_empty (t := t) fun b hb _ => by
      have hb' := hnone b hb
      rw [Bool.not_eq_true', Bool.not_eq_false] at hb'
      exact (hempty b hb).mp hb'
    rw [hpopped, hflight, List.append_nil]
  · intro hall b hb
    obtain ⟨t, ho⟩ : ∃ t, s.owner b = some t :=
      Option.ne_none_iff_exists'.mp fun ho =>
        absurd (h.registry_lt b hb) (not_lt.mpr ((h.owner_iff b).mp ho))
    -- a message in `b` would be an accepted one of `t` that was not handed out
    have hnil : s.pendingOf t = [] := by
      have hcons := h.conserved t
      rw [hflight, List.append_nil, hall t] at hcons
      exact List.self_eq_append_right.mp hcons
    have hpend := List.flatMap_eq_nil_iff.mp hnil b (List.mem_range.mpr (h.registry_lt b hb))
    rw [State.pendingIn, if_pos ho] at hpend
    rw [Bool.not_eq_true', Bool.not_eq_false]
    exact (hempty b hb).mpr hpend

/-- A thread that pushes, and pushes again while a poll is looking whether its ring is abandoned. -/
def racingRun : List (Event Unit) × List (Event Unit) :=
  ([.access (), .register (), .attempt () (.push [1, 2, 3])],
    [.pollStep, .pollStep, .attempt () (.push [4]), .pollStep])

omit [Target] in
/-- The poll hands out what was pushed before it began; what was pushed since stays in the ring. -/
theorem poll_takes_snapshot_racing :
    letI : Target := x86_64
    ∃ s₀ s₁ s₂ s₃ : State Unit,
      (step fun _ _ => 0).runWhile (fun s e => ValidCapacity e ∧ ShortMessage s e) init
        racingRun.1 = some s₀ ∧ step (fun _ _ => 0) s₀ (.pollBegin 0) = some s₁ ∧
      (step fun _ _ => 0).runWhile (fun s e => ValidCapacity e ∧ ShortMessage s e) s₁
        racingRun.2 = some s₂ ∧ step (fun _ _ => 0) s₂ .pollEnd = some s₃ ∧
      ofThread () s₃.polled = [[1, 2, 3]] ∧ ofThread () s₃.accepted = [[1, 2, 3], [4]] ∧
      ofThread () s₀.accepted <+: ofThread () s₃.polled := by
  let _ : Target := x86_64
  have hrun : ((step fun _ _ => 0).runWhile (fun s e => ValidCapacity e ∧ ShortMessage s e) init
      racingRun.1).bind (fun s₀ => (step (fun _ _ => 0) s₀ (.pollBegin 0)).bind fun s₁ =>
      ((step fun _ _ => 0).runWhile (fun s e => ValidCapacity e ∧ ShortMessage s e) s₁
        racingRun.2).bind fun s₂ =>
      (step (fun _ _ => 0) s₂ .pollEnd).map fun s₃ =>
        (ofThread () s₃.polled, ofThread () s₃.accepted)) =
      some ([[1, 2, 3]], [[1, 2, 3], [4]]) := by
    decide +kernel
  obtain ⟨s₀, h₀, hrun⟩ := Option.bind_eq_some_iff.mp hrun
  obtain ⟨s₁, hbegin, hrun⟩ := Option.bind_eq_some_iff.mp hrun
  obtain ⟨s₂, h₂, hrun⟩ := Option.bind_eq_some_iff.mp hrun
  obtain ⟨s₃, hend, hrun⟩ := Option.map_eq_some_iff.mp hrun
  obtain ⟨hpolled, haccepted⟩ := Prod.mk.inj hrun
  exact ⟨s₀, s₁, s₂, s₃, h₀, hbegin, h₂, hend, hpolled, haccepted,
    poll_takes_snapshot _ (.of_runWhile h₀) hbegin (.of_runWhile h₂) hend ()⟩

omit [Target] in
/-- The message that the poll of `racingRun` missed is pending after it. -/
theorem not_hasPendingMessages_iff_racing :
    letI : Target := x86_64
    ∃ s : State Unit, (step fun _ _ => 0).runWhile (fun s e => ValidCapacity e ∧ ShortMessage s e)
        init (racingRun.1 ++ [.pollBegin 0] ++ racingRun.2 ++ [.pollEnd]) = some s ∧
      ofThread () s.polled ≠ ofThread () s.accepted ∧ hasPendingMessages s = true := by
  let _ : Target := x86_64
  have hrun : ((step fun _ _ => 0).runWhile (fun s e => ValidCapacity e ∧ ShortMessage s e) init
      (racingRun.1 ++ [.pollBegin 0] ++ racingRun.2 ++ [.pollEnd])).map (fun s =>
        (s.poll.isNone, ofThread () s.polled, ofThread () s.accepted)) =
      some (true, [[1, 2, 3]], [[1, 2, 3], [4]]) := by
    decide +kernel
  obtain ⟨s, hs, hs'⟩ := Option.map_eq_some_iff.mp hrun
  obtain ⟨hpoll, hstreams⟩ := Prod.mk.inj hs'
  obtain ⟨hpolled, haccepted⟩ := Prod.mk.inj hstreams
  have hne : ofThread () s.polled ≠ ofThread () s.accepted := by
    rw [hpolled, haccepted]
    decide
  have hiff := not_hasPendingMessages_iff (fun _ _ => 0) (.of_runWhile hs)
    (Option.isNone_iff_eq_none.mp hpoll)
  refine ⟨s, hs, hne, ?_⟩
  by_contra hpending
  exact hne (hiff.mp (Bool.not_eq_true _ ▸ hpending) ())

end ThreadContext

end RapidLog
