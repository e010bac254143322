import RapidLog.Queue.Bounds
import RapidLog.ThreadContext.Invariant

/-!
# Calls in unbounded mode

`push_impl` and `push_encoded_unbounded` attempt to push, and while the ring is full they grow the
queue, register the consumer of the new ring and attempt again; they fail when the queue cannot
grow. `Call` follows one such call from its first attempt on, with any steps of other threads and
of polls in between, and counts its own steps.

The other steps do not change how the call ends. Only polls touch the ring that is full, and the
call does not look at it again; a ring that the call has created is empty until the call succeeds
(`Standing.other`). So the call is decided by the ring that it finds: `unbounded_push_iff`.
-/

namespace RapidLog

open Queue RingBuffer

variable [Target] {τ : Type} [DecidableEq τ]

/-- An attempt that fits the free slots succeeds when its header is written in bounds. -/
theorem Request.attempt_inBounds {r : Ring} (req : Request)
    (hfree : paddedSize req.length ≤ r.freeSlots) (hroom : HeaderRoom r) :
    ∃ r' msg, req.attempt r = some (.ok (r', msg)) ∧ req.Writes msg ∧
      Extended r r' (paddedSize req.length) := by
  cases req with
  | push data =>
    obtain ⟨r', hpush, hext⟩ := push_inBounds hfree hroom
    exact ⟨r', data, by simp [attempt, hpush, Except.map], rfl, hext⟩
  | pushEncoded totalMsg encode =>
    obtain ⟨buf, r', hlen, hpush, hext⟩ := pushEncoded_inBounds totalMsg encode.echo hfree hroom
    refine ⟨r', (encode.run buf).1, ?_, ⟨buf, hlen, rfl⟩, hext⟩
    rw [attempt, hpush]
    rfl

/-- An attempt that fits the free slots is undefined when its header is not. -/
theorem Request.attempt_outOfBounds {r : Ring} (req : Request)
    (hfree : paddedSize req.length ≤ r.freeSlots) (hroom : ¬ HeaderRoom r) :
    req.attempt r = none := by
  cases req with
  | push data => simp [attempt, push_outOfBounds hfree hroom]
  | pushEncoded totalMsg encode =>
    have hnone := pushEncoded_outOfBounds totalMsg encode.echo hfree hroom
    rw [attempt, hnone]
    rfl

/-- The thread is inside a call that has yet to return. -/
def Thread.Calling : Thread → Prop
  | full .. | retrying .. | registering _ _ (some _) => True
  | _ => False

/-- The ring that a thread between two calls pushes to, and its mode. -/
def Thread.ready? : Thread → Option (ℕ × QueueMode)
  | ready block mode => some (block, mode)
  | _ => none

namespace ThreadContext

/-- The steps of the thread itself. -/
def Event.By (t : τ) : Event τ → Prop
  | .access t' | .register t' | .attempt t' _ | .retry t' | .grow t' | .initWithMode t' _ _
  | .exit t' => t' = t
  | .pollBegin _ | .pollStep | .pollEnd => False

/-- The call that `t` starts in `s₀` has taken `k` steps of its own and stands at `s`; other
threads and polls may have stepped in between. It has returned once `t` is not calling. -/
inductive Call (uninit : ℕ → ℕ → UInt8) (t : τ) (req : Request) (s₀ : State τ) :
    ℕ → State τ → Prop
  | start {s : State τ} : step uninit s₀ (.attempt t req) = some s → Call uninit t req s₀ 1 s
  | own {k : ℕ} {s s' : State τ} {e : Event τ} : Call uninit t req s₀ k s →
    (s.threads t).Calling → e.By t → step uninit s e = some s' →
    Call uninit t req s₀ (k + 1) s'
  | other {k : ℕ} {s s' : State τ} {e : Event τ} : Call uninit t req s₀ k s →
    (s.threads t).Calling → ¬ e.By t → step uninit s e = some s' →
    Call uninit t req s₀ k s'

/-- However the other threads and the polls step, the call that `t` starts in `s₀` returns `Ok`:
it takes a bounded number of steps, it can always go on, except that it waits for the registry
lock while a poll holds it, and when it has returned its message has been accepted. -/
structure ReturnsOk (uninit : ℕ → ℕ → UInt8) (t : τ) (req : Request) (s₀ : State τ) : Prop where
  bounded : ∃ n, ∀ k s, Call uninit t req s₀ k s → k ≤ n
  progress : ∀ k s, Call uninit t req s₀ k s → (s.threads t).Calling → s.poll = none →
    ∃ e s', e.By t ∧ step uninit s e = some s'
  accepted : ∀ k s, Call uninit t req s₀ k s → ¬ (s.threads t).Calling →
    ∃ msg : List UInt8, msg.length = req.length ∧
      ofThread t s.accepted = ofThread t s₀.accepted ++ [msg]

/-! ### Which thread owns which ring -/

/-- The rings of the threads are theirs, and there is no ring before it is created. -/
structure Owned (s : State τ) : Prop where
  fresh : ∀ b, s.created ≤ b → s.owner b = none
  owner : ∀ t b, (s.threads t).block? = some b → s.owner b = some t

namespace Owned

variable {s s' : State τ} {t : τ} {b : ℕ} {uninit : ℕ → ℕ → UInt8} {e : Event τ}

omit [Target] [DecidableEq τ] in
theorem lt_created (h : Owned s) (hb : (s.threads t).block? = some b) : b < s.created := by
  by_contra hge
  have ho := h.owner t b hb
  rw [h.fresh b (not_lt.mp hge)] at ho
  cases ho

omit [Target] [DecidableEq τ] in
/-- Two threads do not share a ring. -/
theorem injective (h : Owned s) {t' : τ} (hb : (s.threads t).block? = some b)
    (hb' : (s.threads t').block? = some b) : t' = t := by
  have ho := h.owner t b hb
  rw [h.owner t' b hb'] at ho
  exact Option.some.inj ho

omit [Target] in
theorem setThread (h : Owned s) {thread : Thread}
    (hthread : ∀ b, thread.block? = some b → (s.threads t).block? = some b) :
    Owned (s.setThread t thread) := by
  refine ⟨h.fresh, fun t' b hb => ?_⟩
  simp only [State.setThread] at hb
  rcases eq_or_ne t' t with rfl | hne
  · rw [Function.update_self] at hb
    exact h.owner t' b (hthread b hb)
  · rw [Function.update_of_ne hne] at hb
    exact h.owner t' b hb

omit [Target] in
theorem create (h : Owned s) (r : Ring) (mode : QueueMode) (req : Option Request) :
    Owned (s.create t r mode req) := by
  refine ⟨fun b hb => ?_, fun t' b hb => ?_⟩
  · simp only [State.create] at hb ⊢
    rw [Function.update_of_ne (by omega)]
    exact h.fresh b (by omega)
  · simp only [State.create] at hb ⊢
    rcases eq_or_ne t' t with rfl | hne
    · rw [Function.update_self] at hb
      cases hb
      rw [Function.update_self]
    · rw [Function.update_of_ne hne] at hb
      rw [Function.update_of_ne (h.lt_created hb).ne]
      exact h.owner t' b hb

end Owned

/-! ### What a step leaves alone -/

/-- What a step of a thread leaves alone: the other threads, their messages and their rings. -/
structure OwnStep (s : State τ) (t : τ) (s' : State τ) : Prop where
  owned : Owned s → Owned s'
  threads : ∀ t', t' ≠ t → s'.threads t' = s.threads t'
  accepted : ∀ t', t' ≠ t → ofThread t' s'.accepted = ofThread t' s.accepted
  rings : ∀ b < s.created, (s.threads t).block? ≠ some b → s'.rings b = s.rings b

/-- What a step of a poll leaves alone: everything but the messages that it pops. -/
structure PollStep (s s' : State τ) : Prop where
  owned : Owned s → Owned s'
  threads : s'.threads = s.threads
  accepted : s'.accepted = s.accepted
  rings : ∀ b, s'.rings b = s.rings b ∨ s'.rings b = (SpscConsumer.pop (s.rings b)).2

section

variable {s s' : State τ} {t : τ} {b : ℕ} {uninit : ℕ → ℕ → UInt8} {e : Event τ}

omit [Target] in
private theorem OwnStep.of_setThread {thread : Thread}
    (hthread : ∀ b, thread.block? = some b → (s.threads t).block? = some b) :
    OwnStep s t (s.setThread t thread) where
  owned h := h.setThread hthread
  threads _ hne := Function.update_of_ne hne ..
  accepted _ _ := rfl
  rings _ _ _ := rfl

omit [Target] in
/-- The registry belongs to no thread. -/
private theorem OwnStep.of_registry (h : OwnStep s t s') (registry : List ℕ) :
    OwnStep s t { s' with registry } :=
  ⟨fun ho => ⟨(h.owned ho).fresh, (h.owned ho).owner⟩, h.threads, h.accepted, h.rings⟩

omit [Target] in
private theorem OwnStep.of_abandoned (h : OwnStep s t s') (abandoned : ℕ → Bool) :
    OwnStep s t { s' with abandoned } :=
  ⟨fun ho => ⟨(h.owned ho).fresh, (h.owned ho).owner⟩, h.threads, h.accepted, h.rings⟩

omit [Target] in
private theorem OwnStep.of_create {s₀ : State τ} (r : Ring) (mode : QueueMode)
    (req : Option Request) (h₀ : s₀ = s ∨ ∃ block, s₀ = s.dropProducer block) :
    OwnStep s t (s₀.create t r mode req) := by
  have hcreate : OwnStep s t (s.create t r mode req) :=
    { owned := fun h => h.create r mode req
      threads := fun _ hne => Function.update_of_ne hne ..
      accepted := fun _ _ => rfl
      rings := fun b hb _ => Function.update_of_ne hb.ne .. }
  rcases h₀ with rfl | ⟨block, rfl⟩
  · exact hcreate
  · exact ⟨fun h => ⟨(hcreate.owned h).fresh, (hcreate.owned h).owner⟩, hcreate.threads,
      hcreate.accepted, hcreate.rings⟩

private theorem OwnStep.of_tryPush {mode : QueueMode} (req : Request)
    (hb : (s.threads t).block? = some b) : OwnStep s t (s.tryPush t b mode req) := by
  have hmove : ∀ thread : Thread, thread.block? = some b → OwnStep s t (s.setThread t thread) :=
    fun thread hthread => .of_setThread fun b' hb' => by
      rw [hb, ← hthread, hb']
  simp only [State.tryPush]
  split
  · exact ⟨fun h => ⟨h.fresh, h.owner⟩, fun _ _ => rfl, fun _ _ => rfl, fun _ _ _ => rfl⟩
  · next r msg _ =>
    have hready := hmove (.ready b mode) rfl
    refine ⟨fun h => ⟨(hready.owned h).fresh, (hready.owned h).owner⟩, hready.threads,
      fun t' hne => ?_, fun b' _ hne => ?_⟩
    · rw [ofThread_append, ofThread_singleton, if_neg (by simpa using hne.symm), List.append_nil]
    · exact Function.update_of_ne (fun heq => hne (by rw [heq, hb])) ..
  · cases mode with
    | boundedDropping => exact hmove _ rfl
    | unboundedBlocking => exact hmove _ rfl

omit [DecidableEq τ] in
private theorem PollStep.of_pollAt [DecidableEq τ] (p : Poll τ) (b : ℕ) :
    PollStep s (s.pollAt p b) := by
  simp only [State.pollAt]
  cases p.phase with
  | popping =>
    have hrings : ∀ o r, SpscConsumer.pop (s.rings b) = (o, r) → ∀ b',
        Function.update s.rings b r b' = s.rings b' ∨
          Function.update s.rings b r b' = (SpscConsumer.pop (s.rings b')).2 := by
      intro o r hpop b'
      rcases eq_or_ne b' b with rfl | hne
      · exact .inr (by rw [Function.update_self, hpop])
      · exact .inl (Function.update_of_ne hne ..)
    rcases hpop : SpscConsumer.pop (s.rings b) with ⟨_ | msg, r⟩
    · exact ⟨fun h => ⟨h.fresh, h.owner⟩, rfl, rfl, hrings _ _ hpop⟩
    · exact ⟨fun h => ⟨h.fresh, h.owner⟩, rfl, rfl, hrings _ _ hpop⟩
  | checkAbandoned =>
    cases s.abandoned b <;> exact ⟨fun h => ⟨h.fresh, h.owner⟩, rfl, rfl, fun _ => .inl rfl⟩
  | checkEmpty =>
    cases SpscConsumer.isEmpty (s.rings b) <;>
      exact ⟨fun h => ⟨h.fresh, h.owner⟩, rfl, rfl, fun _ => .inl rfl⟩

/-- A step is one of a thread or one of a poll, and each leaves the rest alone. -/
theorem step_frame (hs : step uninit s e = some s') :
    (∃ t, e.By t ∧ OwnStep s t s') ∨ (∀ t, ¬ e.By t) ∧ PollStep s s' := by
  cases step_cases hs with
  | access ht => exact .inl ⟨_, rfl, .of_create _ _ _ (.inl rfl)⟩
  | @register t block mode ht hpoll =>
    have hset : OwnStep s t (s.setThread t (.ready block mode)) :=
      .of_setThread fun b hb => by rw [ht]; exact hb
    exact .inl ⟨t, rfl, hset.of_registry _⟩
  | @registerGrown t block mode req ht hpoll =>
    have hset : OwnStep s t (s.setThread t (.retrying block req)) :=
      .of_setThread fun b hb => by rw [ht]; exact hb
    exact .inl ⟨t, rfl, hset.of_registry _⟩
  | attempt ht => exact .inl ⟨_, rfl, .of_tryPush _ (by rw [ht]; rfl)⟩
  | retry ht => exact .inl ⟨_, rfl, .of_tryPush _ (by rw [ht]; rfl)⟩
  | atLimit ht hgrow => exact .inl ⟨_, rfl, .of_setThread fun b hb => by rw [ht]; exact hb⟩
  | grow ht hgrow => exact .inl ⟨_, rfl, .of_create _ _ _ (.inr ⟨_, rfl⟩)⟩
  | replace ht hcap => exact .inl ⟨_, rfl, .of_create _ _ _ (.inr ⟨_, rfl⟩)⟩
  | setMode ht hcap => exact .inl ⟨_, rfl, .of_setThread fun b hb => by rw [ht]; exact hb⟩
  | exitUnstarted ht => exact .inl ⟨_, rfl, .of_setThread fun b hb => nomatch hb⟩
  | @exit t block mode ht =>
    have hset : OwnStep s t (s.setThread t .exited) := .of_setThread fun b hb => nomatch hb
    exact .inl ⟨t, rfl, hset.of_abandoned _⟩
  | pollBegin hpoll =>
    exact .inr ⟨fun _ h => h, fun h => ⟨h.fresh, h.owner⟩, rfl, rfl, fun _ => .inl rfl⟩
  | pollStep hp hb => exact .inr ⟨fun _ h => h, .of_pollAt _ _⟩
  | pollEnd hp hi =>
    exact .inr ⟨fun _ h => h, fun h => ⟨h.fresh, h.owner⟩, rfl, rfl, fun _ => .inl rfl⟩

/-- Every step keeps the ownership of the rings. -/
theorem Owned.step (h : Owned s) (hs : ThreadContext.step uninit s e = some s') : Owned s' := by
  rcases step_frame hs with ⟨t, -, hown⟩ | ⟨-, hpoll⟩
  · exact hown.owned h
  · exact hpoll.owned h

/-- The ring of a thread is its own in every state that a run reaches. -/
theorem owned_of_reach {ok : State τ → Event τ → Prop} (h : (step uninit).Reach ok init s) :
    Owned s :=
  h.invariant ⟨fun _ _ => rfl, fun _ _ hb => nomatch hb⟩ fun _ _ _ hs _ he => hs.step he

/-- What the steps that are not its own leave a thread with. -/
theorem other_step (h : Owned s) (hb : (s.threads t).block? = some b) (hby : ¬ e.By t)
    (hs : step uninit s e = some s') :
    s'.threads t = s.threads t ∧ ofThread t s'.accepted = ofThread t s.accepted ∧
      (s'.rings b = s.rings b ∨ s'.rings b = (SpscConsumer.pop (s.rings b)).2) := by
  rcases step_frame hs with ⟨t', hby', hown⟩ | ⟨-, hpoll⟩
  · have hne : t ≠ t' := fun heq => hby (heq ▸ hby')
    refine ⟨hown.threads t hne, hown.accepted t hne, .inl (hown.rings b (h.lt_created hb) ?_)⟩
    exact fun hb' => hne (h.injective hb' hb)
  · exact ⟨by rw [hpoll.threads], by rw [hpoll.accepted], hpoll.rings b⟩

end

/-! ### One call -/

/-- A ring that nothing has been written to, within the block limit. -/
structure Fresh (r : Ring) : Prop where
  head_eq : r.head = 0
  tail_eq : r.tail = 0
  capacity_pos : 0 < r.capacity
  capacity_le : r.capacity ≤ maxBlockCapacity

namespace Fresh

variable {r : Ring}

omit [Target] in
theorem freeSlots_eq (h : Fresh r) : r.freeSlots = r.capacity := by
  simp [freeSlots, slots, h.head_eq, h.tail_eq]

/-- There is nothing to pop. -/
theorem pop_eq (h : Fresh r) : (SpscConsumer.pop r).2 = r := by
  have hslots : r.slots < headerSize := by simp [slots, h.head_eq, h.tail_eq, headerSize]
  simp only [SpscConsumer.pop, if_pos hslots]

omit [Target] in
theorem headerRoom (h : Fresh r) {len : ℕ} (hle : paddedSize len ≤ r.capacity) : HeaderRoom r := by
  have hroom := headerRoom_createQueue hle r.mem
  simpa [HeaderRoom, createQueue, RingBuffer.new, h.tail_eq] using hroom

end Fresh

omit [Target] in
/-- A queue below the block limit that is not empty can grow, and its new ring is fresh. -/
theorem grow_of_lt {r : Ring} (hpos : 0 < r.capacity) (hlt : r.capacity < maxBlockCapacity)
    (mem : ℕ → UInt8) :
    ∃ r', SpscProducer.grow r mem = some r' ∧ Fresh r' ∧ r.capacity < r'.capacity := by
  have hgrow : ¬ min (SpscProducer.capacity r * 2) maxBlockCapacity ≤ SpscProducer.capacity r := by
    simp only [SpscProducer.capacity]
    omega
  refine ⟨_, if_neg hgrow, ⟨rfl, rfl, ?_, min_le_right _ _⟩, not_le.mp hgrow⟩
  exact lt_of_le_of_lt (Nat.zero_le _) (not_le.mp hgrow)

omit [Target] in
/-- A queue without capacity, or at the block limit, cannot grow. -/
theorem grow_eq_none {r : Ring} (h : ¬ (0 < r.capacity ∧ r.capacity < maxBlockCapacity))
    (mem : ℕ → UInt8) : SpscProducer.grow r mem = none := by
  refine if_pos ?_
  simp only [SpscProducer.capacity]
  omega

/-- Where a call that will succeed stands; it has at most `n` steps yet to take. -/
inductive Phase (req : Request) (rings : ℕ → Ring) (n : ℕ) : Thread → Prop
  | full {b : ℕ} (hpos : 0 < (rings b).capacity) (hlt : (rings b).capacity < maxBlockCapacity)
    (hn : 3 * (maxBlockCapacity - (rings b).capacity) ≤ n) : Phase req rings n (.full b req)
  | registering {b : ℕ} {mode : QueueMode} (hfresh : Fresh (rings b))
    (hn : 3 * (maxBlockCapacity - (rings b).capacity) + 2 ≤ n) :
    Phase req rings n (.registering b mode (some req))
  | retrying {b : ℕ} (hfresh : Fresh (rings b))
    (hn : 3 * (maxBlockCapacity - (rings b).capacity) + 1 ≤ n) :
    Phase req rings n (.retrying b req)

omit [Target] in
theorem Phase.calling {req : Request} {rings : ℕ → Ring} {n : ℕ} {thread : Thread}
    (h : Phase req rings n thread) : thread.Calling := by
  cases h <;> trivial

/-- A call that will succeed, after `k` of its steps. -/
structure Standing (t : τ) (req : Request) (s₀ : State τ) (k : ℕ) (s : State τ) : Prop where
  owned : Owned s
  accepted : ofThread t s.accepted = ofThread t s₀.accepted
  phase : ∃ n, Phase req s.rings n (s.threads t) ∧ k + n ≤ 3 * maxBlockCapacity + 1

/-- A call that has succeeded, after `k` of its steps. -/
structure Done (t : τ) (req : Request) (s₀ : State τ) (k : ℕ) (s : State τ) : Prop where
  returned : ¬ (s.threads t).Calling
  accepted : ∃ msg : List UInt8, msg.length = req.length ∧
    ofThread t s.accepted = ofThread t s₀.accepted ++ [msg]
  bounded : k ≤ 3 * maxBlockCapacity + 1

section

variable {s₀ s s' : State τ} {t : τ} {b k : ℕ} {req : Request} {uninit : ℕ → ℕ → UInt8}
  {e : Event τ}

/-- An attempt on a full ring in unbounded mode. -/
theorem tryPush_full (hfull : ¬ paddedSize req.length ≤ (s.rings b).freeSlots) :
    s.tryPush t b .unboundedBlocking req = s.setThread t (.full b req) := by
  simp only [State.tryPush, req.attempt_full _ hfull]

/-- An attempt in unbounded mode on a ring that takes the message, or can grow. -/
theorem tryPush_standing (howned : Owned (s.tryPush t b .unboundedBlocking req))
    (haccepted : ofThread t s.accepted = ofThread t s₀.accepted)
    (hroom : paddedSize req.length ≤ (s.rings b).freeSlots → HeaderRoom (s.rings b))
    (hgrow : ¬ paddedSize req.length ≤ (s.rings b).freeSlots →
      0 < (s.rings b).capacity ∧ (s.rings b).capacity < maxBlockCapacity)
    (hk : k + 3 * (maxBlockCapacity - (s.rings b).capacity) ≤ 3 * maxBlockCapacity + 1) :
    Standing t req s₀ k (s.tryPush t b .unboundedBlocking req) ∨
      Done t req s₀ k (s.tryPush t b .unboundedBlocking req) := by
  by_cases hfree : paddedSize req.length ≤ (s.rings b).freeSlots
  · obtain ⟨r, msg, hatt, hwrites, -⟩ := req.attempt_inBounds hfree (hroom hfree)
    right
    refine ⟨?_, ⟨msg, hwrites.length_eq, ?_⟩, by omega⟩
    · simp [State.tryPush, hatt, Thread.Calling]
    · simp only [State.tryPush, hatt]
      rw [ofThread_append, ofThread_singleton, if_pos rfl, haccepted]
  · rw [tryPush_full hfree] at howned ⊢
    refine .inl ⟨howned, haccepted, _, ?_, hk⟩
    simp only [State.setThread, Function.update_self]
    exact .full (hgrow hfree).1 (hgrow hfree).2 le_rfl

/-- A reader leaves memory, tail and capacity alone. -/
theorem pop_keeps (r : Ring) : (SpscConsumer.pop r).2.mem = r.mem ∧
    (SpscConsumer.pop r).2.tail = r.tail ∧ (SpscConsumer.pop r).2.capacity = r.capacity := by
  rcases SpscConsumer.pop_cases r with hpop | ⟨msg, m, hpop, -⟩ <;> rw [hpop]
  · exact ⟨rfl, rfl, rfl⟩
  · exact ⟨rfl, rfl, rfl⟩

/-- What the steps that are not its own leave of the ring of a thread: its capacity, and all of it
when there is nothing in it. -/
theorem other_keeps (h : Owned s) (hb : (s.threads t).block? = some b) (hby : ¬ e.By t)
    (hs : step uninit s e = some s') :
    s'.threads t = s.threads t ∧ ofThread t s'.accepted = ofThread t s.accepted ∧
      (s'.rings b).capacity = (s.rings b).capacity ∧
      (Fresh (s.rings b) → s'.rings b = s.rings b) := by
  obtain ⟨hthread, haccepted, hring | hring⟩ := other_step h hb hby hs
  · exact ⟨hthread, haccepted, by rw [hring], fun _ => hring⟩
  · exact ⟨hthread, haccepted, by rw [hring, (pop_keeps (s.rings b)).2.2],
      fun hfresh => hring.trans hfresh.pop_eq⟩

/-- A step of another thread or of a poll does not move the call. -/
theorem Standing.other (h : Standing t req s₀ k s) (hby : ¬ e.By t)
    (hs : step uninit s e = some s') : Standing t req s₀ k s' := by
  obtain ⟨n, hphase, hn⟩ := h.phase
  have hother := fun b hb => other_keeps (b := b) h.owned hb hby hs
  suffices hmoved : ofThread t s'.accepted = ofThread t s.accepted ∧
      Phase req s'.rings n (s'.threads t) from
    ⟨h.owned.step hs, hmoved.1.trans h.accepted, n, hmoved.2, hn⟩
  generalize s.threads t = thread at hphase hother
  cases hphase with
  | @full b hpos hlt hn =>
    obtain ⟨hthread, haccepted, hcap, -⟩ := hother b rfl
    rw [hthread]
    exact ⟨haccepted, .full (hcap ▸ hpos) (hcap ▸ hlt) (hcap ▸ hn)⟩
  | @registering b mode hf hn =>
    obtain ⟨hthread, haccepted, -, hsame⟩ := hother b rfl
    rw [hthread]
    exact ⟨haccepted, .registering (by rwa [hsame hf]) (by rwa [hsame hf])⟩
  | @retrying b hf hn =>
    obtain ⟨hthread, haccepted, -, hsame⟩ := hother b rfl
    rw [hthread]
    exact ⟨haccepted, .retrying (by rwa [hsame hf]) (by rwa [hsame hf])⟩

/-- A step of the call itself: it grows the queue, registers the new ring or tries again. -/
theorem Standing.own (h : Standing t req s₀ k s) (hsize : paddedSize req.length ≤ maxBlockCapacity)
    (hby : e.By t) (hs : step uninit s e = some s') :
    Standing t req s₀ (k + 1) s' ∨ Done t req s₀ (k + 1) s' := by
  have howned := h.owned.step hs
  obtain ⟨n, hphase, hbound⟩ := h.phase
  generalize ht : s.threads t = thread at hphase
  cases hphase with
  | @full b hpos hlt hn =>
    -- the only step of a thread whose ring is full is to grow the queue
    cases e <;> cases hby <;> simp only [step, ht, reduceCtorEq] at hs
    obtain ⟨r, hgrow, hfresh, hcap⟩ := grow_of_lt hpos hlt (uninit s.created)
    simp only [hgrow, Option.some.injEq] at hs
    subst hs
    have hring : ((s.dropProducer b).create t r .unboundedBlocking (some req)).rings s.created =
        r := Function.update_self ..
    have hthread : ((s.dropProducer b).create t r .unboundedBlocking (some req)).threads t =
        .registering s.created .unboundedBlocking (some req) := Function.update_self ..
    have hle := hfresh.capacity_le
    refine .inl ⟨howned, h.accepted, 3 * (maxBlockCapacity - r.capacity) + 2, ?_, by omega⟩
    rw [hthread]
    exact .registering (by rwa [hring]) (by rw [hring])
  | @registering b mode hf hn =>
    cases e <;> cases hby <;> simp only [step, ht, reduceCtorEq] at hs
    split at hs
    · next block mode' req' _ heq hpoll =>
      cases heq
      cases hs
      refine .inl ⟨howned, h.accepted, n - 1, ?_, by omega⟩
      simp only [State.setThread, Function.update_self]
      exact .retrying hf (by omega)
    · cases hs
  | @retrying b hf hn =>
    cases e <;> cases hby <;> simp only [step, ht, reduceCtorEq, Option.some.injEq] at hs
    subst hs
    have hfree := hf.freeSlots_eq
    have hle := hf.capacity_le
    exact tryPush_standing howned h.accepted (fun hfit => hf.headerRoom (hfree ▸ hfit))
      (fun hfit => ⟨hf.capacity_pos, by omega⟩) (by omega)

/-- Whether a call in unbounded mode can succeed on the ring that it finds: the frame fits the free
slots, or the queue can grow. -/
def CanTake (r : Ring) (req : Request) : Prop :=
  if paddedSize req.length ≤ r.freeSlots then HeaderRoom r
  else 0 < r.capacity ∧ r.capacity < maxBlockCapacity

/-- The call that starts on a ring that can take the message stands or is done after any of its
steps. -/
theorem Call.standing (hcall : Call uninit t req s₀ k s) (howned : Owned s₀)
    (ht : s₀.threads t = .ready b .unboundedBlocking)
    (hsize : paddedSize req.length ≤ maxBlockCapacity) (hcan : CanTake (s₀.rings b) req) :
    Standing t req s₀ k s ∨ Done t req s₀ k s := by
  induction hcall with
  | start hs =>
    have howned' := howned.step hs
    simp only [step, ht, Option.some.injEq] at hs
    subst hs
    refine tryPush_standing howned' rfl (fun hfree => ?_) (fun hfree => ?_) (by omega)
    · rwa [CanTake, if_pos hfree] at hcan
    · rwa [CanTake, if_neg hfree] at hcan
  | own _ hcalling hby hs ih =>
    rcases ih with h | h
    · exact h.own hsize hby hs
    · exact absurd hcalling h.returned
  | other _ hcalling hby hs ih =>
    rcases ih with h | h
    · exact .inl (h.other hby hs)
    · exact absurd hcalling h.returned

/-- A call that stands can go on, unless it waits for the registry lock. -/
theorem Standing.progress (h : Standing t req s₀ k s) (hpoll : s.poll = none) :
    ∃ e s', e.By t ∧ step uninit s e = some s' := by
  obtain ⟨n, hphase, -⟩ := h.phase
  generalize ht : s.threads t = thread at hphase
  cases hphase with
  | @full b hpos hlt hn =>
    obtain ⟨r, hgrow, -⟩ := grow_of_lt hpos hlt (uninit s.created)
    exact ⟨.grow t, _, rfl, by simp only [step, ht, hgrow]; rfl⟩
  | @registering b mode hf hn => exact ⟨.register t, _, rfl, by simp only [step, ht, hpoll]; rfl⟩
  | @retrying b hf hn => exact ⟨.retry t, _, rfl, by simp only [step, ht]; rfl⟩

/-- A call on a ring that cannot take the message returns without having pushed it. -/
theorem Call.refused (uninit : ℕ → ℕ → UInt8) (ht : s₀.threads t = .ready b .unboundedBlocking)
    (hcan : ¬ CanTake (s₀.rings b) req) :
    ∃ k s, Call uninit t req s₀ k s ∧ ¬ (s.threads t).Calling ∧
      ofThread t s.accepted = ofThread t s₀.accepted := by
  have hstart : step uninit s₀ (.attempt t req) =
      some (s₀.tryPush t b .unboundedBlocking req) := by simp only [step, ht]
  by_cases hfree : paddedSize req.length ≤ (s₀.rings b).freeSlots
  · rw [CanTake, if_pos hfree] at hcan
    have htry : s₀.tryPush t b .unboundedBlocking req = { s₀ with faulted := true } := by
      simp only [State.tryPush, req.attempt_outOfBounds hfree hcan]
    refine ⟨1, _, .start hstart, ?_, ?_⟩
    · rw [htry]
      simp [ht, Thread.Calling]
    · rw [htry]
  · rw [CanTake, if_neg hfree] at hcan
    rw [tryPush_full hfree] at hstart
    have hthread : (s₀.setThread t (.full b req)).threads t = .full b req :=
      Function.update_self ..
    have hgrow : step uninit (s₀.setThread t (.full b req)) (.grow t) =
        some ((s₀.setThread t (.full b req)).setThread t (.ready b .unboundedBlocking)) := by
      have hnone := grow_eq_none hcan (uninit s₀.created)
      simp only [step, hthread]
      simp only [State.setThread, hnone]
    refine ⟨2, _, .own (e := .grow t) (.start hstart) (by rw [hthread]; trivial) rfl hgrow, ?_, rfl⟩
    simp [State.setThread, Thread.Calling]

theorem ReturnsOk.canTake (h : ReturnsOk uninit t req s₀)
    (ht : s₀.threads t = .ready b .unboundedBlocking) : CanTake (s₀.rings b) req := by
  by_contra hcan
  obtain ⟨k, s, hcall, hreturned, haccepted⟩ := Call.refused uninit ht hcan
  obtain ⟨msg, -, hmsg⟩ := h.accepted k s hcall hreturned
  rw [haccepted] at hmsg
  simp at hmsg

/-- In unbounded mode a call for a message within the block limit returns `Ok` exactly when the
ring that it finds has room for it, or is neither without capacity nor at the block limit. -/
theorem unbounded_push_iff (uninit : ℕ → ℕ → UInt8) {s₀ : State τ}
    (hreach : (step uninit).Reach (fun _ _ => True) init s₀) {t : τ} {b : ℕ}
    (ht : s₀.threads t = .ready b .unboundedBlocking) {req : Request}
    (hsize : paddedSize req.length ≤ maxBlockCapacity) :
    ReturnsOk uninit t req s₀ ↔ CanTake (s₀.rings b) req := by
  have howned := owned_of_reach hreach
  refine ⟨fun h => h.canTake ht, fun hcan => ⟨⟨3 * maxBlockCapacity + 1, fun k s hcall => ?_⟩,
    fun k s hcall hcalling hpoll => ?_, fun k s hcall hreturned => ?_⟩⟩
  · rcases hcall.standing howned ht hsize hcan with ⟨-, -, n, -, hn⟩ | h
    · omega
    · exact h.bounded
  · rcases hcall.standing howned ht hsize hcan with h | h
    · exact h.progress hpoll
    · exact absurd hcalling h.returned
  · rcases hcall.standing howned ht hsize hcan with h | h
    · obtain ⟨n, hphase, -⟩ := h.phase
      exact absurd hphase.calling hreturned
    · exact h.accepted

end

instance (r : Ring) (req : Request) : Decidable (CanTake r req) :=
  inferInstanceAs (Decidable (if paddedSize req.length ≤ r.freeSlots then HeaderRoom r
    else 0 < r.capacity ∧ r.capacity < maxBlockCapacity))

/-- A thread asks for unbounded mode with the given capacity, and pushes one message. -/
def startUnbounded (startCapacity : ℕ) : List (Event Unit) :=
  [.access (), .register (), .initWithMode () .unboundedBlocking startCapacity, .register (),
    .attempt () (.push [1])]

omit [Target] in
theorem eq_ready {thread : Thread} {b : ℕ} {mode : QueueMode}
    (h : thread.ready? = some (b, mode)) : thread = .ready b mode := by
  cases thread <;> cases h
  rfl

omit [Target] in
/-- The ring of 64 slots is full, and the queue grows for a second message. -/
theorem unbounded_push_iff_full :
    letI : Target := x86_64
    ∃ s : State Unit, (step fun _ _ => 0).run init (startUnbounded 64) = some s ∧
      (s.rings 1).freeSlots = 0 ∧ ReturnsOk (fun _ _ => 0) () (.push [2]) s := by
  let _ : Target := x86_64
  have hrun : ((step fun _ _ => 0).run (init : State Unit) (startUnbounded 64)).map (fun s =>
      decide ((s.threads ()).ready? = some (1, .unboundedBlocking) ∧
        (s.rings 1).freeSlots = 0 ∧ CanTake (s.rings 1) (.push [2]))) = some true := by
    decide +kernel
  obtain ⟨s, hs, hs'⟩ := Option.map_eq_some_iff.mp hrun
  obtain ⟨hready, hfree, hcan⟩ := of_decide_eq_true hs'
  refine ⟨s, hs, hfree, (unbounded_push_iff _ (.of_run (fun _ _ _ => trivial) hs)
    (eq_ready hready) ?_).mpr hcan⟩
  decide

omit [Target] in
/-- A queue that starts without capacity cannot grow, and refuses every message. -/
theorem unbounded_push_refused :
    letI : Target := x86_64
    ∃ s : State Unit, (step fun _ _ => 0).Reach (fun _ _ => True) init s ∧
      (∃ b, s.threads () = .ready b .unboundedBlocking) ∧
      paddedSize (Request.push [2]).length ≤ maxBlockCapacity ∧
      ¬ ReturnsOk (fun _ _ => 0) () (.push [2]) s := by
  let _ : Target := x86_64
  have hrun : ((step fun _ _ => 0).run (init : State Unit) ((startUnbounded 0).take 4)).map
      (fun s => decide ((s.threads ()).ready? = some (1, .unboundedBlocking) ∧
        ¬ CanTake (s.rings 1) (.push [2]))) = some true := by
    decide +kernel
  obtain ⟨s, hs, hs'⟩ := Option.map_eq_some_iff.mp hrun
  obtain ⟨hready, hcan⟩ := of_decide_eq_true hs'
  refine ⟨s, .of_run (fun _ _ _ => trivial) hs, ⟨1, eq_ready hready⟩, by decide, fun h => ?_⟩
  exact hcan (h.canTake (eq_ready hready))

end ThreadContext

end RapidLog
