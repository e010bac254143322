import RapidLog.ThreadContext.Invariant

/-!
# What one step of a thread context does

The parts of the state that the backend watches: which messages a step accepts and from which
request, which requests a thread is left with, and what happens to the polls. A thread offers a
request when it first attempts to push it and when it tries again after growing the queue.

`Bounded` says that every ring keeps to `MAX_BLOCK_CAPACITY`; no message that such a ring accepts
is too long for its header (`Bounded.shortMessage`). `Inv.accepted_perm` collects the accepted
messages of all threads from where they are.
-/

namespace RapidLog

open Queue RingBuffer

variable [Target] {τ : Type} [DecidableEq τ]

/-- The request that the thread has yet to see accepted. -/
def Thread.request? : Thread → Option Request
  | full _ req | retrying _ req => some req
  | registering _ _ req => req
  | unstarted | ready .. | exited => none

/-- What a closure leaves in its buffer is what the ring accepts. -/
theorem Request.attempt_pushEncoded {r r' : Ring} (h : Aligned r) {totalMsg : ℕ}
    {encode : EncodeFn Unit} {msg : List UInt8}
    (hatt : (pushEncoded totalMsg encode).attempt r = some (.ok (r', msg))) :
    ∃ buf : List UInt8, buf.length = totalMsg ∧ msg = (encode.run buf).1 := by
  by_cases hfree : paddedSize totalMsg ≤ r.freeSlots
  · obtain ⟨r₁, msg₁, hatt₁, hwrites, -⟩ :=
      attempt_spec h.hasRoom_tail (pushEncoded totalMsg encode) hfree
    rw [hatt₁] at hatt
    cases hatt
    exact hwrites
  · have hfull : ¬ paddedSize (pushEncoded totalMsg encode).length ≤ r.freeSlots := hfree
    rw [attempt_full r hfull] at hatt
    cases hatt

namespace ThreadContext

/-- The steps that a thread takes outside a log call that reaches the queue. -/
def Event.isThreadStep : Event τ → Bool
  | .access _ | .register _ | .retry _ | .grow _ | .initWithMode .. | .exit _ => true
  | .attempt .. | .pollBegin _ | .pollStep | .pollEnd => false

/-- The steps of a poll. -/
def Event.isPoll : Event τ → Bool
  | .pollBegin _ | .pollStep | .pollEnd => true
  | _ => false

/-- The event offers the request to the ring of the thread. -/
inductive Offers (s : State τ) : Event τ → τ → ℕ → Request → Prop
  | attempt {t block mode req} (ht : s.threads t = .ready block mode) :
    Offers s (.attempt t req) t block req
  | retry {t block req} (ht : s.threads t = .retrying block req) :
    Offers s (.retry t) t block req

/-- Capacities that fit the block limit. -/
def CapacityOk : Event τ → Prop
  | .initWithMode _ _ startCapacity =>
    (0 < startCapacity ∧ 64 ∣ startCapacity) ∧ startCapacity ≤ maxBlockCapacity
  | _ => True

omit [Target] [DecidableEq τ] in
theorem CapacityOk.valid {e : Event τ} (h : CapacityOk e) : ValidCapacity e := by
  cases e with
  | initWithMode => exact h.1
  | _ => trivial

/-- What a step does to the parts of the state that the backend watches. -/
structure Effect (s : State τ) (e : Event τ) (s' : State τ) : Prop where
  /-- At most one message is accepted, the one that the event offers. -/
  accepted : s'.accepted = s.accepted ∨ ∃ t block req r msg, Offers s e t block req ∧
    req.attempt (s.rings block) = some (.ok (r, msg)) ∧ s'.accepted = s.accepted ++ [(some t, msg)]
  /-- A thread is left only with requests that it had or that the event offers. -/
  request : ∀ t req, (s'.threads t).request? = some req →
    (s.threads t).request? = some req ∨ e = .attempt t req
  poll : e.isPoll = false → s'.poll = s.poll ∧ s'.polled = s.polled
  /-- Only the producers' steps touch the threads and what they have pushed. -/
  threads : e.isPoll = true → s'.threads = s.threads ∧ s'.accepted = s.accepted
  /-- A ring keeps its capacity; a new one has a capacity within the block limit. -/
  capacity : ∀ b < s'.created, (s'.rings b).capacity ≤ maxBlockCapacity ∨
    b < s.created ∧ (s'.rings b).capacity = (s.rings b).capacity

/-- Every ring keeps to the block limit. -/
def Bounded (s : State τ) : Prop :=
  ∀ b < s.created, (s.rings b).capacity ≤ maxBlockCapacity

omit [DecidableEq τ] in
theorem Effect.bounded {s s' : State τ} {e : Event τ} (h : Effect s e s') (hs : Bounded s) :
    Bounded s' := by
  intro b hb
  rcases h.capacity b hb with hle | ⟨hlt, heq⟩
  · exact hle
  · exact heq ▸ hs b hlt

/-- What a ring within the block limit accepts fits the `u32` of its header. -/
theorem Bounded.shortMessage {s : State τ} (hs : Bounded s) (h : Inv s) (e : Event τ) :
    ShortMessage s e := by
  have hfits : ∀ t block req, (s.threads t).block? = some block → HeaderFits s block req := by
    intro t block req hb hfree
    have hlt := h.lt_of_owner (h.current t block hb).1
    exact length_lt_of_free (hs block hlt) hfree
  cases e with
  | attempt t req => exact fun block mode ht => hfits t block req (by rw [ht]; rfl)
  | retry t => exact fun block req ht => hfits t block req (by rw [ht]; rfl)
  | _ => trivial

/-! ### The effect of each step -/

section

variable {s s' : State τ} {t : τ} {b : ℕ} {e : Event τ}

omit [Target] in
/-- A thread that moves on is left with the request it carries, the others with theirs. -/
private theorem request_update {thread : Thread} {t₀ : τ} {req : Request}
    (hreq : ((Function.update s.threads t thread) t₀).request? = some req) :
    (s.threads t₀).request? = some req ∨ t₀ = t ∧ thread.request? = some req := by
  rcases eq_or_ne t₀ t with rfl | hne
  · rw [Function.update_self] at hreq
    exact .inr ⟨rfl, hreq⟩
  · rw [Function.update_of_ne hne] at hreq
    exact .inl hreq

/-- A step that moves one thread and touches nothing else. -/
private theorem Effect.of_setThread {thread : Thread} (hpoll : e.isPoll = false)
    (hreq : ∀ req, thread.request? = some req →
      (s.threads t).request? = some req ∨ e = .attempt t req) :
    Effect s e (s.setThread t thread) where
  accepted := .inl rfl
  request _ req h₀ := (request_update h₀).elim .inl fun ⟨ht, h⟩ => ht ▸ hreq req h
  poll _ := ⟨rfl, rfl⟩
  threads h := absurd (hpoll.symm.trans h) Bool.false_ne_true
  capacity _ hb := .inr ⟨hb, rfl⟩

omit [DecidableEq τ] in
/-- The registry is not part of the effect. -/
private theorem Effect.of_registry (h : Effect s e s') (registry : List ℕ) :
    Effect s e { s' with registry } :=
  ⟨h.accepted, h.request, h.poll, h.threads, h.capacity⟩

omit [DecidableEq τ] in
/-- Nor is which producers have been dropped. -/
private theorem Effect.of_abandoned (h : Effect s e s') (abandoned : ℕ → Bool) :
    Effect s e { s' with abandoned } :=
  ⟨h.accepted, h.request, h.poll, h.threads, h.capacity⟩

/-- A step that creates a ring, after the producer of another may have been dropped. -/
private theorem Effect.of_create {s₀ : State τ} {r : Ring} {mode : QueueMode}
    {req₀ : Option Request} (hpoll : e.isPoll = false)
    (h₀ : s₀ = s ∨ ∃ block, s₀ = s.dropProducer block)
    (hcap : r.capacity ≤ maxBlockCapacity)
    (hreq : ∀ req, req₀ = some req → (s.threads t).request? = some req) :
    Effect s e (s₀.create t r mode req₀) := by
  have hsame : s₀.accepted = s.accepted ∧ s₀.threads = s.threads ∧ s₀.poll = s.poll ∧
      s₀.polled = s.polled ∧ s₀.rings = s.rings ∧ s₀.created = s.created := by
    rcases h₀ with rfl | ⟨block, rfl⟩ <;> exact ⟨rfl, rfl, rfl, rfl, rfl, rfl⟩
  obtain ⟨haccepted, hthreads, hpoll', hpolled, hrings, hcreated⟩ := hsame
  refine ⟨.inl haccepted, fun t₀ req h => ?_, fun _ => ⟨hpoll', hpolled⟩, fun h => ?_,
    fun b hb => ?_⟩
  · simp only [State.create, hthreads] at h
    rcases request_update h with hold | ⟨rfl, hr⟩
    · exact .inl hold
    · exact .inl (hreq req hr)
  · exact absurd (hpoll.symm.trans h) Bool.false_ne_true
  · simp only [State.create, hrings, hcreated] at hb ⊢
    rcases eq_or_ne b s.created with rfl | hne
    · exact .inl (by rwa [Function.update_self])
    · exact .inr ⟨by omega, by rw [Function.update_of_ne hne]⟩

/-- An attempt to push the request that the event offers. -/
private theorem Effect.of_tryPush (h : Inv s) {mode : QueueMode} {req : Request}
    (hoffers : Offers s e t b req) (hb : (s.threads t).block? = some b)
    (hreq : (s.threads t).request? = some req ∨ e = .attempt t req) :
    Effect s e (s.tryPush t b mode req) := by
  have hpoll : e.isPoll = false := by cases hoffers <;> rfl
  by_cases hfree : paddedSize req.length ≤ (s.rings b).freeSlots
  · have hholds := h.holds b (h.lt_of_owner (h.current t b hb).1)
    obtain ⟨r, msg, hatt, -, happ⟩ := req.attempt_spec hholds.aligned.hasRoom_tail hfree
    simp only [State.tryPush, hatt]
    refine ⟨.inr ⟨t, b, req, r, msg, hoffers, hatt, rfl⟩, fun t₀ req₀ h₀ => ?_,
      fun _ => ⟨rfl, rfl⟩, fun hp => absurd (hpoll.symm.trans hp) Bool.false_ne_true,
      fun b' hb' => .inr ⟨hb', ?_⟩⟩
    · rcases request_update h₀ with hold | ⟨-, hr⟩
      · exact .inl hold
      · cases hr
    · rcases eq_or_ne b' b with rfl | hne
      · simp only [Function.update_self, happ.capacity_eq]
      · simp only [Function.update_of_ne hne]
  · simp only [State.tryPush, req.attempt_full _ hfree]
    cases mode with
    | boundedDropping => exact .of_setThread hpoll fun _ hr => by cases hr
    | unboundedBlocking => exact .of_setThread hpoll fun _ hr => by cases hr; exact hreq

omit [DecidableEq τ] in
/-- A step that leaves the threads and the capacities alone. -/
private theorem Effect.of_poll (hpoll : e.isPoll = true) (haccepted : s'.accepted = s.accepted)
    (hthreads : s'.threads = s.threads) (hcreated : s'.created = s.created)
    (hcap : ∀ b, (s'.rings b).capacity = (s.rings b).capacity) : Effect s e s' where
  accepted := .inl haccepted
  request _ _ h := .inl (hthreads ▸ h)
  poll h := absurd (h.symm.trans hpoll) Bool.false_ne_true
  threads _ := ⟨hthreads, haccepted⟩
  capacity b hb := .inr ⟨hcreated ▸ hb, hcap b⟩

omit [DecidableEq τ] in
/-- A step of a poll only takes messages out of a ring or consumers out of the registry. -/
private theorem Effect.of_pollAt (p : Poll τ) (b : ℕ) : Effect s .pollStep (s.pollAt p b) := by
  simp only [State.pollAt]
  cases p.phase with
  | popping =>
    have hcap : ∀ o r, SpscConsumer.pop (s.rings b) = (o, r) → ∀ b',
        (Function.update s.rings b r b').capacity = (s.rings b').capacity := by
      intro o r hpop b'
      rcases eq_or_ne b' b with rfl | hne
      · rw [Function.update_self]
        rcases SpscConsumer.pop_cases (s.rings b') with h | ⟨msg, n, h, -⟩
        · cases h.symm.trans hpop
          rfl
        · cases h.symm.trans hpop
          rfl
      · rw [Function.update_of_ne hne]
    rcases hpop : SpscConsumer.pop (s.rings b) with ⟨_ | msg, r⟩
    · exact .of_poll rfl rfl rfl rfl (hcap _ _ hpop)
    · exact .of_poll rfl rfl rfl rfl (hcap _ _ hpop)
  | checkAbandoned =>
    cases s.abandoned b <;> exact .of_poll rfl rfl rfl rfl fun _ => rfl
  | checkEmpty =>
    cases SpscConsumer.isEmpty (s.rings b) <;> exact .of_poll rfl rfl rfl rfl fun _ => rfl

omit [DecidableEq τ] in
/-- A step of a poll keeps its caller, and hands nothing out yet. -/
private theorem poll_pollAt (p : Poll τ) (b : ℕ) :
    (∃ q, (s.pollAt p b).poll = some q ∧ q.poller = p.poller) ∧
      (s.pollAt p b).polled = s.polled := by
  simp only [State.pollAt]
  cases p.phase with
  | popping =>
    rcases SpscConsumer.pop (s.rings b) with ⟨_ | msg, r⟩ <;> exact ⟨⟨_, rfl, rfl⟩, rfl⟩
  | checkAbandoned => cases s.abandoned b <;> exact ⟨⟨_, rfl, rfl⟩, rfl⟩
  | checkEmpty => cases SpscConsumer.isEmpty (s.rings b) <;> exact ⟨⟨_, rfl, rfl⟩, rfl⟩

theorem poll_of_pollStep {uninit : ℕ → ℕ → UInt8} {p : Poll τ} (hp : s.poll = some p)
    (hs : ThreadContext.step uninit s .pollStep = some s') :
    (∃ q, s'.poll = some q ∧ q.poller = p.poller) ∧ s'.polled = s.polled := by
  cases step_cases hs with
  | @pollStep p' b hp' hb =>
    obtain rfl : p = p' := Option.some.inj (hp.symm.trans hp')
    exact poll_pollAt p b

/-- A poll begins with nothing in its hands. -/
theorem poll_of_pollBegin {uninit : ℕ → ℕ → UInt8} {w : ℕ}
    (hs : ThreadContext.step uninit s (.pollBegin w) = some s') :
    s.poll = none ∧ (∃ q, s'.poll = some q ∧ q.poller = w) ∧ s'.polled = s.polled := by
  cases step_cases hs with
  | pollBegin hpoll => exact ⟨hpoll, ⟨_, rfl, rfl⟩, rfl⟩

/-- A poll ends by handing out what it has popped. -/
theorem poll_of_pollEnd {uninit : ℕ → ℕ → UInt8} {p : Poll τ} (hp : s.poll = some p)
    (hs : ThreadContext.step uninit s .pollEnd = some s') :
    s'.poll = none ∧ s'.polled = s.polled ++ p.allMsgs := by
  cases step_cases hs with
  | @pollEnd p' hp' hi =>
    obtain rfl : p = p' := Option.some.inj (hp.symm.trans hp')
    exact ⟨rfl, rfl⟩

/-- What each step does. -/
theorem Inv.effect (h : Inv s) {uninit : ℕ → ℕ → UInt8} (hcap : CapacityOk e)
    (hs : ThreadContext.step uninit s e = some s') : Effect s e s' := by
  cases step_cases hs with
  | access ht =>
    exact .of_create rfl (.inl rfl) (show defaultStartCapacity ≤ maxBlockCapacity by decide)
      fun _ hr => nomatch hr
  | @register t block mode ht hpoll =>
    have heff : Effect s (.register t) (s.setThread t (.ready block mode)) :=
      .of_setThread rfl fun _ hr => nomatch hr
    exact heff.of_registry _
  | @registerGrown t block mode req ht hpoll =>
    have heff : Effect s (.register t) (s.setThread t (.retrying block req)) := by
      refine .of_setThread rfl fun _ hr => .inl ?_
      rw [ht]
      exact hr
    exact heff.of_registry _
  | attempt ht => exact .of_tryPush h (.attempt ht) (by rw [ht]; rfl) (.inr rfl)
  | retry ht => exact .of_tryPush h (.retry ht) (by rw [ht]; rfl) (.inl (by rw [ht]; rfl))
  | atLimit ht hgrow => exact .of_setThread rfl fun _ hr => nomatch hr
  | grow ht hgrow =>
    refine .of_create rfl (.inr ⟨_, rfl⟩) (grow_spec hgrow).2.2 fun _ hr => ?_
    rw [ht]
    exact hr
  | replace ht hcap' => exact .of_create rfl (.inr ⟨_, rfl⟩) hcap.2 fun _ hr => nomatch hr
  | setMode ht hcap' => exact .of_setThread rfl fun _ hr => nomatch hr
  | exitUnstarted ht => exact .of_setThread rfl fun _ hr => nomatch hr
  | @exit t block mode ht =>
    have heff : Effect s (.exit t) (s.setThread t .exited) :=
      .of_setThread rfl fun _ hr => nomatch hr
    exact heff.of_abandoned _
  | pollBegin hpoll => exact .of_poll rfl rfl rfl rfl fun _ => rfl
  | pollStep hp hb => exact .of_pollAt _ _
  | pollEnd hp hi => exact .of_poll rfl rfl rfl rfl fun _ => rfl

end

/-! ### Where the accepted messages are -/

/-- The messages in the registered rings, each with the thread that pushed it. -/
def State.inRings (s : State τ) : List (Option τ × List UInt8) :=
  s.registry.flatMap fun b => (pending (s.rings b)).map fun msg => (s.owner b, msg)

omit [Target] in
theorem mem_ofThread {t : τ} {msg : List UInt8} {msgs : List (Option τ × List UInt8)} :
    msg ∈ ofThread t msgs ↔ (some t, msg) ∈ msgs := by
  simp [ofThread]

omit [Target] in
/-- Messages that all carry one tag. -/
theorem ofThread_tagged (t : τ) (o : Option τ) (msgs : List (List UInt8)) :
    ofThread t (msgs.map fun msg => (o, msg)) = if o = some t then msgs else [] := by
  by_cases ho : o = some t <;> simp [ofThread, List.filter_map, Function.comp_def, ho]

omit [Target] in
theorem count_ofThread (t : τ) (msg : List UInt8) (msgs : List (Option τ × List UInt8)) :
    (ofThread t msgs).count msg = msgs.count (some t, msg) := by
  induction msgs with
  | nil => rfl
  | cons m msgs ih =>
    rw [← List.singleton_append, ofThread_append, List.count_append, List.count_append, ih,
      ofThread_singleton]
    congr 1
    obtain ⟨o, msg'⟩ := m
    by_cases ho : o = some t
    · subst ho
      rw [if_pos rfl]
      by_cases hmsg : msg' = msg <;> simp [hmsg]
    · rw [if_neg ho]
      simp [ho]

omit [Target] in
/-- Messages that all belong to threads are rearranged when those of each thread are. -/
theorem perm_of_ofThread {xs ys : List (Option τ × List UInt8)}
    (hxs : ∀ m ∈ xs, ∃ t, m.1 = some t) (hys : ∀ m ∈ ys, ∃ t, m.1 = some t)
    (h : ∀ t, (ofThread t xs).Perm (ofThread t ys)) : xs.Perm ys := by
  apply List.perm_iff_count.mpr
  rintro ⟨_ | t, msg⟩
  · have hnone : ∀ zs : List (Option τ × List UInt8), (∀ m ∈ zs, ∃ t, m.1 = some t) →
        zs.count (none, msg) = 0 := by
      intro zs hzs
      apply List.count_eq_zero.mpr
      intro hmem
      obtain ⟨t, ht⟩ := hzs _ hmem
      cases ht
    rw [hnone xs hxs, hnone ys hys]
  · rw [← count_ofThread, ← count_ofThread]
    exact (h t).count_eq msg

/-- A thread's own messages in the registered rings. -/
theorem ofThread_inRings (s : State τ) (t : τ) :
    ofThread t s.inRings = s.registry.flatMap (s.pendingIn t) := by
  unfold State.inRings
  induction s.registry with
  | nil => rfl
  | cons b bs ih =>
    rw [List.flatMap_cons, List.flatMap_cons, ofThread_append, ih, ofThread_tagged,
      State.pendingIn]

/-- No ring is registered twice. -/
theorem Inv.nodup_registry {s : State τ} (h : Inv s) : s.registry.Nodup := by
  refine h.registry_sorted.imp fun hab => ?_
  rintro rfl
  exact lt_irrefl _ (hab rfl)

/-- The rings that are not registered hold no message. -/
theorem Inv.pending_unregistered {s : State τ} (h : Inv s) {b : ℕ} (hb : b < s.created)
    (hmem : b ∉ s.registry) : pending (s.rings b) = [] := by
  rcases h.unregistered b hb hmem with ⟨t, ht⟩ | hrem
  · exact (h.registering t b ht).2
  · exact (h.removed b hrem).2.1

/-- A popped message is one that a thread pushed. -/
theorem Inv.mem_accepted {s : State τ} (h : Inv s) {m : Option τ × List UInt8}
    (hm : m ∈ s.polled ++ s.inFlight) : m ∈ s.accepted := by
  obtain ⟨t, ht⟩ := h.owned m hm
  obtain ⟨_, msg⟩ := m
  cases ht
  rw [← mem_ofThread, h.conserved t]
  exact List.mem_append_left _ (mem_ofThread.mpr hm)

/-- Every accepted message has been polled, is in the hands of a running poll or stands in a
registered ring, and in one of these places only. -/
theorem Inv.accepted_perm {s : State τ} (h : Inv s) (howned : ∀ m ∈ s.accepted, ∃ t, m.1 = some t) :
    s.accepted.Perm (s.polled ++ s.inFlight ++ s.inRings) := by
  have hrings : ∀ m ∈ s.inRings, ∃ t, m.1 = some t := by
    intro m hm
    obtain ⟨b, hb, hmsg⟩ := List.mem_flatMap.mp hm
    obtain ⟨msg, -, rfl⟩ := List.mem_map.mp hmsg
    rcases ho : s.owner b with _ | t
    · exact absurd ((h.owner_iff b).mp ho) (not_le.mpr (h.registry_lt b hb))
    · exact ⟨t, rfl⟩
  refine perm_of_ofThread howned (fun m hm => ?_) fun t => ?_
  · rcases List.mem_append.mp hm with hm | hm
    · exact h.owned m hm
    · exact hrings m hm
  · rw [h.conserved t, ofThread_append t (s.polled ++ s.inFlight), ofThread_inRings]
    refine List.Perm.append_left _ (FlatMap.perm_of_nodup h.nodup_registry h.registry_lt ?_)
    intro b hb hmem
    simp [State.pendingIn, h.pending_unregistered hb hmem]

end ThreadContext

end RapidLog
