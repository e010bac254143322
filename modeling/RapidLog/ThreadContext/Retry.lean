import RapidLog.Queue.Attempt
import RapidLog.Queue.Overflow
import RapidLog.ThreadContext.Registry

/-!
# The retry loop

`push_impl` and `push_encoded_unbounded` in unbounded mode, for a message of any length and a ring
of any capacity in any state: how such a call ends, how often it has called its closure by then,
what it has left in the rings of its thread and in the registry. As in `Call`, any steps of other
threads and of polls may come in between.

The loop goes on as long as the queue can grow, and every growth brings the capacity closer to the
block limit (`Stage`). It never writes to a ring that it leaves behind, and the rings that it
creates are empty while it runs (`Unwritten`), so whether it can succeed is settled by the ring that
it finds and by the block limit (`Accepts`). What it finds may still spoil the message: when the
frame fits the ring at once, nothing keeps its header from crossing the physical end of a ring whose
capacity is no multiple of the header size, nor its length from exceeding a `u32` (`Readable`). A
ring that the queue has grown to is empty and within the block limit, where neither happens.

The size of the message is one that a slice can have, so the attempts of the call are those of the
source, whatever it does on overflow (`Request.attemptUsize_of_lt`).

## Main results

* `exact_iff`: the call does all that it should exactly when its message is readable.
* `exact_fails_near_end`: a ring of 68 slots.
-/

namespace RapidLog

open Queue RingBuffer

variable [Target] {τ : Type} [DecidableEq τ]

/-- How often an attempt on the ring calls the closure of the request. -/
def Request.calls (r : Ring) : Request → ℕ
  | push _ => 0
  | pushEncoded totalMsg encode =>
    ((SpscProducer.pushEncodedMut r totalMsg encode.counting 0).map Prod.snd).getD 0

/-- The closures of a request: bytes to copy come without one. -/
def Request.closures : Request → ℕ
  | push _ => 0
  | pushEncoded _ _ => 1

/-- An attempt that succeeds calls the closure once. -/
theorem Request.calls_inBounds {r : Ring} (req : Request)
    (hfree : paddedSize req.length ≤ r.freeSlots) (hroom : HeaderRoom r) :
    req.calls r = req.closures := by
  cases req with
  | push data => rfl
  | pushEncoded totalMsg encode =>
    obtain ⟨buf, r', -, hpush⟩ :=
      SpscProducer.pushEncodedMut_inBounds totalMsg encode.counting 0 hfree hroom
    rw [calls, hpush]
    rfl

/-- An attempt that is refused does not call it. -/
theorem Request.calls_full {r : Ring} (req : Request)
    (hfull : ¬ paddedSize req.length ≤ r.freeSlots) : req.calls r = 0 := by
  cases req with
  | push data => rfl
  | pushEncoded totalMsg encode =>
    rw [calls, SpscProducer.pushEncodedMut_full totalMsg encode.counting 0 hfull]
    rfl

/-- One attempt with the sums of `usize`. -/
def Request.attemptUsize (mode : OnOverflow) (r : Ring) : Request → Option (PushEnd (List UInt8))
  | push data => ((push data).attempt r).map .returned
  | pushEncoded totalMsg encode =>
    (SpscProducer.pushEncodedUsize mode r totalMsg encode.echo).map fun
      | .panicked => .panicked
      | .returned result => .returned (result.map fun (r, msg, _) => (r, msg))

/-- An attempt with a size that a slice can have is the same in `usize`. -/
theorem Request.attemptUsize_of_lt {req : Request} (h : req.length < usizeRange / 2)
    (mode : OnOverflow) (r : Ring) :
    req.attemptUsize mode r = (req.attempt r).map .returned := by
  cases req with
  | push data => rfl
  | pushEncoded totalMsg encode =>
    have hlt : totalMsg < usizeRange / 2 := h
    rw [attemptUsize, SpscProducer.pushEncodedUsize_of_lt hlt, attempt, Option.map_map,
      Option.map_map]
    rfl

/-- At most one revolution of the ring is filled. -/
structure Within (r : Ring) : Prop where
  head_le : r.head ≤ r.tail
  tail_le : r.tail ≤ r.head + r.capacity

namespace Within

variable {r r' : Ring}

omit [Target] in
theorem createQueue (capacity : ℕ) (mem : ℕ → UInt8) : Within (createQueue capacity mem) :=
  ⟨le_rfl, Nat.zero_le _⟩

/-- What a reader leaves of the ring. -/
theorem pop (h : Within r) : Within (SpscConsumer.pop r).2 := by
  rcases SpscConsumer.pop_cases r with hpop | ⟨msg, n, hpop, -, hn⟩ <;> rw [hpop]
  · exact h
  · have hslots : r.slots = r.tail - r.head := rfl
    have hhead := h.head_le
    have htail := h.tail_le
    exact ⟨by simp only [commitRead]; omega, by simp only [commitRead]; omega⟩

/-- What a writer leaves of the ring. -/
theorem attempt {req : Request} {msg : List UInt8} (h : Within r)
    (hatt : req.attempt r = some (.ok (r', msg))) : Within r' := by
  by_cases hfree : paddedSize req.length ≤ r.freeSlots
  · by_cases hroom : HeaderRoom r
    · obtain ⟨r₁, msg₁, hatt₁, -, hext⟩ := req.attempt_inBounds hfree hroom
      rw [hatt₁] at hatt
      cases hatt
      have hslots : r.slots = r.tail - r.head := rfl
      have hfree' : r.freeSlots = r.capacity - r.slots := rfl
      have hhead := h.head_le
      have htail := h.tail_le
      exact ⟨by rw [hext.head_eq, hext.tail_eq]; omega,
        by rw [hext.head_eq, hext.tail_eq, hext.capacity_eq]; omega⟩
    · rw [req.attempt_outOfBounds hfree hroom] at hatt
      cases hatt
  · rw [req.attempt_full r hfree] at hatt
    cases hatt

end Within

namespace ThreadContext

/-- How often a step calls the closure of a request. -/
def calls (s : State τ) : Event τ → ℕ
  | .attempt t req =>
    match s.threads t with
    | .ready block _ => req.calls (s.rings block)
    | _ => 0
  | .retry t =>
    match s.threads t with
    | .retrying block req => req.calls (s.rings block)
    | _ => 0
  | _ => 0

/-- A call as in `Call` that has called its closure `n` times. -/
inductive Counted (uninit : ℕ → ℕ → UInt8) (t : τ) (req : Request) (s₀ : State τ) :
    ℕ → ℕ → State τ → Prop
  | start {s : State τ} : step uninit s₀ (.attempt t req) = some s →
    Counted uninit t req s₀ 1 (calls s₀ (.attempt t req)) s
  | own {k n : ℕ} {s s' : State τ} {e : Event τ} : Counted uninit t req s₀ k n s →
    (s.threads t).Calling → e.By t → step uninit s e = some s' →
    Counted uninit t req s₀ (k + 1) (n + calls s e) s'
  | other {k n : ℕ} {s s' : State τ} {e : Event τ} : Counted uninit t req s₀ k n s →
    (s.threads t).Calling → ¬ e.By t → step uninit s e = some s' →
    Counted uninit t req s₀ k n s'

/-- Whether a call can succeed on the ring that it finds: the frame fits the free slots, or it fits
the block limit and the queue can grow. -/
def Accepts (r : Ring) (req : Request) : Prop :=
  paddedSize req.length ≤ r.freeSlots ∨
    (0 < r.capacity ∧ r.capacity < maxBlockCapacity ∧ paddedSize req.length ≤ maxBlockCapacity)

/-- If the frame fits the free slots of the ring, then the whole header fits in front of the
physical end and can store the length. -/
def Readable (r : Ring) (req : Request) : Prop :=
  paddedSize req.length ≤ r.freeSlots →
    headerSize ≤ r.capacity - r.tail % r.capacity ∧ req.length < 2 ^ 32

/-- Since `s₀` nothing has been written to the rings of the thread, and those that are new hold
nothing. -/
structure Unwritten (t : τ) (s₀ s : State τ) : Prop where
  old : ∀ b < s₀.created, s.owner b = some t →
    (s.rings b).mem = (s₀.rings b).mem ∧ (s.rings b).tail = (s₀.rings b).tail
  new : ∀ b, s₀.created ≤ b → s.owner b = some t → (s.rings b).tail = 0

/-- The call has returned `Ok`: its closure has been called once, and its message is the last one in
the newest ring of the thread. -/
structure Pushed (t : τ) (req : Request) (s₀ s : State τ) (n : ℕ) : Prop where
  calls_eq : n = req.closures
  message : ∃ msg b, req.Writes msg ∧ ofThread t s.accepted = ofThread t s₀.accepted ++ [msg] ∧
    s.threads t = .ready b .unboundedBlocking ∧ (∀ b', s.owner b' = some t → b' ≤ b) ∧
    EndsWith (s.rings b) msg

/-- The call has returned `Full`: its closure has not been called, and there is nothing of its
message in any ring. -/
structure Refused (t : τ) (s₀ s : State τ) (n : ℕ) : Prop where
  calls_eq : n = 0
  ready : ∃ b, s.threads t = .ready b .unboundedBlocking
  accepted : ofThread t s.accepted = ofThread t s₀.accepted
  unwritten : Unwritten t s₀ s

/-- All that the loop should do, for the call that `t` starts in `s₀` on the ring `b`: it ends, it
returns `Ok` exactly when it can, and the rings that it has created by then have been registered in
the order of their creation, behind those that were there. -/
structure Exact (uninit : ℕ → ℕ → UInt8) (t : τ) (b : ℕ) (req : Request) (s₀ : State τ) : Prop where
  bounded : ∃ m, ∀ k n s, Counted uninit t req s₀ k n s → k ≤ m
  progress : ∀ k n s, Counted uninit t req s₀ k n s → (s.threads t).Calling → s.poll = none →
    ∃ e s', e.By t ∧ step uninit s e = some s'
  pushed : ∀ k n s, Counted uninit t req s₀ k n s → ¬ (s.threads t).Calling →
    Accepts (s₀.rings b) req → Pushed t req s₀ s n
  refused : ∀ k n s, Counted uninit t req s₀ k n s → ¬ (s.threads t).Calling →
    ¬ Accepts (s₀.rings b) req → Refused t s₀ s n
  registered : ∀ k n s, Counted uninit t req s₀ k n s → ¬ (s.threads t).Calling →
    ∃ added, RegisteredSince t s₀ s added ∧
      (added.filter fun b => s.owner b = some t) = newRings t s₀ s

section

variable {s s' s₀ : State τ} {t : τ} {b k n : ℕ} {req : Request} {uninit : ℕ → ℕ → UInt8}
  {e : Event τ}

/-! ### The rings of the other threads and of the polls -/

/-- In every state that a run reaches, at most one revolution of a ring is filled. -/
theorem within_of_reach {ok : State τ → Event τ → Prop} (h : (step uninit).Reach ok init s) :
    ∀ b, Within (s.rings b) := by
  refine h.invariant (P := fun s => ∀ b, Within (s.rings b))
    (fun b => .createQueue _ _) fun s e s' hwithin _ hs => ?_
  have hupdate : ∀ {b r}, Within r → ∀ b', Within (Function.update s.rings b r b') := by
    intro b r hr b'
    rcases eq_or_ne b' b with rfl | hne
    · rwa [Function.update_self]
    · rw [Function.update_of_ne hne]
      exact hwithin b'
  have htry : ∀ t b mode req b', Within ((s.tryPush t b mode req).rings b') := by
    intro t b mode req
    simp only [State.tryPush]
    split
    · exact hwithin
    · next hatt => exact hupdate ((hwithin b).attempt hatt)
    · cases mode <;> exact hwithin
  have hpoll : ∀ p b b', Within ((s.pollAt p b).rings b') := by
    intro p b
    have hpop := (hwithin b).pop
    simp only [State.pollAt]
    cases p.phase with
    | popping =>
      rcases hr : SpscConsumer.pop (s.rings b) with ⟨_ | msg, r⟩ <;> rw [hr] at hpop <;>
        exact hupdate hpop
    | checkAbandoned => cases s.abandoned b <;> exact hwithin
    | checkEmpty => cases SpscConsumer.isEmpty (s.rings b) <;> exact hwithin
  cases step_cases hs with
  | attempt | retry => exact htry _ _ _ _
  | pollStep => exact hpoll _ _
  | access | replace => exact hupdate (.createQueue _ _)
  | grow ht hgrow =>
    obtain ⟨rfl, -⟩ := grow_spec hgrow
    exact hupdate (.createQueue _ _)
  | _ => exact hwithin

/-- What the steps that are not its own leave of the rings of a thread. -/
theorem other_rings (howned : Owned s) (hby : ¬ e.By t) (hs : step uninit s e = some s')
    (ho : s'.owner b = some t) :
    s.owner b = some t ∧
      (s'.rings b = s.rings b ∨ s'.rings b = (SpscConsumer.pop (s.rings b)).2) := by
  have hthread : s'.threads t = s.threads t := by
    rcases step_frame hs with ⟨t', hby', hown⟩ | ⟨-, hpoll⟩
    · exact hown.threads t fun heq => hby (heq ▸ hby')
    · rw [hpoll.threads]
  have howner : s.owner b = some t := by
    cases step_move hs with
    | stay _ _ _ howner | register _ _ _ _ _ _ howner | remove _ _ _ _ _ _ howner =>
      rwa [howner] at ho
    | create t' thread _ _ _ howner hold hnew hthreads =>
      rw [howner] at ho
      rcases eq_or_ne b s.created with rfl | hne
      · -- the owner of a new ring is the thread that steps
        rw [Function.update_self, Option.some.injEq] at ho
        subst ho
        rw [hthreads, Function.update_self] at hthread
        rw [hthread, hold] at hnew
        cases hnew
      · rwa [Function.update_of_ne hne] at ho
  refine ⟨howner, ?_⟩
  rcases step_frame hs with ⟨t', hby', hown⟩ | ⟨-, hpoll⟩
  · have hlt : b < s.created := by
      by_contra hge
      rw [howned.fresh b (not_lt.mp hge)] at howner
      cases howner
    refine .inl (hown.rings b hlt fun hb' => hby ?_)
    have howner' := howned.owner t' b hb'
    rw [howner, Option.some.injEq] at howner'
    rwa [howner']
  · exact hpoll.rings b

/-! ### What a call has not written yet -/

omit [Target] [DecidableEq τ] in
theorem Unwritten.refl (howned : Owned s) : Unwritten t s s := by
  refine ⟨fun _ _ _ => ⟨rfl, rfl⟩, fun b hb ho => ?_⟩
  rw [howned.fresh b hb] at ho
  cases ho

/-- Only the thread itself writes to its rings. -/
theorem Unwritten.other (h : Unwritten t s₀ s) (howned : Owned s) (hby : ¬ e.By t)
    (hs : step uninit s e = some s') : Unwritten t s₀ s' := by
  refine ⟨fun b hb ho => ?_, fun b hb ho => ?_⟩
  · obtain ⟨ho', hrings | hrings⟩ := other_rings howned hby hs ho
    · rw [hrings]
      exact h.old b hb ho'
    · obtain ⟨hmem, htail, -⟩ := pop_keeps (s.rings b)
      rw [hrings, hmem, htail]
      exact h.old b hb ho'
  · obtain ⟨ho', hrings | hrings⟩ := other_rings howned hby hs ho
    · rw [hrings]
      exact h.new b hb ho'
    · rw [hrings, (pop_keeps (s.rings b)).2.1]
      exact h.new b hb ho'

omit [Target] in
/-- A ring that the queue has grown to is empty. -/
theorem Unwritten.create (h : Unwritten t s₀ s) (hle : s₀.created ≤ s.created) {r : Ring}
    (hr : r.tail = 0) (block : ℕ) (mode : QueueMode) (req : Option Request) :
    Unwritten t s₀ ((s.dropProducer block).create t r mode req) := by
  have hne : ∀ b, b ≠ s.created → ((s.dropProducer block).create t r mode req).owner b = some t →
      s.owner b = some t ∧ ((s.dropProducer block).create t r mode req).rings b = s.rings b := by
    intro b hb ho
    simp only [State.create, State.dropProducer, Function.update_of_ne hb] at ho ⊢
    exact ⟨ho, trivial⟩
  refine ⟨fun b hb ho => ?_, fun b hb ho => ?_⟩
  · obtain ⟨ho', hrings⟩ := hne b (by omega) ho
    rw [hrings]
    exact h.old b hb ho'
  · rcases eq_or_ne b s.created with rfl | hb'
    · simpa [State.create, State.dropProducer] using hr
    · obtain ⟨ho', hrings⟩ := hne b hb' ho
      rw [hrings]
      exact h.new b hb ho'

/-! ### The stages of the loop -/

/-- An attempt on a ring with enough space, whose message the reader will find. -/
theorem Pushed.of_tryPush (hroom : HasRoom (s.rings b) (s.rings b).tail)
    (hfree : paddedSize req.length ≤ (s.rings b).freeSlots) (hlen : req.length < 2 ^ 32)
    (hnewest : ∀ b', s.owner b' = some t → b' ≤ b)
    (haccepted : ofThread t s.accepted = ofThread t s₀.accepted)
    (hn : n = req.calls (s.rings b)) :
    Pushed t req s₀ (s.tryPush t b .unboundedBlocking req) n := by
  obtain ⟨r, msg, hatt, hwrites, happ⟩ := req.attempt_spec hroom hfree
  have hheader : HeaderRoom (s.rings b) := by
    have hwhole := hroom.room
    have hsize : headerSize = 8 := rfl
    simp only [HeaderRoom]
    omega
  simp only [State.tryPush, hatt]
  refine ⟨hn.trans (req.calls_inBounds hfree hheader), msg, b, hwrites, ?_,
    Function.update_self .., hnewest, ?_⟩
  · rw [ofThread_append, ofThread_singleton, if_pos rfl, haccepted]
  · simp only [Function.update_self]
    exact (happ.endsWith_iff hroom (hwrites.length_eq ▸ hfree)).mpr (hwrites.length_eq ▸ hlen)

/-- Where a call stands that has not returned; it has at most `m` steps yet to take, and it will
succeed when `accepts`. -/
inductive Stage (accepts : Prop) (req : Request) (rings : ℕ → Ring) (m : ℕ) : Thread → Prop
  | full {b : ℕ} (hiff : accepts ↔ 0 < (rings b).capacity ∧ (rings b).capacity < maxBlockCapacity ∧
      paddedSize req.length ≤ maxBlockCapacity)
    (hm : 3 * (maxBlockCapacity - (rings b).capacity) + 1 ≤ m) :
    Stage accepts req rings m (.full b req)
  | registering {b : ℕ} {mode : QueueMode} (hfresh : Fresh (rings b))
    (hiff : accepts ↔ paddedSize req.length ≤ maxBlockCapacity)
    (hm : 3 * (maxBlockCapacity - (rings b).capacity) + 3 ≤ m) :
    Stage accepts req rings m (.registering b mode (some req))
  | retrying {b : ℕ} (hfresh : Fresh (rings b))
    (hiff : accepts ↔ paddedSize req.length ≤ maxBlockCapacity)
    (hm : 3 * (maxBlockCapacity - (rings b).capacity) + 2 ≤ m) :
    Stage accepts req rings m (.retrying b req)

/-- A call that has not returned after `k` of its steps and `n` calls of its closure. -/
structure Underway (t : τ) (b₀ : ℕ) (req : Request) (s₀ : State τ) (k n : ℕ) (s : State τ) :
    Prop where
  calls_eq : n = 0
  accepted : ofThread t s.accepted = ofThread t s₀.accepted
  unwritten : Unwritten t s₀ s
  stage : ∃ m, Stage (Accepts (s₀.rings b₀) req) req s.rings m (s.threads t) ∧
    k + m ≤ 3 * maxBlockCapacity + 2

/-- A call that has returned. -/
structure Ended (t : τ) (b₀ : ℕ) (req : Request) (s₀ : State τ) (k n : ℕ) (s : State τ) :
    Prop where
  ready : ∃ b, s.threads t = .ready b .unboundedBlocking
  pushed : Accepts (s₀.rings b₀) req → Pushed t req s₀ s n
  refused : ¬ Accepts (s₀.rings b₀) req → Refused t s₀ s n
  bounded : k ≤ 3 * maxBlockCapacity + 2

omit [Target] in
theorem Stage.calling {accepts : Prop} {rings : ℕ → Ring} {m : ℕ} {thread : Thread}
    (h : Stage accepts req rings m thread) : thread.Calling := by
  cases h <;> trivial

theorem Pushed.ready (h : Pushed t req s₀ s n) :
    ∃ b, s.threads t = .ready b .unboundedBlocking := by
  obtain ⟨msg, b, -, -, hready, -⟩ := h.message
  exact ⟨b, hready⟩

/-- An attempt in unbounded mode after `k` steps, on a ring that the call has found or has grown
to: it ends the call, or leaves it with a full ring. -/
theorem tryPush_stage {b₀ m : ℕ} (hwithin : Within (s.rings b))
    (hnewest : ∀ b', s.owner b' = some t → b' ≤ b)
    (haccepted : ofThread t s.accepted = ofThread t s₀.accepted) (hunwritten : Unwritten t s₀ s)
    (hreadable : Readable (s.rings b) req) (hn : n = req.calls (s.rings b))
    (hfit : paddedSize req.length ≤ (s.rings b).freeSlots → Accepts (s₀.rings b₀) req)
    (hfull : ¬ paddedSize req.length ≤ (s.rings b).freeSlots →
      Stage (Accepts (s₀.rings b₀) req) req s.rings m (.full b req))
    (hk : k + m ≤ 3 * maxBlockCapacity + 2) :
    Underway t b₀ req s₀ k n (s.tryPush t b .unboundedBlocking req) ∨
      Ended t b₀ req s₀ k n (s.tryPush t b .unboundedBlocking req) := by
  by_cases hfree : paddedSize req.length ≤ (s.rings b).freeSlots
  · obtain ⟨hroom, hlen⟩ := hreadable hfree
    have hpushed : Pushed t req s₀ (s.tryPush t b .unboundedBlocking req) n :=
      .of_tryPush ⟨hroom, hwithin.head_le, hwithin.tail_le⟩ hfree hlen hnewest haccepted hn
    exact .inr ⟨hpushed.ready, fun _ => hpushed, fun h => absurd (hfit hfree) h, by omega⟩
  · rw [tryPush_full hfree]
    refine .inl ⟨hn.trans (req.calls_full hfree), haccepted,
      ⟨hunwritten.old, hunwritten.new⟩, m, ?_, hk⟩
    simp only [State.setThread, Function.update_self]
    exact hfull hfree

/-- A step of another thread or of a poll does not move the call. -/
theorem Underway.other {b₀ : ℕ} (h : Underway t b₀ req s₀ k n s) (howned : Owned s)
    (hby : ¬ e.By t) (hs : step uninit s e = some s') : Underway t b₀ req s₀ k n s' := by
  obtain ⟨m, hstage, hm⟩ := h.stage
  have hother := fun b hb => other_keeps (b := b) howned hb hby hs
  suffices hmoved : ofThread t s'.accepted = ofThread t s.accepted ∧
      Stage (Accepts (s₀.rings b₀) req) req s'.rings m (s'.threads t) from
    ⟨h.calls_eq, hmoved.1.trans h.accepted, h.unwritten.other howned hby hs, m, hmoved.2, hm⟩
  generalize s.threads t = thread at hstage hother
  cases hstage with
  | @full b hiff hm =>
    obtain ⟨hthread, haccepted, hcap, -⟩ := hother b rfl
    rw [hthread]
    exact ⟨haccepted, .full (hcap ▸ hiff) (hcap ▸ hm)⟩
  | @registering b mode hf hiff hm =>
    obtain ⟨hthread, haccepted, -, hsame⟩ := hother b rfl
    rw [hthread]
    exact ⟨haccepted, .registering (by rwa [hsame hf]) hiff (by rwa [hsame hf])⟩
  | @retrying b hf hiff hm =>
    obtain ⟨hthread, haccepted, -, hsame⟩ := hother b rfl
    rw [hthread]
    exact ⟨haccepted, .retrying (by rwa [hsame hf]) hiff (by rwa [hsame hf])⟩

omit [Target] in
/-- In a ring that the queue has grown to, every message that fits can be read. -/
theorem Fresh.readable {r : Ring} (h : Fresh r) : Readable r req := by
  intro hfree
  have hle := h.capacity_le
  have hpad := le_paddedSize req.length
  have hsize : headerSize = 8 := rfl
  rw [h.freeSlots_eq] at hfree
  refine ⟨?_, length_lt_of_free hle (by rwa [h.freeSlots_eq])⟩
  rw [h.tail_eq, Nat.zero_mod]
  omega

/-- A step of the call itself: it grows the queue or gives up, registers the new ring, or tries
again. -/
theorem Underway.own {b₀ : ℕ} (h : Underway t b₀ req s₀ k n s) (hnewest : Newest s)
    (hle : s₀.created ≤ s.created) (hby : e.By t)
    (hs : step uninit s e = some s') :
    Underway t b₀ req s₀ (k + 1) (n + calls s e) s' ∨
      Ended t b₀ req s₀ (k + 1) (n + calls s e) s' := by
  obtain ⟨m, hstage, hbound⟩ := h.stage
  have hn := h.calls_eq
  generalize ht : s.threads t = thread at hstage
  cases hstage with
  | @full b hiff hm =>
    -- the only step of a thread whose ring is full is to grow the queue
    cases e <;> cases hby <;> simp only [step, ht, reduceCtorEq] at hs
    have hcalls : n + calls s (.grow t) = 0 := by rw [hn]; rfl
    rw [hcalls]
    by_cases hgrows : 0 < (s.rings b).capacity ∧ (s.rings b).capacity < maxBlockCapacity
    · obtain ⟨r, hgrow, hfresh, hcap⟩ := grow_of_lt hgrows.1 hgrows.2 (uninit s.created)
      simp only [hgrow, Option.some.injEq] at hs
      subst hs
      have hring : ((s.dropProducer b).create t r .unboundedBlocking (some req)).rings s.created =
          r := Function.update_self ..
      have hthread : ((s.dropProducer b).create t r .unboundedBlocking (some req)).threads t =
          .registering s.created .unboundedBlocking (some req) := Function.update_self ..
      have hcapLe := hfresh.capacity_le
      refine .inl ⟨rfl, h.accepted, h.unwritten.create hle hfresh.tail_eq b _ _,
        3 * (maxBlockCapacity - r.capacity) + 3, ?_, by omega⟩
      rw [hthread]
      refine .registering (by rwa [hring]) (hiff.trans ?_) (by rw [hring])
      exact ⟨fun hyes => hyes.2.2, fun hsize => ⟨hgrows.1, hgrows.2, hsize⟩⟩
    · simp only [grow_eq_none hgrows (uninit s.created), Option.some.injEq] at hs
      subst hs
      have hready : (s.setThread t (.ready b .unboundedBlocking)).threads t =
          .ready b .unboundedBlocking := Function.update_self ..
      have hno : ¬ Accepts (s₀.rings b₀) req :=
        fun hyes => hgrows ⟨(hiff.mp hyes).1, (hiff.mp hyes).2.1⟩
      exact .inr ⟨⟨b, hready⟩, fun hyes => absurd hyes hno, fun _ => ⟨rfl, ⟨b, hready⟩, h.accepted,
        ⟨h.unwritten.old, h.unwritten.new⟩⟩, by omega⟩
  | @registering b mode hf hiff hm =>
    -- it registers the new ring and keeps the request for the retry
    cases e <;> cases hby <;> simp only [step, ht, reduceCtorEq] at hs
    split at hs
    · next block mode' req' _ heq hpoll =>
      cases heq
      cases hs
      have hcalls : n + calls s (.register t) = 0 := by rw [hn]; rfl
      refine .inl ⟨hcalls, h.accepted, ⟨h.unwritten.old, h.unwritten.new⟩, m - 1, ?_, by omega⟩
      simp only [State.setThread, Function.update_self]
      exact .retrying hf hiff (by omega)
    · cases hs
  | @retrying b hf hiff hm =>
    -- the retry goes into an empty ring, where only a request that is too long is refused
    cases e <;> cases hby <;> simp only [step, ht, reduceCtorEq, Option.some.injEq] at hs
    subst hs
    have hfree := hf.freeSlots_eq
    have hcapLe := hf.capacity_le
    have hpos := hf.capacity_pos
    have hcalls : n + calls s (.retry t) = req.calls (s.rings b) := by
      simp only [hn, calls, ht, Nat.zero_add]
    refine tryPush_stage (m := m - 1) ⟨?_, ?_⟩ (fun b' => hnewest t b b' (by rw [ht]; rfl))
      h.accepted h.unwritten hf.readable hcalls (fun hfit => hiff.mpr (by omega)) (fun hfit => ?_)
      (by omega)
    · rw [hf.head_eq, hf.tail_eq]
    · rw [hf.head_eq, hf.tail_eq]
      omega
    · have hgrows : paddedSize req.length ≤ maxBlockCapacity →
          (s.rings b).capacity < maxBlockCapacity := fun hsize => by omega
      exact .full (hiff.trans ⟨fun hsize => ⟨hpos, hgrows hsize, hsize⟩, fun h => h.2.2⟩) (by omega)

/-- A call that has not returned can go on, unless it waits for the registry lock. -/
theorem Underway.progress {b₀ : ℕ} (h : Underway t b₀ req s₀ k n s) (hpoll : s.poll = none) :
    ∃ e s', e.By t ∧ step uninit s e = some s' := by
  obtain ⟨m, hstage, -⟩ := h.stage
  generalize ht : s.threads t = thread at hstage
  cases hstage with
  | @full b hiff hm =>
    rcases hgrow : SpscProducer.grow (s.rings b) (uninit s.created) with _ | r
    · exact ⟨.grow t, _, rfl, by simp only [step, ht, hgrow]; rfl⟩
    · exact ⟨.grow t, _, rfl, by simp only [step, ht, hgrow]; rfl⟩
  | @registering b mode hf hiff hm =>
    exact ⟨.register t, _, rfl, by simp only [step, ht, hpoll]; rfl⟩
  | @retrying b hf hiff hm => exact ⟨.retry t, _, rfl, by simp only [step, ht]; rfl⟩

/-! ### Whole calls -/

/-- A call is a part of a run. -/
theorem Counted.reach (h : Counted uninit t req s₀ k n s) :
    (step uninit).Reach (fun _ _ => True) s₀ s := by
  induction h with
  | start hs => exact .step .refl trivial hs
  | own _ _ _ hs ih => exact .step ih trivial hs
  | other _ _ _ hs ih => exact .step ih trivial hs

/-- Calls with their closures counted are the calls of `Call`. -/
theorem call_iff_counted : Call uninit t req s₀ k s ↔ ∃ n, Counted uninit t req s₀ k n s := by
  constructor
  · intro h
    induction h with
    | start hs => exact ⟨_, .start hs⟩
    | own _ hcalling hby hs ih =>
      obtain ⟨n, hcounted⟩ := ih
      exact ⟨_, .own hcounted hcalling hby hs⟩
    | other _ hcalling hby hs ih =>
      obtain ⟨n, hcounted⟩ := ih
      exact ⟨_, .other hcounted hcalling hby hs⟩
  · rintro ⟨n, h⟩
    induction h with
    | start hs => exact .start hs
    | own _ hcalling hby hs ih => exact .own ih hcalling hby hs
    | other _ hcalling hby hs ih => exact .other ih hcalling hby hs

/-- A call whose message is readable is underway or has ended after any of its steps. -/
theorem Counted.underway (hcounted : Counted uninit t req s₀ k n s)
    (hreach : (step uninit).Reach (fun _ _ => True) init s₀)
    (ht : s₀.threads t = .ready b .unboundedBlocking) (hreadable : Readable (s₀.rings b) req) :
    Underway t b req s₀ k n s ∨ Ended t b req s₀ k n s := by
  have howned := owned_of_reach hreach
  induction hcounted with
  | start hs =>
    simp only [step, ht, Option.some.injEq] at hs
    subst hs
    have hcalls : calls s₀ (.attempt t req) = req.calls (s₀.rings b) := by simp only [calls, ht]
    refine tryPush_stage (m := 3 * (maxBlockCapacity - (s₀.rings b).capacity) + 1)
      (within_of_reach hreach b) (fun b' => newest_of_reach hreach t b b' (by rw [ht]; rfl)) rfl
      (.refl howned) hreadable hcalls .inl (fun hfree => ?_) (by omega)
    exact .full ⟨fun h => h.resolve_left hfree, .inr⟩ le_rfl
  | own hcall hcalling hby hs ih =>
    have hreach' := hreach.trans hcall.reach
    rcases ih with h | h
    · obtain ⟨added, hsince⟩ :=
        registeredSince_of_reach (t := t) howned (by rw [ht]; rfl) hcall.reach
      exact h.own (newest_of_reach hreach') hsince.created_le hby hs
    · obtain ⟨b', hready⟩ := h.ready
      rw [hready] at hcalling
      exact hcalling.elim
  | other hcall hcalling hby hs ih =>
    rcases ih with h | h
    · exact .inl (h.other (owned_of_reach (hreach.trans hcall.reach)) hby hs)
    · obtain ⟨b', hready⟩ := h.ready
      rw [hready] at hcalling
      exact hcalling.elim

/-- A call whose message fits the ring that it finds, but would not be readable there, is not
exact. -/
theorem Exact.readable (h : Exact uninit t b req s₀)
    (hreach : (step uninit).Reach (fun _ _ => True) init s₀)
    (ht : s₀.threads t = .ready b .unboundedBlocking) : Readable (s₀.rings b) req := by
  intro hfree
  have hwithin := within_of_reach hreach b
  have hcall : Counted uninit t req s₀ 1 (calls s₀ (.attempt t req))
      (s₀.tryPush t b .unboundedBlocking req) := .start (by simp only [step, ht])
  by_cases hroom : HeaderRoom (s₀.rings b)
  · obtain ⟨r, msg, hatt, hwrites, hext⟩ := req.attempt_inBounds hfree hroom
    have hlength := hwrites.length_eq
    rw [← hlength] at hext hfree
    have hthread : (s₀.tryPush t b .unboundedBlocking req).threads t =
        .ready b .unboundedBlocking := by simp [State.tryPush, hatt]
    obtain ⟨msg', b', -, haccepted, hready, -, hends⟩ :=
      (h.pushed _ _ _ hcall (by rw [hthread]; exact id) (.inl (hlength ▸ hfree))).message
    -- the message that the call accepts is the one that the attempt wrote
    rw [hthread] at hready
    cases hready
    simp only [State.tryPush, hatt, ofThread_append, ofThread_singleton, if_pos,
      List.append_cancel_left_eq, List.cons.injEq, and_true, Function.update_self]
      at haccepted hends
    subst haccepted
    by_cases hwhole : headerSize ≤ (s₀.rings b).capacity - (s₀.rings b).tail % (s₀.rings b).capacity
    · have hroom' : HasRoom (s₀.rings b) (s₀.rings b).tail :=
        ⟨hwhole, hwithin.head_le, hwithin.tail_le⟩
      obtain ⟨r', msg', hatt', -, happ⟩ := req.attempt_spec hroom' (hlength ▸ hfree)
      rw [hatt] at hatt'
      cases hatt'
      exact ⟨hwhole, hlength ▸ (happ.endsWith_iff hroom' hfree).mp hends⟩
    · exact absurd hends (hext.not_endsWith hwhole)
  · -- the write leaves its chunk, and the call does not accept anything
    have htry : s₀.tryPush t b .unboundedBlocking req = { s₀ with faulted := true } := by
      simp only [State.tryPush, req.attempt_outOfBounds hfree hroom]
    rw [htry] at hcall
    obtain ⟨msg, b', -, haccepted, -⟩ :=
      (h.pushed _ _ _ hcall (by rw [ht]; exact id) (.inl hfree)).message
    simp at haccepted

/-- The retry loop does all that it should exactly when its message is readable wherever it fits the
ring that the call finds. No attempt of the call overflows. -/
theorem exact_iff (mode : OnOverflow) (uninit : ℕ → ℕ → UInt8) {s₀ : State τ}
    (hreach : (step uninit).Reach (fun _ _ => True) init s₀) {t : τ} {b : ℕ}
    (ht : s₀.threads t = .ready b .unboundedBlocking) {req : Request}
    (hsize : req.length < usizeRange / 2) :
    (∀ r, req.attemptUsize mode r = (req.attempt r).map .returned) ∧
      (Exact uninit t b req s₀ ↔ Readable (s₀.rings b) req) := by
  refine ⟨Request.attemptUsize_of_lt hsize mode, fun h => h.readable hreach ht,
    fun hreadable => ?_⟩
  have hended : ∀ {k n s}, Counted uninit t req s₀ k n s → ¬ (s.threads t).Calling →
      Ended t b req s₀ k n s := by
    intro k n s hcall hreturned
    rcases hcall.underway hreach ht hreadable with h | h
    · obtain ⟨m, hstage, -⟩ := h.stage
      exact absurd hstage.calling hreturned
    · exact h
  refine
    { bounded := ⟨3 * maxBlockCapacity + 2, fun k n s hcall => ?_⟩
      progress := fun k n s hcall hcalling hpoll => ?_
      pushed := fun k n s hcall hreturned => (hended hcall hreturned).pushed
      refused := fun k n s hcall hreturned => (hended hcall hreturned).refused
      registered := fun k n s hcall hreturned => ?_ }
  · rcases hcall.underway hreach ht hreadable with ⟨-, -, -, m, -, hm⟩ | h
    · omega
    · exact h.bounded
  · rcases hcall.underway hreach ht hreadable with h | h
    · exact h.progress hpoll
    · obtain ⟨b', hready⟩ := h.ready
      rw [hready] at hcalling
      exact hcalling.elim
  · obtain ⟨added, hsince⟩ :=
      registeredSince_of_reach (t := t) (owned_of_reach hreach) (by rw [ht]; rfl) hcall.reach
    obtain ⟨b', hready⟩ := (hended hcall hreturned).ready
    have hnone : (s.threads t).unregistered = [] := by rw [hready]; rfl
    have hadded := hsince.added_eq
    rw [hnone, List.append_nil] at hadded
    exact ⟨added, hsince, hadded⟩

end

instance (r : Ring) (req : Request) : Decidable (Readable r req) :=
  inferInstanceAs (Decidable (_ → _ ∧ _))

/-- A closure that fills its buffer with sevens. -/
def sevens : EncodeFn Unit where
  run buf := (buf.map fun _ => 7, ())
  length_run _ := List.length_map ..

omit [Target] in
/-- The ring of 64 slots is full, and the queue grows for a second message. -/
theorem exact_iff_full :
    letI : Target := x86_64
    ∃ s : State Unit, (step fun _ _ => 0).run init (startUnbounded 64) = some s ∧
      (s.rings 1).freeSlots = 0 ∧ Exact (fun _ _ => 0) () 1 (.pushEncoded 3 sevens) s := by
  let _ : Target := x86_64
  have hrun : ((step fun _ _ => 0).run (init : State Unit) (startUnbounded 64)).map (fun s =>
      decide ((s.threads ()).ready? = some (1, .unboundedBlocking) ∧ (s.rings 1).freeSlots = 0 ∧
        Readable (s.rings 1) (.pushEncoded 3 sevens))) = some true := by
    decide +kernel
  obtain ⟨s, hs, hs'⟩ := Option.map_eq_some_iff.mp hrun
  obtain ⟨hready, hfree, hreadable⟩ := of_decide_eq_true hs'
  have hsize : Request.length (.pushEncoded 3 sevens) < usizeRange / 2 := by decide
  have hexact := exact_iff .wraps _ (.of_run (fun _ _ _ => trivial) hs) (eq_ready hready) hsize
  exact ⟨s, hs, hfree, hexact.2.mpr hreadable⟩

/-- A thread asks for unbounded mode with 68 slots and pushes one message, which a poll takes. -/
def startNearEnd : List (Event Unit) :=
  startUnbounded 68 ++ [.pollBegin 0, .pollStep, .pollStep, .pollStep, .pollStep, .pollStep]

omit [Target] in
/-- In the ring of 68 slots, the next message begins four slots before the physical end: the call
returns `Ok`, and the reader never gets to the message. -/
theorem exact_fails_near_end :
    letI : Target := x86_64
    ∃ s : State Unit, (step fun _ _ => 0).Reach (fun _ _ => True) init s ∧
      (∃ b, s.threads () = .ready b .unboundedBlocking ∧ (s.rings b).capacity = 68 ∧
        (s.rings b).freeSlots = 68 ∧ ¬ Exact (fun _ _ => 0) () b (.push [2]) s) := by
  let _ : Target := x86_64
  have hrun : ((step fun _ _ => 0).run (init : State Unit) startNearEnd).map (fun s =>
      decide ((s.threads ()).ready? = some (1, .unboundedBlocking) ∧ (s.rings 1).capacity = 68 ∧
        (s.rings 1).freeSlots = 68 ∧ ¬ Readable (s.rings 1) (.push [2]))) = some true := by
    decide +kernel
  obtain ⟨s, hs, hs'⟩ := Option.map_eq_some_iff.mp hrun
  obtain ⟨hready, hcap, hfree, hreadable⟩ := of_decide_eq_true hs'
  have hreach : (step fun _ _ => 0).Reach (fun _ _ => True) init s :=
    .of_run (fun _ _ _ => trivial) hs
  exact ⟨s, hreach, 1, eq_ready hready, hcap, hfree,
    fun h => hreadable (h.readable hreach (eq_ready hready))⟩

end ThreadContext

end RapidLog
