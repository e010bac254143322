import Mathlib.Logic.Function.Basic
import RapidLog.Lib.Transition
import RapidLog.Queue.Framing

/-!
# Thread contexts and the consumer registry

`thread_context.rs`: every thread owns the producer of one ring at a time and the consumers of all
rings stand in one registry behind a lock. A thread replaces its ring when it grows the queue or
asks for another capacity: it drops the producer, which marks the consumer of the old ring as
abandoned, and registers the consumer of a new one at the end of the registry. A poll holds the
lock, drains the registered rings one after the other and removes the abandoned empty ones.

`step` interleaves the threads with one another and with the polls. One event is one step that
another thread can observe: an attempt to push, a single `pop`, a test of `is_abandoned` or
`is_empty`, the dropping of a producer, the registration of a consumer. The latter two are
different events, since registering waits for the lock.
-/

namespace RapidLog

open Queue RingBuffer

variable [Target] {τ : Type} [DecidableEq τ]

/-- What a thread asks the queue to accept: bytes to copy, or a closure that writes them. -/
inductive Request
  | push (data : List UInt8)
  | pushEncoded (totalMsg : ℕ) (encode : EncodeFn Unit)

/-- The length of the message. -/
def Request.length : Request → ℕ
  | push data => data.length
  | pushEncoded totalMsg _ => totalMsg

/-- One attempt on a ring; when it succeeds, the ring with the message and the message itself. -/
def Request.attempt (r : Ring) : Request → Option (Except PushError (Ring × List UInt8))
  | push data => (SpscProducer.push r data).map (Except.map fun r => (r, data))
  | pushEncoded totalMsg encode =>
    (SpscProducer.pushEncoded r totalMsg encode.echo).map (Except.map fun (r, msg, _) => (r, msg))

/-- Where a thread stands between two of its steps. -/
inductive Thread
  /-- The thread has not touched its thread-local context yet. -/
  | unstarted
  | ready (block : ℕ) (mode : QueueMode)
  /-- An attempt in unbounded mode has failed; the queue is about to grow. -/
  | full (block : ℕ) (req : Request)
  /-- The thread has created a ring and waits for the registry lock. -/
  | registering (block : ℕ) (mode : QueueMode) (req : Option Request)
  /-- The queue has grown; the thread is about to try again. -/
  | retrying (block : ℕ) (req : Request)
  | exited

/-- Where `poll_all_registered_queues` stands at one consumer. -/
inductive PollPhase
  /-- In the `pop` loop of `pop_all`. -/
  | popping
  | checkAbandoned
  | checkEmpty
  deriving DecidableEq, Repr

/-- A poll in progress. -/
structure Poll (τ : Type) where
  /-- Which caller holds the registry lock. -/
  poller : ℕ
  index : ℕ
  phase : PollPhase
  /-- `all_msgs`, each message with the thread whose ring it came from. -/
  allMsgs : List (Option τ × List UInt8)

namespace ThreadContext

/-- The rings, the registry and the threads. Rings are numbered in the order of their creation. -/
structure State (τ : Type) where
  rings : ℕ → Ring
  /-- The producer of the ring has been dropped: `is_abandoned()`. -/
  abandoned : ℕ → Bool
  /-- The thread that created the ring, `none` for one that does not exist yet. -/
  owner : ℕ → Option τ
  created : ℕ
  /-- `CONSUMER_REGISTRY`: the rings whose consumers it holds. -/
  registry : List ℕ
  /-- The rings whose consumers have been removed from the registry. -/
  removed : List ℕ
  /-- The poll that holds the registry lock. -/
  poll : Option (Poll τ)
  threads : τ → Thread
  /-- The messages whose push returned `Ok`, in that order. -/
  accepted : List (Option τ × List UInt8)
  /-- The concatenation of the results of all polls that have returned. -/
  polled : List (Option τ × List UInt8)
  /-- Some write left the slices that were reserved for it. -/
  faulted : Bool

inductive Event (τ : Type)
  /-- First use of the thread-local context: `ThreadContext::new()` creates its ring. -/
  | access (t : τ)
  /-- Push the consumer of a new ring into the registry. -/
  | register (t : τ)
  | attempt (t : τ) (req : Request)
  | retry (t : τ)
  | grow (t : τ)
  | initWithMode (t : τ) (mode : QueueMode) (startCapacity : ℕ)
  /-- The thread ends and its context is dropped. -/
  | exit (t : τ)
  | pollBegin (poller : ℕ)
  | pollStep
  | pollEnd

/-- No thread has started and the registry is empty. -/
def init : State τ where
  rings _ := createQueue 0 fun _ => 0
  abandoned _ := false
  owner _ := none
  created := 0
  registry := []
  removed := []
  poll := none
  threads _ := .unstarted
  accepted := []
  polled := []
  faulted := false

namespace State

/-- The thread moves on. -/
def setThread (s : State τ) (t : τ) (thread : Thread) : State τ :=
  { s with threads := Function.update s.threads t thread }

/-- The producer of the ring is dropped. -/
def dropProducer (s : State τ) (block : ℕ) : State τ :=
  { s with abandoned := Function.update s.abandoned block true }

/-- The thread creates a ring and is about to register its consumer. -/
def create (s : State τ) (t : τ) (r : Ring) (mode : QueueMode) (req : Option Request) : State τ :=
  { s with
    rings := Function.update s.rings s.created r
    abandoned := Function.update s.abandoned s.created false
    owner := Function.update s.owner s.created (some t)
    created := s.created + 1
    threads := Function.update s.threads t (.registering s.created mode req) }

/-- An attempt to push into the thread's ring. -/
def tryPush (s : State τ) (t : τ) (block : ℕ) (mode : QueueMode) (req : Request) : State τ :=
  match req.attempt (s.rings block) with
  | none => { s with faulted := true }
  | some (.ok (r, msg)) =>
    { s with
      rings := Function.update s.rings block r
      threads := Function.update s.threads t (.ready block mode)
      accepted := s.accepted ++ [(some t, msg)] }
  | some (.error .full) =>
    match mode with
    -- the message is dropped
    | .boundedDropping => s.setThread t (.ready block mode)
    | .unboundedBlocking => s.setThread t (.full block req)

/-- One step of a poll at the consumer of `block`. -/
def pollAt (s : State τ) (p : Poll τ) (block : ℕ) : State τ :=
  match p.phase with
  | .popping =>
    match SpscConsumer.pop (s.rings block) with
    | (some msg, r) =>
      { s with
        rings := Function.update s.rings block r
        poll := some { p with allMsgs := p.allMsgs ++ [(s.owner block, msg)] } }
    -- the `pop` loop is over
    | (none, r) =>
      { s with
        rings := Function.update s.rings block r
        poll := some { p with phase := .checkAbandoned } }
  | .checkAbandoned =>
    if s.abandoned block then
      { s with poll := some { p with phase := .checkEmpty } }
    else
      -- `&&` does not look at the ring of a producer that is alive
      { s with poll := some { p with index := p.index + 1, phase := .popping } }
  | .checkEmpty =>
    if SpscConsumer.isEmpty (s.rings block) then
      -- `registry.remove(i)`, after which `i` is the index of the next consumer
      { s with
        registry := s.registry.eraseIdx p.index
        removed := s.removed ++ [block]
        poll := some { p with phase := .popping } }
    else
      { s with poll := some { p with index := p.index + 1, phase := .popping } }

end State

/-- One step of a thread or of the poll that holds the lock; `uninit` is what the memory of a new
ring holds. -/
def step (uninit : ℕ → ℕ → UInt8) : Machine (State τ) (Event τ)
  | s, .access t =>
    match s.threads t with
    | .unstarted =>
      some (s.create t (createQueue defaultStartCapacity (uninit s.created)) .boundedDropping none)
    | _ => none
  | s, .register t =>
    match s.threads t, s.poll with
    -- the lock is free
    | .registering block mode req, none =>
      let thread := match req with
        | none => .ready block mode
        | some req => .retrying block req
      some { s.setThread t thread with registry := s.registry ++ [block] }
    | _, _ => none
  | s, .attempt t req =>
    match s.threads t with
    | .ready block mode => some (s.tryPush t block mode req)
    | _ => none
  | s, .retry t =>
    match s.threads t with
    | .retrying block req => some (s.tryPush t block .unboundedBlocking req)
    | _ => none
  | s, .grow t =>
    match s.threads t with
    | .full block req =>
      match SpscProducer.grow (s.rings block) (uninit s.created) with
      -- at the block limit the push returns `Full` after all
      | none => some (s.setThread t (.ready block .unboundedBlocking))
      | some r => some ((s.dropProducer block).create t r .unboundedBlocking (some req))
    | _ => none
  | s, .initWithMode t mode startCapacity =>
    match s.threads t with
    | .ready block _ =>
      -- only another capacity replaces the context, the mode alone does not
      if SpscProducer.capacity (s.rings block) ≠ startCapacity then
        some ((s.dropProducer block).create t (createQueue startCapacity (uninit s.created)) mode
          none)
      else
        some (s.setThread t (.ready block mode))
    | _ => none
  | s, .exit t =>
    match s.threads t with
    | .unstarted => some (s.setThread t .exited)
    | .ready block _ => some ((s.dropProducer block).setThread t .exited)
    | _ => none
  | s, .pollBegin poller =>
    match s.poll with
    | none => some { s with poll := some { poller, index := 0, phase := .popping, allMsgs := [] } }
    | some _ => none
  | s, .pollStep =>
    match s.poll with
    | some p => (s.registry[p.index]?).map (s.pollAt p)
    | none => none
  | s, .pollEnd =>
    match s.poll with
    | some p =>
      -- `while i < registry.len()` is over
      if s.registry.length ≤ p.index then
        some { s with poll := none, polled := s.polled ++ p.allMsgs }
      else none
    | none => none

/-! ### The cases of a step -/

/-- The steps that are possible in `s`, each with its guard and the state that it leads to. -/
inductive StepCase (uninit : ℕ → ℕ → UInt8) (s : State τ) : Event τ → State τ → Prop
  | access {t} (ht : s.threads t = .unstarted) :
    StepCase uninit s (.access t)
      (s.create t (createQueue defaultStartCapacity (uninit s.created)) .boundedDropping none)
  | register {t block mode} (ht : s.threads t = .registering block mode none)
    (hpoll : s.poll = none) :
    StepCase uninit s (.register t)
      { s.setThread t (.ready block mode) with registry := s.registry ++ [block] }
  | registerGrown {t block mode req} (ht : s.threads t = .registering block mode (some req))
    (hpoll : s.poll = none) :
    StepCase uninit s (.register t)
      { s.setThread t (.retrying block req) with registry := s.registry ++ [block] }
  | attempt {t req block mode} (ht : s.threads t = .ready block mode) :
    StepCase uninit s (.attempt t req) (s.tryPush t block mode req)
  | retry {t req block} (ht : s.threads t = .retrying block req) :
    StepCase uninit s (.retry t) (s.tryPush t block .unboundedBlocking req)
  | atLimit {t block req} (ht : s.threads t = .full block req)
    (hgrow : SpscProducer.grow (s.rings block) (uninit s.created) = none) :
    StepCase uninit s (.grow t) (s.setThread t (.ready block .unboundedBlocking))
  | grow {t block req r} (ht : s.threads t = .full block req)
    (hgrow : SpscProducer.grow (s.rings block) (uninit s.created) = some r) :
    StepCase uninit s (.grow t)
      ((s.dropProducer block).create t r .unboundedBlocking (some req))
  | replace {t mode startCapacity block mode'} (ht : s.threads t = .ready block mode')
    (hcap : SpscProducer.capacity (s.rings block) ≠ startCapacity) :
    StepCase uninit s (.initWithMode t mode startCapacity)
      ((s.dropProducer block).create t (createQueue startCapacity (uninit s.created)) mode none)
  | setMode {t mode startCapacity block mode'} (ht : s.threads t = .ready block mode')
    (hcap : SpscProducer.capacity (s.rings block) = startCapacity) :
    StepCase uninit s (.initWithMode t mode startCapacity) (s.setThread t (.ready block mode))
  | exitUnstarted {t} (ht : s.threads t = .unstarted) :
    StepCase uninit s (.exit t) (s.setThread t .exited)
  | exit {t block mode} (ht : s.threads t = .ready block mode) :
    StepCase uninit s (.exit t) ((s.dropProducer block).setThread t .exited)
  | pollBegin {poller} (hpoll : s.poll = none) :
    StepCase uninit s (.pollBegin poller)
      { s with poll := some { poller, index := 0, phase := .popping, allMsgs := [] } }
  | pollStep {p block} (hp : s.poll = some p) (hb : s.registry[p.index]? = some block) :
    StepCase uninit s .pollStep (s.pollAt p block)
  | pollEnd {p} (hp : s.poll = some p) (hi : s.registry.length ≤ p.index) :
    StepCase uninit s .pollEnd { s with poll := none, polled := s.polled ++ p.allMsgs }

/-- Every step is one of these. -/
theorem step_cases {uninit : ℕ → ℕ → UInt8} {s s' : State τ} {e : Event τ}
    (hs : step uninit s e = some s') : StepCase uninit s e s' := by
  cases e with
  | access t =>
    simp only [step] at hs
    split at hs
    · next ht =>
      cases hs
      exact .access ht
    · cases hs
  | register t =>
    simp only [step] at hs
    split at hs
    · next block mode req ht hpoll =>
      cases hs
      cases req with
      | none => exact .register ht hpoll
      | some req => exact .registerGrown ht hpoll
    · cases hs
  | attempt t req =>
    simp only [step] at hs
    split at hs
    · next ht =>
      cases hs
      exact .attempt ht
    · cases hs
  | retry t =>
    simp only [step] at hs
    split at hs
    · next ht =>
      cases hs
      exact .retry ht
    · cases hs
  | grow t =>
    simp only [step] at hs
    split at hs
    · next ht =>
      split at hs
      · next hgrow =>
        cases hs
        exact .atLimit ht hgrow
      · next hgrow =>
        cases hs
        exact .grow ht hgrow
    · cases hs
  | initWithMode t mode startCapacity =>
    simp only [step] at hs
    split at hs
    · next ht =>
      split at hs
      · next hcap =>
        cases hs
        exact .replace ht hcap
      · next hcap =>
        cases hs
        exact .setMode ht (not_not.mp hcap)
    · cases hs
  | exit t =>
    simp only [step] at hs
    split at hs
    · next ht =>
      cases hs
      exact .exitUnstarted ht
    · next ht =>
      cases hs
      exact .exit ht
    · cases hs
  | pollBegin poller =>
    simp only [step] at hs
    split at hs
    · next hpoll =>
      cases hs
      exact .pollBegin hpoll
    · cases hs
  | pollStep =>
    simp only [step] at hs
    split at hs
    · next hp =>
      obtain ⟨block, hb, rfl⟩ := Option.map_eq_some_iff.mp hs
      exact .pollStep hp hb
    · cases hs
  | pollEnd =>
    simp only [step] at hs
    split at hs
    · next hp =>
      split at hs
      · next hi =>
        cases hs
        exact .pollEnd hp hi
      · cases hs
    · cases hs

/-- The messages of one thread, in order. -/
def ofThread (t : τ) (msgs : List (Option τ × List UInt8)) : List (List UInt8) :=
  (msgs.filter fun msg => msg.1 = some t).map Prod.snd

/-- `has_pending_messages`, which waits for the registry lock. -/
def hasPendingMessages (s : State τ) : Bool :=
  s.registry.any fun block => !SpscConsumer.isEmpty (s.rings block)

end ThreadContext

end RapidLog
