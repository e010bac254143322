import RapidLog.Queue.Framing

/-!
# The ring refines a bounded FIFO

The queue of `queue.rs` seen through its API is a first-in-first-out list of messages that charges
each message its padded size against the capacity. `QueueOp` is one call of the producer or of the
consumer, `runOps` replays an interleaving of calls on a ring, and `Fifo.run` replays the same calls
on the list; `runOps_refines` says that both give the same answers. Only the message of a call
matters to the list, so a message that was copied and one that a closure wrote cannot be told apart.

## Main results

* `step_refines`, `runOps_refines`: the ring simulates the list, call by call and over a run;
* `queue_lossless_fifo`: for a capacity that is a positive multiple of the cache line and at most
  the block limit, the popped messages are the accepted ones in order.
-/

namespace RapidLog

open Queue RingBuffer

variable [Target]

/-- One call on a queue. -/
inductive QueueOp
  | push (data : List UInt8)
  | pushEncoded (len : ℕ) (encode : EncodeFn Unit)
  | pop
  | popAll

/-- The answer to a call. -/
inductive QueueOut
  | pushed
  | rejected
  | popped (msg : Option (List UInt8))
  | poppedAll (msgs : List (List UInt8))
  deriving DecidableEq, Repr

/-- A closure that fills its buffer with `data` when the buffer has the right length. -/
def EncodeFn.fill (data : List UInt8) : EncodeFn Unit where
  run buf := (if buf.length = data.length then data else buf, ())
  length_run buf := by
    dsimp only
    split
    · next h => exact h.symm
    · rfl

omit [Target] in
theorem EncodeFn.fills_fill (data : List UInt8) : (EncodeFn.fill data).Fills data :=
  fun _ h => if_pos h

namespace QueueOp

/-- The closure of the call, if any, fills the whole buffer it is lent. -/
def Filling : QueueOp → Prop
  | pushEncoded len encode => ∃ data : List UInt8, data.length = len ∧ encode.Fills data
  | _ => True

/-- The message that the call offers to the queue. -/
def message : QueueOp → Option (List UInt8)
  | push data => some data
  | pushEncoded len encode => some (encode.run (List.replicate len 0)).1
  | _ => none

/-- Run one call on a ring; `none` when a write left the reserved slices. -/
def step (r : Ring) : QueueOp → Option (QueueOut × Ring)
  | push data => (SpscProducer.push r data).map fun
    | .ok r' => (.pushed, r')
    | .error _ => (.rejected, r)
  | pushEncoded len encode => (SpscProducer.pushEncoded r len encode).map fun
    | .ok (r', _) => (.pushed, r')
    | .error _ => (.rejected, r)
  | pop => some (.popped (SpscConsumer.pop r).1, (SpscConsumer.pop r).2)
  | popAll => some (.poppedAll (SpscConsumer.popAll r).1, (SpscConsumer.popAll r).2)

end QueueOp

/-- Replay an interleaving of calls on a ring. -/
def runOps (r : Ring) : List QueueOp → Option (List QueueOut × Ring)
  | [] => some ([], r)
  | op :: ops => do
    let (out, r) ← op.step r
    let (outs, r) ← runOps r ops
    return (out :: outs, r)

/-! ### The abstract queue -/

namespace Fifo

/-- What a call means to the abstract queue. -/
inductive Op
  | offer (msg : List UInt8)
  | pop
  | popAll
  deriving DecidableEq, Repr

/-- The slots that the queued messages occupy. -/
def used (queue : List (List UInt8)) : ℕ := (queue.map fun msg => paddedSize msg.length).sum

/-- One call on a queue of the given capacity. -/
def step (capacity : ℕ) (queue : List (List UInt8)) : Op → QueueOut × List (List UInt8)
  | .offer msg =>
    if paddedSize msg.length ≤ capacity - used queue then (.pushed, queue ++ [msg])
    else (.rejected, queue)
  | .pop => (.popped queue.head?, queue.tail)
  | .popAll => (.poppedAll queue, [])

/-- Replay an interleaving of calls. -/
def run (capacity : ℕ) (queue : List (List UInt8)) : List Op → List QueueOut × List (List UInt8)
  | [] => ([], queue)
  | op :: ops =>
    let (out, queue) := step capacity queue op
    let (outs, queue) := run capacity queue ops
    (out :: outs, queue)

/-- The messages that an answer hands out. -/
def handedOut : QueueOut → List (List UInt8)
  | .popped msg => msg.toList
  | .poppedAll msgs => msgs
  | _ => []

/-- The messages that the calls offered and the queue took. -/
def taken : List Op → List QueueOut → List (List UInt8)
  | .offer msg :: ops, .pushed :: outs => msg :: taken ops outs
  | _ :: ops, _ :: outs => taken ops outs
  | _, _ => []

omit [Target] in
/-- Conservation: what was queued and what was taken is what was handed out and what is left. -/
theorem run_conserves (capacity : ℕ) (queue : List (List UInt8)) (ops : List Op) :
    queue ++ taken ops (run capacity queue ops).1 =
      (run capacity queue ops).1.flatMap handedOut ++ (run capacity queue ops).2 := by
  induction ops generalizing queue with
  | nil => simp [run, taken]
  | cons op ops ih =>
    cases op with
    | offer msg =>
      simp only [run, step]
      split
      · simp only [taken, List.flatMap_cons, handedOut, List.nil_append, ← ih, List.append_assoc,
          List.singleton_append]
      · simp only [taken, List.flatMap_cons, handedOut, List.nil_append, ← ih]
    | pop =>
      cases queue with
      | nil => simp [run, step, taken, handedOut, ← ih]
      | cons msg queue => simp [run, step, taken, handedOut, ← ih]
    | popAll => simp [run, step, taken, handedOut, ← ih]

end Fifo

/-- The abstract call that a call on the ring stands for. -/
def QueueOp.abs : QueueOp → Fifo.Op
  | .push data => .offer data
  | .pushEncoded len encode => .offer (encode.run (List.replicate len 0)).1
  | .pop => .pop
  | .popAll => .popAll

/-! ### The simulation -/

/-- The filled slots are those of the held frames. -/
theorem used_of_frames {r : Ring} {p : ℕ} {msgs : List (List UInt8)} (h : Frames r p msgs) :
    p + Fifo.used msgs = r.tail := by
  induction msgs generalizing p with
  | nil => exact h
  | cons msg msgs ih =>
    have := ih h.2.2.2.2
    simp only [Fifo.used, List.map_cons, List.sum_cons] at this ⊢
    omega

/-- The free slots of a ring are its capacity less the slots of the held messages. -/
theorem freeSlots_of_holds {r : Ring} {msgs : List (List UInt8)} (h : Holds r msgs) :
    r.freeSlots = r.capacity - Fifo.used msgs := by
  have hused := used_of_frames h.frames
  simp only [freeSlots, slots]
  omega

/-- Every call on the ring gives the answer of the abstract queue and keeps the correspondence. -/
theorem step_refines {r : Ring} {queue : List (List UInt8)} (h : Holds r queue)
    (hmax : r.capacity ≤ maxBlockCapacity) {op : QueueOp} (hop : op.Filling) :
    ∃ r', op.step r = some ((Fifo.step r.capacity queue op.abs).1, r') ∧
      r'.capacity = r.capacity ∧ Holds r' (Fifo.step r.capacity queue op.abs).2 := by
  cases op with
  | push data =>
    simp only [QueueOp.step, QueueOp.abs, Fifo.step, ← freeSlots_of_holds h]
    split
    · next hfree =>
      obtain ⟨r', hpush, happ⟩ := push_spec h.aligned.hasRoom_tail hfree
      exact ⟨r', by rw [hpush]; rfl, happ.capacity_eq,
        h.appended happ hfree (length_lt_of_free hmax hfree)⟩
    · next hfull => exact ⟨r, by rw [push_full r hfull]; rfl, rfl, h⟩
  | pushEncoded len encode =>
    obtain ⟨data, rfl, hfill⟩ := hop
    have hzero := hfill (List.replicate data.length 0) (by simp)
    simp only [QueueOp.step, QueueOp.abs, Fifo.step, hzero, ← freeSlots_of_holds h]
    split
    · next hfree =>
      obtain ⟨buf, r', hbuf, hpush, happ⟩ := pushEncoded_spec h.aligned.hasRoom_tail encode hfree
      rw [hfill buf hbuf] at happ
      exact ⟨r', by rw [hpush]; rfl, happ.capacity_eq,
        h.appended happ hfree (length_lt_of_free hmax hfree)⟩
    · next hfull => exact ⟨r, by rw [pushEncoded_full r encode hfull]; rfl, rfl, h⟩
  | pop =>
    cases queue with
    | nil => exact ⟨r, by simp [QueueOp.step, QueueOp.abs, Fifo.step, pop_nil h], rfl, h⟩
    | cons msg queue =>
      obtain ⟨hpop, hrest⟩ := pop_cons h
      exact ⟨r.commitRead (paddedSize msg.length),
        by simp [QueueOp.step, QueueOp.abs, Fifo.step, hpop], rfl, hrest⟩
  | popAll =>
    obtain ⟨hall, hrest⟩ := popAll_holds h
    exact ⟨_, by simp [QueueOp.step, QueueOp.abs, Fifo.step, hall],
      SpscConsumer.capacity_popAll r, hrest⟩

/-- Every interleaving of calls on the ring gives the answers of the abstract queue. -/
theorem runOps_refines {r : Ring} {queue : List (List UInt8)} (h : Holds r queue)
    (hmax : r.capacity ≤ maxBlockCapacity) {ops : List QueueOp} (hops : ∀ op ∈ ops, op.Filling) :
    ∃ r', runOps r ops = some ((Fifo.run r.capacity queue (ops.map QueueOp.abs)).1, r') ∧
      Holds r' (Fifo.run r.capacity queue (ops.map QueueOp.abs)).2 := by
  induction ops generalizing r queue with
  | nil => exact ⟨r, rfl, h⟩
  | cons op ops ih =>
    obtain ⟨r₁, hstep, hcap, h₁⟩ := step_refines h hmax (hops op (by simp))
    obtain ⟨r₂, hrun, h₂⟩ := ih h₁ (by rw [hcap]; exact hmax) fun o ho => hops o (by simp [ho])
    rw [hcap] at hrun h₂
    refine ⟨r₂, ?_, h₂⟩
    simp only [runOps, hstep, Option.bind_eq_bind, Option.bind_some, hrun, List.map_cons, Fifo.run]
    rfl

/-- A rejected call leaves the ring as it was. -/
theorem step_rejected {r r' : Ring} {op : QueueOp} (h : op.step r = some (.rejected, r')) :
    r' = r := by
  cases op with
  | push data =>
    obtain ⟨res, -, hres⟩ := Option.map_eq_some_iff.mp h
    cases res <;> simp_all
  | pushEncoded len encode =>
    obtain ⟨res, -, hres⟩ := Option.map_eq_some_iff.mp h
    cases res <;> simp_all
  | pop => simp [QueueOp.step] at h
  | popAll => simp [QueueOp.step] at h

/-- A copied message is rejected exactly when its padded size exceeds the free slots. -/
theorem push_full_iff {r : Ring} (h : Aligned r) (data : List UInt8) :
    SpscProducer.push r data = some (.error .full) ↔
      r.freeSlots < alignUp (headerSize + data.length) cacheLine := by
  constructor
  · intro hfull
    by_contra hfree
    obtain ⟨r', hpush, -⟩ := push_spec h.hasRoom_tail (not_lt.mp hfree)
    rw [hpush] at hfull
    cases hfull
  · exact fun hlt => push_full r (not_le.mpr hlt)

/-- An encoded message is rejected exactly when its padded size exceeds the free slots. -/
theorem pushEncoded_full_iff {R : Type} {r : Ring} (h : Aligned r) (len : ℕ)
    (encode : EncodeFn R) :
    SpscProducer.pushEncoded r len encode = some (.error .full) ↔
      r.freeSlots < alignUp (headerSize + len) cacheLine := by
  constructor
  · intro hfull
    by_contra hfree
    obtain ⟨buf, r', -, hpush, -⟩ := pushEncoded_spec h.hasRoom_tail encode (not_lt.mp hfree)
    rw [hpush] at hfull
    cases hfull
  · exact fun hlt => pushEncoded_full r encode (not_le.mpr hlt)

/-- The ring as a lossless FIFO. Every interleaving `ops` of calls on a fresh ring, whatever its
slots held before, runs without leaving a reserved slice, and with its answers `outs`:

* the popped messages are the first of the accepted ones, in order;
* `pop` now finds nothing exactly when every accepted message has been popped;
* a push is rejected exactly when its padded size exceeds the free slots, and then the ring is
  unchanged;
* another interleaving that offers the same messages, copied or encoded, gets the same answers. -/
theorem queue_lossless_fifo {capacity : ℕ} (hpos : 0 < capacity) (hdvd : 64 ∣ capacity)
    (hmax : capacity ≤ maxBlockCapacity) (mem : ℕ → UInt8) {ops : List QueueOp}
    (hops : ∀ op ∈ ops, op.Filling) :
    ∃ outs r, runOps (createQueue capacity mem) ops = some (outs, r) ∧
      outs.flatMap Fifo.handedOut <+: Fifo.taken (ops.map QueueOp.abs) outs ∧
      ((SpscConsumer.pop r).1 = none ↔
        outs.flatMap Fifo.handedOut = Fifo.taken (ops.map QueueOp.abs) outs) ∧
      (∀ data, SpscProducer.push r data = some (.error .full) ↔
        r.freeSlots < alignUp (headerSize + data.length) cacheLine) ∧
      (∀ len (encode : EncodeFn Unit),
        SpscProducer.pushEncoded r len encode = some (.error .full) ↔
          r.freeSlots < alignUp (headerSize + len) cacheLine) ∧
      (∀ op r', QueueOp.step r op = some (.rejected, r') → r' = r) ∧
      ∀ (mem' : ℕ → UInt8) (ops' : List QueueOp), (∀ op ∈ ops', op.Filling) →
        ops'.map QueueOp.abs = ops.map QueueOp.abs →
          ∃ r', runOps (createQueue capacity mem') ops' = some (outs, r') := by
  have hfresh := holds_createQueue hpos hdvd
  obtain ⟨r, hrun, hr⟩ := runOps_refines (hfresh mem) hmax hops
  have hconserve := Fifo.run_conserves capacity [] (ops.map QueueOp.abs)
  rw [List.nil_append] at hconserve
  refine ⟨_, r, hrun, ⟨_, hconserve.symm⟩, ?_, fun data => push_full_iff hr.aligned data,
    fun len encode => pushEncoded_full_iff hr.aligned len encode, fun op r' => step_rejected, ?_⟩
  · change (SpscConsumer.pop r).1 = none ↔ (Fifo.run capacity [] (ops.map QueueOp.abs)).1.flatMap
      Fifo.handedOut = Fifo.taken (ops.map QueueOp.abs) (Fifo.run capacity [] _).1
    rw [hconserve]
    change Holds r (Fifo.run capacity [] (ops.map QueueOp.abs)).2 at hr
    cases hq : (Fifo.run capacity [] (ops.map QueueOp.abs)).2 with
    | nil =>
      rw [hq] at hr
      simp [pop_nil hr]
    | cons msg queue =>
      rw [hq] at hr
      simp [(pop_cons hr).1]
  · intro mem' ops' hops' hsame
    obtain ⟨r', hrun', -⟩ := runOps_refines (hfresh mem') hmax hops'
    exact ⟨r', by rw [hrun', hsame]; rfl⟩

omit [Target] in
/-- A run on two cache lines of dirty memory whose last message crosses the physical end. -/
theorem queue_lossless_fifo_two_lines :
    letI : Target := x86_64
    let ops : List QueueOp := [.push [1, 2, 3], .pushEncoded 2 (.fill [4, 5]), .pop,
      .push (List.replicate 100 6), .popAll, .pushEncoded 60 (.fill (List.replicate 60 7)), .pop]
    ∃ outs r, runOps (createQueue 128 fun _ => 0xAA) ops = some (outs, r) ∧
      outs.flatMap Fifo.handedOut <+: Fifo.taken (ops.map QueueOp.abs) outs := by
  let _ : Target := x86_64
  intro ops
  have hops : ∀ op ∈ ops, op.Filling := by
    intro op hop
    simp only [ops, List.mem_cons, List.not_mem_nil, or_false] at hop
    rcases hop with rfl | rfl | rfl | rfl | rfl | rfl | rfl
    case inr.inl => exact ⟨_, rfl, EncodeFn.fills_fill _⟩
    case inr.inr.inr.inr.inr.inl => exact ⟨_, List.length_replicate, EncodeFn.fills_fill _⟩
    all_goals exact trivial
  obtain ⟨outs, r, hrun, hpre, -⟩ := queue_lossless_fifo (show 0 < 128 by decide)
    (by decide) (by decide) (fun _ => 0xAA) hops
  exact ⟨outs, r, hrun, hpre⟩

end RapidLog
