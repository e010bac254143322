import RapidLog.Queue.Bounds
import RapidLog.Queue.Overflow
import RapidLog.Queue.Refinement

/-!
# Which capacities are safe

`create_queue` takes any capacity. A run on a fresh ring is safe when no write leaves the slices it
reserved and `pop` finds a message as long as fewer messages were handed out than accepted
(`SafeCapacity`). This is so exactly when no frame fits the ring at all, or when the capacity is a
multiple of the header size and a message that fits has a length that its header can store, and
when moreover `push_encoded` is not called with a size to which the header cannot be added without
wrapping (`safeCapacity_iff`). In the other rings a write position comes too close to the physical
end after enough short messages, or `pop` takes the payload of a message for the header of the next
one.
-/

namespace RapidLog

open Queue RingBuffer

/-! ### Capacities that are a multiple of the header size -/

/-- The capacity is a multiple of the header size, positions are multiples of the cache line, and at
most one revolution of the ring is filled. -/
structure Spaced (r : Ring) : Prop where
  capacity_pos : 0 < r.capacity
  capacity_dvd : 8 ∣ r.capacity
  head_dvd : 64 ∣ r.head
  tail_dvd : 64 ∣ r.tail
  head_le : r.head ≤ r.tail
  tail_le : r.tail ≤ r.head + r.capacity

namespace Spaced

variable {r r' : Ring}

/-- Such a ring has room for a header at every multiple of the cache line. -/
theorem hasRoom (h : Spaced r) {pos : ℕ} (hpos : 64 ∣ pos) : HasRoom r pos := by
  refine ⟨?_, h.head_le, h.tail_le⟩
  have hmod : 8 ∣ pos % r.capacity :=
    (Nat.dvd_mod_iff h.capacity_dvd).mpr (Nat.dvd_trans (by decide) hpos)
  have hlt : pos % r.capacity < r.capacity := Nat.mod_lt _ h.capacity_pos
  have hcap := h.capacity_dvd
  have hsize : headerSize = 8 := rfl
  omega

/-- A reader moves the head by whole frames. -/
theorem commitRead (h : Spaced r) {len : ℕ} (hle : r.head + paddedSize len ≤ r.tail) :
    Spaced (r.commitRead (paddedSize len)) := by
  refine ⟨h.capacity_pos, h.capacity_dvd, Nat.dvd_add h.head_dvd (dvd_paddedSize len), h.tail_dvd,
    hle, ?_⟩
  have htail := h.tail_le
  simp only [RingBuffer.commitRead]
  omega

variable [Target]

/-- An appended frame keeps the spacing. -/
theorem appended (h : Spaced r) {msg : List UInt8} (ha : Appended r r' msg)
    (hfree : paddedSize msg.length ≤ r.freeSlots) : Spaced r' := by
  have hslots : r.slots = r.tail - r.head := rfl
  have hfree' : r.freeSlots = r.capacity - r.slots := rfl
  have hle := h.head_le
  have htail := h.tail_le
  refine ⟨ha.capacity_eq ▸ h.capacity_pos, ha.capacity_eq ▸ h.capacity_dvd,
    ha.head_eq ▸ h.head_dvd, ha.tail_eq ▸ Nat.dvd_add h.tail_dvd (dvd_paddedSize _), ?_, ?_⟩
  · rw [ha.head_eq, ha.tail_eq]
    omega
  · rw [ha.head_eq, ha.tail_eq, ha.capacity_eq]
    omega

end Spaced

/-- In a ring whose capacity is not a multiple of the header size, some multiple of the cache line
is closer to the physical end than a header is long. -/
theorem exists_short_distance {capacity : ℕ} (hle : 64 ≤ capacity) (h : ¬ 8 ∣ capacity) :
    ∃ k, capacity - 64 * k % capacity < headerSize := by
  have hsize : headerSize = 8 := rfl
  have hpos : 0 < Nat.gcd 64 capacity := Nat.gcd_pos_of_pos_left capacity (by decide)
  have hlt : Nat.gcd 64 capacity < 8 := by
    obtain ⟨i, -, hgcd⟩ := (Nat.dvd_prime_pow Nat.prime_two).mp
      (show Nat.gcd 64 capacity ∣ 2 ^ 6 from Nat.gcd_dvd_left 64 capacity)
    by_contra hge
    have hi : 3 ≤ i := (Nat.pow_le_pow_iff_right (show 1 < 2 by decide)).mp (by omega)
    refine h (Nat.dvd_trans ?_ (Nat.gcd_dvd_right 64 capacity))
    exact hgcd ▸ Nat.pow_dvd_pow 2 hi
  obtain ⟨m, -, hm⟩ := Nat.exists_mul_mod_eq_gcd (k := capacity) (n := 64) (by omega)
  -- `m` lines reach the gcd past the start; `capacity - 1` times as many reach it before the end
  obtain ⟨c, rfl⟩ : ∃ c, capacity = c + 1 := ⟨capacity - 1, by omega⟩
  refine ⟨m * c, ?_⟩
  have hdvd : c + 1 ∣ 64 * (m * c) + Nat.gcd 64 (c + 1) := by
    have hdiv := Nat.mod_add_div (64 * m) (c + 1)
    rw [hm] at hdiv
    refine ⟨Nat.gcd 64 (c + 1) + 64 * m / (c + 1) * c, ?_⟩
    rw [← Nat.mul_assoc]
    conv_lhs => rw [← hdiv]
    ring
  have hmod : (64 * (m * c) % (c + 1) + Nat.gcd 64 (c + 1)) % (c + 1) = 0 := by
    rw [Nat.mod_add_mod]
    exact Nat.mod_eq_zero_of_dvd hdvd
  have hrem : 64 * (m * c) % (c + 1) < c + 1 := Nat.mod_lt _ (Nat.succ_pos c)
  by_contra hge
  rw [Nat.mod_eq_of_lt (by omega)] at hmod
  omega

variable [Target]

/-! ### Runs -/

/-- The number of accepted pushes among the answers. -/
def accepted (outs : List QueueOut) : ℕ := outs.count .pushed

/-- The number of messages that the answers hand out. -/
def popped (outs : List QueueOut) : ℕ := (outs.flatMap Fifo.handedOut).length

namespace QueueOp

/-- The sizes of the call can be had: a slice has at most `isize::MAX` bytes, and `push_encoded` is
called with one of these sizes. -/
def Possible (sizes : ℕ → Prop) : QueueOp → Prop
  | push data => data.length < usizeRange / 2
  | pushEncoded len _ => len < usizeRange ∧ sizes len
  | pop | popAll => True

/-- Run one call, in `usize`. A call that unwinds has no answer. -/
def stepUsize (mode : OnOverflow) (r : Ring) : QueueOp → Option (Option QueueOut × Ring)
  | pushEncoded len encode => (SpscProducer.pushEncodedUsize mode r len encode).map fun
    | .panicked => (none, r)
    | .returned (.ok (r', _)) => (some .pushed, r')
    | .returned (.error _) => (some .rejected, r)
  | op => (op.step r).map fun (out, r') => (some out, r')

end QueueOp

/-- Replay an interleaving of calls, in `usize`: the answers of the calls that returned. -/
def runUsize (mode : OnOverflow) (r : Ring) : List QueueOp → Option (List QueueOut × Ring)
  | [] => some ([], r)
  | op :: ops => do
    let (out, r) ← op.stepUsize mode r
    let (outs, r) ← runUsize mode r ops
    return (out.toList ++ outs, r)

/-- Every run on a fresh ring of this capacity, whatever its slots held before, stays inside the
slices it reserves, and leaves `pop` a message when it handed out fewer than it accepted. -/
def SafeCapacity (mode : OnOverflow) (sizes : ℕ → Prop) (capacity : ℕ) : Prop :=
  ∀ (mem : ℕ → UInt8) (ops : List QueueOp), (∀ op ∈ ops, op.Possible sizes) → ∃ outs r,
    runUsize mode (createQueue capacity mem) ops = some (outs, r) ∧
      (popped outs < accepted outs → (SpscConsumer.pop r).1 ≠ none)

/-- No size wraps to a total size that the ring accepts. -/
def NoWrap (mode : OnOverflow) (sizes : ℕ → Prop) (capacity : ℕ) : Prop :=
  mode = .wraps → ∀ len < usizeRange, sizes len →
    headerSize + len < usizeRange ∨ capacity < 64 ∧ usizeRange < headerSize + len

variable {mode : OnOverflow} {sizes : ℕ → Prop}

omit [Target] in
@[simp] theorem accepted_nil : accepted [] = 0 := rfl

omit [Target] in
@[simp] theorem popped_nil : popped [] = 0 := rfl

omit [Target] in
theorem accepted_append (outs outs' : List QueueOut) :
    accepted (outs ++ outs') = accepted outs + accepted outs' := List.count_append

omit [Target] in
theorem popped_append (outs outs' : List QueueOut) :
    popped (outs ++ outs') = popped outs + popped outs' := by
  simp [popped]

/-- A run of two parts is a run of the first one and then of the second one. -/
theorem runOps_append (r : Ring) (ops ops' : List QueueOp) :
    runOps r (ops ++ ops') = (runOps r ops).bind fun s =>
      (runOps s.2 ops').map fun t => (s.1 ++ t.1, t.2) := by
  induction ops generalizing r with
  | nil => simp [runOps]
  | cons op ops ih =>
    simp only [List.cons_append, runOps, Option.bind_eq_bind, ih, Option.bind_assoc]
    refine Option.bind_congr fun s _ => Option.bind_congr fun t _ => ?_
    cases h : runOps t.2 ops' <;> simp [h]

namespace QueueOp

variable {sizes' : ℕ → Prop} {op : QueueOp} {r : Ring}

theorem Possible.mono (h : op.Possible sizes) (hle : ∀ len, sizes len → sizes' len) :
    op.Possible sizes' := by
  cases op with
  | push data => exact h
  | pushEncoded len encode => exact ⟨h.1, hle len h.2⟩
  | pop | popAll => trivial

/-- A call with a size that a slice can have answers as with sizes in `ℕ`. -/
theorem stepUsize_of_lt (h : op.Possible (· < usizeRange / 2)) :
    op.stepUsize mode r = (op.step r).map fun (out, r') => (some out, r') := by
  cases op with
  | pushEncoded len encode =>
    rw [stepUsize, step, SpscProducer.pushEncodedUsize_of_lt h.2, Option.map_map, Option.map_map]
    refine congrArg (Option.map · _) (funext fun ended => ?_)
    cases ended <;> rfl
  | push data => rfl
  | pop => rfl
  | popAll => rfl

/-- While no total size wraps, a call answers as with sizes in `ℕ`, or unwinds. -/
theorem stepUsize_cases
    (hop : op.Possible fun len => mode = .wraps → headerSize + len < usizeRange) :
    op.stepUsize mode r = (op.step r).map (fun (out, r') => (some out, r')) ∨
      op.stepUsize mode r = some (none, r) := by
  cases op with
  | pushEncoded len encode =>
    rcases SpscProducer.pushEncodedUsize_cases r len encode hop.2 with heq | hpanic
    · left
      rw [stepUsize, step, heq, Option.map_map, Option.map_map]
      refine congrArg (Option.map · _) (funext fun ended => ?_)
      cases ended <;> rfl
    · right
      rw [stepUsize, hpanic]
      rfl
  | push data => exact .inl rfl
  | pop => exact .inl rfl
  | popAll => exact .inl rfl

end QueueOp

/-- Calls with sizes that a slice can have answer as with sizes in `ℕ`. -/
theorem runUsize_of_lt {r : Ring} {ops : List QueueOp}
    (h : ∀ op ∈ ops, op.Possible (· < usizeRange / 2)) : runUsize mode r ops = runOps r ops := by
  induction ops generalizing r with
  | nil => rfl
  | cons op ops ih =>
    rw [runUsize, runOps, QueueOp.stepUsize_of_lt (h op List.mem_cons_self)]
    cases op.step r with
    | none => rfl
    | some s =>
      simp only [Option.map_some, Option.bind_eq_bind, Option.bind_some,
        ih fun op hop => h op (List.mem_cons_of_mem _ hop)]
      rfl

/-- A run of a safe ring without `push_encoded`. -/
theorem SafeCapacity.runOps {capacity : ℕ} (h : SafeCapacity mode sizes capacity)
    (mem : ℕ → UInt8) {ops : List QueueOp} (hops : ∀ op ∈ ops, op.Possible fun _ => False) :
    ∃ outs r, RapidLog.runOps (createQueue capacity mem) ops = some (outs, r) ∧
      (popped outs < accepted outs → (SpscConsumer.pop r).1 ≠ none) := by
  have hsizes : ∀ sizes' : ℕ → Prop, ∀ op ∈ ops, op.Possible sizes' := fun sizes' op hop =>
    (hops op hop).mono fun _ hfalse => hfalse.elim
  obtain ⟨outs, r, hrun, hpop⟩ := h mem ops (hsizes _)
  rw [runUsize_of_lt (hsizes _)] at hrun
  exact ⟨outs, r, hrun, hpop⟩

/-! ### Rings that no frame fits -/

/-- A ring without a whole cache line rejects every message and has none to hand out. -/
theorem step_of_small {r : Ring} (hcap : r.capacity < 64) (hempty : r.slots = 0) (op : QueueOp) :
    ∃ out, op.step r = some (out, r) ∧ accepted [out] = 0 := by
  have hfull : ∀ len, ¬ paddedSize len ≤ r.freeSlots := by
    intro len
    have hfree : r.freeSlots = r.capacity - r.slots := rfl
    have hpos := paddedSize_pos len
    have hdvd := dvd_paddedSize len
    omega
  have hpop : SpscConsumer.pop r = (none, r) := by
    rw [SpscConsumer.pop, hempty]
    rfl
  cases op with
  | push data => exact ⟨.rejected, by rw [QueueOp.step, push_full r (hfull _)]; rfl, rfl⟩
  | pushEncoded len encode =>
    exact ⟨.rejected, by rw [QueueOp.step, pushEncoded_full r encode (hfull _)]; rfl, rfl⟩
  | pop => exact ⟨.popped none, by rw [QueueOp.step, hpop], rfl⟩
  | popAll => exact ⟨.poppedAll [], by rw [QueueOp.step, SpscConsumer.popAll_eq, hpop], rfl⟩

/-- A call whose total size wraps does not find room there either. -/
theorem stepUsize_of_small {r : Ring} (hcap : r.capacity < 64) (hempty : r.slots = 0)
    {op : QueueOp} (hop : op.Possible sizes) (hwrap : NoWrap mode sizes r.capacity) :
    ∃ out, op.stepUsize mode r = some (out, r) ∧ accepted out.toList = 0 := by
  by_cases hexact : op.Possible fun len => mode = .wraps → headerSize + len < usizeRange
  · rcases QueueOp.stepUsize_cases (r := r) hexact with heq | hpanic
    · obtain ⟨out, hstep, hout⟩ := step_of_small hcap hempty op
      exact ⟨some out, by rw [heq, hstep]; rfl, hout⟩
    · exact ⟨none, hpanic, rfl⟩
  · cases op with
    | push data => exact absurd hop hexact
    | pop | popAll => exact absurd trivial hexact
    | pushEncoded len encode =>
      obtain ⟨hlt, hsize⟩ := hop
      have hmode : mode = .wraps := by
        by_contra hpanics
        exact hexact ⟨hlt, fun h => absurd h hpanics⟩
      subst hmode
      rcases hwrap rfl len hlt hsize with hfits | ⟨-, hline⟩
      · exact absurd ⟨hlt, fun _ => hfits⟩ hexact
      · have hfull : ¬ 64 ≤ r.freeSlots := by
          have hfree : r.freeSlots = r.capacity - r.slots := rfl
          omega
        refine ⟨some .rejected, ?_, rfl⟩
        rw [QueueOp.stepUsize, (SpscProducer.pushEncodedUsize_line hlt hline).1 hfull]
        rfl

theorem runUsize_of_small {r : Ring} (hcap : r.capacity < 64) (hempty : r.slots = 0)
    (hwrap : NoWrap mode sizes r.capacity) {ops : List QueueOp}
    (hops : ∀ op ∈ ops, op.Possible sizes) :
    ∃ outs, runUsize mode r ops = some (outs, r) ∧ accepted outs = 0 := by
  induction ops with
  | nil => exact ⟨[], rfl, rfl⟩
  | cons op ops ih =>
    obtain ⟨out, hstep, hout⟩ :=
      stepUsize_of_small hcap hempty (hops op List.mem_cons_self) hwrap
    obtain ⟨outs, hrun, houts⟩ := ih fun op hop => hops op (List.mem_cons_of_mem _ hop)
    refine ⟨out.toList ++ outs, ?_, by rw [accepted_append, hout, houts]⟩
    simp only [runUsize, hstep, Option.bind_eq_bind, Option.bind_some, hrun]
    rfl

theorem safeCapacity_of_small {capacity : ℕ} (hcap : capacity < 64)
    (hwrap : NoWrap mode sizes capacity) : SafeCapacity mode sizes capacity := by
  intro mem ops hops
  obtain ⟨outs, hrun, hnone⟩ :=
    runUsize_of_small (r := createQueue capacity mem) hcap rfl hwrap hops
  exact ⟨outs, _, hrun, fun hlt => by omega⟩

/-! ### Rings that always have room for a header -/

/-- The ring is spaced and holds exactly the frames of `msgs`. -/
structure SpacedHolds (r : Ring) (msgs : List (List UInt8)) : Prop where
  spaced : Spaced r
  frames : Frames r r.head msgs

namespace SpacedHolds

variable {r r' : Ring} {msg : List UInt8} {msgs : List (List UInt8)}

theorem appended (h : SpacedHolds r msgs) (happ : Appended r r' msg)
    (hfree : paddedSize msg.length ≤ r.freeSlots) (hlen : msg.length < 2 ^ 32) :
    SpacedHolds r' (msgs ++ [msg]) :=
  ⟨h.spaced.appended happ hfree, happ.head_eq ▸ frames_appended happ hlen le_rfl h.frames⟩

theorem pop_cons (h : SpacedHolds r (msg :: msgs)) :
    SpscConsumer.pop r = (some msg, r.commitRead (paddedSize msg.length)) ∧
      SpacedHolds (r.commitRead (paddedSize msg.length)) msgs := by
  obtain ⟨hpop, hframes⟩ := pop_of_frames_cons (h.spaced.hasRoom h.spaced.head_dvd) h.frames
  exact ⟨hpop, h.spaced.commitRead h.frames.2.2.2.1, hframes⟩

theorem popAll (h : SpacedHolds r msgs) :
    (SpscConsumer.popAll r).1 = msgs ∧ SpacedHolds (SpscConsumer.popAll r).2 [] := by
  induction msgs generalizing r with
  | nil =>
    rw [SpscConsumer.popAll_eq, pop_of_frames_nil h.frames]
    exact ⟨rfl, h⟩
  | cons m ms ih =>
    obtain ⟨hpop, hrest⟩ := h.pop_cons
    rw [SpscConsumer.popAll_eq, hpop]
    exact ⟨congrArg _ (ih hrest).1, (ih hrest).2⟩

/-- A message that is accepted is added to the ring, one that is rejected leaves it as it was. -/
theorem step (h : SpacedHolds r msgs) (hcap : r.capacity < 2 ^ 32 + 64) (op : QueueOp) :
    ∃ out r' msgs', op.step r = some (out, r') ∧ r'.capacity = r.capacity ∧
      SpacedHolds r' msgs' ∧ msgs.length + accepted [out] = popped [out] + msgs'.length := by
  have hroom := h.spaced.hasRoom h.spaced.tail_dvd
  have hlen : ∀ len, paddedSize len ≤ r.freeSlots → len < 2 ^ 32 := by
    intro len hfree
    have hfree' : r.freeSlots = r.capacity - r.slots := rfl
    rw [paddedSize_eq] at hfree
    omega
  cases op with
  | push data =>
    by_cases hfree : paddedSize data.length ≤ r.freeSlots
    · obtain ⟨r', hpush, happ⟩ := push_spec hroom hfree
      exact ⟨.pushed, r', msgs ++ [data], by rw [QueueOp.step, hpush]; rfl, happ.capacity_eq,
        h.appended happ hfree (hlen _ hfree), by simp [accepted, popped, Fifo.handedOut]⟩
    · exact ⟨.rejected, r, msgs, by rw [QueueOp.step, push_full r hfree]; rfl, rfl, h,
        by simp [accepted, popped, Fifo.handedOut]⟩
  | pushEncoded len encode =>
    by_cases hfree : paddedSize len ≤ r.freeSlots
    · obtain ⟨buf, r', hbuf, hpush, happ⟩ := pushEncoded_spec hroom encode hfree
      have hmsg : (encode.run buf).1.length = len := (encode.length_run buf).trans hbuf
      exact ⟨.pushed, r', msgs ++ [(encode.run buf).1], by rw [QueueOp.step, hpush]; rfl,
        happ.capacity_eq, h.appended happ (hmsg ▸ hfree) (hmsg ▸ hlen _ hfree),
        by simp [accepted, popped, Fifo.handedOut]⟩
    · exact ⟨.rejected, r, msgs, by rw [QueueOp.step, pushEncoded_full r encode hfree]; rfl, rfl, h,
        by simp [accepted, popped, Fifo.handedOut]⟩
  | pop =>
    cases msgs with
    | nil =>
      exact ⟨.popped none, r, [], by rw [QueueOp.step, pop_of_frames_nil h.frames], rfl, h, rfl⟩
    | cons msg msgs =>
      obtain ⟨hpop, hrest⟩ := h.pop_cons
      exact ⟨.popped (some msg), r.commitRead (paddedSize msg.length), msgs,
        by rw [QueueOp.step, hpop], rfl, hrest,
        by simp [accepted, popped, Fifo.handedOut, Nat.add_comm]⟩
  | popAll =>
    obtain ⟨hall, hrest⟩ := h.popAll
    exact ⟨.poppedAll msgs, _, [], by rw [QueueOp.step, hall], SpscConsumer.capacity_popAll r,
      hrest, by simp [accepted, popped, Fifo.handedOut]⟩

/-- The same for a call in `usize`; one that unwinds changes nothing. -/
theorem stepUsize (h : SpacedHolds r msgs) (hcap : r.capacity < 2 ^ 32 + 64) {op : QueueOp}
    (hop : op.Possible fun len => mode = .wraps → headerSize + len < usizeRange) :
    ∃ out r' msgs', op.stepUsize mode r = some (out, r') ∧ r'.capacity = r.capacity ∧
      SpacedHolds r' msgs' ∧
        msgs.length + accepted out.toList = popped out.toList + msgs'.length := by
  rcases QueueOp.stepUsize_cases (r := r) hop with heq | hpanic
  · obtain ⟨out, r', msgs', hstep, hcap', h', hcount⟩ := h.step hcap op
    exact ⟨some out, r', msgs', by rw [heq, hstep]; rfl, hcap', h', hcount⟩
  · exact ⟨none, r, msgs, hpanic, rfl, h, Nat.add_comm _ _⟩

theorem runUsize (h : SpacedHolds r msgs) (hcap : r.capacity < 2 ^ 32 + 64) {ops : List QueueOp}
    (hops : ∀ op ∈ ops, op.Possible fun len => mode = .wraps → headerSize + len < usizeRange) :
    ∃ outs r' msgs', RapidLog.runUsize mode r ops = some (outs, r') ∧ SpacedHolds r' msgs' ∧
      msgs.length + accepted outs = popped outs + msgs'.length := by
  induction ops generalizing r msgs with
  | nil => exact ⟨[], r, msgs, rfl, h, by simp⟩
  | cons op ops ih =>
    obtain ⟨out, r₁, msgs₁, hstep, hcap₁, h₁, hcount₁⟩ :=
      h.stepUsize hcap (hops op List.mem_cons_self)
    obtain ⟨outs, r₂, msgs₂, hrun, h₂, hcount₂⟩ :=
      ih h₁ (hcap₁ ▸ hcap) fun op hop => hops op (List.mem_cons_of_mem _ hop)
    refine ⟨out.toList ++ outs, r₂, msgs₂, ?_, h₂, ?_⟩
    · simp only [RapidLog.runUsize, hstep, Option.bind_eq_bind, Option.bind_some, hrun]
      rfl
    · rw [accepted_append, popped_append]
      omega

end SpacedHolds

/-- A fresh ring holds no message. -/
theorem spacedHolds_createQueue {capacity : ℕ} (hpos : 0 < capacity) (hdvd : 8 ∣ capacity)
    (mem : ℕ → UInt8) : SpacedHolds (createQueue capacity mem) [] :=
  ⟨⟨hpos, hdvd, dvd_zero _, dvd_zero _, le_rfl, Nat.zero_le _⟩, rfl⟩

theorem safeCapacity_of_dvd {capacity : ℕ} (hle : 64 ≤ capacity) (hdvd : 8 ∣ capacity)
    (hcap : capacity < 2 ^ 32 + 64) (hwrap : NoWrap mode sizes capacity) :
    SafeCapacity mode sizes capacity := by
  intro mem ops hops
  have hops' : ∀ op ∈ ops,
      op.Possible fun len => mode = .wraps → headerSize + len < usizeRange := by
    intro op hop
    have hpossible := hops op hop
    cases op with
    | push data => exact hpossible
    | pop | popAll => trivial
    | pushEncoded len encode =>
      refine ⟨hpossible.1, fun hmode => ?_⟩
      rcases hwrap hmode len hpossible.1 hpossible.2 with hfits | ⟨hsmall, -⟩
      · exact hfits
      · omega
  obtain ⟨outs, r, msgs, hrun, hr, hcount⟩ :=
    (spacedHolds_createQueue (by omega) hdvd mem).runUsize hcap hops'
  refine ⟨outs, r, hrun, fun hlt => ?_⟩
  cases msgs with
  | nil =>
    rw [List.length_nil] at hcount
    omega
  | cons msg msgs => simp [hr.pop_cons.1]

/-! ### Rings in which the physical end comes too close -/

/-- An empty ring whose next position is `pos`. -/
structure EmptyAt (r : Ring) (capacity pos : ℕ) : Prop where
  capacity_eq : r.capacity = capacity
  head_eq : r.head = pos
  tail_eq : r.tail = pos

namespace EmptyAt

variable {r : Ring} {capacity pos : ℕ}

omit [Target] in
/-- An empty message fits an empty ring of a whole cache line. -/
theorem paddedSize_le (h : EmptyAt r capacity pos) (hcap : 64 ≤ capacity) :
    paddedSize ([] : List UInt8).length ≤ r.freeSlots := by
  have hpad : paddedSize ([] : List UInt8).length = 64 := paddedSize_eq 0
  rw [hpad, freeSlots, slots, h.capacity_eq, h.head_eq, h.tail_eq]
  omega

/-- Where there is room for a header, an empty message goes through the ring. -/
theorem push_pop (h : EmptyAt r capacity pos) (hcap : 64 ≤ capacity)
    (hroom : headerSize ≤ capacity - pos % capacity) :
    ∃ r', runOps r [.push [], .pop] = some ([.pushed, .popped (some [])], r') ∧
      EmptyAt r' capacity (pos + 64) := by
  have hpad : paddedSize ([] : List UInt8).length = 64 := paddedSize_eq 0
  have hfree := h.paddedSize_le hcap
  have hroom_tail : HasRoom r r.tail := by
    refine ⟨?_, by rw [h.head_eq, h.tail_eq], by rw [h.head_eq, h.tail_eq]; omega⟩
    rwa [h.tail_eq, h.capacity_eq]
  obtain ⟨r₁, hpush, happ⟩ := push_spec hroom_tail hfree
  have hhead : r₁.head = pos := happ.head_eq.trans h.head_eq
  have htail : r₁.tail = pos + 64 := by rw [happ.tail_eq, h.tail_eq, hpad]
  have hcap₁ : r₁.capacity = capacity := happ.capacity_eq.trans h.capacity_eq
  have hroom_head : HasRoom r₁ r₁.head := by
    refine ⟨?_, by omega, by omega⟩
    rwa [hhead, hcap₁]
  have hframes : Frames r₁ r₁.head [[]] := by
    have hnil : Frames r r.head [] := h.head_eq.trans h.tail_eq.symm
    rw [happ.head_eq]
    exact frames_appended happ (by decide) le_rfl hnil
  have hpop := (pop_of_frames_cons hroom_head hframes).1
  refine ⟨r₁.commitRead 64, ?_, hcap₁, ?_, htail⟩
  · rw [hpad] at hpop
    simp only [runOps, QueueOp.step, hpush, hpop, Option.map_some, Option.bind_eq_bind,
      Option.bind_some]
    rfl
  · rw [RingBuffer.commitRead, hhead]

/-- Where a header does not fit, the header of an empty message leaves its slice, or `pop` does not
find the message. -/
theorem push_stuck (h : EmptyAt r capacity pos) (hcap : 64 ≤ capacity)
    (hshort : capacity - pos % capacity < headerSize) :
    runOps r [.push []] = none ∨
      ∃ r', runOps r [.push []] = some ([.pushed], r') ∧ (SpscConsumer.pop r').1 = none := by
  have hpad : paddedSize ([] : List UInt8).length = 64 := paddedSize_eq 0
  have hsize : headerSize = 8 := rfl
  have hfree := h.paddedSize_le hcap
  by_cases hroom : HeaderRoom r
  · right
    obtain ⟨r', hpush, hext⟩ := push_inBounds hfree hroom
    refine ⟨r', by simp only [runOps, QueueOp.step, hpush]; rfl, ?_⟩
    have hslots : r'.slots = 64 := by
      rw [slots, hext.tail_eq, hext.head_eq, h.head_eq, h.tail_eq, hpad]
      omega
    -- the four bytes of the length are there, the other four of the header are not
    have hfirst : (r'.readFirst (r'.chunkAt r'.head r'.slots)).length < headerSize := by
      rw [length_readFirst]
      simp only [chunkAt]
      rw [hext.head_eq, hext.capacity_eq, h.head_eq, h.capacity_eq]
      omega
    simp only [SpscConsumer.pop, readChunk, le_refl, if_true, if_pos hfirst]
    rw [if_neg (by omega)]
  · left
    simp only [runOps, QueueOp.step, push_outOfBounds hfree hroom]
    rfl

end EmptyAt

/-- `k` empty messages, each popped before the next one is pushed. -/
def emptyMessages (k : ℕ) : List QueueOp := (List.replicate k [QueueOp.push [], .pop]).flatten

/-- The messages are empty, and `push_encoded` is not called. -/
theorem possible_emptyMessages (k : ℕ) :
    ∀ op ∈ emptyMessages k ++ [.push []], op.Possible fun _ => False := by
  have hpos : 0 < usizeRange / 2 := by
    have hrange := usizeRange_le
    omega
  intro op hop
  simp only [emptyMessages, List.mem_append, List.mem_flatten, List.mem_replicate,
    List.mem_singleton] at hop
  rcases hop with ⟨round, ⟨-, rfl⟩, hop⟩ | rfl
  · rcases List.mem_cons.mp hop with rfl | hop
    · exact hpos
    · rw [List.mem_singleton.mp hop]
      trivial
  · exact hpos

theorem runOps_emptyMessages {r : Ring} {capacity pos : ℕ} (h : EmptyAt r capacity pos)
    (hcap : 64 ≤ capacity) {k : ℕ}
    (hroom : ∀ j < k, headerSize ≤ capacity - (pos + 64 * j) % capacity) :
    ∃ outs r', runOps r (emptyMessages k) = some (outs, r') ∧ accepted outs = popped outs ∧
      EmptyAt r' capacity (pos + 64 * k) := by
  induction k generalizing r pos with
  | zero => exact ⟨[], r, rfl, rfl, h⟩
  | succ k ih =>
    obtain ⟨r₁, hrun₁, h₁⟩ := h.push_pop hcap (hroom 0 (Nat.succ_pos k))
    have hroom₁ : ∀ j < k, headerSize ≤ capacity - (pos + 64 + 64 * j) % capacity := by
      intro j hj
      rw [show pos + 64 + 64 * j = pos + 64 * (j + 1) by omega]
      exact hroom (j + 1) (Nat.succ_lt_succ hj)
    obtain ⟨outs, r₂, hrun₂, hcount, h₂⟩ := ih h₁ hroom₁
    refine ⟨[.pushed, .popped (some [])] ++ outs, r₂, ?_, ?_, ?_⟩
    · rw [emptyMessages, List.replicate_succ, List.flatten_cons, runOps_append, hrun₁,
        Option.bind_some]
      show (runOps r₁ (emptyMessages k)).map _ = _
      rw [hrun₂, Option.map_some]
    · simp [accepted, popped, Fifo.handedOut] at hcount ⊢
      omega
    · rwa [Nat.mul_succ, Nat.add_comm (64 * k), ← Nat.add_assoc]

theorem not_safeCapacity_of_not_dvd {capacity : ℕ} (hcap : 64 ≤ capacity) (h : ¬ 8 ∣ capacity) :
    ¬ SafeCapacity mode sizes capacity := by
  intro hsafe
  have hexists := exists_short_distance hcap h
  -- the first position at which a header does not fit
  have hshort := Nat.find_spec hexists
  have hroom : ∀ j < Nat.find hexists, headerSize ≤ capacity - (0 + 64 * j) % capacity := by
    intro j hj
    rw [Nat.zero_add]
    exact not_lt.mp (Nat.find_min hexists hj)
  have hfresh : EmptyAt (createQueue capacity fun _ => 0) capacity 0 := ⟨rfl, rfl, rfl⟩
  obtain ⟨outs, r, hrun, hcount, hr⟩ := runOps_emptyMessages hfresh hcap hroom
  rw [Nat.zero_add] at hr
  obtain ⟨outs', r', hrun', hpop⟩ :=
    hsafe.runOps (fun _ => 0) (possible_emptyMessages (Nat.find hexists))
  rw [runOps_append, hrun, Option.bind_some] at hrun'
  rcases hr.push_stuck hcap hshort with hnone | ⟨r₁, hpush, hstuck⟩
  · rw [hnone] at hrun'
    cases hrun'
  · rw [hpush, Option.map_some, Option.some.injEq, Prod.mk.injEq] at hrun'
    obtain ⟨rfl, rfl⟩ := hrun'
    refine hpop ?_ hstuck
    simp [accepted, popped, Fifo.handedOut] at hcount ⊢
    omega

/-! ### Rings that a message too long for its header fits -/

/-- A part of an appended message is found behind its header. -/
theorem Appended.window_part {r r' : Ring} {msg : List UInt8} (h : Appended r r' msg) {a n : ℕ}
    (hle : a + n ≤ msg.length) :
    r'.window (r.tail + headerSize + a) n = (msg.drop a).take n := by
  rw [← h.payload_eq, drop_window r' _ (show a ≤ msg.length by omega), take_window r' _ (by omega)]

/-- An empty message keeps what is in the ring. -/
theorem Spaced.push_nil {r : Ring} (h : Spaced r) (hfree : 64 ≤ r.freeSlots) :
    ∃ r', SpscProducer.push r [] = some (.ok r') ∧ Spaced r' ∧ r'.head = r.head ∧
      r'.tail = r.tail + 64 ∧
      ∀ q n, r.head ≤ q → q + n ≤ r.tail → r'.window q n = r.window q n := by
  have hpad : paddedSize ([] : List UInt8).length = 64 := paddedSize_eq 0
  rw [← hpad] at hfree
  obtain ⟨r', hpush, happ⟩ := push_spec (h.hasRoom h.tail_dvd) hfree
  exact ⟨r', hpush, h.appended happ hfree, happ.head_eq, hpad ▸ happ.tail_eq, happ.window_eq⟩

/-- `pop` takes as many lines as the first header says. -/
theorem Spaced.pop {r : Ring} (h : Spaced r) {n : ℕ} (hn : fromNeBytes (r.window r.head 4) = n)
    (hle : paddedSize n ≤ r.slots) :
    ∃ msg, SpscConsumer.pop r = (some msg, r.commitRead (paddedSize n)) ∧
      Spaced (r.commitRead (paddedSize n)) := by
  have hslots : r.slots = r.tail - r.head := rfl
  have hhead := h.head_le
  have hpos := paddedSize_pos n
  refine ⟨_, by rw [pop_eq (h.hasRoom h.head_dvd) hn, if_pos hle], h.commitRead ?_⟩
  omega

/-- The slots that `pop` frees take an empty message, and what is left in the ring stays. -/
theorem Spaced.pop_push_nil {r : Ring} (h : Spaced r) {n : ℕ}
    (hn : fromNeBytes (r.window r.head 4) = n) (hle : paddedSize n ≤ r.slots) :
    ∃ msg r', SpscConsumer.pop r = (some msg, r.commitRead (paddedSize n)) ∧
      SpscProducer.push (r.commitRead (paddedSize n)) [] = some (.ok r') ∧ Spaced r' ∧
      r'.head = r.head + paddedSize n ∧ r'.tail = r.tail + 64 ∧
      ∀ q len, r'.head ≤ q → q + len ≤ r.tail → r'.window q len = r.window q len := by
  obtain ⟨msg, hpop, hspaced⟩ := h.pop hn hle
  have hfree : 64 ≤ (r.commitRead (paddedSize n)).freeSlots := by
    have hslots : r.slots = r.tail - r.head := rfl
    have htail := h.tail_le
    have hpad := paddedSize_eq n
    show 64 ≤ r.capacity - (r.tail - (r.head + paddedSize n))
    omega
  obtain ⟨r', hpush, hspaced', hhead, htail, hkept⟩ := hspaced.push_nil hfree
  refine ⟨msg, r', hpop, hpush, hspaced', hhead, htail, fun q len hq hlen => ?_⟩
  rw [hkept q len (hhead ▸ hq) hlen, window_commitRead]

/-- A message of `2 ^ 32` bytes with the header of a frame of two lines in its second line, and with
the header of the longest frame there is two lines later. -/
theorem exists_misleading : ∃ data : List UInt8, data.length = 2 ^ 32 ∧
    (data.drop 56).take 4 = SpscProducer.header 64 ∧
    (data.drop 184).take 4 = SpscProducer.header (2 ^ 32 - 1) := by
  have hzeros : ∀ n, ∃ xs : List UInt8, xs.length = n := fun n =>
    ⟨List.replicate n 0, List.length_replicate⟩
  obtain ⟨xs, hxs⟩ := hzeros 56
  obtain ⟨ys, hys⟩ := hzeros 124
  obtain ⟨zs, hzs⟩ := hzeros (2 ^ 32 - 188)
  refine ⟨xs ++ (SpscProducer.header 64 ++ (ys ++ (SpscProducer.header (2 ^ 32 - 1) ++ zs))),
    ?_, ?_, ?_⟩
  · simp only [List.length_append, length_header, hxs, hys, hzs]
    omega
  · rw [List.drop_left' hxs, List.take_left' (length_header 64)]
  · have hlen : (xs ++ (SpscProducer.header 64 ++ ys)).length = 184 := by
      simp only [List.length_append, length_header, hxs, hys]
    rw [← List.append_assoc (SpscProducer.header 64), ← List.append_assoc xs,
      List.drop_left' hlen, List.take_left' (length_header _)]

/-- A message of `2 ^ 32` bytes is stored with the length zero. Behind its first line `pop` reads
headers from the message, which say what the writer of the message likes. -/
theorem not_safeCapacity_of_large {capacity : ℕ} (hdvd : 8 ∣ capacity)
    (hcap : 2 ^ 32 + 64 ≤ capacity) (hrange : capacity < usizeRange) :
    ¬ SafeCapacity mode sizes capacity := by
  intro hsafe
  have hline : paddedSize 0 = 64 := paddedSize_eq 0
  have htwo : paddedSize 64 = 128 := paddedSize_eq 64
  obtain ⟨data, hlen, hsecond, hfourth⟩ := exists_misleading
  have hbig : paddedSize data.length = 2 ^ 32 + 64 := by
    rw [hlen, paddedSize_eq]
    norm_num
  let r₀ := createQueue capacity fun _ => 0
  have h₀ : Spaced r₀ := (spacedHolds_createQueue (by omega) hdvd _).spaced
  have hfree : paddedSize data.length ≤ r₀.freeSlots := by rw [hbig]; exact hcap
  -- the long message, of which `pop` takes one line
  obtain ⟨r₁, hpush₁, happ⟩ := push_spec (h₀.hasRoom h₀.tail_dvd) hfree
  have h₁ := h₀.appended happ hfree
  have hhead₁ : r₁.head = 0 := happ.head_eq
  have htail₁ : r₁.tail = 2 ^ 32 + 64 := by rw [happ.tail_eq, hbig]; exact Nat.zero_add _
  have hzero : fromNeBytes (r₁.window r₁.head 4) = 0 := by
    rw [hhead₁, show r₁.window 0 4 = _ from happ.header_eq, hlen, SpscProducer.header, Nat.mod_self]
    exact fromNeBytes_toNeBytes (by decide)
  have hwindow : r₁.window 64 4 = SpscProducer.header 64 := by
    rw [← hsecond]
    exact happ.window_part (a := 56) (n := 4) (by omega)
  have hwindow' : r₁.window 192 4 = SpscProducer.header (2 ^ 32 - 1) := by
    rw [← hfourth]
    exact happ.window_part (a := 184) (n := 4) (by omega)
  -- an empty message fills the line that becomes free, and `pop` takes two lines of the long one
  obtain ⟨msg₁, r₂, hpop₁, hpush₂, h₂, hhead₂, htail₂, hkept₂⟩ :=
    h₁.pop_push_nil hzero (by rw [hline, slots, hhead₁, htail₁]; omega)
  rw [hline, hhead₁] at hhead₂
  rw [htail₁] at htail₂ hkept₂
  have hlen₂ : fromNeBytes (r₂.window r₂.head 4) = 64 := by
    rw [hkept₂ _ _ le_rfl (by omega), hhead₂, hwindow, SpscProducer.header]
    exact fromNeBytes_toNeBytes (by decide)
  -- then the header at the head asks for more than there is, whatever is pushed
  obtain ⟨msg₂, r₃, hpop₂, hpush₃, h₃, hhead₃, htail₃, hkept₃⟩ :=
    h₂.pop_push_nil hlen₂ (by rw [htwo, slots, hhead₂, htail₂]; omega)
  rw [htwo, hhead₂] at hhead₃
  rw [htail₂] at htail₃ hkept₃
  have hlen₃ : fromNeBytes (r₃.window r₃.head 4) = 2 ^ 32 - 1 := by
    rw [hkept₃ _ _ le_rfl (by omega), hkept₂ _ _ (by omega) (by omega), hhead₃, hwindow',
      SpscProducer.header]
    exact fromNeBytes_toNeBytes (by decide)
  have hpop₃ : SpscConsumer.pop r₃ = (none, r₃) := by
    rw [pop_eq (h₃.hasRoom h₃.head_dvd) hlen₃, if_neg]
    rw [paddedSize_eq, slots, hhead₃, htail₃]
    norm_num
  -- such a ring needs a `usize` of 64 bits, which is then the length of a slice
  have hhalf : 2 ^ 32 < usizeRange / 2 := by
    unfold usizeRange at hrange ⊢
    split at hrange
    · omega
    · norm_num
  have hops : ∀ op ∈ [QueueOp.push data, .pop, .push [], .pop, .push []],
      op.Possible fun _ => False := by
    simp only [List.mem_cons, List.not_mem_nil, or_false, forall_eq_or_imp, forall_eq,
      QueueOp.Possible, hlen, List.length_nil]
    exact ⟨hhalf, trivial, by omega, trivial, by omega⟩
  obtain ⟨outs, r, hrun, hpop⟩ := hsafe.runOps (fun _ => 0) hops
  have hrun' : runOps r₀ [.push data, .pop, .push [], .pop, .push []] =
      some ([.pushed, .popped (some msg₁), .pushed, .popped (some msg₂), .pushed], r₃) := by
    simp only [runOps, QueueOp.step, hpush₁, hpop₁, hpush₂, hpop₂, hpush₃, Option.map_some,
      Option.bind_eq_bind, Option.bind_some]
    rfl
  rw [show createQueue capacity (fun _ => 0) = r₀ from rfl, hrun', Option.some.injEq,
    Prod.mk.injEq] at hrun
  obtain ⟨rfl, rfl⟩ := hrun
  exact hpop (by simp [accepted, popped, Fifo.handedOut]) (congrArg Prod.fst hpop₃)

/-- A total size that wraps is accepted by every ring with a whole cache line, and by every ring
when it wraps to zero; neither call stays inside its chunk. -/
theorem noWrap_of_safeCapacity {capacity : ℕ} (hsafe : SafeCapacity mode sizes capacity) :
    NoWrap mode sizes capacity := by
  rintro rfl len hlt hsize
  by_contra hneg
  have hnone : SpscProducer.pushEncodedUsize .wraps (createQueue capacity fun _ => 0) len
      (EncodeFn.fill []) = none := by
    by_cases hzero : headerSize + len = usizeRange
    · exact SpscProducer.pushEncodedUsize_zero hzero
    · have hle : 64 ≤ capacity := by omega
      have hfirst : 64 ≤ ((createQueue capacity fun _ => 0).chunkAt 0 64).firstLen := by
        show 64 ≤ min 64 (capacity - 0 % capacity)
        rw [Nat.zero_mod]
        omega
      exact (SpscProducer.pushEncodedUsize_line hlt (by omega)).2 hle hfirst
  obtain ⟨outs, r, hrun, -⟩ := hsafe (fun _ => 0) [.pushEncoded len (.fill [])]
    fun op hop => by
      rw [List.mem_singleton.mp hop]
      exact ⟨hlt, hsize⟩
  simp only [runUsize, QueueOp.stepUsize, hnone, Option.map_none, Option.bind_eq_bind,
    Option.bind_none] at hrun
  cases hrun

/-- A capacity is safe exactly when no frame fits it, or it is a multiple of the header size and too
small for a message that is too long for its header, and no total size wraps. -/
theorem safeCapacity_iff (mode : OnOverflow) (sizes : ℕ → Prop) {capacity : ℕ}
    (hrange : capacity < usizeRange) :
    SafeCapacity mode sizes capacity ↔
      (capacity < 64 ∨ 8 ∣ capacity ∧ capacity < 2 ^ 32 + 64) ∧ NoWrap mode sizes capacity := by
  constructor
  · intro hsafe
    refine ⟨?_, noWrap_of_safeCapacity hsafe⟩
    by_contra hneg
    have hcap : 64 ≤ capacity := by
      by_contra hlt
      exact hneg (.inl (not_le.mp hlt))
    by_cases hdvd : 8 ∣ capacity
    · refine not_safeCapacity_of_large hdvd ?_ hrange hsafe
      by_contra hlt
      exact hneg (.inr ⟨hdvd, not_le.mp hlt⟩)
    · exact not_safeCapacity_of_not_dvd hcap hdvd hsafe
  · rintro ⟨hcap, hwrap⟩
    by_cases hsmall : capacity < 64
    · exact safeCapacity_of_small hsmall hwrap
    · obtain ⟨hdvd, hlt⟩ := hcap.resolve_left hsmall
      exact safeCapacity_of_dvd (not_lt.mp hsmall) hdvd hlt hwrap

omit [Target] in
/-- The default capacity, with messages of up to a cache line. -/
theorem safeCapacity_iff_default :
    letI : Target := x86_64
    SafeCapacity .wraps (· ≤ cacheLine) defaultStartCapacity := by
  let _ : Target := x86_64
  have hrange : defaultStartCapacity < usizeRange := by decide
  refine (safeCapacity_iff .wraps (· ≤ cacheLine) hrange).mpr ⟨.inr (by decide), ?_⟩
  refine fun _ len _ hle => .inl ?_
  have hline : len ≤ 64 := hle
  show 8 + len < 2 ^ 64
  omega

omit [Target] in
/-- The second message of a ring of 66 bytes has two bytes for its header. -/
theorem not_safeCapacity_66 :
    letI : Target := x86_64
    ¬ SafeCapacity .panics (fun _ => True) 66 ∧ ¬ SafeCapacity .wraps (fun _ => True) 66 := by
  let _ : Target := x86_64
  have hnone : (runOps (createQueue 66 fun _ => 0) [.push [], .pop, .push []]).isSome = false := by
    decide +kernel
  have hfails : ∀ mode, ¬ SafeCapacity mode (fun _ => True) 66 := by
    intro mode hsafe
    obtain ⟨outs, r, hrun, -⟩ := hsafe.runOps (fun _ => 0) (possible_emptyMessages 1)
    rw [show emptyMessages 1 ++ [.push []] = [.push [], .pop, .push []] from rfl] at hrun
    rw [hrun] at hnone
    cases hnone
  exact ⟨hfails .panics, hfails .wraps⟩

end RapidLog
