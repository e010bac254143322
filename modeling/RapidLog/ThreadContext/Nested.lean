import Mathlib.Data.Multiset.ZeroCons
import RapidLog.Lib.FlatMap
import RapidLog.Lib.Transition
import RapidLog.Queue.OpenFrame

/-!
# Log calls inside log calls

`ThreadContext::push_encoded` takes the thread's producer from thread-local storage and runs a
closure while a chunk of it is reserved. The log macro evaluates its arguments in that closure, and
an argument may log in its turn: the nested call gets the same producer. This module runs one
thread's log calls, nested to any depth, against a consumer that pops at any time.

`step` is one step of such a run. A nested call reserves its chunk at the same tail as the call it
interrupts, since only a commit moves the tail, and a commit goes to the ring that the producer
owns by then, which is another one when the nested call has grown the queue.

## Main results

* `nested_calls_intact`: as long as every nested call is refused, each accepted call is delivered
  once with the bytes its closure wrote, and nothing else is delivered;
* `nested_calls_corrupt`: a nested call that is accepted breaks this.
-/

namespace RapidLog

open Queue RingBuffer

variable [Target]

namespace Nested

/-- What a call of `push_encoded` asked for: the message length, and the writes of its closure to
the buffer it was lent, in order. -/
structure Call where
  totalMsg : ℕ
  writes : List (ℕ × List UInt8)
  deriving DecidableEq, Repr

/-- A call whose closure is running. `block` is the ring its chunk belongs to. -/
structure OpenCall where
  block : ℕ
  frame : OpenFrame
  writes : List (ℕ × List UInt8)

/-- One thread and the rings it has owned. -/
structure State where
  mode : QueueMode
  /-- The rings in the order the thread created them. -/
  blocks : ℕ → Ring
  /-- The ring that the producer owns. -/
  current : ℕ
  /-- The message length of a call that has grown the queue and is about to try again. -/
  growing : Option ℕ
  /-- The running calls, innermost first. -/
  stack : List OpenCall
  /-- The calls that returned `Ok`, in the order of their return. -/
  accepted : List Call
  popped : List (List UInt8)
  /-- Some write left the slices that were reserved for it. -/
  faulted : Bool

/-- A step of the thread, or a `pop` of the consumer. -/
inductive Event
  /-- Call `push_encoded`, or try again after the queue has grown. -/
  | call (totalMsg : ℕ)
  /-- The innermost closure copies bytes over the buffer it was lent. -/
  | write (off : ℕ) (bytes : List UInt8)
  /-- The innermost closure returns, and its call returns `Ok`. -/
  | ret
  | pop (block : ℕ)

/-- A thread that has not logged yet, on a ring of the given capacity. -/
def init (mode : QueueMode) (capacity : ℕ) (mem : ℕ → UInt8) : State where
  mode := mode
  blocks _ := createQueue capacity mem
  current := 0
  growing := none
  stack := []
  accepted := []
  popped := []
  faulted := false

/-- One iteration of the loop of `push_encoded_unbounded`, or the only attempt of `push_encoded` in
bounded mode, up to the call of the closure. -/
def call (uninit : ℕ → ℕ → UInt8) (s : State) (totalMsg : ℕ) : State :=
  match SpscProducer.openFrame (s.blocks s.current) totalMsg with
  | none => { s with faulted := true }
  | some (.ok (r, frame)) =>
    { s with
      blocks := Function.update s.blocks s.current r
      growing := none
      stack := { block := s.current, frame, writes := [] } :: s.stack }
  | some (.error .full) =>
    match s.mode with
    | .boundedDropping => { s with growing := none }
    | .unboundedBlocking =>
      match SpscProducer.grow (s.blocks s.current) (uninit (s.current + 1)) with
      | some r =>
        { s with
          blocks := Function.update s.blocks (s.current + 1) r
          current := s.current + 1
          growing := some totalMsg }
      | none => { s with growing := none }

/-- One step; `uninit` is what the memory of a new ring holds. A write that does not fit the lent
buffer is an index out of range, and no step. -/
def step (uninit : ℕ → ℕ → UInt8) : Machine State Event
  | s, .call totalMsg =>
    if s.growing = none ∨ s.growing = some totalMsg then some (call uninit s totalMsg) else none
  | s, .write off bytes =>
    match s.growing, s.stack with
    | none, c :: rest =>
      if off + bytes.length ≤ c.frame.totalMsg then
        match SpscProducer.encodeWrite (s.blocks c.block) c.frame off bytes with
        | none => some { s with faulted := true }
        | some (r, frame) =>
          some { s with
            blocks := Function.update s.blocks c.block r
            stack := { c with frame, writes := c.writes ++ [(off, bytes)] } :: rest }
      else none
    | _, _ => none
  | s, .ret =>
    match s.growing, s.stack with
    | none, c :: rest =>
      match SpscProducer.closeFrame (s.blocks c.block) c.frame with
      | none => some { s with faulted := true }
      | some r =>
        let blocks := Function.update s.blocks c.block r
        -- the chunk points into its own ring, the commit goes to the producer's present one
        let committed := (blocks s.current).commitWrite
          (alignUp (headerSize + c.frame.totalMsg) cacheLine)
        some { s with
          blocks := Function.update blocks s.current committed
          stack := rest
          accepted := s.accepted ++ [{ totalMsg := c.frame.totalMsg, writes := c.writes }] }
    | _, _ => none
  | s, .pop block =>
    if block ≤ s.current then
      let (msg, r) := SpscConsumer.pop (s.blocks block)
      some { s with
        blocks := Function.update s.blocks block r
        popped := s.popped ++ msg.toList }
    else none

/-- The message is what the closure of the call left in a buffer of the length it asked for. -/
def Delivers (c : Call) (msg : List UInt8) : Prop :=
  ∃ buf : List UInt8, buf.length = c.totalMsg ∧ Slice.spliceAll buf c.writes = msg

/-- Every message that has been popped, or would be if the consumer drained the rings now. -/
def State.drained (s : State) : List (List UInt8) :=
  s.popped ++ (List.range (s.current + 1)).flatMap fun k => pending (s.blocks k)

/-- No write left its slices, and the delivered messages are exactly the accepted calls, each of
them once. -/
def State.Intact (s : State) : Prop :=
  s.faulted = false ∧ Multiset.Rel Delivers (s.accepted : Multiset Call) s.drained

/-- A call would be refused: it does not fit, and the queue does not grow for it. -/
def State.Refused (s : State) (totalMsg : ℕ) : Prop :=
  ¬ paddedSize totalMsg ≤ (s.blocks s.current).freeSlots ∧
    (s.mode = .boundedDropping ∨ maxBlockCapacity ≤ (s.blocks s.current).capacity)

/-- The side condition on a run: a call that starts while another one runs is refused. -/
def NestedRefused (s : State) (e : Event) : Prop :=
  ∀ totalMsg, e = .call totalMsg → s.stack ≠ [] → s.Refused totalMsg

omit [Target] in
instance (s : State) (totalMsg : ℕ) : Decidable (s.Refused totalMsg) :=
  inferInstanceAs (Decidable (_ ∧ _))

omit [Target] in
theorem nestedRefused_call {s : State} {totalMsg : ℕ} :
    NestedRefused s (.call totalMsg) ↔ s.stack.isEmpty = true ∨ s.Refused totalMsg := by
  simp only [NestedRefused, Event.call.injEq, forall_eq', List.isEmpty_iff]
  tauto

instance (s : State) (e : Event) : Decidable (NestedRefused s e) :=
  match e with
  | .call _ => decidable_of_iff' _ nestedRefused_call
  | .write _ _ | .ret | .pop _ => .isTrue fun _ h => nomatch h

/-! ### The invariant -/

/-- What holds in every state of a run in which nested calls are refused: at most one call runs,
and its frame lies behind the tail of the producer's ring. -/
structure Inv (s : State) : Prop where
  holds : ∀ k ≤ s.current, Holds (s.blocks k) (pending (s.blocks k))
  capacity_le : (s.blocks s.current).capacity ≤ maxBlockCapacity
  stack : s.stack = [] ∨ ∃ c buf, s.stack = [c] ∧ c.block = s.current ∧
    buf.length = c.frame.totalMsg ∧
    OpenAt (s.blocks s.current) c.frame (Slice.spliceAll buf c.writes)
  growing : s.growing ≠ none → s.stack = []
  intact : s.Intact

/-- Replacing one ring by one that looks the same to the reader keeps what every ring holds. -/
private theorem holds_update_sameView {blocks : ℕ → Ring} {cur : ℕ} {r : Ring}
    (h : ∀ k ≤ cur, Holds (blocks k) (pending (blocks k))) (hv : SameView (blocks cur) r) :
    (∀ k ≤ cur, Holds (Function.update blocks cur r k) (pending (Function.update blocks cur r k))) ∧
      ∀ k, pending (Function.update blocks cur r k) = pending (blocks k) := by
  have hr := hv.holds (h cur le_rfl)
  have hp : pending r = pending (blocks cur) := pending_of_holds hr
  refine ⟨fun k hk => holds_update hr (h k hk), fun k => ?_⟩
  rcases eq_or_ne k cur with rfl | hne
  · rw [Function.update_self, hp]
  · rw [Function.update_of_ne hne]

variable {s s' : State} {uninit : ℕ → ℕ → UInt8}

/-- Whether the calls are delivered depends on the messages of the rings only. -/
theorem State.Intact.congr (h : s.Intact) (hfault : s'.faulted = s.faulted)
    (hacc : s'.accepted = s.accepted) (hpop : s'.popped = s.popped)
    (hcur : s'.current = s.current) (hpend : ∀ k, pending (s'.blocks k) = pending (s.blocks k)) :
    s'.Intact := by
  simp only [State.Intact, State.drained, hfault, hacc, hpop, hcur, hpend]
  exact h

omit [Target] in
/-- A delivered message for one more accepted call. -/
private theorem rel_concat {accepted : List Call} {c : Call} {drained drained' : List (List UInt8)}
    {msg : List UInt8} (h : Multiset.Rel Delivers (accepted : Multiset Call) drained)
    (hc : Delivers c msg) (hperm : drained'.Perm (msg :: drained)) :
    Multiset.Rel Delivers ((accepted ++ [c] : List Call) : Multiset Call) drained' := by
  rw [Multiset.coe_eq_coe.mpr hperm, Multiset.coe_eq_coe.mpr List.perm_append_comm,
    List.singleton_append, ← Multiset.cons_coe, ← Multiset.cons_coe]
  exact .cons hc h

/-- An accepted call opens its frame; a refused one leaves the thread as it was, or with a fresh
ring. -/
theorem Inv.call (h : Inv s) {totalMsg : ℕ} (hok : NestedRefused s (.call totalMsg)) :
    Inv (call uninit s totalMsg) := by
  have ha := (h.holds s.current le_rfl).aligned
  by_cases hfree : paddedSize totalMsg ≤ (s.blocks s.current).freeSlots
  · -- the frame fits, so no other call runs
    have hstack : s.stack = [] := by
      by_contra hne
      exact (hok totalMsg rfl hne).1 hfree
    obtain ⟨r, f, buf, hopen, -, hview, hat⟩ := openFrame_spec ha hfree
    obtain ⟨hholds, hpend⟩ := holds_update_sameView h.holds hview
    simp only [Nested.call, hopen]
    refine ⟨hholds, ?_, .inr ⟨_, buf, by rw [hstack], rfl, hat.length_eq, ?_⟩,
      fun hg => absurd rfl hg, h.intact.congr rfl rfl rfl rfl hpend⟩
    · simp only [Function.update_self, hview.capacity_eq]
      exact h.capacity_le
    · simpa only [Function.update_self, Slice.spliceAll_nil] using hat
  · have hfull := openFrame_full (s.blocks s.current) hfree
    have hkeep : Inv { s with growing := none } :=
      ⟨h.holds, h.capacity_le, h.stack, fun hg => absurd rfl hg, h.intact⟩
    simp only [Nested.call, hfull]
    split
    · exact hkeep
    · next hmode =>
      split
      · next r hgrow =>
        -- the queue grows, so no other call runs
        have hstack : s.stack = [] := by
          by_contra hne
          obtain ⟨-, hlt, hle⟩ := grow_spec hgrow
          rcases (hok totalMsg rfl hne).2 with hb | hmax
          · rw [hmode] at hb; cases hb
          · omega
        have hnew := holds_grow ha hgrow
        refine ⟨fun k hk => ?_, ?_, .inl hstack, fun _ => hstack, h.intact.1, ?_⟩
        · rcases Nat.lt_or_eq_of_le hk with hlt | rfl
          · simp only [Function.update_of_ne (Nat.ne_of_lt hlt)]
            exact h.holds k (Nat.lt_succ_iff.mp hlt)
          · simp only [Function.update_self, pending_of_holds hnew]
            exact hnew
        · simp only [Function.update_self]
          exact (grow_spec hgrow).2.2
        · have hdrained : State.drained { s with
              blocks := Function.update s.blocks (s.current + 1) r
              current := s.current + 1
              growing := some totalMsg } = s.drained := by
            simp only [State.drained, List.range_succ (n := s.current + 1), List.flatMap_append,
              List.flatMap_singleton, Function.update_self, pending_of_holds hnew, List.append_nil]
            congr 1
            refine List.flatMap_congr fun k hk => ?_
            have := List.mem_range.mp hk
            rw [Function.update_of_ne (by omega)]
          rw [hdrained]
          exact h.intact.2
      · exact hkeep

/-- A write of the running closure stays behind the tail. -/
theorem Inv.write (h : Inv s) {off : ℕ} {bytes : List UInt8}
    (hs : step uninit s (.write off bytes) = some s') : Inv s' := by
  simp only [step] at hs
  split at hs
  · next c rest hgrow hstack =>
    split at hs
    · next hfit =>
      rcases h.stack with hnil | ⟨c', buf, hone, hblock, hlen, hat⟩
      · simp [hnil] at hstack
      obtain ⟨rfl, rfl⟩ : c = c' ∧ rest = [] := by simpa [hone, eq_comm] using hstack
      have ha := (h.holds s.current le_rfl).aligned
      obtain ⟨r, f, hwrite, htotal, hview, hat'⟩ := encodeWrite_spec ha hat hfit
      obtain ⟨hholds, hpend⟩ := holds_update_sameView h.holds hview
      rw [hblock, hwrite] at hs
      cases hs
      refine ⟨hholds, ?_, .inr ⟨_, buf, rfl, rfl, hlen.trans htotal.symm, ?_⟩,
        fun hg => absurd hgrow hg, h.intact.congr rfl rfl rfl rfl hpend⟩
      · simp only [Function.update_self, hview.capacity_eq]
        exact h.capacity_le
      · simpa only [Function.update_self, Slice.spliceAll_concat] using hat'
    · cases hs
  · cases hs

/-- The running call returns: its frame is committed and its message can be drained. -/
theorem Inv.ret (h : Inv s) (hs : step uninit s .ret = some s') : Inv s' := by
  simp only [step] at hs
  split at hs
  · next c rest hgrow hstack =>
    rcases h.stack with hnil | ⟨c', buf, hone, hblock, hlen, hat⟩
    · simp [hnil] at hstack
    obtain ⟨rfl, rfl⟩ : c = c' ∧ rest = [] := by simpa [hone, eq_comm] using hstack
    have hold := h.holds s.current le_rfl
    obtain ⟨r, hclose, happ⟩ := closeFrame_spec hold.aligned hat
    rw [hblock, hclose] at hs
    simp only [Function.update_self, Function.update_idem] at hs
    cases hs
    set msg := Slice.spliceAll buf c.writes
    set r' := r.commitWrite (alignUp (headerSize + c.frame.totalMsg) cacheLine)
    have hmsgLen : msg.length = c.frame.totalMsg := hat.length_eq
    have hfree : paddedSize msg.length ≤ (s.blocks s.current).freeSlots := hmsgLen ▸ hat.fits
    have hnew : Holds r' (pending (s.blocks s.current) ++ [msg]) :=
      hold.appended happ hfree (length_lt_of_free h.capacity_le hfree)
    refine ⟨fun k hk => holds_update hnew (h.holds k hk), ?_, .inl rfl, fun hg => absurd hgrow hg,
      h.intact.1, ?_⟩
    · simp only [Function.update_self]
      exact happ.capacity_eq.trans_le h.capacity_le
    -- the message of the call is the only one that the drained messages gain
    · refine rel_concat h.intact.2 ⟨buf, hlen, rfl⟩ ?_
      refine ((FlatMap.perm_of_ne [msg] (k := s.current) (Nat.lt_succ_self _) ?_ ?_).append_left
        s.popped).trans List.perm_middle
      · simp only [Function.update_self, pending_of_holds hnew]
        exact List.perm_append_comm
      · intro j hj
        simp only [Function.update_of_ne hj]
  · cases hs

/-- The consumer takes the first message of a ring, if there is one. -/
theorem Inv.pop (h : Inv s) {block : ℕ} (hs : step uninit s (.pop block) = some s') : Inv s' := by
  simp only [step] at hs
  split at hs
  · next hle =>
    have hold := h.holds block hle
    cases hpend : pending (s.blocks block) with
    | nil =>
      rw [hpend] at hold
      simp only [pop_nil hold, Function.update_eq_self, Option.toList_none, List.append_nil] at hs
      cases hs
      exact h
    | cons msg msgs =>
      rw [hpend] at hold
      obtain ⟨hpop, hrest⟩ := pop_cons hold
      simp only [hpop, Option.toList_some] at hs
      cases hs
      refine ⟨fun k hk => holds_update hrest (h.holds k hk), ?_, ?_, h.growing, h.intact.1, ?_⟩
      · rcases eq_or_ne s.current block with heq | hne
        · simp only [heq, Function.update_self]
          exact heq ▸ h.capacity_le
        · simp only [Function.update_of_ne hne]
          exact h.capacity_le
      -- taking a message leaves the open frame as it is
      · refine h.stack.imp_right fun ⟨c, buf, hone, hblock, hlen, hat⟩ =>
          ⟨c, buf, hone, hblock, hlen, ?_⟩
        rcases eq_or_ne s.current block with heq | hne
        · simp only [heq, Function.update_self]
          exact (heq ▸ hat).commitRead _
        · simp only [Function.update_of_ne hne]
          exact hat
      · have hperm := (FlatMap.perm_of_ne [msg] (f := fun k => pending (s.blocks k))
          (g := fun k => pending (Function.update s.blocks block
            ((s.blocks block).commitRead (paddedSize msg.length)) k))
          (Nat.lt_succ_of_le hle) (by simp [hpend, pending_of_holds hrest])
          (fun j hj => by simp only [Function.update_of_ne hj])).append_left s.popped
        rw [← List.append_assoc] at hperm
        have hsame := Multiset.coe_eq_coe.mpr hperm
        exact hsame ▸ h.intact.2
  · cases hs

/-- Every step of a run in which nested calls are refused keeps the invariant. -/
theorem Inv.step (h : Inv s) {e : Event} (hok : NestedRefused s e)
    (hs : step uninit s e = some s') : Inv s' := by
  cases e with
  | call totalMsg =>
    simp only [Nested.step] at hs
    split at hs
    · cases hs
      exact h.call hok
    · cases hs
  | write off bytes => exact h.write hs
  | ret => exact h.ret hs
  | pop block => exact h.pop hs

/-- A thread that has not logged satisfies the invariant. -/
theorem inv_init (mode : QueueMode) {capacity : ℕ} (hpos : 0 < capacity) (hdvd : 64 ∣ capacity)
    (hmax : capacity ≤ maxBlockCapacity) (mem : ℕ → UInt8) : Inv (init mode capacity mem) := by
  have hnew := holds_createQueue hpos hdvd mem
  refine ⟨fun k _ => ?_, hmax, .inl rfl, fun hg => absurd rfl hg, rfl, ?_⟩
  · simp only [init, pending_of_holds hnew]
    exact hnew
  · simp [init, State.drained, pending_of_holds hnew]

/-- In a run in which every nested call is refused, each accepted call is delivered once with the
bytes its closure wrote, and nothing else is delivered. -/
theorem nested_calls_intact (uninit : ℕ → ℕ → UInt8) (mode : QueueMode) {capacity : ℕ}
    (hpos : 0 < capacity) (hdvd : 64 ∣ capacity) (hmax : capacity ≤ maxBlockCapacity)
    {s : State} (hrun : Machine.Reach (Nested.step uninit) NestedRefused
      (init mode capacity (uninit 0)) s) : s.Intact :=
  (hrun.invariant (inv_init mode hpos hdvd hmax _) fun _ _ _ h hok hs => h.step hok hs).intact

omit [Target] in
/-- On a ring of one cache line, a nested call of 100 bytes is refused and the call it interrupts
is delivered. -/
theorem nested_calls_intact_refused :
    letI : Target := x86_64
    ∃ s, (step fun _ _ => 0).runWhile NestedRefused (init .boundedDropping 64 fun _ => 0)
        [.call 2, .call 100, .write 0 [1, 2], .ret, .pop 0] = some s ∧
      s.popped = [[1, 2]] ∧ s.Intact := by
  let _ : Target := x86_64
  have hrun : ((step fun _ _ => 0).runWhile NestedRefused (init .boundedDropping 64 fun _ => 0)
      [.call 2, .call 100, .write 0 [1, 2], .ret, .pop 0]).map (·.popped) = some [[1, 2]] := by
    decide +kernel
  obtain ⟨s, hs, hpopped⟩ := Option.map_eq_some_iff.mp hrun
  exact ⟨s, hs, hpopped, nested_calls_intact (fun _ _ => 0) .boundedDropping (by decide)
    (by decide) (by decide) (.of_runWhile hs)⟩

/-- A call of two bytes whose closure makes a call of one byte and then writes its own. -/
def nestedRun : List Event := [.call 2, .call 1, .write 0 [7], .ret, .write 0 [1, 2], .ret]

omit [Target] in
/-- On a ring of the default capacity both calls of `nestedRun` are accepted; the reader sees the
header of the inner call over the payload of the outer one, and an empty message. -/
theorem nestedRun_drained :
    letI : Target := x86_64
    ((step fun _ _ => 0).run (init .boundedDropping defaultStartCapacity fun _ => 0) nestedRun).map
        (fun s => (s.drained, s.accepted)) =
      some ([[1], []], [⟨1, [(0, [7])]⟩, ⟨2, [(0, [1, 2])]⟩]) := by
  let _ : Target := x86_64
  decide +kernel

omit [Target] in
/-- Accepted nested calls are corrupted. -/
theorem nested_calls_corrupt :
    letI : Target := x86_64
    ¬ ∀ s, Machine.Reach (step fun _ _ => 0) (fun _ _ => True)
      (init .boundedDropping defaultStartCapacity fun _ => 0) s → s.Intact := by
  let _ : Target := x86_64
  intro h
  obtain ⟨s, hs, heq⟩ := Option.map_eq_some_iff.mp nestedRun_drained
  obtain ⟨hdrained, haccepted⟩ := Prod.mk.inj heq
  have hrel := (h s (.of_run (fun _ _ _ => trivial) hs)).2
  rw [hdrained, haccepted] at hrel
  -- nothing that is drained has the two bytes of the outer call
  obtain ⟨msg, hmsg, buf, hlen, hdel⟩ :=
    Multiset.exists_mem_of_rel_of_mem hrel (a := ⟨2, [(0, [1, 2])]⟩) (by simp)
  have hout : msg = [1, 2] := by
    rw [← hdel]
    exact Slice.splice_zero hlen.symm
  rw [hout] at hmsg
  simp at hmsg

end Nested

end RapidLog
