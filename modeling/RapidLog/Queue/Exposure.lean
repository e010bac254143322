import RapidLog.Lib.SliceWriter
import RapidLog.Queue.Capacity
import RapidLog.Queue.OpenFrame

/-!
# What the buffer of a closure held before

`push_encoded` lends its closure the ring memory itself when the frame does not wrap, and a zeroed
buffer when it does (`lent`). The message that is popped later is the buffer as the closure left it,
so two rings deliver the same message whatever they held before exactly when the closure leaves the
same bytes in every buffer (`sameMessage_iff`). One that fills less than it reserved shows the
reader what earlier messages left in the ring.
-/

namespace RapidLog

open Queue RingBuffer

variable [Target]

/-- What `pop` returns after `n` pops. -/
def popAfter : ℕ → Ring → Option (List UInt8)
  | 0, r => (SpscConsumer.pop r).1
  | n + 1, r => popAfter n (SpscConsumer.pop r).2

/-- In any two rings with enough space, the message of a closure that is popped behind the messages
already there is the same. -/
def SameMessage {R : Type} (len : ℕ) (encode : EncodeFn R) : Prop :=
  ∀ (r₁ r₂ : Ring) (msgs₁ msgs₂ : List (List UInt8)),
    SpacedHolds r₁ msgs₁ → SpacedHolds r₂ msgs₂ →
      paddedSize len ≤ r₁.freeSlots → paddedSize len ≤ r₂.freeSlots →
        ∃ r₁' res₁ r₂' res₂ msg,
          SpscProducer.pushEncoded r₁ len encode = some (.ok (r₁', res₁)) ∧
          SpscProducer.pushEncoded r₂ len encode = some (.ok (r₂', res₂)) ∧
          popAfter msgs₁.length r₁' = some msg ∧ popAfter msgs₂.length r₂' = some msg

/-- The frames up to a position are popped before what stands there. -/
theorem popAfter_frames {r : Ring} (h : Spaced r) {q : ℕ} (hq : q ≤ r.tail)
    {msgs : List (List UInt8)} (hframes : Frames { r with tail := q } r.head msgs) :
    popAfter msgs.length r = (SpscConsumer.pop (r.commitRead (q - r.head))).1 ∧
      r.head ≤ q ∧ Spaced (r.commitRead (q - r.head)) := by
  induction msgs generalizing r with
  | nil =>
    obtain rfl : r.head = q := hframes
    rw [Nat.sub_self]
    exact ⟨rfl, le_rfl, h⟩
  | cons msg msgs ih =>
    obtain ⟨hhead, -, hlen, hle, hrest⟩ := hframes
    have hslots : r.slots = r.tail - r.head := rfl
    have hle' : r.head + paddedSize msg.length ≤ q := hle
    have hn : fromNeBytes (r.window r.head 4) = msg.length := by
      rw [show r.window r.head 4 = _ from hhead, SpscProducer.header, Nat.mod_eq_of_lt hlen]
      exact fromNeBytes_toNeBytes (by omega)
    obtain ⟨m, hpop, hspaced⟩ := h.pop hn (by omega)
    obtain ⟨hafter, hle₁, hspaced₁⟩ := ih hspaced hq (frames_commitRead hrest)
    have hadd : (r.commitRead (paddedSize msg.length)).commitRead
        (q - (r.commitRead (paddedSize msg.length)).head) = r.commitRead (q - r.head) := by
      simp only [RingBuffer.commitRead, RingBuffer.mk.injEq, true_and, and_true]
      omega
    rw [hadd] at hafter hspaced₁
    refine ⟨?_, by omega, hspaced₁⟩
    rw [List.length_cons, popAfter, hpop]
    exact hafter

/-- A message is popped behind those that were there before it, up to the length that its header
can store. -/
theorem SpacedHolds.popAfter_appended {r r' : Ring} {msg : List UInt8} {msgs : List (List UInt8)}
    (h : SpacedHolds r msgs) (happ : Appended r r' msg)
    (hfree : paddedSize msg.length ≤ r.freeSlots) :
    popAfter msgs.length r' = some (msg.take (msg.length % 2 ^ 32)) := by
  have hspaced := h.spaced.appended happ hfree
  -- up to the old tail the ring looks as it did before the push
  have hview : SameView r { r' with tail := r.tail } :=
    ⟨happ.capacity_eq, happ.head_eq, rfl, happ.window_eq⟩
  have hframes : Frames { r' with tail := r.tail } r'.head msgs :=
    happ.head_eq ▸ hview.frames le_rfl h.frames
  obtain ⟨hafter, hle, hr⟩ := popAfter_frames hspaced (by rw [happ.tail_eq]; omega) hframes
  have hhead : (r'.commitRead (r.tail - r'.head)).head = r.tail := by
    simp only [RingBuffer.commitRead]
    omega
  set n := msg.length % 2 ^ 32 with hmod
  have hn : fromNeBytes ((r'.commitRead (r.tail - r'.head)).window
      (r'.commitRead (r.tail - r'.head)).head 4) = n := by
    rw [hhead, window_commitRead, happ.header_eq]
    exact fromNeBytes_toNeBytes (Nat.mod_lt _ (by decide))
  have hshort : n ≤ msg.length := Nat.mod_le _ _
  -- a header that was cut asks for no more than the frame has
  have hslots : paddedSize n ≤ (r'.commitRead (r.tail - r'.head)).slots := by
    rw [slots, hhead]
    show paddedSize n ≤ r'.tail - r.tail
    rw [happ.tail_eq, Nat.add_sub_cancel_left, paddedSize_eq, paddedSize_eq]
    omega
  rw [hafter, pop_eq (hr.hasRoom hr.head_dvd) hn, if_pos hslots, hhead, window_commitRead]
  have hpart := happ.window_part (a := 0) (n := n) (by omega)
  rw [Nat.add_zero, List.drop_zero] at hpart
  rw [hpart]

/-- The bytes of its buffer that a closure leaves where `pop` finds them do not depend on what the
buffer held before. -/
def EncodeFn.Overwrites {R : Type} (encode : EncodeFn R) (len : ℕ) : Prop :=
  ∀ buf buf' : List UInt8, buf.length = len → buf'.length = len →
    (encode.run buf).1.take (len % 2 ^ 32) = (encode.run buf').1.take (len % 2 ^ 32)

/-- The message of a closure is what it leaves of the buffer it is lent. -/
theorem pushEncoded_popAfter {R : Type} {r : Ring} {msgs : List (List UInt8)}
    (h : SpacedHolds r msgs) {len : ℕ} (encode : EncodeFn R)
    (hfree : paddedSize len ≤ r.freeSlots) :
    ∃ r' res, SpscProducer.pushEncoded r len encode = some (.ok (r', res)) ∧
      popAfter msgs.length r' = some ((encode.run (lent r len)).1.take (len % 2 ^ 32)) := by
  obtain ⟨r', hpush, happ⟩ :=
    pushEncoded_lent (h.spaced.hasRoom h.spaced.tail_dvd) encode hfree
  have hrun : (encode.run (lent r len)).1.length = len := by rw [encode.length_run, length_lent]
  have hpop := h.popAfter_appended happ (by rw [hrun]; exact hfree)
  rw [hrun] at hpop
  exact ⟨r', _, hpush, hpop⟩

omit [Target] in
/-- A fresh ring can lend a closure any bytes. -/
theorem exists_lent (buf : List UInt8) :
    ∃ r : Ring, r = createQueue (paddedSize buf.length) (fun i => (buf[i - headerSize]?).getD 0) ∧
      paddedSize buf.length ≤ r.freeSlots ∧ lent r buf.length = buf := by
  have hpad := le_paddedSize buf.length
  refine ⟨_, rfl, le_rfl, ?_⟩
  rw [lent, if_pos (by simpa [chunkAt, createQueue, RingBuffer.new] using hpad)]
  refine List.ext_getElem (by simp) fun i hi hi' => ?_
  rw [← Option.some_inj, ← List.getElem?_eq_getElem, getElem?_window, if_pos hi', slotAt]
  have hmod : (0 + headerSize + i) % paddedSize buf.length = headerSize + i := by
    rw [Nat.zero_add]
    exact Nat.mod_eq_of_lt (by omega)
  show some ((buf[(0 + headerSize + i) % paddedSize buf.length - headerSize]?).getD 0) = _
  rw [hmod, Nat.add_sub_cancel_left, List.getElem?_eq_getElem hi', Option.getD_some]

/-- Two rings with enough space get the same message only where the closure does the same to what
they lend it. -/
theorem SameMessage.run_lent {R : Type} {len : ℕ} {encode : EncodeFn R} (h : SameMessage len encode)
    {r₁ r₂ : Ring} {msgs₁ msgs₂ : List (List UInt8)} (h₁ : SpacedHolds r₁ msgs₁)
    (h₂ : SpacedHolds r₂ msgs₂) (hfree₁ : paddedSize len ≤ r₁.freeSlots)
    (hfree₂ : paddedSize len ≤ r₂.freeSlots) :
    (encode.run (lent r₁ len)).1.take (len % 2 ^ 32) =
      (encode.run (lent r₂ len)).1.take (len % 2 ^ 32) := by
  obtain ⟨r₁', res₁, r₂', res₂, msg, hpush₁, hpush₂, hpop₁, hpop₂⟩ :=
    h r₁ r₂ msgs₁ msgs₂ h₁ h₂ hfree₁ hfree₂
  obtain ⟨r₁'', res₁', hpush₁', hpop₁'⟩ := pushEncoded_popAfter h₁ encode hfree₁
  obtain ⟨r₂'', res₂', hpush₂', hpop₂'⟩ := pushEncoded_popAfter h₂ encode hfree₂
  rw [hpush₁, Option.some.injEq, Except.ok.injEq, Prod.mk.injEq] at hpush₁'
  rw [hpush₂, Option.some.injEq, Except.ok.injEq, Prod.mk.injEq] at hpush₂'
  rw [← hpush₁'.1, hpop₁, Option.some.injEq] at hpop₁'
  rw [← hpush₂'.1, hpop₂, Option.some.injEq] at hpop₂'
  rw [← hpop₁', ← hpop₂']

/-- The message is the same in any two rings exactly when the closure overwrites what its buffer
held. -/
theorem sameMessage_iff {R : Type} (len : ℕ) (encode : EncodeFn R) :
    SameMessage len encode ↔ encode.Overwrites len := by
  constructor
  · intro h buf buf' hbuf hbuf'
    -- two fresh rings that lend the closure the one buffer and the other
    have hholds := spacedHolds_createQueue (paddedSize_pos len)
      (Nat.dvd_trans (by decide) (dvd_paddedSize len))
    obtain ⟨r₁, rfl, hfree₁, hlent₁⟩ := exists_lent buf
    obtain ⟨r₂, rfl, hfree₂, hlent₂⟩ := exists_lent buf'
    rw [hbuf] at hfree₁ hlent₁
    rw [hbuf'] at hfree₂ hlent₂
    have hsame := h.run_lent (hholds _) (hholds _) hfree₁ hfree₂
    rwa [hlent₁, hlent₂] at hsame
  · intro h r₁ r₂ msgs₁ msgs₂ h₁ h₂ hfree₁ hfree₂
    obtain ⟨r₁', res₁, hpush₁, hpop₁⟩ := pushEncoded_popAfter h₁ encode hfree₁
    obtain ⟨r₂', res₂, hpush₂, hpop₂⟩ := pushEncoded_popAfter h₂ encode hfree₂
    rw [h _ (lent r₂ len) (length_lent r₁ len) (length_lent r₂ len)] at hpop₁
    exact ⟨r₁', res₁, r₂', res₂, _, hpush₁, hpush₂, hpop₁, hpop₂⟩

/-- A closure that copies some bytes to the front of its buffer and leaves the rest as it was. -/
def EncodeFn.copyFront (out : List UInt8) : EncodeFn Unit where
  run buf := (out.take buf.length ++ buf.drop out.length, ())
  length_run buf := by
    rw [List.length_append, List.length_take, List.length_drop]
    omega

omit [Target] in
/-- It overwrites its buffer exactly when it fills it. -/
theorem overwrites_copyFront_iff {out : List UInt8} {len : ℕ} (hle : out.length ≤ len) :
    (EncodeFn.copyFront out).Overwrites len ↔ len % 2 ^ 32 ≤ out.length := by
  have htake : ∀ buf : List UInt8, buf.length = len →
      ((EncodeFn.copyFront out).run buf).1 = out ++ buf.drop out.length := by
    intro buf hbuf
    show out.take buf.length ++ buf.drop out.length = _
    rw [List.take_of_length_le (hbuf ▸ hle)]
  constructor
  · intro h
    by_contra hlt
    -- the first byte that is not written is a zero in one buffer and a one in the other
    have hsame := h (List.replicate len 0) (List.replicate len 1) List.length_replicate
      List.length_replicate
    rw [htake _ List.length_replicate, htake _ List.length_replicate, List.drop_replicate,
      List.drop_replicate] at hsame
    have hmod := Nat.mod_le len (2 ^ 32)
    have hget := congrArg (fun xs : List UInt8 => xs[out.length]?) hsame
    rw [List.getElem?_take_of_lt (by omega), List.getElem?_take_of_lt (by omega),
      List.getElem?_append_right le_rfl, List.getElem?_append_right le_rfl, Nat.sub_self,
      List.getElem?_replicate, List.getElem?_replicate, if_pos (by omega), if_pos (by omega)]
      at hget
    cases hget
  · intro hfull buf buf' hbuf hbuf'
    rw [htake _ hbuf, htake _ hbuf', List.take_append_of_le_length hfull,
      List.take_append_of_le_length hfull]

omit [Target] in
/-- A closure that writes one byte of four delivers three bytes of the message before it. -/
theorem message_exposes_earlier :
    letI : Target := x86_64
    ¬ SameMessage 4 (EncodeFn.copyFront [1]) := by
  let _ : Target := x86_64
  intro h
  have hfresh := spacedHolds_createQueue (show 0 < 64 by decide) (show 8 ∣ 64 by decide) fun _ => 0
  have hops : ∀ op ∈ [QueueOp.push [7, 7, 7, 7], .pop], op.Possible (· < usizeRange / 2) := by
    simp only [List.mem_cons, List.not_mem_nil, or_false, forall_eq_or_imp, forall_eq]
    exact ⟨by show 4 < 2 ^ 64 / 2; decide, trivial⟩
  have hfits : ∀ op ∈ [QueueOp.push [7, 7, 7, 7], .pop],
      op.Possible fun len => OnOverflow.wraps = .wraps → headerSize + len < usizeRange := by
    refine fun op hop => (hops op hop).mono fun len hlen _ => ?_
    have hlt : len < 2 ^ 64 / 2 := hlen
    show 8 + len < 2 ^ 64
    omega
  obtain ⟨outs, r, msgs, hrun, hr, hcount⟩ :=
    hfresh.runUsize (show 64 < 2 ^ 32 + 64 by decide) hfits
  rw [runUsize_of_lt hops] at hrun
  have hsame := h.run_lent hr hfresh
  have hlent : (runOps (createQueue 64 fun _ => 0) [.push [7, 7, 7, 7], .pop]).map
      (fun s => (s.2.freeSlots, lent s.2 4)) = some (64, [7, 7, 7, 7]) := by
    decide +kernel
  rw [hrun, Option.map_some, Option.some.injEq, Prod.mk.injEq] at hlent
  rw [hlent.1, hlent.2] at hsame
  have hne := hsame (by decide) (by decide)
  revert hne
  decide +kernel

end RapidLog
