import RapidLog.ThreadContext.Streams
import RapidLog.ThreadContext.Steps

/-!
# How much a poll has yet to do

A poll pops the messages that stand in the rings and looks at each ring three times at most: a last
time for a message, then whether its producer is gone, then whether it is empty. The threads may
push behind its back, so what is left to do grows with every message that is accepted.

`Advance` is one step of a poll, `Drift` what a step of anybody else does to the work of a poller.
-/

namespace RapidLog

open Queue

variable {τ : Type}

namespace ThreadContext

namespace State

/-- How many accepted messages no poll has popped. -/
def unread (s : State τ) : ℕ := s.accepted.length - (s.polled.length + s.inFlight.length)

/-- How many rings have been registered. -/
def registered (s : State τ) : ℕ := s.registry.length + s.removed.length

/-- How many steps a poll is from its end when it finds no message. -/
def ringsLeft (s : State τ) (p : Poll τ) : ℕ :=
  3 * (s.registry.length - p.index) + phaseRank p.phase - 2

/-- The poll of `w`, when it holds the lock. -/
def pollOf (s : State τ) (w : ℕ) : Option (Poll τ) := s.poll.filter fun p => p.poller = w

end State

/-- A step of a poll: one message less, or one step closer to the end. -/
structure Advance (s : State τ) (p : Poll τ) (s' : State τ) (q : Poll τ) : Prop where
  poll : s'.poll = some q
  poller : q.poller = p.poller
  accepted : s'.accepted = s.accepted
  polled : s'.polled = s.polled
  registered : s'.registered = s.registered
  registry : s'.registry.length ≤ s.registry.length
  spent : (q.allMsgs.length = p.allMsgs.length + 1 ∧ s'.ringsLeft q = s.ringsLeft p) ∨
    (q.allMsgs.length = p.allMsgs.length ∧ s'.ringsLeft q + 1 ≤ s.ringsLeft p)

/-- What a step that is not one of `w` does to the work of `w`. -/
structure Drift (w : ℕ) (s s' : State τ) : Prop where
  pollOf : s'.pollOf w = s.pollOf w
  accepted : s.accepted.length ≤ s'.accepted.length
  unread : s'.unread + s.accepted.length ≤ s.unread + s'.accepted.length
  registered : s.registered ≤ s'.registered
  registry : s'.registry.length + s.registered ≤ s.registry.length + s'.registered
  /-- Nobody else touches the registry during a poll. -/
  locked : s.pollOf w ≠ none → s'.registry = s.registry

section

variable {s s' : State τ} {p : Poll τ} {w : ℕ}

theorem Drift.refl (w : ℕ) (s : State τ) : Drift w s s :=
  ⟨rfl, le_rfl, le_rfl, le_rfl, le_rfl, fun _ => rfl⟩

variable [Target] [DecidableEq τ] {uninit : ℕ → ℕ → UInt8} {e : Event τ}

/-- The polls have popped no more than was accepted. -/
theorem Inv.popped_le (h : Inv s) (howned : ∀ m ∈ s.accepted, ∃ t, m.1 = some t) :
    s.polled.length + s.inFlight.length ≤ s.accepted.length := by
  have hperm := (h.accepted_perm howned).length_eq
  simp only [List.length_append] at hperm
  omega

omit [DecidableEq τ] in
private theorem advance_pollAt {b : ℕ} (hb : s.registry[p.index]? = some b) :
    ∃ q, Advance s p (s.pollAt p b) q := by
  have hlt := (List.getElem?_eq_some_iff.mp hb).1
  simp only [State.pollAt]
  cases hphase : p.phase with
  | popping =>
    rcases SpscConsumer.pop (s.rings b) with ⟨_ | msg, r⟩
    · refine ⟨_, rfl, rfl, rfl, rfl, rfl, le_rfl, .inr ⟨rfl, ?_⟩⟩
      simp only [State.ringsLeft, hphase, phaseRank]
      omega
    · refine ⟨_, rfl, rfl, rfl, rfl, rfl, le_rfl, .inl ⟨by simp, ?_⟩⟩
      simp only [State.ringsLeft, hphase]
  | checkAbandoned =>
    by_cases hab : s.abandoned b = true
    · simp only [if_pos hab]
      refine ⟨_, rfl, rfl, rfl, rfl, rfl, le_rfl, .inr ⟨rfl, ?_⟩⟩
      simp only [State.ringsLeft, hphase, phaseRank]
      omega
    · simp only [if_neg hab]
      refine ⟨_, rfl, rfl, rfl, rfl, rfl, le_rfl, .inr ⟨rfl, ?_⟩⟩
      simp only [State.ringsLeft, hphase, phaseRank]
      omega
  | checkEmpty =>
    by_cases hempty : SpscConsumer.isEmpty (s.rings b) = true
    · simp only [if_pos hempty]
      -- the next ring takes the index of the one that goes
      have hlen : (s.registry.eraseIdx p.index).length = s.registry.length - 1 :=
        List.length_eraseIdx_of_lt hlt
      refine ⟨_, rfl, rfl, rfl, rfl, ?_, ?_, .inr ⟨rfl, ?_⟩⟩
      · simp only [State.registered, hlen, List.length_append, List.length_singleton]
        omega
      · simp only [hlen]
        omega
      · simp only [State.ringsLeft, hphase, phaseRank, hlen]
        omega
    · simp only [if_neg hempty]
      refine ⟨_, rfl, rfl, rfl, rfl, rfl, le_rfl, .inr ⟨rfl, ?_⟩⟩
      simp only [State.ringsLeft, hphase, phaseRank]
      omega

/-- What a step of a poll does. -/
theorem advance_of_pollStep (hp : s.poll = some p) (hs : step uninit s .pollStep = some s') :
    ∃ q, Advance s p s' q := by
  cases step_cases hs with
  | pollStep hp' hb =>
    obtain rfl := Option.some.inj (hp.symm.trans hp')
    exact advance_pollAt hb

omit [Target] [DecidableEq τ] in
/-- A message that is popped was not popped before. -/
theorem Advance.unread {q : Poll τ} (h : Advance s p s' q) (hp : s.poll = some p)
    (hle : s'.polled.length + s'.inFlight.length ≤ s'.accepted.length) :
    s'.unread + q.allMsgs.length = s.unread + p.allMsgs.length := by
  rw [inFlight_of_poll h.poll] at hle
  rw [State.unread, State.unread, inFlight_of_poll h.poll, inFlight_of_poll hp, h.accepted,
    h.polled] at *
  rcases h.spent with ⟨hmsgs, -⟩ | ⟨hmsgs, -⟩ <;> omega

/-! ### Steps of others -/

omit [Target] [DecidableEq τ] in
/-- A step of a thread that registers no ring. -/
private theorem Drift.of_eq (hpoll : s'.poll = s.poll) (hpolled : s'.polled = s.polled)
    (hregistry : s'.registry = s.registry) (hremoved : s'.removed = s.removed)
    (haccepted : s.accepted.length ≤ s'.accepted.length) : Drift w s s' where
  pollOf := by rw [State.pollOf, State.pollOf, hpoll]
  accepted := haccepted
  unread := by
    have hinFlight : s'.inFlight = s.inFlight := by rw [State.inFlight, State.inFlight, hpoll]
    rw [State.unread, State.unread, hinFlight, hpolled]
    omega
  registered := by rw [State.registered, State.registered, hregistry, hremoved]
  registry := by rw [State.registered, State.registered, hregistry, hremoved]
  locked _ := hregistry

private theorem drift_tryPush (s : State τ) (t : τ) (b : ℕ) (mode : QueueMode) (req : Request) :
    Drift w s (s.tryPush t b mode req) := by
  simp only [State.tryPush]
  split
  · exact .of_eq rfl rfl rfl rfl le_rfl
  · exact .of_eq rfl rfl rfl rfl (by simp)
  · cases mode with
    | boundedDropping => exact .of_eq rfl rfl rfl rfl le_rfl
    | unboundedBlocking => exact .of_eq rfl rfl rfl rfl le_rfl

/-- A thread adds a message or a ring at most, the ring only while no poll is going on. -/
theorem drift_of_thread (he : e.isPoll = false) (hs : step uninit s e = some s') :
    Drift w s s' := by
  have hregister : ∀ (b : ℕ) (t : τ) (thread : Thread), s.poll = none →
      Drift w s { s.setThread t thread with registry := s.registry ++ [b] } := by
    intro b t thread hpoll
    refine ⟨rfl, le_rfl, le_rfl, ?_, ?_, fun hne => ?_⟩
    · simp [State.registered, State.setThread]
    · simp only [State.registered, State.setThread, List.length_append, List.length_singleton]
      omega
    · rw [State.pollOf, hpoll] at hne
      exact absurd rfl hne
  cases step_cases hs with
  | register _ hpoll | registerGrown _ hpoll => exact hregister _ _ _ hpoll
  | attempt | retry => exact drift_tryPush ..
  | access | grow | replace | atLimit | setMode | exitUnstarted | exit =>
    exact .of_eq rfl rfl rfl rfl le_rfl
  | pollBegin | pollStep | pollEnd => cases he

/-- A step of the poll of another poller. -/
theorem drift_of_poll (he : e.isPoll = true) (hs : step uninit s e = some s')
    (hbegin : e ≠ .pollBegin w) (hother : s.pollOf w = none)
    (hle : s'.polled.length + s'.inFlight.length ≤ s'.accepted.length) : Drift w s s' := by
  cases step_cases hs with
  | @pollBegin poller hpoll =>
    have hne : poller ≠ w := by
      rintro rfl
      exact hbegin rfl
    refine ⟨?_, le_rfl, ?_, le_rfl, le_rfl, fun _ => rfl⟩
    · rw [hother]
      simp [State.pollOf, hne]
    · simp [State.unread, State.inFlight, hpoll]
  | @pollStep p b hp hb =>
    obtain ⟨q, hadvance⟩ := advance_pollAt (s := s) hb
    have hunread := hadvance.unread hp hle
    have hmsgs : p.allMsgs.length ≤ q.allMsgs.length := by
      rcases hadvance.spent with ⟨hmsgs, -⟩ | ⟨hmsgs, -⟩ <;> omega
    refine ⟨?_, hadvance.accepted ▸ le_rfl, ?_, hadvance.registered.ge, ?_, fun hne => ?_⟩
    · have hne : p.poller ≠ w := by simpa [State.pollOf, hp] using hother
      rw [hother]
      simp [State.pollOf, hadvance.poll, hadvance.poller, hne]
    · rw [hadvance.accepted]
      omega
    · rw [hadvance.registered]
      exact Nat.add_le_add_right hadvance.registry _
    · exact absurd hother hne
  | @pollEnd p hp hi =>
    refine ⟨?_, le_rfl, ?_, le_rfl, le_rfl, fun _ => rfl⟩
    · rw [hother]
      rfl
    · simp [State.unread, State.inFlight, hp]
  | _ => cases he

end

end ThreadContext

end RapidLog
