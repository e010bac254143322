import RapidLog.ThreadContext.Unbounded

/-!
# The frontend

`frontend.rs`: what a thread does to its thread-local context through the public API. Both
`set_queue_mode` and `preallocate` end in `set_or_create_ctx_with_mode`, which replaces the ring or
only overwrites the mode, depending on how far the queue has grown; a log call pushes an encoded
message under the mode that it finds.

`step` interleaves the calls of all threads, each followed by the steps that complete it, with the
polls, and records what each thread has called. `modeAfter` is the mode that a sequence of calls
leaves in force; `configured` is the one that it asks for.
-/

namespace RapidLog

variable [Target] {τ : Type} [DecidableEq τ]

namespace Frontend

open ThreadContext (Event)

/-- The calls of one thread. -/
inductive Call
  | setQueueMode (mode : QueueMode)
  | preallocate
  /-- A log call above the level: `push_encoded` with the closure of `log_impl!`. -/
  | log (totalMsg : ℕ) (encode : EncodeFn Unit)

/-- `ThreadContext::init_with_mode(mode, DEFAULT_START_CAPACITY)` -/
def setQueueMode (t : τ) (mode : QueueMode) : Event τ := .initWithMode t mode defaultStartCapacity

/-- `ThreadContext::init()` -/
def preallocate (t : τ) : Event τ := .initWithMode t .boundedDropping defaultStartCapacity

/-- The first step of a call. -/
def Call.event (t : τ) : Call → Event τ
  | setQueueMode mode => Frontend.setQueueMode t mode
  | preallocate => Frontend.preallocate t
  | log totalMsg encode => .attempt t (.pushEncoded totalMsg encode)

/-- The thread contexts, and the calls that each thread has made. -/
structure State (τ : Type) where
  tc : ThreadContext.State τ
  calls : τ → List Call

/-- A call of a thread, or a step that belongs to no call or goes on with one. -/
inductive FrontendEvent (τ : Type)
  | call (t : τ) (c : Call)
  | inner (e : Event τ)

def init : State τ where
  tc := ThreadContext.init
  calls _ := []

/-- The first step of a call that reaches the thread context. -/
def isCall : Event τ → Bool
  | .attempt .. | .initWithMode .. => true
  | _ => false

def step (uninit : ℕ → ℕ → UInt8) : Machine (State τ) (FrontendEvent τ)
  | s, .call t c => (ThreadContext.step uninit s.tc (c.event t)).map fun tc =>
    { tc, calls := Function.update s.calls t (s.calls t ++ [c]) }
  | s, .inner e =>
    if isCall e then none
    else (ThreadContext.step uninit s.tc e).map fun tc => { s with tc }

/-! ### Sequences of calls -/

/-- The mode after one more call. -/
def Call.apply (mode : QueueMode) : Call → QueueMode
  | setQueueMode mode' => mode'
  | preallocate => .boundedDropping
  | log .. => mode

/-- The mode that a sequence of calls leaves in force; `ThreadContext::new` starts bounded. -/
def modeAfter (calls : List Call) : QueueMode := calls.foldl Call.apply .boundedDropping

/-- What the call asks for. -/
def Call.requested? : Call → Option QueueMode
  | setQueueMode mode => some mode
  | preallocate | log .. => none

/-- The mode of the most recent `set_queue_mode`, bounded when there was none. -/
def configured (calls : List Call) : QueueMode :=
  (calls.reverse.findSome? Call.requested?).getD .boundedDropping

/-- A `preallocate` came after the most recent `set_queue_mode`, and that one asked for unbounded
mode. -/
def Overwritten (calls : List Call) : Prop :=
  ∃ before after, calls = before ++ .setQueueMode .unboundedBlocking :: after ∧
    .preallocate ∈ after ∧ ∀ mode, .setQueueMode mode ∉ after

section

omit [Target]

@[simp]
theorem modeAfter_concat (calls : List Call) (c : Call) :
    modeAfter (calls ++ [c]) = c.apply (modeAfter calls) := by
  simp [modeAfter]

@[simp]
theorem configured_concat (calls : List Call) (c : Call) :
    configured (calls ++ [c]) = c.requested?.getD (configured calls) := by
  cases c <;> simp [configured, Call.requested?, List.findSome?_cons]

/-- The last element of a list that has `x` in it comes after `x` or is `x`. -/
theorem concat_eq_append_cons {α : Type} {xs before after : List α} {x y : α}
    (h : xs ++ [y] = before ++ x :: after) :
    (xs = before ∧ y = x ∧ after = []) ∨
      ∃ after', after = after' ++ [y] ∧ xs = before ++ x :: after' := by
  rcases List.eq_nil_or_concat' after with rfl | ⟨after', z, rfl⟩
  · obtain ⟨hxs, hy⟩ := List.append_inj' h rfl
    exact .inl ⟨hxs, List.singleton_inj.mp hy, rfl⟩
  · rw [← List.cons_append, ← List.append_assoc] at h
    obtain ⟨hxs, hy⟩ := List.append_inj' h rfl
    obtain rfl := List.singleton_inj.mp hy
    exact .inr ⟨after', rfl, hxs⟩

/-- Unbounded mode is configured when the most recent `set_queue_mode` asked for it. -/
theorem configured_eq_unbounded_iff (calls : List Call) :
    configured calls = .unboundedBlocking ↔ ∃ before after,
      calls = before ++ .setQueueMode .unboundedBlocking :: after ∧
        ∀ mode, .setQueueMode mode ∉ after := by
  induction calls using List.reverseRecOn with
  | nil => simp [configured]
  | append_singleton calls c ih =>
    rw [configured_concat]
    constructor
    · intro h
      cases c with
      | setQueueMode mode =>
        obtain rfl : mode = .unboundedBlocking := h
        exact ⟨calls, [], rfl, by simp⟩
      | preallocate =>
        obtain ⟨before, after, rfl, hnone⟩ := ih.mp h
        exact ⟨before, after ++ [.preallocate], by simp, by simpa using hnone⟩
      | log totalMsg encode =>
        obtain ⟨before, after, rfl, hnone⟩ := ih.mp h
        exact ⟨before, after ++ [.log totalMsg encode], by simp, by simpa using hnone⟩
    · rintro ⟨before, after, heq, hnone⟩
      rcases concat_eq_append_cons heq with ⟨-, rfl, -⟩ | ⟨after', rfl, rfl⟩
      · rfl
      · have hconf := ih.mpr ⟨before, after', rfl, fun mode h => hnone mode (by simp [h])⟩
        cases c with
        | setQueueMode mode => exact absurd (by simp) (hnone mode)
        | preallocate | log => exact hconf

/-- A `set_queue_mode` ends what a `preallocate` has done before. -/
theorem not_overwritten_setQueueMode (calls : List Call) (mode : QueueMode) :
    ¬ Overwritten (calls ++ [.setQueueMode mode]) := by
  rintro ⟨before, after, heq, hmem, hnone⟩
  rcases concat_eq_append_cons heq with ⟨-, -, rfl⟩ | ⟨after', rfl, -⟩
  · cases hmem
  · exact hnone mode (by simp)

/-- A log call changes nothing. -/
theorem overwritten_log (calls : List Call) (totalMsg : ℕ) (encode : EncodeFn Unit) :
    Overwritten (calls ++ [.log totalMsg encode]) ↔ Overwritten calls := by
  constructor
  · rintro ⟨before, after, heq, hmem, hnone⟩
    rcases concat_eq_append_cons heq with ⟨-, -, rfl⟩ | ⟨after', rfl, hcalls⟩
    · cases hmem
    · exact ⟨before, after', hcalls, by simpa using hmem, fun mode h => hnone mode (by simp [h])⟩
  · rintro ⟨before, after, rfl, hmem, hnone⟩
    exact ⟨before, after ++ [.log totalMsg encode], by simp, by simp [hmem], by simpa using hnone⟩

/-- A `preallocate` overwrites exactly an unbounded mode. -/
theorem overwritten_preallocate (calls : List Call) :
    Overwritten (calls ++ [.preallocate]) ↔ configured calls = .unboundedBlocking := by
  rw [configured_eq_unbounded_iff]
  constructor
  · rintro ⟨before, after, heq, hmem, hnone⟩
    rcases concat_eq_append_cons heq with ⟨-, -, rfl⟩ | ⟨after', rfl, hcalls⟩
    · cases hmem
    · exact ⟨before, after', hcalls, fun mode h => hnone mode (by simp [h])⟩
  · rintro ⟨before, after, rfl, hnone⟩
    exact ⟨before, after ++ [.preallocate], by simp, by simp, by simpa using hnone⟩

/-- A mode that has been overwritten is not the configured one, and the other way round. -/
theorem modeAfter_eq_configured_iff (calls : List Call) :
    modeAfter calls = configured calls ↔ ¬ Overwritten calls := by
  induction calls using List.reverseRecOn with
  | nil =>
    refine iff_of_true rfl ?_
    rintro ⟨before, after, heq, -⟩
    simp at heq
  | append_singleton calls c ih =>
    rw [modeAfter_concat, configured_concat]
    cases c with
    | setQueueMode mode => exact iff_of_true rfl (not_overwritten_setQueueMode calls mode)
    | preallocate =>
      rw [overwritten_preallocate]
      show QueueMode.boundedDropping = configured calls ↔ _
      cases configured calls <;> simp
    | log totalMsg encode => rwa [overwritten_log]

end

/-! ### The mode of a thread -/

/-- The mode of the context that the thread has or will have. -/
def mode? : Thread → Option QueueMode
  | .unstarted => some .boundedDropping
  | .ready _ mode | .registering _ mode none => some mode
  | .full .. | .registering _ _ (some _) | .retrying .. => some .unboundedBlocking
  | .exited => none

/-- Every thread is under the mode that its calls have left in force. -/
def InForce (s : State τ) : Prop :=
  ∀ t mode, mode? (s.tc.threads t) = some mode → mode = modeAfter (s.calls t)

section

variable {s s' : ThreadContext.State τ} {t : τ} {uninit : ℕ → ℕ → UInt8} {e : Event τ}

/-- A thread that attempts to push stays under its mode. -/
theorem mode_tryPush {b : ℕ} {mode mode' : QueueMode} (req : Request)
    (ht : mode? (s.threads t) = some mode)
    (h : mode? ((s.tryPush t b mode req).threads t) = some mode') : mode' = mode := by
  simp only [ThreadContext.State.tryPush] at h
  split at h
  · exact Option.some.inj (h.symm.trans ht)
  · simp only [Function.update_self, mode?, Option.some.injEq] at h
    exact h.symm
  · cases mode <;>
      · simp only [ThreadContext.State.setThread, Function.update_self, mode?,
          Option.some.injEq] at h
        exact h.symm

/-- Steps that are not calls leave every thread under its mode. -/
theorem mode_inner (hcall : isCall e = false) (hs : ThreadContext.step uninit s e = some s')
    {mode : QueueMode} (h : mode? (s'.threads t) = some mode) :
    mode? (s.threads t) = some mode := by
  rcases ThreadContext.step_frame hs with ⟨t', hby, hown⟩ | ⟨-, hpoll⟩
  swap
  · rwa [hpoll.threads] at h
  rcases eq_or_ne t t' with rfl | hne
  swap
  · rwa [hown.threads t hne] at h
  -- a step of `t` itself that is no call: it creates, registers or gives up its ring
  cases ThreadContext.step_cases hs with
  | attempt | replace | setMode => cases hcall
  | pollBegin | pollStep | pollEnd => cases hby
  | access ht =>
    cases hby
    simp only [ThreadContext.State.create, Function.update_self] at h
    rwa [ht]
  | register ht =>
    cases hby
    simp only [ThreadContext.State.setThread, Function.update_self] at h
    rw [ht]
    exact h
  | registerGrown ht =>
    cases hby
    simp only [ThreadContext.State.setThread, Function.update_self] at h
    rw [ht]
    exact h
  | @retry _ req block ht =>
    cases hby
    have hmode : mode? (s.threads t) = some .unboundedBlocking := by rw [ht]; rfl
    rw [hmode, mode_tryPush req hmode h]
  | atLimit ht =>
    cases hby
    simp only [ThreadContext.State.setThread, Function.update_self] at h
    rw [ht]
    exact h
  | grow ht =>
    cases hby
    simp only [ThreadContext.State.create, Function.update_self] at h
    rw [ht]
    exact h
  | exitUnstarted | exit =>
    cases hby
    simp [ThreadContext.State.setThread, mode?] at h

/-- A call leaves the thread under the mode that it sets. -/
theorem mode_call {c : Call} (hs : ThreadContext.step uninit s (c.event t) = some s')
    {mode mode' : QueueMode} (ht : ∀ m, mode? (s.threads t) = some m → m = mode)
    (h : mode? (s'.threads t) = some mode') : mode' = c.apply mode := by
  have hinit : ∀ m, ThreadContext.step uninit s (.initWithMode t m defaultStartCapacity) =
      some s' → mode' = m := by
    intro m hs
    cases ThreadContext.step_cases hs with
    | replace =>
      simp only [ThreadContext.State.create, Function.update_self, mode?, Option.some.injEq] at h
      exact h.symm
    | setMode =>
      simp only [ThreadContext.State.setThread, Function.update_self, mode?,
        Option.some.injEq] at h
      exact h.symm
  cases c with
  | setQueueMode m => exact hinit m hs
  | preallocate => exact hinit _ hs
  | log totalMsg encode =>
    cases ThreadContext.step_cases hs with
    | @attempt _ _ block m hready =>
      have hmode : mode? (s.threads t) = some m := by rw [hready]; rfl
      rw [mode_tryPush _ hmode h]
      exact ht m hmode

end

/-- Every step keeps the threads under the modes of their calls. -/
theorem InForce.step {uninit : ℕ → ℕ → UInt8} {s s' : State τ} {e : FrontendEvent τ}
    (h : InForce s) (hs : step uninit s e = some s') : InForce s' := by
  intro t mode hmode
  cases e with
  | call t' c =>
    obtain ⟨tc, htc, rfl⟩ := Option.map_eq_some_iff.mp hs
    rcases eq_or_ne t t' with rfl | hne
    · simp only [Function.update_self, modeAfter_concat]
      exact mode_call htc (h t) hmode
    · simp only [Function.update_of_ne hne]
      have hby : ∀ t₀, (c.event t').By t₀ → t₀ = t' := by
        intro t₀ hby
        cases c <;> exact hby.symm
      rcases ThreadContext.step_frame htc with ⟨t₀, ht₀, hown⟩ | ⟨-, hpoll⟩
      · obtain rfl := hby t₀ ht₀
        rw [hown.threads t hne] at hmode
        exact h t mode hmode
      · rw [hpoll.threads] at hmode
        exact h t mode hmode
  | inner e =>
    simp only [Frontend.step] at hs
    split at hs
    · cases hs
    · next hcall =>
      obtain ⟨tc, htc, rfl⟩ := Option.map_eq_some_iff.mp hs
      exact h t mode (mode_inner (by simpa using hcall) htc hmode)

theorem inForce_of_reach {uninit : ℕ → ℕ → UInt8} {ok : State τ → FrontendEvent τ → Prop}
    {s : State τ} (h : (step uninit).Reach ok init s) : InForce s :=
  h.invariant (fun _ _ hmode => (Option.some.inj hmode).symm) fun _ _ _ hs _ he => hs.step he

/-- A log call runs under the mode of the most recent `set_queue_mode` of its thread, bounded
when there was none, exactly when no `preallocate` has come after a `set_queue_mode` that asked for
unbounded mode. -/
theorem log_mode_iff (uninit : ℕ → ℕ → UInt8) {s s' : State τ}
    (hreach : (step uninit).Reach (fun _ _ => True) init s) {t : τ} {totalMsg : ℕ}
    {encode : EncodeFn Unit} (hlog : step uninit s (.call t (.log totalMsg encode)) = some s') :
    ∃ block mode, s.tc.threads t = .ready block mode ∧
      s'.tc = s.tc.tryPush t block mode (.pushEncoded totalMsg encode) ∧
      (mode = configured (s.calls t) ↔ ¬ Overwritten (s.calls t)) := by
  obtain ⟨tc, htc, rfl⟩ := Option.map_eq_some_iff.mp hlog
  simp only [Call.event, ThreadContext.step] at htc
  split at htc
  · next block mode hready =>
    cases htc
    have hmode : mode = modeAfter (s.calls t) :=
      inForce_of_reach hreach t mode (by rw [hready]; rfl)
    refine ⟨block, mode, hready, rfl, ?_⟩
    rw [hmode]
    exact modeAfter_eq_configured_iff _
  · cases htc

omit [Target] in
private theorem length_noWrite (buf : List UInt8) : (buf, ()).1.length = buf.length := rfl

/-- A closure that leaves its buffer alone. -/
def noWrite : EncodeFn Unit where
  run buf := (buf, ())
  length_run := length_noWrite

/-- A thread asks for unbounded mode. -/
def askUnbounded : List (FrontendEvent Unit) :=
  [.inner (.access ()), .inner (.register ()), .call () (.setQueueMode .unboundedBlocking)]

omit [Target] in
/-- Without a `preallocate` the call runs in unbounded mode. -/
theorem log_mode_iff_unbounded :
    letI : Target := x86_64
    ∃ s s' : State Unit, (step fun _ _ => 0).run init askUnbounded = some s ∧
      step (fun _ _ => 0) s (.call () (.log 0 noWrite)) = some s' ∧
      ∃ block, s.tc.threads () = .ready block .unboundedBlocking := by
  let _ : Target := x86_64
  obtain ⟨s, hs, hcalls⟩ : ∃ s, (step fun _ _ => 0).run (init : State Unit) askUnbounded = some s ∧
      s.calls () = [.setQueueMode .unboundedBlocking] := ⟨_, rfl, rfl⟩
  have hlog : ((step fun _ _ => 0).run (init : State Unit)
      (askUnbounded ++ [.call () (.log 0 noWrite)])).isSome = true := by decide +kernel
  obtain ⟨s', hs'⟩ := Option.isSome_iff_exists.mp hlog
  rw [Machine.run_append, hs, Option.bind_some, Machine.run_cons] at hs'
  obtain ⟨s₁, hstep, -⟩ := Option.bind_eq_some_iff.mp hs'
  obtain ⟨block, mode, hready, -, hmode⟩ :=
    log_mode_iff _ (.of_run (fun _ _ _ => trivial) hs) hstep
  have hnot := not_overwritten_setQueueMode [] .unboundedBlocking
  rw [hcalls] at hmode
  obtain rfl := hmode.mpr hnot
  exact ⟨s, s₁, hs, hstep, block, hready⟩

omit [Target] in
/-- After a `preallocate` the thread is back in bounded mode, though it has asked for unbounded
mode last. -/
theorem preallocate_overwrites_mode :
    letI : Target := x86_64
    ∃ s : State Unit, (step fun _ _ => 0).Reach (fun _ _ => True) init s ∧
      (step (fun _ _ => 0) s (.call () (.log 0 noWrite))).isSome = true ∧
      configured (s.calls ()) = .unboundedBlocking ∧
      ∃ block, s.tc.threads () = .ready block .boundedDropping := by
  let _ : Target := x86_64
  have hrun : ((step fun _ _ => 0).run (init : State Unit)
      (askUnbounded ++ [.call () .preallocate])).map (fun s => decide (
        (s.tc.threads ()).ready? = some (0, .boundedDropping) ∧
        (step (fun _ _ => 0) s (.call () (.log 0 noWrite))).isSome = true ∧
        configured (s.calls ()) = .unboundedBlocking)) = some true := by
    decide +kernel
  obtain ⟨s, hs, hs'⟩ := Option.map_eq_some_iff.mp hrun
  obtain ⟨hready, hlog, hconf⟩ := of_decide_eq_true hs'
  exact ⟨s, .of_run (fun _ _ _ => trivial) hs, hlog, hconf, 0, ThreadContext.eq_ready hready⟩

end Frontend

end RapidLog
