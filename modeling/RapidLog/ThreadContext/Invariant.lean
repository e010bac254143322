import RapidLog.Lib.FlatMap
import RapidLog.ThreadContext

/-!
# The invariant of the consumer registry

What holds between any two steps of the threads and the polls:

* a thread owns the last ring it created, and this is its only ring that is not abandoned;
* the registry holds the rings of each thread in the order of their creation, and a ring that is
  in it no more is abandoned and empty;
* a poll has passed a ring only when no later ring of the same thread was registered, so a message
  is popped only when all older messages of its thread have been;
* the messages of a thread that were accepted are those that polls have popped followed by those
  in its rings.

`Inv.step` shows that every step keeps the invariant, one lemma for each thing a step can do.
-/

namespace RapidLog

open Queue RingBuffer

variable [Target] {τ : Type} [DecidableEq τ]

/-- The ring that the thread owns. -/
def Thread.block? : Thread → Option ℕ
  | unstarted | exited => none
  | ready block _ | full block _ | registering block _ _ | retrying block _ => some block

/-- Whether the consumer of the thread's ring is not registered yet. -/
def Thread.Registering (thread : Thread) (block : ℕ) : Prop :=
  ∃ mode req, thread = .registering block mode req

omit [Target] in
theorem Thread.Registering.block? {thread : Thread} {block : ℕ} (h : thread.Registering block) :
    thread.block? = some block := by
  obtain ⟨mode, req, rfl⟩ := h
  rfl

/-- The messages that a request can leave in a ring: the bytes to copy, or what the closure makes of
some buffer of the message length. -/
def Request.Writes : Request → List UInt8 → Prop
  | push data, msg => msg = data
  | pushEncoded totalMsg encode, msg =>
    ∃ buf : List UInt8, buf.length = totalMsg ∧ msg = (encode.run buf).1

omit [Target] in
theorem Request.Writes.length_eq {req : Request} {msg : List UInt8} (h : req.Writes msg) :
    msg.length = req.length := by
  cases req with
  | push data => exact congrArg List.length h
  | pushEncoded totalMsg encode =>
    obtain ⟨buf, hlen, rfl⟩ := h
    exact (encode.length_run buf).trans hlen

/-- An attempt that fits the free slots appends the message it offers. -/
theorem Request.attempt_spec {r : Ring} (h : HasRoom r r.tail) (req : Request)
    (hfree : paddedSize req.length ≤ r.freeSlots) :
    ∃ r' msg, req.attempt r = some (.ok (r', msg)) ∧ req.Writes msg ∧ Appended r r' msg := by
  cases req with
  | push data =>
    obtain ⟨r', hpush, happ⟩ := push_spec h hfree
    exact ⟨r', data, by simp [attempt, hpush, Except.map], rfl, happ⟩
  | pushEncoded totalMsg encode =>
    have hfree : paddedSize totalMsg ≤ r.freeSlots := hfree
    obtain ⟨buf, r', hlen, hpush, happ⟩ := pushEncoded_spec h encode.echo hfree
    refine ⟨r', (encode.run buf).1, ?_, ⟨buf, hlen, rfl⟩, happ⟩
    rw [attempt, hpush]
    rfl

/-- An attempt that does not fit is refused. -/
theorem Request.attempt_full (r : Ring) {req : Request}
    (hfull : ¬ paddedSize req.length ≤ r.freeSlots) : req.attempt r = some (.error .full) := by
  cases req with
  | push data => simp [attempt, push_full r hfull, Except.map]
  | pushEncoded totalMsg encode =>
    have hfull : ¬ paddedSize totalMsg ≤ r.freeSlots := hfull
    rw [attempt, pushEncoded_full r encode.echo hfull]
    rfl

namespace ThreadContext

omit [Target] in
@[simp]
theorem ofThread_append (t : τ) (xs ys : List (Option τ × List UInt8)) :
    ofThread t (xs ++ ys) = ofThread t xs ++ ofThread t ys := by
  simp [ofThread]

omit [Target] in
@[simp]
theorem ofThread_nil (t : τ) : ofThread t [] = [] := rfl

omit [Target] in
theorem ofThread_singleton (t : τ) (o : Option τ) (msg : List UInt8) :
    ofThread t [(o, msg)] = if o = some t then [msg] else [] := by
  by_cases h : o = some t <;> simp [ofThread, h]

/-- The messages that a poll in progress has popped so far. -/
def State.inFlight (s : State τ) : List (Option τ × List UInt8) :=
  (s.poll.map Poll.allMsgs).getD []

omit [Target] [DecidableEq τ] in
theorem inFlight_of_poll {s : State τ} {p : Poll τ} (hp : s.poll = some p) :
    s.inFlight = p.allMsgs := by
  simp [State.inFlight, hp]

/-- The messages that a ring still holds, seen from a thread: none when it is not its own. -/
def State.pendingIn (s : State τ) (t : τ) (block : ℕ) : List (List UInt8) :=
  if s.owner block = some t then pending (s.rings block) else []

/-- Only the owner and the messages of the ring matter. -/
theorem pendingIn_congr {s s' : State τ} {b : ℕ} (t : τ) (ho : s'.owner b = s.owner b)
    (hp : pending (s'.rings b) = pending (s.rings b)) : s'.pendingIn t b = s.pendingIn t b := by
  simp only [State.pendingIn, ho, hp]

/-- The messages in the rings of a thread, oldest ring first. -/
def State.pendingOf (s : State τ) (t : τ) : List (List UInt8) :=
  (List.range s.created).flatMap (s.pendingIn t)

/-- Ring capacities are positive multiples of the cache line. -/
def ValidCapacity : Event τ → Prop
  | .initWithMode _ _ startCapacity => 0 < startCapacity ∧ 64 ∣ startCapacity
  | _ => True

/-- The ring refuses the message, or its length fits the `u32` of the header. -/
def HeaderFits (s : State τ) (block : ℕ) (req : Request) : Prop :=
  paddedSize req.length ≤ (s.rings block).freeSlots → req.length < 2 ^ 32

/-- No message of `2 ^ 32` bytes or more is accepted. -/
def ShortMessage (s : State τ) : Event τ → Prop
  | .attempt t req => ∀ block mode, s.threads t = .ready block mode → HeaderFits s block req
  | .retry t => ∀ block req, s.threads t = .retrying block req → HeaderFits s block req
  | _ => True

/-- What holds between any two steps. -/
structure Inv (s : State τ) : Prop where
  owner_iff : ∀ b, s.owner b = none ↔ s.created ≤ b
  holds : ∀ b < s.created, Holds (s.rings b) (pending (s.rings b))
  /-- A thread owns the last ring it created, and has not dropped its producer. -/
  current : ∀ t b, (s.threads t).block? = some b →
    s.owner b = some t ∧ s.abandoned b = false ∧ ∀ b', s.owner b' = some t → b' ≤ b
  /-- All its other rings are abandoned. -/
  live : ∀ t b, s.owner b = some t → s.abandoned b = false → (s.threads t).block? = some b
  registering : ∀ t b, (s.threads t).Registering b → b ∉ s.registry ∧ pending (s.rings b) = []
  registry_lt : ∀ b ∈ s.registry, b < s.created
  registry_sorted : s.registry.Pairwise fun a b => s.owner a = s.owner b → a < b
  /-- A ring that is not in the registry is not there yet or no more. -/
  unregistered : ∀ b < s.created, b ∉ s.registry →
    (∃ t, (s.threads t).Registering b) ∨ b ∈ s.removed
  removed : ∀ b ∈ s.removed, s.abandoned b = true ∧ pending (s.rings b) = [] ∧ b < s.created
  /-- No ring that a poll has yet to reach belongs to a thread whose ring it has passed. -/
  passed : ∀ p, s.poll = some p → ∀ a ∈ s.registry.take p.index, ∀ b ∈ s.registry.drop p.index,
    s.owner a ≠ s.owner b
  /-- After its `pop_all`, a ring that is not the last one of its thread is empty. -/
  drained : ∀ p, s.poll = some p → p.phase ≠ .popping → ∃ b, s.registry[p.index]? = some b ∧
    ∀ b' ∈ s.registry.drop (p.index + 1), s.owner b' = s.owner b → pending (s.rings b) = []
  checked : ∀ p, s.poll = some p → p.phase = .checkEmpty →
    ∀ b, s.registry[p.index]? = some b → s.abandoned b = true
  conserved : ∀ t, ofThread t s.accepted =
    ofThread t (s.polled ++ s.inFlight) ++ s.pendingOf t
  /-- Every popped message came out of the ring of a thread. -/
  owned : ∀ msg ∈ s.polled ++ s.inFlight, ∃ t, msg.1 = some t
  faulted : s.faulted = false

namespace Inv

variable {s : State τ} {t : τ} {b : ℕ}

theorem lt_of_owner (h : Inv s) (ho : s.owner b = some t) : b < s.created := by
  by_contra hge
  rw [(h.owner_iff b).mpr (not_lt.mp hge)] at ho
  cases ho

/-! ### Threads -/

omit [Target] in
/-- Whether a thread other than the one that moves is registering. -/
private theorem registering_setThread {thread : Thread} (hold : ¬ (s.threads t).Registering b)
    (hnew : ¬ thread.Registering b) :
    (∃ t', (Function.update s.threads t thread t').Registering b) ↔
      ∃ t', (s.threads t').Registering b := by
  refine exists_congr fun t' => ?_
  rcases eq_or_ne t' t with rfl | hne
  · rw [Function.update_self]
    exact iff_of_false hnew hold
  · rw [Function.update_of_ne hne]

omit [Target] in
/-- A thread that keeps its ring. -/
private theorem block?_setThread {thread : Thread}
    (hblock : thread.block? = (s.threads t).block?) (t' : τ) :
    (Function.update s.threads t thread t').block? = (s.threads t').block? := by
  rcases eq_or_ne t' t with rfl | hne
  · rw [Function.update_self, hblock]
  · rw [Function.update_of_ne hne]

omit [Target] in
/-- Only the other threads can be registering. -/
private theorem registering_of_update {thread : Thread} {t' : τ} (hnew : ¬ thread.Registering b)
    (hr : (Function.update s.threads t thread t').Registering b) :
    t' ≠ t ∧ (s.threads t').Registering b := by
  rcases eq_or_ne t' t with rfl | hne
  · rw [Function.update_self] at hr
    exact absurd hr hnew
  · rw [Function.update_of_ne hne] at hr
    exact ⟨hne, hr⟩

/-- A thread that keeps its ring, before and after a step that does not register. -/
theorem setThread (h : Inv s) {thread : Thread} (hblock : thread.block? = (s.threads t).block?)
    (hold : ∀ b, ¬ (s.threads t).Registering b) (hnew : ∀ b, ¬ thread.Registering b) :
    Inv (s.setThread t thread) := by
  have hsame := block?_setThread hblock
  refine { h with
    current := fun t' b hb => h.current t' b (hsame t' ▸ hb)
    live := fun t' b ho hl => (hsame t').trans (h.live t' b ho hl)
    registering := fun t' b hr => h.registering t' b (registering_of_update (hnew b) hr).2
    unregistered := fun b hb hmem => ?_ }
  simp only [State.setThread, registering_setThread (hold b) (hnew b)]
  exact h.unregistered b hb hmem

/-- A thread drops the producer of its ring and owns none. -/
theorem drop (h : Inv s) (hb : (s.threads t).block? = some b)
    (hold : ∀ b, ¬ (s.threads t).Registering b) :
    Inv ((s.dropProducer b).setThread t .exited) := by
  have hnew : ∀ b, ¬ Thread.exited.Registering b := by simp [Thread.Registering]
  obtain ⟨howner, -, -⟩ := h.current t b hb
  have hother : ∀ t' b', t' ≠ t → s.owner b' = some t' → b' ≠ b := by
    rintro t' _ hne ho rfl
    rw [howner, Option.some.injEq] at ho
    exact hne ho.symm
  have hdropped : ∀ b', s.abandoned b' = true → Function.update s.abandoned b true b' = true := by
    intro b' hab
    rcases eq_or_ne b' b with rfl | hneb
    · rw [Function.update_self]
    · rwa [Function.update_of_ne hneb]
  refine { h with
    current := fun t' b' hb' => ?_
    live := fun t' b' ho hl => ?_
    registering := fun t' b' hr => h.registering t' b' (registering_of_update (hnew b') hr).2
    unregistered := fun b' hb' hmem => ?_
    removed := fun b' hrem => ⟨hdropped b' (h.removed b' hrem).1, (h.removed b' hrem).2⟩
    checked := fun p hp hphase b' hb' => hdropped b' (h.checked p hp hphase b' hb') }
  -- `t` owns no ring any more, and the rings of the others are not the one it dropped
  · simp only [State.setThread, State.dropProducer] at hb' ⊢
    rcases eq_or_ne t' t with rfl | hne
    · rw [Function.update_self] at hb'
      cases hb'
    · rw [Function.update_of_ne hne] at hb'
      have hcur := h.current t' b' hb'
      rw [Function.update_of_ne (hother t' b' hne hcur.1)]
      exact hcur
  -- a ring that is not abandoned is not the dropped one, so its owner is not `t`
  · simp only [State.setThread, State.dropProducer] at ho hl ⊢
    rcases eq_or_ne b' b with rfl | hneb
    · rw [Function.update_self] at hl
      cases hl
    · rw [Function.update_of_ne hneb] at hl
      have hb' := h.live t' b' ho hl
      have hne : t' ≠ t := by
        rintro rfl
        exact hneb (Option.some.inj (hb'.symm.trans hb))
      rwa [Function.update_of_ne hne]
  · simp only [State.setThread, State.dropProducer, registering_setThread (hold b') (hnew b')]
    exact h.unregistered b' hb' hmem

/-- A new ring is empty and comes last. -/
theorem pendingOf_create {r : Ring} (hpend : pending r = []) {mode : QueueMode}
    {req : Option Request} (t' : τ) : (s.create t r mode req).pendingOf t' = s.pendingOf t' := by
  have hsame : ∀ b, b < s.created →
      (s.create t r mode req).pendingIn t' b = s.pendingIn t' b := by
    intro b hb
    refine pendingIn_congr t' ?_ ?_ <;>
      simp only [State.create, Function.update_of_ne (Nat.ne_of_lt hb)]
  have hnew : (s.create t r mode req).pendingIn t' s.created = [] := by
    simp [State.pendingIn, State.create, hpend]
  simp only [State.pendingOf]
  rw [show (s.create t r mode req).created = s.created + 1 from rfl, List.range_succ,
    List.flatMap_append, List.flatMap_singleton, hnew, List.append_nil]
  exact List.flatMap_congr fun b hb => hsame b (List.mem_range.mp hb)

/-- A thread that owns no ring creates one. -/
theorem create (h : Inv s) (ht : (s.threads t).block? = none) {r : Ring} (hr : Holds r [])
    (mode : QueueMode) (req : Option Request) : Inv (s.create t r mode req) := by
  have hpend : pending r = [] := pending_of_holds hr
  have hne : ∀ {b}, b < s.created → b ≠ s.created := Nat.ne_of_lt
  have hmem : ∀ b ∈ s.registry, b ≠ s.created := fun b hb => hne (h.registry_lt b hb)
  have hnot : s.created ∉ s.registry := fun hb => hmem _ hb rfl
  have hfresh : ∀ t', s.owner s.created ≠ some t' := by
    intro t' ho
    rw [(h.owner_iff _).mpr le_rfl] at ho
    cases ho
  refine
    { owner_iff := fun b => ?_
      holds := fun b hb => ?_
      current := fun t' b hb => ?_
      live := fun t' b ho hl => ?_
      registering := fun t' b hreg => ?_
      registry_lt := fun b hb => Nat.lt_succ_of_lt (h.registry_lt b hb)
      registry_sorted := ?_
      unregistered := fun b hb hb' => ?_
      removed := fun b hb => ?_
      passed := fun p hp a ha b hb => ?_
      drained := fun p hp hphase => ?_
      checked := fun p hp hphase b hb => ?_
      conserved := fun t' => ?_
      owned := h.owned
      faulted := h.faulted }
  · simp only [State.create]
    rcases eq_or_ne b s.created with rfl | hb
    · simp
    · rw [Function.update_of_ne hb, h.owner_iff]
      omega
  · simp only [State.create] at hb ⊢
    rcases eq_or_ne b s.created with rfl | hb'
    · rwa [Function.update_self, hpend]
    · rw [Function.update_of_ne hb']
      exact h.holds b (by omega)
  -- the new ring is the last one of `t`; those of the others are older
  · simp only [State.create] at hb ⊢
    rcases eq_or_ne t' t with rfl | hnet
    · rw [Function.update_self] at hb
      cases hb
      refine ⟨Function.update_self .., Function.update_self .., fun b' ho => ?_⟩
      rcases eq_or_ne b' s.created with rfl | hb'
      · exact le_rfl
      · rw [Function.update_of_ne hb'] at ho
        exact (h.lt_of_owner ho).le
    · rw [Function.update_of_ne hnet] at hb
      obtain ⟨ho, hl, hmax⟩ := h.current t' b hb
      have hb' := hne (h.lt_of_owner ho)
      rw [Function.update_of_ne hb', Function.update_of_ne hb']
      refine ⟨ho, hl, fun b' ho' => hmax b' ?_⟩
      rcases eq_or_ne b' s.created with rfl | hb''
      · rw [Function.update_self, Option.some.injEq] at ho'
        exact absurd ho'.symm hnet
      · rwa [Function.update_of_ne hb''] at ho'
  -- the old rings of `t` are all abandoned, as it owns none
  · simp only [State.create] at ho hl ⊢
    rcases eq_or_ne b s.created with rfl | hb
    · rw [Function.update_self, Option.some.injEq] at ho
      rw [← ho, Function.update_self]
      rfl
    · rw [Function.update_of_ne hb] at ho hl
      have hb' := h.live t' b ho hl
      have hnet : t' ≠ t := by
        rintro rfl
        rw [ht] at hb'
        cases hb'
      rwa [Function.update_of_ne hnet]
  · simp only [State.create] at hreg ⊢
    rcases eq_or_ne t' t with rfl | hnet
    · rw [Function.update_self] at hreg
      obtain ⟨_, _, he⟩ := hreg
      cases he
      exact ⟨hnot, by rw [Function.update_self, hpend]⟩
    · rw [Function.update_of_ne hnet] at hreg
      have hb := hne (h.lt_of_owner (h.current t' b hreg.block?).1)
      rw [Function.update_of_ne hb]
      exact h.registering t' b hreg
  · refine h.registry_sorted.imp_of_mem fun ha hb hab => ?_
    simp only [State.create]
    rwa [Function.update_of_ne (hmem _ ha), Function.update_of_ne (hmem _ hb)]
  -- the new ring waits for its registration
  · simp only [State.create] at hb hb' ⊢
    rcases eq_or_ne b s.created with rfl | hneb
    · exact .inl ⟨t, mode, req, Function.update_self ..⟩
    · refine (h.unregistered b (by omega) hb').imp_left fun ⟨t', ht'⟩ => ⟨t', ?_⟩
      have hnet : t' ≠ t := by
        rintro rfl
        rw [ht'.block?] at ht
        cases ht
      rwa [Function.update_of_ne hnet]
  · obtain ⟨hab, hnil, hlt⟩ := h.removed b hb
    simp only [State.create]
    rw [Function.update_of_ne (hne hlt), Function.update_of_ne (hne hlt)]
    exact ⟨hab, hnil, Nat.lt_succ_of_lt hlt⟩
  · simp only [State.create]
    rw [Function.update_of_ne (hmem a (List.mem_of_mem_take ha)),
      Function.update_of_ne (hmem b (List.mem_of_mem_drop hb))]
    exact h.passed p hp a ha b hb
  · obtain ⟨b, hb, hdrain⟩ := h.drained p hp hphase
    refine ⟨b, hb, fun b' hb' => ?_⟩
    have hmemb := hmem b (List.mem_of_getElem? hb)
    simp only [State.create]
    rw [Function.update_of_ne hmemb, Function.update_of_ne hmemb,
      Function.update_of_ne (hmem b' (List.mem_of_mem_drop hb'))]
    exact hdrain b' hb'
  · simp only [State.create]
    rw [Function.update_of_ne (hmem b (List.mem_of_getElem? hb))]
    exact h.checked p hp hphase b hb
  · exact (h.conserved t').trans (congrArg _ (pendingOf_create hpend t').symm)

/-- A thread drops its producer and creates a new ring. -/
theorem replace (h : Inv s) (hb : (s.threads t).block? = some b)
    (hold : ∀ b, ¬ (s.threads t).Registering b) {r : Ring} (hr : Holds r []) (mode : QueueMode)
    (req : Option Request) : Inv ((s.dropProducer b).create t r mode req) := by
  have hnone : (((s.dropProducer b).setThread t .exited).threads t).block? = none := by
    simp [State.setThread, Thread.block?]
  have hnew := (h.drop hb hold).create hnone hr mode req
  simpa only [State.create, State.setThread, Function.update_idem] using hnew

/-- The consumer of a new ring enters the registry. -/
theorem register (h : Inv s) (hpoll : s.poll = none) {thread : Thread}
    (hreg : (s.threads t).Registering b) (hblock : thread.block? = some b)
    (hnew : ∀ b, ¬ thread.Registering b) :
    Inv { s.setThread t thread with registry := s.registry ++ [b] } := by
  obtain ⟨hnot, hnil⟩ := h.registering t b hreg
  obtain ⟨howner, hlive, hmax⟩ := h.current t b hreg.block?
  have hsame := block?_setThread (hblock.trans hreg.block?.symm)
  refine { h with
    current := fun t' b hb => h.current t' b (hsame t' ▸ hb)
    live := fun t' b ho hl => (hsame t').trans (h.live t' b ho hl)
    registering := fun t' b' hr => ?_
    registry_lt := fun b' hb' => ?_
    registry_sorted := ?_
    unregistered := fun b' hb' hmem => ?_
    passed := fun p hp => by simp [State.setThread, hpoll] at hp
    drained := fun p hp => by simp [State.setThread, hpoll] at hp
    checked := fun p hp => by simp [State.setThread, hpoll] at hp }
  -- another thread that is registering does not register this ring
  · obtain ⟨hne, hr⟩ := registering_of_update (hnew b') hr
    obtain ⟨hnot', hnil'⟩ := h.registering t' b' hr
    refine ⟨fun hmem => ?_, hnil'⟩
    rcases List.mem_append.mp hmem with hmem | hmem
    · exact hnot' hmem
    · rw [List.mem_singleton.mp hmem] at hr
      have ho := (h.current t' b hr.block?).1
      rw [howner, Option.some.injEq] at ho
      exact hne ho.symm
  · rcases List.mem_append.mp hb' with hmem | hmem
    · exact h.registry_lt b' hmem
    · rw [List.mem_singleton.mp hmem]
      exact h.lt_of_owner howner
  -- the ring is the last one of its thread
  · refine List.pairwise_append.mpr ⟨h.registry_sorted, List.pairwise_singleton _ _, ?_⟩
    intro a ha b' hb' hab
    rw [List.mem_singleton] at hb'
    subst hb'
    refine lt_of_le_of_ne (hmax a (hab.trans howner)) ?_
    rintro rfl
    exact hnot ha
  · simp only [List.mem_append, List.mem_singleton, not_or] at hmem
    refine (h.unregistered b' hb' hmem.1).imp_left fun ⟨t', ht'⟩ => ⟨t', ?_⟩
    have hne : t' ≠ t := by
      rintro rfl
      exact hmem.2 (Option.some.inj (ht'.block?.symm.trans hreg.block?))
    simpa only [State.setThread, Function.update_of_ne hne] using ht'

omit [Target] [DecidableEq τ] in
/-- The registry around one of its entries. -/
private theorem registry_split {i : ℕ} (hb : s.registry[i]? = some b) :
    s.registry = s.registry.take i ++ b :: s.registry.drop (i + 1) := by
  obtain ⟨hi, rfl⟩ := List.getElem?_eq_some_iff.mp hb
  rw [← List.drop_eq_getElem_cons hi, List.take_append_drop]

/-- A ring of the same thread that stands later in the registry is younger. -/
theorem lt_of_mem_drop (h : Inv s) {i : ℕ} (hb : s.registry[i]? = some b) {b' : ℕ}
    (hb' : b' ∈ s.registry.drop (i + 1)) (ho : s.owner b' = s.owner b) : b < b' := by
  have hsorted := h.registry_sorted
  rw [registry_split hb, List.pairwise_append] at hsorted
  exact (List.pairwise_cons.mp hsorted.2.1).1 b' hb' ho.symm

/-- An accepted message goes to the end of its thread's stream. -/
theorem appended (h : Inv s) (hb : (s.threads t).block? = some b)
    (hold : ∀ b, ¬ (s.threads t).Registering b) {r : Ring} {msg : List UInt8}
    (hr : Holds r (pending (s.rings b) ++ [msg])) :
    Inv { s with
      rings := Function.update s.rings b r
      accepted := s.accepted ++ [(some t, msg)] } := by
  obtain ⟨howner, hlive, hmax⟩ := h.current t b hb
  have hother : ∀ b' ≠ b, pending (Function.update s.rings b r b') = pending (s.rings b') :=
    fun b' hne => by rw [Function.update_of_ne hne]
  refine { h with
    holds := fun b' hb' => holds_update hr (h.holds b' hb')
    registering := fun t' b' hreg => ?_
    removed := fun b' hrem => ?_
    drained := fun p hp hphase => ?_
    conserved := fun t' => ?_ }
  -- the ring of `t` is neither waiting for its registration nor removed
  · have hne : b' ≠ b := by
      rintro rfl
      have ho := (h.current t' b' hreg.block?).1
      rw [howner, Option.some.injEq] at ho
      exact hold b' (ho ▸ hreg)
    rw [hother b' hne]
    exact h.registering t' b' hreg
  · have hrem' := h.removed b' hrem
    have hne : b' ≠ b := by
      rintro rfl
      rw [hrem'.1] at hlive
      cases hlive
    rw [hother b' hne]
    exact hrem'
  -- a ring that a younger one of its thread follows is not the one that the thread pushes to
  · obtain ⟨b₀, hb₀, hdrain⟩ := h.drained p hp hphase
    refine ⟨b₀, hb₀, fun b' hb' ho => ?_⟩
    have hne : b₀ ≠ b := by
      rintro rfl
      exact absurd (h.lt_of_mem_drop hb₀ hb' ho) (not_lt.mpr (hmax b' (ho.trans howner)))
    rw [hother b₀ hne]
    exact hdrain b' hb' ho
  · rw [ofThread_append, ofThread_singleton, h.conserved t', List.append_assoc]
    refine congrArg _ ?_
    by_cases ht : t = t'
    -- the rings that are younger than `b` are not the thread's, so its stream ends in `b`
    · subst ht
      rw [if_pos rfl]
      refine (FlatMap.append_of_later_nil (h.lt_of_owner howner) (fun j hj _ => ?_) ?_ ?_).symm
      · exact if_neg fun ho => absurd (hmax j ho) (not_le.mpr hj)
      · simp only [State.pendingIn, howner, if_true, Function.update_self, pending_of_holds hr]
      · exact fun j hj => pendingIn_congr t rfl (hother j hj)
    · rw [if_neg (by simpa using ht), List.append_nil]
      refine List.flatMap_congr fun j _ => ?_
      rcases eq_or_ne j b with rfl | hne
      · simp [State.pendingIn, howner, ht]
      · exact Eq.symm (pendingIn_congr (s := s) t' rfl (hother j hne))

/-! ### Polls -/

variable {p : Poll τ}

/-- When a poll is about to pop from a ring, the older rings of its thread are empty. -/
theorem pendingIn_nil_of_lt (h : Inv s) (hp : s.poll = some p) (hb : s.registry[p.index]? = some b)
    (ho : s.owner b = some t) {j : ℕ} (hj : j < b) : s.pendingIn t j = [] := by
  simp only [State.pendingIn]
  split
  · next hoj =>
    by_cases hmem : j ∈ s.registry
    · -- `j` stands neither before `b`, which the poll has passed, nor after it
      rw [registry_split hb, List.mem_append, List.mem_cons] at hmem
      rcases hmem with hbefore | rfl | hafter
      · refine absurd (hoj.trans ho.symm) (h.passed p hp j hbefore b ?_)
        obtain ⟨hi, rfl⟩ := List.getElem?_eq_some_iff.mp hb
        rw [List.drop_eq_getElem_cons hi]
        exact List.mem_cons_self
      · exact absurd hj (lt_irrefl _)
      · exact absurd (h.lt_of_mem_drop hb hafter (hoj.trans ho.symm)) (not_lt.mpr hj.le)
    · rcases h.unregistered j (h.lt_of_owner hoj) hmem with ⟨t', ht'⟩ | hrem
      · exact (h.registering t' j ht').2
      · exact (h.removed j hrem).2.1
  · rfl

/-- The poll takes the oldest message of a ring. -/
theorem popped (h : Inv s) (hp : s.poll = some p) (hb : s.registry[p.index]? = some b)
    (hphase : p.phase = .popping) {r : Ring} {msg : List UInt8} {msgs : List (List UInt8)}
    (hpend : pending (s.rings b) = msg :: msgs) (hr : Holds r msgs) :
    Inv { s with
      rings := Function.update s.rings b r
      poll := some { p with allMsgs := p.allMsgs ++ [(s.owner b, msg)] } } := by
  have hmem := List.mem_of_getElem? hb
  obtain ⟨t, ho⟩ : ∃ t, s.owner b = some t := by
    rcases hob : s.owner b with _ | t
    · exact absurd (h.registry_lt b hmem) (not_lt.mpr ((h.owner_iff b).mp hob))
    · exact ⟨t, rfl⟩
  have hother : ∀ b' ≠ b, pending (Function.update s.rings b r b') = pending (s.rings b') :=
    fun b' hne => by rw [Function.update_of_ne hne]
  have hdelivered : State.inFlight { s with
      rings := Function.update s.rings b r
      poll := some { p with allMsgs := p.allMsgs ++ [(s.owner b, msg)] } } =
      s.inFlight ++ [(s.owner b, msg)] := by
    simp [State.inFlight, hp]
  refine { h with
    holds := fun b' hb' => holds_update hr (h.holds b' hb')
    registering := fun t' b' hreg => ?_
    removed := fun b' hrem => ?_
    passed := fun q hq => ?_
    drained := fun q hq hne => ?_
    checked := fun q hq hempty => ?_
    conserved := fun t' => ?_
    owned := fun m hm => ?_ }
  -- the ring is in the registry and holds a message
  · have hreg' := h.registering t' b' hreg
    rw [hother b' fun heq => hreg'.1 (heq ▸ hmem)]
    exact hreg'
  · have hrem' := h.removed b' hrem
    have hne : b' ≠ b := by
      rintro rfl
      rw [hrem'.2.1] at hpend
      cases hpend
    rw [hother b' hne]
    exact hrem'
  · cases hq
    exact h.passed p hp
  · cases hq
    exact absurd hphase hne
  · cases hq
    exact absurd (hphase.symm.trans hempty) (by decide)
  · rw [hdelivered, ← List.append_assoc, ofThread_append, ofThread_singleton, List.append_assoc,
      h.conserved t']
    refine congrArg _ ?_
    by_cases ht : t = t'
    -- the older rings of the thread are empty, so the message is the next of its stream
    · subst ht
      rw [if_pos ho]
      refine FlatMap.cons_of_earlier_nil (h.lt_of_owner ho)
        (fun j hj => h.pendingIn_nil_of_lt hp hb ho hj) ?_ ?_
      · simp only [State.pendingIn, ho, if_true, Function.update_self, pending_of_holds hr, hpend]
        rfl
      · exact fun j hj => pendingIn_congr t rfl (hother j hj)
    · rw [if_neg (by simpa [ho] using ht), List.nil_append]
      refine List.flatMap_congr fun j _ => ?_
      rcases eq_or_ne j b with rfl | hne
      · simp [State.pendingIn, ho, ht]
      · exact Eq.symm (pendingIn_congr (s := s) t' rfl (hother j hne))
  · rw [hdelivered, ← List.append_assoc] at hm
    rcases List.mem_append.mp hm with hm | hm
    · exact h.owned m hm
    · exact ⟨t, List.mem_singleton.mp hm ▸ ho⟩

/-- The poll moves on without popping: only what is known of its place in the registry changes. -/
theorem setPoll (h : Inv s) {q : Poll τ} (hmsgs : q.allMsgs = s.inFlight)
    (hpassed : ∀ a ∈ s.registry.take q.index, ∀ b ∈ s.registry.drop q.index,
      s.owner a ≠ s.owner b)
    (hdrained : q.phase ≠ .popping → ∃ b, s.registry[q.index]? = some b ∧
      ∀ b' ∈ s.registry.drop (q.index + 1), s.owner b' = s.owner b → pending (s.rings b) = [])
    (hchecked : q.phase = .checkEmpty →
      ∀ b, s.registry[q.index]? = some b → s.abandoned b = true) :
    Inv { s with poll := some q } := by
  have hflight : State.inFlight { s with poll := some q } = s.inFlight := hmsgs
  refine { h with
    passed := fun q' hq => ?_
    drained := fun q' hq => ?_
    checked := fun q' hq => ?_
    conserved := fun t => ?_
    owned := fun m hm => ?_ }
  · cases hq
    exact hpassed
  · cases hq
    exact hdrained
  · cases hq
    exact hchecked
  · rw [hflight]
    exact h.conserved t
  · rw [hflight] at hm
    exact h.owned m hm

/-- `pop_all` is over: the ring was found empty. -/
theorem found_empty (h : Inv s) (hp : s.poll = some p) (hb : s.registry[p.index]? = some b)
    (hpend : pending (s.rings b) = []) :
    Inv { s with poll := some { p with phase := .checkAbandoned } } := by
  refine h.setPoll (inFlight_of_poll hp).symm (h.passed p hp) (fun _ => ?_) fun hempty => ?_
  · exact ⟨b, hb, fun _ _ _ => hpend⟩
  · cases hempty

/-- The ring was found abandoned. -/
theorem found_abandoned (h : Inv s) (hp : s.poll = some p) (hphase : p.phase ≠ .popping)
    (hb : s.registry[p.index]? = some b) (habandoned : s.abandoned b = true) :
    Inv { s with poll := some { p with phase := .checkEmpty } } := by
  refine h.setPoll (inFlight_of_poll hp).symm (h.passed p hp) (fun _ => h.drained p hp hphase)
    fun _ b' hb' => ?_
  obtain rfl : b = b' := Option.some.inj (hb.symm.trans hb')
  exact habandoned

/-- The poll leaves a ring that is the last one of its thread. -/
theorem advance (h : Inv s) (hp : s.poll = some p) (hb : s.registry[p.index]? = some b)
    (hlast : ∀ b' ∈ s.registry.drop (p.index + 1), s.owner b' ≠ s.owner b) :
    Inv { s with poll := some { p with index := p.index + 1, phase := .popping } } := by
  refine h.setPoll (inFlight_of_poll hp).symm (fun a ha b' hb' => ?_) (fun hne => ?_)
    fun hempty => ?_
  · simp only [List.take_add_one, hb, Option.toList_some, List.mem_append, List.mem_singleton] at ha
    rcases ha with ha | rfl
    · refine h.passed p hp a ha b' ?_
      rw [← List.drop_drop] at hb'
      exact List.mem_of_mem_drop hb'
    · exact fun heq => hlast b' hb' heq.symm
  · exact absurd rfl hne
  · cases hempty

/-- The poll removes an abandoned empty ring. -/
theorem remove (h : Inv s) (hp : s.poll = some p) (hb : s.registry[p.index]? = some b)
    (habandoned : s.abandoned b = true) (hpend : pending (s.rings b) = []) :
    Inv { s with
      registry := s.registry.eraseIdx p.index
      removed := s.removed ++ [b]
      poll := some { p with phase := .popping } } := by
  have hsub : ∀ b' ∈ s.registry.eraseIdx p.index, b' ∈ s.registry :=
    fun b' hb' => (List.eraseIdx_sublist _ _).subset hb'
  obtain ⟨hi, -⟩ := List.getElem?_eq_some_iff.mp hb
  refine { h with
    registering := fun t' b' hreg => ?_
    registry_lt := fun b' hb' => h.registry_lt b' (hsub b' hb')
    registry_sorted := h.registry_sorted.sublist (List.eraseIdx_sublist _ _)
    unregistered := fun b' hb' hmem => ?_
    removed := fun b' hrem => ?_
    passed := fun q hq a ha b' hb' => ?_
    drained := fun q hq hne => ?_
    checked := fun q hq hempty => ?_
    conserved := fun t => ?_
    owned := fun m hm => ?_ }
  · have hreg' := h.registering t' b' hreg
    exact ⟨fun hmem => hreg'.1 (hsub b' hmem), hreg'.2⟩
  -- the only ring that leaves the registry is the one that is now removed
  · rcases eq_or_ne b' b with rfl | hne
    · exact .inr (by simp)
    · have hmem' : b' ∉ s.registry := by
        rw [List.eraseIdx_eq_take_drop_succ] at hmem
        rw [registry_split hb]
        simpa [hne] using hmem
      exact (h.unregistered b' hb' hmem').imp_right fun hrem => List.mem_append_left _ hrem
  · rcases List.mem_append.mp hrem with hrem | hrem
    · exact h.removed b' hrem
    · rw [List.mem_singleton.mp hrem]
      exact ⟨habandoned, hpend, h.registry_lt b (List.mem_of_getElem? hb)⟩
  -- the index stays, so that it stands at what followed the removed ring
  · cases hq
    have hlen : (s.registry.take p.index).length = p.index := by rw [List.length_take]; omega
    simp only [List.eraseIdx_eq_take_drop_succ] at ha hb'
    rw [List.take_append_of_le_length (by omega), List.take_take, Nat.min_self] at ha
    rw [List.drop_append_of_le_length (by omega), List.drop_eq_nil_of_le (by omega),
      List.nil_append] at hb'
    refine h.passed p hp a ha b' ?_
    rw [← List.drop_drop] at hb'
    exact List.mem_of_mem_drop hb'
  · cases hq
    exact absurd rfl hne
  · cases hq
    cases hempty
  · exact inFlight_of_poll hp ▸ h.conserved t
  · exact h.owned m (inFlight_of_poll hp ▸ hm)

/-- An attempt to push, by a thread that owns the ring and is not registering it. -/
theorem tryPush (h : Inv s) (hb : (s.threads t).block? = some b)
    (hold : ∀ b, ¬ (s.threads t).Registering b) (mode : QueueMode) {req : Request}
    (hreq : HeaderFits s b req) : Inv (s.tryPush t b mode req) := by
  have hholds := h.holds b (h.lt_of_owner (h.current t b hb).1)
  by_cases hfree : paddedSize req.length ≤ (s.rings b).freeSlots
  · obtain ⟨r, msg, hatt, hwrites, happ⟩ := req.attempt_spec hholds.aligned.hasRoom_tail hfree
    have hlen := hwrites.length_eq
    have hr : Holds r (pending (s.rings b) ++ [msg]) :=
      hholds.appended happ (hlen ▸ hfree) (hlen ▸ hreq hfree)
    simp only [State.tryPush, hatt]
    have hready : ∀ b', ¬ (Thread.ready b mode).Registering b' := by simp [Thread.Registering]
    exact (h.appended hb hold hr).setThread hb.symm hold hready
  · simp only [State.tryPush, Request.attempt_full _ hfree]
    cases mode with
    | boundedDropping => exact h.setThread hb.symm hold (by simp [Thread.Registering])
    | unboundedBlocking => exact h.setThread hb.symm hold (by simp [Thread.Registering])

/-- One step of a poll. -/
theorem pollAt (h : Inv s) (hp : s.poll = some p) (hb : s.registry[p.index]? = some b) :
    Inv (s.pollAt p b) := by
  have hlt := h.registry_lt b (List.mem_of_getElem? hb)
  have hholds := h.holds b hlt
  cases hphase : p.phase with
  | popping =>
    cases hpend : pending (s.rings b) with
    | nil =>
      rw [hpend] at hholds
      simp only [State.pollAt, hphase, pop_nil hholds, Function.update_eq_self]
      exact h.found_empty hp hb hpend
    | cons msg msgs =>
      rw [hpend] at hholds
      obtain ⟨hpop, hrest⟩ := pop_cons hholds
      simp only [State.pollAt, hphase, hpop]
      exact hphase ▸ h.popped hp hb hphase hpend hrest
  | checkAbandoned =>
    by_cases hab : s.abandoned b = true
    · simp only [State.pollAt, hphase, if_pos hab]
      exact h.found_abandoned hp (by simp [hphase]) hb hab
    · simp only [State.pollAt, hphase, if_neg hab]
      -- the ring belongs to its thread still, and no later ring does
      refine h.advance hp hb fun b' hb' ho => ?_
      rcases hob : s.owner b with _ | t
      · exact absurd ((h.owner_iff b).mp hob) (not_le.mpr hlt)
      · have hcur := h.current t b (h.live t b hob (by simpa using hab))
        exact absurd (hcur.2.2 b' (ho.trans hob)) (not_le.mpr (h.lt_of_mem_drop hb hb' ho))
  | checkEmpty =>
    obtain ⟨b₀, hb₀, hdrain⟩ := h.drained p hp (by simp [hphase])
    obtain rfl : b = b₀ := Option.some.inj (hb.symm.trans hb₀)
    by_cases hempty : SpscConsumer.isEmpty (s.rings b) = true
    · simp only [State.pollAt, hphase, if_pos hempty]
      exact h.remove hp hb (h.checked p hp hphase b hb) ((isEmpty_of_holds hholds).mp hempty)
    · simp only [State.pollAt, hphase, if_neg hempty]
      refine h.advance hp hb fun b' hb' ho => hempty ?_
      exact (isEmpty_of_holds hholds).mpr (hdrain b' hb' ho)

/-- A poll takes the registry lock. -/
theorem pollBegin (h : Inv s) (hpoll : s.poll = none) (poller : ℕ) :
    Inv { s with poll := some { poller, index := 0, phase := .popping, allMsgs := [] } } := by
  have hflight : s.inFlight = [] := by simp [State.inFlight, hpoll]
  refine h.setPoll hflight.symm (fun a ha => ?_) (fun hne => ?_) fun hempty => ?_
  · simp at ha
  · exact absurd rfl hne
  · cases hempty

/-- A poll returns what it has popped and releases the lock. -/
theorem pollEnd (h : Inv s) (hp : s.poll = some p) :
    Inv { s with poll := none, polled := s.polled ++ p.allMsgs } := by
  refine { h with
    passed := fun q hq => nomatch hq
    drained := fun q hq => nomatch hq
    checked := fun q hq => nomatch hq
    conserved := fun t => ?_
    owned := fun m hm => ?_ }
  · have hcons := h.conserved t
    rw [inFlight_of_poll hp, ← List.append_nil (s.polled ++ p.allMsgs)] at hcons
    exact hcons
  · have howned := h.owned m
    rw [inFlight_of_poll hp, ← List.append_nil (s.polled ++ p.allMsgs)] at howned
    exact howned hm

end Inv

/-- No thread has started: the invariant holds. -/
theorem inv_init : Inv (init : State τ) where
  owner_iff b := by simp [init]
  holds b hb := absurd hb (Nat.not_lt_zero b)
  current t b hb := nomatch hb
  live t b ho := nomatch ho
  registering t b hr := nomatch hr.block?
  registry_lt b hb := nomatch hb
  registry_sorted := .nil
  unregistered b hb := absurd hb (Nat.not_lt_zero b)
  removed b hb := nomatch hb
  passed p hp := nomatch hp
  drained p hp := nomatch hp
  checked p hp := nomatch hp
  conserved t := rfl
  owned m hm := nomatch hm
  faulted := rfl

/-- Every step keeps the invariant, as long as capacities are valid and no accepted message is too
long for its header. -/
theorem Inv.step {s s' : State τ} {uninit : ℕ → ℕ → UInt8} {e : Event τ} (h : Inv s)
    (hcap : ValidCapacity e) (hshort : ShortMessage s e) (hs : step uninit s e = some s') :
    Inv s' := by
  cases step_cases hs with
  | access ht => exact h.create (by rw [ht]; rfl) (holds_createQueue (by decide) (by decide) _) _ _
  | register ht hpoll =>
    exact h.register hpoll ⟨_, _, ht⟩ rfl (by simp [Thread.Registering])
  | registerGrown ht hpoll =>
    exact h.register hpoll ⟨_, _, ht⟩ rfl (by simp [Thread.Registering])
  | attempt ht =>
    exact h.tryPush (by rw [ht]; rfl) (by simp [Thread.Registering, ht]) _ (hshort _ _ ht)
  | retry ht =>
    exact h.tryPush (by rw [ht]; rfl) (by simp [Thread.Registering, ht]) _ (hshort _ _ ht)
  | atLimit ht hgrow =>
    exact h.setThread (by rw [ht]; rfl) (by simp [Thread.Registering, ht])
      (by simp [Thread.Registering])
  | @grow t block req r ht hgrow =>
    have hb : (s.threads t).block? = some block := by rw [ht]; rfl
    have hold : ∀ b, ¬ (s.threads t).Registering b := by simp [Thread.Registering, ht]
    have ha := (h.holds block (h.lt_of_owner (h.current t block hb).1)).aligned
    exact h.replace hb hold (holds_grow ha hgrow) _ _
  | replace ht hcap' =>
    exact h.replace (by rw [ht]; rfl) (by simp [Thread.Registering, ht])
      (holds_createQueue hcap.1 hcap.2 _) _ _
  | setMode ht hcap' =>
    exact h.setThread (by rw [ht]; rfl) (by simp [Thread.Registering, ht])
      (by simp [Thread.Registering])
  | exitUnstarted ht =>
    exact h.setThread (by rw [ht]; rfl) (by simp [Thread.Registering, ht])
      (by simp [Thread.Registering])
  | exit ht => exact h.drop (by rw [ht]; rfl) (by simp [Thread.Registering, ht])
  | pollBegin hpoll => exact h.pollBegin hpoll _
  | pollStep hp hb => exact h.pollAt hp hb
  | pollEnd hp hi => exact h.pollEnd hp

/-- The invariant holds in every state of a run whose capacities are valid and whose accepted
messages fit their headers. -/
theorem inv_of_reach {uninit : ℕ → ℕ → UInt8} {s : State τ}
    (hrun : Machine.Reach (step uninit) (fun s e => ValidCapacity e ∧ ShortMessage s e) init s) :
    Inv s :=
  hrun.invariant inv_init fun _ _ _ h hok hs => h.step hok.1 hok.2 hs

end ThreadContext

end RapidLog
