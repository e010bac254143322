import RapidLog.ThreadContext.Unbounded

/-!
# The registry over a run

`Move` says what a step does to the numbering of the rings and to the registry: a thread creates a
ring, a thread registers the ring that it has created, a poll removes a ring, or nothing of this
happens. Two facts about whole runs follow. A thread always owns the last ring that it has created
(`Newest`), and the registry is what it was at some earlier point of the run followed by what has
been registered since, less what polls have removed; the rings of one thread are registered in the
order of their creation (`RegisteredSince`).
-/

namespace RapidLog

open Queue RingBuffer

variable [Target] {τ : Type} [DecidableEq τ]

/-- The ring that the thread has created and not registered yet. -/
def Thread.unregistered : Thread → List ℕ
  | registering block _ _ => [block]
  | _ => []

omit [Target] in
theorem Thread.block?_of_unregistered {thread : Thread} {b : ℕ} (h : thread.unregistered = [b]) :
    thread.block? = some b := by
  cases thread <;> cases h
  rfl

namespace ThreadContext

/-- What a step does to the numbering of the rings and to the registry. -/
inductive Move (s s' : State τ) : Prop
  | stay (hregistry : s'.registry = s.registry) (hremoved : s'.removed = s.removed)
    (hcreated : s'.created = s.created) (howner : s'.owner = s.owner)
    (hblock : ∀ t b, (s'.threads t).block? = some b → (s.threads t).block? = some b)
    (hthreads : ∀ t, (s'.threads t).unregistered = (s.threads t).unregistered)
  | create (t : τ) (thread : Thread) (hregistry : s'.registry = s.registry)
    (hremoved : s'.removed = s.removed) (hcreated : s'.created = s.created + 1)
    (howner : s'.owner = Function.update s.owner s.created (some t))
    (hold : (s.threads t).unregistered = []) (hnew : thread.unregistered = [s.created])
    (hthreads : s'.threads = Function.update s.threads t thread)
  | register (t : τ) (b : ℕ) (thread : Thread) (hregistry : s'.registry = s.registry ++ [b])
    (hremoved : s'.removed = s.removed) (hcreated : s'.created = s.created)
    (howner : s'.owner = s.owner) (hold : (s.threads t).unregistered = [b])
    (hnew : thread.unregistered = []) (hblock : thread.block? = some b)
    (hthreads : s'.threads = Function.update s.threads t thread)
  | remove (i b : ℕ) (hb : s.registry[i]? = some b)
    (hregistry : s'.registry = s.registry.eraseIdx i)
    (hremoved : s'.removed = s.removed ++ [b]) (hcreated : s'.created = s.created)
    (howner : s'.owner = s.owner) (hthreads : s'.threads = s.threads)

section

variable {s s' s₀ : State τ} {t : τ} {b : ℕ} {uninit : ℕ → ℕ → UInt8} {e : Event τ}

omit [Target] in
/-- A thread that is not registering moves on, and keeps its ring or drops it. -/
private theorem Move.of_update {thread : Thread} (hregistry : s'.registry = s.registry)
    (hremoved : s'.removed = s.removed) (hcreated : s'.created = s.created)
    (howner : s'.owner = s.owner) (hthreads : s'.threads = Function.update s.threads t thread)
    (hold : (s.threads t).unregistered = []) (hnew : thread.unregistered = [])
    (hblock : ∀ b, thread.block? = some b → (s.threads t).block? = some b) : Move s s' := by
  refine .stay hregistry hremoved hcreated howner (fun t' b hb => ?_) fun t' => ?_
  · rw [hthreads] at hb
    rcases eq_or_ne t' t with rfl | hne
    · rw [Function.update_self] at hb
      exact hblock b hb
    · rwa [Function.update_of_ne hne] at hb
  · rw [hthreads]
    rcases eq_or_ne t' t with rfl | hne
    · rw [Function.update_self, hold, hnew]
    · rw [Function.update_of_ne hne]

omit [Target] in
private theorem Move.refl (hregistry : s'.registry = s.registry) (hremoved : s'.removed = s.removed)
    (hcreated : s'.created = s.created) (howner : s'.owner = s.owner)
    (hthreads : s'.threads = s.threads) : Move s s' :=
  .stay hregistry hremoved hcreated howner (fun t b hb => by rwa [hthreads] at hb)
    fun t => by rw [hthreads]

private theorem Move.of_tryPush {mode : QueueMode} (req : Request)
    (hb : (s.threads t).block? = some b) (hold : (s.threads t).unregistered = []) :
    Move s (s.tryPush t b mode req) := by
  have hmove : ∀ (s' : State τ) (thread : Thread), thread.block? = some b →
      thread.unregistered = [] → s'.registry = s.registry → s'.removed = s.removed →
      s'.created = s.created → s'.owner = s.owner →
      s'.threads = Function.update s.threads t thread → Move s s' :=
    fun s' thread hblock hnew hregistry hremoved hcreated howner hthreads =>
      .of_update hregistry hremoved hcreated howner hthreads hold hnew
        fun b' hb' => by rw [hb, ← hblock, hb']
  simp only [State.tryPush]
  split
  · exact .refl rfl rfl rfl rfl rfl
  · exact hmove _ (.ready b mode) rfl rfl rfl rfl rfl rfl rfl
  · cases mode with
    | boundedDropping => exact hmove _ (.ready b .boundedDropping) rfl rfl rfl rfl rfl rfl rfl
    | unboundedBlocking => exact hmove _ (.full b req) rfl rfl rfl rfl rfl rfl rfl

private theorem Move.of_pollAt (p : Poll τ) (hb : s.registry[p.index]? = some b) :
    Move s (s.pollAt p b) := by
  simp only [State.pollAt]
  cases p.phase with
  | popping =>
    rcases SpscConsumer.pop (s.rings b) with ⟨_ | msg, r⟩ <;> exact .refl rfl rfl rfl rfl rfl
  | checkAbandoned => cases s.abandoned b <;> exact .refl rfl rfl rfl rfl rfl
  | checkEmpty =>
    cases SpscConsumer.isEmpty (s.rings b)
    · exact .refl rfl rfl rfl rfl rfl
    · exact .remove p.index b hb rfl rfl rfl rfl rfl

/-- Every step is one of these. -/
theorem step_move (hs : step uninit s e = some s') : Move s s' := by
  cases step_cases hs with
  | access ht => exact .create _ _ rfl rfl rfl rfl (by rw [ht]; rfl) rfl rfl
  | register ht hpoll => exact .register _ _ _ rfl rfl rfl rfl (by rw [ht]; rfl) rfl rfl rfl
  | registerGrown ht hpoll => exact .register _ _ _ rfl rfl rfl rfl (by rw [ht]; rfl) rfl rfl rfl
  | attempt ht => exact .of_tryPush _ (by rw [ht]; rfl) (by rw [ht]; rfl)
  | retry ht => exact .of_tryPush _ (by rw [ht]; rfl) (by rw [ht]; rfl)
  | atLimit ht hgrow =>
    exact .of_update rfl rfl rfl rfl rfl (by rw [ht]; rfl) rfl fun b hb => by rw [ht]; exact hb
  | grow ht hgrow => exact .create _ _ rfl rfl rfl rfl (by rw [ht]; rfl) rfl rfl
  | replace ht hcap => exact .create _ _ rfl rfl rfl rfl (by rw [ht]; rfl) rfl rfl
  | setMode ht hcap =>
    exact .of_update rfl rfl rfl rfl rfl (by rw [ht]; rfl) rfl fun b hb => by rw [ht]; exact hb
  | exitUnstarted ht =>
    exact .of_update rfl rfl rfl rfl rfl (by rw [ht]; rfl) rfl fun b hb => nomatch hb
  | exit ht => exact .of_update rfl rfl rfl rfl rfl (by rw [ht]; rfl) rfl fun b hb => nomatch hb
  | pollBegin hpoll => exact .refl rfl rfl rfl rfl rfl
  | pollStep hp hb => exact .of_pollAt _ hb
  | pollEnd hp hi => exact .refl rfl rfl rfl rfl rfl

omit [Target] in
/-- The numbering only grows. -/
theorem Move.created_le (h : Move s s') : s.created ≤ s'.created := by
  cases h with
  | stay _ _ hcreated | register _ _ _ _ _ hcreated | remove _ _ _ _ _ hcreated => omega
  | create _ _ _ _ hcreated => omega

omit [Target] in
/-- A ring keeps its owner. -/
theorem Move.owner_eq (h : Move s s') (hb : b < s.created) : s'.owner b = s.owner b := by
  cases h with
  | stay _ _ _ howner | register _ _ _ _ _ _ howner | remove _ _ _ _ _ _ howner => rw [howner]
  | create _ _ _ _ _ howner => rw [howner, Function.update_of_ne hb.ne]

/-! ### The newest ring of a thread -/

/-- Every thread owns the last ring that it has created. -/
def Newest (s : State τ) : Prop :=
  ∀ t b b', (s.threads t).block? = some b → s.owner b' = some t → b' ≤ b

omit [Target] in
theorem Newest.step (h : Newest s) (howned : Owned s) (hmove : Move s s') : Newest s' := by
  intro t b b' hb ho
  cases hmove with
  | stay _ _ _ howner hblock =>
    rw [howner] at ho
    exact h t b b' (hblock t b hb) ho
  | create t' thread _ _ _ howner _ hnew hthreads =>
    rw [howner] at ho
    rw [hthreads] at hb
    rcases eq_or_ne t t' with rfl | hne
    · rw [Function.update_self, Thread.block?_of_unregistered hnew, Option.some.injEq] at hb
      by_contra hlt
      rw [Function.update_of_ne (by omega), howned.fresh b' (by omega)] at ho
      cases ho
    · rw [Function.update_of_ne hne] at hb
      rcases eq_or_ne b' s.created with rfl | hb'
      · rw [Function.update_self, Option.some.injEq] at ho
        exact absurd ho.symm hne
      · rw [Function.update_of_ne hb'] at ho
        exact h t b b' hb ho
  | register t' b₁ thread _ _ _ howner hold _ hblock hthreads =>
    rw [howner] at ho
    rw [hthreads] at hb
    rcases eq_or_ne t t' with rfl | hne
    · rw [Function.update_self, hblock, ← Thread.block?_of_unregistered hold] at hb
      exact h t b b' hb ho
    · rw [Function.update_of_ne hne] at hb
      exact h t b b' hb ho
  | remove _ _ _ _ _ _ howner hthreads =>
    rw [howner] at ho
    rw [hthreads] at hb
    exact h t b b' hb ho

/-- A thread owns its newest ring in every state that a run reaches. -/
theorem newest_of_reach {ok : State τ → Event τ → Prop} (h : (step uninit).Reach ok init s) :
    Newest s := by
  have hboth : Owned s ∧ Newest s :=
    h.invariant (P := fun s => Owned s ∧ Newest s)
      ⟨⟨fun _ _ => rfl, fun _ _ hb => nomatch hb⟩, fun _ _ _ hb => nomatch hb⟩
      fun _ _ _ ⟨howned, hnewest⟩ _ he => ⟨howned.step he, hnewest.step howned (step_move he)⟩
  exact hboth.2

/-! ### What has been registered since -/

/-- The rings that the thread has created since `s₀`, in the order of their creation. -/
def newRings (t : τ) (s₀ s : State τ) : List ℕ :=
  (List.range' s₀.created (s.created - s₀.created)).filter fun b => s.owner b = some t

/-- Since `s₀` the consumers of the rings `added` have been registered, in this order and behind
those that were there, and polls have removed some consumers. Those of the thread are the rings that
it has created since then, except for one that it has yet to register. -/
structure RegisteredSince (t : τ) (s₀ s : State τ) (added : List ℕ) : Prop where
  created_le : s₀.created ≤ s.created
  lt_created : ∀ b ∈ added, b < s.created
  added_eq : (added.filter fun b => s.owner b = some t) ++ (s.threads t).unregistered =
    newRings t s₀ s
  perm : (s.registry ++ s.removed).Perm (s₀.registry ++ added ++ s₀.removed)
  sublist : s.registry.Sublist (s₀.registry ++ added)

omit [Target] in
theorem RegisteredSince.refl (h : (s.threads t).unregistered = []) :
    RegisteredSince t s s [] :=
  ⟨le_rfl, by simp, by simp [newRings, h], by simp, by simp⟩

omit [Target] in
/-- A thread creates a ring. -/
private theorem newRings_create (t' : τ) (hle : s₀.created ≤ s.created)
    (hcreated : s'.created = s.created + 1)
    (howner : s'.owner = Function.update s.owner s.created (some t')) :
    newRings t s₀ s' = newRings t s₀ s ++ if t' = t then [s.created] else [] := by
  have hsame : ((List.range' s₀.created (s.created - s₀.created)).filter
      fun b => s'.owner b = some t) = newRings t s₀ s := by
    refine List.filter_congr fun b hb => ?_
    have hlt := (List.mem_range'_1.mp hb).2
    rw [howner, Function.update_of_ne (by omega)]
  have hlast : s₀.created + (s.created - s₀.created) = s.created := by omega
  rw [newRings, hcreated, show s.created + 1 - s₀.created = s.created - s₀.created + 1 by omega,
    List.range'_1_concat, List.filter_append, hsame, hlast]
  congr 1
  by_cases heq : t' = t <;> simp [howner, heq]

omit [Target] in
/-- Every step keeps the account of what has been registered. -/
theorem RegisteredSince.step {added : List ℕ} (h : RegisteredSince t s₀ s added) (howned : Owned s)
    (hmove : Move s s') : ∃ added, RegisteredSince t s₀ s' added := by
  have hle := h.created_le.trans hmove.created_le
  have hlt : ∀ b ∈ added, b < s'.created :=
    fun b hb => (h.lt_created b hb).trans_le hmove.created_le
  have hfilter : (added.filter fun b => s'.owner b = some t) =
      added.filter fun b => s.owner b = some t :=
    List.filter_congr fun b hb => by rw [hmove.owner_eq (h.lt_created b hb)]
  have hadded := h.added_eq
  rw [← hfilter] at hadded
  cases hmove with
  | stay hregistry hremoved hcreated howner _ hthreads =>
    -- nothing of the account is touched
    refine ⟨added, hle, hlt, ?_, by rw [hregistry, hremoved]; exact h.perm,
      by rw [hregistry]; exact h.sublist⟩
    rw [hthreads, hadded, newRings, newRings, hcreated, howner]
  | create t' thread hregistry hremoved hcreated howner hold hnew hthreads =>
    refine ⟨added, hle, hlt, ?_, by rw [hregistry, hremoved]; exact h.perm,
      by rw [hregistry]; exact h.sublist⟩
    rw [newRings_create t' h.created_le hcreated howner, ← hadded, hthreads]
    -- the new ring of `t` itself waits for its registration
    rcases eq_or_ne t' t with rfl | hne
    · rw [Function.update_self, hnew, hold, if_pos rfl, List.append_nil]
    · rw [Function.update_of_ne hne.symm, if_neg hne, List.append_nil]
  | register t' b thread hregistry hremoved hcreated howner hold hnew _ hthreads =>
    have hblock := Thread.block?_of_unregistered hold
    -- the ring goes from the thread to the end of the registry
    refine ⟨added ++ [b], hle, fun b' hb' => ?_, ?_, ?_, ?_⟩
    · rcases List.mem_append.mp hb' with hb' | hb'
      · exact hlt b' hb'
      · rw [List.mem_singleton.mp hb', hcreated]
        exact howned.lt_created hblock
    · have hnewRings : newRings t s₀ s' = newRings t s₀ s := by
        rw [newRings, newRings, hcreated, howner]
      have howner' : s'.owner b = some t' := by rw [howner, howned.owner t' b hblock]
      rw [hnewRings, ← hadded, hthreads, List.filter_append]
      rcases eq_or_ne t' t with rfl | hne
      · simp [howner', hold, hnew]
      · simp [howner', hne, hne.symm]
    · rw [hregistry, hremoved, ← List.append_assoc]
      have hperm := h.perm.append_right [b]
      refine (List.Perm.trans ?_ hperm).trans ?_
      · simp only [List.append_assoc]
        exact List.perm_append_comm.append_left _
      · simp only [List.append_assoc]
        exact (List.perm_append_comm.append_left _).append_left _
    · rw [hregistry, ← List.append_assoc]
      exact h.sublist.append_right [b]
  | remove i b hb hregistry hremoved hcreated howner hthreads =>
    -- the ring goes from the registry to those that are removed
    refine ⟨added, hle, hlt, ?_, ?_, ?_⟩
    · rw [hthreads, hadded, newRings, newRings, hcreated, howner]
    · obtain ⟨hi, hget⟩ := List.getElem?_eq_some_iff.mp hb
      have herase := List.getElem_cons_eraseIdx_perm hi
      rw [hget] at herase
      have hlast : (s.registry.eraseIdx i ++ (s.removed ++ [b])).Perm
          (b :: s.registry.eraseIdx i ++ s.removed) := by
        rw [← List.append_assoc]
        exact List.perm_append_singleton _ _
      rw [hregistry, hremoved]
      exact (hlast.trans (herase.append_right _)).trans h.perm
    · rw [hregistry]
      exact (List.eraseIdx_sublist ..).trans h.sublist

/-- The registry at a later point of a run. -/
theorem registeredSince_of_reach {ok : State τ → Event τ → Prop} (howned : Owned s₀)
    (hthread : (s₀.threads t).unregistered = []) (h : (step uninit).Reach ok s₀ s) :
    ∃ added, RegisteredSince t s₀ s added := by
  have hboth : Owned s ∧ ∃ added, RegisteredSince t s₀ s added :=
    h.invariant (P := fun s => Owned s ∧ ∃ added, RegisteredSince t s₀ s added)
      ⟨howned, [], .refl hthread⟩
      fun _ _ _ ⟨howned, _, hsince⟩ _ he => ⟨howned.step he, hsince.step howned (step_move he)⟩
  exact hboth.2

end

end ThreadContext

end RapidLog
