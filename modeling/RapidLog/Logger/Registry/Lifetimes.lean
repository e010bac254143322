import RapidLog.Logger.Registry

/-!
# The loggers outlive the messages

The machine of the backend has all loggers from the start. Here they are created by name while it
runs, and may be given up by everybody who holds them. What the machine with the registry does, the
machine of the backend does from a memory that holds the loggers already: a step uses no address
but one that the registry holds (`overlay`, `step_overlay`).
-/

namespace RapidLog

namespace Registry

variable {τ : Type}

/-- The loggers at `ptrs`, and others everywhere else. -/
def overlay (ptrs : List UInt64) (others : UInt64 → Logger) (b : Backend.State τ) :
    Backend.State τ :=
  { b with loggers := fun ptr => if ptr ∈ ptrs then b.loggers ptr else others ptr }

section Overlay

variable {ptrs : List UInt64} {others : UInt64 → Logger} {b b' : Backend.State τ}

theorem loggers_overlay {ptr : UInt64} (h : ptr ∈ ptrs) :
    (overlay ptrs others b).loggers ptr = b.loggers ptr := if_pos h

theorem overlay_setLogger {ptr : UInt64} (h : ptr ∈ ptrs) (logger : Logger) :
    (overlay ptrs others b).setLogger ptr logger =
      overlay ptrs others (b.setLogger ptr logger) := by
  unfold overlay Backend.State.setLogger
  congr 1
  -- both put the logger at `ptr`, and neither touches the others
  funext other
  rcases eq_or_ne other ptr with rfl | hne
  · simp [h]
  · simp [hne]

@[simp]
private theorem workers_overlay : (overlay ptrs others b).workers = b.workers := rfl

@[simp]
private theorem tc_overlay : (overlay ptrs others b).tc = b.tc := rfl

@[simp]
private theorem calling_overlay : (overlay ptrs others b).calling = b.calling := rfl

/-- Two steps under the same guard. -/
private theorem map_guarded {c : Prop} [Decidable c] {x y : Option (Backend.State τ)}
    {f : Backend.State τ → Backend.State τ} (h : c → x = y.map f) :
    (if c then x else none) = (if c then y else none).map f := by
  split
  · next hc => exact h hc
  · rfl

variable [Target] [DecidableEq τ] {env : Backend.Env} {e : Backend.Event τ}

/-- A step of the backend uses one logger at most, so it takes no notice of the others. -/
theorem step_overlay (hderefs : ∀ ptr ∈ derefs b e, ptr ∈ ptrs) :
    Backend.step env (overlay ptrs others b) e =
      (Backend.step env b e).map (overlay ptrs others) := by
  cases e with
  | thread e =>
    refine map_guarded fun _ => ?_
    rw [Option.map_map]
    rfl
  | logCheck t call =>
    simp only [Backend.step, loggers_overlay (hderefs _ rfl)]
    rfl
  | logPush t =>
    simp only [Backend.step, calling_overlay]
    cases b.calling t with
    | some call => simp only [Option.map_map]; rfl
    | none => rfl
  | setLogLevel ptr level | addFilter ptr filter | clearFilters ptr =>
    -- the step changes the logger that it reads
    have hptr : ptr ∈ ptrs := hderefs _ rfl
    simp only [Backend.step, loggers_overlay hptr, overlay_setLogger hptr, Option.map_some]
  | start options => rfl
  | stop w => exact map_guarded fun _ => rfl
  | pollBegin w =>
    refine map_guarded fun _ => ?_
    simp only [workers_overlay, tc_overlay]
    cases (b.workers w).phase with
    | firstPoll | morePoll => simp only [Option.map_map]; rfl
    | _ => rfl
  | pollStep w =>
    simp only [Backend.step, tc_overlay]
    cases b.tc.poll with
    | some p =>
      refine map_guarded fun _ => ?_
      rw [Option.map_map]
      rfl
    | none => rfl
  | pollEnd w =>
    simp only [Backend.step, tc_overlay, workers_overlay]
    cases b.tc.poll with
    | some p =>
      refine map_guarded fun _ => ?_
      simp only [Option.map_bind, Function.comp_def, Option.map_map]
      rfl
    | none => rfl
  | loadStop w seen =>
    refine map_guarded fun _ => ?_
    by_cases hunseen : (seen && !(b.workers w).stopSignal) = true
    · simp only [Backend.workerStep, workers_overlay, hunseen]
      rfl
    · simp only [Backend.workerStep, workers_overlay, hunseen]
      cases (b.workers w).phase with | _ => rfl
  | sort w decoded =>
    refine map_guarded fun _ => ?_
    simp only [Backend.workerStep, workers_overlay]
    cases (b.workers w).phase with
    | sorting raws => exact map_guarded fun _ => rfl
    | _ => rfl
  | next w =>
    refine map_guarded fun _ => ?_
    cases hphase : (b.workers w).phase with
    | dispatching rest =>
      cases rest with
      | nil => simp only [Backend.workerStep, workers_overlay, hphase]; rfl
      | cons cur rest =>
        have hptr : cur.1.loggerPtr ∈ ptrs := hderefs _ (by simp [derefs, hphase])
        simp only [Backend.workerStep, workers_overlay, hphase, loggers_overlay hptr]
        split <;> rfl
    | _ => simp only [Backend.workerStep, workers_overlay, hphase]; rfl
  | checkFilters w =>
    refine map_guarded fun _ => ?_
    cases hphase : (b.workers w).phase with
    | filtering cur level rest =>
      have hptr : cur.1.loggerPtr ∈ ptrs := hderefs _ (by simp [derefs, hphase])
      simp only [Backend.workerStep, workers_overlay, hphase, loggers_overlay hptr]
      split <;> rfl
    | _ => simp only [Backend.workerStep, workers_overlay, hphase]; rfl
  | writeSink w =>
    refine map_guarded fun _ => ?_
    simp only [Backend.workerStep, workers_overlay]
    cases (b.workers w).phase with
    | writing cur level filters sinks rest => cases sinks with | _ => rfl
    | _ => rfl

/-- What a step changes about the loggers: at most the level or the filters of the one that the
caller holds. -/
theorem loggers_of_step (hs : Backend.step env b e = some b') :
    b'.loggers = b.loggers ∨ ∃ ptr logger, heldBy e = some ptr ∧
      logger.name = (b.loggers ptr).name ∧ logger.sinks = (b.loggers ptr).sinks ∧
      b'.loggers = Function.update b.loggers ptr logger := by
  cases e with
  | setLogLevel ptr level =>
    cases hs
    exact .inr ⟨ptr, (b.loggers ptr).setLogLevel level, rfl, rfl, rfl, rfl⟩
  | addFilter ptr filter =>
    cases hs
    exact .inr ⟨ptr, (b.loggers ptr).addFilter filter, rfl, rfl, rfl, rfl⟩
  | clearFilters ptr =>
    cases hs
    exact .inr ⟨ptr, (b.loggers ptr).clearFilters, rfl, rfl, rfl, rfl⟩
  | _ =>
    left
    cases Backend.step_effect hs with
    | logger he => cases he
    | _ => rfl

/-- A message that has reached the queue, or is about to, is about a logger that the thread has
held. -/
theorem mem_calls_of_step (hs : Backend.step env b e = some b') {t : τ} {call : LogCall}
    (hcall : b'.calling t = some call ∨ (t, call) ∈ b'.logged) :
    heldBy e = some call.loggerPtr ∨ b.calling t = some call ∨ (t, call) ∈ b.logged := by
  cases e with
  | logCheck t' call' =>
    cases hs
    rcases hcall with hcall | hcall
    · rcases eq_or_ne t t' with rfl | hne
      · simp only [Function.update_self] at hcall
        split at hcall
        · cases hcall
          exact .inl rfl
        · cases hcall
      · simp only [Function.update_of_ne hne] at hcall
        exact .inr (.inl hcall)
    · exact .inr (.inr hcall)
  | logPush t' =>
    simp only [Backend.step] at hs
    split at hs
    · next call' hcalling =>
      obtain ⟨tc, -, rfl⟩ := Option.map_eq_some_iff.mp hs
      rcases hcall with hcall | hcall
      · rcases eq_or_ne t t' with rfl | hne
        · simp at hcall
        · simp only [Function.update_of_ne hne] at hcall
          exact .inr (.inl hcall)
      · rcases List.mem_append.mp hcall with hcall | hcall
        · exact .inr (.inr hcall)
        · cases List.mem_singleton.mp hcall
          exact .inr (.inl hcalling)
    · cases hs
  | _ =>
    have hsame := Backend.calling_of_step hs (by simp) (by simp)
    rw [hsame.1, hsame.2] at hcall
    exact .inr hcall

end Overlay

/-! ### The invariant -/

theorem mem_ptrs {s : State τ} {name : String} {ptr : UInt64} (h : (name, ptr) ∈ s.registry) :
    ptr ∈ s.ptrs := List.mem_map_of_mem h

private theorem first_append {calls : List NewCall} {call call' : NewCall} {name : String}
    (h : calls.find? (fun call => call.name = name) = some call) :
    (calls ++ [call']).find? (fun call => call.name = name) = some call := by
  rw [List.find?_append, h, Option.some_or]

variable [Target] [DecidableEq τ]

/-- The loggers at the registered addresses are the ones that the first calls have created. -/
def Created (s : State τ) (loggers : UInt64 → Logger) : Prop :=
  ∀ name ptr sinks, (name, ptr) ∈ s.registry → s.first name = some ⟨name, sinks, ptr⟩ →
    loggers ptr = .new name sinks

/-- The loggers as they were created. -/
def State.asCreated (s : State τ) (ptr : UInt64) : Logger :=
  if ptr ∈ s.ptrs then .new (s.backend.loggers ptr).name (s.backend.loggers ptr).sinks
  else s.backend.loggers ptr

/-- What holds between any two steps. -/
structure Inv (env : Backend.Env) (s : State τ) : Prop where
  counted : Counted s.strong (s.handles ++ s.ptrs)
  handles : ∀ ptr ∈ s.handles, ptr ∈ s.ptrs
  calls : ∀ call ∈ s.calls, (call.name, call.ptr) ∈ s.registry
  registered : ∀ name ptr, (name, ptr) ∈ s.registry → ∃ sinks,
    s.first name = some ⟨name, sinks, ptr⟩ ∧ (s.backend.loggers ptr).name = name ∧
      (s.backend.loggers ptr).sinks = sinks
  messages : ∀ t call, s.backend.calling t = some call ∨ (t, call) ∈ s.backend.logged →
    call.loggerPtr ∈ s.ptrs
  faulted : s.faulted = false
  simulated : ∀ loggers, Created s loggers →
    Machine.Reach (Backend.step env) (fun _ e => Backend.CapacityOk e) (Backend.init loggers)
      (overlay s.ptrs loggers s.backend)

namespace Inv

variable {env : Backend.Env} {s : State τ}

theorem clone (h : Inv env s) {ptr : UInt64} (hptr : ptr ∈ s.ptrs) :
    Inv env (s.clone ptr) where
  counted := h.counted.clone ptr
  handles := by
    intro other hmem
    rcases List.mem_cons.mp hmem with rfl | hmem
    · exact hptr
    · exact h.handles other hmem
  calls := h.calls
  registered := h.registered
  messages := h.messages
  faulted := h.faulted
  simulated := h.simulated

theorem drop (h : Inv env s) {ptr : UInt64} (hptr : ptr ∈ s.handles) :
    Inv env
      { s with
        strong := Function.update s.strong ptr (s.strong ptr - 1)
        handles := s.handles.erase ptr } where
  counted := by
    have hcounted := h.counted.drop ptr
    rwa [List.erase_append_left _ hptr] at hcounted
  handles other hmem := h.handles other (List.mem_of_mem_erase hmem)
  calls := h.calls
  registered := h.registered
  messages := h.messages
  faulted := h.faulted
  simulated := h.simulated

/-- `Logger::new` for a name that is there already. -/
theorem called (h : Inv env s) {name : String} {sinks : List ℕ} {ptr : UInt64}
    (hptr : (name, ptr) ∈ s.registry) : Inv env (s.called name sinks ptr) where
  counted := h.counted
  handles := h.handles
  calls := by
    intro call hcall
    rcases List.mem_append.mp hcall with hcall | hcall
    · exact h.calls call hcall
    · cases List.mem_singleton.mp hcall
      exact hptr
  registered := by
    intro name' ptr' hmem
    obtain ⟨sinks', hfirst, hlogger⟩ := h.registered name' ptr' hmem
    exact ⟨sinks', first_append hfirst, hlogger⟩
  messages := h.messages
  faulted := h.faulted
  simulated := by
    intro loggers hcreated
    refine h.simulated loggers fun name' ptr' sinks' hmem hfirst => ?_
    exact hcreated name' ptr' sinks' hmem (first_append hfirst)

/-- `Logger::new` for a new name. -/
theorem create (h : Inv env s) {name : String} {sinks : List ℕ} {ptr : UInt64}
    (hname : ∀ ptr, (name, ptr) ∉ s.registry) (hfree : s.strong ptr = 0) :
    Inv env ((s.create name sinks ptr).called name sinks ptr) := by
  -- no reference to `ptr` is left, not even in the registry
  have hunused : ptr ∉ s.ptrs := by
    intro hmem
    have hpos := h.counted.pos_iff.mpr (List.mem_append_right _ hmem)
    omega
  have hptrs : ∀ other, other ∈ (s.create name sinks ptr).ptrs ↔ other ∈ s.ptrs ∨ other = ptr := by
    intro other
    simp [State.ptrs, State.create]
  have hnew : ((s.create name sinks ptr).called name sinks ptr).first name =
      some ⟨name, sinks, ptr⟩ := by
    have hnone : s.first name = none := by
      refine List.find?_eq_none.mpr fun call hcall heq => ?_
      rw [decide_eq_true_eq] at heq
      exact hname call.ptr (heq ▸ h.calls call hcall)
    simp only [State.first, State.called, State.create, List.find?_append] at hnone ⊢
    rw [hnone]
    simp
  have hloggers : ∀ other ≠ ptr,
      (s.create name sinks ptr).backend.loggers other = s.backend.loggers other := by
    intro other hne
    exact Function.update_of_ne hne _ _
  exact
    { counted := by
        have hcounted := (h.counted.clone ptr).clone ptr
        rw [Function.update_self, Function.update_idem, hfree] at hcounted
        refine hcounted.perm ?_
        have hperm : (ptr :: (s.handles ++ s.ptrs)).Perm (s.handles ++ (s.ptrs ++ [ptr])) := by
          rw [← List.append_assoc]
          exact (List.perm_append_singleton ptr _).symm
        simpa [State.ptrs, State.create, State.called] using hperm
      handles := by
        intro other hmem
        rcases List.mem_cons.mp hmem with rfl | hmem
        · exact (hptrs _).mpr (.inr rfl)
        · exact (hptrs _).mpr (.inl (h.handles other hmem))
      calls := by
        intro call hcall
        rcases List.mem_append.mp hcall with hcall | hcall
        · exact List.mem_append_left _ (h.calls call hcall)
        · cases List.mem_singleton.mp hcall
          exact List.mem_append_right _ List.mem_cons_self
      registered := by
        intro name' ptr' hmem
        rcases List.mem_append.mp hmem with hmem | hmem
        · obtain ⟨sinks', hfirst, hlogger⟩ := h.registered name' ptr' hmem
          have hne : ptr' ≠ ptr := fun heq => hunused (heq ▸ mem_ptrs hmem)
          refine ⟨sinks', first_append hfirst, ?_⟩
          change ((s.create name sinks ptr).backend.loggers ptr').name = name' ∧
            ((s.create name sinks ptr).backend.loggers ptr').sinks = sinks'
          rwa [hloggers ptr' hne]
        · cases List.mem_singleton.mp hmem
          refine ⟨sinks, hnew, ?_⟩
          simp [State.called, State.create, Backend.State.setLogger, Logger.new]
      messages := by
        intro t call hcall
        exact (hptrs _).mpr (.inl (h.messages t call hcall))
      faulted := h.faulted
      simulated := by
        intro loggers hcreated
        -- the memory that the run starts from held the new logger already
        have hold := h.simulated loggers fun name' ptr' sinks' hmem hfirst =>
          hcreated name' ptr' sinks' (List.mem_append_left _ hmem) (first_append hfirst)
        have hlogger : loggers ptr = .new name sinks :=
          hcreated name ptr sinks (List.mem_append_right _ List.mem_cons_self) hnew
        have hsame : overlay ((s.create name sinks ptr).called name sinks ptr).ptrs loggers
            ((s.create name sinks ptr).called name sinks ptr).backend =
            overlay s.ptrs loggers s.backend := by
          unfold overlay State.called State.create Backend.State.setLogger
          congr 1
          funext other
          change (if other ∈ (s.create name sinks ptr).ptrs then
            (s.create name sinks ptr).backend.loggers other else loggers other) = _
          rcases eq_or_ne other ptr with rfl | hne
          · rw [if_pos ((hptrs _).mpr (.inr rfl)), if_neg hunused, hlogger]
            exact Function.update_self ..
          · simp only [hptrs, hne, or_false, hloggers other hne]
        rwa [hsame] }

/-- Some run of the backend alone has led here. -/
theorem reach (h : Inv env s) :
    Machine.Reach (Backend.step env) (fun _ e => Backend.CapacityOk e)
      (Backend.init s.asCreated) s.backend := by
  have hcreated : Created s s.asCreated := by
    intro name ptr sinks hmem hfirst
    obtain ⟨sinks', hfirst', hname, hsinks⟩ := h.registered name ptr hmem
    cases hfirst.symm.trans hfirst'
    rw [State.asCreated, if_pos (mem_ptrs hmem), hname, hsinks]
  have hsame : overlay s.ptrs s.asCreated s.backend = s.backend := by
    unfold overlay
    congr 1
    funext ptr
    unfold State.asCreated
    split <;> rfl
  exact hsame ▸ h.simulated _ hcreated

theorem held_of_decode (h : Inv env s) {raw : Raw τ} (hraw : raw ∈ s.backend.tc.accepted)
    {header : ArchivedHeader} (hdec : ArchivedHeader.decode raw.2 = some header) :
    header.loggerPtr ∈ s.ptrs := by
  have hinv := Backend.inv_of_reach (fun _ _ hcap => hcap) h.reach
  obtain ⟨t, call, -, hlogged, hcall⟩ := hinv.accepted raw hraw
  cases hdec.symm.trans hcall
  exact h.messages t call (.inr hlogged)

/-- The logger of a message that a worker holds is registered. -/
theorem held_of_decoded (h : Inv env s) {w : ℕ} {cur : Decoded τ}
    (hcur : cur ∈ (s.backend.workers w).phase.decoded) : cur.1.loggerPtr ∈ s.ptrs := by
  have hinv := Backend.inv_of_reach (fun _ _ hcap => hcap) h.reach
  -- a worker that was never started holds no message
  have hw : w < s.backend.started := by
    by_contra hle
    rw [hinv.unstarted w (not_lt.mp hle)] at hcur
    cases hcur
  have hheld : cur.2 ∈ (s.backend.workers w).phase.held := by
    revert hcur
    cases (s.backend.workers w).phase with
    | dispatching rest => exact List.mem_map_of_mem
    | filtering _ _ rest | writing _ _ _ _ rest =>
      intro hcur
      exact List.mem_map_of_mem (f := Prod.snd) hcur
    | _ =>
      intro hcur
      cases hcur
  exact h.held_of_decode (hinv.accepted_of_held hw hheld) (hinv.decoded w cur hcur)

theorem held_of_derefs (h : Inv env s) {e : Backend.Event τ}
    (hheld : ∀ ptr ∈ heldBy e, ptr ∈ s.handles) : ∀ ptr ∈ derefs s.backend e, ptr ∈ s.ptrs := by
  intro ptr hptr
  cases e with
  | logCheck t call => exact h.handles ptr (hheld ptr hptr)
  | setLogLevel | addFilter | clearFilters => exact h.handles ptr (hheld ptr hptr)
  | next w | checkFilters w | writeSink w =>
    simp only [derefs] at hptr
    split at hptr
    · next hphase =>
      cases hptr
      exact h.held_of_decoded (w := w) (by rw [hphase]; exact List.mem_cons_self)
    · cases hptr
  | _ => cases hptr

/-- A step of the backend. -/
theorem backend (h : Inv env s) {e : Backend.Event τ} {backend : Backend.State τ}
    (hcap : Backend.CapacityOk e) (hheld : ∀ ptr ∈ heldBy e, ptr ∈ s.handles)
    (hs : Backend.step env s.backend e = some backend) :
    Inv env
      { s with
        backend
        faulted := s.faulted || ((derefs s.backend e).any fun ptr => s.strong ptr = 0) } where
  counted := h.counted
  handles := h.handles
  calls := h.calls
  registered := by
    intro name ptr hmem
    obtain ⟨sinks, hfirst, hlogger⟩ := h.registered name ptr hmem
    refine ⟨sinks, hfirst, ?_⟩
    rcases loggers_of_step hs with heq | ⟨ptr', logger, -, hname, hsinks, heq⟩
    · rwa [heq]
    · rw [heq]
      rcases eq_or_ne ptr ptr' with rfl | hne
      · rwa [Function.update_self, hname, hsinks]
      · rwa [Function.update_of_ne hne]
  messages := by
    intro t call hcall
    rcases mem_calls_of_step hs hcall with heq | hold
    · exact h.handles _ (hheld _ heq)
    · exact h.messages t call hold
  faulted := by
    -- the registry holds a reference to every logger that a step may use
    have hlive : ∀ ptr ∈ derefs s.backend e, s.strong ptr ≠ 0 := by
      intro ptr hptr
      have hmem := h.held_of_derefs hheld ptr hptr
      exact (h.counted.pos_iff.mpr (List.mem_append_right _ hmem)).ne'
    cases hptr : derefs s.backend e with
    | none => simp [h.faulted]
    | some ptr => simp [h.faulted, hlive ptr hptr]
  simulated := by
    intro loggers hcreated
    refine (h.simulated loggers hcreated).step hcap ?_
    rw [step_overlay (h.held_of_derefs hheld), hs]
    rfl

theorem init (env : Backend.Env) (memory : UInt64 → Logger) : Inv env (init memory : State τ) where
  counted _ := rfl
  handles _ hptr := by cases hptr
  calls _ hcall := by cases hcall
  registered _ _ hmem := by cases hmem
  messages _ _ hcall := by rcases hcall with hcall | hcall <;> cases hcall
  faulted := rfl
  simulated loggers _ := by
    have hsame : overlay [] loggers (Backend.init memory : Backend.State τ) =
        Backend.init loggers := by
      unfold overlay Backend.init
      simp
    exact hsame ▸ .refl

end Inv

/-- The capacities of the rings are valid. -/
def CapacityOk : Event τ → Prop
  | .backend e => Backend.CapacityOk e
  | _ => True

theorem Inv.step {env : Backend.Env} {s s' : State τ} {e : Event τ} (h : Inv env s)
    (hcap : CapacityOk e) (hs : step env s e = some s') : Inv env s' := by
  cases step_effect hs with
  | existing hptr => exact (h.clone (mem_ptrs hptr)).called hptr
  | create hname hfree => exact h.create hname hfree
  | get hptr => exact h.clone (mem_ptrs hptr)
  | missing => exact h
  | clone hptr => exact h.clone (h.handles _ hptr)
  | drop hptr => exact h.drop hptr
  | backend hheld hstep => exact h.backend hcap hheld hstep

/-! ### Whole runs -/

/-- The loggers are as good as if they had been there from the start. -/
structure Sound (env : Backend.Env) (s : State τ) : Prop where
  /-- No logger has been used that was not live. -/
  faulted : s.faulted = false
  /-- Once a logger is created, it stays. -/
  live : ∀ call ∈ s.calls, 0 < s.strong call.ptr
  names : ∀ call ∈ s.calls, ∀ call' ∈ s.calls, call.name = call'.name ↔ call.ptr = call'.ptr
  /-- A logger has the sinks that the first call with its name asked for. -/
  sinks : ∀ call ∈ s.calls, ∃ first, s.first call.name = some first ∧
    (s.backend.loggers call.ptr).name = call.name ∧
      (s.backend.loggers call.ptr).sinks = first.sinks
  /-- Every message in a queue, or in a batch, is about a logger that `Logger::new` has returned. -/
  messages : ∀ raw ∈ s.backend.tc.accepted, ∃ header, ArchivedHeader.decode raw.2 = some header ∧
    ∃ call ∈ s.calls, call.ptr = header.loggerPtr
  /-- The backend has done nothing that it cannot do with loggers that are there at the start. -/
  reach : ∃ loggers,
    (∀ call ∈ s.calls, ∃ first, s.first call.name = some first ∧
      loggers call.ptr = .new call.name first.sinks) ∧
    Machine.Reach (Backend.step env) (fun _ e => Backend.CapacityOk e) (Backend.init loggers)
      s.backend

/-- In every run whose ring capacities are valid, whatever the threads do with their references,
no message outlives its logger, and the loggers might as well have been created at the start. -/
theorem loggers_sound (env : Backend.Env) (memory : UInt64 → Logger) {s : State τ}
    (hrun : Machine.Reach (step env) (fun _ e => CapacityOk e) (init memory) s) :
    Sound env s := by
  have h : Inv env s :=
    hrun.invariant (.init env memory) fun _ _ _ h hcap hs => h.step hcap hs
  have hfirst : ∀ call ∈ s.calls, ∃ sinks, s.first call.name = some ⟨call.name, sinks, call.ptr⟩ ∧
      (s.backend.loggers call.ptr).name = call.name ∧
        (s.backend.loggers call.ptr).sinks = sinks :=
    fun call hcall => h.registered _ _ (h.calls call hcall)
  exact
    { faulted := h.faulted
      live := by
        intro call hcall
        have hptr := mem_ptrs (h.calls call hcall)
        exact h.counted.pos_iff.mpr (List.mem_append_right _ hptr)
      names := by
        intro call hcall call' hcall'
        obtain ⟨sinks, hcalls, hname, -⟩ := hfirst call hcall
        obtain ⟨sinks', hcalls', hname', -⟩ := hfirst call' hcall'
        constructor
        · intro heq
          rw [heq, hcalls'] at hcalls
          injection hcalls with hcalls
          injection hcalls with _ _ hptr
          exact hptr.symm
        · intro heq
          rw [← hname, ← hname', heq]
      sinks := by
        intro call hcall
        obtain ⟨sinks, hcalls, hname, hsinks⟩ := hfirst call hcall
        exact ⟨_, hcalls, hname, hsinks⟩
      messages := by
        intro raw hraw
        have hinv := Backend.inv_of_reach (fun _ _ hcap => hcap) h.reach
        obtain ⟨_, _, -, -, hdec⟩ := hinv.accepted raw hraw
        refine ⟨_, hdec, ?_⟩
        obtain ⟨⟨name, ptr⟩, hmem, hptr⟩ := List.mem_map.mp (h.held_of_decode hraw hdec)
        obtain ⟨sinks, hcalls, -⟩ := h.registered name ptr hmem
        exact ⟨_, List.mem_of_find?_eq_some hcalls, hptr⟩
      reach := by
        refine ⟨s.asCreated, ?_, h.reach⟩
        intro call hcall
        obtain ⟨sinks, hcalls, hname, hsinks⟩ := hfirst call hcall
        refine ⟨_, hcalls, ?_⟩
        rw [State.asCreated, if_pos (mem_ptrs (h.calls call hcall)), hname, hsinks] }

open Backend (logOnce pollOnce bareCall bareDecoded callSites) in
/-- A thread logs and gives up its logger before the worker has seen the message. The second call
of `Logger::new` brings other sinks. -/
def droppedRun : List (Event Bool) :=
  .new "app" [0] 1 :: (logOnce true (bareCall 5 2)).map .backend ++
    [.drop 1, .new "app" [7] 3, .drop 1,
      .backend (.start { minBatchSize := 1, formatMessage := fun _ _ => "" }),
      .backend (.loadStop 0 false)] ++ (pollOnce 0 3).map .backend ++
    [.backend (.sort 0 [bareDecoded true (bareCall 5 2)]), .backend (.next 0),
      .backend (.checkFilters 0), .backend (.writeSink 0), .backend (.writeSink 0)]

instance : (e : Event τ) → Decidable (CapacityOk e)
  | .backend e => inferInstanceAs (Decidable (Backend.CapacityOk e))
  | .new .. | .get _ | .clone _ | .drop _ => .isTrue trivial

omit [Target] [DecidableEq τ] in
/-- The message is written to the sink of the first call, and nobody but the registry holds the
logger. -/
theorem loggers_sound_dropped :
    letI : Target := x86_64
    ∃ s, (step Backend.callSites).runWhile (fun _ e => CapacityOk e)
        (init fun _ => .new "" []) droppedRun = some s ∧
      s.handles = [] ∧ s.strong 1 = 1 ∧
      s.backend.sinkCalls =
        [.write 0 (some true, (Backend.bareCall 5 2).header.bytes) 0 ""] ∧
      Sound Backend.callSites s := by
  let _ : Target := x86_64
  have hrun : ((step Backend.callSites).runWhile (fun _ e => CapacityOk e)
      (init fun _ => .new "" []) droppedRun).map
      (fun s => (s.handles, s.strong 1, s.backend.sinkCalls)) =
      some ([], 1, [.write 0 (some true, (Backend.bareCall 5 2).header.bytes) 0 ""]) := by
    decide +kernel
  obtain ⟨s, hs, hsummary⟩ := Option.map_eq_some_iff.mp hrun
  obtain ⟨hhandles, hrest⟩ := Prod.mk.inj hsummary
  obtain ⟨hstrong, hcalls⟩ := Prod.mk.inj hrest
  exact ⟨s, hs, hhandles, hstrong, hcalls, loggers_sound Backend.callSites _ (.of_runWhile hs)⟩

end Registry

end RapidLog
