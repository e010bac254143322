import RapidLog.Backend.Messages
import RapidLog.Lib.Simulation
import RapidLog.Pipeline.Immediate

/-!
# The invariant of the pipeline

The pipeline does what the backend does, so what holds in every run of the backend holds of its
backend part (`backend_of_reach`). On top of this, between any two steps:

* the statics of a call site hold nothing, or what the types of its arguments give, and hold both
  before any of its calls reaches the queue;
* a call that is under way has passed the level check, and knows of the statics what it has seen;
* the calls that have reached the queue are those that the backend has on record.
-/

namespace RapidLog

variable [Target] {τ : Type} [DecidableEq τ]

namespace Pipeline

open Backend (Env)

/-! ### What a step does -/

section

variable [FloatDisplay] [Calendar] {env : Env} {s s' : State τ} {e : Event τ}

/-- What a step can do. -/
inductive Effect (env : Env) (s : State τ) : Event τ → State τ → Prop
  | check {t call backend progress} (hidle : s.calling t = none)
    (hb : Backend.step env s.backend (.logCheck t call.logCall) = some backend)
    (hcalling : backend.calling = Function.update s.backend.calling t
      (progress.map fun p => p.call.logCall))
    (hp : ∀ p ∈ progress, p.call = call ∧ p.phase = .testSchemas ∧
      p.execution.Enabled (env.metas call.metadataPtr).level) :
    Effect env s (.logCheck t call)
      { s with backend, calling := Function.update s.calling t progress }
  | advance {t p site phase} (hp : s.calling t = some p)
    (hadvance : p.advance (env.metas p.call.metadataPtr) (s.sites p.call.metadataPtr) =
      some (site, phase)) :
    Effect env s (.advance t)
      { s with
        sites := Function.update s.sites p.call.metadataPtr site
        calling := Function.update s.calling t (some { p with phase }) }
  | push {t p backend} (hp : s.calling t = some p) (hphase : p.phase = .push)
    (hb : Backend.step env s.backend (.logPush t) = some backend) :
    Effect env s (.logPush t)
      { s with
        backend
        calling := Function.update s.calling t none
        pushed := s.pushed ++ [(t, p.call)] }
  | start {minBatchSize patternFormatter backend}
    (hb : Backend.step env s.backend
      (.start { minBatchSize, formatMessage := fun _ _ => "" }) = some backend) :
    Effect env s (.start minBatchSize patternFormatter)
      { s with
        backend
        formatters := Function.update s.formatters s.backend.started patternFormatter }
  | format {w cur level filters sinks rest text backend}
    (hb : Backend.step env s.backend (.checkFilters w) = some backend)
    (hphase : (backend.workers w).phase = .writing cur level filters sinks rest)
    (htext : s.format env w cur = some text) :
    Effect env s (.checkFilters w)
      { s with backend, formatted := Function.update s.formatted w text }
  | panic {w cur level filters sinks rest backend}
    (hb : Backend.step env s.backend (.checkFilters w) = some backend)
    (hphase : (backend.workers w).phase = .writing cur level filters sinks rest)
    (hnone : s.format env w cur = none) :
    Effect env s (.checkFilters w) { s with backend, panicked := true }
  | refuse {w backend} (hb : Backend.step env s.backend (.checkFilters w) = some backend)
    (hphase : ∀ cur level filters sinks rest,
      (backend.workers w).phase ≠ .writing cur level filters sinks rest) :
    Effect env s (.checkFilters w) { s with backend }
  | write {w cur level filters sink sinks rest backend}
    (hb : Backend.step env s.backend (.writeSink w) = some backend)
    (hphase : (s.backend.workers w).phase = .writing cur level filters (sink :: sinks) rest) :
    Effect env s (.writeSink w)
      { s with backend, written := s.written ++ [⟨w, cur.2, sink, s.formatted w⟩] }
  | writeDone {w cur level filters rest backend}
    (hb : Backend.step env s.backend (.writeSink w) = some backend)
    (hphase : (s.backend.workers w).phase = .writing cur level filters [] rest) :
    Effect env s (.writeSink w) { s with backend }
  | backend {e backend} (hplain : isPlain e = true)
    (hb : Backend.step env s.backend e = some backend) :
    Effect env s (.backend e) { s with backend }

/-- The level check of a call decides in the same way as that of the backend. -/
private theorem check_effect {t : τ} {call : Call} (hs : step env s (.logCheck t call) = some s') :
    Effect env s (.logCheck t call) s' := by
  simp only [step] at hs
  split at hs
  · cases hs
  · next hidle =>
    obtain ⟨backend, hb, rfl⟩ := Option.map_eq_some_iff.mp hs
    refine .check hidle hb ?_ fun p hp => ?_
    · simp only [Backend.step, Option.some.injEq] at hb
      subst hb
      refine congrArg (Function.update s.backend.calling t) ?_
      by_cases henabled : (s.backend.loggers call.loggerPtr).logLevel.asUsize ≤
          (env.metas call.metadataPtr).level.asUsize
      · have hexec : (call.execution (s.backend.loggers call.loggerPtr).logLevel).Enabled
            (env.metas call.metadataPtr).level := henabled
        rw [if_pos hexec]
        exact if_pos henabled
      · have hexec : ¬ (call.execution (s.backend.loggers call.loggerPtr).logLevel).Enabled
            (env.metas call.metadataPtr).level := henabled
        rw [if_neg hexec]
        exact if_neg henabled
    · split at hp
      · next henabled =>
        cases hp
        exact ⟨rfl, rfl, henabled⟩
      · cases hp

private theorem checkFilters_effect {w : ℕ} (hs : step env s (.checkFilters w) = some s') :
    Effect env s (.checkFilters w) s' := by
  simp only [step] at hs
  obtain ⟨backend, hb, rfl⟩ := Option.map_eq_some_iff.mp hs
  split
  · next hphase =>
    split
    · next htext => exact .format hb hphase htext
    · next hnone => exact .panic hb hphase hnone
  · next hphase => exact .refuse hb fun cur level filters sinks rest h => hphase _ _ _ _ _ h

/-- The backend writes to a sink only where it is writing a message. -/
private theorem writeSink_effect {w : ℕ} (hs : step env s (.writeSink w) = some s') :
    Effect env s (.writeSink w) s' := by
  simp only [step] at hs
  obtain ⟨backend, hb, rfl⟩ := Option.map_eq_some_iff.mp hs
  split
  · next hphase => exact .write hb hphase
  · next hnone =>
    have hw := hb
    simp only [Backend.step, Backend.workerStep] at hw
    split at hw
    · split at hw
      · next hphase => exact absurd hphase (hnone _ _ _ _ _ _)
      · next hphase => exact .writeDone hb hphase
      · cases hw
    · cases hw

/-- Every step is one of these. -/
theorem step_effect (hs : step env s e = some s') : Effect env s e s' := by
  cases e with
  | logCheck t call => exact check_effect hs
  | advance t =>
    simp only [step] at hs
    split at hs
    · next hp =>
      obtain ⟨⟨site, phase⟩, hadvance, rfl⟩ := Option.map_eq_some_iff.mp hs
      exact .advance hp hadvance
    · cases hs
  | logPush t =>
    simp only [step] at hs
    split at hs
    · next hp =>
      split at hs
      · next hphase =>
        obtain ⟨backend, hb, rfl⟩ := Option.map_eq_some_iff.mp hs
        exact .push hp hphase hb
      · cases hs
    · cases hs
  | start minBatchSize patternFormatter =>
    simp only [step] at hs
    obtain ⟨backend, hb, rfl⟩ := Option.map_eq_some_iff.mp hs
    exact .start hb
  | checkFilters w => exact checkFilters_effect hs
  | writeSink w => exact writeSink_effect hs
  | backend e =>
    simp only [step] at hs
    split at hs
    · next hplain =>
      obtain ⟨backend, hb, rfl⟩ := Option.map_eq_some_iff.mp hs
      exact .backend hplain hb
    · cases hs

/-- A step of the pipeline leaves the backend alone or is a step of it. -/
theorem backend_of_step (hs : step env s e = some s') : s'.backend = s.backend ∨
    ∃ e', Backend.step env s.backend e' = some s'.backend ∧
      ((∀ e₀, e ≠ .backend e₀) → Backend.CapacityOk e') ∧ (∀ e₀, e = .backend e₀ → e' = e₀) := by
  cases step_effect hs with
  | advance => exact .inl rfl
  | check _ hb | push _ _ hb | start hb | format hb | panic hb | refuse hb | write hb
  | writeDone hb =>
    exact .inr ⟨_, hb, fun _ => trivial, fun _ heq => by cases heq⟩
  | backend _ hb =>
    exact .inr ⟨_, hb, fun hne => absurd rfl (hne _), fun _ heq => by cases heq; rfl⟩

end

/-! ### The call sites -/

section

/-- What the schemas and string tables of these types give. -/
def providedBy (tys : List Logged) : Provided where
  schemas := .ofNat tys.length :: (tys.map fun p => p.impl.schema).flatten
  stringTables := tys.map fun p => p.impl.stringTable
  userFormatters := []

/-- The statics hold nothing, or what these types give. -/
structure SiteOk (tys : List Logged) (site : CallSite) : Prop where
  schemas : ∀ bytes ∈ site.schemaBytes, bytes = (providedBy tys).schemas
  tables : ∀ tables ∈ site.stringTables, tables = (providedBy tys).stringTables

variable [FloatDisplay] {types : UInt64 → List Logged}

theorem own_eq_providedBy {call : Call} (h : call.Readable types) :
    call.own = providedBy (types call.metadataPtr) := by
  rw [← h.types_eq]
  simp [Call.own, providedBy, Function.comp_def]

/-- An execution of a call sets what the types of its call site give. -/
theorem execution_own {call : Call} (h : call.Readable types)
    (logLevel : LogLevel) :
    (call.execution logLevel).schemaBytes = (providedBy (types call.metadataPtr)).schemas ∧
      (call.execution logLevel).stringTables =
        (providedBy (types call.metadataPtr)).stringTables := by
  rw [← own_eq_providedBy h]
  constructor
  · simp [CallSite.Execution.schemaBytes, Call.execution, Call.own, List.flatMap_def,
      Function.comp_def]
  · simp [CallSite.Execution.stringTables, Call.execution, Call.own, Function.comp_def]

omit [Target] [FloatDisplay] in
theorem SiteOk.provided_eq {tys : List Logged} {site : CallSite} (h : SiteOk tys site)
    (hready : site.Ready) : site.provided = providedBy tys := by
  obtain ⟨bytes, hbytes⟩ := Option.isSome_iff_exists.mp hready.1
  obtain ⟨tables, htables⟩ := Option.isSome_iff_exists.mp hready.2
  rw [CallSite.provided, hbytes, htables, Option.getD_some, Option.getD_some,
    h.schemas bytes hbytes, h.tables tables htables]
  rfl

/-- A stage of the macro: statics that are set stay, and what is set is what the types give. -/
theorem advance_spec {metadata : Metadata} {p : Progress} {site site' : CallSite}
    {phase : CallSite.Phase} (hread : p.call.Readable types)
    (hadvance : p.advance metadata site = some (site', phase))
    (hsite : SiteOk (types p.call.metadataPtr) site) (hphase : p.phase ≠ .levelCheck)
    (henabled : p.execution.Enabled metadata.level)
    (hknows : p.phase.Knows metadata.level site p.execution) :
    phase ≠ .levelCheck ∧ site.Grows site' ∧ phase.Knows metadata.level site' p.execution ∧
      SiteOk (types p.call.metadataPtr) site' := by
  obtain ⟨hschemas, htables⟩ := execution_own hread p.logLevel
  obtain ⟨s', hs', heq⟩ := Option.map_eq_some_iff.mp hadvance
  obtain ⟨rfl, rfl⟩ := Prod.mk.inj heq
  -- the statics may have been set by any call, but all calls set the same
  have hset : site.SetBy (fun _ : Unit => p.execution) (CallSite.State.Passed metadata.level
      (fun _ => p.execution) { site, phase := fun _ => p.phase, queued := [], formatted := [] }) :=
    ⟨fun bytes hbytes => ⟨(), ⟨hphase, henabled⟩, hschemas.trans (hsite.schemas bytes hbytes).symm⟩,
      fun tables ht => ⟨(), ⟨hphase, henabled⟩, htables.trans (hsite.tables tables ht).symm⟩⟩
  obtain ⟨phase', site', rfl, hne, hgrows, hknows', hset'⟩ :=
    CallSite.advance_spec hs' hknows hset
  simp only [CallSite.State.setPhase, Function.update_self]
  refine ⟨hne, hgrows, hknows', fun bytes hbytes => ?_, fun tables ht => ?_⟩
  · obtain ⟨-, -, heq⟩ := hset'.schemas bytes hbytes
    exact heq.symm.trans hschemas
  · obtain ⟨-, -, heq⟩ := hset'.tables tables ht
    exact heq.symm.trans htables

end

/-! ### Calls on their way to the queue -/

section

variable [FloatDisplay] [Calendar] {env : Env} {types : UInt64 → List Logged} {s s' : State τ}
  {e : Event τ}

/-- What holds of a call between its level check and its push. -/
structure Underway (env : Env) (types : UInt64 → List Logged) (s : State τ) (t : τ)
    (p : Progress) : Prop where
  calling : s.backend.calling t = some p.call.logCall
  readable : p.call.Readable types
  checked : p.phase ≠ .levelCheck
  enabled : p.execution.Enabled (env.metas p.call.metadataPtr).level
  knows : p.phase.Knows (env.metas p.call.metadataPtr).level (s.sites p.call.metadataPtr)
    p.execution

/-- The calls and the statics of their call sites. -/
structure Staged (env : Env) (types : UInt64 → List Logged) (s : State τ) : Prop where
  sites : ∀ ptr, SiteOk (types ptr) (s.sites ptr)
  calling : ∀ t p, s.calling t = some p → Underway env types s t p
  pushed : ∀ x ∈ s.pushed, x.2.Readable types ∧ (s.sites x.2.metadataPtr).Ready
  logged : s.backend.logged = s.pushed.map fun x => (x.1, x.2.logCall)

/-- All calls can be read back, and ring capacities are valid. -/
def Admissible (types : UInt64 → List Logged) (_ : State τ) : Event τ → Prop
  | .logCheck _ call => call.Readable types
  | .backend e => Backend.CapacityOk e
  | .advance _ | .logPush _ | .start .. | .checkFilters _ | .writeSink _ => True

omit [Calendar] in
/-- A step of the backend that is not about a call. -/
theorem Staged.of_backend (h : Staged env types s) {e : Backend.Event τ}
    {backend : Backend.State τ} (hb : Backend.step env s.backend e = some backend)
    (hcheck : ∀ t call, e ≠ .logCheck t call) (hpush : ∀ t, e ≠ .logPush t)
    (hs' : s'.backend = backend ∧ s'.sites = s.sites ∧ s'.calling = s.calling ∧
      s'.pushed = s.pushed) : Staged env types s' := by
  obtain ⟨hbackend, hsites, hcalling, hpushed⟩ := hs'
  obtain ⟨hcalling', hlogged⟩ := Backend.calling_of_step hb hcheck hpush
  refine ⟨fun ptr => hsites ▸ h.sites ptr, fun t p hp => ?_, fun x hx => ?_, ?_⟩
  · obtain ⟨hcall, hread, hchecked, henabled, hknows⟩ := h.calling t p (hcalling ▸ hp)
    exact ⟨by rw [hbackend, hcalling', hcall], hread, hchecked, henabled, hsites ▸ hknows⟩
  · obtain ⟨hread, hready⟩ := h.pushed x (hpushed ▸ hx)
    exact ⟨hread, hsites ▸ hready⟩
  · rw [hbackend, hlogged, hpushed, h.logged]

omit [Calendar] in
/-- A stage of a call. The statics grow, which the other calls do not mind. -/
theorem Staged.advance (h : Staged env types s) {t : τ} {p : Progress} {site : CallSite}
    {phase : CallSite.Phase} (hp : s.calling t = some p)
    (hadvance : p.advance (env.metas p.call.metadataPtr) (s.sites p.call.metadataPtr) =
      some (site, phase)) :
    Staged env types { s with
      sites := Function.update s.sites p.call.metadataPtr site
      calling := Function.update s.calling t (some { p with phase }) } := by
  obtain ⟨hcall, hread, hchecked, henabled, hknows⟩ := h.calling t p hp
  obtain ⟨hchecked', hgrows, hknows', hsite⟩ :=
    advance_spec hread hadvance (h.sites _) hchecked henabled hknows
  have hall : ∀ ptr, (s.sites ptr).Grows (Function.update s.sites p.call.metadataPtr site ptr) := by
    intro ptr
    rcases eq_or_ne ptr p.call.metadataPtr with rfl | hne
    · rwa [Function.update_self]
    · rw [Function.update_of_ne hne]
      exact .refl _
  refine ⟨fun ptr => ?_, fun t' p' hp' => ?_, fun x hx => ?_, h.logged⟩
  · rcases eq_or_ne ptr p.call.metadataPtr with rfl | hne
    · simpa only [Function.update_self] using hsite
    · simpa only [Function.update_of_ne hne] using h.sites ptr
  · rcases eq_or_ne t' t with rfl | hne
    · simp only [Function.update_self, Option.some.injEq] at hp'
      subst hp'
      refine ⟨hcall, hread, hchecked', henabled, ?_⟩
      simp only [Function.update_self]
      exact hknows'
    · simp only [Function.update_of_ne hne] at hp'
      obtain ⟨hcall', hread', hne', henabled', hknows₀⟩ := h.calling t' p' hp'
      exact ⟨hcall', hread', hne', henabled', hknows₀.mono (hall _)⟩
  · obtain ⟨hread', hready⟩ := h.pushed x hx
    exact ⟨hread', hready.mono (hall _)⟩

theorem Staged.step (h : Staged env types s) (hok : Admissible types s e)
    (hs : step env s e = some s') : Staged env types s' := by
  cases step_effect hs with
  | @check t call backend progress hidle hb hcalling hp =>
    have hlogged : backend.logged = s.backend.logged := by
      simp only [Backend.step, Option.some.injEq] at hb
      rw [← hb]
    refine ⟨h.sites, fun t' p hp' => ?_, h.pushed, hlogged.trans h.logged⟩
    dsimp only at hp'
    rcases eq_or_ne t' t with rfl | hne
    · rw [Function.update_self] at hp'
      obtain ⟨rfl, hphase, henabled⟩ := hp p hp'
      refine ⟨?_, hok, by rw [hphase]; decide, henabled, by rw [hphase]; exact henabled⟩
      rw [hcalling, Function.update_self, hp']
      rfl
    · rw [Function.update_of_ne hne] at hp'
      have hother := h.calling t' p hp'
      exact { hother with calling := by rw [hcalling, Function.update_of_ne hne, hother.calling] }
  | advance hp hadvance => exact h.advance hp hadvance
  | @push t p backend hp hphase hb =>
    obtain ⟨hcall, hread, -, -, hknows⟩ := h.calling t p hp
    rw [hphase] at hknows
    simp only [Backend.step, hcall] at hb
    obtain ⟨tc, -, rfl⟩ := Option.map_eq_some_iff.mp hb
    refine ⟨h.sites, fun t' p' hp' => ?_, fun x hx => ?_, ?_⟩
    · dsimp only at hp'
      rcases eq_or_ne t' t with rfl | hne
      · rw [Function.update_self] at hp'
        cases hp'
      · rw [Function.update_of_ne hne] at hp'
        have hother := h.calling t' p' hp'
        exact { hother with
          calling := by simpa only [Function.update_of_ne hne] using hother.calling }
    · rcases List.mem_append.mp hx with hx | hx
      · exact h.pushed x hx
      · obtain rfl := List.mem_singleton.mp hx
        exact ⟨hread, hknows.2⟩
    · simp only [h.logged, List.map_append, List.map_cons, List.map_nil]
  | start hb | format hb | panic hb | refuse hb | write hb | writeDone hb =>
    exact h.of_backend hb (fun _ _ h => by cases h) (fun _ h => by cases h)
      ⟨rfl, rfl, rfl, rfl⟩
  | @backend e backend hplain hb =>
    refine h.of_backend hb ?_ ?_ ⟨rfl, rfl, rfl, rfl⟩
    · rintro t call rfl
      cases hplain
    · rintro t rfl
      cases hplain

omit [Calendar] [DecidableEq τ] in
theorem Staged.init (loggers : UInt64 → Logger) :
    Staged env types (Pipeline.init loggers : State τ) where
  sites _ := ⟨fun _ h => (by cases h), fun _ h => (by cases h)⟩
  calling _ _ h := by cases h
  pushed _ h := absurd h List.not_mem_nil
  logged := rfl

/-- The backend of a run has been reached in a run of its own. -/
theorem backend_of_reach {loggers : UInt64 → Logger}
    (hrun : Machine.Reach (step env) (Admissible types) (init loggers) s) :
    Machine.Reach (Backend.step env) (fun _ e => Backend.CapacityOk e) (Backend.init loggers)
      s.backend := by
  refine hrun.project (f := State.backend) fun s e s' hok hs => ?_
  rcases backend_of_step hs with hsame | ⟨e', hb, hother, hbackend⟩
  · exact .inl hsame
  · refine .inr ⟨e', ?_, hb⟩
    cases e with
    | backend e =>
      obtain rfl := hbackend e rfl
      exact hok
    | logCheck | advance | logPush | start | checkFilters | writeSink =>
      exact hother fun _ heq => by cases heq

/-- What holds in every run of the backend. -/
theorem backend_inv_of_reach {loggers : UInt64 → Logger}
    (hrun : Machine.Reach (step env) (Admissible types) (init loggers) s) :
    Backend.Inv env s.backend ∧ Backend.AcceptedWrites s.backend := by
  refine (backend_of_reach hrun).invariant
    (P := fun s => Backend.Inv env s ∧ Backend.AcceptedWrites s)
    ⟨Backend.inv_init env loggers, fun raw h => absurd h List.not_mem_nil⟩ ?_
  rintro s e s' ⟨hinv, hwrites⟩ hcap hs
  exact ⟨hinv.step hcap hs, hwrites.step hinv hcap hs⟩

end

end Pipeline

end RapidLog
