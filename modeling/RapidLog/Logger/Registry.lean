import RapidLog.Backend.Messages
import RapidLog.Lib.RefCounts

/-!
# The registry of loggers

`Logger::new` and `Logger::get` of `logger.rs`: loggers are kept by name in a registry that never
gives one up. Everybody else holds a logger through an `Arc`, which can be cloned and dropped, and
the messages hold its address only; the worker turns the address back into a reference.

`step` is the machine of the backend with the registry and the reference counts. A logger whose
count has dropped to zero is freed, and its address may be used for another one. Here the memory of
the loggers is `loggers` of the backend.
-/

namespace RapidLog

namespace Registry

variable {τ : Type}

/-- A call of `Logger::new`, and the address of the logger that it has returned. -/
structure NewCall where
  name : String
  sinks : List ℕ
  ptr : UInt64

structure State (τ : Type) where
  /-- The strong counts, by address. -/
  strong : UInt64 → ℕ
  /-- `LOGGER_REGISTRY` -/
  registry : List (String × UInt64)
  /-- The `Arc`s outside the registry, wherever they are. -/
  handles : List UInt64
  calls : List NewCall
  backend : Backend.State τ
  /-- A logger that is not live has been used. -/
  faulted : Bool

inductive Event (τ : Type)
  /-- `Logger::new`; a new logger is put at `ptr`. -/
  | new (name : String) (sinks : List ℕ) (ptr : UInt64)
  | get (name : String)
  | clone (ptr : UInt64)
  | drop (ptr : UInt64)
  | backend (e : Backend.Event τ)

/-- The memory may hold anything at first. -/
def init (memory : UInt64 → Logger) : State τ where
  strong _ := 0
  registry := []
  handles := []
  calls := []
  backend := Backend.init memory
  faulted := false

/-- The `Arc` that a call is made with. -/
def heldBy : Backend.Event τ → Option UInt64
  | .logCheck _ call => some call.loggerPtr
  | .setLogLevel ptr _ | .addFilter ptr _ | .clearFilters ptr => some ptr
  | .thread _ | .logPush _ | .start _ | .stop _ | .loadStop .. | .pollBegin _ | .pollStep _
  | .pollEnd _ | .sort .. | .next _ | .checkFilters _ | .writeSink _ => none

/-- The address of the logger that a step uses. -/
def derefs (s : Backend.State τ) : Backend.Event τ → Option UInt64
  | .logCheck _ call => some call.loggerPtr
  | .setLogLevel ptr _ | .addFilter ptr _ | .clearFilters ptr => some ptr
  | .next w =>
    match (s.workers w).phase with
    | .dispatching (cur :: _) => some cur.1.loggerPtr
    | _ => none
  | .checkFilters w =>
    match (s.workers w).phase with
    | .filtering cur _ _ => some cur.1.loggerPtr
    | _ => none
  -- `for sink in &logger.sinks`
  | .writeSink w =>
    match (s.workers w).phase with
    | .writing cur _ _ _ _ => some cur.1.loggerPtr
    | _ => none
  | .thread _ | .logPush _ | .start _ | .stop _ | .loadStop .. | .pollBegin _ | .pollStep _
  | .pollEnd _ | .sort .. => none

namespace State

/-- `Arc::clone` of a reference to `ptr`. -/
def clone (s : State τ) (ptr : UInt64) : State τ :=
  { s with
    strong := Function.update s.strong ptr (s.strong ptr + 1)
    handles := ptr :: s.handles }

/-- `Logger::new` puts a new logger at `ptr` and into the registry. -/
def create (s : State τ) (name : String) (sinks : List ℕ) (ptr : UInt64) : State τ :=
  { s with
    strong := Function.update s.strong ptr 2
    registry := s.registry ++ [(name, ptr)]
    handles := ptr :: s.handles
    backend := s.backend.setLogger ptr (.new name sinks) }

def called (s : State τ) (name : String) (sinks : List ℕ) (ptr : UInt64) : State τ :=
  { s with calls := s.calls ++ [⟨name, sinks, ptr⟩] }

end State

variable [Target] [DecidableEq τ]

/-- `new` holds the lock of the registry, so it is one step. -/
def step (env : Backend.Env) : Machine (State τ) (Event τ)
  | s, .new name sinks ptr =>
    match s.registry.lookup name with
    | some existing => some ((s.clone existing).called name sinks existing)
    | none =>
      -- the allocator hands out no address that is in use
      if s.strong ptr = 0 then some ((s.create name sinks ptr).called name sinks ptr) else none
  | s, .get name =>
    match s.registry.lookup name with
    | some ptr => some (s.clone ptr)
    | none => some s
  | s, .clone ptr => if ptr ∈ s.handles then some (s.clone ptr) else none
  | s, .drop ptr =>
    if ptr ∈ s.handles then
      some
        { s with
          strong := Function.update s.strong ptr (s.strong ptr - 1)
          handles := s.handles.erase ptr }
    else none
  | s, .backend e =>
    if (heldBy e).all fun ptr => ptr ∈ s.handles then
      (Backend.step env s.backend e).map fun backend =>
        { s with
          backend
          faulted := s.faulted || ((derefs s.backend e).any fun ptr => s.strong ptr = 0) }
    else none

/-! ### What a step does -/

namespace State

/-- The addresses of the registered loggers. -/
def ptrs (s : State τ) : List UInt64 := s.registry.map Prod.snd

/-- The first call of `Logger::new` with a name. -/
def first (s : State τ) (name : String) : Option NewCall :=
  s.calls.find? fun call => call.name = name

end State

inductive Effect (env : Backend.Env) (s : State τ) : Event τ → State τ → Prop
  | existing {name sinks unused ptr} (hptr : (name, ptr) ∈ s.registry) :
    Effect env s (.new name sinks unused) ((s.clone ptr).called name sinks ptr)
  | create {name sinks ptr} (hname : ∀ ptr, (name, ptr) ∉ s.registry) (hfree : s.strong ptr = 0) :
    Effect env s (.new name sinks ptr) ((s.create name sinks ptr).called name sinks ptr)
  | get {name ptr} (hptr : (name, ptr) ∈ s.registry) : Effect env s (.get name) (s.clone ptr)
  | missing {name} : Effect env s (.get name) s
  | clone {ptr} (hptr : ptr ∈ s.handles) : Effect env s (.clone ptr) (s.clone ptr)
  | drop {ptr} (hptr : ptr ∈ s.handles) :
    Effect env s (.drop ptr)
      { s with
        strong := Function.update s.strong ptr (s.strong ptr - 1)
        handles := s.handles.erase ptr }
  | backend {e backend} (hheld : ∀ ptr ∈ heldBy e, ptr ∈ s.handles)
    (hstep : Backend.step env s.backend e = some backend) :
    Effect env s (.backend e)
      { s with
        backend
        faulted := s.faulted || ((derefs s.backend e).any fun ptr => s.strong ptr = 0) }

omit [Target] [DecidableEq τ] in
private theorem mem_of_lookup {name : String} {ptr : UInt64} {registry : List (String × UInt64)}
    (h : registry.lookup name = some ptr) : (name, ptr) ∈ registry := by
  obtain ⟨before, after, rfl, -⟩ := List.lookup_eq_some_iff.mp h
  simp

theorem step_effect {env : Backend.Env} {s s' : State τ} {e : Event τ}
    (hs : step env s e = some s') : Effect env s e s' := by
  cases e with
  | new name sinks ptr =>
    simp only [step] at hs
    split at hs
    · next existing hlookup =>
      cases hs
      exact .existing (mem_of_lookup hlookup)
    · next hlookup =>
      split at hs
      · next hfree =>
        cases hs
        refine .create ?_ hfree
        intro other hmem
        have hne := List.lookup_eq_none_iff.mp hlookup (name, other) hmem
        simp at hne
      · cases hs
  | get name =>
    simp only [step] at hs
    split at hs
    · next ptr hlookup =>
      cases hs
      exact .get (mem_of_lookup hlookup)
    · cases hs
      exact .missing
  | clone ptr =>
    simp only [step] at hs
    split at hs
    · next hptr =>
      cases hs
      exact .clone hptr
    · cases hs
  | drop ptr =>
    simp only [step] at hs
    split at hs
    · next hptr =>
      cases hs
      exact .drop hptr
    · cases hs
  | backend e =>
    simp only [step] at hs
    split at hs
    · next hheld =>
      obtain ⟨backend, hstep, rfl⟩ := Option.map_eq_some_iff.mp hs
      refine .backend (fun ptr hptr => ?_) hstep
      exact decide_eq_true_eq.mp ((Option.all_eq_true _ _).mp hheld ptr hptr)
    · cases hs

end Registry

end RapidLog
