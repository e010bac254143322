import RapidLog.Arg.Body
import RapidLog.Arg.Encode
import RapidLog.Lib.Transition

/-!
# Call sites

`log_impl!` of `macros.rs`. A call site has two statics, `_SCHEMA_BYTES` and `_STRING_TABLES`, that
are set once, by the first execution that passes the level check. A message has only a pointer to
the metadata of its call site, so the worker formats it with what the statics hold.

A call site in a generic function has one pair of statics for all instantiations, so its executions
may have arguments of different types. `step` interleaves the executions of one call site, each in
some thread, with the worker. Every message is formatted with the schemas of its own arguments
exactly when all executions that pass the level check have the same (`formatted_with_own`).
-/

namespace RapidLog

/-- `OnceLock::set`: a value that is there stays. -/
def OnceLock.set {α : Type*} (cell : Option α) (value : α) : Option α := cell.or (some value)

@[simp]
theorem OnceLock.isSome_set {α : Type*} (cell : Option α) (value : α) :
    (OnceLock.set cell value).isSome := by
  cases cell <;> rfl

/-- An argument of a log macro. -/
abbrev Encode.Arg := (e : Encode) × e.Self

/-- The statics of a call site. -/
structure CallSite where
  schemaBytes : Option (List UInt8) := none
  stringTables : Option (List (List UInt8)) := none

namespace CallSite

/-- What `__schemas`, `__string_tables` and `__user_formatters` return. -/
def provided (site : CallSite) : Provided where
  schemas := site.schemaBytes.getD []
  stringTables := site.stringTables.getD []
  userFormatters := []

/-- What one execution of the macro evaluates: the level of the logger, and the arguments. -/
structure Execution where
  logLevel : LogLevel
  args : List Encode.Arg

namespace Execution

/-- What is set for `_SCHEMA_BYTES`: the number of arguments in one byte, and their schemas. -/
def schemaBytes (ex : Execution) : List UInt8 :=
  .ofNat ex.args.length :: ex.args.flatMap fun arg => arg.1.schema

/-- What is set for `_STRING_TABLES`. -/
def stringTables (ex : Execution) : List (List UInt8) := ex.args.map fun arg => arg.1.stringTable

/-- The schemas and string tables of the arguments. -/
def own (ex : Execution) : Provided where
  schemas := ex.schemaBytes
  stringTables := ex.stringTables
  userFormatters := []

def payloadsSize (ex : Execution) : ℕ := (ex.args.map fun arg => arg.1.encodedSize arg.2).sum

/-- What the closure writes behind the header. -/
def encodeArgs (ex : Execution) : SliceWriter UInt8 :=
  .all (ex.args.map fun arg => arg.1.encodeTo arg.2)

/-- The level check. -/
def Enabled (level : LogLevel) (ex : Execution) : Prop := ex.logLevel.asUsize ≤ level.asUsize

instance (level : LogLevel) (ex : Execution) : Decidable (ex.Enabled level) := Nat.decLe _ _

end Execution

/-- Where an execution stands in the macro. -/
inductive Phase
  /-- About to compare the level of the logger with that of the call site. -/
  | levelCheck
  /-- About to test whether `_SCHEMA_BYTES` is set. -/
  | testSchemas
  /-- Has found `_SCHEMA_BYTES` unset, and is about to set it. -/
  | setSchemas
  /-- About to test whether `_STRING_TABLES` is set. -/
  | testTables
  /-- Has found `_STRING_TABLES` unset, and is about to set it. -/
  | setTables
  /-- About to call `push_encoded`. -/
  | push
  | finished
  deriving DecidableEq

/-- A message that has been formatted: the execution that it is from, its payload, what the worker
got from the metadata, and the text. -/
structure Formatted (ι : Type) where
  exec : ι
  payload : List UInt8
  provided : Provided
  body : Option String

/-- A call site with its executions, the queued messages and the formatted ones. -/
structure State (ι : Type) where
  site : CallSite
  phase : ι → Phase
  queued : List (ι × List UInt8)
  formatted : List (Formatted ι)

inductive Event (ι : Type)
  /-- The next step of an execution that does not push yet. -/
  | advance (i : ι)
  /-- `push_encoded` lends the bytes behind the header, or fails. -/
  | push (i : ι) (lent : Option (List UInt8))
  /-- The worker formats the queued message at this position. -/
  | format (n : ℕ)

def init {ι : Type} : State ι where
  site := {}
  phase _ := .levelCheck
  queued := []
  formatted := []

section Step

variable [Target] [FloatDisplay] {ι : Type} [DecidableEq ι] (metadata : Metadata)
  (exec : ι → Execution)

namespace State

def setPhase (s : State ι) (i : ι) (phase : Phase) : State ι :=
  { s with phase := Function.update s.phase i phase }

/-- The step of an execution that does not push yet. -/
def advance (s : State ι) (i : ι) : Option (State ι) :=
  match s.phase i with
  | .levelCheck =>
    some (s.setPhase i (if (exec i).Enabled metadata.level then .testSchemas else .finished))
  | .testSchemas =>
    some (s.setPhase i (if s.site.schemaBytes.isNone then .setSchemas else .testTables))
  | .setSchemas =>
    some { s.setPhase i .testTables with
      site.schemaBytes := OnceLock.set s.site.schemaBytes (exec i).schemaBytes }
  | .testTables =>
    some (s.setPhase i (if s.site.stringTables.isNone then .setTables else .push))
  | .setTables =>
    some { s.setPhase i .push with
      site.stringTables := OnceLock.set s.site.stringTables (exec i).stringTables }
  | .push | .finished => none

/-- `push_encoded`, with the closure of the macro. An error is ignored, and so is the message when
an `encode_to` panics. -/
def push (s : State ι) (i : ι) (lent : Option (List UInt8)) : Option (State ι) :=
  if s.phase i = .push ∧ ∀ buf ∈ lent, buf.length = (exec i).payloadsSize then
    let message := do
      let (payload, _) ← (exec i).encodeArgs.run (← lent)
      return (i, payload)
    some { s.setPhase i .finished with queued := s.queued ++ message.toList }
  else none

/-- The worker formats a message. -/
def format (s : State ι) (n : ℕ) : Option (State ι) := do
  let (i, payload) ← s.queued[n]?
  let formatted : Formatted ι :=
    { exec := i
      payload
      provided := s.site.provided
      body := formatBody metadata s.site.provided payload }
  return { s with queued := s.queued.eraseIdx n, formatted := s.formatted ++ [formatted] }

end State

/-- The executions of a call site, interleaved with each other and with the worker. -/
def step : Machine (State ι) (Event ι)
  | s, .advance i => s.advance metadata exec i
  | s, .push i lent => s.push exec i lent
  | s, .format n => s.format metadata n

/-! ### The statics are set once -/

/-- What is set in `site` is set to the same in `site'`. -/
structure Grows (site site' : CallSite) : Prop where
  schemas : ∀ bytes ∈ site.schemaBytes, site'.schemaBytes = some bytes
  tables : ∀ tables ∈ site.stringTables, site'.stringTables = some tables

omit [Target] [FloatDisplay] [DecidableEq ι] in
theorem Grows.refl (site : CallSite) : Grows site site := ⟨fun _ h => h, fun _ h => h⟩

/-- Both statics are set. -/
def Ready (site : CallSite) : Prop := site.schemaBytes.isSome ∧ site.stringTables.isSome

/-- The statics hold what executions with `P` have set. -/
structure SetBy (exec : ι → Execution) (P : ι → Prop) (site : CallSite) : Prop where
  schemas : ∀ bytes ∈ site.schemaBytes, ∃ i, P i ∧ (exec i).schemaBytes = bytes
  tables : ∀ tables ∈ site.stringTables, ∃ i, P i ∧ (exec i).stringTables = tables

/-- The execution has passed the level check. -/
def State.Passed (level : LogLevel) (exec : ι → Execution) (s : State ι) (i : ι) : Prop :=
  s.phase i ≠ .levelCheck ∧ (exec i).Enabled level

/-- What an execution knows of the statics. -/
def Phase.Knows (level : LogLevel) (site : CallSite) (ex : Execution) : Phase → Prop
  | levelCheck | finished => True
  | testSchemas | setSchemas => ex.Enabled level
  | testTables | setTables => ex.Enabled level ∧ site.schemaBytes.isSome
  | push => ex.Enabled level ∧ site.Ready

section Statics

variable {level : LogLevel} {site site' : CallSite}

omit [Target] [FloatDisplay] [DecidableEq ι]

theorem isSome_of_grows {α : Type*} {cell cell' : Option α}
    (h : ∀ x ∈ cell, cell' = some x) (hsome : cell.isSome) : cell'.isSome := by
  obtain ⟨x, hx⟩ := Option.isSome_iff_exists.mp hsome
  rw [h x hx]
  rfl

theorem set_eq_of_mem {α : Type*} {cell : Option α} {x : α} (h : x ∈ cell) (value : α) :
    OnceLock.set cell value = some x := by
  rw [Option.mem_def.mp h]
  rfl

theorem mem_set {α : Type*} {cell : Option α} {value x : α} (h : x ∈ OnceLock.set cell value) :
    x ∈ cell ∨ x = value := by
  cases cell with
  | none => exact .inr (Option.some.inj h).symm
  | some y => exact .inl h

theorem Ready.mono (h : site.Ready) (hgrows : site.Grows site') : site'.Ready :=
  ⟨isSome_of_grows hgrows.schemas h.1, isSome_of_grows hgrows.tables h.2⟩

/-- Statics that are both set stay as they are. -/
theorem Ready.eq (h : site.Ready) (hgrows : site.Grows site') : site' = site := by
  obtain ⟨schemaBytes, stringTables⟩ := site
  obtain ⟨schemaBytes', stringTables'⟩ := site'
  obtain ⟨⟨bytes, rfl⟩, ⟨tables, rfl⟩⟩ := h.imp Option.isSome_iff_exists.mp
    Option.isSome_iff_exists.mp
  have hschemas : schemaBytes' = some bytes := hgrows.schemas bytes rfl
  have htables : stringTables' = some tables := hgrows.tables tables rfl
  rw [hschemas, htables]

theorem Phase.Knows.mono {ex : Execution} {phase : Phase} (h : phase.Knows level site ex)
    (hgrows : site.Grows site') : phase.Knows level site' ex := by
  cases phase with
  | levelCheck | finished => trivial
  | testSchemas | setSchemas => exact h
  | testTables | setTables => exact ⟨h.1, isSome_of_grows hgrows.schemas h.2⟩
  | push => exact ⟨h.1, h.2.mono hgrows⟩

theorem SetBy.mono {exec : ι → Execution} {P Q : ι → Prop} (h : site.SetBy exec P)
    (hPQ : ∀ i, P i → Q i) : site.SetBy exec Q where
  schemas bytes hbytes :=
    let ⟨i, hi, heq⟩ := h.schemas bytes hbytes
    ⟨i, hPQ i hi, heq⟩
  tables tables htables :=
    let ⟨i, hi, heq⟩ := h.tables tables htables
    ⟨i, hPQ i hi, heq⟩

end Statics

section Steps

variable {metadata exec} {s s' : State ι} {i : ι}

omit [Target] [FloatDisplay] in
/-- A step of an execution takes it to a phase in which it knows what it has tested or set. -/
theorem advance_spec (h : s.advance metadata exec i = some s')
    (hknows : (s.phase i).Knows metadata.level s.site (exec i))
    (hset : s.site.SetBy exec (s.Passed metadata.level exec)) :
    ∃ phase site, s' = { s.setPhase i phase with site := site } ∧ phase ≠ .levelCheck ∧
      s.site.Grows site ∧ phase.Knows metadata.level site (exec i) ∧
      site.SetBy exec (s.Passed metadata.level exec) := by
  unfold State.advance at h
  cases hphase : s.phase i with
  | levelCheck =>
    rw [hphase] at h
    cases h
    refine ⟨_, s.site, rfl, ?_, .refl _, ?_, hset⟩
    · split <;> decide
    · split
      · next henabled => exact henabled
      · trivial
  | testSchemas =>
    rw [hphase] at h hknows
    cases h
    refine ⟨_, s.site, rfl, ?_, .refl _, ?_, hset⟩
    · split <;> decide
    · split
      · exact hknows
      · next hsome => exact ⟨hknows, by simpa [Option.isSome_iff_ne_none] using hsome⟩
  | setSchemas =>
    rw [hphase] at h hknows
    cases h
    refine ⟨_, _, rfl, by decide, ⟨fun bytes hbytes => set_eq_of_mem hbytes _, fun _ h => h⟩,
      ⟨hknows, OnceLock.isSome_set _ _⟩, ⟨fun bytes hbytes => ?_, hset.tables⟩⟩
    -- `set` keeps what is there, or stores the bytes of this execution
    rcases mem_set hbytes with hbytes | rfl
    · exact hset.schemas bytes hbytes
    · exact ⟨i, ⟨by rw [hphase]; decide, hknows⟩, rfl⟩
  | testTables =>
    rw [hphase] at h hknows
    cases h
    refine ⟨_, s.site, rfl, ?_, .refl _, ?_, hset⟩
    · split <;> decide
    · split
      · exact hknows
      · next hsome => exact ⟨hknows.1, hknows.2, by simpa [Option.isSome_iff_ne_none] using hsome⟩
  | setTables =>
    rw [hphase] at h hknows
    cases h
    refine ⟨_, _, rfl, by decide, ⟨fun _ h => h, fun tables htables => set_eq_of_mem htables _⟩,
      ⟨hknows.1, hknows.2, OnceLock.isSome_set _ _⟩, ⟨hset.schemas, fun tables htables => ?_⟩⟩
    rcases mem_set htables with htables | rfl
    · exact hset.tables tables htables
    · exact ⟨i, ⟨by rw [hphase]; decide, hknows.1⟩, rfl⟩
  | push | finished =>
    rw [hphase] at h
    cases h

/-- Every message is from an execution that has passed the level check, and the worker formats it
with the statics as they are from the first such message on. -/
structure Inv (metadata : Metadata) (exec : ι → Execution) (s : State ι) : Prop where
  knows : ∀ i, (s.phase i).Knows metadata.level s.site (exec i)
  setBy : s.site.SetBy exec (s.Passed metadata.level exec)
  queued : ∀ m ∈ s.queued, s.Passed metadata.level exec m.1 ∧ s.site.Ready
  formatted : ∀ f ∈ s.formatted, s.Passed metadata.level exec f.exec ∧ s.site.Ready ∧
    f.provided = s.site.provided ∧ f.body = formatBody metadata f.provided f.payload

omit [DecidableEq ι] in
theorem inv_init : Inv metadata exec (init : State ι) where
  knows _ := trivial
  setBy :=
    ⟨fun _ h => absurd h (Option.not_mem_none _), fun _ h => absurd h (Option.not_mem_none _)⟩
  queued := by simp [init]
  formatted := by simp [init]

/-- What holds of all executions and messages still holds after a step of execution `i`. -/
theorem Inv.setPhase {site : CallSite} {phase : Phase} (h : Inv metadata exec s)
    (hne : phase ≠ .levelCheck) (hgrows : s.site.Grows site)
    (hphase : phase.Knows metadata.level site (exec i))
    (hset : site.SetBy exec (s.Passed metadata.level exec)) :
    Inv metadata exec { s.setPhase i phase with site := site } := by
  have hpassed : ∀ j, s.Passed metadata.level exec j →
      { s.setPhase i phase with site := site }.Passed metadata.level exec j := by
    intro j hj
    refine ⟨?_, hj.2⟩
    show Function.update s.phase i phase j ≠ _
    by_cases hij : j = i
    · rwa [hij, Function.update_self]
    · rw [Function.update_of_ne hij]
      exact hj.1
  constructor
  · intro j
    show (Function.update s.phase i phase j).Knows metadata.level site (exec j)
    by_cases hij : j = i
    · rwa [hij, Function.update_self]
    · rw [Function.update_of_ne hij]
      exact (h.knows j).mono hgrows
  · exact hset.mono hpassed
  · intro m hm
    obtain ⟨hm, hready⟩ := h.queued m hm
    exact ⟨hpassed _ hm, hready.mono hgrows⟩
  · intro f hf
    obtain ⟨hf, hready, hprovided, hbody⟩ := h.formatted f hf
    -- the statics no longer change once both are set
    have hsite : site = s.site := hready.eq hgrows
    exact ⟨hpassed _ hf, hready.mono hgrows, by rw [hprovided, hsite], hbody⟩

theorem Inv.step {e : Event ι} (h : Inv metadata exec s)
    (he : step metadata exec s e = some s') : Inv metadata exec s' := by
  cases e with
  | advance i =>
    obtain ⟨phase, site, rfl, hne, hgrows, hknows, hset⟩ := advance_spec he (h.knows i) h.setBy
    exact h.setPhase hne hgrows hknows hset
  | push i lent =>
    simp only [CallSite.step, State.push] at he
    split at he
    · next hpush =>
      cases he
      have hknows := h.knows i
      rw [hpush.1] at hknows
      have hinv : Inv metadata exec (s.setPhase i .finished) :=
        h.setPhase (by decide) (.refl _) trivial h.setBy
      refine ⟨hinv.knows, hinv.setBy, fun m hm => ?_, hinv.formatted⟩
      rcases List.mem_append.mp hm with hm | hm
      · exact hinv.queued m hm
      · have hexec : m.1 = i := by
          simp only [Option.bind_eq_bind, Option.mem_toList, Option.bind_eq_some_iff] at hm
          obtain ⟨buf, -, x, -, hm⟩ := hm
          rw [← Option.some.inj hm]
        rw [hexec]
        refine ⟨⟨?_, hknows.1⟩, hknows.2⟩
        show Function.update s.phase i .finished i ≠ _
        rw [Function.update_self]
        decide
    · cases he
  | format n =>
    simp only [CallSite.step, State.format, Option.bind_eq_bind, Option.bind_eq_some_iff] at he
    obtain ⟨m, hm, he⟩ := he
    cases he
    refine ⟨h.knows, h.setBy, fun m' hm' => h.queued m' (List.mem_of_mem_eraseIdx hm'), ?_⟩
    intro f hf
    rcases List.mem_append.mp hf with hf | hf
    · exact h.formatted f hf
    · obtain ⟨hpassed, hready⟩ := h.queued m (List.mem_of_getElem? hm)
      rw [List.mem_singleton.mp hf]
      exact ⟨hpassed, hready, rfl, rfl⟩

theorem inv_of_reach (h : (step metadata exec).Reach (fun _ _ => True) init s) :
    Inv metadata exec s :=
  h.invariant inv_init fun _ _ _ hinv _ he => hinv.step he

/-! ### Messages are formatted with the schemas of the first ones -/

/-- Every message has been formatted with the schemas and string tables of its own arguments. -/
def FormattedWithOwn (metadata : Metadata) (exec : ι → Execution) (s : State ι) : Prop :=
  ∀ f ∈ s.formatted, f.provided = (exec f.exec).own ∧
    f.body = formatBody metadata (exec f.exec).own f.payload

/-- All executions that have passed the level check have arguments with the same schemas and
string tables. -/
def Uniform (metadata : Metadata) (exec : ι → Execution) (s : State ι) : Prop :=
  ∀ i j, s.Passed metadata.level exec i → s.Passed metadata.level exec j →
    (exec i).own = (exec j).own

omit [Target] [FloatDisplay] [DecidableEq ι] in
/-- Executions with arguments of the same types have the same schemas and string tables. -/
theorem Execution.own_eq_of_types {ex ex' : Execution}
    (h : ex.args.map Sigma.fst = ex'.args.map Sigma.fst) : ex.own = ex'.own := by
  have hlen : ex.args.length = ex'.args.length := by simpa using congrArg List.length h
  have hschemas := congrArg (List.flatMap Encode.schema) h
  have htables := congrArg (List.map Encode.stringTable) h
  simp only [List.flatMap_map, List.map_map] at hschemas htables
  rw [own, own, schemaBytes, schemaBytes, hlen, hschemas]
  exact congrArg (fun tables => Provided.mk _ tables []) htables

omit [DecidableEq ι] in
theorem Inv.provided_eq_own (h : Inv metadata exec s) (huniform : Uniform metadata exec s)
    (hready : s.site.Ready) (hi : s.Passed metadata.level exec i) :
    s.site.provided = (exec i).own := by
  obtain ⟨bytes, hbytes⟩ := Option.isSome_iff_exists.mp hready.1
  obtain ⟨tables, htables⟩ := Option.isSome_iff_exists.mp hready.2
  obtain ⟨j, hj, rfl⟩ := h.setBy.schemas bytes hbytes
  obtain ⟨k, hk, rfl⟩ := h.setBy.tables tables htables
  have hschemas : (exec j).schemaBytes = (exec i).schemaBytes :=
    congrArg Provided.schemas (huniform j i hj hi)
  have htables' : (exec k).stringTables = (exec i).stringTables :=
    congrArg Provided.stringTables (huniform k i hk hi)
  rw [provided, hbytes, htables, Option.getD_some, Option.getD_some, hschemas, htables']
  rfl

/-- As long as the executions that pass the level check have the same schemas and string tables,
each message is formatted with its own. When all of them have been formatted, this is the only
way. -/
theorem formatted_with_own_iff (h : (step metadata exec).Reach (fun _ _ => True) init s) :
    (Uniform metadata exec s → FormattedWithOwn metadata exec s) ∧
      ((∀ i, s.Passed metadata.level exec i → ∃ f ∈ s.formatted, f.exec = i) →
        (FormattedWithOwn metadata exec s ↔ Uniform metadata exec s)) := by
  have hinv := inv_of_reach h
  have huniform : Uniform metadata exec s → FormattedWithOwn metadata exec s := by
    intro huniform f hf
    obtain ⟨hpassed, hready, hprovided, hbody⟩ := hinv.formatted f hf
    have hown : f.provided = (exec f.exec).own := by
      rw [hprovided, hinv.provided_eq_own huniform hready hpassed]
    exact ⟨hown, by rw [hbody, hown]⟩
  refine ⟨huniform, fun hall => ⟨fun hown i j hi hj => ?_, huniform⟩⟩
  obtain ⟨f, hf, rfl⟩ := hall i hi
  obtain ⟨g, hg, rfl⟩ := hall j hj
  rw [← (hown f hf).1, ← (hown g hg).1, (hinv.formatted f hf).2.2.1, (hinv.formatted g hg).2.2.1]

end Steps

end Step

/-- The first execution sets both statics, the second one finds them set. -/
private def twoExecutions : List (Event (Fin 2)) :=
  [.advance 0, .advance 0, .advance 0, .advance 0, .advance 0, .push 0 (some [0]),
    .advance 1, .advance 1, .advance 1, .push 1 (some [0]), .format 0, .format 0]

/-- A call site that is executed with two numbers of one type. -/
private def byteSite [Target] : Fin 2 → Execution :=
  ![{ logLevel := .info, args := [⟨.u8, (5 : BitVec 8)⟩] },
    { logLevel := .info, args := [⟨.u8, (255 : BitVec 8)⟩] }]

theorem formatted_with_own_iff_bytes :
    letI : Target := x86_64
    letI : FloatDisplay := noFloats
    ∃ s, (step (callSite "\x7b\x7d") byteSite).Reach (fun _ _ => True) init s ∧
      s.formatted.map (fun f => (f.exec, f.body)) = [(0, some "5"), (1, some "255")] ∧
      FormattedWithOwn (callSite "\x7b\x7d") byteSite s := by
  let _ : Target := x86_64
  let _ : FloatDisplay := noFloats
  have hrun : ((step (callSite "\x7b\x7d") byteSite).run init twoExecutions).map
      (fun s => s.formatted.map fun f => (f.exec, f.body)) =
        some [(0, some "5"), (1, some "255")] := by
    decide +kernel
  obtain ⟨s, hs, hformatted⟩ := Option.map_eq_some_iff.mp hrun
  have hreach : (step (callSite "\x7b\x7d") byteSite).Reach (fun _ _ => True) init s :=
    .of_run (fun _ _ _ => trivial) hs
  refine ⟨s, hreach, hformatted, ?_⟩
  have hexecs : s.formatted.map Formatted.exec = [0, 1] := by
    have hmap := congrArg (List.map Prod.fst) hformatted
    rwa [List.map_map] at hmap
  have hall : ∀ i, s.Passed (callSite "\x7b\x7d").level byteSite i →
      ∃ f ∈ s.formatted, f.exec = i := by
    intro i _
    rw [← List.mem_map, hexecs]
    fin_cases i <;> simp
  refine ((formatted_with_own_iff hreach).2 hall).mpr fun i j _ _ => ?_
  have htypes : ∀ i, (byteSite i).args.map Sigma.fst = [.u8] := by
    intro i
    fin_cases i <;> rfl
  exact Execution.own_eq_of_types ((htypes i).trans (htypes j).symm)

/-- A call site in a generic function, which is executed with a `u8` and then with an `i8`. -/
private def genericSite [Target] : Fin 2 → Execution :=
  ![{ logLevel := .info, args := [⟨.u8, (5 : BitVec 8)⟩] },
    { logLevel := .info, args := [⟨.i8, (-1 : BitVec 8)⟩] }]

/-- The `i8` is formatted as a `u8`. -/
theorem generic_site_reinterprets :
    letI : Target := x86_64
    letI : FloatDisplay := noFloats
    (∃ s, (step (callSite "\x7b\x7d") genericSite).Reach (fun _ _ => True) init s ∧
      s.formatted.map (fun f => (f.exec, f.payload, f.body)) =
        [(0, [5], some "5"), (1, [255], some "255")] ∧
      ¬ FormattedWithOwn (callSite "\x7b\x7d") genericSite s) ∧
    formatBody (callSite "\x7b\x7d") (genericSite 1).own [255] = some "-1" := by
  let _ : Target := x86_64
  let _ : FloatDisplay := noFloats
  have hown : formatBody (callSite "\x7b\x7d") (genericSite 1).own [255] = some "-1" := by
    decide +kernel
  have hrun : ((step (callSite "\x7b\x7d") genericSite).run init twoExecutions).map
      (fun s => s.formatted.map fun f => (f.exec, f.payload, f.body)) =
        some [(0, [5], some "5"), (1, [255], some "255")] := by
    decide +kernel
  obtain ⟨s, hs, hformatted⟩ := Option.map_eq_some_iff.mp hrun
  refine ⟨⟨s, .of_run (fun _ _ _ => trivial) hs, hformatted, fun hall => ?_⟩, hown⟩
  have hmem : ((1 : Fin 2), [(255 : UInt8)], some "255") ∈
      s.formatted.map fun f => (f.exec, f.payload, f.body) := by
    rw [hformatted]
    simp
  obtain ⟨f, hf, heq⟩ := List.mem_map.mp hmem
  obtain ⟨hexec, hpayload, hbody⟩ := by simpa only [Prod.mk.injEq] using heq
  have hbody' := (hall f hf).2
  rw [hexec, hpayload, hbody, hown] at hbody'
  exact absurd hbody' (by decide)

end CallSite

end RapidLog
