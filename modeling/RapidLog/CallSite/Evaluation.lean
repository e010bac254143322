import RapidLog.CallSite.Closure

/-!
# How often an argument is evaluated

`log_impl!` mentions each argument expression five times: to count the arguments, for their schemas,
for their string tables, for their sizes, and to encode them. A call makes the first two passes over
the expressions when it finds `_SCHEMA_BYTES` unset, the third when it finds `_STRING_TABLES` unset,
the fourth always, and the last when `push_encoded` lends it space.

Here an argument is an expression, whose evaluation changes a state that the calls of a call site
share. `step` interleaves these calls, one evaluation at a time. `evaluations_of_finished` says how
often each expression is evaluated, and that the space is reserved for the values of one pass and
filled with those of another.

The sizes are added in `usize`. A call whose sum overflows panics where overflow is checked; where
it is not, it asks `push_encoded` for what is left of the sum, which is any number here.
-/

namespace RapidLog

open Slice SliceWriter

namespace CallSite

/-- An argument expression: what it evaluates to, and how that changes the state. -/
structure ArgExpr (σ : Type) where
  impl : Encode
  eval : σ → impl.Self × σ

/-- The parts of the macro that mention the arguments. -/
inductive Pass
  | count
  | schema
  | stringTable
  | size
  | encode
  deriving DecidableEq

/-- What one execution of the macro reads and evaluates. -/
structure Call (σ : Type) where
  logLevel : LogLevel
  exprs : List (ArgExpr σ)
  header : ArchivedHeader

namespace Call

variable {σ : Type}

/-- The level check. -/
def Enabled (level : LogLevel) (c : Call σ) : Prop := c.logLevel.asUsize ≤ level.asUsize

instance (level : LogLevel) (c : Call σ) : Decidable (c.Enabled level) := Nat.decLe _ _

/-- The types of the arguments. -/
def types (c : Call σ) : List Encode := c.exprs.map ArgExpr.impl

end Call

/-- Where a call stands in the macro. -/
inductive Stage
  /-- About to compare the level of the logger with that of the call site. -/
  | levelCheck
  /-- About to test whether `_SCHEMA_BYTES` is set. -/
  | testSchemas
  /-- About to test whether `_STRING_TABLES` is set. -/
  | testTables
  /-- Between two evaluations of a pass. -/
  | pass (p : Pass)
  /-- About to call `push_encoded`. -/
  | push
  | finished
  deriving DecidableEq

/-- The local data of a call. -/
structure Frame where
  stage : Stage := .levelCheck
  /-- The passes that have begun. -/
  passes : List Pass := []
  /-- The values of each pass, from left to right. -/
  evaluated : Pass → List Encode.Arg := fun _ => []
  /-- What `push_encoded` has lent. -/
  lent : Option (List UInt8) := none
  /-- `__buf` -/
  buf : List UInt8 := []
  /-- `__dp` -/
  dp : ℕ := 0
  /-- The lent bytes as the closure returns them. -/
  message : Option (List UInt8) := none
  /-- A sum of the sizes has overflowed, and the call has panicked. -/
  overflowed : Bool := false

/-- One `encode_to` of the closure, into `&mut __buf[__dp..]`. -/
def writeArg (buf : List UInt8) (dp : ℕ) (arg : Encode.Arg) : Option (List UInt8 × ℕ) := do
  let (rest, w) ← (arg.1.encodeTo arg.2).run (← sliceFrom buf dp)
  return (buf.take dp ++ rest, dp + w)

/-- Several of them. -/
def writeArgs : List Encode.Arg → List UInt8 → ℕ → Option (List UInt8 × ℕ)
  | [], buf, dp => some (buf, dp)
  | arg :: args, buf, dp => (writeArg buf dp arg).bind fun (buf, dp) => writeArgs args buf dp

namespace Frame

variable {σ : Type}

def goto (f : Frame) (stage : Stage) : Frame := { f with stage }

/-- Begin a pass. -/
def enter (f : Frame) (p : Pass) : Frame := { f with stage := .pass p, passes := f.passes ++ [p] }

/-- The sum of the sizes so far. -/
def payloadsSize (f : Frame) : ℕ :=
  ((f.evaluated .size).map fun arg => arg.1.encodedSize arg.2).sum

/-- `_total_msg`. There is none when the sum overflows `usize`. -/
def totalMsg [Target] (f : Frame) : Option ℕ :=
  let total := ArchivedHeader.headerSize + f.payloadsSize
  if total < usizeRange then some total else none

/-- Note the value of an expression. The closure encodes it, or panics. -/
def evaluate (f : Frame) (p : Pass) (arg : Encode.Arg) : Frame :=
  let f := { f with evaluated := Function.update f.evaluated p (f.evaluated p ++ [arg]) }
  if p = .encode then
    match writeArg f.buf f.dp arg with
    | some (buf, dp) => { f with buf, dp }
    | none => f.goto .finished
  else f

/-- The end of a pass. -/
def endPass (f : Frame) (site : CallSite) : Pass → Frame × CallSite
  | .count => (f.enter .schema, site)
  | .schema =>
    let bytes := .ofNat (f.evaluated .count).length ::
      (f.evaluated .schema).flatMap fun arg => arg.1.schema
    (f.goto .testTables, { site with schemaBytes := OnceLock.set site.schemaBytes bytes })
  | .stringTable =>
    let tables := (f.evaluated .stringTable).map fun arg => arg.1.stringTable
    (f.enter .size, { site with stringTables := OnceLock.set site.stringTables tables })
  | .size => (f.goto .push, site)
  | .encode => ({ f.goto .finished with message := some f.buf }, site)

/-- The next step of a call that does not call `push_encoded`: a test, an evaluation, or the end of
a pass. -/
def advance (level : LogLevel) (c : Call σ) (f : Frame) (site : CallSite) (env : σ) :
    Option (Frame × CallSite × σ) :=
  match f.stage with
  | .levelCheck =>
    some (f.goto (if c.Enabled level then .testSchemas else .finished), site, env)
  | .testSchemas =>
    some (if site.schemaBytes.isNone then f.enter .count else f.goto .testTables, site, env)
  | .testTables =>
    some (if site.stringTables.isNone then f.enter .stringTable else f.enter .size, site, env)
  | .pass p =>
    match c.exprs[(f.evaluated p).length]? with
    | some expr =>
      let (value, env) := expr.eval env
      some (f.evaluate p ⟨expr.impl, value⟩, site, env)
    | none =>
      let (f, site) := f.endPass site p
      some (f, site, env)
  | .push | .finished => none

/-- The call panics at a sum of the sizes: in the middle of the pass, or when it adds the header. -/
def overflow [Target] (f : Frame) : Option Frame :=
  match f.stage with
  | .pass .size =>
    if usizeRange ≤ f.payloadsSize then some { f.goto .finished with overflowed := true } else none
  | .push => if f.totalMsg = none then some { f.goto .finished with overflowed := true } else none
  | _ => none

/-- `push_encoded` lends as many bytes as it is asked for, and the closure begins with the header;
or it fails, which is ignored. -/
def push (c : Call σ) [Target] (f : Frame) (lent : Option (List UInt8)) : Option Frame :=
  match f.stage with
  | .push =>
    if ∀ buf ∈ lent, ∀ total ∈ f.totalMsg, buf.length = total then
      match lent with
      | none => some (f.goto .finished)
      | some buf =>
        -- `&mut __buf[..HEADER_SIZE]`
        if ArchivedHeader.headerSize ≤ buf.length then
          some { f.enter .encode with
            lent := some buf
            buf := c.header.serializeInto buf
            dp := ArchivedHeader.headerSize }
        else some { f.goto .finished with lent := some buf }
    else none
  | _ => none

/-- How often the call has evaluated its `j`-th expression. -/
def evaluations (f : Frame) (j : ℕ) : ℕ :=
  [Pass.count, .schema, .stringTable, .size, .encode].countP fun p => j < (f.evaluated p).length

end Frame

/-- The calls of a call site, its statics, and the state of the argument expressions. -/
structure Calls (σ ι : Type) where
  site : CallSite
  env : σ
  frame : ι → Frame

inductive CallEvent (ι : Type)
  | advance (i : ι)
  | overflow (i : ι)
  | push (i : ι) (lent : Option (List UInt8))

namespace Calls

variable [Target] {σ ι : Type} [DecidableEq ι]

def init (env : σ) : Calls σ ι where
  site := {}
  env
  frame _ := {}

/-- The calls of a call site, interleaved. -/
def step (level : LogLevel) (call : ι → Call σ) : Machine (Calls σ ι) (CallEvent ι)
  | s, .advance i => do
    let (f, site, env) ← (s.frame i).advance level (call i) s.site s.env
    return { site, env, frame := Function.update s.frame i f }
  | s, .overflow i => do
    let f ← (s.frame i).overflow
    return { s with frame := Function.update s.frame i f }
  | s, .push i lent => do
    let f ← (s.frame i).push (call i) lent
    return { s with frame := Function.update s.frame i f }

end Calls

/-! ### The steps of one call -/

/-- What `advance` can do with the local data and the statics. -/
inductive Frame.Advances {σ : Type} (level : LogLevel) (c : Call σ) (f : Frame) (site : CallSite) :
    Frame → CallSite → Prop
  | disabled (hstage : f.stage = .levelCheck) (h : ¬ c.Enabled level) :
      Advances level c f site (f.goto .finished) site
  | enabled (hstage : f.stage = .levelCheck) (h : c.Enabled level) :
      Advances level c f site (f.goto .testSchemas) site
  | schemasUnset (hstage : f.stage = .testSchemas) (hnone : site.schemaBytes = none) :
      Advances level c f site (f.enter .count) site
  | schemasSet (hstage : f.stage = .testSchemas) (hsome : site.schemaBytes.isSome) :
      Advances level c f site (f.goto .testTables) site
  | tablesUnset (hstage : f.stage = .testTables) (hnone : site.stringTables = none) :
      Advances level c f site (f.enter .stringTable) site
  | tablesSet (hstage : f.stage = .testTables) (hsome : site.stringTables.isSome) :
      Advances level c f site (f.enter .size) site
  | evaluate {p : Pass} {expr : ArgExpr σ} (hstage : f.stage = .pass p)
      (hget : c.exprs[(f.evaluated p).length]? = some expr) (value : expr.impl.Self) :
      Advances level c f site (f.evaluate p ⟨expr.impl, value⟩) site
  | endPass {p : Pass} (hstage : f.stage = .pass p)
      (hend : c.exprs.length ≤ (f.evaluated p).length) :
      Advances level c f site (f.endPass site p).1 (f.endPass site p).2

section Steps

variable {σ : Type} {level : LogLevel} {c : Call σ} {f f' : Frame} {site site' : CallSite}

theorem Frame.advances {env env' : σ} (h : f.advance level c site env = some (f', site', env')) :
    f.Advances level c site f' site' := by
  unfold Frame.advance at h
  cases hstage : f.stage with
  | levelCheck =>
    rw [hstage] at h
    by_cases hle : c.Enabled level
    · simp only [if_pos hle] at h
      cases h
      exact .enabled hstage hle
    · simp only [if_neg hle] at h
      cases h
      exact .disabled hstage hle
  | testSchemas =>
    rw [hstage] at h
    cases hbytes : site.schemaBytes with
    | none =>
      simp only [hbytes, Option.isNone_none, if_true] at h
      cases h
      exact .schemasUnset hstage hbytes
    | some bytes =>
      simp only [hbytes, Option.isNone_some, Bool.false_eq_true, if_false] at h
      cases h
      exact .schemasSet hstage (by rw [hbytes]; rfl)
  | testTables =>
    rw [hstage] at h
    cases htables : site.stringTables with
    | none =>
      simp only [htables, Option.isNone_none, if_true] at h
      cases h
      exact .tablesUnset hstage htables
    | some tables =>
      simp only [htables, Option.isNone_some, Bool.false_eq_true, if_false] at h
      cases h
      exact .tablesSet hstage (by rw [htables]; rfl)
  | pass p =>
    rw [hstage] at h
    cases hget : c.exprs[(f.evaluated p).length]? with
    | some expr =>
      simp only [hget] at h
      cases h
      exact .evaluate hstage hget _
    | none =>
      simp only [hget] at h
      cases h
      exact .endPass hstage (List.getElem?_eq_none_iff.mp hget)
  | push | finished =>
    rw [hstage] at h
    cases h

/-- The next expression in turn goes on with the types of the values. -/
theorem concat_types {args : List Encode.Arg} {expr : ArgExpr σ}
    (h : args.map Sigma.fst <+: c.types) (hget : c.exprs[args.length]? = some expr)
    (value : expr.impl.Self) :
    (args ++ [(⟨expr.impl, value⟩ : Encode.Arg)]).map Sigma.fst <+: c.types := by
  obtain ⟨rest, hrest⟩ := h
  have hnext : rest[0]? = some expr.impl := by
    have htypes : c.types[args.length]? = some expr.impl := by
      rw [Call.types, List.getElem?_map, hget, Option.map_some]
    rw [← hrest, List.getElem?_append_right (by simp)] at htypes
    simpa using htypes
  cases rest with
  | nil => cases hnext
  | cons e rest =>
    cases hnext
    exact ⟨rest, by rw [← hrest]; simp⟩

theorem length_of_types {args : List Encode.Arg} (h : args.map Sigma.fst <+: c.types)
    (hend : c.exprs.length ≤ args.length) : args.length = c.exprs.length := by
  have hle := h.length_le
  rw [List.length_map, Call.types, List.length_map] at hle
  omega

theorem writeArgs_concat (args : List Encode.Arg) (arg : Encode.Arg) (buf : List UInt8) (dp : ℕ) :
    writeArgs (args ++ [arg]) buf dp =
      (writeArgs args buf dp).bind fun (buf, dp) => writeArg buf dp arg := by
  induction args generalizing buf dp with
  | nil => simp [writeArgs]
  | cons a args ih => simp [writeArgs, ih, Option.bind_assoc]

/-- The passes before that for the sizes, by what the call has found unset. -/
def setup (schemasUnset tablesUnset : Bool) : List Pass :=
  (if schemasUnset then [.count, .schema] else []) ++ (if tablesUnset then [.stringTable] else [])

namespace Frame

/-- The call has begun these passes, and not called `push_encoded`. -/
def Before (f : Frame) (passes : List Pass) : Prop :=
  f.passes = passes ∧ f.lent = none ∧ f.message = none ∧ f.overflowed = false

/-- The lent bytes have room for the header, so the closure goes on to the arguments. -/
def Writes (f : Frame) : Prop := ∃ buf ∈ f.lent, ArchivedHeader.headerSize ≤ buf.length

instance (f : Frame) : Decidable f.Writes :=
  inferInstanceAs (Decidable (∃ buf ∈ f.lent, ArchivedHeader.headerSize ≤ buf.length))

variable [Target]

/-- What the closure has written of the values that it has evaluated. -/
def written (c : Call σ) (f : Frame) : Option (List UInt8 × ℕ) :=
  f.lent.bind fun buf =>
    if ArchivedHeader.headerSize ≤ buf.length then
      writeArgs (f.evaluated .encode) (c.header.serializeInto buf) ArchivedHeader.headerSize
    else none

/-- The passes of an enabled call, the reserved space and the message. -/
structure Done (c : Call σ) (f : Frame) : Prop where
  passes : ∃ schemasUnset tablesUnset, f.passes =
    setup schemasUnset tablesUnset ++ .size :: (if f.Writes then [.encode] else [])
  reserved : ∀ buf ∈ f.lent, ∀ total ∈ f.totalMsg, buf.length = total
  message : f.message = (f.written c).map Prod.fst
  sums : f.overflowed = true → f.totalMsg = none ∧ f.lent = none

/-- What is known of the local data where the call stands. -/
def Knows (level : LogLevel) (c : Call σ) (f : Frame) : Stage → Prop
  | .levelCheck => f.Before []
  | .testSchemas => c.Enabled level ∧ f.Before []
  | .testTables => c.Enabled level ∧ ∃ schemasUnset, f.Before (setup schemasUnset false)
  | .pass .count => c.Enabled level ∧ f.Before [.count]
  | .pass .schema => c.Enabled level ∧ f.Before [.count, .schema]
  | .pass .stringTable => c.Enabled level ∧ ∃ schemasUnset, f.Before (setup schemasUnset true)
  | .pass .size | .push => c.Enabled level ∧ ∃ schemasUnset tablesUnset,
      f.Before (setup schemasUnset tablesUnset ++ [.size])
  | .pass .encode => c.Enabled level ∧
      (∃ schemasUnset tablesUnset, f.passes = setup schemasUnset tablesUnset ++ [.size, .encode]) ∧
      (∃ buf, f.lent = some buf ∧ ArchivedHeader.headerSize ≤ buf.length ∧
        ∀ total ∈ f.totalMsg, buf.length = total) ∧
      f.message = none ∧ f.overflowed = false ∧ f.written c = some (f.buf, f.dp)
  | .finished => ¬ c.Enabled level ∧ f.Before [] ∨ c.Enabled level ∧ f.Done c

/-- The values are of the expressions from left to right, and each pass but the current one is
whole, unless the call has panicked in it. -/
structure Inv (level : LogLevel) (c : Call σ) (f : Frame) : Prop where
  knows : f.Knows level c f.stage
  typed : ∀ p, (f.evaluated p).map Sigma.fst <+: c.types
  begun : ∀ p, p ∉ f.passes → f.evaluated p = []
  whole : ∀ p ∈ f.passes, f.stage ≠ .pass p → (p = .encode → f.message.isSome) →
    (p = .size → f.overflowed = false) → (f.evaluated p).length = c.exprs.length

theorem inv_init : Inv level c {} where
  knows := ⟨rfl, rfl, rfl, rfl⟩
  typed _ := List.nil_prefix
  begun _ _ := rfl
  whole _ h := absurd h List.not_mem_nil

omit [Target] in
/-- A call is in one pass at a time. -/
theorem stage_ne_pass {p q : Pass} (hstage : f.stage = .pass p) (hne : q ≠ p) :
    f.stage ≠ .pass q := by
  rw [hstage]
  exact fun heq => hne (Stage.pass.inj heq).symm

namespace Inv

/-- What is known where the call stands. -/
theorem knows_at (h : Inv level c f) {stage : Stage} (hstage : f.stage = stage) :
    f.Knows level c stage := hstage ▸ h.knows

/-- A call is in a pass that it has begun. -/
theorem mem_passes (h : Inv level c f) {p : Pass} (hstage : f.stage = .pass p) : p ∈ f.passes := by
  have hknows := h.knows_at hstage
  cases p with
  | count => rw [hknows.2.1]; simp
  | schema => rw [hknows.2.1]; simp
  | stringTable =>
    obtain ⟨-, u, hbefore⟩ := hknows
    rw [hbefore.1]
    simp [setup]
  | size =>
    obtain ⟨-, u, v, hbefore⟩ := hknows
    rw [hbefore.1]
    simp
  | encode =>
    obtain ⟨-, ⟨u, v, hpasses⟩, -⟩ := hknows
    rw [hpasses]
    simp

/-- A pass that the call leaves is whole. -/
theorem goto (h : Inv level c f)
    (hpass : ∀ p, f.stage = .pass p → (f.evaluated p).length = c.exprs.length) {stage : Stage}
    (hknows : (f.goto stage).Knows level c stage) : Inv level c (f.goto stage) where
  knows := hknows
  typed := h.typed
  begun := h.begun
  whole p hp _ hmessage hsums := by
    by_cases hstage : f.stage = .pass p
    · exact hpass p hstage
    · exact h.whole p hp hstage hmessage hsums

theorem enter (h : Inv level c f)
    (hpass : ∀ p, f.stage = .pass p → (f.evaluated p).length = c.exprs.length) {p : Pass}
    (hknows : (f.enter p).Knows level c (.pass p)) : Inv level c (f.enter p) where
  knows := hknows
  typed := h.typed
  begun q hq := h.begun q fun hmem => hq (List.mem_append_left _ hmem)
  whole q hq hstage hmessage hsums := by
    rcases List.mem_append.mp hq with hq | hq
    · by_cases hstage' : f.stage = .pass q
      · exact hpass q hstage'
      · exact h.whole q hq hstage' hmessage hsums
    · exact absurd (congrArg Stage.pass (List.mem_singleton.mp hq).symm) hstage

/-- Outside the closure an evaluation adds a value to the pass. -/
theorem evaluate (h : Inv level c f) {p : Pass} {expr : ArgExpr σ} (hstage : f.stage = .pass p)
    (hne : p ≠ .encode) (hget : c.exprs[(f.evaluated p).length]? = some expr)
    (value : expr.impl.Self) : Inv level c (f.evaluate p ⟨expr.impl, value⟩) := by
  rw [Frame.evaluate, if_neg hne]
  have hknows := h.knows_at hstage
  refine ⟨?_, fun q => ?_, fun q hq => ?_, fun q hq hother hmessage hsums => ?_⟩
  · show Knows level c _ f.stage
    rw [hstage]
    cases p with
    | count | schema | stringTable | size => exact hknows
    | encode => exact absurd rfl hne
  · by_cases hqp : q = p
    · subst hqp
      simp only [Function.update_self]
      exact concat_types (h.typed q) hget value
    · simp only [Function.update_of_ne hqp]
      exact h.typed q
  · have hqp : q ≠ p := by
      rintro rfl
      exact hq (h.mem_passes hstage)
    simp only [Function.update_of_ne hqp]
    exact h.begun q hq
  · have hqp : q ≠ p := by
      rintro rfl
      exact hother hstage
    simp only [Function.update_of_ne hqp]
    exact h.whole q hq hother hmessage hsums

/-- In the closure the value is written behind the others, or the call ends. -/
theorem encode (h : Inv level c f) {expr : ArgExpr σ} (hstage : f.stage = .pass .encode)
    (hget : c.exprs[(f.evaluated .encode).length]? = some expr) (value : expr.impl.Self) :
    Inv level c (f.evaluate .encode ⟨expr.impl, value⟩) := by
  set arg : Encode.Arg := ⟨expr.impl, value⟩
  set evaluated := Function.update f.evaluated .encode (f.evaluated .encode ++ [arg])
    with hevaluated
  have hencode : evaluated .encode = f.evaluated .encode ++ [arg] := Function.update_self ..
  have hother : ∀ q, q ≠ .encode → evaluated q = f.evaluated q := fun q hq =>
    Function.update_of_ne hq ..
  have hknows := h.knows_at hstage
  obtain ⟨henabled, ⟨u, v, hpasses⟩, ⟨buf, hlent, hheader, hlen⟩, hmessage, hsums, hwritten⟩ :=
    hknows
  -- what `evaluate` keeps, whether or not the value is written
  have htyped : ∀ q, (evaluated q).map Sigma.fst <+: c.types := by
    intro q
    by_cases hq : q = .encode
    · subst hq
      rw [hencode]
      exact concat_types (h.typed .encode) hget value
    · rw [hother q hq]
      exact h.typed q
  have hbegun : ∀ q, q ∉ f.passes → evaluated q = [] := by
    intro q hq
    rw [hother q fun heq => hq (heq ▸ h.mem_passes hstage)]
    exact h.begun q hq
  have hwhole : ∀ q ∈ f.passes, q ≠ .encode → (evaluated q).length = c.exprs.length := by
    intro q hq hne
    rw [hother q hne]
    exact h.whole q hq (stage_ne_pass hstage hne) (fun heq => absurd heq hne) fun _ => hsums
  have htotal : ∀ g : Frame, g.evaluated = evaluated → g.totalMsg = f.totalMsg := by
    intro g hg
    rw [totalMsg, totalMsg, payloadsSize, payloadsSize, hg, hother .size (by decide)]
  have hwrite : writeArgs (evaluated .encode) (c.header.serializeInto buf)
      ArchivedHeader.headerSize = writeArg f.buf f.dp arg := by
    rw [written, hlent, Option.bind_some, if_pos hheader] at hwritten
    rw [hencode, writeArgs_concat, hwritten, Option.bind_some]
  rw [Frame.evaluate, if_pos rfl]
  cases harg : writeArg f.buf f.dp arg with
  | some result =>
    -- the closure goes on, behind what it has written
    obtain ⟨buf', dp'⟩ := result
    simp only
    refine ⟨?_, htyped, hbegun, fun q hq hne _ _ => hwhole q hq fun heq => ?_⟩
    · show Knows level c _ f.stage
      rw [hstage]
      refine ⟨henabled, ⟨u, v, hpasses⟩, ⟨buf, hlent, hheader, ?_⟩, hmessage, hsums, ?_⟩
      · rw [htotal _ rfl]
        exact hlen
      · rw [written, hlent, Option.bind_some, if_pos hheader, ← hevaluated, hwrite, harg]
    · exact hne (by rw [heq]; exact hstage)
  | none =>
    -- the value does not fit: the closure panics, and no message is committed
    simp only
    refine ⟨.inr ⟨henabled, ⟨u, v, ?_⟩, ?_, ?_, ?_⟩, htyped, hbegun, fun q hq _ hsome _ => ?_⟩
    · rw [if_pos ⟨buf, hlent, hheader⟩]
      exact hpasses
    · intro buf' hbuf'
      obtain rfl : buf = buf' := Option.some.inj (hlent.symm.trans hbuf')
      rw [htotal _ rfl]
      exact hlen
    · rw [written, Frame.goto, hlent, Option.bind_some, if_pos hheader, ← hevaluated, hwrite, harg]
      exact hmessage
    · exact fun htrue => absurd (hsums.symm.trans htrue) Bool.false_ne_true
    · refine hwhole q hq fun heq => ?_
      have hmessage' := hsome heq
      rw [Frame.goto, hmessage] at hmessage'
      cases hmessage'

theorem endPass (h : Inv level c f) {p : Pass} (hstage : f.stage = .pass p)
    (hend : c.exprs.length ≤ (f.evaluated p).length) : Inv level c (f.endPass site p).1 := by
  have hlen : (f.evaluated p).length = c.exprs.length := length_of_types (h.typed p) hend
  have hpass : ∀ q, f.stage = .pass q → (f.evaluated q).length = c.exprs.length := by
    intro q hq
    obtain rfl : p = q := Stage.pass.inj (hstage.symm.trans hq)
    exact hlen
  have hknows := h.knows_at hstage
  cases p with
  | count =>
    obtain ⟨henabled, hpasses, hlent, hmessage⟩ := hknows
    exact h.enter hpass ⟨henabled, by rw [Frame.enter, hpasses]; rfl, hlent, hmessage⟩
  | schema =>
    obtain ⟨henabled, hpasses, hlent, hmessage⟩ := hknows
    exact h.goto hpass ⟨henabled, true, hpasses, hlent, hmessage⟩
  | stringTable =>
    obtain ⟨henabled, u, hpasses, hlent, hmessage⟩ := hknows
    exact h.enter hpass ⟨henabled, u, true, by rw [Frame.enter, hpasses], hlent, hmessage⟩
  | size => exact h.goto hpass hknows
  | encode =>
    obtain ⟨henabled, ⟨u, v, hpasses⟩, ⟨buf, hlent, hheader, hlenBuf⟩, hmessage, hsums, hwritten⟩ :=
      hknows
    refine ⟨.inr ⟨henabled, ⟨u, v, ?_⟩, ?_, ?_, ?_⟩, h.typed, h.begun, fun q hq _ _ _ => ?_⟩
    · rw [if_pos ⟨buf, hlent, hheader⟩]
      exact hpasses
    · intro buf' hbuf'
      obtain rfl : buf = buf' := Option.some.inj (hlent.symm.trans hbuf')
      exact hlenBuf
    · show some f.buf = Option.map Prod.fst (f.written c)
      rw [hwritten, Option.map_some]
    · exact fun htrue => absurd (hsums.symm.trans htrue) Bool.false_ne_true
    · by_cases hqp : q = .encode
      · rw [hqp]
        exact hlen
      · exact h.whole q hq (stage_ne_pass hstage hqp) (fun heq => absurd heq hqp) fun _ => hsums

theorem advances (h : Inv level c f) (hstep : f.Advances level c site f' site') :
    Inv level c f' := by
  -- only a pass that ends has to be whole
  have hno : ∀ {stage : Stage}, f.stage = stage → (∀ p, stage ≠ .pass p) →
      ∀ p, f.stage = .pass p → (f.evaluated p).length = c.exprs.length := fun hstage hne p hp =>
    absurd (hstage.symm.trans hp) (hne p)
  cases hstep with
  | disabled hstage hdisabled =>
    exact h.goto (hno hstage nofun) (.inl ⟨hdisabled, h.knows_at hstage⟩)
  | enabled hstage henabled =>
    exact h.goto (hno hstage nofun) ⟨henabled, h.knows_at hstage⟩
  | schemasUnset hstage hnone =>
    obtain ⟨henabled, hpasses, hlent, hmessage⟩ := h.knows_at hstage
    exact h.enter (hno hstage nofun)
      ⟨henabled, by rw [Frame.enter, hpasses]; rfl, hlent, hmessage⟩
  | schemasSet hstage hsome =>
    obtain ⟨henabled, hbefore⟩ := h.knows_at hstage
    exact h.goto (hno hstage nofun) ⟨henabled, false, hbefore⟩
  | tablesUnset hstage hnone =>
    obtain ⟨henabled, u, hpasses, hlent, hmessage⟩ := h.knows_at hstage
    exact h.enter (hno hstage nofun)
      ⟨henabled, u, by rw [Frame.enter, hpasses]; simp [setup], hlent, hmessage⟩
  | tablesSet hstage hsome =>
    obtain ⟨henabled, u, hpasses, hlent, hmessage⟩ := h.knows_at hstage
    exact h.enter (hno hstage nofun)
      ⟨henabled, u, false, by rw [Frame.enter, hpasses], hlent, hmessage⟩
  | @evaluate p expr hstage hget value =>
    by_cases hp : p = .encode
    · subst hp
      exact h.encode hstage hget value
    · exact h.evaluate hstage hp hget value
  | endPass hstage hend => exact h.endPass hstage hend

/-- A sum that overflows ends the call. -/
theorem overflow (h : Inv level c f) (hover : f.overflow = some f') : Inv level c f' := by
  have hends : ∀ u v, c.Enabled level → f.Before (setup u v ++ [.size]) → f.totalMsg = none →
      (∀ q ∈ f.passes, q ≠ .size → f.stage ≠ .pass q) →
      Inv level c { f.goto .finished with overflowed := true } := by
    rintro u v henabled ⟨hpasses, hlent, hmessage, -⟩ htotal hother
    refine ⟨.inr ⟨henabled, ⟨u, v, ?_⟩, ?_, ?_, fun _ => ⟨htotal, hlent⟩⟩, h.typed, h.begun,
      fun q hq _ hsome hsums => ?_⟩
    · rw [if_neg]
      · exact hpasses
      · rintro ⟨buf, hbuf, -⟩
        exact absurd (hlent.symm.trans hbuf) nofun
    · intro buf hbuf
      exact absurd (hlent.symm.trans hbuf) nofun
    · show f.message = (f.lent.bind _).map _
      rw [hlent]
      exact hmessage
    · have hne : q ≠ .size := by
        rintro rfl
        cases hsums rfl
      exact h.whole q hq (hother q hq hne) hsome fun heq => absurd heq hne
  unfold Frame.overflow at hover
  split at hover
  · next hstage =>
    obtain ⟨henabled, u, v, hbefore⟩ := h.knows_at hstage
    split at hover
    · next hle =>
      cases hover
      exact hends u v henabled hbefore (if_neg (by omega)) fun q _ hne => stage_ne_pass hstage hne
    · cases hover
  · next hstage =>
    obtain ⟨henabled, u, v, hbefore⟩ := h.knows_at hstage
    split at hover
    · next htotal =>
      cases hover
      refine hends u v henabled hbefore htotal fun q _ _ => ?_
      rw [hstage]
      exact nofun
    · cases hover
  · cases hover

/-- `push_encoded` ends the call, or begins the closure. -/
theorem push (h : Inv level c f) {lent : Option (List UInt8)} (hpush : f.push c lent = some f') :
    Inv level c f' := by
  unfold Frame.push at hpush
  split at hpush
  · next hstage =>
    obtain ⟨henabled, u, v, hpasses, hlent, hmessage, hsums⟩ := h.knows_at hstage
    have hno : ∀ p, f.stage = .pass p → (f.evaluated p).length = c.exprs.length := fun p hp =>
      absurd (hstage.symm.trans hp) nofun
    have hempty : f.evaluated .encode = [] := by
      refine h.begun .encode ?_
      rw [hpasses]
      cases u <;> cases v <;> decide
    have hnever : f.overflowed = true → f.totalMsg = none ∧ f.lent = none := fun htrue =>
      absurd (hsums.symm.trans htrue) Bool.false_ne_true
    split at hpush
    · next hlen =>
      cases lent with
      | none =>
        -- `Full`, which the macro ignores
        cases hpush
        refine h.goto hno (.inr ⟨henabled, ⟨u, v, ?_⟩, ?_, ?_, hnever⟩)
        · rw [if_neg]
          · exact hpasses
          · rintro ⟨buf, hbuf, -⟩
            exact absurd (hlent.symm.trans hbuf) nofun
        · intro buf hbuf
          exact absurd (hlent.symm.trans hbuf) nofun
        · rw [written, Frame.goto, hlent]
          exact hmessage
      | some buf =>
        by_cases hheader : ArchivedHeader.headerSize ≤ buf.length
        · simp only [if_pos hheader] at hpush
          cases hpush
          have hentered : Inv level c { f.enter .encode with
              lent := some buf
              buf := c.header.serializeInto buf
              dp := ArchivedHeader.headerSize } := by
            refine ⟨⟨henabled, ⟨u, v, ?_⟩, ⟨buf, rfl, hheader, hlen buf rfl⟩, hmessage, hsums, ?_⟩,
              h.typed, fun q hq => h.begun q fun hmem => hq (List.mem_append_left _ hmem),
              fun q hq hne hsome _ => ?_⟩
            · rw [Frame.enter, hpasses, List.append_assoc]
              rfl
            · rw [written, Option.bind_some, if_pos hheader]
              show writeArgs (f.evaluated .encode) _ _ = _
              rw [hempty]
              rfl
            · rcases List.mem_append.mp hq with hq | hq
              · exact h.whole q hq (by rw [hstage]; exact nofun) hsome fun _ => hsums
              · exact absurd (congrArg Stage.pass (List.mem_singleton.mp hq).symm) hne
          exact hentered
        · -- a sum has wrapped, and the closure panics at the header
          simp only [if_neg hheader] at hpush
          cases hpush
          refine ⟨.inr ⟨henabled, ⟨u, v, ?_⟩, hlen, ?_, ?_⟩, h.typed, h.begun,
            fun q hq _ hsome _ => ?_⟩
          · rw [if_neg]
            · exact hpasses
            · rintro ⟨buf', hbuf', hle⟩
              exact hheader (Option.some.inj hbuf' ▸ hle)
          · rw [written, Option.bind_some, if_neg hheader]
            exact hmessage
          · exact fun htrue => absurd (hsums.symm.trans htrue) Bool.false_ne_true
          · exact h.whole q hq (by rw [hstage]; exact nofun) hsome fun _ => hsums
    · cases hpush
  · cases hpush

end Inv

/-! ### A call that has ended -/

/-- What an enabled call has done when it has ended. -/
structure Ended (c : Call σ) (f : Frame) (schemasUnset tablesUnset : Bool) : Prop where
  passes : f.passes =
    setup schemasUnset tablesUnset ++ .size :: (if f.Writes then [.encode] else [])
  evaluations : ∀ j < c.exprs.length, f.evaluations j = (if schemasUnset then 2 else 0) +
    (if tablesUnset then 1 else 0) + (if j < (f.evaluated .size).length then 1 else 0) +
      (if j < (f.evaluated .encode).length then 1 else 0)
  /-- The space is reserved for one value of each expression, unless a sum panics. -/
  sized : (f.evaluated .size).map Sigma.fst <+: c.types
  summed : f.overflowed = false → (f.evaluated .size).map Sigma.fst = c.types
  overflowed : f.overflowed = true → f.totalMsg = none ∧ f.lent = none
  reserved : ∀ buf ∈ f.lent, ∀ total ∈ f.totalMsg, buf.length = total
  /-- The message has another value of each, as long as they fit. -/
  encoded : (f.evaluated .encode).map Sigma.fst <+: c.types
  complete : f.message.isSome → (f.evaluated .encode).map Sigma.fst = c.types
  unlent : f.lent = none → f.evaluated .encode = []
  message : f.message = (f.written c).map Prod.fst
  fits : ∀ buf ∈ f.lent, ∀ sizes : List ℕ,
    List.Forall₂ (fun arg n => (arg.1.encodeTo arg.2).Takes n) (f.evaluated .encode) sizes →
      (f.message.isSome ↔ ArchivedHeader.headerSize + sizes.sum ≤ buf.length)

omit [Target] in
/-- Values that take these numbers of bytes are written when there are as many. -/
theorem writeArgs_isSome_iff {args : List Encode.Arg} {sizes : List ℕ}
    (h : List.Forall₂ (fun arg n => (arg.1.encodeTo arg.2).Takes n) args sizes)
    {buf : List UInt8} {dp : ℕ} (hdp : dp ≤ buf.length) :
    (writeArgs args buf dp).isSome ↔ dp + sizes.sum ≤ buf.length := by
  induction h generalizing buf dp with
  | nil => simp [writeArgs, hdp]
  | @cons arg n args sizes harg hargs ih =>
    have hrest : (buf.drop dp).length = buf.length - dp := List.length_drop ..
    have hwrite : writeArg buf dp arg = ((arg.1.encodeTo arg.2).run (buf.drop dp)).map
        fun (rest, w) => (buf.take dp ++ rest, dp + w) := by
      rw [writeArg, sliceFrom, if_pos hdp, Option.map_eq_bind]
      rfl
    rw [writeArgs, hwrite, List.sum_cons]
    by_cases hn : n ≤ (buf.drop dp).length
    · obtain ⟨rest, hrun⟩ := harg.run_of_le _ hn
      have hlen : (buf.take dp ++ rest).length = buf.length := by
        rw [List.length_append, (arg.1.encodeTo arg.2).length_run hrun, List.length_take]
        omega
      rw [hrun, Option.map_some, Option.bind_some, ih (by rw [hlen]; omega), hlen, Nat.add_assoc]
    · rw [harg.run_of_lt _ (by omega), Option.map_none, Option.bind_none]
      exact iff_of_false Bool.false_ne_true (by omega)

namespace Inv

theorem ended (h : Inv level c f) (hstage : f.stage = .finished) (henabled : c.Enabled level) :
    ∃ schemasUnset tablesUnset, f.Ended c schemasUnset tablesUnset := by
  have hknows := h.knows_at hstage
  obtain ⟨⟨u, v, hpasses⟩, hreserved, hmessage, hsums⟩ : f.Done c := by
    rcases hknows with ⟨hdisabled, -⟩ | ⟨-, hdone⟩
    · exact absurd henabled hdisabled
    · exact hdone
  have hne : ∀ p, f.stage ≠ .pass p := fun p => by rw [hstage]; exact nofun
  -- every pass of the setup is whole, or has not begun
  have hlength : ∀ p, p ≠ .encode → p ≠ .size →
      (f.evaluated p).length = if p ∈ f.passes then c.exprs.length else 0 := by
    intro p hp hp'
    split
    · next hmem =>
      exact h.whole p hmem (hne p) (fun heq => absurd heq hp) fun heq => absurd heq hp'
    · next hmem => rw [h.begun p hmem, List.length_nil]
  have hmem : ∀ p, p ≠ .encode → (p ∈ f.passes ↔ p ∈ setup u v ++ [.size]) := by
    intro p hp
    rw [hpasses]
    split <;> simp [hp]
  have hcomplete : f.message.isSome → (f.evaluated .encode).length = c.exprs.length := by
    intro hsome
    refine h.whole .encode ?_ (hne _) (fun _ => hsome) fun heq => absurd heq (by decide)
    have hwrites : f.Writes := by
      rw [hmessage, Option.isSome_map, written, Option.isSome_bind, Option.any_eq_true] at hsome
      obtain ⟨buf, hlent, hsome⟩ := hsome
      refine ⟨buf, hlent, ?_⟩
      by_contra hlt
      rw [if_neg hlt] at hsome
      cases hsome
    rw [hpasses, if_pos hwrites]
    simp
  have htypes : ∀ p, (f.evaluated p).length = c.exprs.length →
      (f.evaluated p).map Sigma.fst = c.types := fun p hp =>
    (h.typed p).eq_of_length (by rw [List.length_map, hp, Call.types, List.length_map])
  have hempty : ¬ f.Writes → f.evaluated .encode = [] := by
    intro hnone
    refine h.begun .encode ?_
    rw [hpasses, if_neg hnone]
    cases u <;> cases v <;> decide
  refine ⟨u, v, hpasses, fun j hj => ?_, h.typed .size, fun hfalse => htypes .size ?_, hsums,
    hreserved, h.typed .encode, fun hsome => htypes .encode (hcomplete hsome), fun hnone => ?_,
    hmessage, fun buf hlent sizes hsizes => ?_⟩
  · have hcount : ∀ p, p ≠ .encode → p ≠ .size →
        (j < (f.evaluated p).length ↔ p ∈ setup u v ++ [.size]) := by
      intro p hp hp'
      rw [hlength p hp hp', ← hmem p hp]
      split
      · next hin => exact iff_of_true hj hin
      · next hin => exact iff_of_false (Nat.not_lt_zero j) hin
    simp only [Frame.evaluations, List.countP_cons, List.countP_nil, decide_eq_true_eq]
    simp only [hcount .count (by decide) (by decide), hcount .schema (by decide) (by decide),
      hcount .stringTable (by decide) (by decide)]
    cases u <;> cases v <;> simp [setup] <;> omega
  · exact h.whole .size ((hmem .size (by decide)).mpr (by simp)) (hne _)
      (fun heq => absurd heq (by decide)) fun _ => hfalse
  · refine hempty ?_
    rintro ⟨buf, hbuf, -⟩
    exact absurd (hnone.symm.trans hbuf) nofun
  · have hlent' : f.lent = some buf := hlent
    by_cases hheader : ArchivedHeader.headerSize ≤ buf.length
    · have hlen := ArchivedHeader.length_serializeInto c.header hheader
      rw [hmessage, Option.isSome_map, written, hlent', Option.bind_some, if_pos hheader,
        writeArgs_isSome_iff hsizes (by rw [hlen]; exact hheader), hlen]
    · rw [hmessage, Option.isSome_map, written, hlent', Option.bind_some, if_neg hheader]
      exact iff_of_false Bool.false_ne_true (by omega)

end Inv

end Frame

end Steps

end CallSite

end RapidLog
