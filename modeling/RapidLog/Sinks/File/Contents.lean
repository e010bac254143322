import RapidLog.Sinks.File
import RapidLog.Sinks.Rotating.Lines

/-!
# What the files hold

Two invariants of the file sinks. `Streams` is about each sink alone and holds in every run: what
the system has taken from a sink and what its writer still holds are its lines, in order, each cut
short by an error or whole. `Contents` is about the files. It needs that a sink with a position of
its own has its path for itself (`Exclusive`): two of them would write over each other, and one
would write over what is appended behind its position.

## Main results

* `contents_recorded`: what both say of every state of every exclusive run.
-/

namespace RapidLog

open RotatingFileSink (joinLines joinLines_append)

/-! ### Texts that are cut short -/

/-- `xs` are the texts one after the other, each of them cut short or not. -/
def CutShort {α : Type*} (texts : List (List α)) (xs : List α) : Prop :=
  ∃ kept, List.Forall₂ (· <+: ·) kept texts ∧ xs = kept.flatten

namespace CutShort

variable {α : Type*} {texts : List (List α)} {xs ys : List α}

theorem append (h : CutShort texts xs) (text : List α) :
    CutShort (texts ++ [text]) (xs ++ text) := by
  obtain ⟨kept, hkept, rfl⟩ := h
  refine ⟨kept ++ [text], ?_, by simp⟩
  exact List.rel_append hkept (.cons (List.prefix_refl text) .nil)

/-- What is cut off of all the texts is cut off of some of them. -/
theorem of_prefix (h : CutShort texts xs) (hys : ys <+: xs) : CutShort texts ys := by
  obtain ⟨kept, hkept, rfl⟩ := h
  induction hkept generalizing ys with
  | nil =>
    obtain rfl := List.prefix_nil.mp hys
    exact ⟨[], .nil, rfl⟩
  | @cons k text kept texts hk hrest ih =>
    rw [List.flatten_cons] at hys
    rcases le_total ys.length k.length with hle | hle
    · -- the first text is cut, and nothing is left of the others
      have hpre : ys <+: k := List.prefix_of_prefix_length_le hys (List.prefix_append ..) hle
      obtain ⟨kept', hkept', hnil⟩ := ih (List.nil_prefix)
      exact ⟨ys :: kept', .cons (hpre.trans hk) hkept', by
        rw [List.flatten_cons, ← hnil, List.append_nil]⟩
    · obtain ⟨zs, rfl⟩ : k <+: ys := List.prefix_of_prefix_length_le (List.prefix_append ..) hys hle
      obtain ⟨kept', hkept', rfl⟩ := ih ((List.prefix_append_right_inj k).mp hys)
      exact ⟨k :: kept', .cons hk hkept', rfl⟩

end CutShort

namespace FileSink

variable {ι : Type} [DecidableEq ι]

omit [DecidableEq ι] in
@[simp]
theorem owned_append (i : ι) (xs ys : List UInt8) :
    owned i (xs ++ ys) = owned i xs ++ owned i ys :=
  List.map_append

omit [DecidableEq ι] in
@[simp]
theorem map_snd_owned (i : ι) (xs : List UInt8) : (owned i xs).map Prod.snd = xs := by
  simp [owned, Function.comp_def]

omit [DecidableEq ι] in
/-- A part of what a sink owns. -/
theorem owned_of_append {i : ι} {xs ys : List (OwnedByte ι)} {zs : List UInt8}
    (h : xs ++ ys = owned i zs) :
    xs = owned i (xs.map Prod.snd) ∧ ys = owned i (ys.map Prod.snd) := by
  obtain ⟨us, vs, rfl, rfl, rfl⟩ := List.map_eq_append_iff.mp h.symm
  simp [owned, Function.comp_def]

/-- What the writer of a sink holds. -/
def held (sink : FileSink (OwnedByte ι)) : List UInt8 := sink.file.pending.map Prod.snd

/-- What the writer of a sink still holds; nothing once the sink has been dropped. -/
def State.held (s : State ι) (i : ι) : List UInt8 := ((s.sinks i).map FileSink.held).getD []

/-! ### What a step does -/

/-- The system takes `out` from a sink. -/
def State.take (s : State ι) (i : ι) (sink : FileSink (OwnedByte ι))
    (out : List (OwnedByte ι)) : State ι :=
  { s with
    files := Function.update s.files sink.path
      (some (sink.writeOut ((s.files sink.path).getD []) out).1)
    taken := Function.update s.taken i (s.taken i ++ out.map Prod.snd) }

/-- The sink once the system has taken `out` and its writer has become `file`. -/
def State.took (s : State ι) (sink : FileSink (OwnedByte ι)) (out : List (OwnedByte ι))
    (file : Buffered (OwnedByte ι)) : FileSink (OwnedByte ι) :=
  { sink with file, handle := (sink.writeOut ((s.files sink.path).getD []) out).2 }

/-- What a step can do. -/
inductive Effect (s : State ι) : Event ι → State ι → Prop
  | new {i path mode files sink} (hfresh : s.paths i = none)
    (hnew : FileSink.new s.files path mode true = some (files, sink)) :
    Effect s (.new i path mode true)
      { s with
        files
        sinks := Function.update s.sinks i (some sink)
        paths := Function.update s.paths i (some path)
        base := if mode = .truncate then Function.update s.base path [] else s.base
        opened := Function.update s.opened path
          (if mode = .truncate then [i] else i :: s.opened path) }
  | write {i formatted sink} (hsink : s.sinks i = some sink) (hidle : sink.call = none) :
    Effect s (.write i formatted)
      { s with
        sinks := Function.update s.sinks i (some (sink.write (owned i formatted) (some i, 10)))
        logged := Function.update s.logged i (s.logged i ++ [formatted])
        flushed := Function.update s.flushed i false }
  | flush {i sink} (hsink : s.sinks i = some sink) (hidle : sink.call = none) :
    Effect s (.flush i) { s with sinks := Function.update s.sinks i (some sink.flush) }
  | drop {i sink} (hsink : s.sinks i = some sink) (hidle : sink.call = none) :
    Effect s (.drop i) { s with sinks := Function.update s.sinks i (some sink.drop) }
  | run {i n sink out file} (hsink : s.sinks i = some sink)
    (hstep : sink.file.step n = some (out, file)) (hbusy : file.tasks ≠ []) :
    Effect s (.run i n)
      { s.take i sink out with
        sinks := Function.update s.sinks i (some (s.took sink out file)) }
  | done {i n sink out file} (hsink : s.sinks i = some sink)
    (hstep : sink.file.step n = some (out, file)) (hdone : file.tasks = []) :
    Effect s (.run i n) ((s.take i sink out).finish i (s.took sink out file) true)
  | fail {i sink} (hsink : s.sinks i = some sink) (hcalls : sink.file.Calls) :
    Effect s (.fail i) (s.finish i { sink with file := sink.file.abort } false)

section

variable {s s' : State ι} {e : Event ι}

theorem begin_effect {i : ι} {call : FileSink (OwnedByte ι) → FileSink (OwnedByte ι)}
    (hs : s.begin i call = some s') : ∃ sink, s.sinks i = some sink ∧ sink.call = none ∧
      s' = { s with sinks := Function.update s.sinks i (some (call sink)) } := by
  unfold State.begin at hs
  split at hs
  · next sink hsink =>
    split at hs
    · next hidle => exact ⟨sink, hsink, hidle, (Option.some.inj hs).symm⟩
    · cases hs
  · cases hs

theorem step_effect (hs : step s e = some s') : Effect s e s' := by
  cases e with
  | new i path mode openOk =>
    simp only [step] at hs
    split at hs
    · next hfresh =>
      obtain ⟨⟨files, sink⟩, hnew, rfl⟩ := Option.map_eq_some_iff.mp hs
      cases openOk with
      | true => exact .new hfresh hnew
      | false => cases hnew
    · cases hs
  | write i formatted =>
    simp only [step] at hs
    obtain ⟨s₁, hbegin, rfl⟩ := Option.map_eq_some_iff.mp hs
    obtain ⟨sink, hsink, hidle, rfl⟩ := begin_effect hbegin
    exact .write hsink hidle
  | flush i =>
    obtain ⟨sink, hsink, hidle, rfl⟩ := begin_effect hs
    exact .flush hsink hidle
  | drop i =>
    obtain ⟨sink, hsink, hidle, rfl⟩ := begin_effect hs
    exact .drop hsink hidle
  | run i n =>
    simp only [step] at hs
    split at hs
    · next sink hsink =>
      obtain ⟨⟨out, file⟩, hstep, rfl⟩ := Option.map_eq_some_iff.mp hs
      dsimp only
      split
      · next hdone => exact .done hsink hstep hdone
      · next hbusy => exact .run hsink hstep hbusy
    · cases hs
  | fail i =>
    simp only [step] at hs
    split at hs
    · next sink hsink =>
      split at hs
      · next hcalls =>
        cases hs
        exact .fail hsink hcalls
      · cases hs
    · cases hs

end

/-! ### Each sink -/

/-- A sink that is open on a path. -/
structure SinkOk (i : ι) (path : Option String) (sink : FileSink (OwnedByte ι)) : Prop where
  path : path = some sink.path
  wellFormed : sink.file.WellFormed
  capacity : sink.file.capacity = defaultBufSize
  idle : sink.call = none → sink.file.tasks = []
  /-- A flush is done when the buffer is empty. -/
  flushing : sink.call = some .flush ∨ sink.call = some .drop →
    sink.file.tasks = [.flushBuf []]
  owned : sink.file.pending = owned i (sink.file.pending.map Prod.snd)

/-- The stream of one sink: its path, the sink unless it has been dropped, the lines that it has
been given, what the system has taken from it, and how its calls have ended. -/
structure Stream (i : ι) (path : Option String) (sink : Option (FileSink (OwnedByte ι)))
    (logged : List Line) (taken : List UInt8) (failed flushed : Bool) : Prop where
  isOk : ∀ sink' ∈ sink, SinkOk i path sink'
  lines : CutShort (logged.map (· ++ [10])) (taken ++ (sink.map FileSink.held).getD [])
  whole : failed = false → taken ++ (sink.map FileSink.held).getD [] = joinLines logged
  empty : flushed = true → (sink.map FileSink.held).getD [] = []
  fresh : path = none → sink = none ∧ taken = [] ∧ logged = [] ∧ failed = false ∧ flushed = false

section

variable {i : ι} {path : Option String} {sink : FileSink (OwnedByte ι)} {logged : List Line}
  {taken : List UInt8} {failed flushed : Bool}

omit [DecidableEq ι] in
/-- A call begins on a sink whose lock is free. -/
theorem SinkOk.begin (h : SinkOk i path sink) (hidle : sink.call = none)
    (call : FileCall) (tasks : List (WriterTask (OwnedByte ι))) (xs : List UInt8)
    (hdirect : ∀ task ∈ tasks, ∀ xs, task ≠ .direct xs)
    (hflush : call = .flush ∨ call = .drop → tasks = [.flushBuf []])
    (hbytes : (tasks.map WriterTask.bytes).flatten = FileSink.owned i xs) :
    SinkOk i path { sink with file := { sink.file with tasks }, call := some call } ∧
      (Buffered.pending { sink.file with tasks }).map Prod.snd =
        sink.file.pending.map Prod.snd ++ xs := by
  have hpending : Buffered.pending { sink.file with tasks } =
      sink.file.pending ++ FileSink.owned i xs := by
    rw [Buffered.pending, Buffered.pending, hbytes, h.idle hidle]
    simp
  refine ⟨⟨h.path, .of_forall h.wellFormed.length_buf hdirect, h.capacity, ?_, ?_, ?_⟩, ?_⟩
  · rintro ⟨⟩
  · simpa using hflush
  · rw [hpending, h.owned]
    simp
  · rw [hpending, List.map_append, map_snd_owned]

omit [DecidableEq ι] in
/-- The call goes on. -/
theorem SinkOk.took (h : SinkOk i path sink) (s : State ι) {n : ℕ}
    {out : List (OwnedByte ι)} {file : Buffered (OwnedByte ι)}
    (hstep : sink.file.step n = some (out, file)) (hbusy : file.tasks ≠ []) :
    SinkOk i path (s.took sink out file) := by
  refine ⟨h.path, h.wellFormed.step hstep, ?_, fun hidle => ?_, fun hflush => ?_, ?_⟩
  · exact (Buffered.capacity_of_step hstep).trans h.capacity
  · -- a writer without tasks takes no step
    rw [Buffered.step, h.idle hidle] at hstep
    cases hstep
  · have hpos : 0 < sink.file.capacity := by
      rw [h.capacity]
      decide
    rcases Buffered.flushBuf_of_step hpos (h.flushing hflush) hstep with hsame | ⟨hnil, -⟩
    · exact hsame
    · exact absurd hnil hbusy
  · exact (owned_of_append ((h.wellFormed.pending_of_step hstep).trans h.owned)).2

omit [DecidableEq ι] in
/-- The call has come to its end. -/
theorem SinkOk.finish (h : SinkOk i path sink)
    {file : Buffered (OwnedByte ι)} (hwf : file.WellFormed)
    (hcapacity : file.capacity = sink.file.capacity) (hdone : file.tasks = [])
    (howned : file.pending = FileSink.owned i (file.pending.map Prod.snd)) {handle : Handle} :
    SinkOk i path { sink with file, handle, call := none } where
  path := h.path
  wellFormed := hwf
  capacity := hcapacity.trans h.capacity
  idle _ := hdone
  flushing hflush := by simp at hflush
  owned := howned

omit [DecidableEq ι] in
theorem Stream.path_ne (h : Stream i path (some sink) logged taken failed flushed) :
    path ≠ none := by
  rw [(h.isOk sink rfl).path]
  exact Option.some_ne_none _

omit [DecidableEq ι] in
/-- A line is given to the writer. -/
theorem Stream.write (h : Stream i path (some sink) logged taken failed flushed)
    (hidle : sink.call = none) (formatted : Line) :
    Stream i path (some (sink.write (owned i formatted) (some i, 10))) (logged ++ [formatted]) taken
      failed false := by
  obtain ⟨hok, hheld⟩ := (h.isOk sink rfl).begin hidle .write
    [.writeAll (owned i formatted), .writeAll [(some i, 10)]] (formatted ++ [10])
    (by simp) (by simp) (by simp [WriterTask.bytes, owned])
  have happend : taken ++ (sink.write (owned i formatted) (some i, 10)).held =
      taken ++ sink.held ++ (formatted ++ [10]) := by
    rw [List.append_assoc]
    exact congrArg (taken ++ ·) hheld
  refine ⟨fun sink' hsink' => ?_, ?_, fun hfailed => ?_, fun hflushed => ?_, fun hfresh => ?_⟩
  · cases hsink'
    exact hok
  · rw [Option.map_some, Option.getD_some, happend, List.map_append]
    exact h.lines.append _
  · rw [Option.map_some, Option.getD_some, happend, joinLines_append]
    exact congrArg₂ (· ++ ·) (h.whole hfailed) (by simp [joinLines])
  · cases hflushed
  · exact absurd hfresh h.path_ne

omit [DecidableEq ι] in
/-- A call that only flushes begins. -/
theorem Stream.flush (h : Stream i path (some sink) logged taken failed flushed)
    (hidle : sink.call = none) (call : FileCall) :
    Stream i path
      (some { sink with file := { sink.file with tasks := [.flushBuf []] }, call := some call })
      logged taken failed flushed := by
  obtain ⟨hok, hheld⟩ := (h.isOk sink rfl).begin hidle call [.flushBuf []] []
    (by simp) (by simp) (by simp [WriterTask.bytes, owned])
  rw [List.append_nil] at hheld
  refine ⟨fun sink' hsink' => ?_, ?_, fun hfailed => ?_, fun hflushed => ?_, fun hfresh => ?_⟩
  · cases hsink'
    exact hok
  · rw [Option.map_some, Option.getD_some, FileSink.held, hheld]
    exact h.lines
  · rw [Option.map_some, Option.getD_some, FileSink.held, hheld]
    exact h.whole hfailed
  · rw [Option.map_some, Option.getD_some, FileSink.held, hheld]
    exact h.empty hflushed
  · exact absurd hfresh h.path_ne

section

variable {n : ℕ} {out : List (OwnedByte ι)} {file : Buffered (OwnedByte ι)}

omit [DecidableEq ι] in
/-- Bytes that the system takes are no longer held. -/
theorem SinkOk.take_append (h : SinkOk i path sink) (hstep : sink.file.step n = some (out, file))
    (taken : List UInt8) :
    (taken ++ out.map Prod.snd) ++ file.pending.map Prod.snd = taken ++ sink.held := by
  rw [held, ← h.wellFormed.pending_of_step hstep, List.map_append, List.append_assoc]

omit [DecidableEq ι] in
/-- What is left of nothing is nothing. -/
private theorem pending_eq_nil (h : SinkOk i path sink)
    (hstep : sink.file.step n = some (out, file)) (hheld : sink.held = []) :
    file.pending.map Prod.snd = [] := by
  have hsame := h.take_append hstep []
  rw [hheld] at hsame
  exact (List.append_eq_nil_iff.mp hsame).2

omit [DecidableEq ι] in
theorem Stream.run (h : Stream i path (some sink) logged taken failed flushed) (s : State ι)
    (hstep : sink.file.step n = some (out, file)) (hbusy : file.tasks ≠ []) :
    Stream i path (some (s.took sink out file)) logged (taken ++ out.map Prod.snd) failed
      flushed := by
  have hok := h.isOk sink rfl
  have hsame : taken ++ out.map Prod.snd ++ (s.took sink out file).held = taken ++ sink.held :=
    hok.take_append hstep taken
  refine ⟨fun sink' hsink' => ?_, ?_, fun hfailed => ?_, fun hflushed => ?_, fun hfresh => ?_⟩
  · cases hsink'
    exact hok.took s hstep hbusy
  · rw [Option.map_some, Option.getD_some, hsame]
    exact h.lines
  · rw [Option.map_some, Option.getD_some, hsame]
    exact h.whole hfailed
  · exact pending_eq_nil hok hstep (h.empty hflushed)
  · exact absurd hfresh h.path_ne

omit [DecidableEq ι] in
theorem ended_eq {sink' : FileSink (OwnedByte ι)} (h : sink' ∈ sink.ended) :
    sink' = { sink with call := none } := by
  unfold ended at h
  split at h
  · cases h
  · exact (Option.some.inj h).symm

omit [DecidableEq ι] in
/-- A call that has come to its end without an error. -/
theorem Stream.done (h : Stream i path (some sink) logged taken failed flushed) (s : State ι)
    (hstep : sink.file.step n = some (out, file)) (hdone : file.tasks = []) :
    Stream i path (s.took sink out file).ended logged (taken ++ out.map Prod.snd) failed
      (flushed || sink.call == some .flush) := by
  have hok := h.isOk sink rfl
  have hsame := hok.take_append hstep taken
  -- a call that only flushes leaves nothing in the buffer
  have hnil : sink.call = some .flush ∨ sink.call = some .drop →
      file.pending.map Prod.snd = [] := by
    intro hflush
    have hpos : 0 < sink.file.capacity := by
      rw [hok.capacity]
      decide
    rcases Buffered.flushBuf_of_step hpos (hok.flushing hflush) hstep with hbusy | ⟨-, hnil⟩
    · rw [hdone] at hbusy
      cases hbusy
    · rw [hnil, List.map_nil]
  have hheld : ((s.took sink out file).ended.map held).getD [] = file.pending.map Prod.snd := by
    unfold ended
    split
    · next hdrop => exact (hnil (.inr hdrop)).symm
    · rfl
  refine ⟨fun sink' hsink' => ?_, ?_, fun hfailed => ?_, fun hflushed => ?_, fun hfresh => ?_⟩
  · obtain rfl := ended_eq hsink'
    exact hok.finish (hok.wellFormed.step hstep) (Buffered.capacity_of_step hstep) hdone
      (owned_of_append ((hok.wellFormed.pending_of_step hstep).trans hok.owned)).2
  · rw [hheld, hsame]
    exact h.lines
  · rw [hheld, hsame]
    exact h.whole hfailed
  · rw [hheld]
    rcases Bool.or_eq_true_iff.mp hflushed with hbefore | hflush
    · exact pending_eq_nil hok hstep (h.empty hbefore)
    · exact hnil (.inl (eq_of_beq hflush))
  · exact absurd hfresh h.path_ne

omit [DecidableEq ι] in
/-- A call that an error has ended. -/
theorem Stream.fail (h : Stream i path (some sink) logged taken failed flushed) :
    Stream i path (FileSink.ended { sink with file := sink.file.abort }) logged taken true
      flushed := by
  have hok := h.isOk sink rfl
  have hprefix := Buffered.pending_abort sink.file
  have hheld : ((FileSink.ended { sink with file := sink.file.abort }).map held).getD [] <+:
      sink.held := by
    unfold ended
    split
    · exact List.nil_prefix
    · exact hprefix.map _
  refine ⟨fun sink' hsink' => ?_, ?_, fun hfailed => ?_, fun hflushed => ?_, fun hfresh => ?_⟩
  · obtain rfl := ended_eq hsink'
    obtain ⟨lost, hlost⟩ := hprefix
    exact hok.finish hok.wellFormed.abort rfl rfl (owned_of_append (hlost.trans hok.owned)).1
  · exact h.lines.of_prefix ((List.prefix_append_right_inj _).mpr hheld)
  · cases hfailed
  · have hnil := h.empty hflushed
    rw [Option.map_some, Option.getD_some] at hnil
    rw [hnil] at hheld
    exact List.prefix_nil.mp hheld
  · exact absurd hfresh h.path_ne

end

end

section

variable {s s' : State ι} {e : Event ι}

def Streams (s : State ι) : Prop :=
  ∀ i, Stream i (s.paths i) (s.sinks i) (s.logged i) (s.taken i) (s.failed i) (s.flushed i)

omit [DecidableEq ι] in
theorem Streams.init (files : Files String UInt8) : Streams (init files : State ι) := by
  intro i
  refine ⟨fun _ h => ?_, ⟨[], .nil, rfl⟩, fun _ => rfl, fun _ => rfl,
    fun _ => ⟨rfl, rfl, rfl, rfl, rfl⟩⟩
  cases h

omit [DecidableEq ι] in
/-- What `new` returns. -/
theorem new_eq {files files' : Files String (OwnedByte ι)} {path : String} {mode : FileMode}
    {sink : FileSink (OwnedByte ι)} (h : new files path mode true = some (files', sink)) :
    sink = { file := { capacity := defaultBufSize, buf := [], tasks := [] }
             handle := if mode = .append then .append else .positioned 0
             path
             call := none } ∧
      files' = if mode = .append then files.create path
        else Function.update files path (some []) := by
  cases mode with
  | append | truncate =>
    cases h
    exact ⟨rfl, rfl⟩

omit [DecidableEq ι] in
/-- A sink that has just been opened. -/
theorem Stream.new {i : ι} {sink : Option (FileSink (OwnedByte ι))} {logged : List Line}
    {taken : List UInt8} {failed flushed : Bool}
    (h : Stream i none sink logged taken failed flushed) {files files' : Files String (OwnedByte ι)}
    {path : String} {mode : FileMode} {sink' : FileSink (OwnedByte ι)}
    (hnew : FileSink.new files path mode true = some (files', sink')) :
    Stream i (some path) (some sink') logged taken failed flushed := by
  obtain ⟨-, rfl, rfl, rfl, rfl⟩ := h.fresh rfl
  obtain ⟨rfl, -⟩ := new_eq hnew
  refine ⟨fun _ heq => ?_, ⟨[], .nil, rfl⟩, fun _ => rfl, fun _ => rfl, fun hnone => by cases hnone⟩
  cases heq
  exact ⟨rfl, .of_forall (Nat.zero_le _) fun _ htask => absurd htask List.not_mem_nil, rfl,
    fun _ => rfl, by simp, rfl⟩

/-- A step is one of one sink. -/
def Event.sink : Event ι → ι
  | .new i .. | .write i _ | .flush i | .drop i | .run i _ | .fail i => i

theorem Streams.step (h : Streams s) (hs : step s e = some s') : Streams s' := by
  intro j
  have hj := h j
  rcases eq_or_ne j e.sink with rfl | hne
  · cases step_effect hs with
    | new hfresh hnew =>
      simp only [Event.sink, Function.update_self]
      simp only [Event.sink, hfresh] at hj
      exact hj.new hnew
    | write hsink hidle =>
      simp only [Event.sink, Function.update_self]
      simp only [Event.sink, hsink] at hj
      exact hj.write hidle _
    | flush hsink hidle | drop hsink hidle =>
      simp only [Event.sink, Function.update_self]
      simp only [Event.sink, hsink] at hj
      exact hj.flush hidle _
    | run hsink hstep hbusy =>
      simp only [Event.sink, State.take, Function.update_self]
      simp only [Event.sink, hsink] at hj
      exact hj.run s hstep hbusy
    | done hsink hstep hdone =>
      simp only [Event.sink, State.take, State.finish, Function.update_self, Bool.not_true,
        Bool.or_false, Bool.true_and]
      simp only [Event.sink, hsink] at hj
      exact hj.done s hstep hdone
    | fail hsink hcalls =>
      simp only [Event.sink, State.finish, Function.update_self, Bool.not_false, Bool.or_true,
        Bool.false_and, Bool.or_false]
      simp only [Event.sink, hsink] at hj
      exact hj.fail
  · cases step_effect hs <;>
      simp only [Event.sink] at hne <;>
      simpa only [State.take, State.finish, Function.update_of_ne hne] using hj

theorem streams_of_reach {ok : State ι → Event ι → Prop} {files : Files String UInt8}
    (hrun : Machine.Reach step ok (init files) s) : Streams s :=
  hrun.invariant (.init files) fun _ _ _ h _ hs => h.step hs

end

/-! ### The files -/

/-- The bytes that a sink has written to a file. -/
def bytesOf (i : ι) (xs : List (OwnedByte ι)) : List UInt8 :=
  (xs.filter fun x => x.1 = some i).map Prod.snd

@[simp]
theorem bytesOf_append (i : ι) (xs ys : List (OwnedByte ι)) :
    bytesOf i (xs ++ ys) = bytesOf i xs ++ bytesOf i ys := by
  rw [bytesOf, List.filter_append, List.map_append]
  rfl

/-- A sink that owns all of the bytes. -/
theorem bytesOf_eq_map {i : ι} {xs : List (OwnedByte ι)} (h : ∀ x ∈ xs, x.1 = some i) :
    bytesOf i xs = xs.map Prod.snd := by
  rw [bytesOf, List.filter_eq_self.mpr fun x hx => by simpa using h x hx]

theorem bytesOf_owned (i : ι) (xs : List UInt8) : bytesOf i (owned i xs) = xs := by
  have hall : ∀ x ∈ owned i xs, x.1 = some i := by
    intro x hx
    obtain ⟨y, -, rfl⟩ := List.mem_map.mp hx
    rfl
  rw [bytesOf_eq_map hall, map_snd_owned]

/-- A sink that owns none of the bytes. -/
theorem bytesOf_eq_nil {i : ι} {xs : List (OwnedByte ι)} (h : ∀ x ∈ xs, x.1 ≠ some i) :
    bytesOf i xs = [] := by
  rw [bytesOf, List.filter_eq_nil_iff.mpr fun x hx => by simpa using h x hx, List.map_nil]

/-- No sink is opened on a path on which another one has a position of its own, and none is opened
with a position while another one is open on the path. -/
def Exclusive (s : State ι) : Event ι → Prop
  | .new _ path mode _ => ∀ j, ∀ sink ∈ s.sinks j, sink.path = path →
    mode = .append ∧ sink.handle = .append
  | .write .. | .flush _ | .drop _ | .run .. | .fail _ => True

/-- A file holds what was in it before, and then what the sinks have written, in the order in which
the system has taken it. -/
structure Contents (s : State ι) : Prop where
  files : ∀ path, ∃ written, (s.files path).getD [] = s.base path ++ written ∧
    (∀ x ∈ written, ∃ i ∈ s.opened path, x.1 = some i) ∧
    ∀ i ∈ s.opened path, bytesOf i written = s.taken i
  opened : ∀ path, ∀ i ∈ s.opened path, s.paths i = some path
  live : ∀ i, ∀ sink ∈ s.sinks i, i ∈ s.opened sink.path ∧
    sink.handle.AtEnd ((s.files sink.path).getD [])
  alone : ∀ i j, i ≠ j → ∀ sink ∈ s.sinks i, ∀ sink' ∈ s.sinks j, sink.path = sink'.path →
    sink.handle = .append

section

variable {s s' : State ι} {e : Event ι}

omit [DecidableEq ι] in
theorem writeOut_of_atEnd {sink : FileSink (OwnedByte ι)} {content : List (OwnedByte ι)}
    (h : sink.handle.AtEnd content) (out : List (OwnedByte ι)) :
    (sink.writeOut content out).1 = content ++ out ∧
      (sink.writeOut content out).2.AtEnd (content ++ out) ∧
      (sink.handle = .append → (sink.writeOut content out).2 = .append) := by
  unfold writeOut
  split
  · next hnil =>
    rw [hnil, List.append_nil]
    exact ⟨rfl, h, id⟩
  · refine ⟨Handle.write_of_atEnd h, Handle.atEnd_write h, fun happend => ?_⟩
    rw [happend]
    rfl

theorem Contents.init (files : Files String UInt8) : Contents (init files : State ι) where
  files path := by
    refine ⟨[], ?_, fun _ h => absurd h List.not_mem_nil, fun _ h => absurd h List.not_mem_nil⟩
    simp only [FileSink.init, List.append_nil]
    cases files path <;> rfl
  opened _ _ h := absurd h List.not_mem_nil
  live _ _ h := by cases h
  alone _ _ _ _ h := by cases h

/-- A step that neither opens a sink nor passes bytes on. -/
theorem Contents.of_sinks (h : Contents s)
    (hsinks : ∀ i, ∀ sink' ∈ s'.sinks i, ∃ sink ∈ s.sinks i, sink'.path = sink.path ∧
      sink'.handle = sink.handle)
    (hfiles : s'.files = s.files) (hbase : s'.base = s.base) (hopened : s'.opened = s.opened)
    (hpaths : s'.paths = s.paths) (htaken : s'.taken = s.taken) : Contents s' where
  files := by rw [hfiles, hbase, hopened, htaken]; exact h.files
  opened := by rw [hopened, hpaths]; exact h.opened
  live i sink' hsink' := by
    obtain ⟨sink, hsink, hpath, hhandle⟩ := hsinks i sink' hsink'
    rw [hpath, hhandle, hopened, hfiles]
    exact h.live i sink hsink
  alone i j hne sink₁ h₁ sink₂ h₂ hpath := by
    obtain ⟨sink₁', hsink₁, hpath₁, hhandle₁⟩ := hsinks i sink₁ h₁
    obtain ⟨sink₂', hsink₂, hpath₂, -⟩ := hsinks j sink₂ h₂
    rw [hhandle₁]
    exact h.alone i j hne _ hsink₁ _ hsink₂ (by rw [← hpath₁, ← hpath₂, hpath])

/-- The update of one sink for `of_sinks`. -/
private theorem sinks_update {i : ι} {sink : FileSink (OwnedByte ι)}
    {new : Option (FileSink (OwnedByte ι))} (hsink : s.sinks i = some sink)
    (hnew : ∀ sink' ∈ new, sink'.path = sink.path ∧ sink'.handle = sink.handle) :
    ∀ j, ∀ sink' ∈ Function.update s.sinks i new j, ∃ sink ∈ s.sinks j,
      sink'.path = sink.path ∧ sink'.handle = sink.handle := by
  intro j sink' hsink'
  rcases eq_or_ne j i with rfl | hne
  · rw [Function.update_self] at hsink'
    exact ⟨sink, hsink, hnew sink' hsink'⟩
  · rw [Function.update_of_ne hne] at hsink'
    exact ⟨sink', hsink', rfl, rfl⟩

/-- The system takes bytes of a sink. -/
theorem Contents.take (h : Contents s) {i : ι} {sink : FileSink (OwnedByte ι)}
    (hsink : s.sinks i = some sink) (hpath : s.paths i = some sink.path)
    {out : List (OwnedByte ι)} {ys : List UInt8} (hout : out = owned i ys)
    (file : Buffered (OwnedByte ι)) :
    Contents { s.take i sink out with
      sinks := Function.update s.sinks i (some (s.took sink out file)) } := by
  obtain ⟨hopen, hend⟩ := h.live i sink hsink
  obtain ⟨hcontent, hend', happend⟩ := writeOut_of_atEnd hend out
  refine ⟨fun path => ?_, h.opened, fun j sink' hsink' => ?_,
    fun j k hne sink₁ h₁ sink₂ h₂ heq => ?_⟩
  · obtain ⟨written, hfile, howners, hbytes⟩ := h.files path
    rcases eq_or_ne path sink.path with rfl | hne
    · -- the bytes go to the end of the file, whatever the handle
      refine ⟨written ++ out, ?_, fun x hx => ?_, fun j hj => ?_⟩
      · simp only [State.take, Function.update_self, Option.getD_some]
        rw [hcontent, hfile, List.append_assoc]
      · rcases List.mem_append.mp hx with hx | hx
        · exact howners x hx
        · rw [hout] at hx
          obtain ⟨y, -, rfl⟩ := List.mem_map.mp hx
          exact ⟨i, hopen, rfl⟩
      · rw [bytesOf_append, hbytes j hj]
        rcases eq_or_ne j i with rfl | hji
        · simp only [State.take, Function.update_self, hout, bytesOf_owned, map_snd_owned]
        · simp only [State.take, Function.update_of_ne hji]
          rw [bytesOf_eq_nil, List.append_nil]
          intro x hx
          rw [hout] at hx
          obtain ⟨y, -, rfl⟩ := List.mem_map.mp hx
          simpa using hji.symm
    · refine ⟨written, ?_, howners, fun j hj => ?_⟩
      · simpa only [State.take, Function.update_of_ne hne] using hfile
      · -- the sink is open on another path
        have hji : j ≠ i := by
          rintro rfl
          have heq := (h.opened path j hj).symm.trans hpath
          exact hne (Option.some.inj heq)
        simpa only [State.take, Function.update_of_ne hji] using hbytes j hj
  · rcases eq_or_ne j i with rfl | hne
    · simp only [Function.update_self] at hsink'
      cases hsink'
      simp only [State.take, State.took, Function.update_self, Option.getD_some, hcontent]
      exact ⟨hopen, hend'⟩
    · simp only [Function.update_of_ne hne] at hsink'
      obtain ⟨hopen', hend₁⟩ := h.live j sink' hsink'
      refine ⟨hopen', ?_⟩
      rcases eq_or_ne sink'.path sink.path with heq | hpath'
      · -- two sinks on one path have no position
        rw [h.alone j i hne sink' hsink' sink hsink heq]
        trivial
      · simpa only [State.take, Function.update_of_ne hpath'] using hend₁
  · simp only [Function.update_apply] at h₁ h₂
    have hold : ∀ l, ∀ sink' ∈ (if l = i then some (s.took sink out file) else s.sinks l),
        ∃ old ∈ s.sinks l, sink'.path = old.path ∧
          (old.handle = .append → sink'.handle = .append) := by
      intro l sink' hsink'
      split at hsink'
      · next hl =>
        cases hsink'
        exact ⟨sink, hl ▸ hsink, rfl, happend⟩
      · exact ⟨sink', hsink', rfl, id⟩
    obtain ⟨old₁, hold₁, hpath₁, hhandle₁⟩ := hold j sink₁ h₁
    obtain ⟨old₂, hold₂, hpath₂, -⟩ := hold k sink₂ h₂
    exact hhandle₁ (h.alone j k hne old₁ hold₁ old₂ hold₂ (by rw [← hpath₁, ← hpath₂, heq]))

/-- A sink is opened. -/
theorem Contents.new (h : Contents s) (hstreams : Streams s) {i : ι} {path : String}
    {mode : FileMode} {files : Files String (OwnedByte ι)} {sink : FileSink (OwnedByte ι)}
    (hok : Exclusive s (.new i path mode true)) (hfresh : s.paths i = none)
    (hnew : FileSink.new s.files path mode true = some (files, sink)) :
    Contents { s with
      files
      sinks := Function.update s.sinks i (some sink)
      paths := Function.update s.paths i (some path)
      base := if mode = .truncate then Function.update s.base path [] else s.base
      opened := Function.update s.opened path
        (if mode = .truncate then [i] else i :: s.opened path) } := by
  obtain ⟨hsinks, htaken, -⟩ := (hstreams i).fresh hfresh
  obtain ⟨rfl, rfl⟩ := new_eq hnew
  -- the sink is not one of those that have been opened
  have hne_of_opened : ∀ path', ∀ j ∈ s.opened path', j ≠ i := by
    rintro path' j hj rfl
    cases hfresh.symm.trans (h.opened path' j hj)
  refine ⟨fun path' => ?_, fun path' j hj => ?_, fun j sink' hsink' => ?_,
    fun j k hne sink₁ h₁ sink₂ h₂ heq => ?_⟩
  · rcases eq_or_ne path' path with rfl | hpath
    · cases mode with
      | append =>
        obtain ⟨written, hfile, howners, hbytes⟩ := h.files path'
        refine ⟨written, ?_, fun x hx => ?_, fun j hj => ?_⟩
        · simp [Files.create_self, hfile]
        · obtain ⟨j, hj, hx⟩ := howners x hx
          simp only [Function.update_self]
          exact ⟨j, List.mem_cons_of_mem _ hj, hx⟩
        · simp only [Function.update_self] at hj
          rcases List.mem_cons.mp hj with rfl | hj
          · -- the new sink has written nothing yet
            dsimp only
            rw [htaken, bytesOf_eq_nil]
            intro x hx heq
            obtain ⟨k, hk, hx⟩ := howners x hx
            exact hne_of_opened _ k hk (Option.some.inj (hx.symm.trans heq))
          · exact hbytes j hj
      | truncate =>
        -- what other sinks have written is gone, and they are not counted any more
        refine ⟨[], ?_, fun _ hx => absurd hx List.not_mem_nil, fun j hj => ?_⟩
        · simp
        · simp only [Function.update_self] at hj
          obtain rfl := List.mem_singleton.mp hj
          exact htaken.symm
    · obtain ⟨written, hfile, howners, hbytes⟩ := h.files path'
      refine ⟨written, ?_, ?_, ?_⟩
      · cases mode <;> simpa [Files.create_of_ne _ hpath, Function.update_of_ne hpath] using hfile
      · simpa only [Function.update_of_ne hpath] using howners
      · simpa only [Function.update_of_ne hpath] using hbytes
  · have hold : ∀ j ∈ s.opened path', Function.update s.paths i (some path) j = some path' := by
      intro j hj
      rw [Function.update_of_ne (hne_of_opened path' j hj)]
      exact h.opened path' j hj
    dsimp only at hj ⊢
    rcases eq_or_ne path' path with rfl | hpath
    · rw [Function.update_self] at hj
      split at hj
      · obtain rfl := List.mem_singleton.mp hj
        exact Function.update_self ..
      · rcases List.mem_cons.mp hj with rfl | hj
        · exact Function.update_self ..
        · exact hold j hj
    · rw [Function.update_of_ne hpath] at hj
      exact hold j hj
  · rcases eq_or_ne j i with rfl | hne
    · simp only [Function.update_self] at hsink'
      cases hsink'
      cases mode with
      | append => exact ⟨by simp, trivial⟩
      | truncate => exact ⟨by simp, by simp [Handle.AtEnd]⟩
    · simp only [Function.update_of_ne hne] at hsink'
      obtain ⟨hopen, hend⟩ := h.live j sink' hsink'
      rcases eq_or_ne sink'.path path with rfl | hpath
      · obtain ⟨rfl, happend⟩ := hok j sink' hsink' rfl
        rw [happend]
        exact ⟨by simp [hopen], trivial⟩
      · refine ⟨by simpa only [Function.update_of_ne hpath] using hopen, ?_⟩
        cases mode <;> simpa [Files.create_of_ne _ hpath, Function.update_of_ne hpath] using hend
  · simp only [Function.update_apply] at h₁ h₂
    split at h₁
    · split at h₂
      · next hj hk => exact absurd (hj.trans hk.symm) hne
      · cases h₁
        obtain ⟨rfl, -⟩ := hok k sink₂ h₂ heq.symm
        rfl
    · split at h₂
      · cases h₂
        exact (hok j sink₁ h₁ heq).2
      · exact h.alone j k hne sink₁ h₁ sink₂ h₂ heq

/-- The call of a sink goes on. -/
theorem Contents.run (h : Contents s) (hstreams : Streams s) {i : ι} {n : ℕ}
    {sink : FileSink (OwnedByte ι)} {out : List (OwnedByte ι)} {file : Buffered (OwnedByte ι)}
    (hsink : s.sinks i = some sink) (hstep : sink.file.step n = some (out, file)) :
    Contents { s.take i sink out with
      sinks := Function.update s.sinks i (some (s.took sink out file)) } := by
  have hok := (hstreams i).isOk sink hsink
  -- what a sink passes on is its own
  have howned := owned_of_append ((hok.wellFormed.pending_of_step hstep).trans hok.owned)
  exact h.take hsink hok.path howned.1 file

/-- The end of a call. -/
theorem Contents.finish (h : Contents s) {i : ι} {sink : FileSink (OwnedByte ι)}
    (hsink : s.sinks i = some sink) (file : Buffered (OwnedByte ι)) (ok : Bool) :
    Contents (s.finish i { sink with file } ok) := by
  refine h.of_sinks (sinks_update hsink fun sink' hsink' => ?_) rfl rfl rfl rfl rfl
  obtain rfl := ended_eq hsink'
  exact ⟨rfl, rfl⟩

theorem Contents.step (h : Contents s) (hstreams : Streams s) (hok : Exclusive s e)
    (hs : step s e = some s') : Contents s' := by
  cases step_effect hs with
  | new hfresh hnew => exact h.new hstreams hok hfresh hnew
  | write hsink | flush hsink | drop hsink =>
    refine h.of_sinks (sinks_update hsink ?_) rfl rfl rfl rfl rfl
    rintro sink' ⟨⟩
    exact ⟨rfl, rfl⟩
  | @run i n sink out file hsink hstep hbusy => exact h.run hstreams hsink hstep
  | @done i n sink out file hsink hstep hdone =>
    have hfinish := (h.run hstreams hsink hstep).finish (Function.update_self ..) file true
    simp only [State.finish, Function.update_idem] at hfinish
    exact hfinish
  | fail hsink hcalls => exact h.finish hsink _ _

theorem contents_of_reach {files : Files String UInt8}
    (hrun : Machine.Reach step Exclusive (init files) s) : Contents s := by
  induction hrun with
  | refl => exact .init files
  | step hreach hok hs ih => exact ih.step (streams_of_reach hreach) hok hs

end

/-! ### Main result -/

/-- What the files hold of the lines of the sinks. -/
structure Recorded (s : State ι) : Prop where
  /-- A file holds what was in it before and then, for each sink that has been opened on it, what
  the system has taken from the sink, in that order. -/
  files : ∀ path, ∃ written, (s.files path).getD [] = s.base path ++ written ∧
    (∀ x ∈ written, ∃ i ∈ s.opened path, x.1 = some i) ∧
    ∀ i ∈ s.opened path, bytesOf i written = s.taken i
  /-- What has been taken and what is still held are the lines of the sink, in that order, each of
  them whole or cut short. -/
  lines : ∀ i, CutShort ((s.logged i).map (· ++ [10])) (s.taken i ++ s.held i)
  /-- Only an error cuts a line short. -/
  whole : ∀ i, s.failed i = false → s.taken i ++ s.held i = joinLines (s.logged i)
  /-- Nothing is held after a flush, or once the sink has been dropped. -/
  flushed : ∀ i, s.flushed i = true ∨ s.sinks i = none → s.held i = []
  /-- Between two calls no more is held than what the buffer can take. -/
  idle : ∀ i, ∀ sink ∈ s.sinks i, sink.call = none → (s.held i).length ≤ defaultBufSize

/-- In every run in which no sink is opened on a path that another one is writing to with a position
of its own, and none is opened with a position on a path that another one is writing to: whatever
the interleaving, and whatever errors the system reports, the files hold the lines of the sinks as
`Recorded` says. -/
theorem contents_recorded (files : Files String UInt8) {s : State ι}
    (hrun : Machine.Reach step Exclusive (init files) s) : Recorded s := by
  have hstreams := streams_of_reach hrun
  have hcontents := contents_of_reach hrun
  refine ⟨hcontents.files, fun i => (hstreams i).lines, fun i => (hstreams i).whole, ?_, ?_⟩
  · rintro i (hflushed | hdropped)
    · exact (hstreams i).empty hflushed
    · rw [State.held, hdropped]
      rfl
  · intro i sink hsink hidle
    have hok := (hstreams i).isOk sink hsink
    rw [State.held, Option.mem_def.mp hsink, Option.map_some, Option.getD_some, held,
      Buffered.pending, hok.idle hidle]
    simpa [← hok.capacity] using hok.wellFormed.length_buf

instance [Fintype ι] (s : State ι) : (e : Event ι) → Decidable (Exclusive s e)
  | .new _ path mode _ =>
    inferInstanceAs (Decidable (∀ j, ∀ sink ∈ s.sinks j, sink.path = path →
      mode = .append ∧ sink.handle = .append))
  | .write .. | .flush _ | .drop _ | .run .. | .fail _ => .isTrue trivial

/-- Two sinks append to one file. The system takes one byte of the line of the first one, the line
of the second one, and then the newline of the first; a second line is lost with an error. -/
private def sharedPath : List (Event Bool) :=
  [.new true "app.log" .append true, .new false "app.log" .append true,
    .write true [97], .run true 0, .run true 0, .write false [98], .run false 0, .run false 0,
    .flush true, .run true 1, .flush false, .run false 2, .run false 0, .run true 1, .run true 0,
    .write true [99], .run true 0, .run true 0, .drop true, .fail true]

theorem contents_recorded_shared :
    ∃ s, step.runWhile Exclusive (init fun path => if path = "app.log" then some [10] else none)
        sharedPath = some s ∧
      s.files "app.log" = some [(none, 10), (some true, 97), (some false, 98), (some false, 10),
        (some true, 10)] ∧
      Recorded s := by
  have hrun : (step.runWhile Exclusive
      (init fun path => if path = "app.log" then some [10] else none) sharedPath).map
      (fun s => s.files "app.log") = some (some [(none, 10), (some true, 97), (some false, 98),
        (some false, 10), (some true, 10)]) := by
    decide +kernel
  obtain ⟨s, hs, hcontent⟩ := Option.map_eq_some_iff.mp hrun
  exact ⟨s, hs, hcontent, contents_recorded _ (.of_runWhile hs)⟩

end FileSink

end RapidLog
