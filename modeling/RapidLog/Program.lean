import RapidLog.Backend.Shutdown
import RapidLog.Backend.Termination
import RapidLog.Lib.Simulation
import RapidLog.Pipeline.Deferred
import RapidLog.Sinks.File.Contents

/-!
# The whole program

From the log macros to the files: the pipeline over the file sinks. A worker that writes a text to
a file sink calls `write` of the sink, and takes no other step until the call has returned; it waits
while another worker, or a caller of `flush`, has the lock of the sink. Other sinks return at once.

A logger keeps its sinks, and the registry keeps the loggers, so no sink is dropped here. The
sinks of `fileSinks` are the file sinks; a message for one of them waits until it has been opened.

## Main results

* `delivered_to_files`: what the files hold are the texts that the calls would have printed at once;
  in the end, one for each accepted message that passed the checks and each sink of its logger.
-/

namespace RapidLog

open Backend (Env)

variable {τ : Type}

/-- The worker that takes the step. -/
def Pipeline.Event.worker? : Pipeline.Event τ → Option ℕ
  | .checkFilters w | .writeSink w => some w
  | .backend e => e.worker?
  | .logCheck .. | .advance _ | .logPush _ | .start .. => none

namespace Program

structure State (τ : Type) where
  pipeline : Pipeline.State τ
  files : FileSink.State ℕ
  /-- The file sink whose `write` a worker is in. -/
  inCall : ℕ → Option ℕ

inductive Event (τ : Type)
  | pipeline (e : Pipeline.Event τ)
  /-- A sink is opened or flushed, or the call that holds its lock goes on. -/
  | file (e : FileSink.Event ℕ)

def init (loggers : UInt64 → Logger) (files : Files String UInt8) : State τ where
  pipeline := Pipeline.init loggers
  files := FileSink.init files
  inCall _ := none

/-- The steps of the file sinks that are not the beginning of a `write`. -/
def isPlain : FileSink.Event ℕ → Bool
  | .new .. | .flush _ | .run .. | .fail _ => true
  | .write .. | .drop _ => false

/-- The calls that have not returned. -/
def stillIn (files : FileSink.State ℕ) (inCall : ℕ → Option ℕ) (w : ℕ) : Option ℕ :=
  (inCall w).filter fun i => ((files.sinks i).bind FileSink.call).isSome

variable [Target] [FloatDisplay] [Calendar] [DecidableEq τ]

/-- `sink.write(&formatted)` for the next sink of the message. -/
def writeSink (env : Env) (fileSinks : ℕ → Bool) (s : State τ) (w : ℕ) : Option (State τ) :=
  (Pipeline.step env s.pipeline (.writeSink w)).bind fun pipeline =>
    match (s.pipeline.backend.workers w).phase with
    | .writing _ _ _ (i :: _) _ =>
      if fileSinks i then
        (FileSink.step s.files (.write i (Utf8.encode (s.pipeline.formatted w)))).map fun files =>
          { pipeline, files, inCall := Function.update s.inCall w (some i) }
      else some { s with pipeline }
    -- the message has been written to all sinks
    | _ => some { s with pipeline }

def step (env : Env) (fileSinks : ℕ → Bool) : Machine (State τ) (Event τ)
  | s, .pipeline e =>
    if ∀ w ∈ e.worker?, s.inCall w = none then
      match e with
      | .writeSink w => writeSink env fileSinks s w
      | e => (Pipeline.step env s.pipeline e).map fun pipeline => { s with pipeline }
    else none
  | s, .file e =>
    if isPlain e then
      (FileSink.step s.files e).map fun files => { s with files, inCall := stillIn files s.inCall }
    else none

/-- All calls can be read back, ring capacities are valid, and a sink with a position of its own has
its path for itself. -/
def Admissible (types : UInt64 → List Logged) (s : State τ) : Event τ → Prop
  | .pipeline e => Pipeline.Admissible types s.pipeline e
  | .file e => FileSink.Exclusive s.files e

/-- The texts that have been written to a sink, as lines of a file. -/
def linesOf (s : State τ) (i : ℕ) : List Line :=
  (s.pipeline.written.filter fun x => x.sink = i).map fun x => Utf8.encode x.text

/-! ### What a step does -/

inductive Effect (env : Env) (fileSinks : ℕ → Bool) (s : State τ) : Event τ → State τ → Prop
  | pipeline {e pipeline} (he : ∀ w, e ≠ .writeSink w)
    (hp : Pipeline.step env s.pipeline e = some pipeline) :
    Effect env fileSinks s (.pipeline e) { s with pipeline }
  | writeFile {w cur level filters i sinks rest pipeline files}
    (hp : Pipeline.step env s.pipeline (.writeSink w) = some pipeline)
    (hphase : (s.pipeline.backend.workers w).phase = .writing cur level filters (i :: sinks) rest)
    (hfile : fileSinks i = true)
    (hf : FileSink.step s.files (.write i (Utf8.encode (s.pipeline.formatted w))) = some files)
    (inCall : ℕ → Option ℕ) :
    Effect env fileSinks s (.pipeline (.writeSink w)) { pipeline, files, inCall }
  | writeOther {w cur level filters i sinks rest pipeline}
    (hp : Pipeline.step env s.pipeline (.writeSink w) = some pipeline)
    (hphase : (s.pipeline.backend.workers w).phase = .writing cur level filters (i :: sinks) rest)
    (hfile : fileSinks i = false) :
    Effect env fileSinks s (.pipeline (.writeSink w)) { s with pipeline }
  | writeDone {w pipeline} (hp : Pipeline.step env s.pipeline (.writeSink w) = some pipeline)
    (hphase : ∀ cur level filters i sinks rest,
      (s.pipeline.backend.workers w).phase ≠ .writing cur level filters (i :: sinks) rest) :
    Effect env fileSinks s (.pipeline (.writeSink w)) { s with pipeline }
  | file {e files} (he : isPlain e = true) (hf : FileSink.step s.files e = some files)
    (inCall : ℕ → Option ℕ) :
    Effect env fileSinks s (.file e) { s with files, inCall }

section

variable {env : Env} {fileSinks : ℕ → Bool} {s s' : State τ} {e : Event τ}

private theorem writeSink_effect {w : ℕ} (hs : writeSink env fileSinks s w = some s') :
    Effect env fileSinks s (.pipeline (.writeSink w)) s' := by
  obtain ⟨pipeline, hp, hrest⟩ := Option.bind_eq_some_iff.mp hs
  split at hrest
  · next hphase =>
    split at hrest
    · next hfile =>
      obtain ⟨files, hf, rfl⟩ := Option.map_eq_some_iff.mp hrest
      exact .writeFile hp hphase hfile hf _
    · next hfile =>
      cases hrest
      exact .writeOther hp hphase (by simpa using hfile)
  · next hphase =>
    cases hrest
    exact .writeDone hp fun cur level filters i sinks rest h => hphase _ _ _ _ _ _ h

theorem step_effect (hs : step env fileSinks s e = some s') : Effect env fileSinks s e s' := by
  cases e with
  | pipeline e =>
    simp only [step] at hs
    split at hs
    · split at hs
      · exact writeSink_effect hs
      · next hne =>
        obtain ⟨pipeline, hp, rfl⟩ := Option.map_eq_some_iff.mp hs
        exact .pipeline (fun w heq => hne w heq) hp
    · cases hs
  | file e =>
    simp only [step] at hs
    split at hs
    · next he =>
      obtain ⟨files, hf, rfl⟩ := Option.map_eq_some_iff.mp hs
      exact .file he hf _
    · cases hs

/-! ### The parts -/

/-- A run of the program is a run of the pipeline. -/
theorem pipeline_of_reach {types : UInt64 → List Logged} {loggers : UInt64 → Logger}
    {files : Files String UInt8}
    (hrun : Machine.Reach (step env fileSinks) (Admissible types) (init loggers files) s) :
    Machine.Reach (Pipeline.step env) (Pipeline.Admissible types) (Pipeline.init loggers)
      s.pipeline := by
  refine hrun.project (f := State.pipeline) fun s e s' hok hs => ?_
  cases step_effect hs with
  | pipeline _ hp | writeFile hp | writeOther hp | writeDone hp =>
    refine .inr ⟨_, ?_, hp⟩
    exact hok
  | file => exact .inl rfl

/-- And of the file sinks. -/
theorem files_of_reach {types : UInt64 → List Logged} {loggers : UInt64 → Logger}
    {files : Files String UInt8}
    (hrun : Machine.Reach (step env fileSinks) (Admissible types) (init loggers files) s) :
    Machine.Reach FileSink.step FileSink.Exclusive (FileSink.init files) s.files := by
  refine hrun.project (f := State.files) fun s e s' hok hs => ?_
  cases step_effect hs with
  | pipeline | writeOther | writeDone => exact .inl rfl
  | writeFile _ _ _ hf =>
    refine .inr ⟨_, ?_, hf⟩
    exact trivial
  | file _ hf =>
    refine .inr ⟨_, ?_, hf⟩
    exact hok

omit [Target] [FloatDisplay] [Calendar] [DecidableEq τ] in
/-- Only `write` gives a sink a line. -/
private theorem logged_of_plain {files files' : FileSink.State ℕ} {e : FileSink.Event ℕ}
    (he : isPlain e = true) (hf : FileSink.step files e = some files') :
    files'.logged = files.logged := by
  cases FileSink.step_effect hf with
  | write | drop => cases he
  | _ => rfl

/-- Only `writeSink` writes a text. -/
private theorem written_of_step {p p' : Pipeline.State τ} {e : Pipeline.Event τ}
    (he : ∀ w, e ≠ .writeSink w) (hp : Pipeline.step env p e = some p') :
    p'.written = p.written := by
  cases Pipeline.step_effect hp with
  | write | writeDone => exact absurd rfl (he _)
  | _ => rfl

/-- What `writeSink` writes. -/
private theorem written_of_writeSink {p p' : Pipeline.State τ} {w : ℕ}
    (hp : Pipeline.step env p (.writeSink w) = some p') :
    (∃ cur level filters i sinks rest,
      (p.backend.workers w).phase = .writing cur level filters (i :: sinks) rest ∧
        p'.written = p.written ++ [⟨w, cur.2, i, p.formatted w⟩]) ∨
      (∀ cur level filters i sinks rest,
        (p.backend.workers w).phase ≠ .writing cur level filters (i :: sinks) rest) ∧
        p'.written = p.written := by
  cases Pipeline.step_effect hp with
  | write hb hphase => exact .inl ⟨_, _, _, _, _, _, hphase, rfl⟩
  | writeDone hb hphase =>
    refine .inr ⟨fun cur level filters i sinks rest h => ?_, rfl⟩
    cases hphase.symm.trans h

/-- The lines of a file sink are the texts that the workers have written to it. -/
theorem logged_of_reach {types : UInt64 → List Logged} {loggers : UInt64 → Logger}
    {files : Files String UInt8}
    (hrun : Machine.Reach (step env fileSinks) (Admissible types) (init loggers files) s) :
    ∀ i, fileSinks i = true → s.files.logged i = linesOf s i := by
  refine hrun.invariant (P := fun s => ∀ i, fileSinks i = true → s.files.logged i = linesOf s i)
    (fun _ _ => rfl) fun s e s' h _ hs => ?_
  cases step_effect hs with
  | pipeline he hp =>
    intro i hi
    rw [linesOf, written_of_step he hp]
    exact h i hi
  | @writeFile w cur level filters i sinks rest pipeline files hp hphase hfile hf =>
    intro j hj
    -- the sink is given the text that counts as written
    rcases written_of_writeSink hp with ⟨_, _, _, _, _, _, hphase', hwritten⟩ | ⟨hnone, -⟩
    · cases hphase.symm.trans hphase'
      cases FileSink.step_effect hf with
      | write hsink hidle =>
        rw [linesOf, hwritten, List.filter_append]
        rcases eq_or_ne j i with rfl | hne
        · simp [h j hj, linesOf]
        · simp [h j hj, linesOf, hne, hne.symm]
    · exact absurd hphase (hnone _ _ _ _ _ _)
  | @writeOther w cur level filters i sinks rest pipeline hp hphase hfile =>
    intro j hj
    -- a text for another sink is no line of `j`
    have hne : i ≠ j := by
      rintro rfl
      rw [hj] at hfile
      cases hfile
    rcases written_of_writeSink hp with ⟨_, _, _, _, _, _, hphase', hwritten⟩ | ⟨hnone, -⟩
    · cases hphase.symm.trans hphase'
      rw [linesOf, hwritten, List.filter_append]
      simp [h j hj, linesOf, hne]
    · exact absurd hphase (hnone _ _ _ _ _ _)
  | writeDone hp hphase =>
    intro i hi
    rcases written_of_writeSink hp with ⟨_, _, _, _, _, _, hphase', -⟩ | ⟨-, hwritten⟩
    · exact absurd hphase' (hphase _ _ _ _ _ _)
    · rw [linesOf, hwritten]
      exact h i hi
  | file he hf =>
    intro i hi
    rw [logged_of_plain he hf]
    exact h i hi

/-! ### From the queues to the files -/

/-- The messages that have been written to a sink. -/
def rawsOf (s : State τ) (i : ℕ) : List (Raw τ) :=
  (s.pipeline.written.filter fun x => x.sink = i).map Written.raw

/-- All workers have exited, no message is left in a ring, and a file sink has been flushed since
its last line. No error has been ignored. -/
structure Drained (s : State τ) (i : ℕ) : Prop where
  exited : ∀ w < s.pipeline.backend.started, (s.pipeline.backend.workers w).phase = .exited
  rings : s.pipeline.backend.tc.inRings = []
  flushed : s.files.flushed i = true
  failed : s.files.failed i = false

/-- What the sinks and the files hold of the calls of the log macros. -/
structure Delivered (env : Env) (fileSinks : ℕ → Bool) (s : State τ) : Prop where
  panicked : s.pipeline.panicked = false
  /-- A text that is written to a sink is what the call would have printed at once. -/
  texts : ∀ x ∈ s.pipeline.written, Pipeline.Shown env s.pipeline x.worker x.raw x.text
  /-- What the system has taken from a file sink, and what the sink still holds, are the texts that
  have been written to it, in that order, each of them whole or cut short. -/
  lines : ∀ i, fileSinks i = true →
    CutShort ((linesOf s i).map (· ++ [10])) (s.files.taken i ++ s.files.held i)
  /-- Only an error cuts a text short. -/
  whole : ∀ i, fileSinks i = true → s.files.failed i = false →
    s.files.taken i ++ s.files.held i = RotatingFileSink.joinLines (linesOf s i)
  /-- A file holds what was in it before and what the system has taken from its sinks. -/
  files : ∀ path, ∃ written, (s.files.files path).getD [] = s.files.base path ++ written ∧
    (∀ x ∈ written, ∃ i ∈ s.files.opened path, x.1 = some i) ∧
    ∀ i ∈ s.files.opened path, FileSink.bytesOf i written = s.files.taken i
  /-- In the end, the file of a sink that has it for itself has one line for each accepted message
  that passed the checks of the workers, and for each time that its logger has the sink. -/
  complete : ∀ i path, fileSinks i = true → s.files.opened path = [i] → Drained s i →
    ((s.files.files path).getD []).map Prod.snd =
        (s.files.base path).map Prod.snd ++ RotatingFileSink.joinLines (linesOf s i) ∧
      (rawsOf s i).Perm (s.pipeline.backend.handled.flatMap (s.pipeline.backend.copies i)) ∧
      s.pipeline.backend.tc.accepted.Perm (s.pipeline.backend.handled.map Handled.raw)

omit [Target] [FloatDisplay] [Calendar] [DecidableEq τ] in
/-- The writes of the backend are those of the pipeline. -/
private theorem rawsOf_eq (hcalls : s.pipeline.backend.sinkCalls =
    s.pipeline.written.map Pipeline.Written.call) (i : ℕ) :
    rawsOf s i = s.pipeline.backend.sinkCalls.filterMap (Backend.writtenTo i) := by
  rw [hcalls, List.filterMap_map, rawsOf, ← List.filterMap_eq_filter, List.map_filterMap]
  congr 1
  funext x
  by_cases hx : x.sink = i <;> simp [Pipeline.Written.call, Backend.writtenTo, hx, Option.guard]

/-- In a run whose calls can be read back, at call sites that close every brace of their format
string, and in which no two sinks write to one file at positions of their own: the files hold the
texts that the calls would have printed at once, as `Delivered` says. -/
theorem delivered_to_files (env : Env) (types : UInt64 → List Logged) (fileSinks : ℕ → Bool)
    (loggers : UInt64 → Logger) (files : Files String UInt8) {s : State τ}
    (hclosed : ∀ ptr, beforeUnclosed (env.metas ptr).formatStr.toList = [])
    (hrun : Machine.Reach (step env fileSinks) (Admissible types) (init loggers files) s) :
    Delivered env fileSinks s := by
  -- the run, as one of the pipeline and as one of the file sinks
  have hpipeline := pipeline_of_reach hrun
  obtain ⟨-, htexts⟩ := Pipeline.texts_of_reach hclosed hpipeline
  obtain ⟨hinv, -⟩ := Pipeline.backend_inv_of_reach hpipeline
  have hfiles := files_of_reach hrun
  have hstreams := FileSink.streams_of_reach hfiles
  have hcontents := FileSink.contents_of_reach hfiles
  have hlogged := logged_of_reach hrun
  have hwhole : ∀ i, fileSinks i = true → s.files.failed i = false →
      s.files.taken i ++ s.files.held i = RotatingFileSink.joinLines (linesOf s i) := by
    intro i hi hfailed
    rw [← hlogged i hi]
    exact (hstreams i).whole hfailed
  refine ⟨htexts.panicked, fun x hx => (htexts.written x hx).2, fun i hi => ?_, hwhole,
    hcontents.files, fun i path hi hpath hdrained => ⟨?_, ?_, ?_⟩⟩
  · rw [← hlogged i hi]
    exact (hstreams i).lines
  · obtain ⟨written, hfile, howners, hbytes⟩ := hcontents.files path
    rw [hpath] at howners hbytes
    have howned : ∀ x ∈ written, x.1 = some i := by
      intro x hx
      obtain ⟨j, hj, hx⟩ := howners x hx
      rwa [List.mem_singleton.mp hj] at hx
    -- nothing is left in the buffer of the sink
    have hheld : s.files.held i = [] := (hstreams i).empty hdrained.flushed
    have htaken := hwhole i hi hdrained.failed
    rw [hheld, List.append_nil] at htaken
    rw [hfile, List.map_append, ← FileSink.bytesOf_eq_map howned,
      hbytes i (List.mem_singleton.mpr rfl), htaken]
  · -- the texts were written for the messages that the sink has been called with
    rw [rawsOf_eq htexts.calls]
    exact hinv.writtenTo_perm hdrained.exited i
  · -- an accepted message is in a ring or handled
    have hleft := hinv.left hdrained.exited
    rwa [hdrained.rings, List.nil_append] at hleft

end

open Pipeline

/-- A message for the sinks 0, 1 and 1, of which 1 is the file sink. -/
private def writeThrice : List (Event Bool) :=
  [.pipeline (.backend (.next 0)), .pipeline (.checkFilters 0), .pipeline (.writeSink 0),
    .pipeline (.writeSink 0), .file (.run 1 0), .file (.run 1 0),
    .pipeline (.writeSink 0), .file (.run 1 0), .file (.run 1 0), .pipeline (.writeSink 0)]

/-- The worker is stopped, and the file sink is flushed. The system takes the bytes in two
portions. -/
private def stopAndFlush : List (Event Bool) :=
  [.pipeline (.backend (.next 0)), .pipeline (.backend (.stop 0)),
    .pipeline (.backend (.loadStop 0 true)), .file (.flush 1), .file (.run 1 8),
    .file (.run 1 144), .file (.run 1 0)]

private def afterOpening : List (Event Bool) :=
  bothPolled.map .pipeline ++ writeThrice ++ writeThrice ++ stopAndFlush

omit [Calendar] in
private theorem admissible_afterOpening (s : State Bool) :
    ∀ e ∈ afterOpening, Admissible (fun _ => [.unsignedInt 1]) s e := by
  have hpolled : ∀ e ∈ bothPolled.map Event.pipeline,
      Admissible (fun _ => [.unsignedInt 1]) s e := by
    intro e he
    obtain ⟨polled, hpolled, rfl⟩ := List.mem_map.mp he
    exact admissible_bothPolled s.pipeline polled hpolled
  have hwrite : ∀ e ∈ writeThrice, Admissible (fun _ => [.unsignedInt 1]) s e := by
    simp [writeThrice, Admissible, Pipeline.Admissible, Backend.CapacityOk, FileSink.Exclusive]
  have hstop : ∀ e ∈ stopAndFlush, Admissible (fun _ => [.unsignedInt 1]) s e := by
    simp [stopAndFlush, Admissible, Pipeline.Admissible, Backend.CapacityOk, FileSink.Exclusive]
  intro e he
  simp only [afterOpening, List.mem_append] at he
  rcases he with ((he | he) | he) | he
  · exact hpolled e he
  · exact hwrite e he
  · exact hwrite e he
  · exact hstop e he

omit [Target] [FloatDisplay] [Calendar] in
/-- Two threads log, a worker writes both messages twice to the file and is stopped, and the sink is
flushed. -/
theorem delivered_to_files_stopped :
    letI : Target := x86_64
    letI : FloatDisplay := noFloats
    letI : Calendar := { fromUnixTimestamp := fun _ => none }
    ∃ s : State Bool,
      Machine.Reach (step oneGroup (· == 1)) (Admissible fun _ => [.unsignedInt 1])
        (init Backend.twoSinks fun _ => some [104, 10]) s ∧
      Drained s 1 ∧ s.files.opened "app.log" = [1] ∧
      linesOf s 1 = (List.replicate 2 "[0.000000003] [Info] main.rs:7 n = 200" ++
        List.replicate 2 "[0.000000005] [Info] main.rs:7 n = 1").map Utf8.encode ∧
      ((s.files.files "app.log").getD []).map Prod.snd =
        [104, 10] ++ RotatingFileSink.joinLines (linesOf s 1) ∧
      Delivered oneGroup (· == 1) s := by
  let _ : Target := x86_64
  let _ : FloatDisplay := noFloats
  let _ : Calendar := { fromUnixTimestamp := fun _ => none }
  have hrun : ((step oneGroup (· == 1)).run (init Backend.twoSinks fun _ => some [104, 10])
      (.file (.new 1 "app.log" .append true) :: afterOpening)).map (fun s =>
        decide (s.pipeline.backend.started = 1 ∧
          (s.pipeline.backend.workers 0).phase.isExited = true ∧
          s.pipeline.backend.tc.inRings = [] ∧ s.files.flushed 1 = true ∧
          s.files.failed 1 = false ∧ s.files.opened "app.log" = [1] ∧
          (s.files.base "app.log").map Prod.snd = [104, 10] ∧
          linesOf s 1 = (List.replicate 2 "[0.000000003] [Info] main.rs:7 n = 200" ++
            List.replicate 2 "[0.000000005] [Info] main.rs:7 n = 1").map Utf8.encode)) =
      some true := by
    decide +kernel
  obtain ⟨s, hs, hsummary⟩ := Option.map_eq_some_iff.mp hrun
  obtain ⟨hstarted, hexited, hrings, hflushed, hfailed, hopened, hbase, hlines⟩ :=
    decide_eq_true_eq.mp hsummary
  have hopen : Admissible (fun _ => [.unsignedInt 1])
      (init Backend.twoSinks fun _ => some [104, 10] : State Bool)
      (.file (.new 1 "app.log" .append true)) := by
    intro j sink hsink
    cases hsink
  obtain ⟨s₁, hs₁, hrest⟩ := Option.bind_eq_some_iff.mp hs
  have hreach := (Machine.Reach.refl.step hopen hs₁).trans (.of_run admissible_afterOpening hrest)
  have hdrained : Drained s 1 := by
    refine ⟨fun w hw => ?_, hrings, hflushed, hfailed⟩
    have hzero : w = 0 := by omega
    rw [hzero]
    exact Backend.eq_exited hexited
  have hclosed : beforeUnclosed "n = \x7b\x7d".toList = [] := by decide +kernel
  have hdelivered := delivered_to_files oneGroup _ (· == 1) Backend.twoSinks _ (fun _ => hclosed)
    hreach
  have hfile := (hdelivered.complete 1 "app.log" rfl hopened hdrained).1
  rw [hbase] at hfile
  exact ⟨s, hreach, hdrained, hopened, hlines, hfile, hdelivered⟩

end Program

end RapidLog
