import RapidLog.Pipeline.Invariant

/-!
# Formatting later is formatting at once

A call queues raw bytes, and a worker formats them later, in another thread and with what the call
site's statics hold by then. The text is the one that the call would have printed at once.

## Main results

* `deferred_eq_immediate`: in every run in which the arguments of a call site always have the same
  types, no worker panics and every text that is written to a sink is what the call of the message
  would have printed at once. The writes are those of a run of the backend.
-/

namespace RapidLog

open Queue ThreadContext

variable [Target] [FloatDisplay] [Calendar] {τ : Type} [DecidableEq τ]

namespace Pipeline

open Backend (Env payload)

/-- The text is what a call that has queued the message would print at once in the layout of the
worker. -/
def Shown (env : Env) (s : State τ) (w : ℕ) (raw : Raw τ) (text : String) : Prop :=
  ∃ t call, raw.1 = some t ∧ (t, call) ∈ s.pushed ∧ call.logCall.request.Writes raw.2 ∧
    call.Immediate env.metas (s.formatters w) text

/-- The call of the sink that writes a text, with the text left out. -/
def Written.call (x : Written τ) : SinkCall τ := .write x.worker x.raw x.sink ""

/-- The texts that the workers have made. -/
structure Texts (env : Env) (s : State τ) : Prop where
  formatted : ∀ w cur level filters sinks rest,
    (s.backend.workers w).phase = .writing cur level filters sinks rest →
    Shown env s w cur.2 (s.formatted w)
  written : ∀ x ∈ s.written, x.worker < s.backend.started ∧ Shown env s x.worker x.raw x.text
  calls : s.backend.sinkCalls = s.written.map Written.call
  blank : Backend.Blank s.backend
  panicked : s.panicked = false

section

variable {env : Env} {types : UInt64 → List Logged} {s s' : State τ} {e : Event τ}

omit [DecidableEq τ] in
theorem Shown.mono {w : ℕ} {raw : Raw τ} {text : String} (h : Shown env s w raw text)
    (hpushed : ∀ x ∈ s.pushed, x ∈ s'.pushed) (hsame : s'.formatters w = s.formatters w) :
    Shown env s' w raw text := by
  obtain ⟨t, call, ht, hcall, hwrites, himmediate⟩ := h
  exact ⟨t, call, ht, hpushed _ hcall, hwrites, hsame ▸ himmediate⟩

omit [FloatDisplay] [Calendar] in
/-- A worker that is writing has been started. -/
private theorem started_of_writing (h : Backend.Inv env s.backend) {w : ℕ} {cur : Decoded τ}
    {level : LogLevel} {filters : List Filter} {sinks : List ℕ} {rest : List (Decoded τ)}
    (hphase : (s.backend.workers w).phase = .writing cur level filters sinks rest) :
    w < s.backend.started := by
  by_contra hle
  rw [h.unstarted w (not_lt.mp hle)] at hphase
  cases hphase

/-- A step of the backend that neither checks filters nor writes to a sink. -/
private theorem Texts.of_backend (h : Texts env s) (hinv : Backend.Inv env s.backend)
    {e : Backend.Event τ} {backend : Backend.State τ}
    (hb : Backend.step env s.backend e = some backend) (hcheck : ∀ w, e ≠ .checkFilters w)
    (hwrite : ∀ w, e ≠ .writeSink w)
    (hstart : ∀ options, e = .start options → options.formatMessage = fun _ _ => "")
    (hbackend : s'.backend = backend) (hpushed : ∀ x ∈ s.pushed, x ∈ s'.pushed)
    (hformatters : ∀ w < s.backend.started, s'.formatters w = s.formatters w)
    (hsame : s'.formatted = s.formatted ∧ s'.written = s.written ∧ s'.panicked = s.panicked) :
    Texts env s' := by
  obtain ⟨hformatted, hwritten, hpanicked⟩ := hsame
  subst hbackend
  refine ⟨fun w cur level filters sinks rest hphase => ?_, fun x hx => ?_, ?_, ?_, ?_⟩
  · rcases Backend.writing_of_step hb hphase with rfl | ⟨sinks', hold⟩
    · exact absurd rfl (hcheck w)
    · rw [hformatted]
      exact (h.formatted w _ _ _ _ _ hold).mono hpushed
        (hformatters w (started_of_writing hinv hold))
  · obtain ⟨hlt, hshown⟩ := h.written x (hwritten ▸ hx)
    exact ⟨hlt.trans_le (Backend.started_of_step hb), hshown.mono hpushed (hformatters _ hlt)⟩
  · rw [Backend.sinkCalls_of_step_ne hb hwrite, hwritten, h.calls]
  · exact h.blank.step hb hstart
  · rw [hpanicked, h.panicked]

/-- What `format_message` makes of a message that the worker holds: the statics of its call site are
set, and the schemas and string tables are those of its call. -/
theorem format_shown (hclosed : ∀ ptr, beforeUnclosed (env.metas ptr).formatStr.toList = [])
    (hstaged : Staged env types s) (hinv : Backend.Inv env s.backend)
    (hwrites : Backend.AcceptedWrites s.backend) {w : ℕ} (cur : Decoded τ)
    (hw : w < s.backend.started) (hheld : cur ∈ (s.backend.workers w).phase.decoded)
    (hraw : cur.2 ∈ (s.backend.workers w).phase.held) :
    ∃ text, s.format env w cur = some text ∧ Shown env s w cur.2 text := by
  obtain ⟨t, logCall, ht, hcall, hmsg⟩ := hwrites cur.2 (hinv.accepted_of_held hw hraw)
  rw [hstaged.logged] at hcall
  obtain ⟨⟨t', call⟩, hpushed, heq⟩ := List.mem_map.mp hcall
  obtain ⟨rfl, rfl⟩ := Prod.mk.inj heq
  obtain ⟨hread, hready⟩ := hstaged.pushed _ hpushed
  -- the header leads back to the call site of the call
  have hheader : cur.1 = call.logCall.header := by
    obtain ⟨buf, hlen, hbuf⟩ := hmsg
    have hdec := hinv.decoded w cur hheld
    rw [hbuf, call.logCall.decode_encode hlen] at hdec
    exact (Option.some.inj hdec).symm
  have hprovided : (s.sites call.metadataPtr).provided = call.own := by
    rw [(hstaged.sites _).provided_eq hready, own_eq_providedBy hread]
  obtain ⟨text, htext, himmediate⟩ := hread.formatMessage_own (hclosed _) hmsg (s.formatters w)
  refine ⟨text, ?_, t', call, ht, hpushed, hmsg, himmediate⟩
  have hptr : cur.1.metadataPtr = call.metadataPtr := by
    rw [hheader]
    rfl
  rw [State.format, hptr, hprovided, hheader]
  exact htext

omit [FloatDisplay] [Calendar] in
/-- A message that has passed the filters was about to be checked by this worker, and the others are
where they were. -/
private theorem of_checkFilters {w : ℕ} {backend : Backend.State τ}
    (hb : Backend.step env s.backend (.checkFilters w) = some backend) :
    w < s.backend.started ∧ (∀ cur level filters sinks rest,
      (backend.workers w).phase = .writing cur level filters sinks rest →
      (s.backend.workers w).phase = .filtering cur level rest) ∧
    ∀ w' ≠ w, ∀ cur level filters sinks rest,
      (backend.workers w').phase = .writing cur level filters sinks rest →
      ∃ sinks', (s.backend.workers w').phase = .writing cur level filters sinks' rest := by
  refine ⟨?_, fun cur level filters sinks rest hphase => ?_,
    fun w' hne cur level filters sinks rest hphase => ?_⟩
  · by_contra hw
    simp [Backend.step, hw] at hb
  · simp only [Backend.step, Backend.workerStep] at hb
    split at hb
    · split at hb
      · next hold =>
        split at hb
        · cases hb
          rw [Backend.Inv.workers_setPhase_self] at hphase
          cases hphase
          exact hold
        · cases hb
          simp [Backend.State.finish, Backend.State.setPhase] at hphase
      · cases hb
    · cases hb
  · rcases Backend.writing_of_step hb hphase with heq | hold
    · cases heq
      exact absurd rfl hne
    · exact hold

/-- A worker formats the message that it has checked. -/
private theorem Texts.format (h : Texts env s) {w : ℕ}
    {cur : Decoded τ} {level : LogLevel} {filters : List Filter} {sinks : List ℕ}
    {rest : List (Decoded τ)} {text : String} {backend : Backend.State τ}
    (hb : Backend.step env s.backend (.checkFilters w) = some backend)
    (hphase : (backend.workers w).phase = .writing cur level filters sinks rest)
    (hshown : Shown env s w cur.2 text) :
    Texts env { s with backend, formatted := Function.update s.formatted w text } := by
  obtain ⟨-, -, hothers⟩ := of_checkFilters hb
  refine ⟨fun w' cur' level' filters' sinks' rest' hphase' => ?_, fun x hx => ?_, ?_, ?_,
    h.panicked⟩
  · dsimp only at hphase' ⊢
    rcases eq_or_ne w' w with rfl | hne
    · cases hphase.symm.trans hphase'
      rw [Function.update_self]
      exact hshown
    · obtain ⟨sinks₀, hold⟩ := hothers w' hne _ _ _ _ _ hphase'
      rw [Function.update_of_ne hne]
      exact h.formatted w' _ _ _ _ _ hold
  · obtain ⟨hlt, hshown⟩ := h.written x hx
    exact ⟨hlt.trans_le (Backend.started_of_step hb), hshown⟩
  · exact (Backend.sinkCalls_of_step_ne hb fun _ heq => by cases heq).trans h.calls
  · exact h.blank.step hb fun _ heq => by cases heq

/-- A worker writes the text to the next sink, or has written it to all. -/
private theorem Texts.write (h : Texts env s) (hinv : Backend.Inv env s.backend) {w : ℕ}
    {cur : Decoded τ} {level : LogLevel} {filters : List Filter} {sinks : List ℕ}
    {rest : List (Decoded τ)} {backend : Backend.State τ}
    (hb : Backend.step env s.backend (.writeSink w) = some backend)
    (hphase : (s.backend.workers w).phase = .writing cur level filters sinks rest) :
    Texts env { s with
      backend
      written := s.written ++ (sinks.take 1).map (⟨w, cur.2, ·, s.formatted w⟩) } := by
  have hw := started_of_writing hinv hphase
  refine ⟨fun w' cur' level' filters' sinks' rest' hphase' => ?_, fun x hx => ?_, ?_, ?_,
    h.panicked⟩
  · rcases Backend.writing_of_step hb hphase' with heq | ⟨sinks₀, hold⟩
    · cases heq
    · exact h.formatted w' _ _ _ _ _ hold
  · rcases List.mem_append.mp hx with hx | hx
    · obtain ⟨hlt, hshown⟩ := h.written x hx
      exact ⟨hlt.trans_le (Backend.started_of_step hb), hshown⟩
    · obtain ⟨sink, -, rfl⟩ := List.mem_map.mp hx
      exact ⟨hw.trans_le (Backend.started_of_step hb), h.formatted w _ _ _ _ _ hphase⟩
  · have hcalls : backend.sinkCalls = s.backend.sinkCalls ++
        (sinks.take 1).map fun sink => .write w cur.2 sink "" := by
      simp only [Backend.step, if_pos hw, Backend.workerStep, hphase] at hb
      cases sinks with
      | nil =>
        cases hb
        simp [Backend.State.finish, Backend.State.setPhase]
      | cons sink sinks =>
        cases hb
        simp [h.blank w]
    simp only [hcalls, h.calls, List.map_append, List.map_map]
    rfl
  · exact h.blank.step hb fun _ heq => by cases heq

/-- Every step keeps what holds of the texts. -/
theorem Texts.step (h : Texts env s)
    (hclosed : ∀ ptr, beforeUnclosed (env.metas ptr).formatStr.toList = [])
    (hstaged : Staged env types s) (hinv : Backend.Inv env s.backend)
    (hwrites : Backend.AcceptedWrites s.backend) (hs : step env s e = some s') :
    Texts env s' := by
  cases step_effect hs with
  | check hidle hb hcalling hp =>
    exact h.of_backend hinv hb (fun _ h => by cases h) (fun _ h => by cases h)
      (fun _ h => by cases h) rfl (fun _ h => h) (fun _ _ => rfl) ⟨rfl, rfl, rfl⟩
  | advance =>
    exact ⟨h.formatted, h.written, h.calls, h.blank, h.panicked⟩
  | push hp hphase hb =>
    exact h.of_backend hinv hb (fun _ h => by cases h) (fun _ h => by cases h)
      (fun _ h => by cases h) rfl (fun _ h => List.mem_append_left _ h) (fun _ _ => rfl)
      ⟨rfl, rfl, rfl⟩
  | start hb =>
    exact h.of_backend hinv hb (fun _ h => by cases h) (fun _ h => by cases h)
      (fun _ h => by cases h; rfl) rfl (fun _ h => h)
      (fun _ hlt => Function.update_of_ne (Nat.ne_of_lt hlt) ..) ⟨rfl, rfl, rfl⟩
  | @format w cur level filters sinks rest text backend hb hphase htext =>
    obtain ⟨hw, hold, -⟩ := of_checkFilters hb
    have hfiltering := hold _ _ _ _ _ hphase
    obtain ⟨text', htext', hshown⟩ := format_shown hclosed hstaged hinv hwrites cur hw
      (by rw [hfiltering]; exact List.mem_cons_self)
      (by rw [hfiltering]; exact List.mem_cons_self)
    cases htext.symm.trans htext'
    exact h.format hb hphase hshown
  | @panic w cur level filters sinks rest backend hb hphase hnone =>
    obtain ⟨hw, hold, -⟩ := of_checkFilters hb
    have hfiltering := hold _ _ _ _ _ hphase
    obtain ⟨text', htext', -⟩ := format_shown hclosed hstaged hinv hwrites cur hw
      (by rw [hfiltering]; exact List.mem_cons_self)
      (by rw [hfiltering]; exact List.mem_cons_self)
    cases hnone.symm.trans htext'
  | @refuse w backend hb hphase =>
    obtain ⟨-, -, hothers⟩ := of_checkFilters hb
    refine ⟨fun w' cur' level' filters' sinks' rest' hphase' => ?_, fun x hx => ?_, ?_, ?_,
      h.panicked⟩
    · have hne : w' ≠ w := by
        rintro rfl
        exact hphase _ _ _ _ _ hphase'
      obtain ⟨sinks₀, hold⟩ := hothers w' hne _ _ _ _ _ hphase'
      exact h.formatted w' _ _ _ _ _ hold
    · obtain ⟨hlt, hshown⟩ := h.written x hx
      exact ⟨hlt.trans_le (Backend.started_of_step hb), hshown⟩
    · exact (Backend.sinkCalls_of_step_ne hb fun _ heq => by cases heq).trans h.calls
    · exact h.blank.step hb fun _ heq => by cases heq
  | write hb hphase => exact h.write hinv hb hphase
  | writeDone hb hphase =>
    have hdone := h.write hinv hb hphase
    simpa using hdone
  | @backend e backend hplain hb =>
    refine h.of_backend hinv hb ?_ ?_ ?_ rfl (fun _ h => h) (fun _ _ => rfl) ⟨rfl, rfl, rfl⟩
    · rintro w rfl
      cases hplain
    · rintro w rfl
      cases hplain
    · rintro options rfl
      cases hplain

omit [DecidableEq τ] in
theorem Texts.init (env : Env) (loggers : UInt64 → Logger) :
    Texts env (Pipeline.init loggers : State τ) where
  formatted _ _ _ _ _ _ hphase := by cases hphase
  written _ hx := absurd hx List.not_mem_nil
  calls := rfl
  blank _ _ _ := rfl
  panicked := rfl

theorem texts_of_reach (hclosed : ∀ ptr, beforeUnclosed (env.metas ptr).formatStr.toList = [])
    {loggers : UInt64 → Logger}
    (hrun : Machine.Reach (step env) (Admissible types) (init loggers) s) :
    Staged env types s ∧ Texts env s := by
  induction hrun with
  | refl => exact ⟨.init loggers, .init env loggers⟩
  | step hreach hok hs ih =>
    obtain ⟨hstaged, htexts⟩ := ih
    obtain ⟨hinv, hwrites⟩ := backend_inv_of_reach hreach
    exact ⟨hstaged.step hok hs, htexts.step hclosed hstaged hinv hwrites hs⟩

end

/-- In a run whose calls can be read back, at call sites that close every brace of their format
string: no worker panics while it formats, the texts that have been written are those of the sink
calls of the backend, in that order, and each is what the call of its message would have printed at
once, in the layout of the worker. -/
theorem deferred_eq_immediate (env : Env) (types : UInt64 → List Logged)
    (loggers : UInt64 → Logger) {s : State τ}
    (hclosed : ∀ ptr, beforeUnclosed (env.metas ptr).formatStr.toList = [])
    (hrun : Machine.Reach (step env) (Admissible types) (init loggers) s) :
    s.panicked = false ∧
      Machine.Reach (Backend.step env) (fun _ e => Backend.CapacityOk e) (Backend.init loggers)
        s.backend ∧
      s.backend.sinkCalls = s.written.map Written.call ∧
      ∀ x ∈ s.written, Shown env s x.worker x.raw x.text := by
  obtain ⟨-, htexts⟩ := texts_of_reach hclosed hrun
  exact ⟨htexts.panicked, backend_of_reach hrun, htexts.calls,
    fun x hx => (htexts.written x hx).2⟩

/-- Call sites with one group in their format string. -/
def oneGroup : Env where
  metas _ :=
    { level := .info, formatStr := "n = \x7b\x7d", file := "main.rs", line := 7, modulePath := "" }
  uninit _ _ := 0

def countCall (timestampNs : UInt64) (n : BitVec 8) : Call where
  timestampNs := timestampNs
  metadataPtr := 2
  loggerPtr := 1
  args := [⟨.unsignedInt 1, n⟩]

/-- The message of such a call. -/
def countMessage (t : Bool) (call : Call) (n : UInt8) : Decoded Bool :=
  (call.logCall.header, some t, call.logCall.header.bytes ++ [n])

omit [Calendar] in
theorem readable_countCall (timestampNs : UInt64) (n : BitVec 8) :
    (countCall timestampNs n).Readable fun _ => [.unsignedInt 1] := by
  refine ⟨rfl, fun q hq => ?_, by simp [countCall], ?_⟩
  · obtain rfl := List.mem_singleton.mp hq
    exact ⟨.unsignedInt (by decide), trivial⟩
  · rename_i target _
    obtain ⟨endian, width⟩ := target
    cases endian with
    | little => rfl
    | big => rfl

/-- Two threads go through the macro at one call site at the same time. -/
def bothCall : List (Event Bool) :=
  [.logCheck true (countCall 5 1), .logCheck false (countCall 3 200),
    -- both find the schemas unset and set them
    .advance true, .advance false, .advance true, .advance false,
    -- and the same with the string tables
    .advance false, .advance true, .advance false, .logPush false, .advance true, .logPush true]

/-- A worker has the two messages, in the order of their timestamps. -/
def bothPolled : List (Event Bool) :=
  let registered : List (ThreadContext.Event Bool) :=
    [.access true, .register true, .access false, .register false]
  let started : List (Event Bool) := [.start 1 none, .backend (.loadStop 0 false)]
  let sorted : Event Bool := .backend (.sort 0
    [countMessage false (countCall 3 200) 200, countMessage true (countCall 5 1) 1])
  registered.map (.backend ∘ .thread) ++ bothCall ++ started ++
    (Backend.pollOnce 0 6).map .backend ++ [sorted]

omit [Calendar] in
theorem admissible_bothPolled (s : State Bool) :
    ∀ e ∈ bothPolled, Admissible (fun _ => [.unsignedInt 1]) s e := by
  simp [bothPolled, bothCall, Backend.pollOnce, Admissible, Backend.CapacityOk,
    ThreadContext.CapacityOk, readable_countCall]

private def bothHandled : List (Event Bool) :=
  [.backend (.next 0), .checkFilters 0, .writeSink 0, .writeSink 0, .writeSink 0, .writeSink 0,
    .backend (.next 0), .checkFilters 0, .writeSink 0]

omit [Target] [FloatDisplay] [Calendar] in
/-- Each message shows the number of its own call. -/
theorem deferred_eq_immediate_racing :
    letI : Target := x86_64
    letI : FloatDisplay := noFloats
    letI : Calendar := { fromUnixTimestamp := fun _ => none }
    ∃ s : State Bool, Machine.Reach (step oneGroup) (Admissible fun _ => [.unsignedInt 1])
        (init Backend.twoSinks) s ∧
      s.written.map Written.text = List.replicate 3 "[0.000000003] [Info] main.rs:7 n = 200" ++
        ["[0.000000005] [Info] main.rs:7 n = 1"] ∧
      s.panicked = false ∧
      ∀ x ∈ s.written, Shown oneGroup s x.worker x.raw x.text := by
  let _ : Target := x86_64
  let _ : FloatDisplay := noFloats
  let _ : Calendar := { fromUnixTimestamp := fun _ => none }
  have hrun : ((step oneGroup).run (init Backend.twoSinks) (bothPolled ++ bothHandled)).map
      (fun s => s.written.map Written.text) =
        some (List.replicate 3 "[0.000000003] [Info] main.rs:7 n = 200" ++
          ["[0.000000005] [Info] main.rs:7 n = 1"]) := by
    decide +kernel
  obtain ⟨s, hs, hwritten⟩ := Option.map_eq_some_iff.mp hrun
  have hok : ∀ s, ∀ e ∈ bothPolled ++ bothHandled, Admissible (fun _ => [.unsignedInt 1]) s e := by
    intro s e he
    rcases List.mem_append.mp he with he | he
    · exact admissible_bothPolled s e he
    · have hall : ∀ e ∈ bothHandled, Admissible (fun _ => [.unsignedInt 1]) s e := by
        simp [bothHandled, Admissible, Backend.CapacityOk]
      exact hall e he
  have hreach := Machine.Reach.of_run hok hs
  have hclosed : beforeUnclosed "n = \x7b\x7d".toList = [] := by decide +kernel
  obtain ⟨hpanicked, -, -, hshown⟩ :=
    deferred_eq_immediate oneGroup _ Backend.twoSinks (fun _ => hclosed) hreach
  exact ⟨s, hreach, hwritten, hpanicked, hshown⟩

end Pipeline

end RapidLog
