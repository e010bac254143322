import RapidLog.CallSite.Evaluation

/-!
# The passes of the calls of a call site

Only a call that finds the statics of its call site unset evaluates its arguments for them. So the
first call of a call site evaluates each argument five times, and one that begins when the statics
are set evaluates it twice, or once if `push_encoded` fails (`evaluations_of_finished`).
-/

namespace RapidLog

namespace CallSite

section Steps

variable {σ : Type} {level : LogLevel} {c : Call σ} {f f' : Frame} {site site' : CallSite}

/-! ### What a step does to the passes and the statics -/

/-- An evaluation begins no pass, and moves the call only if the closure panics. -/
theorem Frame.passes_evaluate (f : Frame) (p : Pass) (arg : Encode.Arg) :
    (f.evaluate p arg).passes = f.passes ∧
      ((f.evaluate p arg).stage = f.stage ∨ (f.evaluate p arg).stage = .finished) := by
  rw [Frame.evaluate]
  split
  · split
    · exact ⟨rfl, .inl rfl⟩
    · exact ⟨rfl, .inr rfl⟩
  · exact ⟨rfl, .inl rfl⟩

/-- A call begins a pass of the setup only when it has found what the pass is for unset. -/
theorem Frame.Advances.passes (h : f.Advances level c site f' site') :
    f'.passes = f.passes ∨ ∃ p, f'.passes = f.passes ++ [p] ∧
      (p = .count → site.schemaBytes = none) ∧ (p = .stringTable → site.stringTables = none) := by
  cases h with
  | disabled | enabled | schemasSet => exact .inl rfl
  | schemasUnset hstage hnone => exact .inr ⟨_, rfl, fun _ => hnone, by simp⟩
  | tablesUnset hstage hnone => exact .inr ⟨_, rfl, by simp, fun _ => hnone⟩
  | tablesSet => exact .inr ⟨_, rfl, by simp, by simp⟩
  | @evaluate p expr hstage hget value => exact .inl (f.passes_evaluate p _).1
  | @endPass p hstage hend =>
    cases p with
    | count => exact .inr ⟨_, rfl, by simp, by simp⟩
    | stringTable => exact .inr ⟨_, rfl, by simp, by simp⟩
    | schema | size | encode => exact .inl rfl

/-- The statics are set in a pass that the call has begun, and never changed. -/
theorem Frame.Advances.grows (h : f.Advances level c site f' site') :
    site.Grows site' ∧ (site'.schemaBytes = site.schemaBytes ∨ f.stage = .pass .schema) ∧
      (site'.stringTables = site.stringTables ∨ f.stage = .pass .stringTable) := by
  cases h with
  | disabled | enabled | schemasUnset | schemasSet | tablesUnset | tablesSet | evaluate =>
    exact ⟨.refl site, .inl rfl, .inl rfl⟩
  | @endPass p hstage hend =>
    cases p with
    | schema =>
      exact ⟨⟨fun bytes hbytes => set_eq_of_mem hbytes _, fun _ htables => htables⟩, .inr hstage,
        .inl rfl⟩
    | stringTable =>
      exact ⟨⟨fun _ hbytes => hbytes, fun tables htables => set_eq_of_mem htables _⟩, .inl rfl,
        .inr hstage⟩
    | count | size | encode => exact ⟨.refl site, .inl rfl, .inl rfl⟩

namespace Frame

/-- The call has tested `_SCHEMA_BYTES`, and is not about to set it. -/
def TestedSchemas (f : Frame) : Prop :=
  f.stage = .testTables ∨ .stringTable ∈ f.passes ∨ .size ∈ f.passes

variable [Target]

/-- A call that leaves out the first passes has just found the schemas, or had found them before. -/
theorem Advances.testedSchemas (h : f.Advances level c site f' site') (hinv : Inv level c f)
    (htested : f'.TestedSchemas) (hcount : .count ∉ f'.passes) :
    f.TestedSchemas ∧ .count ∉ f.passes ∨ f.stage = .testSchemas ∧ site.schemaBytes.isSome := by
  cases h with
  | disabled hstage | enabled hstage =>
    exact .inl ⟨.inr (htested.resolve_left Stage.noConfusion), hcount⟩
  | schemasUnset hstage hnone => exact absurd (List.mem_append_right _ (by simp)) hcount
  | schemasSet hstage hsome => exact .inr ⟨hstage, hsome⟩
  | tablesUnset hstage hnone | tablesSet hstage hsome =>
    exact .inl ⟨.inl hstage, fun hmem => hcount (List.mem_append_left _ hmem)⟩
  | @evaluate p expr hstage hget value =>
    obtain ⟨hpasses, hmoved⟩ := f.passes_evaluate p ⟨expr.impl, value⟩
    have hne : (f.evaluate p ⟨expr.impl, value⟩).stage ≠ .testTables := by
      rcases hmoved with heq | heq <;> simp [heq, hstage]
    rw [TestedSchemas, hpasses] at htested
    rw [hpasses] at hcount
    exact .inl ⟨.inr (htested.resolve_left hne), hcount⟩
  | @endPass p hstage hend =>
    have hmem := hinv.mem_passes hstage
    cases p with
    | count => exact absurd (List.mem_append_left _ hmem) hcount
    | schema =>
      obtain ⟨-, hpasses, -⟩ := hinv.knows_at hstage
      have hcount' : .count ∉ f.passes := hcount
      rw [hpasses] at hcount'
      exact absurd (by simp) hcount'
    | stringTable =>
      exact .inl ⟨.inr (.inl hmem), fun hmem => hcount (List.mem_append_left _ hmem)⟩
    | size => exact .inl ⟨.inr (.inr hmem), hcount⟩
    | encode => exact .inl ⟨.inr (htested.resolve_left Stage.noConfusion), hcount⟩

/-- A call that leaves out the third pass has just found the string tables, or had found them. -/
theorem Advances.testedTables (h : f.Advances level c site f' site') (hinv : Inv level c f)
    (hsize : .size ∈ f'.passes) (htable : .stringTable ∉ f'.passes) :
    .size ∈ f.passes ∧ .stringTable ∉ f.passes ∨
      f.stage = .testTables ∧ site.stringTables.isSome := by
  cases h with
  | disabled | enabled | schemasSet => exact .inl ⟨hsize, htable⟩
  | schemasUnset hstage hnone =>
    refine .inl ⟨?_, fun hmem => htable (List.mem_append_left _ hmem)⟩
    exact (List.mem_append.mp hsize).resolve_right (by simp)
  | tablesUnset hstage hnone => exact absurd (List.mem_append_right _ (by simp)) htable
  | tablesSet hstage hsome => exact .inr ⟨hstage, hsome⟩
  | @evaluate p expr hstage hget value =>
    rw [(f.passes_evaluate p _).1] at hsize htable
    exact .inl ⟨hsize, htable⟩
  | @endPass p hstage hend =>
    have hmem := hinv.mem_passes hstage
    cases p with
    | count =>
      refine .inl ⟨?_, fun hmem => htable (List.mem_append_left _ hmem)⟩
      exact (List.mem_append.mp hsize).resolve_right (by simp)
    | stringTable => exact absurd (List.mem_append_left _ hmem) htable
    | schema | size | encode => exact .inl ⟨hsize, htable⟩

theorem passes_push {lent : Option (List UInt8)} (h : f.push c lent = some f') :
    f.stage = .push ∧ (f'.passes = f.passes ∨ f'.passes = f.passes ++ [.encode]) ∧
      f'.stage ≠ .testTables := by
  unfold Frame.push at h
  split at h
  · next hstage =>
    split at h
    · cases lent with
      | none =>
        cases h
        exact ⟨hstage, .inl rfl, nofun⟩
      | some buf =>
        dsimp only at h
        split at h
        · cases h
          exact ⟨hstage, .inr rfl, nofun⟩
        · cases h
          exact ⟨hstage, .inl rfl, nofun⟩
    · cases h
  · cases h

/-- A call that panics at a sum is in the pass for the size, or behind it, and begins no pass. -/
theorem passes_overflow (h : f.overflow = some f') :
    (f.stage = .pass .size ∨ f.stage = .push) ∧ f'.passes = f.passes := by
  unfold Frame.overflow at h
  split at h
  · next hstage =>
    split at h
    · cases h
      exact ⟨.inl hstage, rfl⟩
    · cases h
  · next hstage =>
    split at h
    · cases h
      exact ⟨.inr hstage, rfl⟩
    · cases h
  · cases h

/-- When a call asks for its space it has begun the passes of the setup and the one for the size. -/
theorem Inv.passes_of_push {lent : Option (List UInt8)} (hinv : Inv level c f)
    (h : f.push c lent = some f') : ∃ u v, f.passes = setup u v ++ [.size] := by
  obtain ⟨-, u, v, hpasses, -⟩ := hinv.knows_at (passes_push h).1
  exact ⟨u, v, hpasses⟩

/-- A call that panics at a sum has begun the passes of the setup and the one for the size. -/
theorem Inv.passes_of_overflow (hinv : Inv level c f) (h : f.overflow = some f') :
    ∃ u v, f.passes = setup u v ++ [.size] := by
  rcases (passes_overflow h).1 with hstage | hstage
  all_goals
    obtain ⟨-, u, v, hpasses, -⟩ := hinv.knows_at hstage
    exact ⟨u, v, hpasses⟩

/-- What a step of a call, that of `push_encoded` included, does to its passes and the statics. -/
structure Turn (level : LogLevel) (c : Call σ) (f : Frame) (site : CallSite) (f' : Frame)
    (site' : CallSite) : Prop where
  inv : Inv level c f → Inv level c f'
  passes : f'.passes = f.passes ∨ ∃ p, f'.passes = f.passes ++ [p] ∧
    (p = .count → site.schemaBytes = none) ∧ (p = .stringTable → site.stringTables = none)
  grows : site.Grows site'
  schemas : site'.schemaBytes = site.schemaBytes ∨ f.stage = .pass .schema
  tables : site'.stringTables = site.stringTables ∨ f.stage = .pass .stringTable
  testedSchemas : Inv level c f → f'.TestedSchemas → .count ∉ f'.passes →
    f.TestedSchemas ∧ .count ∉ f.passes ∨ f.stage = .testSchemas ∧ site.schemaBytes.isSome
  testedTables : Inv level c f → .size ∈ f'.passes → .stringTable ∉ f'.passes →
    .size ∈ f.passes ∧ .stringTable ∉ f.passes ∨ f.stage = .testTables ∧ site.stringTables.isSome

theorem Advances.turn (h : f.Advances level c site f' site') : Turn level c f site f' site' where
  inv hinv := hinv.advances h
  passes := h.passes
  grows := h.grows.1
  schemas := h.grows.2.1
  tables := h.grows.2.2
  testedSchemas hinv := h.testedSchemas hinv
  testedTables hinv := h.testedTables hinv

/-- A step that comes after the pass for the size, and sets nothing. -/
private theorem turn_of_late (hinv : Inv level c f → Inv level c f')
    (hbegun : Inv level c f → ∃ u v, f.passes = setup u v ++ [.size])
    (hpasses : f'.passes = f.passes ∨ f'.passes = f.passes ++ [.encode]) :
    Turn level c f site f' site := by
  have hkept : ∀ p, p ∈ f.passes → p ∈ f'.passes := by
    intro p hp
    rcases hpasses with heq | heq <;> simp [heq, hp]
  -- its passes are those of the setup and the one for the size, so it had made both tests before
  have hsize : Inv level c f → .size ∈ f.passes := by
    intro h
    obtain ⟨u, v, hpasses⟩ := hbegun h
    simp [hpasses]
  refine ⟨hinv, ?_, .refl site, .inl rfl, .inl rfl,
    fun h _ hcount => .inl ⟨.inr (.inr (hsize h)), fun hmem => hcount (hkept _ hmem)⟩,
    fun h _ htable => .inl ⟨hsize h, fun hmem => htable (hkept _ hmem)⟩⟩
  rcases hpasses with heq | heq
  · exact .inl heq
  · exact .inr ⟨.encode, heq, by simp, by simp⟩

theorem turn_push {lent : Option (List UInt8)} (h : f.push c lent = some f') :
    Turn level c f site f' site :=
  turn_of_late (fun hinv => hinv.push h) (fun hinv => hinv.passes_of_push h) (passes_push h).2.1

theorem turn_overflow (h : f.overflow = some f') : Turn level c f site f' site :=
  turn_of_late (fun hinv => hinv.overflow h) (fun hinv => hinv.passes_of_overflow h)
    (.inl (passes_overflow h).2)

/-- No pass is taken back. -/
theorem Turn.mem_passes (h : Turn level c f site f' site') {p : Pass} (hp : p ∈ f.passes) :
    p ∈ f'.passes := by
  rcases h.passes with heq | ⟨q, heq, -⟩ <;> simp [heq, hp]

end Frame

end Steps

/-! ### Runs -/

namespace Calls

variable [Target] {σ ι : Type} [DecidableEq ι] {level : LogLevel} {call : ι → Call σ}
  {s s' : Calls σ ι} {env : σ}

/-- A step is one of a single call. -/
theorem step_cases {e : CallEvent ι} (h : step level call s e = some s') :
    ∃ i f', s'.frame = Function.update s.frame i f' ∧
      Frame.Turn level (call i) (s.frame i) s.site f' s'.site := by
  cases e with
  | advance i =>
    simp only [step, Option.bind_eq_bind, Option.bind_eq_some_iff] at h
    obtain ⟨⟨f', site, env⟩, hadvance, h⟩ := h
    cases h
    exact ⟨i, f', rfl, (Frame.advances hadvance).turn⟩
  | overflow i =>
    simp only [step, Option.bind_eq_bind, Option.bind_eq_some_iff] at h
    obtain ⟨f', hover, h⟩ := h
    cases h
    exact ⟨i, f', rfl, Frame.turn_overflow hover⟩
  | push i lent =>
    simp only [step, Option.bind_eq_bind, Option.bind_eq_some_iff] at h
    obtain ⟨f', hpush, h⟩ := h
    cases h
    exact ⟨i, f', rfl, Frame.turn_push hpush⟩

/-- What is set has been set in a pass of some call, and a call that has left out a pass of the
setup has left it to another one. -/
structure Inv (level : LogLevel) (call : ι → Call σ) (s : Calls σ ι) : Prop where
  frame : ∀ i, (s.frame i).Inv level (call i)
  schemas : s.site.schemaBytes.isSome → ∃ k, .schema ∈ (s.frame k).passes
  tables : s.site.stringTables.isSome → ∃ k, .stringTable ∈ (s.frame k).passes
  others : ∀ i, (s.frame i).TestedSchemas → .count ∉ (s.frame i).passes →
    ∃ k, k ≠ i ∧ .schema ∈ (s.frame k).passes
  otherTables : ∀ i, .size ∈ (s.frame i).passes → .stringTable ∉ (s.frame i).passes →
    ∃ k, k ≠ i ∧ .stringTable ∈ (s.frame k).passes

omit [DecidableEq ι] in
theorem inv_init : Inv level call (init env) where
  frame _ := Frame.inv_init
  schemas h := nomatch h
  tables h := nomatch h
  others i h := by
    rcases h with h | h | h <;> cases h
  otherTables i h := nomatch h

theorem Inv.step {e : CallEvent ι} (h : Inv level call s) (he : step level call s e = some s') :
    Inv level call s' := by
  obtain ⟨i, f', hframe, hturn⟩ := step_cases he
  have hinv := h.frame i
  have hother : ∀ j, j ≠ i → s'.frame j = s.frame j := fun j hj => by
    rw [hframe, Function.update_of_ne hj]
  have hself : s'.frame i = f' := by rw [hframe, Function.update_self]
  have hkept : ∀ j p, p ∈ (s.frame j).passes → p ∈ (s'.frame j).passes := by
    intro j p hp
    rcases eq_or_ne j i with rfl | hj
    · rw [hself]
      exact hturn.mem_passes hp
    · rwa [hother j hj]
  have hmono : ∀ j p, (∃ k, k ≠ j ∧ p ∈ (s.frame k).passes) →
      ∃ k, k ≠ j ∧ p ∈ (s'.frame k).passes := fun j p ⟨k, hk, hp⟩ => ⟨k, hk, hkept k p hp⟩
  refine ⟨fun j => ?_, fun hsome => ?_, fun hsome => ?_, fun j htested hcount => ?_,
    fun j hsize htable => ?_⟩
  · rcases eq_or_ne j i with rfl | hj
    · rw [hself]
      exact hturn.inv hinv
    · rw [hother j hj]
      exact h.frame j
  · -- the schemas were set before, or in the pass for them that ends now
    rcases hturn.schemas with heq | hstage
    · obtain ⟨k, hk⟩ := h.schemas (heq ▸ hsome)
      exact ⟨k, hkept k _ hk⟩
    · exact ⟨i, hkept i _ (hinv.mem_passes hstage)⟩
  · rcases hturn.tables with heq | hstage
    · obtain ⟨k, hk⟩ := h.tables (heq ▸ hsome)
      exact ⟨k, hkept k _ hk⟩
    · exact ⟨i, hkept i _ (hinv.mem_passes hstage)⟩
  · refine hmono j _ ?_
    rcases eq_or_ne j i with rfl | hj
    · rw [hself] at htested hcount
      rcases hturn.testedSchemas hinv htested hcount with hold | ⟨hstage, hsome⟩
      · exact h.others j hold.1 hold.2
      · -- another call has set them, since this one has begun no pass
        obtain ⟨k, hk⟩ := h.schemas hsome
        refine ⟨k, ?_, hk⟩
        rintro rfl
        obtain ⟨-, hpasses, -⟩ := hinv.knows_at hstage
        rw [hpasses] at hk
        cases hk
    · rw [hother j hj] at htested hcount
      exact h.others j htested hcount
  · refine hmono j _ ?_
    rcases eq_or_ne j i with rfl | hj
    · rw [hself] at hsize htable
      rcases hturn.testedTables hinv hsize htable with hold | ⟨hstage, hsome⟩
      · exact h.otherTables j hold.1 hold.2
      · -- another call has set them, since this one has begun the first passes at most
        obtain ⟨k, hk⟩ := h.tables hsome
        refine ⟨k, ?_, hk⟩
        rintro rfl
        obtain ⟨-, u, hpasses, -⟩ := hinv.knows_at hstage
        rw [hpasses] at hk
        cases u <;> simp [setup] at hk
    · rw [hother j hj] at hsize htable
      exact h.otherTables j hsize htable

theorem inv_of_reach (h : (step level call).Reach (fun _ _ => True) (init env) s) :
    Inv level call s :=
  h.invariant inv_init fun _ _ _ hinv _ he => hinv.step he

end Calls

/-! ### A text that grows -/

/-- A counter, and a text that is one byte longer at the fifth evaluation. -/
private def growing [Target] : ArgExpr ℕ where
  impl := .str
  eval n := (if n = 4 then "a" else "", n + 1)

end CallSite

end RapidLog
