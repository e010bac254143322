import RapidLog.CallSite
import RapidLog.Lib.Memo
import RapidLog.Lib.Simulation

/-!
# The table of schema offsets

`get_schemas` keeps the offsets that it has parsed in `OFFSETS`, by the address of the schema block.
An address stays good only as long as the block does. The blocks of the call sites are never freed
once they are set, but a thread that loses the race for a static drops its own, and the next block
may be put at the same address.

`step` is the machine of the call sites with addresses and with the table, `plainStep` the one that
has the blocks in the statics and parses the offsets on every call, as `getSchemas` does.

## Main results

* `offsets_transparent`: whatever the first does, the second does, with the same results.
-/

namespace RapidLog

namespace OffsetCache

variable {ι τ : Type}

/-- Where a thread stands in setting `_SCHEMA_BYTES` of a call site. -/
inductive Thread (ι : Type)
  | idle
  /-- Has found the static unset. -/
  | unset (i : ι)
  /-- Has collected the schemas, in a block at this address, and is about to set the static. -/
  | built (i : ι) (ptr : UInt64)

/-- What a call of `get_schemas` returns; `none` when it panics. -/
abbrev Result := Option (Option (List (ℕ × ℕ)))

structure State (ι τ : Type) where
  /-- The schema blocks that have not been freed. Other memory of the program only takes addresses
  away. -/
  memory : UInt64 → Option (List UInt8)
  /-- The address of the block in `_SCHEMA_BYTES` of each call site. -/
  statics : ι → Option UInt64
  threads : τ → Thread ι
  /-- `OFFSETS` -/
  offsets : UInt64 → Option (List (ℕ × ℕ))
  /-- The calls of `get_schemas`, in their order. -/
  results : List (ι × Result)
  /-- A block has been read after it was freed. -/
  faulted : Bool

inductive Event (ι τ : Type)
  /-- `_SCHEMA_BYTES.get().is_none()` -/
  | test (t : τ) (i : ι)
  /-- The thread collects the schemas; the allocator puts the block at `ptr`. -/
  | build (t : τ) (bytes : List UInt8) (ptr : UInt64)
  | set (t : τ)
  /-- Some worker calls `get_schemas` with the metadata of the call site. -/
  | getSchemas (i : ι)

def init : State ι τ where
  memory _ := none
  statics _ := none
  threads _ := .idle
  offsets _ := none
  results := []
  faulted := false

section Step

variable [Target]

/-- `parse_schema_offsets(raw, arg_count, true)` -/
def parse (raw : List UInt8) : Option (List (ℕ × ℕ)) :=
  parseSchemaOffsets raw (raw.headD 0).toNat 1

namespace State

def returned (s : State ι τ) (i : ι) (result : Result) : State ι τ :=
  { s with results := s.results ++ [(i, result)] }

/-- `get_schemas`. The table is locked from the look-up to the insertion. -/
def getSchemas (s : State ι τ) (i : ι) : State ι τ :=
  match s.statics i with
  -- the provider returns an empty slice
  | none => s.returned i (some none)
  | some ptr =>
    match s.memory ptr with
    | none => { s with faulted := true }
    | some raw =>
      if raw.headD 0 = 0 then s.returned i (some none)
      else
        let (offsets, table) := Memo.getOrInsert parse s.offsets ptr raw
        { s.returned i (offsets.map some) with offsets := table }

end State

variable [DecidableEq ι] [DecidableEq τ]

def step : Machine (State ι τ) (Event ι τ)
  | s, .test t i =>
    match s.threads t with
    | .idle =>
      let thread := if (s.statics i).isNone then .unset i else .idle
      some { s with threads := Function.update s.threads t thread }
    | _ => none
  | s, .build t bytes ptr =>
    match s.threads t with
    | .unset i =>
      -- the allocator hands out no address that is in use
      if s.memory ptr = none then
        some
          { s with
            memory := Function.update s.memory ptr (some bytes)
            threads := Function.update s.threads t (.built i ptr) }
      else none
    | _ => none
  | s, .set t =>
    match s.threads t with
    | .built i ptr =>
      let threads := Function.update s.threads t .idle
      match s.statics i with
      | none => some { s with statics := Function.update s.statics i (some ptr), threads }
      -- `set` returns the block as an error, and `let _` drops it
      | some _ => some { s with memory := Function.update s.memory ptr none, threads }
    | _ => none
  | s, .getSchemas i => some (s.getSchemas i)

/-! ### Without addresses -/

structure PlainState (ι : Type) where
  sites : ι → CallSite
  results : List (ι × Result)

inductive PlainEvent (ι : Type)
  | set (i : ι) (bytes : List UInt8)
  | getSchemas (i : ι)

omit [DecidableEq τ] in
def plainInit : PlainState ι where
  sites _ := {}
  results := []

def plainStep : Machine (PlainState ι) (PlainEvent ι)
  | s, .set i bytes =>
    let site : CallSite :=
      { s.sites i with schemaBytes := OnceLock.set (s.sites i).schemaBytes bytes }
    some { s with sites := Function.update s.sites i site }
  | s, .getSchemas i =>
    some { s with results := s.results ++ [(i, RapidLog.getSchemas (s.sites i).provided)] }

/-- The blocks in the place of their addresses. -/
def State.plain (s : State ι τ) : PlainState ι where
  sites i := { schemaBytes := (s.statics i).bind s.memory }
  results := s.results

/-! ### The invariant -/

/-- The address is that of a block that a call site has set. -/
def State.Installed (s : State ι τ) (ptr : UInt64) (raw : List UInt8) : Prop :=
  (∃ i, s.statics i = some ptr) ∧ s.memory ptr = some raw

/-- What holds between any two steps. -/
structure Inv (s : State ι τ) : Prop where
  live : ∀ i ptr, s.statics i = some ptr → (s.memory ptr).isSome
  /-- A block that a thread is about to set is its own. -/
  built : ∀ t i ptr, s.threads t = .built i ptr → (s.memory ptr).isSome ∧
    (∀ j, s.statics j ≠ some ptr) ∧ ∀ t' j, s.threads t' = .built j ptr → t' = t
  table : Memo.Sound parse s.Installed s.offsets
  faulted : s.faulted = false

namespace Inv

variable {s s' : State ι τ} {t : τ} {i : ι} {ptr : UInt64} {bytes : List UInt8}

omit [DecidableEq ι] [DecidableEq τ] in
theorem init : Inv (init : State ι τ) where
  live _ _ h := by cases h
  built _ _ _ h := by cases h
  table := Memo.sound_empty _ _
  faulted := rfl

omit [Target] [DecidableEq ι] in
/-- A thread that has a block, after another one has moved to a stage without one. -/
private theorem built_of_update {threads : τ → Thread ι} {thread : Thread ι} {t' : τ}
    (hthread : ∀ i ptr, thread ≠ .built i ptr)
    (h : Function.update threads t thread t' = .built i ptr) :
    t' ≠ t ∧ threads t' = .built i ptr := by
  rcases eq_or_ne t' t with rfl | hne
  · rw [Function.update_self] at h
    exact absurd h (hthread i ptr)
  · rw [Function.update_of_ne hne] at h
    exact ⟨hne, h⟩

omit [DecidableEq ι] in
/-- A thread that has no block now. -/
theorem setThread (h : Inv s) {thread : Thread ι} (hthread : ∀ i ptr, thread ≠ .built i ptr) :
    Inv { s with threads := Function.update s.threads t thread } where
  live := h.live
  built := by
    intro t' i ptr ht'
    obtain ⟨hlive, hstatics, hunique⟩ := h.built t' i ptr (built_of_update hthread ht').2
    exact ⟨hlive, hstatics, fun t'' j ht'' => hunique t'' j (built_of_update hthread ht'').2⟩
  table := h.table
  faulted := h.faulted

omit [DecidableEq ι] [DecidableEq τ] in
/-- The block of a call site does not stand at a free address. -/
theorem static_ne_of_free (h : Inv s) (hfree : s.memory ptr = none) {other : UInt64}
    (hother : s.statics i = some other) : other ≠ ptr := by
  rintro rfl
  have hlive := h.live i other hother
  rw [hfree] at hlive
  cases hlive

omit [DecidableEq ι] [DecidableEq τ] in
/-- Nor where a thread has its own. -/
theorem static_ne_of_built (h : Inv s) (ht : s.threads t = .built i ptr) {j : ι} {other : UInt64}
    (hother : s.statics j = some other) : other ≠ ptr := by
  rintro rfl
  exact (h.built t i other ht).2.1 j hother

omit [DecidableEq ι] [DecidableEq τ] in
/-- The entries of the table stay good as long as the call sites keep their blocks. -/
private theorem table_of_kept (h : Inv s) (hkept : ∀ i ptr, s.statics i = some ptr →
    s'.statics i = some ptr ∧ s'.memory ptr = s.memory ptr) :
    Memo.Sound parse s'.Installed s.offsets := by
  refine h.table.mono fun ptr raw => ?_
  rintro ⟨⟨i, hi⟩, hraw⟩
  obtain ⟨hstatic, hmemory⟩ := hkept i ptr hi
  exact ⟨⟨i, hstatic⟩, hmemory.trans hraw⟩

omit [DecidableEq ι] in
/-- A thread has built its block, at an address that was free. -/
theorem build (h : Inv s) (hfree : s.memory ptr = none) :
    Inv { s with
      memory := Function.update s.memory ptr (some bytes)
      threads := Function.update s.threads t (.built i ptr) } := by
  have hstatics : ∀ j other, s.statics j = some other →
      Function.update s.memory ptr (some bytes) other = s.memory other :=
    fun j other hj => Function.update_of_ne (h.static_ne_of_free hfree hj) _ _
  have hothers : ∀ t' j other, s.threads t' = .built j other → other ≠ ptr := by
    rintro t' j other ht' rfl
    have hlive := (h.built t' j other ht').1
    rw [hfree] at hlive
    cases hlive
  refine ⟨fun j other hj => ?_, fun t' j other ht' => ?_, ?_, h.faulted⟩
  · dsimp only
    rw [hstatics j other hj]
    exact h.live j other hj
  · dsimp only at ht' ⊢
    rcases eq_or_ne t' t with rfl | hne
    · rw [Function.update_self] at ht'
      cases ht'
      refine ⟨by rw [Function.update_self]; rfl, fun j hj => h.static_ne_of_free hfree hj rfl,
        fun t'' j ht'' => ?_⟩
      by_contra hne
      rw [Function.update_of_ne hne] at ht''
      exact hothers t'' j ptr ht'' rfl
    · rw [Function.update_of_ne hne] at ht'
      obtain ⟨hlive, hapart, hunique⟩ := h.built t' j other ht'
      refine ⟨by rwa [Function.update_of_ne (hothers t' j other ht')], hapart,
        fun t'' j' ht'' => ?_⟩
      rcases eq_or_ne t'' t with rfl | hne'
      · -- the new block is not the one of `t'`
        rw [Function.update_self] at ht''
        cases ht''
        exact absurd rfl (hothers t' j ptr ht')
      · rw [Function.update_of_ne hne'] at ht''
        exact hunique t'' j' ht''
  · exact h.table_of_kept fun j other hj => ⟨hj, hstatics j other hj⟩

/-- The block of a thread becomes that of the call site. -/
theorem install (h : Inv s) (ht : s.threads t = .built i ptr) (hunset : s.statics i = none) :
    Inv { s with
      statics := Function.update s.statics i (some ptr)
      threads := Function.update s.threads t .idle } := by
  obtain ⟨hlive, -, hunique⟩ := h.built t i ptr ht
  refine ⟨fun j other hj => ?_, fun t' j other ht' => ?_, ?_, h.faulted⟩
  · dsimp only at hj
    rcases eq_or_ne j i with rfl | hne
    · rw [Function.update_self] at hj
      cases hj
      exact hlive
    · rw [Function.update_of_ne hne] at hj
      exact h.live j other hj
  · obtain ⟨hne, hbuilt⟩ := built_of_update (by simp) ht'
    obtain ⟨hlive', hapart, hunique'⟩ := h.built t' j other hbuilt
    refine ⟨hlive', fun k hk => ?_, fun t'' j' ht'' =>
      hunique' t'' j' (built_of_update (by simp) ht'').2⟩
    dsimp only at hk
    rcases eq_or_ne k i with rfl | hki
    · -- the block of another thread stands at another address
      rw [Function.update_self] at hk
      cases hk
      exact hne (hunique t' j hbuilt)
    · rw [Function.update_of_ne hki] at hk
      exact hapart k hk
  · refine h.table_of_kept fun j other hj => ⟨?_, rfl⟩
    have hne : j ≠ i := by
      rintro rfl
      cases hunset.symm.trans hj
    dsimp only
    rwa [Function.update_of_ne hne]

omit [DecidableEq ι] in
/-- The static was set before, and the thread drops its block. -/
theorem discard (h : Inv s) (ht : s.threads t = .built i ptr) :
    Inv { s with
      memory := Function.update s.memory ptr none
      threads := Function.update s.threads t .idle } := by
  obtain ⟨-, -, hunique⟩ := h.built t i ptr ht
  have hstatics : ∀ j other, s.statics j = some other →
      Function.update s.memory ptr none other = s.memory other :=
    fun j other hj => Function.update_of_ne (h.static_ne_of_built ht hj) _ _
  refine ⟨fun j other hj => ?_, fun t' j other ht' => ?_, ?_, h.faulted⟩
  · dsimp only
    rw [hstatics j other hj]
    exact h.live j other hj
  · obtain ⟨hne, hbuilt⟩ := built_of_update (by simp) ht'
    obtain ⟨hlive', hapart, hunique'⟩ := h.built t' j other hbuilt
    -- what is dropped is not the block of another thread
    have hother : other ≠ ptr := by
      rintro rfl
      exact hne (hunique t' j hbuilt)
    refine ⟨?_, hapart, fun t'' j' ht'' => hunique' t'' j' (built_of_update (by simp) ht'').2⟩
    dsimp only
    rwa [Function.update_of_ne hother]
  · exact h.table_of_kept fun j other hj => ⟨hj, hstatics j other hj⟩

omit [DecidableEq ι] [DecidableEq τ] in
/-- A call of `get_schemas` returns what it would without the table. -/
theorem getSchemas (h : Inv s) (i : ι) : Inv (s.getSchemas i) ∧
    (s.getSchemas i).plain =
      { s.plain with
        results := s.results ++ [(i, RapidLog.getSchemas (s.plain.sites i).provided)] } := by
  unfold State.getSchemas
  cases hstatic : s.statics i with
  | none =>
    refine ⟨⟨h.live, h.built, h.table, h.faulted⟩, ?_⟩
    simp [State.plain, State.returned, hstatic, CallSite.provided, RapidLog.getSchemas]
  | some ptr =>
    obtain ⟨raw, hraw⟩ := Option.isSome_iff_exists.mp (h.live i ptr hstatic)
    have hinstalled : s.Installed ptr raw := ⟨⟨i, hstatic⟩, hraw⟩
    -- the block at an installed address is the one that its entry was made for
    have hresult : (Memo.getOrInsert parse s.offsets ptr raw).1 = parse raw := by
      refine h.table.getOrInsert_fst fun other hother => ?_
      exact Option.some.inj (hother.2.symm.trans hraw)
    have hprovided : (s.plain.sites i).provided.schemas = raw := by
      simp [State.plain, CallSite.provided, hstatic, hraw]
    have hplain : RapidLog.getSchemas (s.plain.sites i).provided =
        if raw.headD 0 = 0 then some none else (parse raw).map some := by
      unfold RapidLog.getSchemas parse
      rw [hprovided]
      cases raw with
      | nil => rfl
      | cons argCount schemas => rfl
    rw [hplain]
    simp only [hraw]
    split
    · exact ⟨⟨h.live, h.built, h.table, h.faulted⟩, rfl⟩
    · refine ⟨⟨h.live, h.built, h.table.getOrInsert_snd hinstalled, h.faulted⟩, ?_⟩
      rw [hresult]
      rfl

end Inv

/-! ### The simulation -/

section

variable {s s' : State ι τ}

omit [Target] [DecidableEq ι] [DecidableEq τ] in
/-- Only the memory at the addresses in the statics counts. -/
private theorem plain_congr {memory : UInt64 → Option (List UInt8)} {threads : τ → Thread ι}
    (h : ∀ i ptr, s.statics i = some ptr → memory ptr = s.memory ptr) :
    { s with memory, threads }.plain = s.plain := by
  unfold State.plain
  congr 1
  funext i
  cases hstatic : s.statics i with
  | none => rfl
  | some ptr => simp [h i ptr hstatic]

/-- A step with addresses is a step without them, or changes nothing there. -/
theorem simulates : Machine.Simulates step (fun _ _ => True) plainStep (fun _ _ => True)
    fun (s : State ι τ) (t : PlainState ι) => Inv s ∧ s.plain = t := by
  rintro s e s' - ⟨h, rfl⟩ - hs
  cases e with
  | test t i =>
    simp only [step] at hs
    split at hs
    · cases hs
      refine .inl ⟨h.setThread fun j ptr => ?_, rfl⟩
      split <;> simp
    · cases hs
  | build t bytes ptr =>
    simp only [step] at hs
    split at hs
    · split at hs
      · next hfree =>
        cases hs
        refine .inl ⟨h.build hfree, plain_congr fun j other hj => ?_⟩
        exact Function.update_of_ne (h.static_ne_of_free hfree hj) _ _
      · cases hs
    · cases hs
  | set t =>
    simp only [step] at hs
    split at hs
    · next i ptr ht =>
      split at hs
      · next hunset =>
        cases hs
        -- the call site holds the block from now on, and nobody has set it before
        obtain ⟨hlive, -⟩ := h.built t i ptr ht
        obtain ⟨bytes, hbytes⟩ := Option.isSome_iff_exists.mp hlive
        refine .inr ⟨.set i bytes, _, trivial, rfl, h.install ht hunset, ?_⟩
        unfold State.plain
        congr 1
        funext j
        rcases eq_or_ne j i with rfl | hne
        · simp [hunset, hbytes, OnceLock.set]
        · simp [hne]
      · cases hs
        -- the loser of the race leaves the call site as it is
        refine .inl ⟨h.discard ht, plain_congr fun j other hj => ?_⟩
        exact Function.update_of_ne (h.static_ne_of_built ht hj) _ _
    · cases hs
  | getSchemas i =>
    cases hs
    obtain ⟨hinv, hplain⟩ := h.getSchemas i
    exact .inr ⟨.getSchemas i, _, trivial, rfl, hinv, hplain⟩

/-- Nothing is seen of the table of offsets. -/
structure Transparent (s : State ι τ) : Prop where
  /-- No block has been read after it was freed. -/
  faulted : s.faulted = false
  /-- The table holds the offsets of blocks that are set. -/
  table : ∀ ptr offsets, s.offsets ptr = some offsets →
    ∃ i raw, s.statics i = some ptr ∧ s.memory ptr = some raw ∧ parse raw = some offsets
  /-- All calls have returned what they would without the table. -/
  plain : Machine.Reach plainStep (fun _ _ => True) plainInit s.plain

/-- In every run, however the threads race for the statics and wherever the blocks are put. -/
theorem offsets_transparent (hrun : Machine.Reach step (fun _ _ => True) init s) :
    Transparent s := by
  have hinit : Inv (init : State ι τ) ∧ (init : State ι τ).plain = plainInit := ⟨.init, rfl⟩
  obtain ⟨t, hreach, h, rfl⟩ := hrun.simulate simulates hinit
  refine ⟨h.faulted, fun ptr offsets hentry => ?_, hreach⟩
  obtain ⟨raw, ⟨⟨i, hstatic⟩, hraw⟩, hparse⟩ := h.table ptr offsets hentry
  exact ⟨i, raw, hstatic, hraw, hparse⟩

/-- Two threads race for one call site. The loser drops its block, and builds the block of another
call site at the same address. -/
private def reusedRun : List (Event Bool Bool) :=
  [.test true true, .test false true, .build true [1, 0x13] 8, .build false [1, 0x13] 16,
    .set true, .getSchemas true, .set false,
    .test false false, .build false [2, 0x13, 0x23] 16, .set false,
    .getSchemas false, .getSchemas true]

omit [Target] in
theorem offsets_transparent_reused :
    letI : Target := x86_64
    ∃ s : State Bool Bool, Machine.Reach step (fun _ _ => True) init s ∧
      s.statics true = some 8 ∧ s.statics false = some 16 ∧
      s.results = [(true, some (some [(1, 1)])), (false, some (some [(1, 1), (2, 1)])),
        (true, some (some [(1, 1)]))] ∧
      Transparent s := by
  let _ : Target := x86_64
  have hrun : (step.run init reusedRun).map (fun s =>
      decide (s.statics true = some 8 ∧ s.statics false = some 16 ∧
        s.results = [(true, some (some [(1, 1)])), (false, some (some [(1, 1), (2, 1)])),
          (true, some (some [(1, 1)]))])) = some true := by
    decide +kernel
  obtain ⟨s, hs, hsummary⟩ := Option.map_eq_some_iff.mp hrun
  obtain ⟨htrue, hfalse, hresults⟩ := decide_eq_true_eq.mp hsummary
  have hreach := Machine.Reach.of_run (fun _ _ _ => trivial) hs
  exact ⟨s, hreach, htrue, hfalse, hresults, offsets_transparent hreach⟩

end

end Step

end OffsetCache

end RapidLog
