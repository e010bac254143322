import RapidLog.Arg
import RapidLog.Logger

/-!
# The body of a message

The last part of `arg/schema.rs`: `decodeArgs` gives the text of every argument of a message, and
`formatBody` writes the format string of its call site with the arguments in it.

The offsets of the schemas in the schema block are computed anew on every call here. The source
keeps them in a table by the address of the block, which is a static that never changes; that this
makes no difference is shown in `RapidLog.Arg.Offsets`.

`scanned` is what the loop of `formatBody` writes once the texts of the arguments are known
(`formatGroups_eq`). The intended result is `substitute`: the two differ by the text that stands
before a brace that is never closed, which the loop writes twice.
-/

namespace RapidLog

open Slice

/-- What the providers of a call site's metadata return. The schema block is
`[count: u8][concatenated schema bytes...]`. -/
structure Provided where
  schemas : List UInt8
  stringTables : List (List UInt8)
  userFormatters : List UserFormatter

/-- What stands before and behind the first occurrence of a character. -/
def splitAtFirst (c : Char) : List Char → Option (List Char × List Char)
  | [] => none
  | d :: cs =>
    if d = c then some ([], cs)
    else (splitAtFirst c cs).map fun (before, after) => (d :: before, after)

section Target

variable [Target]

/-- The offset and the length of each of at most `n` schemas, from `pos` on. -/
def parseSchemaOffsets (schemas : List UInt8) : ℕ → ℕ → Option (List (ℕ × ℕ))
  | 0, _ => some []
  | n + 1, pos =>
    if schemas.length ≤ pos then some []
    else do
      let len ← measureSchema (← sliceFrom schemas pos)
      let offsets ← parseSchemaOffsets schemas n (pos + len)
      return (pos, len) :: offsets

/-- `get_schemas`: the offsets of the schemas, or `some none` for a call site without arguments. -/
def getSchemas (provided : Provided) : Option (Option (List (ℕ × ℕ))) :=
  match provided.schemas with
  | [] => some none
  | argCount :: _ =>
    if argCount = 0 then some none
    else (parseSchemaOffsets provided.schemas argCount.toNat 1).map some

variable [FloatDisplay]

/-- The text of one argument, with the string table of this argument only. -/
def formatArg (provided : Provided) (payload : List UInt8) (schemaIdx payloadPos : ℕ)
    (offset : ℕ × ℕ) : Option (String × ℕ) := do
  let schema ← slice provided.schemas offset.1 (offset.1 + offset.2)
  formatPayload schema (← sliceFrom payload payloadPos)
    (provided.stringTables[schemaIdx]?).toList provided.userFormatters

/-- The loop of `decode_args` over the remaining offsets. -/
def decodeFrom (provided : Provided) (payload : List UInt8) :
    List (ℕ × ℕ) → ℕ → ℕ → Option (List String)
  | [], _, _ => some []
  | offset :: offsets, schemaIdx, payloadPos => do
    let (s, used) ← formatArg provided payload schemaIdx payloadPos offset
    let results ← decodeFrom provided payload offsets (schemaIdx + 1) (payloadPos + used)
    return s :: results

def decodeArgs (provided : Provided) (payload : List UInt8) : Option (List String) := do
  match ← getSchemas provided with
  | none => return []
  | some offsets => decodeFrom provided payload offsets 0 0

/-- The loop of `format_body` over what remains of the format string. -/
def formatGroups (provided : Provided) (offsets : List (ℕ × ℕ)) (payload : List UInt8) :
    ℕ → List Char → ℕ → ℕ → Option (List Char)
  | 0, remaining, _, _ => some remaining
  | fuel + 1, remaining, schemaIdx, payloadPos =>
    match splitAtFirst '\x7b' remaining with
    | none => some remaining
    | some (before, afterBrace) =>
      match splitAtFirst '\x7d' afterBrace with
      | none => some (before ++ remaining) -- `remaining` begins with `before`
      | some (_, rest) =>
        match offsets[schemaIdx]? with
        | none => do
          let output ← formatGroups provided offsets payload fuel rest schemaIdx payloadPos
          return before ++ output
        | some offset => do
          let (s, used) ← formatArg provided payload schemaIdx payloadPos offset
          let output ← formatGroups provided offsets payload fuel rest (schemaIdx + 1)
            (payloadPos + used)
          return before ++ (s.toList ++ output)

def formatBody (metadata : Metadata) (provided : Provided) (payload : List UInt8) :
    Option String := do
  let remaining := metadata.formatStr.toList
  match ← getSchemas provided with
  | none => return metadata.formatStr
  | some offsets =>
    let output ← formatGroups provided offsets payload (remaining.length + 1) remaining 0 0
    return String.ofList output

end Target

/-! ### Groups of a format string -/

section Groups

variable {c : Char} {cs before after inside rest : List Char} {args : List String}

theorem splitAtFirst_eq_none (h : c ∉ cs) : splitAtFirst c cs = none := by
  induction cs with
  | nil => rfl
  | cons d cs ih =>
    rw [splitAtFirst, if_neg fun hd => h (by simp [hd]), ih fun hmem => h (by simp [hmem])]
    rfl

theorem splitAtFirst_append (h : c ∉ before) (after : List Char) :
    splitAtFirst c (before ++ c :: after) = some (before, after) := by
  induction before with
  | nil => exact if_pos rfl
  | cons d before ih =>
    rw [List.cons_append, splitAtFirst, if_neg fun hd => h (by simp [hd]),
      ih fun hmem => h (by simp [hmem])]
    rfl

/-- What is found by splitting twice is shorter. -/
theorem length_lt_of_splitAtFirst (h : splitAtFirst c cs = some (before, after)) :
    after.length < cs.length := by
  induction cs generalizing before with
  | nil => cases h
  | cons d cs ih =>
    rw [splitAtFirst] at h
    split at h
    · cases h
      exact Nat.lt_succ_self _
    · simp only [Option.map_eq_some_iff, Prod.mk.injEq, Prod.exists] at h
      obtain ⟨before', after', h, -, rfl⟩ := h
      exact Nat.lt_succ_of_lt (ih h)

/-- How the loop of `format_body` sees a format string: text without an opening brace, text up to
an opening brace that is never closed, or text up to a group and what follows the group. -/
inductive Scan : List Char → Prop
  | plain {cs : List Char} (hopen : '\x7b' ∉ cs) : Scan cs
  | unclosed {before after : List Char} (hopen : '\x7b' ∉ before) (hclose : '\x7d' ∉ after) :
      Scan (before ++ '\x7b' :: after)
  | group {before inside rest : List Char} (hopen : '\x7b' ∉ before) (hclose : '\x7d' ∉ inside)
      (hrest : Scan rest) : Scan (before ++ '\x7b' :: (inside ++ '\x7d' :: rest))

/-- Every format string is of one of these shapes. -/
theorem scan (cs : List Char) : Scan cs := by
  induction hn : cs.length using Nat.strong_induction_on generalizing cs with
  | _ n ih =>
    by_cases hopen : '\x7b' ∈ cs
    · obtain ⟨before, after, rfl, hbefore⟩ := List.eq_append_cons_of_mem hopen
      by_cases hclose : '\x7d' ∈ after
      · obtain ⟨inside, rest, rfl, hinside⟩ := List.eq_append_cons_of_mem hclose
        refine .group hbefore hinside (ih rest.length ?_ rest rfl)
        rw [← hn]
        simp only [List.length_append, List.length_cons]
        omega
      · exact .unclosed hbefore hclose
    · exact .plain hopen

/-- The recursion of the loop of `format_body`: the value for a format string from what is found
at its first opening brace and the value for what follows the first group. -/
def scanRec {α : Type*} (plain : List Char → α) (unclosed : List Char → List Char → α)
    (group : List Char → α → α) (cs : List Char) : α :=
  match _hopen : splitAtFirst '\x7b' cs with
  | none => plain cs
  | some (before, after) =>
    match _hclose : splitAtFirst '\x7d' after with
    | none => unclosed before after
    | some (_, rest) => group before (scanRec plain unclosed group rest)
termination_by cs.length
decreasing_by
  exact (length_lt_of_splitAtFirst _hclose).trans (length_lt_of_splitAtFirst _hopen)

section ScanRec

variable {α : Type*} {plain : List Char → α} {unclosed : List Char → List Char → α}
  {group : List Char → α → α}

theorem scanRec_plain (hopen : '\x7b' ∉ cs) : scanRec plain unclosed group cs = plain cs := by
  rw [scanRec]
  split
  · rfl
  · next h => rw [splitAtFirst_eq_none hopen] at h; cases h

theorem scanRec_unclosed (hopen : '\x7b' ∉ before) (hclose : '\x7d' ∉ after) :
    scanRec plain unclosed group (before ++ '\x7b' :: after) = unclosed before after := by
  rw [scanRec]
  split
  · next h => rw [splitAtFirst_append hopen] at h; cases h
  · next h =>
    rw [splitAtFirst_append hopen] at h
    cases h
    split
    · rfl
    · next h => rw [splitAtFirst_eq_none hclose] at h; cases h

theorem scanRec_group (hopen : '\x7b' ∉ before) (hclose : '\x7d' ∉ inside) :
    scanRec plain unclosed group (before ++ '\x7b' :: (inside ++ '\x7d' :: rest)) =
      group before (scanRec plain unclosed group rest) := by
  rw [scanRec]
  split
  · next h => rw [splitAtFirst_append hopen] at h; cases h
  · next h =>
    rw [splitAtFirst_append hopen] at h
    cases h
    split
    · next h => rw [splitAtFirst_append hclose] at h; cases h
    · next h => rw [splitAtFirst_append hclose] at h; cases h; rfl

end ScanRec

/-- The text of an argument, or nothing when the arguments are exhausted. -/
def nextText (args : List String) : List Char := (args.head?.getD "").toList

/-- What the loop of `format_body` writes when the arguments have the given texts. -/
def scanned : List Char → List String → List Char :=
  scanRec (fun cs _ => cs) (fun before after _ => before ++ (before ++ '\x7b' :: after))
    (fun before written args => before ++ (nextText args ++ written args.tail))

/-- The text between the last group of a format string, or its beginning, and an opening brace
that is never closed. -/
def beforeUnclosed : List Char → List Char :=
  scanRec (fun _ => []) (fun before _ => before) (fun _ found => found)

theorem scanned_plain (hopen : '\x7b' ∉ cs) : scanned cs args = cs := by
  rw [scanned, scanRec_plain hopen]

theorem scanned_unclosed (hopen : '\x7b' ∉ before) (hclose : '\x7d' ∉ after) :
    scanned (before ++ '\x7b' :: after) args = before ++ (before ++ '\x7b' :: after) := by
  rw [scanned, scanRec_unclosed hopen hclose]

theorem scanned_group (hopen : '\x7b' ∉ before) (hclose : '\x7d' ∉ inside) :
    scanned (before ++ '\x7b' :: (inside ++ '\x7d' :: rest)) args =
      before ++ (nextText args ++ scanned rest args.tail) := by
  rw [scanned, scanRec_group hopen hclose]

/-! ### Substitution -/

/-- The format string with the `i`-th group, from an opening brace to the next closing one, replaced
by the `i`-th text, and every character outside such groups. Inside a group nothing is written up
to its closing brace. -/
def substituteFrom : Bool → List Char → List String → List Char
  | _, [], _ => []
  | false, c :: cs, args =>
    if c = '\x7b' ∧ '\x7d' ∈ cs then substituteFrom true cs args
    else c :: substituteFrom false cs args
  | true, c :: cs, args =>
    if c = '\x7d' then nextText args ++ substituteFrom false cs args.tail
    else substituteFrom true cs args

def substitute (cs : List Char) (args : List String) : List Char := substituteFrom false cs args

/-- Text without an opening brace is copied. -/
theorem substitute_append (hopen : '\x7b' ∉ before) (cs : List Char) (args : List String) :
    substitute (before ++ cs) args = before ++ substitute cs args := by
  induction before with
  | nil => rfl
  | cons c before ih =>
    have hc : c ≠ '\x7b' := fun hc => hopen (by simp [hc])
    rw [List.cons_append, substitute, substituteFrom, if_neg fun h => hc h.1]
    exact congrArg (c :: ·) (ih fun h => hopen (by simp [h]))

/-- Text in which no brace is closed is copied. -/
theorem substitute_eq_self (hclose : '\x7d' ∉ cs) : substitute cs args = cs := by
  induction cs with
  | nil => rfl
  | cons c cs ih =>
    have hcs : '\x7d' ∉ cs := fun h => hclose (by simp [h])
    rw [substitute, substituteFrom, if_neg fun h => hcs h.2]
    exact congrArg (c :: ·) (ih hcs)

theorem substitute_group (hclose : '\x7d' ∉ inside) :
    substitute ('\x7b' :: (inside ++ '\x7d' :: rest)) args =
      nextText args ++ substitute rest args.tail := by
  have hskip : ∀ inside : List Char, '\x7d' ∉ inside →
      substituteFrom true (inside ++ '\x7d' :: rest) args =
        nextText args ++ substitute rest args.tail := by
    intro inside hclose
    induction inside with
    | nil => exact if_pos rfl
    | cons c inside ih =>
      have hc : c ≠ '\x7d' := fun hc => hclose (by simp [hc])
      rw [List.cons_append, substituteFrom, if_neg hc, ih fun h => hclose (by simp [h])]
  rw [substitute, substituteFrom, if_pos (by simp), hskip inside hclose]

/-- The loop writes the text before an unclosed brace once more than it should. -/
theorem scanned_eq_substitute_iff (cs : List Char) (args : List String) :
    scanned cs args = substitute cs args ↔ beforeUnclosed cs = [] := by
  induction scan cs generalizing args with
  | @plain cs hopen =>
    have hcopy : substitute cs args = cs := by
      simpa [substitute, substituteFrom] using substitute_append hopen [] args
    rw [scanned_plain hopen, hcopy, beforeUnclosed, scanRec_plain hopen]
    simp only
  | unclosed hopen hclose =>
    rw [scanned_unclosed hopen hclose, substitute_append hopen,
      substitute_eq_self (by simpa using hclose), List.append_right_inj, beforeUnclosed,
      scanRec_unclosed hopen hclose, List.append_left_eq_self]
  | group hopen hclose _ ih =>
    rw [scanned_group hopen hclose, substitute_append hopen, substitute_group hclose,
      List.append_right_inj, List.append_right_inj, ih, beforeUnclosed,
      scanRec_group hopen hclose]

end Groups

/-! ### The loops -/

section Loops

variable [Target] [FloatDisplay] {provided : Provided} {payload : List UInt8}

theorem formatGroups_eq {offsets : List (ℕ × ℕ)} {schemaIdx payloadPos fuel : ℕ}
    {args : List String} {remaining : List Char}
    (hargs : decodeFrom provided payload (offsets.drop schemaIdx) schemaIdx payloadPos = some args)
    (hfuel : remaining.length < fuel) :
    formatGroups provided offsets payload fuel remaining schemaIdx payloadPos =
      some (scanned remaining args) := by
  induction scan remaining generalizing fuel schemaIdx payloadPos args with
  | plain hopen =>
    obtain ⟨fuel, rfl⟩ : ∃ n, fuel = n + 1 := ⟨fuel - 1, by omega⟩
    rw [formatGroups, splitAtFirst_eq_none hopen, scanned_plain hopen]
  | @unclosed before after hopen hclose =>
    obtain ⟨fuel, rfl⟩ : ∃ n, fuel = n + 1 := ⟨fuel - 1, by omega⟩
    rw [formatGroups, splitAtFirst_append hopen, scanned_unclosed hopen hclose]
    dsimp only
    rw [splitAtFirst_eq_none hclose]
  | @group before inside rest hopen hclose _ ih =>
    obtain ⟨fuel, rfl⟩ : ∃ n, fuel = n + 1 := ⟨fuel - 1, by omega⟩
    have hrest : rest.length < fuel := by
      simp only [List.length_append, List.length_cons] at hfuel
      omega
    rw [formatGroups, splitAtFirst_append hopen, scanned_group hopen hclose]
    dsimp only
    rw [splitAtFirst_append hclose]
    dsimp only
    cases hoffset : offsets[schemaIdx]? with
    | none =>
      -- the arguments are exhausted, for this group and for all later ones
      have hdrop : offsets.drop schemaIdx = [] :=
        List.drop_eq_nil_of_le (List.getElem?_eq_none_iff.mp hoffset)
      have hnil : args = [] := by
        rw [hdrop] at hargs
        cases hargs
        rfl
      subst hnil
      simp only [ih hargs hrest]
      rfl
    | some offset =>
      obtain ⟨hlt, hget⟩ := List.getElem?_eq_some_iff.mp hoffset
      rw [List.drop_eq_getElem_cons hlt, hget, decodeFrom] at hargs
      simp only [Option.bind_eq_bind, Option.bind_eq_some_iff] at hargs
      obtain ⟨⟨s, used⟩, harg, results, hresults, hargs⟩ := hargs
      cases hargs
      simp only [harg, Option.bind_eq_bind, Option.bind_some, ih hresults hrest]
      rfl

/-- With at least one schema the groups are scanned, with the texts of `decode_args`. -/
theorem formatBody_eq {metadata : Metadata} {argCount : UInt8} {block : List UInt8}
    {args : List String} (hschemas : provided.schemas = argCount :: block) (hcount : argCount ≠ 0)
    (hargs : decodeArgs provided payload = some args) :
    formatBody metadata provided payload =
      some (String.ofList (scanned metadata.formatStr.toList args)) := by
  have hget : getSchemas provided =
      (parseSchemaOffsets provided.schemas argCount.toNat 1).map some := by
    rw [getSchemas, hschemas]
    exact if_neg hcount
  rw [decodeArgs, hget] at hargs
  rw [formatBody, hget]
  cases hoffsets : parseSchemaOffsets provided.schemas argCount.toNat 1 with
  | none => rw [hoffsets] at hargs; cases hargs
  | some offsets =>
    rw [hoffsets] at hargs
    have hfrom : decodeFrom provided payload (offsets.drop 0) 0 0 = some args := hargs
    simp only [Option.map_some, Option.bind_eq_bind, Option.bind_some,
      formatGroups_eq hfrom (Nat.lt_succ_self _)]
    rfl

/-- `format_body` puts the texts of `decode_args` into the groups of the format string and copies
the other characters once, exactly when no text stands between the last group and an opening brace
that is never closed. -/
theorem formatBody_substitutes_iff {metadata : Metadata} {argCount : UInt8} {block : List UInt8}
    {args : List String} (hschemas : provided.schemas = argCount :: block) (hcount : argCount ≠ 0)
    (hargs : decodeArgs provided payload = some args) :
    formatBody metadata provided payload =
        some (String.ofList (substitute metadata.formatStr.toList args)) ↔
      beforeUnclosed metadata.formatStr.toList = [] := by
  rw [formatBody_eq hschemas hcount hargs, Option.some.injEq, String.ofList_inj,
    scanned_eq_substitute_iff]

section Runs

/-- One argument of type `u8`. -/
private def oneByteArg : Provided :=
  { schemas := [1, 0x21], stringTables := [], userFormatters := [] }

/-- A call site with this format string. -/
def callSite (formatStr : String) : Metadata :=
  { level := .info, formatStr := formatStr, file := "main.rs", line := 1, modulePath := "main" }

omit [Target] [FloatDisplay] in
/-- A brace that directly follows a group may stay open. -/
theorem formatBody_substitutes_iff_open :
    letI : Target := x86_64
    letI : FloatDisplay := noFloats
    formatBody (callSite "n = \x7b\x7d\x7b") oneByteArg [7] =
        some (String.ofList (substitute "n = \x7b\x7d\x7b".toList ["7"])) ↔
      beforeUnclosed "n = \x7b\x7d\x7b".toList = [] := by
  let _ : Target := x86_64
  let _ : FloatDisplay := noFloats
  exact formatBody_substitutes_iff rfl (by decide) (by decide +kernel)

omit [Target] [FloatDisplay] in
/-- `n = {}, open {` loses nothing but has `, open ` twice. -/
theorem formatBody_repeats_text :
    letI : Target := x86_64
    letI : FloatDisplay := noFloats
    decodeArgs oneByteArg [7] = some ["7"] ∧
      formatBody (callSite "n = \x7b\x7d, open \x7b") oneByteArg [7] =
        some "n = 7, open , open \x7b" ∧
      substitute "n = \x7b\x7d, open \x7b".toList ["7"] = "n = 7, open \x7b".toList := by
  decide +kernel

end Runs

end Loops

end RapidLog
