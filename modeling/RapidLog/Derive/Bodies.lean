import RapidLog.Derive

/-!
# The code of derived impls

`rapidlog_derive`: the bodies of `encode_to` and `encoded_size` that the derive macro writes, as
syntax. The macro puts them together from the names of the fields and from names of its own: `pos`
and `buf`, the `f0`, `f1`, … of tuple structs and the `__f0`, `__f1`, … of tuple variants. All of
these are resolved where the macro is called, so a name of the macro and a field with the same
letters are one identifier.
-/

namespace RapidLog

namespace Rust

/-- An expression of the generated code. -/
inductive Expr
  /-- `0usize` or `#disc_size` -/
  | lit (n : ℕ)
  | var (name : String)
  /-- `&self.#field_name` -/
  | selfField (name : String)
  /-- `::rapidlog::arg::Encode::encode_to(#arg, &mut buf[pos..])` -/
  | encodeTo (arg : Expr) (buf pos : String)
  /-- `::rapidlog::arg::Encode::encoded_size(#arg)` -/
  | encodedSize (arg : Expr)
  | add (left right : Expr)

/-- A statement of the generated code. -/
inductive Stmt
  /-- `let mut pos = #value;` -/
  | letMut (name : String) (value : Expr)
  /-- `pos += #value;` -/
  | addAssign (name : String) (value : Expr)
  /-- `buf[i] = #byte;` -/
  | setByte (buf : String) (i : ℕ) (byte : UInt8)

/-- Statements and the value of the block. -/
structure Block where
  stmts : List Stmt
  result : Expr

/-- The pattern of an arm: names for the fields of the variant. -/
inductive Pattern
  | unit
  | tuple (bindings : List String)
  | struct (bindings : List String)

/-- What stands behind the `=>` of an arm. -/
inductive ArmBody
  | braced (b : Block)
  | expr (e : Expr)

/-- `Self::#variant_name ... => ...` -/
structure Arm where
  variant : String
  pattern : Pattern
  body : ArmBody

/-- The body of a function: a block, or `match self` with these arms. `quote! { #(#arms)* }` puts
the arms one after the other, with no comma between them. -/
inductive Body
  | block (b : Block)
  | matchSelf (arms : List Arm)

end Rust

open Rust

/-! ### Bodies -/

/-- What the macro is put on: `syn::Data`. -/
inductive Data
  | struct (fields : Fields)
  | enum (variants : List (String × Fields))
  | union

/-- The parts of the generated impl. -/
structure DerivedImpl where
  schema : List UInt8
  encodeBody : Body
  maxSizeBody : Body
  stringTable : List UInt8

end RapidLog
