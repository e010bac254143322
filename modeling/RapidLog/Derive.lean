import RapidLog.Arg.Encode

/-!
# Derived impls

`rapidlog_derive`: the impls of `Encode` that the derive macro writes for structs and enums. Each
type has one string table, in which the names stand in the order in which the macro meets them; a
schema has the offsets of the names, cut to 16 bits.

The macro rejects unit structs and unions. For a tuple struct with fields it writes an `encode_to`
that names its fields `f0`, `f1`, … without binding them, so such a struct does not compile.
-/

namespace RapidLog

open SliceWriter

/-- The fields of a variant: `syn::Fields`. -/
inductive Fields
  | unit
  | unnamed (tys : List Encode)
  | named (fields : List (String × Encode))

/-- The types of the fields. -/
def Fields.tys : Fields → List Encode
  | .unit => []
  | .unnamed tys => tys
  | .named fields => fields.map Prod.snd

/-- The names of the fields. -/
def Fields.names : Fields → List String
  | .unit | .unnamed _ => []
  | .named fields => fields.map Prod.fst

/-- A value of an enum with these variants: the fields of one of them. -/
def Choice : List (String × Fields) → Type
  | [] => Empty
  | variant :: variants => Encode.Tuple variant.2.tys ⊕ Choice variants

namespace Choice

/-- The index of the variant. -/
def index : (variants : List (String × Fields)) → Choice variants → ℕ
  | _ :: _, .inl _ => 0
  | _ :: variants, .inr value => index variants value + 1

/-- What `f` gives for each field of the variant. -/
def map {β : Type*} (f : (e : Encode) → e.Self → β) :
    (variants : List (String × Fields)) → Choice variants → List β
  | _ :: _, .inl fields => fields.map f
  | _ :: variants, .inr value => map f variants value

end Choice

/-! ### Schemas -/

/-- The opcode of a compound and the number of its items: up to 15 in the opcode, more in two
bytes, low byte first. -/
def countHead (op : UInt8) (count : ℕ) : List UInt8 :=
  if count ≤ 15 then [op ||| .ofNat count] else op :: leBytes 2 count

/-- The names and schemas of fields. The string table is taken as it is and returned with the
names added. -/
def fieldSchemas : List (String × Encode) → List UInt8 → List UInt8 × List UInt8
  | [], stringTable => ([], stringTable)
  | (name, ty) :: fields, stringTable =>
    let stOff := stringTable.length
    let (schemas, stringTable) := fieldSchemas fields (stringTable ++ (Utf8.encode name ++ [0]))
    (leBytes 2 stOff ++ (ty.schema ++ schemas), stringTable)

def structSchemaNamed (fields : List (String × Encode)) (stringTable : List UInt8) :
    List UInt8 × List UInt8 :=
  let (schemas, stringTable) := fieldSchemas fields stringTable
  (countHead opStruct fields.length ++ 0 :: schemas, stringTable)

def structSchemaUnnamed (tys : List Encode) : List UInt8 :=
  countHead opTuple tys.length ++ (tys.map Encode.schema).flatten

def variantSubSchema (fields : Fields) (stringTable : List UInt8) : List UInt8 × List UInt8 :=
  match fields with
  | .unit => ([opUnit], stringTable)
  | .unnamed [ty] => (ty.schema, stringTable)
  | .unnamed tys => (structSchemaUnnamed tys, stringTable)
  | .named fields => structSchemaNamed fields stringTable

/-- The names and schemas of variants, with the names of their fields in the same table. -/
def variantSchemas : List (String × Fields) → List UInt8 → List UInt8 × List UInt8
  | [], stringTable => ([], stringTable)
  | (name, fields) :: variants, stringTable =>
    let stOff := stringTable.length
    let (subSchema, stringTable) :=
      variantSubSchema fields (stringTable ++ (Utf8.encode name ++ [0]))
    let (schemas, stringTable) := variantSchemas variants stringTable
    (leBytes 2 stOff ++ (subSchema ++ schemas), stringTable)

/-- The size code of the index of a variant. -/
def vdxK (variantCount : ℕ) : UInt8 := if variantCount ≤ 255 then 1 else 2

/-- How many bytes the index of a variant takes. -/
def discSize (variantCount : ℕ) : ℕ := if 255 < variantCount then 2 else 1

def enumSchema (variants : List (String × Fields)) (stringTable : List UInt8) :
    List UInt8 × List UInt8 :=
  let (schemas, stringTable) := variantSchemas variants stringTable
  (countHead opEnum variants.length ++ vdxK variants.length :: 0 :: schemas, stringTable)

/-! ### Impls -/

namespace Encode

/-- `#[derive(Encode)]` on a struct with named fields -/
def deriveStruct (fields : List (String × Encode)) : Encode where
  Self := Tuple (fields.map Prod.snd)
  schema := (structSchemaNamed fields []).1
  encodeTo v := .all (v.map Encode.encodeTo)
  encodedSize v := (v.map Encode.encodedSize).sum
  stringTable := (structSchemaNamed fields []).2

/-- `#[derive(Encode)]` on an enum -/
def deriveEnum (variants : List (String × Fields)) : Encode where
  Self := Choice variants
  schema := (enumSchema variants []).1
  encodeTo v :=
    (copy (leBytes (discSize variants.length) (v.index))).andThen (.all (v.map Encode.encodeTo))
  encodedSize v := discSize variants.length + (v.map Encode.encodedSize).sum
  stringTable := (enumSchema variants []).2

end Encode

end RapidLog
