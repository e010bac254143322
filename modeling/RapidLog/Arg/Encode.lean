import RapidLog.Arg
import RapidLog.Lib.SliceWriter

/-!
# Encoding arguments

`arg/primitives.rs`, `arg/compound.rs`, `arg/container.rs` and `arg/pointer.rs`: the impls of the
trait `Encode`. An impl is a value of the type `Encode` here, so that an impl for a generic type is
a function of the impls of its parameters.

A map is the list of its entries in iteration order, and a floating-point number is its bits.
-/

namespace RapidLog

/-- An impl of the trait `Encode`, with the type it is for. -/
structure Encode where
  Self : Type
  schema : List UInt8
  encodeTo : Self → SliceWriter UInt8
  encodedSize : Self → ℕ
  stringTable : List UInt8 := []

namespace Encode

/-- The fields of a tuple. -/
def Tuple : List Encode → Type
  | [] => Unit
  | e :: es => e.Self × Tuple es

/-- What `f` gives for each field of a tuple. -/
def Tuple.map {β : Type*} (f : (e : Encode) → e.Self → β) : (es : List Encode) → Tuple es → List β
  | [], _ => []
  | e :: es, (x, xs) => f e x :: Tuple.map f es xs

/-- A string table: names that each end with a zero byte. -/
def nullTerminated (names : List String) : List UInt8 :=
  names.flatMap fun name => Utf8.encode name ++ [0]

section Target

variable [Target]

/-! ### Primitives -/

/-- `impl_encode_signed_int!($ty, k)` -/
def signedInt (k : ℕ) : Encode where
  Self := BitVec (8 * sizeForK k)
  schema := [withCode opSignedInt (.ofNat k)]
  encodeTo v := .copy ((toNeBytes 16 (v.signExtend 128).toNat).take (sizeForK k))
  encodedSize _ := sizeForK k

/-- `impl_encode_unsigned_int!($ty, k)` -/
def unsignedInt (k : ℕ) : Encode where
  Self := BitVec (8 * sizeForK k)
  schema := [withCode opUnsignedInt (.ofNat k)]
  encodeTo v := .copy ((toNeBytes 16 (v.setWidth 128).toNat).take (sizeForK k))
  encodedSize _ := sizeForK k

def i8 : Encode := signedInt 1
def i16 : Encode := signedInt 2
def i32 : Encode := signedInt 3
def i64 : Encode := signedInt 4
def i128 : Encode := signedInt 5

def u8 : Encode := unsignedInt 1
def u16 : Encode := unsignedInt 2
def u32 : Encode := unsignedInt 3
def u64 : Encode := unsignedInt 4
def u128 : Encode := unsignedInt 5

/-- The width of `usize` in bits. -/
def usizeBits : ℕ :=
  match Target.pointerWidth with
  | .w32 => 32
  | .w64 => 64

def usize : Encode where
  Self := BitVec usizeBits
  schema :=
    if usizeBits = 32 then [withCode opUnsignedInt 3] else [withCode opUnsignedInt 4]
  encodeTo v := u64.encodeTo (v.setWidth 64)
  encodedSize _ := 8

def f32 : Encode where
  Self := BitVec 32
  schema := [withCode opFloat 3]
  encodeTo v := .copy (toNeBytes 4 v.toNat)
  encodedSize _ := 4

def f64 : Encode where
  Self := BitVec 64
  schema := [withCode opFloat 4]
  encodeTo v := .copy (toNeBytes 8 v.toNat)
  encodedSize _ := 8

def bool : Encode where
  Self := Bool
  schema := [opBool]
  encodeTo v := .copy [if v then 1 else 0]
  encodedSize _ := 1

def char : Encode where
  Self := Char
  schema := [opChar]
  encodeTo v := .copy (toNeBytes 4 v.toNat)
  encodedSize _ := 4

def unit : Encode where
  Self := Unit
  schema := [opUnit]
  encodeTo _ := .copy []
  encodedSize _ := 0

/-- `&str` -/
def str : Encode where
  Self := String
  schema := [withCode opStr 2]
  encodeTo s :=
    let bytes := Utf8.encode s
    let len := min bytes.length 65535
    (SliceWriter.copy (toNeBytes 2 len)).andThen (SliceWriter.copy (bytes.take len))
  encodedSize s := 2 + (Utf8.encode s).length

/-- `String` -/
def string : Encode where
  Self := String
  schema := [withCode opStr 2]
  encodeTo s := str.encodeTo s
  encodedSize s := 2 + (Utf8.encode s).length

/-! ### Arguments that are logged as their text

`text` is what `to_string()`, or `{:?}` for `DebugArg`, gives for a value. -/

/-- A wrapper that is encoded as the text of what it wraps. -/
def asText {T : Type} (text : T → String) : Encode where
  Self := T
  schema := str.schema
  encodeTo v := str.encodeTo (text v)
  encodedSize _ := 512

def displayArg {T : Type} (text : T → String) : Encode := asText text
def debugArg {T : Type} (text : T → String) : Encode := asText text
def box {T : Type} (text : T → String) : Encode := asText text
def arc {T : Type} (text : T → String) : Encode := asText text
def rc {T : Type} (text : T → String) : Encode := asText text

/-! ### Compounds -/

/-- `impl_tuple_encode_one!`, for one to twelve fields -/
def tuple (es : List Encode) : Encode where
  Self := Tuple es
  schema := (opTuple ||| .ofNat es.length) :: es.flatMap Encode.schema
  encodeTo v := .all (v.map Encode.encodeTo)
  encodedSize v := (v.map Encode.encodedSize).sum

/-- `impl_array_encode!`, for the sizes up to 10 and for 16, 32, 64, 128 and 256 -/
def array (n : ℕ) (T : Encode) : Encode where
  Self := {xs : List T.Self // xs.length = n}
  schema := (opSeq ||| 2) :: T.schema
  encodeTo xs := (SliceWriter.copy (toNeBytes 2 n)).andThen (.all (xs.1.map T.encodeTo))
  encodedSize xs :=
    match xs.1 with
    | [] => 2
    | x :: _ => 2 + n * T.encodedSize x

/-- `Vec` -/
def vec (T : Encode) : Encode where
  Self := List T.Self
  schema := (opSeq ||| 2) :: T.schema
  encodeTo xs :=
    let count := min xs.length 65535
    (SliceWriter.copy (toNeBytes 2 count)).andThen (.all ((xs.take count).map T.encodeTo))
  encodedSize xs :=
    let count := min xs.length 65535
    2 + ((xs.take count).map T.encodedSize).sum

/-- A map with these entries: the length is cut to 32 bits, and the size is extrapolated from the
first entry with `saturating_mul`. -/
def entries (K V : Encode) : Encode where
  Self := List (K.Self × V.Self)
  schema := (opSeq ||| 3) :: (opTuple ||| 2) :: (K.schema ++ V.schema)
  encodeTo xs :=
    (SliceWriter.copy (toNeBytes 4 (xs.length % 2 ^ 32))).andThen
      (.all (xs.map fun (k, v) => (K.encodeTo k).andThen (V.encodeTo v)))
  encodedSize xs :=
    match xs with
    | [] => 4
    | (k, v) :: _ => 4 + min (xs.length * (K.encodedSize k + V.encodedSize v)) (usizeRange - 1)

def hashMap (K V : Encode) : Encode := entries K V
def bTreeMap (K V : Encode) : Encode := entries K V

/-- `Option` -/
def option (T : Encode) : Encode where
  Self := Option T.Self
  schema := [opEnum ||| 2, 1, 0, 0, 0, opUnit, 5, 0] ++ T.schema
  encodeTo
    | none => .copy [0]
    | some val => (SliceWriter.copy [1]).andThen (T.encodeTo val)
  encodedSize
    | none => 1
    | some val => 1 + T.encodedSize val
  stringTable := nullTerminated ["None", "Some"]

/-- `Result` -/
def result (T E : Encode) : Encode where
  Self := T.Self ⊕ E.Self
  schema := [opEnum ||| 2, 1, 0, 0, 0] ++ T.schema ++ [3, 0] ++ E.schema
  encodeTo
    | .inl val => (SliceWriter.copy [0]).andThen (T.encodeTo val)
    | .inr val => (SliceWriter.copy [1]).andThen (E.encodeTo val)
  encodedSize
    | .inl val => 1 + T.encodedSize val
    | .inr val => 1 + E.encodedSize val
  stringTable := nullTerminated ["Ok", "Err"]

end Target

end Encode

end RapidLog
