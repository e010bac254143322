import RapidLog.Lib.Endian

/-!
# Configuration

The queue constants of `config.rs` and the properties of the compilation target that the source
reads through native-endian conversions and `usize`.
-/

namespace RapidLog

/-- The width of a pointer, and of `usize`. -/
inductive PointerWidth
  | w32
  | w64
  deriving DecidableEq, Repr

/-- The compilation target: the byte order behind `to_ne_bytes` and `from_ne_bytes`, and the
width of `usize`. -/
class Target where
  endian : Endian
  pointerWidth : PointerWidth

/-- A 64-bit little-endian target. -/
@[reducible] def x86_64 : Target := { endian := .little, pointerWidth := .w64 }

/-- A 32-bit little-endian target. -/
@[reducible] def i686 : Target := { endian := .little, pointerWidth := .w32 }

/-- The number of values of `usize`. -/
def usizeRange [Target] : ℕ :=
  match Target.pointerWidth with
  | .w32 => 2 ^ 32
  | .w64 => 2 ^ 64

/-- A `usize` has at least 32 bits. -/
theorem usizeRange_le [Target] : 2 ^ 32 ≤ usizeRange := by
  unfold usizeRange
  split <;> norm_num

/-- `to_ne_bytes` of a `w`-byte integer. -/
def toNeBytes [tgt : Target] (w n : ℕ) : List UInt8 := tgt.endian.toBytes w n

/-- `from_ne_bytes` of an unsigned integer. -/
def fromNeBytes [tgt : Target] (bytes : List UInt8) : ℕ := tgt.endian.ofBytes bytes

@[simp]
theorem length_toNeBytes [Target] (w n : ℕ) : (toNeBytes w n).length = w := by
  simp [toNeBytes]

/-- A number that fits in `w` bytes is read back unchanged. -/
theorem fromNeBytes_toNeBytes [Target] {w n : ℕ} (h : n < 256 ^ w) :
    fromNeBytes (toNeBytes w n) = n :=
  Endian.ofBytes_toBytes_of_lt _ h

/-- Controls overflow behavior of the per-thread SPSC queue. -/
inductive QueueMode
  | unboundedBlocking
  | boundedDropping
  deriving DecidableEq, Repr

def defaultStartCapacity : ℕ := 131072

def maxBlockCapacity : ℕ := 2147483648

end RapidLog
