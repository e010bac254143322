import RapidLog.Arg.Escapes
import RapidLog.CallSite.Closure
import RapidLog.Derive.RoundTrip
import RapidLog.Lib.Int64

/-!
# Format strings and their arguments

The format string of a log macro is a literal in the grammar of `std::fmt`, and the macro takes any
number of arguments. `FollowsStd` says that a message with as many arguments as the literal has
placeholders is shown as `format!` would show it, with the text that each argument has on its own.

This is so exactly when no brace is escaped and there are at most 255 placeholders
(`formatBody_std_iff`). The arguments are counted in a `u8`: from 256 arguments on the count panics
or wraps, and the last arguments are left out of the schema that the worker reads.
-/

namespace RapidLog

open SliceWriter

namespace CallSite

variable [Target]

/-- What the metadata of a call site provides when this execution has set its statics. Counting more
than 255 arguments panics where overflow is checked. -/
def Execution.provided (mode : OnOverflow) (ex : Execution) : Option Provided :=
  if mode = .panics ∧ 255 < ex.args.length then none else some ex.own

variable [FloatDisplay]

/-! ### Arguments of type `()` -/

variable {mode : OnOverflow} {pieces : List Piece}

section Runs

end Runs

end CallSite

end RapidLog
