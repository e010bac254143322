import RapidLog.Arg.Body
import RapidLog.Lib.Template
import RapidLog.Message

/-!
# Formatting messages

`formatter.rs` and the `format_message` of `backend.rs`. A `PatternFormatter` parses its pattern
once and formats every record with the segments. The loop of the parser carries the literal text
that it has read and not yet pushed.

The calendar is that of the `time` crate, a parameter.
-/

namespace RapidLog

/-- What the formatter reads of a `time::OffsetDateTime`. -/
structure OffsetDateTime where
  year : ℤ
  month : ℕ
  day : ℕ
  hour : ℕ
  minute : ℕ
  second : ℕ

/-- The calendar: `OffsetDateTime::from_unix_timestamp(..).ok()`. -/
class Calendar where
  fromUnixTimestamp : Int64 → Option OffsetDateTime

/-- The derived `Debug`. -/
def LogLevel.debugName : LogLevel → String
  | traceL3 => "TraceL3"
  | traceL2 => "TraceL2"
  | traceL1 => "TraceL1"
  | debug => "Debug"
  | info => "Info"
  | warning => "Warning"
  | error => "Error"
  | critical => "Critical"

/-- A number that is formatted with a width and leading zeros; a sign counts. -/
def zeroPadded (width : ℕ) (n : ℤ) : String :=
  let sign := if n < 0 then "-" else ""
  let digits := toString n.natAbs
  sign ++ .ofList (List.replicate (width - sign.length - digits.length) '0') ++ digits

inductive Segment
  | literal (s : String)
  | year
  | month
  | day
  | hour
  | minute
  | second
  | wholeSecs
  | fracSec
  | level
  | file
  | line
  | body
  deriving DecidableEq, Repr

/-- The segment that a character after `%` stands for. -/
def Segment.ofSpecifier : Char → Option Segment
  | 'Y' => some year
  | 'm' => some month
  | 'd' => some day
  | 'H' => some hour
  | 'M' => some minute
  | 'S' => some second
  | 's' => some wholeSecs
  | 'f' => some fracSec
  | 'l' => some level
  | 'F' => some file
  | 'L' => some line
  | 'v' => some body
  | _ => none

structure PatternFormatter where
  segments : List Segment
  deriving DecidableEq, Repr

/-- Input data for `PatternFormatter.format`. -/
structure FormattedRecord where
  timestampSecs : UInt64
  timestampNanos : UInt32
  level : LogLevel
  file : String
  line : ℕ
  body : String

namespace PatternFormatter

/-- The literal read so far is pushed if there is one. -/
def flush (segments : List Segment) (literal : String) : List Segment :=
  if literal.isEmpty then segments else segments ++ [.literal literal]

/-- The loop of `new` on the characters that it has not read. -/
def parse (segments : List Segment) (literal : String) : List Char → List Segment
  | [] => flush segments literal
  -- no character follows, so that this one is text
  | [c] => flush segments (literal.push c)
  | c :: other :: chars =>
    if c = '%' then
      let segments := flush segments literal
      match Segment.ofSpecifier other with
      | some segment => parse (segments ++ [segment]) "" chars
      | none => parse segments (("".push '%').push other) chars
    else parse segments (literal.push c) (other :: chars)

def new (pattern : String) : PatternFormatter := { segments := parse [] "" pattern.toList }

end PatternFormatter

-- `%%` is no specifier, and the `%` at the end has no character after it
example : PatternFormatter.new "%x is 100%%v%" =
    ⟨[.literal "%x is 100", .literal "%%v%"]⟩ := by decide

variable [Calendar]

namespace FormattedRecord

/-- The date and time of the record. -/
def odt (record : FormattedRecord) : Option OffsetDateTime :=
  Calendar.fromUnixTimestamp record.timestampSecs.toInt64

/-- A part of the date and time, or what stands for it when there is none. -/
def dated (record : FormattedRecord) (unknown : String) (shown : OffsetDateTime → String) :
    String :=
  (record.odt.map shown).getD unknown

/-- What a segment adds to the result. -/
def text (record : FormattedRecord) : Segment → String
  | .literal s => s
  | .year => record.dated "????" fun odt => zeroPadded 4 odt.year
  | .month => record.dated "??" fun odt => zeroPadded 2 odt.month
  | .day => record.dated "??" fun odt => zeroPadded 2 odt.day
  | .hour => record.dated "??" fun odt => zeroPadded 2 odt.hour
  | .minute => record.dated "??" fun odt => zeroPadded 2 odt.minute
  | .second => record.dated "??" fun odt => zeroPadded 2 odt.second
  | .wholeSecs => toString record.timestampSecs.toNat
  | .fracSec => zeroPadded 9 record.timestampNanos.toNat
  | .level => record.level.debugName
  | .file => record.file
  | .line => toString record.line
  | .body => record.body

end FormattedRecord

namespace PatternFormatter

def format (formatter : PatternFormatter) (record : FormattedRecord) : String :=
  formatter.segments.foldl (fun result segment => result ++ record.text segment) ""

end PatternFormatter

namespace Backend

/-- The `format!` of `format_message`. -/
def builtInLayout (secs : UInt64) (nanos : UInt32) (level : LogLevel) (file : String) (line : ℕ)
    (body : String) : String :=
  "[" ++ toString secs.toNat ++ "." ++ zeroPadded 9 nanos.toNat ++ "] [" ++ level.debugName ++
    "] " ++ file ++ ":" ++ toString line ++ " " ++ body

/-- `format_message`, with what `to_display_nanos` and the metadata return. -/
def formatMessage [Target] [FloatDisplay] (toDisplayNanos : UInt64 → Option UInt64)
    (metadata : Metadata) (provided : Provided) (archived : ArchivedHeader) (payload : List UInt8)
    (formatter : Option PatternFormatter) : Option String := do
  let displayNs ← toDisplayNanos archived.timestampNs
  let secs := displayNs / 1_000_000_000
  let nanos := (displayNs % 1_000_000_000).toUInt32
  let body ← formatBody metadata provided payload
  match formatter with
  | some fmtr =>
    return fmtr.format
      { timestampSecs := secs
        timestampNanos := nanos
        level := metadata.level
        file := metadata.file
        line := metadata.line
        body }
  | none => return builtInLayout secs nanos metadata.level metadata.file metadata.line body

end Backend

/-! ### What a pattern formats -/

namespace PatternFormatter

variable (record : FormattedRecord)

end PatternFormatter

end RapidLog
