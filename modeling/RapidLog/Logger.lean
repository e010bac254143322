import Mathlib.Data.Nat.Basic

/-!
# Levels, metadata, filters and loggers

`level.rs`, `metadata.rs`, `filter.rs` and `logger.rs`: what the backend reads to decide whether a
message is delivered, and to which sinks. The sinks of a logger are fixed when it is created; its
level and its filters change at any time.
-/

namespace RapidLog

inductive LogLevel
  | traceL3 | traceL2 | traceL1 | debug | info | warning | error | critical
  deriving DecidableEq, Repr

namespace LogLevel

def asUsize : LogLevel → ℕ
  | traceL3 => 0
  | traceL2 => 1
  | traceL1 => 2
  | debug => 3
  | info => 4
  | warning => 5
  | error => 6
  | critical => 7

def fromUsize : ℕ → Option LogLevel
  | 0 => some traceL3
  | 1 => some traceL2
  | 2 => some traceL1
  | 3 => some debug
  | 4 => some info
  | 5 => some warning
  | 6 => some error
  | 7 => some critical
  | _ => none

@[simp]
theorem fromUsize_asUsize (level : LogLevel) : fromUsize level.asUsize = some level := by
  cases level <;> rfl

/-- Every level fits the `u8` that a logger stores. -/
theorem asUsize_lt (level : LogLevel) : level.asUsize < 8 := by
  cases level <;> decide

end LogLevel

/-- What a call site knows statically about its messages. -/
structure Metadata where
  level : LogLevel
  formatStr : String
  file : String
  line : ℕ
  modulePath : String

/-- `accept` of a runtime filter: whether the message should be delivered to sinks. -/
abbrev Filter := Metadata → List UInt8 → Bool

/-- The filter for messages at or above a level. -/
def LevelFilter.accept (level : LogLevel) : Filter :=
  fun metadata _ => decide (level.asUsize ≤ metadata.level.asUsize)

/-- A logger. Its name is the key under which the registry of loggers holds it. -/
structure Logger where
  name : String
  /-- The `AtomicU8` behind `log_level`. -/
  logLevelCell : UInt8
  /-- `sinks`, as numbers that identify them. -/
  sinks : List ℕ
  filters : List Filter

namespace Logger

def new (name : String) (sinks : List ℕ) : Logger :=
  { name, logLevelCell := .ofNat LogLevel.info.asUsize, sinks, filters := [] }

def setLogLevel (logger : Logger) (level : LogLevel) : Logger :=
  { logger with logLevelCell := .ofNat level.asUsize }

def logLevel (logger : Logger) : LogLevel :=
  (LogLevel.fromUsize logger.logLevelCell.toNat).getD .info

def addFilter (logger : Logger) (filter : Filter) : Logger :=
  { logger with filters := logger.filters ++ [filter] }

def clearFilters (logger : Logger) : Logger := { logger with filters := [] }

/-- The level that was set is the one that is read. -/
@[simp]
theorem logLevel_setLogLevel (logger : Logger) (level : LogLevel) :
    (logger.setLogLevel level).logLevel = level := by
  have hlt := level.asUsize_lt
  have hcell : (UInt8.ofNat level.asUsize).toNat = level.asUsize := by
    rw [UInt8.toNat_ofNat']
    omega
  rw [logLevel, setLogLevel, hcell, LogLevel.fromUsize_asUsize, Option.getD_some]

@[simp] theorem sinks_setLogLevel (logger : Logger) (level : LogLevel) :
    (logger.setLogLevel level).sinks = logger.sinks := rfl

@[simp] theorem sinks_addFilter (logger : Logger) (filter : Filter) :
    (logger.addFilter filter).sinks = logger.sinks := rfl

@[simp] theorem sinks_clearFilters (logger : Logger) : logger.clearFilters.sinks = logger.sinks :=
  rfl

end Logger

/-! ### Handling a message -/

/-- The level check of the worker: whether it goes on with a message of this level. -/
def Metadata.meetsLevel (metadata : Metadata) (level : LogLevel) : Bool :=
  decide (¬ metadata.level.asUsize < level.asUsize)

/-- The filter check of the worker. -/
def Metadata.passesFilters (metadata : Metadata) (filters : List Filter) (payload : List UInt8) :
    Bool :=
  filters.all fun f => f metadata payload

end RapidLog
