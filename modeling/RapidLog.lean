import RapidLog.Lib.Endian
import RapidLog.Lib.Slice
import RapidLog.Lib.FlatMap
import RapidLog.Lib.Repeats
import RapidLog.Lib.Transition
import RapidLog.Lib.Simulation
import RapidLog.Lib.Memo
import RapidLog.Lib.Potential
import RapidLog.Lib.RingBuffer
import RapidLog.Lib.Files
import RapidLog.Lib.Handles
import RapidLog.Lib.RefCounts
import RapidLog.Lib.Utf8
import RapidLog.Lib.SliceWriter
import RapidLog.Lib.Template
import RapidLog.Lib.Int64
import RapidLog.Lib.Unsigned
import RapidLog.Config
import RapidLog.Message
import RapidLog.Logger
import RapidLog.Queue
import RapidLog.Queue.Framing
import RapidLog.Queue.Refinement
import RapidLog.Queue.OpenFrame
import RapidLog.Queue.Bounds
import RapidLog.Queue.Attempt
import RapidLog.Queue.Overflow
import RapidLog.Queue.Capacity
import RapidLog.Queue.Exposure
import RapidLog.ThreadContext
import RapidLog.ThreadContext.Invariant
import RapidLog.ThreadContext.Streams
import RapidLog.ThreadContext.Snapshot
import RapidLog.ThreadContext.Work
import RapidLog.ThreadContext.Nested
import RapidLog.ThreadContext.Steps
import RapidLog.ThreadContext.Unbounded
import RapidLog.ThreadContext.Registry
import RapidLog.ThreadContext.Retry
import RapidLog.Frontend
import RapidLog.Arg
import RapidLog.Arg.Body
import RapidLog.Arg.Grammar
import RapidLog.Arg.Positions
import RapidLog.Arg.Numbers
import RapidLog.Arg.Locality
import RapidLog.Arg.Safety
import RapidLog.Arg.Escapes
import RapidLog.Arg.Encode
import RapidLog.Arg.Integers
import RapidLog.Arg.Strings
import RapidLog.Arg.Reserve
import RapidLog.Arg.Tables
import RapidLog.Arg.Shows
import RapidLog.Arg.Logged
import RapidLog.Derive
import RapidLog.Derive.Logged
import RapidLog.Derive.Schema
import RapidLog.Derive.Bodies
import RapidLog.Derive.Scoping
import RapidLog.Arg.Shipped
import RapidLog.Arg.RoundTrip
import RapidLog.Derive.RoundTrip
import RapidLog.Arg.Names
import RapidLog.Derive.Documented
import RapidLog.Derive.ByteOrder
import RapidLog.Arg.Sizes
import RapidLog.CallSite
import RapidLog.Arg.Offsets
import RapidLog.CallSite.Closure
import RapidLog.CallSite.Escapes
import RapidLog.CallSite.Evaluation
import RapidLog.CallSite.Passes
import RapidLog.Sinks.Rotating
import RapidLog.Sinks.Rotating.Lines
import RapidLog.Sinks.Rotating.Lifetimes
import RapidLog.Sinks.Rotating.Failures
import RapidLog.Sinks.Rotating.Limit
import RapidLog.Sinks.Rotating.Intervals
import RapidLog.Sinks.Rotating.Steps
import RapidLog.Sinks.Rotating.Crash
import RapidLog.Sinks.File
import RapidLog.Sinks.File.Contents
import RapidLog.Backend
import RapidLog.Backend.Steps
import RapidLog.Backend.Invariant
import RapidLog.Backend.Unwinding
import RapidLog.Backend.Conservation
import RapidLog.Backend.Order
import RapidLog.Backend.Messages
import RapidLog.Backend.Shutdown
import RapidLog.Backend.Causality
import RapidLog.Backend.Termination
import RapidLog.Logger.Registry
import RapidLog.Logger.Registry.Lifetimes
import RapidLog.Formatter
import RapidLog.Timestamp
import RapidLog.Pipeline
import RapidLog.Pipeline.Immediate
import RapidLog.Pipeline.Invariant
import RapidLog.Pipeline.Deferred
import RapidLog.Program
