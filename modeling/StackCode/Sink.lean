/-!
# Output

A program writes its output to a sink. A sink may have a capacity: a write that does
not fit leaves what fits and fails. A sink may also refuse to be flushed.
-/

namespace StackCode

/-- Where output goes. -/
structure Sink where
  /-- What has been written. -/
  written : Array UInt8 := #[]
  /-- How many bytes it takes in all, if there is a limit. -/
  capacity : Option Nat := none
  /-- Whether it refuses to be flushed. -/
  refusesFlush : Bool := false
  deriving DecidableEq

namespace Sink

/-- How many of `wanted` bytes still fit. -/
def room (s : Sink) (wanted : Nat) : Nat :=
  match s.capacity with
  | none => wanted
  | some n => min wanted (n - s.written.size)

/-- Why a write fails. -/
def fullReason : String := "sink full"

/-- Why a flush fails. -/
def flushReason : String := "flush refused"

/-- Write bytes; what fits is kept, and the reason is given if it is not all. -/
def write (s : Sink) (bytes : List UInt8) : Sink × Option String :=
  let wanted := bytes.length
  let fits := s.room wanted
  ({ s with written := s.written ++ bytes.take fits },
    if fits < wanted then some fullReason else none)

/-- Flush; the reason is given if that fails. -/
def flush (s : Sink) : Option String := if s.refusesFlush then some flushReason else none

end Sink

end StackCode
