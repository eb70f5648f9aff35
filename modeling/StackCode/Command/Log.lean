import StackCode.Machine.Trace

/-!
# Logging

What is logged while a command is carried out: files that are read and written, sources that are
assembled, and what a machine reports. The log goes to standard error. Which events are in it is
decided by a filter in the environment variable `RUST_LOG`; without one, all are if the command asks
for it, and none otherwise. How a filter is spelled is up to the logging library and not modelled.
-/

namespace StackCode.Command

/-- Something that can be logged. -/
inductive LogEvent where
  /-- A source is assembled. -/
  | assembled (size dataOffset labels : Nat)
  /-- A binary file is read. -/
  | loaded (path : String) (size : Nat)
  /-- A binary file is written. -/
  | wrote (path : String) (size : Nat)
  /-- A machine reports something. -/
  | reported (event : Event)
  deriving DecidableEq

/-- An event as a line of the log. -/
def LogEvent.line : LogEvent → String
  | .assembled size dataOffset labels =>
    "DEBUG assembled module size=" ++ Text.Decimal.ofNat size ++ " data_offset=" ++
      Text.Decimal.ofNat dataOffset ++ " labels=" ++ Text.Decimal.ofNat labels
  | .loaded path size => "DEBUG loaded module path=" ++ path ++ " size=" ++ Text.Decimal.ofNat size
  | .wrote path size => "DEBUG wrote module path=" ++ path ++ " size=" ++ Text.Decimal.ofNat size
  | .reported event => event.logLine

/-- What a command is given besides its arguments and the files. -/
structure Environment where
  /-- Which events the filter in `RUST_LOG` lets through, if there is a valid one. -/
  filter : Option (LogEvent → Bool) := none
  /-- Where the standard output of a program goes. -/
  stdout : Sink := {}

/-- Which events are logged; nothing if none are. -/
def Environment.shown (env : Environment) (debug : Bool) : Option (LogEvent → Bool) :=
  env.filter.or (if debug then some fun _ => true else none)

/-- The log of some events. -/
def logText (shown : Option (LogEvent → Bool)) (events : List LogEvent) : String :=
  match shown with
  | none => ""
  | some shows => String.join ((events.filter shows).map fun e => e.line ++ "\n")

end StackCode.Command
