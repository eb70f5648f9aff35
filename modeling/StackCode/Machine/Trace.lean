import StackCode.Machine.Step

/-!
# Traces

What a machine reports while it runs: every instruction before it is executed, with the
stack and the frames, and the values left on the stack when the program returns.
-/

namespace StackCode

/-- Something that a machine reports. -/
inductive Event where
  /-- An instruction is about to be executed. -/
  | instruction (text : String)
  /-- The program returns and leaves values on the stack. -/
  | leftover (count : Nat)
  deriving DecidableEq

/-- The text of an event. -/
def Event.text : Event → String
  | .instruction text => text
  | .leftover count => "values left on the stack at exit remaining=" ++ Text.Decimal.ofNat count

/-- An event as a line of a log. -/
def Event.logLine : Event → String
  | .instruction text => "TRACE " ++ text
  | .leftover count => "DEBUG " ++ (Event.leftover count).text

namespace Machine

/-- An instruction with the stack and the frames before it is executed. -/
def traceText (m : Machine) (i : Instruction) : String :=
  Text.Decimal.ofNat m.ip ++ ": " ++ i.display ++ ": " ++ m.printer.rawList m.stack.reverse ++
    " " ++ m.printer.activation m.current

/-- What the next step of a machine reports. -/
def events (m : Machine) : List Event :=
  match m.fetch with
  | .error _ => []
  | .ok (i, size) =>
    .instruction (m.traceText i) ::
      match m.dispatch i size with
      | .ok (some _) after =>
        if after.stack.isEmpty then [] else [.leftover after.stack.length]
      | _ => []

/-- What a machine reports in at most a number of steps, behind what it has reported. -/
def trace : Nat → Machine → Array Event → Array Event
  | 0, _, done => done
  | fuel + 1, m, done =>
    let done := done ++ m.events
    match m.step with
    | .running m => trace fuel m done
    | _ => done

end Machine

end StackCode
