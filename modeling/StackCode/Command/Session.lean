import StackCode.Command.Plan
import StackCode.Disk

/-!
# Carrying out commands

What a command does to the files and what it prints. A program may run forever, so there
is a bound on the steps, and no answer if it is reached.
-/

namespace StackCode.Command

/-- The exit status that the operating system reports for an exit code. -/
def exitStatus (code : Int32) : Nat := (code.toInt % 256).toNat

/-- What is on standard error after a run, and the exit status; nothing if it is not over. -/
def ending? : Progress → Option (String × Nat)
  | .running _ => none
  | .returned _ _ => some ("", 0)
  | .failed f _ => some (f.message ++ "\n", exitStatus f.exitCode)

/-- The machine after a run. -/
def machineOf : Progress → Machine
  | .running m => m
  | .returned _ m => m
  | .failed _ m => m

/-- Run an image for at most a number of steps; nothing if it is not over then. What the machine
reports is logged behind `log`. -/
def runImage (fuel : Nat) (env : Environment) (debug : Bool) (log : List LogEvent) (img : Image) :
    Option Outcome :=
  let start : Machine := { image := img, sink := env.stdout }
  let progress := start.run fuel
  (ending? progress).map fun (message, exit) =>
    let shown := env.shown debug
    let events := if shown.isSome then (start.trace fuel #[]).toList.map LogEvent.reported else []
    { stdout := Text.Utf8.lossy (machineOf progress).sink.written.toList
      stderr := logText shown (log ++ events) ++ message
      exit := exit }

section FileSystem

variable {σ : Type} [FileSystem σ]

/-- Carry out a plan in a file system, with a bound on the steps of a run; nothing if the bound is
reached. -/
def Plan.carryOut (fuel : Nat) (env : Environment) (debug : Bool) (s : σ) : Plan → Option (Outcome × σ)
  | .report log outcome =>
    some ({ outcome with stderr := logText (env.shown debug) log ++ outcome.stderr }, s)
  | .save log path content =>
    match FileSystem.write s path content.toArray with
    | (s, none) =>
      some ({ stderr := logText (env.shown debug) (log ++ [.wrote path content.length]) }, s)
    | (s, some e) =>
      let outcome := saveFailure path e
      some ({ outcome with stderr := logText (env.shown debug) log ++ outcome.stderr }, s)
  | .execute log img => (runImage fuel env debug log img).map fun outcome => (outcome, s)

/-- Carry out a command in a file system. -/
def carryOut (fuel : Nat) (env : Environment) (s : σ) (c : Command) : Option (Outcome × σ) :=
  (c.plan (FileSystem.find s (c.file?.getD ""))).carryOut fuel env c.debug s

/-- Carry out a command line in a file system. -/
def carryOutArguments (fuel : Nat) (s : σ) (args : List String) (env : Environment := {}) :
    Option (Outcome × σ) :=
  match ofArguments? args with
  | some c => c.carryOut fuel env s
  | none => some ({ stderr := usage ++ "\n", exit := 2 }, s)

end FileSystem

end StackCode.Command
