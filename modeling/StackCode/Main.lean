import StackCode.Command.Session

/-!
# The program

Reads the file of a command, carries out its plan, and gives the exit status. Output of a
running program is written as it goes.
-/

namespace StackCode.Program

/-- The number of an error of the operating system, which may come with its sign reversed. -/
def errorNumber (number : UInt32) : UInt32 := min number (0 - number)

/-- The file error that an error of the operating system is. -/
def fileError (e : IO.Error) : FileError :=
  match e with
  | .noFileOrDirectory _ _ _ => .notFound
  | .permissionDenied _ _ _ => .permissionDenied
  | .inappropriateType _ number _ =>
    if errorNumber number = 21 then .isDirectory else .notDirectory
  | .invalidArgument _ number details =>
    if errorNumber number = 36 then .nameTooLong else .other details
  | e => .other (toString e)

/-- Read a file. -/
def readFile (path : String) : IO Found := do
  try
    let content ← IO.FS.readBinFile path
    return ⟨.ok content.size, .ok content.data⟩
  catch e => return ⟨.error (fileError e), .error (fileError e)⟩

/-- How many steps are made between two writes. -/
def stepsPerWrite : Nat := 4096

/-- Write the output of a machine and take it out of the sink. -/
def drain (m : Machine) : IO Machine := do
  let out ← IO.getStdout
  out.write ⟨m.sink.written⟩
  out.flush
  return { m with sink := { m.sink with written := #[] } }

/-- Run a machine to its end. -/
partial def runOn (trace : Bool) (m : Machine) : IO UInt32 := do
  if trace then
    for e in m.events do
      IO.eprintln e.logLine
  let progress := m.run (if trace then 1 else stepsPerWrite)
  let m ← drain (Command.machineOf progress)
  match Command.ending? progress with
  | none => runOn trace m
  | some (message, exit) =>
    IO.eprint message
    return UInt32.ofNat exit

/-- Report an outcome. -/
def report (outcome : Command.Outcome) : IO UInt32 := do
  IO.print outcome.stdout
  IO.eprint outcome.stderr
  return UInt32.ofNat outcome.exit

/-- Write events to the log, if it is asked for. There is no filter. -/
def writeLog (debug : Bool) (log : List Command.LogEvent) : IO Unit :=
  IO.eprint (Command.logText (({} : Command.Environment).shown debug) log)

/-- Carry out a plan. -/
def carryOut (debug : Bool) : Command.Plan → IO UInt32
  | .report log outcome => do
    writeLog debug log
    report outcome
  | .save log path content => do
    writeLog debug log
    try
      IO.FS.writeBinFile path ⟨content.toArray⟩
      writeLog debug [.wrote path content.length]
      return 0
    catch e => report (Command.saveFailure path (fileError e))
  | .execute log img => do
    writeLog debug log
    runOn debug { image := img }

end StackCode.Program

/-- The program. -/
def main (args : List String) : IO UInt32 := do
  match StackCode.Command.ofArguments? args with
  | none =>
    IO.eprintln StackCode.Command.usage
    return 2
  | some c =>
    let content ← StackCode.Program.readFile (c.file?.getD "")
    StackCode.Program.carryOut c.debug (c.plan content)
