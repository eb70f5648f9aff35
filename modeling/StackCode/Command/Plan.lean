import StackCode.Command
import StackCode.Command.Log
import StackCode.FileSystem
import StackCode.Listing
import StackCode.Source.Assembly

/-!
# Plans

A command first reads its file. What is to be done then does not depend on the file
system any more and is called a plan: report something, save a file, or run an image.
A plan begins with the events that are to be logged before.
-/

namespace StackCode.Command

/-- What a command leaves behind besides files. -/
structure Outcome where
  /-- Its standard output. -/
  stdout : String := ""
  /-- Its standard error. -/
  stderr : String := ""
  /-- Its exit status. -/
  exit : Nat := 0
  deriving DecidableEq

/-- What remains to be done once the file of a command is read. -/
inductive Plan where
  /-- Nothing but to report this. -/
  | report (log : List LogEvent) (outcome : Outcome)
  /-- Write a file. -/
  | save (log : List LogEvent) (path : String) (content : List UInt8)
  /-- Run an image. -/
  | execute (log : List LogEvent) (img : Image)

/-- A failure with a line on standard error. -/
def Outcome.failed (message : String) : Outcome := { stderr := message ++ "\n", exit := 1 }

/-- The name and the version of the program. -/
def versionText : String := "bci 0.1.0"

/-- The greatest size of a source file. -/
def maxSourceSize : Nat := 10 * 1024 * 1024

/-- What is wrong with a source file that cannot be read. -/
def unreadable (file reason : String) : String := "Error: cannot read file " ++ file ++ ": " ++ reason

/-- The text of a source file, or what is wrong with the file. Its size is looked at before it is
read. -/
def sourceText (file : String) (found : Found) : Except String String :=
  match found.size with
  | .error e => .error (unreadable file e.message)
  | .ok size =>
    if maxSourceSize < size then
      .error ("Error: file " ++ file ++ " is too large (" ++ Text.Decimal.ofNat size ++
        " bytes, max " ++ Text.Decimal.ofNat maxSourceSize ++ " bytes)")
    else
      match found.content with
      | .error e => .error (unreadable file e.message)
      | .ok bytes =>
        match Text.Utf8.decode? bytes.toList with
        | some text => .ok text
        | none => .error (unreadable file "stream did not contain valid UTF-8")

/-- Assemble a source file: the image and how many labels the source has, or what is wrong
with it. -/
def assembleFile (file : String) (found : Found) : Except String (Image × Nat) := do
  let text ← sourceText file found
  let assembled := do
    let draft ← Source.Draft.ofSource text
    let img ← draft.finish
    return (img, draft.labels.length)
  match assembled with
  | .ok found => return found
  | .error e => throw ("Assembly error in " ++ file ++ ": " ++ e.message)

/-- What a binary file holds, or what is wrong with it. -/
def loadFile (file : String) (content : Except FileError (Array UInt8)) : Except String Image :=
  match content with
  | .error e => .error ("Error: cannot read " ++ file ++ ": " ++ e.message)
  | .ok bytes =>
    match Image.ofBytes bytes.toList with
    | .ok img => .ok img
    | .error e => .error ("Error: " ++ e.message)

/-- Where the image of a source file goes if nothing is said: `.bin` takes the place of a
final `.bci` after a name, and is added to any other name. After a name that is one dot,
nothing takes the place of `bci`: two dots mean a directory, and that has no ending. -/
def defaultOutput (file : String) : String :=
  match file.toList.reverse with
  | 'i' :: 'c' :: 'b' :: '.' :: stem =>
    let name := stem.takeWhile (· ≠ '/')
    if name = [] then file ++ ".bin"
    else String.ofList stem.reverse ++ if name = ['.'] then "." else ".bin"
  | _ => file ++ ".bin"

/-- The event that a source is assembled. -/
def assembledEvent (img : Image) (labels : Nat) : LogEvent := .assembled img.size img.dataOffset labels

/-- The event that a binary file is read, if it is. -/
def loadedEvents (file : String) : Except FileError (Array UInt8) → List LogEvent
  | .ok bytes => [.loaded file bytes.size]
  | .error _ => []

/-- The plan of a command, given what is said about its file. -/
def plan (c : Command) (found : Found) : Plan :=
  match c with
  | version => .report [] { stdout := versionText ++ "\n" }
  | help _ => .report [] { stdout := usage ++ "\n" }
  | assemble file output =>
    match assembleFile file found with
    | .ok (img, labels) =>
      .save [assembledEvent img labels] (output.getD (defaultOutput file)) img.bytes
    | .error message => .report [] (.failed message)
  | list file json =>
    let log := loadedEvents file found.content
    match loadFile file found.content with
    | .error message => .report log (.failed message)
    | .ok img =>
      match Listing.ofImage img with
      | .ok l => .report log { stdout := if json then l.json ++ "\n" else l.display }
      | .error e => .report log (.failed ("Disassembly error: " ++ e.message))
  | run file _ =>
    let log := loadedEvents file found.content
    match loadFile file found.content with
    | .ok img => .execute log img
    | .error message => .report log (.failed message)
  | exec file _ =>
    match assembleFile file found with
    | .ok (img, labels) => .execute [assembledEvent img labels] img
    | .error message => .report [] (.failed message)

/-- What a command reports when it cannot write its file. -/
def saveFailure (path : String) (e : FileError) : Outcome :=
  .failed ("Error: cannot write " ++ path ++ ": " ++ e.message)

end StackCode.Command
