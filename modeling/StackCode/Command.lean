/-!
# The command line

There are four commands: assemble a source file into a binary file, list a binary file,
run a binary file, and assemble and run a source file at once. Each takes one file and at
most one option, before or behind the file. Help and the version can be asked for instead.
-/

namespace StackCode

/-- What the user asks for. -/
inductive Command where
  /-- Print the version. -/
  | version
  /-- Print help, on a command if one is named. -/
  | help (topic : Option String)
  /-- Assemble a source file, and write the image to a file. -/
  | assemble (file : String) (output : Option String)
  /-- List a binary file, as a document or as text. -/
  | list (file : String) (json : Bool)
  /-- Run a binary file. -/
  | run (file : String) (debug : Bool)
  /-- Assemble and run a source file. -/
  | exec (file : String) (debug : Bool)
  deriving DecidableEq

namespace Command

/-! ### Arguments -/

/-- What the arguments of a command have given so far. -/
structure Given where
  /-- The file. -/
  file : Option String := none
  /-- The value of the option. -/
  value : Option String := none
  /-- Whether the flag is set. -/
  flag : Bool := false
  /-- Whether help is asked for. -/
  help : Bool := false

/-- The option with a value and the flag that a command knows, each with its spellings. -/
structure Options where
  /-- The spellings of the option with a value: a letter and a word. -/
  value : Option (Char × String) := none
  /-- The letter of the flag. -/
  letter : Option Char := none
  /-- The word of the flag. -/
  word : Option String := none

/-- Take a file. -/
def Given.takeFile (g : Given) (file : String) : Option Given :=
  if g.file.isSome || file.isEmpty then none else some { g with file := some file }

/-- Take the value of the option. -/
def Given.takeValue (g : Given) (value : String) : Option Given :=
  if g.value.isSome || value.isEmpty then none else some { g with value := some value }

/-- Take the flag. -/
def Given.takeFlag (g : Given) : Option Given :=
  if g.flag then none else some { g with flag := true }

/-- Take a request for help. -/
def Given.takeHelp (g : Given) : Given := { g with help := true }

/-- How an argument is to be read. -/
inductive Reading where
  /-- It is a file. -/
  | file
  /-- It is the flag. -/
  | flag
  /-- It asks for help. -/
  | help
  /-- It is the flag and asks for help. -/
  | flagHelp
  /-- It is the option, and the next argument is its value. -/
  | option
  /-- It is the option with its value. -/
  | optionValue (value : String)
  /-- All that follows are files. -/
  | rest
  /-- It is not understood. -/
  | unknown

/-- Read a word behind two dashes. -/
def Options.readWord (o : Options) (word : List Char) : Reading :=
  let name := String.ofList (word.takeWhile (· ≠ '='))
  let value := word.dropWhile (· ≠ '=')
  if name = "help" ∧ value.isEmpty then .help
  else if o.word = some name ∧ value.isEmpty then .flag
  else if o.value.map Prod.snd = some name then
    if value.isEmpty then .option else .optionValue (String.ofList (value.drop 1))
  else .unknown

/-- Read letters behind a dash. Flags may stand together. -/
def Options.readLetters (o : Options) (letter : Char) (more : List Char) : Reading :=
  if letter = 'h' then .help
  else if o.letter = some letter then
    match more with
    | [] => .flag
    | 'h' :: _ => .flagHelp
    | _ => .unknown
  else if o.value.map Prod.fst = some letter then
    match more with
    | [] => .option
    | '=' :: value => .optionValue (String.ofList value)
    | value => .optionValue (String.ofList value)
  else .unknown

/-- Read an argument. -/
def Options.read (o : Options) (arg : String) : Reading :=
  match arg.toList with
  | ['-', '-'] => .rest
  | '-' :: '-' :: word => o.readWord word
  | '-' :: letter :: more => o.readLetters letter more
  | _ => .file

/-- Read the arguments of a command. What follows a request for help does not matter. -/
def Options.readAll (o : Options) : Given → List String → Option Given
  | g, [] => some g
  | g, arg :: args =>
    match o.read arg with
    | .file => (g.takeFile arg).bind fun g => o.readAll g args
    | .flag => g.takeFlag.bind fun g => o.readAll g args
    | .help => some g.takeHelp
    | .flagHelp => g.takeFlag.map Given.takeHelp
    | .optionValue value => (g.takeValue value).bind fun g => o.readAll g args
    | .rest => args.foldlM Given.takeFile g
    | .unknown => none
    | .option =>
      match args with
      | [] => none
      | value :: args =>
        if value.startsWith "-" && value ≠ "-" then none
        else (g.takeValue value).bind fun g => o.readAll g args

/-- The options of the commands that run a program. -/
def debugOptions : Options := { letter := some 'd', word := some "debug" }

/-- Whether an argument asks for the version: the word, or letters of which the first is
the letter for it. -/
def asksVersion (arg : String) : Bool := arg == "--version" || arg.startsWith "-V"

/-- Whether an argument asks for help, in the same way. -/
def asksHelp (arg : String) : Bool := arg == "--help" || arg.startsWith "-h"

/-- What there is help on. -/
def topics : List String := ["asm", "dis", "run", "exec", "help"]

/-- The command that was asked for, or help on it. -/
def orHelp (name : String) (g : Given) (command : String → Command) : Option Command :=
  if g.help then some (.help (some name)) else g.file.map command

/-- Read a command line. What follows a request for the version or for help does not matter. -/
def ofArguments? : List String → Option Command
  | "asm" :: args => do
    let g ← Options.readAll { value := some ('o', "output") } {} args
    orHelp "asm" g fun file => .assemble file g.value
  | "dis" :: args => do
    let g ← Options.readAll { word := some "json" } {} args
    orHelp "dis" g fun file => .list file g.flag
  | "run" :: args => do
    let g ← debugOptions.readAll {} args
    orHelp "run" g fun file => .run file g.flag
  | "exec" :: args => do
    let g ← debugOptions.readAll {} args
    orHelp "exec" g fun file => .exec file g.flag
  | ["help"] => some (.help none)
  | ["help", topic] => if topic ∈ topics then some (.help (some topic)) else none
  | arg :: _ =>
    if asksVersion arg then some .version
    else if asksHelp arg then some (.help none)
    else none
  | [] => none

/-- What is printed as help, and when the arguments are not understood. -/
def usage : String :=
  "usage: bci asm FILE [-o OUTPUT] | dis FILE [--json] | run FILE [-d] | exec FILE [-d]"

/-- The file that a command reads. -/
def file? : Command → Option String
  | version => none
  | help _ => none
  | assemble file _ => some file
  | list file _ => some file
  | run file _ => some file
  | exec file _ => some file

/-- Whether the command is to log what happens. -/
def debug : Command → Bool
  | run _ debug => debug
  | exec _ debug => debug
  | _ => false

end Command

end StackCode
