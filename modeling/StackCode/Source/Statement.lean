import StackCode.Builtin
import StackCode.Instruction
import StackCode.Text.Blank
import StackCode.Text.Hex

/-!
# Statements of source text

Source text has one statement on a line: a label, the mark `.data`, an instruction
before that mark, and data after it. Blank lines and lines that begin with `#` say
nothing. Blanks at the ends of a line never count, so a string or a text of data
cannot end in a blank.

Statements are read line by line, each without regard to the others, except that the
lines after the mark are read as data.
-/

namespace StackCode.Source

/-- What is wrong with a line. -/
inductive Mistake where
  /-- No opcode has this mnemonic. -/
  | unknownMnemonic (name : String)
  /-- No builtin has this name. -/
  | unknownBuiltin (name : String)
  /-- No line defines this label. -/
  | unknownLabel (name : String)
  /-- The instruction has too many or too few arguments. -/
  | arity (op : Opcode) (expected found : Nat)
  /-- The argument is not a signed word. -/
  | invalidInteger (text : String)
  /-- The word is not a byte of data. -/
  | invalidHexByte (text : String)
  /-- An earlier line defines this label. -/
  | duplicateLabel (name : String)
  /-- The instruction has no encoding. -/
  | codec (error : CodecError)
  deriving DecidableEq

/-- The message of a mistake. -/
def Mistake.message : Mistake → String
  | .unknownMnemonic name => "unknown instruction " ++ name
  | .unknownBuiltin name => "unknown builtin " ++ name
  | .unknownLabel name => "unknown label " ++ name
  | .arity op expected found =>
    "wrong number of arguments to " ++ op.mnemonic ++ ": expected " ++
      Text.Decimal.ofNat expected ++ ", got " ++ Text.Decimal.ofNat found
  | .invalidInteger text => "invalid integer " ++ text
  | .invalidHexByte text => "invalid hex byte " ++ text
  | .duplicateLabel name => "label " ++ name ++ " defined twice"
  | .codec error => error.message

/-- What stands where a position is wanted. -/
inductive Target where
  /-- The position itself. -/
  | position (n : Int32)
  /-- The name of a label. -/
  | label (name : String)
  deriving DecidableEq

/-- An argument of an instruction in source text. -/
inductive Argument where
  /-- An integer. -/
  | int (n : Int32)
  /-- A position. -/
  | target (t : Target)
  /-- A string or the name of a builtin. -/
  | text (bytes : List UInt8)
  /-- The positions of a jump table. -/
  | table (ts : List Target)
  deriving DecidableEq

/-- What a line of source text says. -/
inductive Statement where
  /-- Nothing. -/
  | blank
  /-- A name for the position of the next byte. -/
  | label (name : String)
  /-- What follows is data. -/
  | dataMark
  /-- Bytes of data. -/
  | bytes (bytes : List UInt8)
  /-- An instruction. -/
  | code (op : Opcode) (args : List Argument)
  deriving DecidableEq

/-! ### Positions -/

/-- The word that is written for a target while lines are read: the name of a label becomes a zero. -/
def Target.blank : Target → Int32
  | .position n => n
  | .label _ => 0

/-- The operand that is written for an argument while lines are read. It takes as many bytes as the one
in which the names have become positions. -/
def Argument.blank : Argument → Operand
  | .int n => .int n
  | .target t => .int t.blank
  | .text bytes => .text bytes
  | .table ts => .table (ts.map Target.blank)

/-- What a target leaves open at a site: nothing, or the position of a label. -/
def Target.pending (site : Nat) : Target → List (Nat × String)
  | .position _ => []
  | .label name => [(site, name)]

/-- What an argument leaves open, and where: the one with index `i` of an instruction whose opcode is at
`start`. In front of a position there are only arguments of a word each, and in front of the positions of
a jump table there is their number. -/
def Argument.pending (start i : Nat) : Argument → List (Nat × String)
  | .target t => t.pending (start + 1 + 4 * i)
  | .table ts => ts.zipIdx.flatMap fun (t, k) => t.pending (start + 1 + 4 + 4 * k)
  | _ => []

/-- What the arguments of an instruction leave open, and where. -/
def pending (start : Nat) (args : List Argument) : List (Nat × String) :=
  args.zipIdx.flatMap fun (arg, i) => arg.pending start i

/-! ### Reading a line -/

/-- Read an integer. -/
def readInt (word : List Char) : Except Mistake Int32 :=
  match Text.Decimal.toInt32? word with
  | some n => .ok n
  | none => .error (.invalidInteger (String.ofList word))

/-- Read a position: a signed word is one itself, anything else is the name of a label. -/
def readTarget (word : List Char) : Target :=
  match Text.Decimal.toInt32? word with
  | some n => .position n
  | none => .label (String.ofList word)

/-- Read an argument of a kind, which has to be one word. -/
def readArgument (op : Opcode) (word : List Char) : OperandKind → Except Mistake Argument
  | .int => (readInt word).map .int
  | .label => .ok (.target (readTarget word))
  | .builtin =>
    match Builtin.ofName? (String.ofList word) with
    | some _ => .ok (.text (Text.Utf8.encodeChars word))
    | none => .error (.unknownBuiltin (String.ofList word))
  | .string => .ok (.text (Text.Utf8.encodeChars word))
  | .labelTable => .error (.codec (.operandMismatch op))

/-- Read a jump table: a count and exactly that many positions. -/
def readTable (op : Opcode) : List (List Char) → Except Mistake (List Argument)
  | [] => .error (.arity op 1 0)
  | first :: targets => do
    let count ← readInt first
    if Word.toNat? count = some targets.length then
      return [.table (targets.map readTarget)]
    else throw (.arity op count.toInt.toNat targets.length)

/-- Read the arguments of an opcode. A string is the whole rest of the line. -/
def readArguments (op : Opcode) (rest : List Char) : Except Mistake (List Argument) :=
  match op.signature with
  | [.string] => .ok [.text (Text.Utf8.encodeChars rest)]
  | [.labelTable] => readTable op (Text.words rest)
  | kinds =>
    let words := Text.words rest
    if words.length = kinds.length then
      (words.zip kinds).mapM fun (word, kind) => readArgument op word kind
    else .error (.arity op kinds.length words.length)

/-- Read an instruction. -/
def readCode (line : List Char) : Except Mistake Statement :=
  let (name, rest) := Text.splitFirst line
  match Opcode.ofMnemonic? (String.ofList name) with
  | none => .error (.unknownMnemonic (String.ofList name))
  | some op => do
    let args ← readArguments op rest
    match Instruction.encode ⟨op, args.map Argument.blank⟩ with
    | .ok _ => return .code op args
    | .error error => throw (.codec error)

/-- Read a byte of data. -/
def readByte (word : List Char) : Except Mistake UInt8 :=
  match Text.Hex.readByte? word with
  | some b => .ok b
  | none => .error (.invalidHexByte (String.ofList word))

/-- Read a line of data: bytes in hexadecimal, or a text with a NUL to end it. -/
def readData (line : List Char) : Except Mistake (List UInt8) :=
  match line with
  | '0' :: 'x' :: _ => (Text.words line).mapM readByte
  | '0' :: 'X' :: _ => (Text.words line).mapM readByte
  | _ => .ok (Text.Utf8.encodeChars line ++ [0])

/-- Read a trimmed line; `inData` says whether the mark `.data` stands above it. -/
def Statement.read (inData : Bool) (line : List Char) : Except Mistake Statement :=
  match line with
  | [] => .ok .blank
  | '#' :: _ => .ok .blank
  | ':' :: name => .ok (.label (String.ofList name))
  | ['.', 'd', 'a', 't', 'a'] => .ok .dataMark
  | _ => if inData then (readData line).map .bytes else readCode line

end StackCode.Source
