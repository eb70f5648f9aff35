import StackCode.Builder.Block
import StackCode.Builtin

/-!
# Building a program

A compiler emits each body of code into a block of its own and every constant into a
common pool of data; linking (`StackCode.Link`) lays the blocks out and fills in the
addresses.

Labels are positions in code. Every block has a label at its start; others are made
first and placed later, possibly in another block, or made where they stand.
-/

namespace StackCode

/-- A position in code. -/
structure Place where
  /-- The block it is in. -/
  block : BlockId
  /-- The offset in that block. -/
  offset : Nat
  deriving DecidableEq

/-- Why a program cannot be linked. -/
inductive LinkError where
  /-- A label is referred to and stands nowhere. -/
  | unresolvedLabel (label start : Label) (offset : Nat)
  /-- The label is not one of this builder. -/
  | foreignLabel (label : Label)
  /-- An address does not fit into a word. -/
  | addressOverflow (address : Nat)
  deriving DecidableEq

/-- The message of a link error. -/
def LinkError.message : LinkError → String
  | .unresolvedLabel label start offset =>
    "unresolved label " ++ label.name ++ " referenced from block " ++ start.name ++ " at offset " ++
      Text.Decimal.ofNat offset
  | .foreignLabel label => "label " ++ label.name ++ " was not created by this builder"
  | .addressOverflow address =>
    "address " ++ Text.Decimal.ofNat address ++ " does not fit in a 32-bit operand"

/-- A program that is being built. -/
structure Builder where
  /-- The blocks, in the order in which they were made. -/
  blocks : List Builder.Block := []
  /-- Where each label stands, if it stands anywhere. -/
  labels : List (Option Place) := []
  /-- The pool of data. -/
  data : List UInt8 := []
  deriving DecidableEq

namespace Builder

/-- How many bytes of code there are. -/
def codeSize (b : Builder) : Nat := (b.blocks.flatMap Block.code).length

/-- The offset of the next byte of a block. -/
def offset (b : Builder) (id : BlockId) : Nat := (b.blocks[id.number]?.map Block.size).getD 0

/-- The label at the start of a block. -/
def startLabel (b : Builder) (id : BlockId) : Label :=
  (b.blocks[id.number]?.map Block.start).getD ⟨0⟩

/-- Change a block. -/
def modifyBlock (b : Builder) (id : BlockId) (change : Block → Block) : Builder :=
  { b with blocks := b.blocks.modify id.number change }

/-! ### Labels -/

/-- Make a label that stands nowhere yet. -/
def newLabel (b : Builder) : Label × Builder :=
  (⟨b.labels.length⟩, { b with labels := b.labels ++ [none] })

/-- Make an empty block. -/
def createBlock (b : Builder) : BlockId × Builder :=
  let id : BlockId := ⟨b.blocks.length⟩
  (id,
    { b with
      blocks := b.blocks ++ [{ start := ⟨b.labels.length⟩ }]
      labels := b.labels ++ [some ⟨id, 0⟩] })

/-- Make a label at the end of a block. -/
def markLabel (b : Builder) (id : BlockId) : Label × Builder :=
  (⟨b.labels.length⟩, { b with labels := b.labels ++ [some ⟨id, b.offset id⟩] })

/-- Place a label at the end of a block, wherever it stood before. -/
def placeLabel (b : Builder) (id : BlockId) (l : Label) : Except LinkError Builder :=
  if l.number < b.labels.length then
    .ok { b with labels := b.labels.set l.number (some ⟨id, b.offset id⟩) }
  else .error (.foreignLabel l)

/-! ### Code -/

/-- Emit an instruction into a block. The arguments have to be those of the opcode's
signature and free of NULs. -/
def emit (b : Builder) (id : BlockId) (op : Opcode) (args : List Argument) :
    Except CodecError Builder :=
  if !fitAll args op.signature then .error (.operandMismatch op)
  else if args.any Argument.hasNul then .error .embeddedNul
  else .ok (b.modifyBlock id (·.instruction op args))

/-- Emit instructions up to the first that cannot be emitted; those before it stay. -/
def emitAll (b : Builder) (id : BlockId) :
    List (Opcode × List Argument) → Builder × Option CodecError
  | [] => (b, none)
  | (op, args) :: more =>
    match b.emit id op args with
    | .ok b => b.emitAll id more
    | .error e => (b, some e)

/-- A text argument. -/
def Argument.ofString (s : String) : Argument := .text (Text.Utf8.encode s)

/-- The instruction that pushes a builtin. -/
def pushBuiltin (f : Builtin) : Opcode × List Argument := (.pushBuiltin, [.ofString f.name])

/-- Instructions that print a line feed. -/
def println : List (Opcode × List Argument) :=
  [pushBuiltin .println, (.pushUnit, []), (.swapCall, [])]

/-- Instructions that print a string. -/
def printString (s : String) : List (Opcode × List Argument) :=
  [pushBuiltin (.print .raw), (.pushString, [.ofString s]), (.swapCall, [])]

/-- Instructions that print a variable. -/
def printLiteralVar (depth offset : Int32) : List (Opcode × List Argument) :=
  [pushBuiltin (.print .literal), (.pushVar, [.int depth, .int offset]), (.swapCall, [])]

/-- Instructions that stop the program with a message and a code. -/
def fatalError (message : String) (code : Int32) : List (Opcode × List Argument) :=
  [pushBuiltin .fatalError, (.pushString, [.ofString message]), (.swapCall, []),
    (.pushInt, [.int code]), (.swapCall, [])]

/-! ### Data -/

/-- The bytes of a string in the pool, with the NUL that ends it. -/
def stringBytes (s : String) : List UInt8 := Text.Utf8.encode s ++ [0]

/-- The bytes of a type record. -/
def recordBytes (name : String) (constructors : List String) : List UInt8 :=
  Word.bytes (Int32.ofNat constructors.length) ++ stringBytes name ++
    constructors.flatMap stringBytes

/-- Put bytes into the pool. -/
def writeData (b : Builder) (bs : List UInt8) : DataRef × Builder :=
  (⟨b.data.length⟩, { b with data := b.data ++ bs })

end Builder

end StackCode
