import StackCode.Instruction

/-!
# Blocks of code

A block is a stretch of code in which addresses are still missing. While it is filled only
offsets inside it are known, so a reference to a label or to data is written as four zero
bytes, and where it stands is remembered.
-/

namespace StackCode

/-- A label, by its number. -/
structure Label where
  /-- Its place among the labels of a builder, in the order in which they were made. -/
  number : Nat
  deriving DecidableEq

/-- The name of a label in messages. -/
def Label.name (l : Label) : String := "L" ++ Text.Decimal.ofNat l.number

/-- A block, by its number. -/
structure BlockId where
  /-- Its place among the blocks of a builder, in the order in which they were made. -/
  number : Nat
  deriving DecidableEq

/-- An item in the pool of data, by its offset. -/
structure DataRef where
  /-- The offset of its first byte in the pool. -/
  offset : Nat
  deriving DecidableEq

namespace Builder

/-- An operand of an instruction that is emitted. -/
inductive Argument where
  /-- A word. -/
  | int (n : Int32)
  /-- The address of a label. -/
  | label (l : Label)
  /-- The address of an item of data. -/
  | data (d : DataRef)
  /-- A string or the name of a builtin. -/
  | text (bytes : List UInt8)
  /-- The addresses of a jump table. -/
  | table (ls : List Label)
  deriving DecidableEq

/-- Whether an argument has a kind. A label or an item of data is an address and never a
plain integer. -/
def Argument.fits : Argument → OperandKind → Bool
  | .int _, .int => true
  | .int _, .label => true
  | .label _, .label => true
  | .data _, .label => true
  | .text _, .builtin => true
  | .text _, .string => true
  | .table _, .labelTable => true
  | _, _ => false

/-- Whether an argument is a string with a NUL in it. -/
def Argument.hasNul : Argument → Bool
  | .text bytes => bytes.contains 0
  | _ => false

/-- Whether arguments are those of a signature. -/
def fitAll : List Argument → List OperandKind → Bool
  | [], [] => true
  | arg :: args, kind :: kinds => arg.fits kind && fitAll args kinds
  | _, _ => false

/-! ### Blocks -/

/-- A stretch of code with references that are not filled in. -/
structure Block where
  /-- The label at its start. -/
  start : Label
  /-- Its bytes, zeros where a reference is to be filled in. -/
  code : List UInt8 := []
  /-- The references to labels: where each is to be written, and the label. -/
  labelRefs : List (Nat × Label) := []
  /-- The references to data: where each is to be written, and the item. -/
  dataRefs : List (Nat × DataRef) := []
  deriving DecidableEq

namespace Block

/-- The offset of the next byte. -/
def size (b : Block) : Nat := b.code.length

/-- Append bytes. -/
def bytes (b : Block) (bs : List UInt8) : Block := { b with code := b.code ++ bs }

/-- Append a word. -/
def int (b : Block) (n : Int32) : Block := b.bytes (Word.bytes n)

/-- Append a reference to a label. -/
def labelRef (b : Block) (l : Label) : Block :=
  { b.int 0 with labelRefs := b.labelRefs ++ [(b.size, l)] }

/-- Append a reference to an item of data. -/
def dataRef (b : Block) (d : DataRef) : Block :=
  { b.int 0 with dataRefs := b.dataRefs ++ [(b.size, d)] }

/-- Append an argument. -/
def argument (b : Block) : Argument → Block
  | .int n => b.int n
  | .label l => b.labelRef l
  | .data d => b.dataRef d
  | .text bs => b.bytes (bs ++ [0])
  | .table ls => ls.foldl labelRef (b.int (Int32.ofNat ls.length))

/-- Append an instruction. -/
def instruction (b : Block) (op : Opcode) (args : List Argument) : Block :=
  args.foldl argument (b.bytes [op.byte])

end Block

end Builder

end StackCode
