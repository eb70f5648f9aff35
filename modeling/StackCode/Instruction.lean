import StackCode.Cursor
import StackCode.Text.Utf8

/-!
# Instructions and their encoding

An instruction is an opcode with its operands. In an image it is the opcode's byte
and then each operand: a word in four bytes, a string with a NUL after it, a table
as a count and its entries.
-/

namespace StackCode

/-- An operand of an instruction. -/
inductive Operand where
  /-- A word, for an integer or a position. -/
  | int (n : Int32)
  /-- The bytes of a string or of a builtin's name. -/
  | text (bytes : List UInt8)
  /-- The positions of a jump table. -/
  | table (entries : List Int32)
  deriving DecidableEq

namespace Operand

/-- Whether an operand has a kind. -/
def fits : Operand → OperandKind → Bool
  | .int _, .int => true
  | .int _, .label => true
  | .text _, .builtin => true
  | .text _, .string => true
  | .table _, .labelTable => true
  | _, _ => false

/-- Whether an operand is a string with a NUL in it. -/
def hasNul : Operand → Bool
  | .text bytes => bytes.contains 0
  | _ => false

/-- The bytes of an operand in an image. -/
def bytes : Operand → List UInt8
  | .int n => Word.bytes n
  | .text bytes => bytes ++ [0]
  | .table entries => Word.bytes (Int32.ofNat entries.length) ++ entries.flatMap Word.bytes

/-- An operand as it is shown. -/
def display : Operand → String
  | .int n => Text.Decimal.ofInt32 n
  | .text bytes => Text.Utf8.lossy bytes
  | .table entries =>
    Text.Decimal.ofNat entries.length ++
      String.join (entries.map fun n => " " ++ Text.Decimal.ofInt32 n)

end Operand

/-- An opcode with operands, which may or may not be those of its signature. -/
structure Instruction where
  /-- The operation. -/
  opcode : Opcode
  /-- Its operands. -/
  operands : List Operand
  deriving DecidableEq

namespace Instruction

/-- Whether operands are those of a signature. -/
def fitAll : List Operand → List OperandKind → Bool
  | [], [] => true
  | operand :: operands, kind :: kinds => operand.fits kind && fitAll operands kinds
  | _, _ => false

/-- The bytes of an instruction in an image. -/
def bytes (i : Instruction) : List UInt8 := i.opcode.byte :: i.operands.flatMap Operand.bytes

/-- The encoding of an instruction, whose operands have to be those of the opcode's
signature and free of NULs. -/
def encode (i : Instruction) : Except CodecError (List UInt8) :=
  if !fitAll i.operands i.opcode.signature then .error (.operandMismatch i.opcode)
  else if i.operands.any Operand.hasNul then .error .embeddedNul
  else .ok i.bytes

/-- An instruction as it is shown: the mnemonic, then each operand after a space. -/
def display (i : Instruction) : String :=
  i.opcode.mnemonic ++ String.join (i.operands.map fun operand => " " ++ operand.display)

end Instruction

namespace Cursor

/-- Read an operand of a kind. -/
def operand (c : Cursor) : OperandKind → Except CodecError (Operand × Cursor)
  | .int | .label => c.word.map fun (n, c) => (.int n, c)
  | .builtin | .string => c.string.map fun (bytes, c) => (.text bytes, c)
  | .labelTable => c.table.map fun (entries, c) => (.table entries, c)

/-- Read the operands of a signature. -/
def operands : List OperandKind → Cursor → Except CodecError (List Operand × Cursor)
  | [], c => .ok ([], c)
  | kind :: kinds, c => do
    let (operand, c) ← c.operand kind
    let (rest, c) ← operands kinds c
    return (operand :: rest, c)

/-- Read an instruction. -/
def instruction (c : Cursor) : Except CodecError (Instruction × Cursor) :=
  match c.rest with
  | [] => .error (.truncated c.offset)
  | byte :: rest =>
    match Opcode.ofByte? byte with
    | none => .error (.unknownOpcode byte c.offset)
    | some op => (operands op.signature ⟨c.offset + 1, rest⟩).map fun (args, c) => (⟨op, args⟩, c)

end Cursor

/-- The instruction at an offset of an image, and how many bytes it takes. -/
def Instruction.decode (image : List UInt8) (offset : Nat) :
    Except CodecError (Instruction × Nat) :=
  (Cursor.seek image offset).instruction.map fun (i, c) => (i, c.offset - offset)

end StackCode
