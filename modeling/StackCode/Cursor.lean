import StackCode.Opcode
import StackCode.Text.Decimal
import StackCode.Word

/-!
# Reading an image

Instructions and records are read from a byte image by a cursor: the bytes not yet
read and the offset of the first of them, which the errors report.
-/

namespace StackCode

/-- Why an instruction or a record cannot be read or written. -/
inductive CodecError where
  /-- No opcode has this byte. -/
  | unknownOpcode (byte : UInt8) (offset : Nat)
  /-- The bytes end too early. -/
  | truncated (offset : Nat)
  /-- No NUL ends the string that begins here. -/
  | unterminatedString (offset : Nat)
  /-- The operands are not those of the opcode's signature. -/
  | operandMismatch (op : Opcode)
  /-- A string with a NUL in it cannot be written. -/
  | embeddedNul
  /-- A table announces a negative number of entries. -/
  | negativeTableLength (length : Int32) (offset : Nat)
  deriving DecidableEq

/-- The message of a codec error. -/
def CodecError.message : CodecError → String
  | .unknownOpcode byte offset =>
    "unknown opcode " ++ Text.Decimal.ofNat byte.toNat ++ " at offset " ++ Text.Decimal.ofNat offset
  | .truncated offset => "instruction truncated at offset " ++ Text.Decimal.ofNat offset
  | .unterminatedString offset =>
    "unterminated string starting at offset " ++ Text.Decimal.ofNat offset
  | .operandMismatch op =>
    op.mnemonic ++ ": operands do not match signature " ++ op.signatureText
  | .embeddedNul => "string operand contains a NUL byte"
  | .negativeTableLength length offset =>
    "negative label table length " ++ Text.Decimal.ofInt32 length ++ " at offset " ++
      Text.Decimal.ofNat offset

/-- A place in an image: what is still to be read, and where it begins. -/
structure Cursor where
  /-- The offset of the next byte. -/
  offset : Nat
  /-- The bytes from there on. -/
  rest : List UInt8
  deriving DecidableEq

namespace Cursor

/-- The cursor at an offset of an image. -/
def seek (image : List UInt8) (offset : Nat) : Cursor := ⟨offset, image.drop offset⟩

/-- Read a word. -/
def word (c : Cursor) : Except CodecError (Int32 × Cursor) :=
  match c.rest with
  | b0 :: b1 :: b2 :: b3 :: rest => .ok (Word.ofFour b0 b1 b2 b3, ⟨c.offset + Word.size, rest⟩)
  | _ => .error (.truncated c.offset)

/-- Read a number of words. -/
def words : Nat → Cursor → Except CodecError (List Int32 × Cursor)
  | 0, c => .ok ([], c)
  | n + 1, c => do
    let (w, c) ← c.word
    let (ws, c) ← words n c
    return (w :: ws, c)

/-- Read a string and the NUL that ends it. -/
def string (c : Cursor) : Except CodecError (List UInt8 × Cursor) :=
  let text := c.rest.takeWhile (· ≠ 0)
  match c.rest.dropWhile (· ≠ 0) with
  | [] => .error (.unterminatedString c.offset)
  | _ :: rest => .ok (text, ⟨c.offset + text.length + 1, rest⟩)

/-- Read a number of strings. -/
def strings : Nat → Cursor → Except CodecError (List (List UInt8) × Cursor)
  | 0, c => .ok ([], c)
  | n + 1, c => do
    let (s, c) ← c.string
    let (ss, c) ← strings n c
    return (s :: ss, c)

/-- Read a count and that many words. The count may not be negative, and the bytes
for the whole table have to be there before any entry is read. -/
def table (c : Cursor) : Except CodecError (List Int32 × Cursor) := do
  let (length, entries) ← c.word
  match Word.toNat? length with
  | none => .error (.negativeTableLength length c.offset)
  | some n =>
    if entries.rest.length < Word.size * n then .error (.truncated entries.offset)
    else entries.words n

end Cursor

end StackCode
