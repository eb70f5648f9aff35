import StackCode.Digest
import StackCode.Instruction

/-!
# Images

An image is one run of bytes: a header of four bytes, which is the offset where the
data begins, then the code, then the data. Execution starts right after the header.
The data holds constants and type records; a type record is the number of
constructors, the name of the type, and the name of each constructor in the order of
their ordinals.
-/

namespace StackCode

/-- A program ready to be run or listed. -/
structure Image where
  /-- All its bytes, header first. -/
  bytes : List UInt8
  /-- The offset of the first byte of data, which is one past the last byte of code. -/
  dataOffset : Nat
  deriving DecidableEq

/-- Why bytes are no image. -/
inductive LoadError where
  /-- They are too few for a header. -/
  | tooShort (size : Nat)
  /-- The data would begin inside the header or beyond the end. -/
  | badHeader (offset size : Nat)
  deriving DecidableEq

/-- The message of a load error. -/
def LoadError.message : LoadError → String
  | .tooShort size =>
    "module is " ++ Text.Decimal.ofNat size ++ " bytes, shorter than its 4-byte header"
  | .badHeader offset size =>
    "data segment offset " ++ Text.Decimal.ofNat offset ++ " lies outside the module (" ++
      Text.Decimal.ofNat size ++ " bytes)"

/-- The names that a data type goes by when its values are printed. -/
structure TypeRecord where
  /-- The name of the type. -/
  name : String
  /-- The names of its constructors, by ordinal. -/
  constructors : List String
  deriving DecidableEq

/-- The name of the constructor with an ordinal. -/
def TypeRecord.constructor? (r : TypeRecord) (ordinal : Int32) : Option String :=
  (Word.toNat? ordinal).bind fun i => r.constructors[i]?

namespace Image

/-- The size of the header, and the offset where execution starts. -/
def headerSize : Nat := Word.size

/-- The image without code and data. -/
def empty : Image := ⟨Word.natBytes headerSize, headerSize⟩

/-- Take bytes for an image, if their header is right. -/
def ofBytes (bytes : List UInt8) : Except LoadError Image :=
  match bytes with
  | b0 :: b1 :: b2 :: b3 :: _ =>
    let offset := Word.ofBytes b0 b1 b2 b3
    if offset < headerSize ∨ bytes.length < offset then .error (.badHeader offset bytes.length)
    else .ok ⟨bytes, offset⟩
  | _ => .error (.tooShort bytes.length)

/-- How many bytes an image has. -/
def size (img : Image) : Nat := img.bytes.length

/-- Whether an image is a header alone. -/
def isEmpty (img : Image) : Bool := img.size == headerSize

/-- The bytes before the data, header included. -/
def beforeData (img : Image) : List UInt8 := img.bytes.take img.dataOffset

/-- The bytes of the code. -/
def code (img : Image) : List UInt8 := img.beforeData.drop headerSize

/-- The bytes of the data. -/
def data (img : Image) : List UInt8 := img.bytes.drop img.dataOffset

/-- Whether an offset lies in the code. -/
def inCode (img : Image) (offset : Nat) : Bool := headerSize ≤ offset && offset < img.dataOffset

/-- The word at an offset. -/
def wordAt (img : Image) (offset : Nat) : Except CodecError Int32 :=
  (Cursor.seek img.bytes offset).word.map Prod.fst

/-- The string at an offset. -/
def stringAt (img : Image) (offset : Nat) : Except CodecError (List UInt8) :=
  (Cursor.seek img.bytes offset).string.map Prod.fst

/-- The type record at an offset. -/
def typeRecord (img : Image) (position : Int32) : Except CodecError TypeRecord :=
  match Word.toNat? position with
  | none => .error (.truncated 0)
  | some offset => do
    let (count, c) ← (Cursor.seek img.bytes offset).word
    match Word.toNat? count with
    | none => .error (.negativeTableLength count offset)
    | some n =>
      let (name, c) ← c.string
      let (constructors, _) ← c.strings n
      return ⟨Text.Utf8.lossy name, constructors.map Text.Utf8.lossy⟩

/-- The digest of the whole image, in hexadecimal. -/
def digest (img : Image) : String := Digest.hex img.bytes

end Image

end StackCode
