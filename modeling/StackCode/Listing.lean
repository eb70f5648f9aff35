import StackCode.Image
import StackCode.Json

/-!
# Listings

A listing shows what is in an image: the instructions of the code, one after the other
with their offsets, and the data. The data is shown as runs, alternately of bytes that
may be text, those from the space on, and of other bytes.
-/

namespace StackCode

/-- An instruction and the offset where it begins. -/
structure Listing.Line where
  /-- The offset of its first byte. -/
  offset : Nat
  /-- The instruction. -/
  instruction : Instruction
  deriving DecidableEq

/-- A run of data, all of it text or none of it. -/
inductive Listing.Run where
  /-- Bytes from the space on, as text. -/
  | text (offset : Nat) (text : String)
  /-- Bytes below the space. -/
  | bytes (offset : Nat) (bytes : List UInt8)
  deriving DecidableEq

/-- What is in an image. -/
structure Listing where
  /-- How many bytes the image has. -/
  size : Nat
  /-- Where its data begins. -/
  dataOffset : Nat
  /-- Its digest. -/
  digest : String
  /-- The instructions of its code. -/
  lines : List Listing.Line
  /-- The bytes of its data. -/
  data : List UInt8
  deriving DecidableEq

namespace Listing

/-! ### The instructions of an image -/

/-- Read instructions to the end of the bytes, at most `fuel` of them, and put them
behind those already read. An instruction takes a byte at least, so as many steps as
there are bytes are enough. -/
def readLines : Nat → Cursor → Array Line → Except CodecError (Array Line)
  | 0, _, done => .ok done
  | fuel + 1, c, done =>
    if c.rest.isEmpty then .ok done
    else
      match c.instruction with
      | .ok (i, next) => readLines fuel next (done.push ⟨c.offset, i⟩)
      | .error e => .error e

/-- The instructions in the code of an image. They may not reach into the data. -/
def linesOf (img : Image) : Except CodecError (List Line) :=
  (readLines img.dataOffset (Cursor.seek img.beforeData Image.headerSize) #[]).map Array.toList

/-- The listing of an image, if its code is made of whole instructions. -/
def ofImage (img : Image) : Except CodecError Listing := do
  let lines ← linesOf img
  return ⟨img.size, img.dataOffset, img.digest, lines, img.data⟩

/-! ### Runs of data -/

/-- Whether a byte may be text. -/
def isText (b : UInt8) : Bool := 32 ≤ b

/-- The longest stretches of bytes that are all text or all not, each with its kind. -/
def stretches (data : List UInt8) : List (Bool × List UInt8) :=
  data.foldr
    (fun b found =>
      match found with
      | [] => [(isText b, [b])]
      | (kind, bytes) :: more =>
        if kind == isText b then (kind, b :: bytes) :: more
        else (isText b, [b]) :: (kind, bytes) :: more)
    []

/-- Stretches as runs, the first at an offset and each next where the one before ends. -/
def place : Nat → List (Bool × List UInt8) → List Run
  | _, [] => []
  | offset, (kind, bytes) :: more =>
    (if kind then Run.text offset (Text.Utf8.lossy bytes) else Run.bytes offset bytes) ::
      place (offset + bytes.length) more

/-- The runs of the data. -/
def runs (l : Listing) : List Run := place l.dataOffset (stretches l.data)

/-! ### A listing as text -/

/-- A byte in a dump. -/
def dumpByte (b : UInt8) : String := "0x" ++ String.ofList (Text.Hex.short b)

/-- A run as a line of text. -/
def Run.display : Run → String
  | .text offset chars => Text.Decimal.ofNat offset ++ ": " ++ chars ++ "\n"
  | .bytes offset dump =>
    Text.Decimal.ofNat offset ++ ": " ++ String.intercalate " " (dump.map dumpByte) ++ "\n"

/-- An instruction as a line of text. -/
def Line.display (line : Line) : String :=
  Text.Decimal.ofNat line.offset ++ ": " ++ line.instruction.display ++ "\n"

/-- A listing as text. -/
def display (l : Listing) : String :=
  "Data segment offset: " ++ Text.Decimal.ofNat l.dataOffset ++ " bytes\n" ++
    String.join (l.lines.map Line.display) ++
    (if l.data.isEmpty then "" else "Data segment:\n" ++ String.join (l.runs.map Run.display))

/-! ### A listing as a document -/

/-- An operand in a document. -/
def operandDocument : Operand → Json
  | .int n => .int n.toInt
  | .text bytes => .str (Text.Utf8.lossy bytes)
  | .table entries => .arr (entries.map fun n => .int n.toInt)

/-- An instruction in a document. -/
def Line.document (line : Line) : Json :=
  .obj [("offset", .int line.offset), ("mnemonic", .str line.instruction.opcode.mnemonic),
    ("operands", .arr (line.instruction.operands.map operandDocument))]

/-- A run in a document. -/
def Run.document : Run → Json
  | .text offset chars =>
    .obj [("kind", .str "text"), ("offset", .int offset), ("text", .str chars)]
  | .bytes offset dump =>
    .obj [("kind", .str "bytes"), ("offset", .int offset),
      ("bytes", .arr (dump.map fun b => .int b.toNat))]

/-- A listing as a document. -/
def document (l : Listing) : Json :=
  .obj [("size", .int l.size), ("data_offset", .int l.dataOffset), ("sha256", .str l.digest),
    ("code", .arr (l.lines.map Line.document)), ("data", .arr (l.runs.map Run.document))]

/-- A listing as the text of its document. -/
def json (l : Listing) : String := l.document.pretty 0

end Listing

end StackCode
