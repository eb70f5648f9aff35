import StackCode.Listing

/-!
# Listings as source text

A listing can be written as source text that assembles to the image it shows. A
position that is the offset of an instruction, or lies in the data or at its end,
becomes the name `L` with the offset, and a label of that name stands there; any other
position stays a number. The data is written in hexadecimal, sixteen bytes on a line.
-/

namespace StackCode.Listing

/-- How many bytes of data stand on a line. -/
def bytesPerLine : Nat := 16

/-- The name of the label at an offset. -/
def labelName (offset : Nat) : String := "L" ++ Text.Decimal.ofNat offset

/-- The line that defines the label at an offset. -/
def labelLine (offset : Nat) : String := ":" ++ labelName offset

/-! ### Targets -/

/-- The positions that an instruction refers to. -/
def positions (i : Instruction) : List Int32 :=
  (i.operands.zip i.opcode.signature).flatMap fun
    | (.int n, .label) => [n]
    | (.table entries, _) => entries
    | _ => []

/-- Whether a label can stand at an offset. -/
def placeable (l : Listing) (offset : Nat) : Bool :=
  l.lines.any (·.offset == offset) || (l.dataOffset ≤ offset && offset ≤ l.size)

/-- The offsets where labels are wanted and can stand. -/
def targets (l : Listing) : List Nat :=
  let all := l.lines.flatMap fun line => positions line.instruction
  (all.filterMap Word.toNat?).filter l.placeable

/-! ### Code -/

/-- A position: the name of its label if there is one, else the number. -/
def positionText (targets : List Nat) (n : Int32) : String :=
  match Word.toNat? n with
  | some offset => if targets.contains offset then labelName offset else Text.Decimal.ofInt32 n
  | none => Text.Decimal.ofInt32 n

/-- An operand in source text. -/
def operandText (targets : List Nat) : Operand → OperandKind → String
  | .int n, .label => positionText targets n
  | .table entries, _ =>
    Text.Decimal.ofNat entries.length ++
      String.join (entries.map fun n => " " ++ positionText targets n)
  | operand, _ => operand.display

/-- An instruction in source text. -/
def instructionLine (targets : List Nat) (i : Instruction) : String :=
  i.opcode.mnemonic ++
    String.join ((i.operands.zip i.opcode.signature).map fun (operand, kind) =>
      " " ++ operandText targets operand kind)

/-- The lines of source text for an instruction, after a label if one is wanted. -/
def codeLines (targets : List Nat) (line : Line) : List String :=
  (if targets.contains line.offset then [labelLine line.offset] else []) ++
    [instructionLine targets line.instruction]

/-! ### Data -/

/-- The data cut before each offset with a label: the bytes before the first, and then
the bytes from each label to the next. -/
def segments (targets : List Nat) (dataOffset : Nat) (data : List UInt8) :
    List UInt8 × List (Nat × List UInt8) :=
  (data.zipIdx dataOffset).foldr
    (fun (b, offset) (front, labelled) =>
      if targets.contains offset then ([], (offset, b :: front) :: labelled)
      else (b :: front, labelled))
    ([], [])

/-- Bytes cut into lines, at most `fuel` of them. -/
def hexLines : Nat → List UInt8 → List String
  | 0, _ => []
  | fuel + 1, bytes =>
    if bytes.isEmpty then []
    else
      String.intercalate " "
          ((bytes.take bytesPerLine).map fun b => "0x" ++ String.ofList (Text.Hex.pair b)) ::
        hexLines fuel (bytes.drop bytesPerLine)

/-- The lines of source text for the data. -/
def dataLines (targets : List Nat) (l : Listing) : List String :=
  let (front, labelled) := segments targets l.dataOffset l.data
  hexLines front.length front ++
    labelled.flatMap (fun (offset, bytes) => labelLine offset :: hexLines bytes.length bytes) ++
    (if targets.contains l.size then [labelLine l.size] else [])

/-! ### The source -/

/-- The lines of source text for a listing. -/
def sourceLines (l : Listing) : List String :=
  let targets := l.targets
  l.lines.flatMap (codeLines targets) ++ ".data" :: dataLines targets l

/-- Source text that assembles to the image a listing shows. -/
def source (l : Listing) : String := String.join (l.sourceLines.map (· ++ "\n"))

end StackCode.Listing
