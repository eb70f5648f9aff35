import StackCode.Image
import StackCode.Source.Statement

/-!
# Assembling source text

The lines of a source are read in order into a draft of the image: its bytes so far, and
where the labels stand. A label may be named before the line that defines it, so in the place
of a name there are zeros at first, and it is remembered where they stand. When all lines are
read they are overwritten with the positions of the labels, and the header with that of the data.
-/

namespace StackCode.Source

/-- The first mistake in a source, and the line it is on. -/
structure SourceError where
  /-- The number of the line, from one. -/
  line : Nat
  /-- The line, trimmed. -/
  text : String
  /-- What is wrong with it. -/
  mistake : Mistake
  deriving DecidableEq

/-- The message of a source error. -/
def SourceError.message (e : SourceError) : String :=
  "line " ++ Text.Decimal.ofNat e.line ++ ": " ++ e.mistake.message ++ ": " ++ e.text

/-- A trimmed line of a source with its number. -/
structure Line where
  /-- The number, from one. -/
  number : Nat
  /-- The characters, without blanks at the ends. -/
  text : List Char
  deriving DecidableEq

/-- The lines of a source. -/
def Line.ofSource (source : String) : List Line :=
  ((Text.lines source.toList).zipIdx 1).map fun (raw, number) => ⟨number, Text.trim raw⟩

/-- A mistake on a line. -/
def Line.error (line : Line) (mistake : Mistake) : SourceError :=
  ⟨line.number, String.ofList line.text, mistake⟩

/-- A word of the image that waits for the position of a label. -/
structure Fixup where
  /-- The offset of its first byte. -/
  site : Nat
  /-- The name of the label. -/
  label : String
  /-- The line on which the label is named. -/
  line : Line
  deriving DecidableEq

/-- The fixup for what an instruction on a line leaves open at a site. -/
def Line.fixup (line : Line) : Nat × String → Fixup
  | (site, label) => ⟨site, label, line⟩

/-- The image as far as the lines read determine it. -/
structure Draft where
  /-- Its bytes, zeros in the header and wherever the position of a label is missing. -/
  image : Array UInt8 := Array.replicate Image.headerSize 0
  /-- The labels and their positions, the latest first. -/
  labels : List (String × Nat) := []
  /-- The words that wait for the position of a label, in the order in which they were written. -/
  fixups : Array Fixup := #[]
  /-- Where the data begins, once the mark `.data` is read. -/
  dataOffset : Option Nat := none

namespace Draft

/-- The position of a label. -/
def position? (d : Draft) (name : String) : Option Nat := d.labels.lookup name

/-- Write an instruction from a line. -/
def code (d : Draft) (line : Line) (op : Opcode) (args : List Argument) : Draft :=
  { d with
    image := d.image ++ Instruction.bytes ⟨op, args.map Argument.blank⟩
    fixups := d.fixups ++ (pending d.image.size args).map line.fixup }

/-- Add what a line says. -/
def add (d : Draft) (line : Line) : Statement → Except SourceError Draft
  | .blank => .ok d
  | .label name =>
    if (d.position? name).isSome then .error (line.error (.duplicateLabel name))
    else .ok { d with labels := (name, d.image.size) :: d.labels }
  | .dataMark => .ok { d with dataOffset := some (d.dataOffset.getD d.image.size) }
  | .bytes bytes => .ok { d with image := d.image ++ bytes }
  | .code op args => .ok (d.code line op args)

/-- Read one more line. -/
def read (d : Draft) (line : Line) : Except SourceError Draft :=
  match Statement.read d.dataOffset.isSome line.text with
  | .ok statement => d.add line statement
  | .error mistake => .error (line.error mistake)

/-- Read all lines of a source. -/
def ofSource (source : String) : Except SourceError Draft :=
  (Line.ofSource source).foldlM read {}

/-- Overwrite a word that waits with the position of its label. -/
def fill (position? : String → Option Nat) (image : List UInt8) (f : Fixup) :
    Except SourceError (List UInt8) :=
  match position? f.label with
  | some p => .ok (Word.patch image f.site (Int32.ofNat p))
  | none => .error (f.line.error (.unknownLabel f.label))

/-- The image of a draft: every word that waits is overwritten, and at last the header. A source
without the mark `.data` has no data. -/
def finish (d : Draft) : Except SourceError Image := do
  let image ← d.fixups.toList.foldlM (fill d.position?) d.image.toList
  let dataOffset := d.dataOffset.getD image.length
  return ⟨Word.patch image 0 (Int32.ofNat dataOffset), dataOffset⟩

end Draft

/-- Assemble a source into an image. -/
def assemble (source : String) : Except SourceError Image := do
  let draft ← Draft.ofSource source
  draft.finish

end StackCode.Source
