import StackCode.Builder
import StackCode.Image

/-!
# Linking

Linking lays out the blocks of a builder after the header, in the order in which they
were made, and puts the pool of data behind them. The image grows block by block, and as soon
as a block is there every reference in it is overwritten with the address it stands for.
-/

namespace StackCode

/-- An address as a word. -/
def address (n : Nat) : Except LinkError Int32 :=
  if n < 2147483648 then .ok (Int32.ofNat n) else .error (.addressOverflow n)

namespace Builder

/-- The address of the first byte of a block. -/
def base (b : Builder) (id : BlockId) : Nat :=
  Image.headerSize + ((b.blocks.take id.number).flatMap Block.code).length

/-- The address of the first byte of data. -/
def dataOffset (b : Builder) : Nat := Image.headerSize + b.codeSize

/-- The place where a label stands. -/
def place? (b : Builder) (l : Label) : Option Place := b.labels[l.number]?.join

/-- The address of a label that a block refers to. -/
def labelAddress (b : Builder) (block : Block) (slot : Nat) (l : Label) : Except LinkError Int32 :=
  match b.place? l with
  | some p => address (b.base p.block + p.offset)
  | none => .error (.unresolvedLabel l block.start slot)

/-- The address of an item of data. -/
def dataAddress (b : Builder) (d : DataRef) : Except LinkError Int32 :=
  address (b.dataOffset + d.offset)

/-- Put the code of a block at the end of an image and fill in the references of the block, those to
labels first. The block has to begin at `base`. -/
def layOut (b : Builder) (image : List UInt8) (block : Block) (base : Nat) :
    Except LinkError (List UInt8) := do
  let image ← block.labelRefs.foldlM
    (fun image (slot, l) => return Word.patch image (base + slot) (← b.labelAddress block slot l))
    (image ++ block.code)
  block.dataRefs.foldlM
    (fun image (slot, d) => return Word.patch image (base + slot) (← b.dataAddress d)) image

/-- Link a program: write the header, then block after block, then the data. -/
def link (b : Builder) : Except LinkError Image := do
  let header ← address b.dataOffset
  let image ← b.blocks.zipIdx.foldlM
    (fun image (block, k) => b.layOut image block (b.base ⟨k⟩)) (Word.bytes header)
  return ⟨image ++ b.data, b.dataOffset⟩

end Builder

end StackCode
