import StackCode.Builder

/-!
# Operations on a builder

Every use of a builder is a sequence of operations, each of which has an answer. Making them
values lets one speak of all programs that can be built.
-/

namespace StackCode

namespace Builder

/-- One operation on a builder. -/
inductive Op where
  /-- Make a block. -/
  | createBlock
  /-- Make a label. -/
  | newLabel
  /-- Ask for the label at the start of a block. -/
  | startLabel (id : BlockId)
  /-- Make a label at the end of a block. -/
  | markLabel (id : BlockId)
  /-- Place a label at the end of a block. -/
  | placeLabel (id : BlockId) (l : Label)
  /-- Ask for the offset of the next byte of a block. -/
  | offset (id : BlockId)
  /-- Emit an instruction. -/
  | emit (id : BlockId) (op : Opcode) (args : List Argument)
  /-- Emit a word. -/
  | emitInt (id : BlockId) (n : Int32)
  /-- Emit a reference to a label. -/
  | emitLabelRef (id : BlockId) (l : Label)
  /-- Emit a reference to data. -/
  | emitDataRef (id : BlockId) (d : DataRef)
  /-- Emit instructions that print a line feed. -/
  | emitPrintln (id : BlockId)
  /-- Emit instructions that print a string. -/
  | emitPrintString (id : BlockId) (s : String)
  /-- Emit instructions that print a variable. -/
  | emitPrintLiteralVar (id : BlockId) (depth offset : Int32)
  /-- Emit instructions that stop the program. -/
  | emitFatalError (id : BlockId) (message : String) (code : Int32)
  /-- Put bytes into the pool. -/
  | writeData (bs : List UInt8)
  /-- Put a string into the pool. -/
  | writeString (s : String)
  /-- Put a word into the pool. -/
  | writeInt (n : Int32)
  /-- Put a type record into the pool. -/
  | writeTypeRecord (name : String) (constructors : List String)

/-- What an operation answers. -/
inductive Reply where
  /-- It is done. -/
  | done
  /-- A block was made; this is its start. -/
  | block (start : Label)
  /-- A label. -/
  | label (l : Label)
  /-- An offset in a block. -/
  | offset (n : Nat)
  /-- An item of data. -/
  | data (d : DataRef)
  /-- It is not done, because an instruction has no encoding. -/
  | refused (e : CodecError)
  /-- It is not done, because of a label. -/
  | unlinkable (e : LinkError)

/-- Emit instructions and answer. -/
def emitReply (b : Builder) (id : BlockId) (code : List (Opcode × List Argument)) :
    Reply × Builder :=
  match b.emitAll id code with
  | (b, none) => (.done, b)
  | (b, some e) => (.refused e, b)

/-- Put bytes into the pool and answer. -/
def dataReply (b : Builder) (bs : List UInt8) : Reply × Builder :=
  let (d, b) := b.writeData bs
  (.data d, b)

/-- Perform an operation. -/
def perform (b : Builder) : Op → Reply × Builder
  | .createBlock =>
    let (id, b) := b.createBlock
    (.block (b.startLabel id), b)
  | .newLabel =>
    let (l, b) := b.newLabel
    (.label l, b)
  | .startLabel id => (.label (b.startLabel id), b)
  | .markLabel id =>
    let (l, b) := b.markLabel id
    (.label l, b)
  | .placeLabel id l =>
    match b.placeLabel id l with
    | .ok b => (.done, b)
    | .error e => (.unlinkable e, b)
  | .offset id => (.offset (b.offset id), b)
  | .emit id op args => b.emitReply id [(op, args)]
  | .emitInt id n => (.done, b.modifyBlock id (·.int n))
  | .emitLabelRef id l => (.done, b.modifyBlock id (·.labelRef l))
  | .emitDataRef id d => (.done, b.modifyBlock id (·.dataRef d))
  | .emitPrintln id => b.emitReply id println
  | .emitPrintString id s => b.emitReply id (printString s)
  | .emitPrintLiteralVar id depth offset => b.emitReply id (printLiteralVar depth offset)
  | .emitFatalError id message code => b.emitReply id (fatalError message code)
  | .writeData bs => b.dataReply bs
  | .writeString s => b.dataReply (stringBytes s)
  | .writeInt n => b.dataReply (Word.bytes n)
  | .writeTypeRecord name constructors => b.dataReply (recordBytes name constructors)

/-- Perform operations in order. -/
def performAll (b : Builder) (ops : List Op) : Builder :=
  ops.foldl (fun b op => (b.perform op).2) b

end Builder

end StackCode
