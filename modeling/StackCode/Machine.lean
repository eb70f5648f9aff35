import StackCode.Builtin.Apply
import StackCode.Machine.Action
import StackCode.Sink

/-!
# The machine

The machine executes the code of an image. Each step reads the instruction at the
instruction pointer, moves the pointer behind it, and does what the instruction says.
Calls push frames; the chain of return points is in the frames, so the machine has no
other stack than that of values.

A step that fails leaves the machine as it is at that moment: values that were popped
stay popped, and the pointer is behind the instruction. A machine that has failed or
returned can be run again and goes on from there.
-/

namespace StackCode

/-- A machine: a program and how far it has come. -/
structure Machine where
  /-- The program. -/
  image : Image
  /-- The offset of the next instruction. -/
  ip : Nat := Image.headerSize
  /-- The values, the top first. -/
  stack : List Value := []
  /-- All frames made so far. -/
  frames : Frames := .initial
  /-- The number of the current frame. -/
  current : Nat := 0
  /-- Where output goes. -/
  sink : Sink := {}
  deriving DecidableEq

/-- Something a machine does, which may fail and in either case changes the machine. -/
abbrev Act (α : Type) := EStateM Fault Machine α

namespace Machine

/-- What is needed to print the values of a machine. -/
def printer (m : Machine) : Printer := ⟨m.image, m.frames⟩

/-- Fail with the fault of a computation, or go on with its result. -/
def lift {α : Type} (result : Except Fault α) : Act α :=
  match result with
  | .ok a => pure a
  | .error fault => throw fault

/-! ### The stack -/

/-- Push a value. -/
def push (v : Value) : Act Unit := modify fun m => { m with stack := v :: m.stack }

/-- Pop a value. -/
def pop : Act Value := do
  let m ← get
  match m.stack with
  | [] => throw .stackUnderflow
  | v :: rest =>
    set { m with stack := rest }
    return v

/-- Pop a number of values, and give them in the order in which they were pushed. If there
are not so many, none is popped. -/
def popMany (count : Int32) : Act (List Value) := do
  let m ← get
  match Word.toNat? count with
  | none => throw (.indexOutOfRange count m.stack.length)
  | some n =>
    let items := m.stack.take n
    if items.length < n then throw .stackUnderflow
    else
      set { m with stack := m.stack.drop n }
      return items.reverse

/-- Pop an integer. -/
def popInt : Act Int32 := do
  let v ← pop
  lift v.asInt

/-- Pop a truth value. -/
def popBool : Act Bool := do
  let v ← pop
  lift v.asBool

/-! ### Output -/

/-- Write a text to the sink. -/
def write (text : String) : Act Unit := do
  let failed ← modifyGet fun m =>
    let (sink, failed) := m.sink.write (Text.Utf8.encode text)
    (failed, { m with sink := sink })
  match failed with
  | none => return ()
  | some reason => throw (.output reason)

/-! ### Jumps, calls and returns -/

/-- The offset that a position leads to. A negative position leads to the last offset of 64
bits, which is beyond every image. -/
def target (position : Int32) : Nat := (Word.toNat? position).getD 18446744073709551615

/-- Go on at a position. -/
def jump (position : Int32) : Act Unit := modify fun m => { m with ip := target position }

/-- Give a builtin its arguments: apply it if it has them all. -/
def applyBuiltin (b : Builtin) (args : List Value) : Act Unit := do
  if args.length < b.arity then push (.partialBuiltin b args)
  else
    let m ← get
    match ← lift (b.apply m.printer args) with
    | .value v => push v
    | .output text => write text

/-- Call a value with an argument. A closure gets a frame of its own and finds the argument
on the stack. -/
def call (callee argument : Value) : Act Unit :=
  match callee with
  | .closure entry captured =>
    modify fun m =>
      let frame := Frame.call captured entry ⟨m.ip, m.current⟩
      let number := m.frames.size
      { m with
        ip := entry
        stack := argument :: m.stack
        frames := m.frames.push frame
        current := number }
  | .builtin b => applyBuiltin b [argument]
  | .partialBuiltin b args => applyBuiltin b (args ++ [argument])
  | v => throw (.notCallable v.shape)

/-- Return from the current frame. From the outermost frame the program returns the top
value, which is printed with its type unless it is the unit value. -/
def ret : Act (Option Value) := do
  let m ← get
  match (m.frames.get m.current).returnPoint with
  | some r =>
    set { m with ip := r.ip, current := r.caller }
    return none
  | none =>
    let result ← pop
    match result with
    | .unit => return some .unit
    | v =>
      let m ← get
      let text ← lift (m.printer.render .typed v)
      write (text ++ "\n")
      return some v

/-! ### Instructions -/

/-- The entry of a jump table for an ordinal. -/
def tableEntry (entries : List Int32) (ordinal : Int32) : Except Fault Int32 :=
  match (Word.toNat? ordinal).bind fun i => entries[i]? with
  | some position => .ok position
  | none => .error (.dispatchOutOfRange ordinal entries.length)

/-- Do what an instruction says. There is a result if the program returns. -/
def perform : Action → Act (Option Value)
  | .push v => do
    push v
    return none
  | .pushBuiltin name => do
    let name := Text.Utf8.lossy name
    match Builtin.ofName? name with
    | some b => push (.builtin b)
    | none => throw (.unknownBuiltin name)
    return none
  | .pushClosure entry => do
    let m ← get
    push (.closure (target entry) m.current)
    return none
  | .pushData position ordinal count => do
    let fields ← popMany count
    push (.data position ordinal fields)
    return none
  | .pushDataItem index => do
    match ← pop with
    | .data _ _ fields => push (← lift (Value.itemAt fields index))
    | v => throw (.typeMismatch .data v.shape)
    return none
  | .pushTuple count => do
    let items ← popMany count
    push (.tuple items)
    return none
  | .pushTupleItem index => do
    match ← pop with
    | .tuple items => push (← lift (Value.itemAt items index))
    | v => throw (.typeMismatch .tuple v.shape)
    return none
  | .pushVar depth offset => do
    if depth < 0 then throw (.noEnclosingFrame depth)
    let m ← get
    let frame ← lift (m.frames.ancestor m.current depth)
    let v ← lift ((m.frames.get frame).load offset)
    push v
    return none
  | .dup => do
    let m ← get
    match m.stack with
    | [] => throw .stackUnderflow
    | v :: _ => push v
    return none
  | .discard => do
    let _ ← pop
    return none
  | .swap => do
    let b ← pop
    let a ← pop
    push b
    push a
    return none
  | .arith op => do
    let b ← popInt
    let a ← popInt
    push (.int (← lift (op.apply a b)))
    return none
  | .eq => do
    let b ← popInt
    let a ← popInt
    push (.bool (a == b))
    return none
  | .jump position => do
    jump position
    return none
  | .jumpIf sense position => do
    let b ← popBool
    if b = sense then jump position
    return none
  | .jumpTable entries => do
    match ← pop with
    | .data _ ordinal _ => jump (← lift (tableEntry entries ordinal))
    | v => throw (.typeMismatch .data v.shape)
    return none
  | .call => do
    let argument ← pop
    let callee ← pop
    call callee argument
    return none
  | .enter size => do
    match Word.toNat? size with
    | none => throw (.indexOutOfRange size 0)
    | some n =>
      let m ← get
      let frames ← lift (m.frames.enter m.current n)
      modify fun m => { m with frames := frames }
    return none
  | .ret => ret
  | .store offset => do
    let v ← pop
    let m ← get
    let frames ← lift (m.frames.store m.current offset v)
    modify fun m => { m with frames := frames }
    return none

/-- Execute an instruction. -/
def execute (i : Instruction) : Act (Option Value) :=
  match i.action? with
  | some action => perform action
  | none => throw (.malformed (.operandMismatch i.opcode))

end Machine

end StackCode
