import StackCode.Instruction
import StackCode.Value

/-!
# Actions

What an instruction tells the machine to do, once its operands are known to be those of
its signature.
-/

namespace StackCode

/-- An operation on two integers. -/
inductive Arith where
  /-- The sum. -/
  | add
  /-- The difference. -/
  | sub
  /-- The product. -/
  | mul
  /-- The quotient, rounded toward zero. -/
  | div
  deriving DecidableEq

/-- The result of an operation, modulo `2 ^ 32`. -/
def Arith.apply : Arith → Int32 → Int32 → Except Fault Int32
  | .add, a, b => .ok (a + b)
  | .sub, a, b => .ok (a - b)
  | .mul, a, b => .ok (a * b)
  | .div, a, b => if b = 0 then .error .divisionByZero else .ok (a / b)

/-- What an instruction tells the machine to do. -/
inductive Action where
  /-- Push a value. -/
  | push (v : Value)
  /-- Push the builtin with a name. -/
  | pushBuiltin (name : List UInt8)
  /-- Push a closure over the current frame. -/
  | pushClosure (entry : Int32)
  /-- Pop `count` fields and push a constructor value. -/
  | pushData (position ordinal count : Int32)
  /-- Replace a constructor value by a field. -/
  | pushDataItem (index : Int32)
  /-- Pop `count` items and push a tuple. -/
  | pushTuple (count : Int32)
  /-- Replace a tuple by an item. -/
  | pushTupleItem (index : Int32)
  /-- Push a slot of the frame `depth` levels out. -/
  | pushVar (depth offset : Int32)
  /-- Push the top value again. -/
  | dup
  /-- Pop a value. -/
  | discard
  /-- Exchange the two top values. -/
  | swap
  /-- Replace two integers by the result of an operation. -/
  | arith (op : Arith)
  /-- Replace two integers by whether they are equal. -/
  | eq
  /-- Jump. -/
  | jump (target : Int32)
  /-- Pop a truth value and jump if it is `sense`. -/
  | jumpIf (sense : Bool) (target : Int32)
  /-- Pop a constructor value and jump to the entry of its ordinal. -/
  | jumpTable (entries : List Int32)
  /-- Pop an argument and a callee, and call. -/
  | call
  /-- Allocate the slots of the current frame. -/
  | enter (size : Int32)
  /-- Return from the current frame. -/
  | ret
  /-- Pop into a slot of the current frame. -/
  | store (offset : Int32)

/-- What an instruction tells the machine to do, if its operands are those of its
signature. -/
def Instruction.action? (i : Instruction) : Option Action :=
  match i.opcode, i.operands with
  | .pushBuiltin, [.text name] => some (.pushBuiltin name)
  | .pushClosure, [.int entry] => some (.pushClosure entry)
  | .pushData, [.int position, .int ordinal, .int count] => some (.pushData position ordinal count)
  | .pushDataItem, [.int index] => some (.pushDataItem index)
  | .pushFalse, [] => some (.push (.bool false))
  | .pushInt, [.int n] => some (.push (.int n))
  | .pushString, [.text bytes] => some (.push (.str bytes))
  | .pushTrue, [] => some (.push (.bool true))
  | .pushTuple, [.int count] => some (.pushTuple count)
  | .pushTupleItem, [.int index] => some (.pushTupleItem index)
  | .pushUnit, [] => some (.push .unit)
  | .pushVar, [.int depth, .int offset] => some (.pushVar depth offset)
  | .dup, [] => some .dup
  | .discard, [] => some .discard
  | .swap, [] => some .swap
  | .add, [] => some (.arith .add)
  | .sub, [] => some (.arith .sub)
  | .mul, [] => some (.arith .mul)
  | .div, [] => some (.arith .div)
  | .eq, [] => some .eq
  | .jmp, [.int target] => some (.jump target)
  | .jmpData, [.table entries] => some (.jumpTable entries)
  | .jmpFalse, [.int target] => some (.jumpIf false target)
  | .jmpTrue, [.int target] => some (.jumpIf true target)
  | .swapCall, [] => some .call
  | .enter, [.int size] => some (.enter size)
  | .ret, [] => some .ret
  | .storeVar, [.int offset] => some (.store offset)
  | _, _ => none

end StackCode
