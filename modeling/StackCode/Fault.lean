import StackCode.Cursor

/-!
# Faults

What can go wrong when a program runs. A fault names its cause; the machine adds where
it happened.
-/

namespace StackCode

/-- The outermost form of a value. -/
inductive Shape where
  /-- The unit value. -/
  | unit
  /-- A truth value. -/
  | bool
  /-- An integer. -/
  | int
  /-- A string. -/
  | string
  /-- A tuple. -/
  | tuple
  /-- A constructor value. -/
  | data
  /-- A closure. -/
  | closure
  /-- A builtin. -/
  | builtin
  /-- A builtin with some of its arguments. -/
  | partialBuiltin
  deriving DecidableEq

/-- The name of a shape. -/
def Shape.name : Shape → String
  | .unit => "Unit"
  | .bool => "Bool"
  | .int => "Int"
  | .string => "String"
  | .tuple => "Tuple"
  | .data => "Data"
  | .closure => "Closure"
  | .builtin => "Builtin"
  | .partialBuiltin => "BuiltinClosure"

/-- Why an instruction cannot be executed. -/
inductive Fault where
  /-- The stack has too few values. -/
  | stackUnderflow
  /-- A value has another shape than the instruction wants. -/
  | typeMismatch (expected found : Shape)
  /-- No opcode has this byte. -/
  | unknownOpcode (byte : UInt8)
  /-- The bytes at the instruction pointer are no instruction. -/
  | malformed (error : CodecError)
  /-- No builtin has this name. -/
  | unknownBuiltin (name : String)
  /-- The divisor is zero. -/
  | divisionByZero
  /-- A jump table has no entry for an ordinal. -/
  | dispatchOutOfRange (ordinal : Int32) (size : Nat)
  /-- An index or a count is out of range. -/
  | indexOutOfRange (index : Int32) (length : Nat)
  /-- The slots of the frame are allocated already. -/
  | alreadyEntered
  /-- The slots of the frame are not allocated. -/
  | notEntered
  /-- There are not so many enclosing frames. -/
  | noEnclosingFrame (depth : Int32)
  /-- Nothing is stored in the slot. -/
  | uninitializedSlot (index : Nat)
  /-- A value of this shape cannot be called. -/
  | notCallable (found : Shape)
  /-- The instruction pointer is not in the code. -/
  | ipOutOfBounds (ip : Nat)
  /-- There is no usable type record at this position. -/
  | invalidMetadata (position : Int32)
  /-- The output cannot be written. -/
  | output (reason : String)
  /-- The program stopped itself. -/
  | fatal (message : String) (code : Int32)
  deriving DecidableEq

namespace Fault

/-- The message of a fault. -/
def message : Fault → String
  | stackUnderflow => "stack underflow"
  | typeMismatch expected found =>
    "type mismatch: expected " ++ expected.name ++ ", found " ++ found.name
  | unknownOpcode byte => "unknown opcode " ++ Text.Decimal.ofNat byte.toNat
  | malformed error => "malformed instruction: " ++ error.message
  | unknownBuiltin name => "unknown builtin " ++ name
  | divisionByZero => "division by zero"
  | dispatchOutOfRange ordinal size =>
    "constructor ordinal " ++ Text.Decimal.ofInt32 ordinal ++ " outside dispatch table of " ++
      Text.Decimal.ofNat size ++ " entries"
  | indexOutOfRange index length =>
    "index " ++ Text.Decimal.ofInt32 index ++ " out of range for length " ++
      Text.Decimal.ofNat length
  | alreadyEntered => "activation already entered"
  | notEntered => "activation not entered"
  | noEnclosingFrame depth =>
    "no enclosing activation " ++ Text.Decimal.ofInt32 depth ++ " levels out"
  | uninitializedSlot index =>
    "slot " ++ Text.Decimal.ofNat index ++ " read before anything was stored in it"
  | notCallable found => "value of type " ++ found.name ++ " is not callable"
  | ipOutOfBounds ip =>
    "instruction pointer " ++ Text.Decimal.ofNat ip ++ " is outside the code segment"
  | invalidMetadata position => "invalid type metadata at offset " ++ Text.Decimal.ofInt32 position
  | output reason => "cannot write output: " ++ reason
  | fatal message code =>
    "fatal error: " ++ message ++ " (code " ++ Text.Decimal.ofInt32 code ++ ")"

/-- The exit code of a program that ends with a fault. -/
def exitCode : Fault → Int32
  | fatal _ code => code
  | _ => 1

end Fault

end StackCode
