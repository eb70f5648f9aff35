/-!
# Opcodes

The twenty-eight operations of the machine. An opcode's byte is its place in
`Opcode.all`, its mnemonic is its name in source text, and its signature says which
operands follow it.
-/

namespace StackCode

/-- How an operand is laid out and what it denotes. -/
inductive OperandKind where
  /-- A word. -/
  | int
  /-- A word that is a position in the image. -/
  | label
  /-- The name of a builtin, ended by a NUL. -/
  | builtin
  /-- A string, ended by a NUL. -/
  | string
  /-- A count and that many positions. -/
  | labelTable
  deriving DecidableEq

/-- The name of a kind in messages. -/
def OperandKind.name : OperandKind → String
  | .int => "int"
  | .label => "label"
  | .builtin => "builtin"
  | .string => "string"
  | .labelTable => "label-table"

/-- An operation of the machine. -/
inductive Opcode where
  /-- Push a builtin. -/
  | pushBuiltin
  /-- Push a closure over the current frame. -/
  | pushClosure
  /-- Pop fields and push a constructor value of them. -/
  | pushData
  /-- Replace a constructor value by one of its fields. -/
  | pushDataItem
  /-- Push the truth value false. -/
  | pushFalse
  /-- Push an integer. -/
  | pushInt
  /-- Push a string. -/
  | pushString
  /-- Push the truth value true. -/
  | pushTrue
  /-- Pop items and push a tuple of them. -/
  | pushTuple
  /-- Replace a tuple by one of its items. -/
  | pushTupleItem
  /-- Push the unit value. -/
  | pushUnit
  /-- Push a slot of an enclosing frame. -/
  | pushVar
  /-- Push the top value again. -/
  | dup
  /-- Pop a value. -/
  | discard
  /-- Exchange the two top values. -/
  | swap
  /-- Add two integers. -/
  | add
  /-- Subtract two integers. -/
  | sub
  /-- Multiply two integers. -/
  | mul
  /-- Divide two integers. -/
  | div
  /-- Compare two integers. -/
  | eq
  /-- Jump. -/
  | jmp
  /-- Jump through a table by the ordinal of a constructor value. -/
  | jmpData
  /-- Jump if the top value is false. -/
  | jmpFalse
  /-- Jump if the top value is true. -/
  | jmpTrue
  /-- Pop an argument and a callee, and call. -/
  | swapCall
  /-- Allocate the slots of the current frame. -/
  | enter
  /-- Return from the current frame. -/
  | ret
  /-- Pop into a slot of the current frame. -/
  | storeVar
  deriving DecidableEq

namespace Opcode

/-- Every opcode, at the place that is its byte. -/
def all : List Opcode :=
  [pushBuiltin, pushClosure, pushData, pushDataItem, pushFalse, pushInt, pushString, pushTrue,
    pushTuple, pushTupleItem, pushUnit, pushVar, dup, discard, swap, add, sub, mul, div, eq, jmp,
    jmpData, jmpFalse, jmpTrue, swapCall, enter, ret, storeVar]

/-- The byte that stands for an opcode in an image. -/
def byte : Opcode → UInt8
  | pushBuiltin => 0
  | pushClosure => 1
  | pushData => 2
  | pushDataItem => 3
  | pushFalse => 4
  | pushInt => 5
  | pushString => 6
  | pushTrue => 7
  | pushTuple => 8
  | pushTupleItem => 9
  | pushUnit => 10
  | pushVar => 11
  | dup => 12
  | discard => 13
  | swap => 14
  | add => 15
  | sub => 16
  | mul => 17
  | div => 18
  | eq => 19
  | jmp => 20
  | jmpData => 21
  | jmpFalse => 22
  | jmpTrue => 23
  | swapCall => 24
  | enter => 25
  | ret => 26
  | storeVar => 27

/-- The opcode that a byte stands for. -/
def ofByte? (b : UInt8) : Option Opcode := all[b.toNat]?

/-- The name of an opcode in source text. -/
def mnemonic : Opcode → String
  | pushBuiltin => "PUSH_BUILTIN"
  | pushClosure => "PUSH_CLOSURE"
  | pushData => "PUSH_DATA"
  | pushDataItem => "PUSH_DATA_ITEM"
  | pushFalse => "PUSH_FALSE"
  | pushInt => "PUSH_INT"
  | pushString => "PUSH_STRING"
  | pushTrue => "PUSH_TRUE"
  | pushTuple => "PUSH_TUPLE"
  | pushTupleItem => "PUSH_TUPLE_ITEM"
  | pushUnit => "PUSH_UNIT"
  | pushVar => "PUSH_VAR"
  | dup => "DUP"
  | discard => "DISCARD"
  | swap => "SWAP"
  | add => "ADD"
  | sub => "SUB"
  | mul => "MUL"
  | div => "DIV"
  | eq => "EQ"
  | jmp => "JMP"
  | jmpData => "JMP_DATA"
  | jmpFalse => "JMP_FALSE"
  | jmpTrue => "JMP_TRUE"
  | swapCall => "SWAP_CALL"
  | enter => "ENTER"
  | ret => "RET"
  | storeVar => "STORE_VAR"

/-- The opcode with a mnemonic. -/
def ofMnemonic? (name : String) : Option Opcode := all.find? fun op => op.mnemonic == name

/-- The kinds of the operands, in order. -/
def signature : Opcode → List OperandKind
  | pushBuiltin => [.builtin]
  | pushClosure => [.label]
  | pushData => [.label, .int, .int]
  | pushDataItem => [.int]
  | pushInt => [.int]
  | pushString => [.string]
  | pushTuple => [.int]
  | pushTupleItem => [.int]
  | pushVar => [.int, .int]
  | jmp => [.label]
  | jmpData => [.labelTable]
  | jmpFalse => [.label]
  | jmpTrue => [.label]
  | enter => [.int]
  | storeVar => [.int]
  | pushFalse => []
  | pushTrue => []
  | pushUnit => []
  | dup => []
  | discard => []
  | swap => []
  | add => []
  | sub => []
  | mul => []
  | div => []
  | eq => []
  | swapCall => []
  | ret => []

theorem mem_all (op : Opcode) : op ∈ all := by cases op <;> decide

@[simp] theorem ofByte?_byte (op : Opcode) : ofByte? op.byte = some op := by cases op <;> rfl

theorem byte_of_ofByte? {b : UInt8} {op : Opcode} (h : ofByte? b = some op) : op.byte = b := by
  have hlt : b.toNat < all.length := (List.getElem?_eq_some_iff.mp h).1
  have hall : ∀ n : Fin 28, (all[n.val]).byte = UInt8.ofNat n.val := by decide
  have hb := hall ⟨b.toNat, hlt⟩
  rw [(List.getElem?_eq_some_iff.mp h).2] at hb
  simpa using hb

@[simp] theorem ofMnemonic?_mnemonic (op : Opcode) : ofMnemonic? op.mnemonic = some op := by
  cases op <;> decide

theorem mnemonic_of_ofMnemonic? {name : String} {op : Opcode} (h : ofMnemonic? name = some op) :
    op.mnemonic = name := by
  have := List.find?_some h
  simpa using this

/-- The signature as messages show it. -/
def signatureText (op : Opcode) : String :=
  "[" ++ String.intercalate ", " (op.signature.map OperandKind.name) ++ "]"

end Opcode

end StackCode
