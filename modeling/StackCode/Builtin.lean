/-!
# Builtins

The functions that the machine itself provides. A program names one, and applies it
to one argument after the other until it has as many as its arity.
-/

namespace StackCode

/-- How a value is printed. -/
inductive Style where
  /-- Strings as they are, closures by entry and depth. -/
  | raw
  /-- Strings quoted, closures as `function`. -/
  | literal
  /-- As `literal`, with the type behind. -/
  | typed
  deriving DecidableEq

/-- A function that the machine provides. -/
inductive Builtin where
  /-- Print a value. -/
  | print (style : Style)
  /-- Print a line feed. -/
  | println
  /-- The number of bytes of a string. -/
  | stringLength
  /-- The bytes of a string between two positions. -/
  | substring
  /-- One string after another. -/
  | concat
  /-- Whether two strings are the same. -/
  | stringEqual
  /-- The order of two strings, as `-1`, `0` or `1`. -/
  | stringCompare
  /-- Stop with a message and a code. -/
  | fatalError
  deriving DecidableEq

namespace Builtin

/-- Every builtin. -/
def all : List Builtin :=
  [print .raw, print .literal, print .typed, println, stringLength, substring, concat, stringEqual,
    stringCompare, fatalError]

/-- The name of a builtin. -/
def name : Builtin → String
  | print .raw => "$$builtin-print"
  | print .literal => "$$builtin-print-literal"
  | print .typed => "$$builtin-print-typed"
  | println => "$$builtin-println"
  | stringLength => "$$builtin-string-length"
  | substring => "$$builtin-string-substring"
  | concat => "$$builtin-string-concat"
  | stringEqual => "$$builtin-string-equal"
  | stringCompare => "$$builtin-string-compare"
  | fatalError => "$$builtin-fatal-error"

/-- How many arguments a builtin takes. -/
def arity : Builtin → Nat
  | print _ => 1
  | println => 1
  | stringLength => 1
  | substring => 3
  | concat => 2
  | stringEqual => 2
  | stringCompare => 2
  | fatalError => 2

/-- The builtin with a name. -/
def ofName? (name : String) : Option Builtin := all.find? fun b => b.name == name

theorem mem_all (b : Builtin) : b ∈ all := by
  cases b with
  | print style => cases style <;> decide
  | _ => decide

@[simp] theorem ofName?_name (b : Builtin) : ofName? b.name = some b := by
  cases b with
  | print style => cases style <;> decide
  | _ => decide

theorem arity_pos (b : Builtin) : 0 < b.arity := by cases b <;> simp [arity]

end Builtin

end StackCode
