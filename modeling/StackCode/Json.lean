import StackCode.Text.Decimal
import StackCode.Text.Hex

/-!
# JSON documents

A listing can be written as a JSON document, laid out with two spaces for each level.
The fields of an object keep their order.
-/

namespace StackCode

/-- A JSON document made of integers, strings, arrays and objects. -/
inductive Json where
  /-- An integer. -/
  | int (n : Int)
  /-- A string. -/
  | str (s : String)
  /-- An array. -/
  | arr (items : List Json)
  /-- An object, its fields in order. -/
  | obj (fields : List (String × Json))

namespace Json

/-- A character inside quotes: the quote, the backslash and the characters below the
space are escaped. -/
def escape (c : Char) : List Char :=
  if c = '"' then ['\\', '"']
  else if c = '\\' then ['\\', '\\']
  else if c = '\x08' then ['\\', 'b']
  else if c = '\x0c' then ['\\', 'f']
  else if c = '\n' then ['\\', 'n']
  else if c = '\r' then ['\\', 'r']
  else if c = '\t' then ['\\', 't']
  else if c.toNat < 32 then ['\\', 'u', '0', '0'] ++ Text.Hex.pair (UInt8.ofNat c.toNat)
  else [c]

/-- A string in quotes. -/
def quote (s : String) : String :=
  String.ofList ('"' :: s.toList.flatMap escape ++ ['"'])

/-- A new line with an indentation. -/
def newline (indent : Nat) : String := String.ofList ('\n' :: List.replicate indent ' ')

/-- Parts in brackets, each on a line of its own, or the brackets alone. -/
def bracket (left right : String) (indent : Nat) (parts : List String) : String :=
  if parts.isEmpty then left ++ right
  else
    left ++ newline (indent + 2) ++ String.intercalate ("," ++ newline (indent + 2)) parts ++
      newline indent ++ right

mutual

/-- A document laid out from an indentation on. -/
def pretty (indent : Nat) : Json → String
  | .int n => Text.Decimal.ofInt n
  | .str s => quote s
  | .arr items => bracket "[" "]" indent (prettyItems (indent + 2) items)
  | .obj fields => bracket "\x7b" "\x7d" indent (prettyFields (indent + 2) fields)

/-- The items of an array. -/
def prettyItems (indent : Nat) : List Json → List String
  | [] => []
  | item :: items => pretty indent item :: prettyItems indent items

/-- The fields of an object. -/
def prettyFields (indent : Nat) : List (String × Json) → List String
  | [] => []
  | (name, value) :: fields =>
    (quote name ++ ": " ++ pretty indent value) :: prettyFields indent fields

end

end Json

end StackCode
