import StackCode.Frame
import StackCode.Image

/-!
# Printing values and frames

A value is printed in one of three styles. The names of constructors and types are in
the image; a constructor value whose record is missing or has no such constructor cannot
be printed. Diagnostics print a message in its place.
-/

namespace StackCode

/-- What is needed to print a value: the image with the type records, and the frames that
closures have captured. -/
structure Printer where
  /-- The image with the type records. -/
  image : Image
  /-- The frames. -/
  frames : Frames

namespace Printer

/-- The type record at a position. -/
def record (p : Printer) (position : Int32) : Except Fault TypeRecord :=
  match p.image.typeRecord position with
  | .ok r => .ok r
  | .error _ => .error (.invalidMetadata position)

/-- The name of a constructor. -/
def constructorName (p : Printer) (position ordinal : Int32) : Except Fault String := do
  let r ← p.record position
  match r.constructor? ordinal with
  | some name => return name
  | none => throw (.invalidMetadata position)

/-- A character of a quoted string. -/
def escape (c : Char) : List Char := if c = '"' ∨ c = '\\' then ['\\', c] else [c]

/-- A string in quotes. -/
def quote (s : String) : String := String.ofList ('"' :: s.toList.flatMap escape ++ ['"'])

/-- A closure by its entry and the depth of the frame it captured. -/
def closureText (entry depth : Nat) : String :=
  "c" ++ Text.Decimal.ofNat entry ++ "#" ++ Text.Decimal.ofNat depth

/-- A field of a constructor value: in parentheses if it has fields itself. -/
def fieldText (v : Value) (text : String) : String :=
  match v with
  | .data _ _ (_ :: _) => " (" ++ text ++ ")"
  | _ => " " ++ text

mutual

/-- A value without its type. -/
def text (p : Printer) (style : Style) : Value → Except Fault String
  | .unit => .ok "()"
  | .bool b => .ok (if b then "true" else "false")
  | .int n => .ok (Text.Decimal.ofInt32 n)
  | .str bytes =>
    .ok (if style = .raw then Text.Utf8.lossy bytes else quote (Text.Utf8.lossy bytes))
  | .tuple items => do
    let parts ← p.texts style items
    return "(" ++ String.intercalate ", " parts ++ ")"
  | .data position ordinal fields => do
    let name ← p.constructorName position ordinal
    let parts ← p.texts style fields
    return name ++ String.join ((fields.zip parts).map fun (v, t) => fieldText v t)
  | .closure entry frame =>
    .ok (if style = .raw then closureText entry (p.frames.depth frame) else "function")
  | .builtin b => .ok b.name
  | .partialBuiltin b args => do
    let parts ← p.texts style args
    return "<" ++ b.name ++ String.join (parts.map (" " ++ ·)) ++ ">"

/-- Values without their types. -/
def texts (p : Printer) (style : Style) : List Value → Except Fault (List String)
  | [] => .ok []
  | v :: vs => do
    let t ← p.text style v
    let ts ← p.texts style vs
    return t :: ts

end

mutual

/-- The type of a value. -/
def typeText (p : Printer) : Value → Except Fault String
  | .tuple items => do
    let parts ← p.typeTexts items
    return "(" ++ String.intercalate " * " parts ++ ")"
  | .data position _ _ => do
    let r ← p.record position
    return r.name
  | v => .ok v.shape.name

/-- The types of values. -/
def typeTexts (p : Printer) : List Value → Except Fault (List String)
  | [] => .ok []
  | v :: vs => do
    let t ← p.typeText v
    let ts ← p.typeTexts vs
    return t :: ts

end

/-- A value in a style. -/
def render (p : Printer) (style : Style) (v : Value) : Except Fault String := do
  let shown ← p.text style v
  if style = .typed then
    let type ← p.typeText v
    return shown ++ ": " ++ type
  else return shown

/-- A value in a style, or the message of the fault in angle brackets. -/
def renderLossy (p : Printer) (style : Style) (v : Value) : String :=
  match p.render style v with
  | .ok t => t
  | .error fault => "<" ++ fault.message ++ ">"

/-- Values as diagnostics show them. -/
def rawList (p : Printer) (vs : List Value) : String :=
  "[" ++ String.intercalate ", " (vs.map (p.renderLossy .raw)) ++ "]"

/-- The slots of a frame. -/
def slotsText (p : Printer) (f : Frame) : String :=
  match f.slots with
  | none => "-"
  | some slots =>
    let items := slots.toList.map fun
      | some v => p.renderLossy .raw v
      | none => "-"
    "[" ++ String.intercalate ", " items ++ "]"

/-- A frame, given the text and the depth of its parent. -/
def frameText (p : Printer) (f : Frame) (parentText : String) (parentDepth : Nat) : String :=
  let closure := f.entry.elim "-" fun entry => closureText entry parentDepth
  let ip := f.returnPoint.elim "-" fun r => Text.Decimal.ofNat r.ip
  "<" ++ parentText ++ ", " ++ closure ++ ", " ++ ip ++ ", " ++ p.slotsText f ++ ">"

/-- A frame with all frames around it. -/
def activation (p : Printer) (i : Nat) : String :=
  ((p.frames.path i []).foldl
    (fun (text, depth) k => (p.frameText (p.frames.get k) text depth, depth + 1))
    ("-", 0)).1

/-- A stack, bottom first, and the frames around a frame. -/
def snapshot (p : Printer) (stack : List Value) (i : Nat) : String :=
  p.rawList stack ++ " :: " ++ p.activation i

end Printer

end StackCode
