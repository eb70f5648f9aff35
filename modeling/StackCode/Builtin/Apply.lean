import StackCode.Printer

/-!
# What builtins do

A builtin with all its arguments either gives a value or prints a text; a builtin that
prints gives no value. Strings are strings of bytes, compared byte by byte.
-/

namespace StackCode.Builtin

/-! ### Strings -/

/-- The number of bytes of a string. -/
def length (s : List UInt8) : Int32 := Int32.ofNat s.length

/-- The bytes of a string at the positions from `first` to before `last`. A range that runs backwards
or past the end of the string is out of range, and taking it is a panic (`none`). -/
def range? (s : List UInt8) (first last : Nat) : Option (List UInt8) :=
  if first ≤ last ∧ last ≤ s.length then some ((s.take last).drop first) else none

/-- The bytes of a string from `start` up to `stop`. Negative positions count as 0 and a `stop` behind
the end as the end; where `start` is not before the end, or `stop` not behind `start`, nothing is cut out,
so that `range?` only sees a range it can take (`slice?_isSome`). -/
def slice? (s : List UInt8) (start stop : Int32) : Option (List UInt8) :=
  let first := (max start.toInt 0).toNat
  let last := min (max stop.toInt 0).toNat s.length
  if s.length ≤ first ∨ last ≤ first then some [] else range? s first last

/-- Cutting a string is never out of range. -/
theorem slice?_isSome (s : List UInt8) (start stop : Int32) : (slice? s start stop).isSome := by
  rw [slice?]
  split
  · rfl
  case isFalse h =>
    -- Both tests failed: the range runs forward, and its end was cut down to the string's.
    rw [range?, if_pos (by omega)]
    rfl

/-- The bytes of a string from `start` up to `stop`, with `slice?`. -/
def slice (s : List UInt8) (start stop : Int32) : List UInt8 :=
  (slice? s start stop).get (slice?_isSome s start stop)

/-- The order of two strings: the first byte in which they differ decides, and a string
comes after its beginnings. -/
def order : List UInt8 → List UInt8 → Ordering
  | [], [] => .eq
  | [], _ :: _ => .lt
  | _ :: _, [] => .gt
  | a :: s, b :: t => if a < b then .lt else if b < a then .gt else order s t

/-- An order as an integer. -/
def orderInt : Ordering → Int32
  | .lt => -1
  | .eq => 0
  | .gt => 1

/-! ### Application -/

/-- What a builtin answers. -/
inductive Reply where
  /-- A value. -/
  | value (v : Value)
  /-- A text to be printed, and no value. -/
  | output (text : String)

/-- Apply a builtin to all its arguments. With another number of arguments it is not
callable. -/
def apply (p : Printer) (b : Builtin) (args : List Value) : Except Fault Reply :=
  match b, args with
  | print style, [v] => (p.render style v).map .output
  | println, [_] => .ok (.output "\n")
  | stringLength, [s] => do return .value (.int (length (← s.asBytes)))
  | substring, [s, start, stop] => do
    let s ← s.asBytes
    let start ← start.asInt
    let stop ← stop.asInt
    return .value (.str (slice s start stop))
  | concat, [s, t] => do
    let s ← s.asBytes
    let t ← t.asBytes
    return .value (.str (s ++ t))
  | stringEqual, [s, t] => do
    let s ← s.asBytes
    let t ← t.asBytes
    return .value (.bool (s == t))
  | stringCompare, [s, t] => do
    let s ← s.asBytes
    let t ← t.asBytes
    return .value (.int (orderInt (order s t)))
  | fatalError, [message, code] => do
    let message ← message.asBytes
    let code ← code.asInt
    throw (.fatal (Text.Utf8.lossy message) code)
  | _, _ => .error (.notCallable .builtin)

end StackCode.Builtin
