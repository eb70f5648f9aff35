/-!
# Hexadecimal

Bytes are written with lower-case digits: both digits in a digest and in source
text, without a leading zero in a dump. In source text a byte is `0x` or `0X` and
one or two digits of either case.
-/

namespace StackCode.Text.Hex

/-- The hexadecimal digit of a number below sixteen. -/
def digit (n : Nat) : Char := if n < 10 then Char.ofNat (48 + n) else Char.ofNat (87 + n)

/-- The value of a hexadecimal digit of either case. -/
def digitValue? (c : Char) : Option Nat :=
  if '0' ≤ c ∧ c ≤ '9' then some (c.toNat - 48)
  else if 'a' ≤ c ∧ c ≤ 'f' then some (c.toNat - 87)
  else if 'A' ≤ c ∧ c ≤ 'F' then some (c.toNat - 55)
  else none

/-- A byte with both its digits. -/
def pair (b : UInt8) : List Char := [digit (b.toNat / 16), digit (b.toNat % 16)]

/-- A byte without a leading zero. -/
def short (b : UInt8) : List Char :=
  if b.toNat < 16 then [digit b.toNat] else pair b

/-- Bytes written one after the other, two digits each. -/
def ofBytes (bytes : List UInt8) : String := String.ofList (bytes.flatMap pair)

/-- The byte that a word of source text writes. -/
def readByte? : List Char → Option UInt8
  | ['0', x, c] =>
    if x = 'x' ∨ x = 'X' then (digitValue? c).map UInt8.ofNat else none
  | ['0', x, c, d] =>
    if x = 'x' ∨ x = 'X' then
      (digitValue? c).bind fun high => (digitValue? d).map fun low => UInt8.ofNat (16 * high + low)
    else none
  | _ => none

end StackCode.Text.Hex
