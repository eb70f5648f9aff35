/-!
# Decimal numbers

Numbers are written in decimal without leading zeros, with `-` for a negative one.
A written number may also carry `+` and leading zeros; it is read if it is a signed
word of 32 bits.
-/

namespace StackCode.Text.Decimal

/-- The decimal digit of a number below ten. -/
def digit (n : Nat) : Char := Char.ofNat (48 + n)

/-- The value of a decimal digit. -/
def digitValue? (c : Char) : Option Nat :=
  if '0' ≤ c ∧ c ≤ '9' then some (c.toNat - 48) else none

/-- The digits of a number, the most significant first. -/
def digits (n : Nat) : List Char :=
  if n < 10 then [digit n] else digits (n / 10) ++ [digit (n % 10)]

/-- A natural number written in decimal. -/
def ofNat (n : Nat) : String := String.ofList (digits n)

/-- The digits of an integer, after a `-` if it is negative. -/
def signed : Int → List Char
  | .ofNat n => digits n
  | .negSucc n => '-' :: digits (n + 1)

/-- An integer written in decimal. -/
def ofInt (n : Int) : String := String.ofList (signed n)

/-- A signed word written in decimal. -/
def ofInt32 (n : Int32) : String := ofInt n.toInt

/-- The number that digits write; at least one digit, and nothing else. -/
def toNat? (cs : List Char) : Option Nat :=
  if cs.isEmpty then none
  else cs.foldlM (fun n c => (digitValue? c).map (10 * n + ·)) 0

/-- The integer that an optional sign and digits write. -/
def toInt? : List Char → Option Int
  | '-' :: cs => (toNat? cs).map fun n => -(n : Int)
  | '+' :: cs => (toNat? cs).map fun n => (n : Int)
  | cs => (toNat? cs).map fun n => (n : Int)

/-- The signed word that a text writes, if it is in range. -/
def toInt32? (cs : List Char) : Option Int32 :=
  (toInt? cs).bind fun n =>
    if -2147483648 ≤ n ∧ n < 2147483648 then some (Int32.ofInt n) else none

end StackCode.Text.Decimal
