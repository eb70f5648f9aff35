/-!
# Blank characters, and cutting text at them

A source line is trimmed at both ends and cut into words at its blanks. Blank is
every character with Unicode's property `White_Space`, all twenty-five of them,
and not only those of ASCII.
-/

namespace StackCode.Text

/-- The ranges of characters with the property `White_Space`, in order. -/
def blankRanges : List (Nat × Nat) :=
  [(0x09, 0x0D), (0x20, 0x20), (0x85, 0x85), (0xA0, 0xA0), (0x1680, 0x1680),
    (0x2000, 0x200A), (0x2028, 0x2029), (0x202F, 0x202F), (0x205F, 0x205F), (0x3000, 0x3000)]

/-- A character that separates words. -/
def isBlank (c : Char) : Bool :=
  blankRanges.any fun (low, high) => low ≤ c.toNat && c.toNat ≤ high

/-- The text without the blanks at its ends. -/
def trim (cs : List Char) : List Char :=
  ((cs.dropWhile isBlank).reverse.dropWhile isBlank).reverse

/-- The pieces between the characters that satisfy `p`; one piece more than there
are such characters. -/
def splitWhere (p : Char → Bool) (cs : List Char) : List (List Char) :=
  cs.foldr
    (fun c pieces =>
      if p c then [] :: pieces
      else
        match pieces with
        | [] => [[c]]
        | piece :: more => (c :: piece) :: more)
    [[]]

/-- The lines of a text, cut at line feeds. -/
def lines (cs : List Char) : List (List Char) := splitWhere (· == '\n') cs

/-- The words of a text: its longest pieces without a blank. -/
def words (cs : List Char) : List (List Char) :=
  (splitWhere isBlank cs).filter fun piece => !piece.isEmpty

/-- A text cut at its first blank, which belongs to neither part; without a blank
the second part is empty. -/
def splitFirst (cs : List Char) : List Char × List Char :=
  (cs.takeWhile fun c => !isBlank c, (cs.dropWhile fun c => !isBlank c).drop 1)

/-- A separator in front begins a new piece. -/
theorem splitWhere_cons_of_pos {p : Char → Bool} {c : Char} (h : p c) (cs : List Char) :
    splitWhere p (c :: cs) = [] :: splitWhere p cs := by
  simp [splitWhere, h]

/-- Another character in front belongs to the first piece. -/
theorem splitWhere_cons_of_neg {p : Char → Bool} {c : Char} (h : ¬ p c) {cs piece : List Char}
    {more : List (List Char)} (hcs : splitWhere p cs = piece :: more) :
    splitWhere p (c :: cs) = (c :: piece) :: more := by
  simp only [splitWhere] at hcs
  simp [splitWhere, h, hcs]

end StackCode.Text
