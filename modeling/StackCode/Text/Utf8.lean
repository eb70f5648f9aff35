/-!
# UTF-8

Texts are written as UTF-8. Bytes from an image need not be UTF-8, so there are
two readings: `lossy`, which puts one replacement character for every longest
part that begins like a character and goes wrong, and `decode?`, which refuses.

The decoder is an automaton over the bytes. Between two bytes it remembers how
many more the character needs, the range the next one must lie in, and the bits
collected so far; only the byte after the first has a range narrower than
`0x80`–`0xBF`, which excludes overlong forms, surrogates and what lies beyond the
last character.
-/

namespace StackCode.Text.Utf8

/-- The bytes of a list of characters. -/
def encodeChars (cs : List Char) : List UInt8 := cs.flatMap String.utf8EncodeChar

/-- The bytes of a text. -/
def encode (s : String) : List UInt8 := encodeChars s.toList

/-- A character that has begun and is not finished. -/
structure Pending where
  /-- How many bytes are still to come. -/
  more : Nat
  /-- The least next byte. -/
  low : Nat
  /-- The greatest next byte. -/
  high : Nat
  /-- The bits of the bytes read. -/
  bits : Nat
  deriving DecidableEq

/-- What a byte means at the start of a character. -/
inductive Lead where
  /-- It is a character alone. -/
  | whole (c : Char)
  /-- It begins a longer character. -/
  | opens (p : Pending)
  /-- No character begins so. -/
  | bad

/-- The meaning of the first byte of a character. -/
def lead (byte : UInt8) : Lead :=
  let b := byte.toNat
  if b < 0x80 then .whole (Char.ofNat b)
  else if b < 0xC2 then .bad
  else if b < 0xE0 then .opens ⟨1, 0x80, 0xBF, b % 32⟩
  else if b = 0xE0 then .opens ⟨2, 0xA0, 0xBF, 0⟩
  else if b = 0xED then .opens ⟨2, 0x80, 0x9F, 13⟩
  else if b < 0xF0 then .opens ⟨2, 0x80, 0xBF, b % 16⟩
  else if b = 0xF0 then .opens ⟨3, 0x90, 0xBF, 0⟩
  else if b < 0xF4 then .opens ⟨3, 0x80, 0xBF, b % 8⟩
  else if b = 0xF4 then .opens ⟨3, 0x80, 0x8F, 4⟩
  else .bad

/-- The decoder: the characters read, `none` for an ill-formed part, and what is
pending. -/
structure Decoder where
  /-- What has been read, in order. -/
  read : Array (Option Char) := #[]
  /-- The unfinished character, if there is one. -/
  pending : Option Pending := none

/-- Read a byte that begins a character. -/
def Decoder.start (d : Decoder) (byte : UInt8) : Decoder :=
  match lead byte with
  | .whole c => ⟨d.read.push (some c), none⟩
  | .opens p => ⟨d.read, some p⟩
  | .bad => ⟨d.read.push none, none⟩

/-- Read one byte. A byte outside the range that the pending character allows ends
an ill-formed part and begins a character itself. -/
def Decoder.feed (d : Decoder) (byte : UInt8) : Decoder :=
  match d.pending with
  | none => d.start byte
  | some p =>
    if p.low ≤ byte.toNat ∧ byte.toNat ≤ p.high then
      let bits := p.bits * 64 + byte.toNat % 64
      if p.more ≤ 1 then ⟨d.read.push (some (Char.ofNat bits)), none⟩
      else ⟨d.read, some ⟨p.more - 1, 0x80, 0xBF, bits⟩⟩
    else Decoder.start ⟨d.read.push none, none⟩ byte

/-- The end of the bytes: what is pending is ill-formed. -/
def Decoder.finish (d : Decoder) : List (Option Char) :=
  match d.pending with
  | none => d.read.toList
  | some _ => (d.read.push none).toList

/-- The bytes read as characters, `none` for each ill-formed part. -/
def parts (bytes : List UInt8) : List (Option Char) :=
  (bytes.foldl Decoder.feed {}).finish

/-- The character that stands for an ill-formed part. -/
def replacement : Char := Char.ofNat 0xFFFD

/-- The bytes as text, with a replacement character for each ill-formed part. -/
def lossy (bytes : List UInt8) : String :=
  String.ofList ((parts bytes).map fun part => part.getD replacement)

/-- The bytes as text, if they are UTF-8. -/
def decode? (bytes : List UInt8) : Option String :=
  let read := parts bytes
  if read.all Option.isSome then some (String.ofList (read.filterMap id)) else none

end StackCode.Text.Utf8
