/-!
# Words in bytes

A word is a signed integer of 32 bits. In an image it takes four bytes, the least
significant first.
-/

namespace StackCode.Word

/-- How many bytes a word takes. -/
def size : Nat := 4

/-- The four bytes of a natural number modulo `2 ^ 32`. -/
def natBytes (n : Nat) : List UInt8 :=
  [UInt8.ofNat n, UInt8.ofNat (n / 256), UInt8.ofNat (n / 65536), UInt8.ofNat (n / 16777216)]

/-- The natural number that four bytes make. -/
def ofBytes (a b c d : UInt8) : Nat :=
  a.toNat + 256 * b.toNat + 65536 * c.toNat + 16777216 * d.toNat

/-- The four bytes of a word. -/
def bytes (w : Int32) : List UInt8 := natBytes w.toUInt32.toNat

/-- The word that four bytes make. -/
def ofFour (a b c d : UInt8) : Int32 := Int32.ofUInt32 (UInt32.ofNat (ofBytes a b c d))

@[simp] theorem length_bytes (w : Int32) : (bytes w).length = size := rfl

/-- Overwrite the four bytes from `offset` on with a word. -/
def patch (code : List UInt8) (offset : Nat) (w : Int32) : List UInt8 :=
  code.take offset ++ bytes w ++ code.drop (offset + size)

/-- The natural number that a word denotes, if it is not negative. -/
def toNat? (w : Int32) : Option Nat :=
  if w.toInt < 0 then none else some w.toInt.toNat

theorem ofBytes_lt (a b c d : UInt8) : ofBytes a b c d < 4294967296 := by
  have ha := a.toNat_lt
  have hb := b.toNat_lt
  have hc := c.toNat_lt
  have hd := d.toNat_lt
  unfold ofBytes
  omega

/-- Four bytes are those of the number that they make. -/
theorem natBytes_ofBytes (a b c d : UInt8) : natBytes (ofBytes a b c d) = [a, b, c, d] := by
  have ha := a.toNat_lt
  have hb := b.toNat_lt
  have hc := c.toNat_lt
  have hd := d.toNat_lt
  have h0 : UInt8.ofNat (ofBytes a b c d) = a := by
    apply UInt8.toNat_inj.mp
    rw [UInt8.toNat_ofNat']
    unfold ofBytes
    omega
  have h1 : UInt8.ofNat (ofBytes a b c d / 256) = b := by
    apply UInt8.toNat_inj.mp
    rw [UInt8.toNat_ofNat']
    unfold ofBytes
    omega
  have h2 : UInt8.ofNat (ofBytes a b c d / 65536) = c := by
    apply UInt8.toNat_inj.mp
    rw [UInt8.toNat_ofNat']
    unfold ofBytes
    omega
  have h3 : UInt8.ofNat (ofBytes a b c d / 16777216) = d := by
    apply UInt8.toNat_inj.mp
    rw [UInt8.toNat_ofNat']
    unfold ofBytes
    omega
  rw [natBytes, h0, h1, h2, h3]

/-- The bytes of a number below `2 ^ 32` make that number. -/
theorem ofBytes_natBytes {n : Nat} (h : n < 4294967296) :
    ofBytes (UInt8.ofNat n) (UInt8.ofNat (n / 256)) (UInt8.ofNat (n / 65536))
      (UInt8.ofNat (n / 16777216)) = n := by
  unfold ofBytes
  simp only [UInt8.toNat_ofNat']
  omega

/-- Four bytes are those of the word that they make. -/
theorem bytes_ofFour (a b c d : UInt8) : bytes (ofFour a b c d) = [a, b, c, d] := by
  rw [bytes, ofFour]
  show natBytes (UInt32.ofNat (ofBytes a b c d)).toNat = _
  rw [UInt32.toNat_ofNat', Nat.mod_eq_of_lt (ofBytes_lt a b c d), natBytes_ofBytes]

/-- The bytes of a word make that word. -/
theorem ofFour_bytes {w : Int32} {a b c d : UInt8} (h : bytes w = [a, b, c, d]) :
    ofFour a b c d = w := by
  have hw := w.toUInt32.toNat_lt
  obtain ⟨rfl, rfl, rfl, rfl⟩ : UInt8.ofNat w.toUInt32.toNat = a ∧
      UInt8.ofNat (w.toUInt32.toNat / 256) = b ∧ UInt8.ofNat (w.toUInt32.toNat / 65536) = c ∧
      UInt8.ofNat (w.toUInt32.toNat / 16777216) = d := by
    simpa [bytes, natBytes] using h
  rw [ofFour, ofBytes_natBytes hw]
  simp

/-- A word is patched in between what stands before and behind it. -/
theorem patch_append (before after : List UInt8) {old : List UInt8} (hold : old.length = size)
    (w : Int32) :
    patch (before ++ (old ++ after)) before.length w = before ++ (bytes w ++ after) := by
  rw [patch, List.take_left, List.append_assoc, ← List.append_assoc before old after, ← hold,
    ← List.length_append, List.drop_left]

/-- What stands in front is not touched by a patch behind it. -/
theorem patch_behind (front code : List UInt8) (offset : Nat) (w : Int32) :
    patch (front ++ code) (front.length + offset) w = front ++ patch code offset w := by
  rw [patch, patch, List.take_length_add_append, Nat.add_assoc, List.drop_length_add_append,
    List.append_assoc, List.append_assoc, List.append_assoc]

/-- The bytes of the word that a natural number makes are those of the number. -/
theorem bytes_ofNat (n : Nat) : bytes (Int32.ofNat n) = natBytes n := by
  have hn : (Int32.ofNat n).toUInt32.toNat = n % 4294967296 := UInt32.toNat_ofNat'
  rw [bytes, hn, natBytes, natBytes]
  simp only [List.cons.injEq, ← UInt8.toNat_inj, UInt8.toNat_ofNat']
  refine ⟨?_, ?_, ?_, ?_, trivial⟩ <;> omega

theorem toNat?_eq_some {w : Int32} {n : Nat} : toNat? w = some n ↔ w.toInt = n := by
  unfold toNat?
  split
  · simp only [reduceCtorEq, false_iff]
    omega
  · rw [Option.some.injEq]
    omega

end StackCode.Word
