import StackCode.Image

/-!
# The parts of an image

An image is its header, its code and its data, one after the other, provided that the data
begins behind the header and not beyond the end (`Image.WellFormed`). Taking bytes for an
image establishes this.
-/

namespace StackCode.Image

/-- The data begins behind the header and not beyond the end of the image. -/
structure WellFormed (img : Image) : Prop where
  header_le : headerSize ≤ img.dataOffset
  le_size : img.dataOffset ≤ img.size

instance (img : Image) : Decidable img.WellFormed :=
  decidable_of_iff (headerSize ≤ img.dataOffset ∧ img.dataOffset ≤ img.size)
    ⟨fun h => ⟨h.1, h.2⟩, fun h => ⟨h.1, h.2⟩⟩

/-- There is a word of code at an offset: its bytes are behind the header and in front of the data. -/
def WordInCode (img : Image) (offset : Nat) : Prop :=
  headerSize ≤ offset ∧ offset + Word.size ≤ img.dataOffset

/-- What it takes for bytes to be an image: four bytes that say where the data begins, which
is behind them and not beyond the end. -/
theorem ofBytes_eq_ok_iff {bytes : List UInt8} {img : Image} :
    ofBytes bytes = .ok img ↔
      img.bytes = bytes ∧ img.WellFormed ∧ img.dataOffset < 4294967296 ∧
        Word.natBytes img.dataOffset <+: bytes := by
  constructor
  · intro h
    unfold ofBytes at h
    split at h
    · next b0 b1 b2 b3 rest =>
      simp only at h
      split at h
      · cases h
      · next hrange =>
        simp only [Except.ok.injEq] at h
        subst h
        refine ⟨rfl, ⟨by simp only []; omega, by simp only [size]; omega⟩, Word.ofBytes_lt b0 b1 b2 b3, ?_⟩
        exact ⟨rest, by rw [Word.natBytes_ofBytes]; rfl⟩
    · cases h
  · rintro ⟨rfl, hw, hlt, rest, hrest⟩
    obtain ⟨bytes, offset⟩ := img
    simp only at hrest hlt
    subst hrest
    have hoff := Word.ofBytes_natBytes hlt
    have hrange : ¬ (offset < headerSize ∨ (Word.natBytes offset ++ rest).length < offset) := by
      have h₁ := hw.header_le
      have h₂ := hw.le_size
      simp only [size] at h₁ h₂
      omega
    unfold ofBytes
    simp only [Word.natBytes, List.cons_append, List.nil_append] at hrange ⊢
    simp only [hoff, if_neg hrange]

/-- An image is its header, its code and its data. -/
theorem WellFormed.bytes_eq {img : Image} (h : img.WellFormed) :
    img.bytes = img.bytes.take headerSize ++ img.code ++ img.data := by
  have htake : (img.bytes.take img.dataOffset).take headerSize = img.bytes.take headerSize := by
    rw [List.take_take, Nat.min_eq_left h.header_le]
  rw [code, data, beforeData, ← htake, List.take_append_drop, List.take_append_drop]

/-- An image with its offset in front is this offset, its code and its data. -/
theorem WellFormed.bytes_eq_header {img : Image} (h : img.WellFormed)
    (hheader : Word.natBytes img.dataOffset <+: img.bytes) :
    img.bytes = Word.natBytes img.dataOffset ++ img.code ++ img.data := by
  have htake : img.bytes.take headerSize = Word.natBytes img.dataOffset := by
    obtain ⟨rest, hrest⟩ := hheader
    rw [← hrest]
    rfl
  rw [← htake]
  exact h.bytes_eq

/-- Two images that bytes are taken for are the same if they have the same parts. -/
theorem eq_of_parts {bytes bytes' : List UInt8} {img img' : Image} (h : ofBytes bytes = .ok img)
    (h' : ofBytes bytes' = .ok img') (hoffset : img.dataOffset = img'.dataOffset)
    (hcode : img.code = img'.code) (hdata : img.data = img'.data) : img = img' := by
  obtain ⟨rfl, hw, -, hheader⟩ := ofBytes_eq_ok_iff.mp h
  obtain ⟨rfl, hw', -, hheader'⟩ := ofBytes_eq_ok_iff.mp h'
  have hbytes : img.bytes = img'.bytes := by
    rw [hw.bytes_eq_header hheader, hw'.bytes_eq_header hheader', hoffset, hcode, hdata]
  cases img
  cases img'
  simp_all

theorem WellFormed.length_code {img : Image} (h : img.WellFormed) :
    headerSize + img.code.length = img.dataOffset := by
  have h₁ := h.header_le
  have h₂ := h.le_size
  unfold size at h₂
  simp only [code, beforeData, List.length_drop, List.length_take]
  omega

section Parts

variable {header code' data' : List UInt8} (hh : header.length = headerSize)
include hh

theorem code_of_parts : (Image.mk (header ++ code' ++ data') (headerSize + code'.length)).code = code' := by
  rw [code, beforeData, ← hh, ← List.length_append, List.take_left, List.drop_left]

theorem data_of_parts : (Image.mk (header ++ code' ++ data') (headerSize + code'.length)).data = data' := by
  rw [data, ← hh, ← List.length_append, List.drop_left]

theorem wellFormed_of_parts :
    (Image.mk (header ++ code' ++ data') (headerSize + code'.length)).WellFormed := by
  refine ⟨Nat.le_add_right _ _, ?_⟩
  simp only [size, List.length_append, hh]
  exact Nat.le_add_right _ _

end Parts

end StackCode.Image
