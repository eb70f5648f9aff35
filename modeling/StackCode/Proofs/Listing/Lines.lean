import StackCode.Listing
import StackCode.Proofs.Codec
import StackCode.Proofs.Image

/-!
# The instructions of an image

An image has a listing exactly if its code is a sequence of encodings of instructions
(`Listing.linesOf_eq_ok_iff`). The listing then has these instructions in order, the first
behind the header and each next one where the one before ends (`Listing.layOut`), and the
machine, which reads from the whole image, finds at the offset of a line what the line shows.
-/

namespace StackCode.Listing

open Result

/-- Instructions one after the other from an offset on, each with the offset where it
begins. -/
def layOut : Nat → List Instruction → List Line
  | _, [] => []
  | offset, i :: is => ⟨offset, i⟩ :: layOut (offset + i.bytes.length) is

@[simp] theorem map_instruction_layOut (offset : Nat) (is : List Instruction) :
    (layOut offset is).map Line.instruction = is := by
  induction is generalizing offset with
  | nil => rfl
  | cons i is ih => rw [layOut, List.map_cons, ih]

/-- A line stands behind the encodings of the instructions before it. -/
theorem mem_layOut {offset : Nat} {is : List Instruction} {line : Line}
    (h : line ∈ layOut offset is) :
    ∃ before after, is = before ++ line.instruction :: after ∧
      line.offset = offset + (before.flatMap Instruction.bytes).length := by
  induction is generalizing offset with
  | nil => simp [layOut] at h
  | cons i is ih =>
    rw [layOut, List.mem_cons] at h
    rcases h with rfl | h
    · exact ⟨[], is, rfl, rfl⟩
    · obtain ⟨before, after, rfl, ho⟩ := ih h
      refine ⟨i :: before, after, rfl, ?_⟩
      rw [ho, List.flatMap_cons, List.length_append]
      omega

theorem layOut_append (offset : Nat) (is js : List Instruction) :
    layOut offset (is ++ js) =
      layOut offset is ++ layOut (offset + (is.flatMap Instruction.bytes).length) js := by
  induction is generalizing offset with
  | nil => rfl
  | cons i is ih =>
    simp only [List.cons_append, layOut, ih, List.flatMap_cons, List.length_append, Nat.add_assoc]

/-- Between two instructions is the offset of a line. -/
theorem exists_mem_layOut (offset : Nat) (before : List Instruction) {after : List Instruction}
    (h : after ≠ []) :
    ∃ line ∈ layOut offset (before ++ after),
      line.offset = offset + (before.flatMap Instruction.bytes).length := by
  cases after with
  | nil => exact absurd rfl h
  | cons i after =>
    refine ⟨⟨offset + (before.flatMap Instruction.bytes).length, i⟩, ?_, rfl⟩
    rw [layOut_append, layOut]
    simp

/-! ### Reading the lines -/

theorem flatMap_bytes_eq_nil_iff {is : List Instruction} :
    is.flatMap Instruction.bytes = [] ↔ is = [] := by
  cases is with
  | nil => simp
  | cons i is => simp [Instruction.bytes]

/-- At the end of the bytes there are no more lines. -/
theorem done_iff {c : Cursor} {done lines : Array Line} (hrest : c.rest = []) :
    Except.ok (ε := CodecError) done = .ok lines ↔
      ∃ is : List Instruction, (∀ i ∈ is, i.Encodable) ∧ c.rest = is.flatMap Instruction.bytes ∧
        lines.toList = done.toList ++ layOut c.offset is := by
  rw [Except.ok.injEq]
  constructor
  · rintro rfl
    exact ⟨[], by simp, hrest, by simp [layOut]⟩
  · rintro ⟨is, -, hbytes, hlines⟩
    rw [hrest] at hbytes
    obtain rfl := flatMap_bytes_eq_nil_iff.mp hbytes.symm
    rw [layOut, List.append_nil] at hlines
    exact (Array.toList_inj.mp hlines).symm

/-- Instructions are read to the end exactly from their encodings. -/
theorem readLines_eq_ok_iff {fuel : Nat} {c : Cursor} {done lines : Array Line}
    (hfuel : c.rest.length ≤ fuel) :
    readLines fuel c done = .ok lines ↔
      ∃ is : List Instruction, (∀ i ∈ is, i.Encodable) ∧ c.rest = is.flatMap Instruction.bytes ∧
        lines.toList = done.toList ++ layOut c.offset is := by
  induction fuel generalizing c done with
  | zero => exact done_iff (List.eq_nil_of_length_eq_zero (Nat.le_zero.mp hfuel))
  | succ fuel ih =>
    rw [readLines]
    split
    · next hempty => exact done_iff (List.isEmpty_iff.mp hempty)
    · next hnonempty =>
      constructor
      · intro h
        split at h
        · next i next hi =>
          obtain ⟨he, hr, ho⟩ := Cursor.instruction_eq_ok_iff.mp hi
          have hpos := i.length_bytes_pos
          have hlen : next.rest.length ≤ fuel := by
            rw [hr, List.length_append] at hfuel
            omega
          obtain ⟨is, hes, hbytes, hlines⟩ := (ih hlen).mp h
          refine ⟨i :: is, List.forall_mem_cons.mpr ⟨he, hes⟩, ?_, ?_⟩
          · rw [hr, hbytes, List.flatMap_cons]
          · rw [hlines, Array.toList_push, List.append_assoc, List.singleton_append, layOut, ho]
        · cases h
      · rintro ⟨is, hes, hbytes, hlines⟩
        cases is with
        | nil => simp [hbytes] at hnonempty
        | cons i is =>
          obtain ⟨he, hes⟩ := List.forall_mem_cons.mp hes
          rw [List.flatMap_cons] at hbytes
          have hi : c.instruction =
              .ok (i, ⟨c.offset + i.bytes.length, is.flatMap Instruction.bytes⟩) :=
            Cursor.instruction_eq_ok_iff.mpr ⟨he, hbytes, rfl⟩
          have hpos := i.length_bytes_pos
          have hlen : (is.flatMap Instruction.bytes).length ≤ fuel := by
            rw [hbytes, List.length_append] at hfuel
            omega
          simp only [hi]
          refine (ih hlen).mpr ⟨is, hes, rfl, ?_⟩
          rw [hlines, Array.toList_push, List.append_assoc, List.singleton_append, layOut]

/-- **An image has a listing exactly if its code is a sequence of encodings**, and then the
lines are the instructions that they encode. -/
theorem linesOf_eq_ok_iff {img : Image} {lines : List Line} :
    linesOf img = .ok lines ↔
      ∃ is : List Instruction, (∀ i ∈ is, i.Encodable) ∧
        img.code = is.flatMap Instruction.bytes ∧ lines = layOut Image.headerSize is := by
  have hfuel : (Cursor.seek img.beforeData Image.headerSize).rest.length ≤ img.dataOffset := by
    simp only [Cursor.seek, Image.beforeData, List.length_drop, List.length_take]
    omega
  rw [linesOf, map_eq_ok_iff]
  constructor
  · rintro ⟨found, h, rfl⟩
    obtain ⟨is, hes, hbytes, hlines⟩ := (readLines_eq_ok_iff hfuel).mp h
    exact ⟨is, hes, hbytes, by simpa [Cursor.seek] using hlines⟩
  · rintro ⟨is, hes, hbytes, rfl⟩
    exact ⟨⟨layOut Image.headerSize is⟩, (readLines_eq_ok_iff hfuel).mpr ⟨is, hes, hbytes, by simp [Cursor.seek]⟩,
      rfl⟩

theorem ofImage_eq_ok_iff {img : Image} {l : Listing} :
    ofImage img = .ok l ↔
      linesOf img = .ok l.lines ∧ l = ⟨img.size, img.dataOffset, img.digest, l.lines, img.data⟩ := by
  unfold ofImage
  rw [bind_eq_ok_iff]
  constructor
  · rintro ⟨lines, hlines, h⟩
    cases pure_eq_ok_iff.mp h
    exact ⟨hlines, rfl⟩
  · rintro ⟨hlines, h⟩
    exact ⟨l.lines, hlines, pure_eq_ok_iff.mpr h.symm⟩

/-! ### Lines and what the machine reads -/

section Lines

variable {img : Image} {lines : List Line} (hw : img.WellFormed) (hlines : linesOf img = .ok lines)
include hw hlines

/-- At the offset of a line the whole image has the instruction of the line. -/
theorem decode_of_mem {line : Line} (h : line ∈ lines) :
    Instruction.decode img.bytes line.offset =
      .ok (line.instruction, line.instruction.bytes.length) := by
  obtain ⟨is, hes, hcode, rfl⟩ := linesOf_eq_ok_iff.mp hlines
  obtain ⟨before, after, rfl, ho⟩ := mem_layOut h
  have he : line.instruction.Encodable := hes _ (by simp)
  have hheader : (img.bytes.take Image.headerSize).length = Image.headerSize := by
    have h₁ := hw.header_le
    have h₂ := hw.le_size
    rw [List.length_take]
    unfold Image.size at h₂
    omega
  have hbytes : img.bytes = (img.bytes.take Image.headerSize ++ before.flatMap Instruction.bytes) ++
      line.instruction.bytes ++ (after.flatMap Instruction.bytes ++ img.data) := by
    conv_lhs => rw [hw.bytes_eq, hcode]
    simp only [List.flatMap_append, List.flatMap_cons, List.append_assoc]
  have hoffset : line.offset =
      (img.bytes.take Image.headerSize ++ before.flatMap Instruction.bytes).length := by
    rw [ho, List.length_append, hheader]
  rw [hbytes, hoffset]
  exact Instruction.decode_append he.countsFit (Instruction.encodable_iff.mp he).1

/-- Behind a line is the next line or the data. -/
theorem next_of_mem {line : Line} (h : line ∈ lines) :
    (∃ next ∈ lines, next.offset = line.offset + line.instruction.bytes.length) ∨
      line.offset + line.instruction.bytes.length = img.dataOffset := by
  obtain ⟨is, hes, hcode, rfl⟩ := linesOf_eq_ok_iff.mp hlines
  obtain ⟨before, after, rfl, ho⟩ := mem_layOut h
  cases after with
  | nil =>
    right
    have hlen := hw.length_code
    rw [hcode, List.flatMap_append, List.flatMap_cons, List.length_append, List.length_append,
      List.flatMap_nil, List.length_nil] at hlen
    omega
  | cons i after =>
    left
    refine ⟨⟨line.offset + line.instruction.bytes.length, i⟩, ?_, rfl⟩
    rw [layOut_append, layOut, layOut, ← ho]
    simp

/-- Execution starts at a line or, in an image without code, at the data. -/
theorem start_of_lines :
    (∃ first ∈ lines, first.offset = Image.headerSize) ∨ Image.headerSize = img.dataOffset := by
  obtain ⟨is, hes, hcode, rfl⟩ := linesOf_eq_ok_iff.mp hlines
  cases is with
  | nil =>
    right
    have hlen := hw.length_code
    rwa [hcode, List.flatMap_nil, List.length_nil, Nat.add_zero] at hlen
  | cons i is => exact .inl ⟨⟨Image.headerSize, i⟩, by simp [layOut], rfl⟩

end Lines

end StackCode.Listing
