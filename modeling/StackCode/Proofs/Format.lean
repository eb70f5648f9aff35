import StackCode.Proofs.Builder.Targets
import StackCode.Proofs.Source.Targets

/-!
# The format of images

An image keeps the offset of its data twice: as a number beside the bytes, and in the first four of
the bytes. Nothing checks that the two agree when an image is linked or assembled. They do because the
header is made from the same number, and whatever else is overwritten is a word of code (`WordInCode`):
the references of each block when it is laid out behind the header, and the fixups of a source before the
header is filled in. So an image that is made in one of the three ways there are is `Formatted`: its bytes
are the header, the code and the data, and reading them gives the image again.
-/

namespace StackCode

namespace Image

/-- The bytes of an image say all there is to know about it. -/
structure Formatted (img : Image) : Prop extends WellFormed img where
  /-- The first four bytes make the offset of the data. -/
  header : ∃ a b c d rest, img.bytes = a :: b :: c :: d :: rest ∧ Word.ofBytes a b c d = img.dataOffset
  /-- There is nothing but the header, the code and the data. -/
  parts : img.bytes = Word.natBytes img.dataOffset ++ img.code ++ img.data
  /-- The bytes are taken for the same image again. -/
  loads : ofBytes img.bytes = .ok img

/-- An image is formatted exactly if its bytes are taken for it. -/
theorem formatted_iff {img : Image} : img.Formatted ↔ ofBytes img.bytes = .ok img := by
  constructor
  · intro h
    exact h.loads
  · intro h
    obtain ⟨-, hw, hlt, rest, hrest⟩ := ofBytes_eq_ok_iff.mp h
    exact ⟨hw, ⟨_, _, _, _, rest, hrest.symm, Word.ofBytes_natBytes hlt⟩, hw.bytes_eq_header ⟨rest, hrest⟩, h⟩

end Image

/-- A linked image is that of its bytes. -/
theorem Builder.ofBytes_of_link {ops : List Op} {img : Image}
    (h : (performAll {} ops).link = .ok img) : Image.ofBytes img.bytes = .ok img := by
  have hw := wellFormed_of_link h
  obtain ⟨hlt, -, rfl⟩ := (link_eq_ok_iff (performAll_blocks ops)).mp h
  refine Image.ofBytes_eq_ok_iff.mpr ⟨rfl, hw, Nat.lt_trans hlt (by decide), ?_⟩
  rw [List.append_assoc]
  exact List.prefix_append _ _

/-- A block lies in front of the data. -/
theorem Builder.base_add_size_le {b : Builder} {k : Nat} {block : Block} (hk : b.blocks[k]? = some block) :
    b.base ⟨k⟩ + block.size ≤ b.dataOffset := by
  obtain ⟨hlt, rfl⟩ := List.getElem?_eq_some_iff.mp hk
  have hsplit : b.blocks.flatMap Block.code = (b.blocks.take k).flatMap Block.code ++
      (b.blocks[k].code ++ (b.blocks.drop (k + 1)).flatMap Block.code) := by
    conv_lhs => rw [← List.take_append_drop k b.blocks, List.drop_eq_getElem_cons hlt]
    rw [List.flatMap_append, List.flatMap_cons]
  rw [dataOffset, codeSize, hsplit, List.length_append, List.length_append, base, Block.size, ← Nat.add_assoc,
    ← Nat.add_assoc]
  exact Nat.le_add_right ..

/-- What is overwritten when a program is linked is a word of code. -/
theorem Builder.wordInCode_of_link {ops : List Op} {img : Image} (h : (performAll {} ops).link = .ok img)
    {k : Nat} {block : Block} (hk : (performAll {} ops).blocks[k]? = some block) {slot : Nat}
    (hslot : slot ∈ block.slots) : img.WordInCode ((performAll {} ops).base ⟨k⟩ + slot) := by
  have hroom := (slotsApart_performAll ops block (List.mem_of_getElem? hk)).1 slot hslot
  have hblock := base_add_size_le hk
  rw [← (dataOffset_of_link h).1] at hblock
  exact ⟨Nat.le_add_right_of_le (Nat.le_add_right ..), by omega⟩

/-- An assembled image is that of its bytes, as long as a header can say where its data begins. -/
theorem Source.ofBytes_of_assemble {source : String} {img : Image} (h : assemble source = .ok img)
    (hsize : img.size < 4294967296) : Image.ofBytes img.bytes = .ok img := by
  have hw := wellFormed_of_assemble h
  obtain ⟨ss, is, -, -, -, rfl⟩ := assemble_eq_ok_iff.mp h
  refine Image.ofBytes_eq_ok_iff.mpr ⟨rfl, hw, Nat.lt_of_le_of_lt hw.le_size hsize, ?_⟩
  rw [imageOf, List.append_assoc]
  exact List.prefix_append _ _

/-- **Every image is formatted**: one that bytes are taken for, one that is linked from whatever was
built, and one of less than 2³² bytes that is assembled from whatever source. The references that linking
fills in and the fixups of a source are words of the code. -/
theorem Image.every_image_is_formatted :
    (∀ bytes img, Image.ofBytes bytes = .ok img → img.bytes = bytes ∧ img.Formatted) ∧
    (∀ ops img, (Builder.performAll {} ops).link = .ok img → img.Formatted ∧
      ∀ k block, (Builder.performAll {} ops).blocks[k]? = some block → ∀ slot ∈ block.slots,
        img.WordInCode ((Builder.performAll {} ops).base ⟨k⟩ + slot)) ∧
    ∀ source img, Source.assemble source = .ok img → img.size < 4294967296 → img.Formatted ∧
      ∃ d, Source.Draft.ofSource source = .ok d ∧ ∀ f ∈ d.fixups.toList, img.WordInCode f.site := by
  refine ⟨fun bytes img h => ?_, fun ops img h => ?_, fun source img h hsize => ?_⟩
  · obtain ⟨rfl, -⟩ := ofBytes_eq_ok_iff.mp h
    exact ⟨rfl, formatted_iff.mpr h⟩
  · exact ⟨formatted_iff.mpr (Builder.ofBytes_of_link h), fun k block hk slot => Builder.wordInCode_of_link h hk⟩
  · obtain ⟨d, hd, hpatched⟩ := Source.patched_of_assemble h
    exact ⟨formatted_iff.mpr (Source.ofBytes_of_assemble h hsize), d, hd, hpatched.inside⟩

/-- Bytes with an empty code, a builder with a forward reference and data, and a source with labels
and a second mark `.data` behind the first. -/
theorem Image.every_image_is_formatted_marks :
    let bytes : List UInt8 := [4, 0, 0, 0, 255]
    let ops : List Builder.Op :=
      [.createBlock, .newLabel, .writeData [7], .emit ⟨0⟩ .jmp [.label ⟨1⟩], .placeLabel ⟨0⟩ ⟨1⟩,
        .emit ⟨0⟩ .pushData [.data ⟨0⟩, .int 0, .int 0]]
    let linked : Image := ⟨[22, 0, 0, 0, 20, 9, 0, 0, 0, 2, 22, 0, 0, 0, 0, 0, 0, 0, 0, 0, 0, 0, 7], 22⟩
    let source := "JMP end\n.data\n:name\nab\n.data\n0x0 0xff\n:end"
    let assembled : Image := ⟨[9, 0, 0, 0, 20, 14, 0, 0, 0, 97, 98, 0, 0, 255], 9⟩
    Image.ofBytes bytes = .ok ⟨bytes, 4⟩ ∧ (Image.mk bytes 4).Formatted ∧
      (Builder.performAll {} ops).link = .ok linked ∧ linked.Formatted ∧
      Source.assemble source = .ok assembled ∧ assembled.size < 4294967296 ∧ assembled.Formatted := by
  intro bytes ops linked source assembled
  have hbytes : Image.ofBytes bytes = .ok ⟨bytes, 4⟩ := by decide
  have hlink : (Builder.performAll {} ops).link = .ok linked := by decide
  have hassemble : Source.assemble source = .ok assembled := by decide +kernel
  have hsize : assembled.size < 4294967296 := by decide
  exact ⟨hbytes, (every_image_is_formatted.1 _ _ hbytes).2, hlink,
    (every_image_is_formatted.2.1 _ _ hlink).1, hassemble, hsize,
    (every_image_is_formatted.2.2 _ _ hassemble hsize).1⟩

end StackCode
