import StackCode.Proofs.Source.Draft

/-!
# What the fixups of a source change

While a source is read, its draft collects fixups: words of the image that wait for the position of a
label. Here the invariant of this is brought out, for labels of code and data that are defined above or
below their use (`Draft.Patched`). Each site is a word of zeros between the header and the data, and no two
overlap. In the image of the source the position of the label stands there, the header says where the data
begins, and every other byte is the one that was written when its line was read.
-/

namespace StackCode.Source

open Result

/-- An image is what a draft becomes when its fixups are filled in. -/
structure Draft.Patched (d : Draft) (img : Image) : Prop where
  /-- No byte is added or removed. -/
  size : img.size = d.image.size
  /-- The data begins at the mark, or at the end. -/
  dataOffset : img.dataOffset = d.dataOffset.getD d.image.size
  /-- That is what the header says. -/
  header : img.bytes.take Image.headerSize = Word.natBytes img.dataOffset
  /-- A word that waits lies in the code. -/
  inside : ∀ f ∈ d.fixups.toList, img.WordInCode f.site
  /-- The words that wait do not overlap, and stand in the order in which they were written. -/
  apart : d.fixups.toList.Pairwise fun f g => f.site + Word.size ≤ g.site
  /-- There are zeros in the place of a word that waits. -/
  zeros : ∀ f ∈ d.fixups.toList, (d.image.toList.drop f.site).take Word.size = Word.bytes 0
  /-- A word that waits becomes the position of its label. -/
  label : ∀ f ∈ d.fixups.toList, ∃ p, d.position? f.label = some p ∧
    (img.bytes.drop f.site).take Word.size = Word.bytes (Int32.ofNat p)
  /-- Every other byte behind the header stays as it is. -/
  other : ∀ j, Image.headerSize ≤ j →
    (∀ f ∈ d.fixups.toList, ¬ (f.site ≤ j ∧ j < f.site + Word.size)) → img.bytes[j]? = d.image[j]?

/-! ### No word waits in the data -/

theorem le_of_markFrom {p q : Nat} {ss : List Statement} (h : markFrom p ss = some q) : p ≤ q := by
  induction ss generalizing p with
  | nil => cases h
  | cons s ss ih =>
    cases s with
    | dataMark => exact Nat.le_of_eq (Option.some.inj h)
    | _ => exact Nat.le_of_add_right_le (ih h)

/-- Below the mark there are bytes only. -/
theorem fixups_cellsOf_of_data {ss : List Statement} (h : codeOf ss = []) (lines : List Line) (k : Nat) :
    Cell.fixups k (cellsOf lines ss) = [] := by
  induction ss generalizing lines k with
  | nil =>
    rw [cellsOf, piecesOf, List.zip_nil_right]
    rfl
  | cons s ss ih =>
    cases lines with
    | nil => rfl
    | cons line lines =>
      rw [cellsOf_cons]
      cases s with
      | code op args => cases h
      | _ => exact ih h lines _

/-- **A word that waits stands above the mark.** -/
theorem Says.site_above_mark {texts : List (List Char)} {ss : List Statement} (h : Says false texts ss)
    {lines : List Line} (hlines : lines.map Line.text = texts) {k q : Nat} (hq : markFrom k ss = some q)
    {f : Fixup} (hf : f ∈ Cell.fixups k (cellsOf lines ss)) : f.site + Word.size ≤ q := by
  generalize hinData : false = inData at h
  induction h generalizing lines k with
  | nil => cases hq
  | @cons _ _ _ s ss first rest ih =>
    subst hinData
    obtain ⟨line, lines, rfl, -, hrest⟩ := List.map_eq_cons_iff.mp hlines
    rw [cellsOf_cons] at hf
    cases first with
    | silent | label => exact ih hrest hq hf rfl
    | mark =>
      have hnone : Cell.fixups k (cellsOf lines ss) = [] := fixups_cellsOf_of_data rest.codeOf_eq_nil lines k
      exact absurd (hnone ▸ hf) List.not_mem_nil
    | @code _ op args =>
      rw [Cell.fixups_append, length_blank_cellsOf] at hf
      rcases List.mem_append.mp hf with hf | hf
      · have hroom := (Cell.bounds_of_mem_fixups hf).2
        rw [length_blank_cellsOf] at hroom
        exact Nat.le_trans hroom (le_of_markFrom hq)
      · exact ih hrest hq hf rfl

/-! ### Filling in -/

theorem take_drop_of_eq {bytes : List UInt8} (before after : List UInt8) {w : Int32} {n : Nat}
    (h : bytes = before ++ Word.bytes w ++ after) (hn : n = before.length) :
    (bytes.drop n).take Word.size = Word.bytes w := by
  rw [h, hn, List.append_assoc, List.drop_left]
  rfl

/-- The draft of statements and the image that their cells make when they are filled in. -/
theorem Says.patched {lines : List Line} {ss : List Statement} (h : Says false (lines.map Line.text) ss)
    {body : List UInt8} (hbody : Cell.fillAll (positionOf ss) (cellsOf lines ss) = .ok body) {offset : Nat}
    (hoffset : (markFrom Image.headerSize ss).getD (Image.headerSize + body.length) = offset) :
    (Draft.extend {} lines ss).Patched ⟨Word.natBytes offset ++ body, offset⟩ := by
  have hheader : (Word.natBytes offset).length = Image.headerSize := rfl
  have hlength := Cell.length_fillAll hbody
  have hsize : (Draft.extend {} lines ss).image.size = Image.headerSize + body.length := by
    rw [← Array.length_toList, image_extend, List.length_append, List.length_replicate, hlength]
  have hmark : (Draft.extend {} lines ss).dataOffset = markFrom Image.headerSize ss := by
    rw [Draft.extend, Array.size_replicate, Option.none_or]
  constructor
  case size => rw [hsize, Image.size, List.length_append, hheader]
  case dataOffset => rw [hmark, hsize, hoffset]
  case header => rfl
  case inside =>
    intro f hf
    rw [fixups_extend] at hf
    obtain ⟨hbehind, hroom⟩ := Cell.bounds_of_mem_fixups hf
    refine ⟨hbehind, ?_⟩
    cases hq : markFrom Image.headerSize ss with
    | none =>
      rw [hq, Option.getD_none] at hoffset
      rwa [← hoffset, hlength]
    | some q =>
      rw [hq, Option.getD_some] at hoffset
      exact hoffset ▸ h.site_above_mark rfl hq hf
  case apart =>
    rw [fixups_extend]
    exact Cell.pairwise_fixups _ _
  case zeros =>
    intro f hf
    rw [fixups_extend] at hf
    obtain ⟨before, after, hcells, hsite⟩ := Cell.exists_of_mem_fixups hf
    refine take_drop_of_eq (List.replicate Image.headerSize 0 ++ before.flatMap Cell.blank)
      (after.flatMap Cell.blank) ?_ ?_
    · rw [image_extend, hcells, List.flatMap_append, List.flatMap_cons, List.append_assoc, List.append_assoc]
      rfl
    · rw [hsite, List.length_append, List.length_replicate]
  case label =>
    intro f hf
    rw [fixups_extend] at hf
    obtain ⟨p, before, after, hp, rfl, hsite⟩ := Cell.filled_at_site hbody hf
    refine ⟨p, by rw [position?_extend, hp], ?_⟩
    refine take_drop_of_eq (Word.natBytes offset ++ before) after ?_ ?_
    · rw [List.append_assoc, List.append_assoc, List.append_assoc]
    · rw [hsite, List.length_append, hheader]
  case other =>
    intro j hj hfree
    rw [fixups_extend] at hfree
    obtain ⟨i, rfl⟩ := Nat.exists_eq_add_of_le hj
    have hzeros : (List.replicate Image.headerSize (0 : UInt8)).length = Image.headerSize := List.length_replicate ..
    rw [← Array.getElem?_toList, image_extend, List.getElem?_append_right (hheader ▸ hj),
      List.getElem?_append_right (hzeros.symm ▸ hj), hheader, hzeros, Nat.add_sub_cancel_left]
    exact Cell.getElem?_fillAll hbody hfree

/-- **A source is assembled by filling in the fixups of its draft.** -/
theorem patched_of_assemble {source : String} {img : Image} (h : assemble source = .ok img) :
    ∃ d, Draft.ofSource source = .ok d ∧ d.Patched img := by
  obtain ⟨d, hd, hfinish⟩ := bind_eq_ok_iff.mp h
  obtain ⟨ss, hss, rfl, -⟩ := (Draft.foldlM_read_eq_ok_iff (d := {}) List.nodup_nil).mp hd
  rw [finish_extend_cells] at hfinish
  obtain ⟨body, hbody, himg⟩ := bind_eq_ok_iff.mp hfinish
  cases pure_eq_ok_iff.mp himg
  exact ⟨_, hd, hss.patched hbody rfl⟩

end StackCode.Source
