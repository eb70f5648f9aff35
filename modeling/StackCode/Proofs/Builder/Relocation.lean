import StackCode.Proofs.Builder.Contents
import StackCode.Proofs.Codec
import StackCode.Proofs.Image

/-!
# Linking as relocation

Linking appends one block after the other to an image that begins with the header, and patches the
image at the places that were recorded while the block was filled. Here this is proved to be the same as
filling in the references of each block for itself (`relocate`, `link_eq`), and that to be the same as
writing out what was emitted, part by part, with every address filled in (`relocate_ofParts`,
`link_eq_ok_iff`). The places to be patched lie in their block and never overlap, so no patch touches
the header, another block or anything else but its own four bytes.
-/

namespace StackCode

open Result

theorem address_eq_ok_iff {n : Nat} {w : Int32} :
    address n = .ok w ↔ n < 2147483648 ∧ w = Int32.ofNat n := by
  unfold address
  split
  · next h => simp [h, eq_comm]
  · next h => simp [h]

namespace Builder

/-! ### Addresses -/

/-- The address of a label, which is `0` if it stands nowhere. -/
def position (b : Builder) (l : Label) : Nat :=
  match b.place? l with
  | some p => b.base p.block + p.offset
  | none => 0

/-- The address that a part refers to exists and fits into a word. -/
def Part.Resolved (b : Builder) : Part → Prop
  | .bytes _ => True
  | .label l => ∃ p, b.place? l = some p ∧ b.base p.block + p.offset < 2147483648
  | .data d => b.dataOffset + d.offset < 2147483648

/-- The bytes of a part with its address filled in. -/
def Part.linked (b : Builder) : Part → List UInt8
  | .bytes bs => bs
  | .label l => Word.bytes (Int32.ofNat (b.position l))
  | .data d => Word.bytes (Int32.ofNat (b.dataOffset + d.offset))

@[simp] theorem Part.length_linked (b : Builder) (p : Part) : (p.linked b).length = p.size := by
  cases p <;> rfl

@[simp] theorem length_flatMap_linked (b : Builder) (ps : List Part) :
    (ps.flatMap (Part.linked b)).length = extent ps := by
  induction ps with
  | nil => rfl
  | cons p ps ih => simp [extent, ih]

theorem labelAddress_eq_ok_iff {b : Builder} {block : Block} {slot : Nat} {l : Label} {w : Int32} :
    b.labelAddress block slot l = .ok w ↔
      (Part.label l).Resolved b ∧ w = Int32.ofNat (b.position l) := by
  cases hp : b.place? l with
  | none => simp [labelAddress, Part.Resolved, hp]
  | some p => simp only [labelAddress, Part.Resolved, position, hp, address_eq_ok_iff, Option.some.injEq,
      exists_eq_left']

theorem dataAddress_eq_ok_iff {b : Builder} {d : DataRef} {w : Int32} :
    b.dataAddress d = .ok w ↔
      (Part.data d).Resolved b ∧ w = Int32.ofNat (b.dataOffset + d.offset) :=
  address_eq_ok_iff

/-! ### Patching -/

/-- A round of patches: the address of each selected part is looked for, and if it is found, the
bytes of the part become the word of that address. All other parts keep their bytes. -/
structure Round {α : Type} (select : Part → Option α) (find : Nat → α → Except LinkError Int32)
    (Found : α → Prop) (value : α → Int32) (old new : Part → List UInt8) : Prop where
  find_iff : ∀ slot a w, find slot a = .ok w ↔ Found a ∧ w = value a
  length_old : ∀ p, (old p).length = p.size
  selected : ∀ p a, select p = some a → p.size = Word.size ∧ new p = Word.bytes (value a)
  other : ∀ p, select p = none → new p = old p

namespace Round

variable {α : Type} {select : Part → Option α} {find : Nat → α → Except LinkError Int32}
  {Found : α → Prop} {value : α → Int32} {old new : Part → List UInt8}

theorem length_new (h : Round select find Found value old new) (p : Part) :
    (new p).length = p.size := by
  cases hp : select p with
  | none => rw [h.other p hp, h.length_old]
  | some a => rw [(h.selected p a hp).2, Word.length_bytes, (h.selected p a hp).1]

/-- The patches of a round behind bytes that are done. Each is made in the first part that is not
done yet, so it cannot touch another. -/
theorem patch_behind (h : Round select find Found value old new) (ps : List Part)
    (done code : List UInt8) :
    (sites select done.length ps).foldlM
        (fun code (slot, a) => return Word.patch code slot (← find slot a))
        (done ++ ps.flatMap old) = .ok code ↔
      (∀ p ∈ ps, ∀ a, select p = some a → Found a) ∧ code = done ++ ps.flatMap new := by
  induction ps generalizing done with
  | nil =>
    simp only [sites, List.foldlM_nil, pure_eq_ok_iff, List.flatMap_nil]
    simp [eq_comm]
  | cons p ps ih =>
    have hrest := ih (done ++ new p)
    rw [List.length_append, h.length_new, List.append_assoc, List.append_assoc] at hrest
    rw [sites, List.flatMap_cons, List.flatMap_cons, List.forall_mem_cons, and_assoc, ← hrest]
    cases hp : select p with
    | none => simp [h.other p hp]
    | some a =>
      obtain ⟨hsize, hnew⟩ := h.selected p a hp
      have hpatch :=
        Word.patch_append done (ps.flatMap old) ((h.length_old p).trans hsize) (value a)
      simp only [Option.map_some, Option.toList_some, List.singleton_append, List.foldlM_cons,
        bind_eq_ok_iff, pure_eq_ok_iff, h.find_iff, Option.some.injEq, forall_eq']
      constructor
      · rintro ⟨_, ⟨w, ⟨hfound, rfl⟩, rfl⟩, hcode⟩
        rw [hpatch, ← hnew] at hcode
        exact ⟨hfound, hcode⟩
      · rintro ⟨hfound, hcode⟩
        refine ⟨_, ⟨_, ⟨hfound, rfl⟩, rfl⟩, ?_⟩
        rw [hpatch, ← hnew]
        exact hcode

theorem patch (h : Round select find Found value old new) (ps : List Part) (code : List UInt8) :
    (sites select 0 ps).foldlM (fun code (slot, a) => return Word.patch code slot (← find slot a))
        (ps.flatMap old) = .ok code ↔
      (∀ p ∈ ps, ∀ a, select p = some a → Found a) ∧ code = ps.flatMap new :=
  h.patch_behind ps [] code

end Round

/-- The bytes of a part when labels have their addresses and data has not. -/
def Part.labelled (b : Builder) : Part → List UInt8
  | .label l => Part.linked b (.label l)
  | p => p.blank

theorem round_labels (b : Builder) (block : Block) :
    Round Part.label? (b.labelAddress block) (fun l => (Part.label l).Resolved b)
      (fun l => Int32.ofNat (b.position l)) Part.blank (Part.labelled b) where
  find_iff _ _ _ := labelAddress_eq_ok_iff
  length_old := Part.length_blank
  selected p l hp := by
    cases p <;> cases hp
    exact ⟨rfl, rfl⟩
  other p hp := by cases p <;> first | rfl | cases hp

theorem round_data (b : Builder) :
    Round Part.data? (fun _ d => b.dataAddress d) (fun d => (Part.data d).Resolved b)
      (fun d => Int32.ofNat (b.dataOffset + d.offset)) (Part.labelled b) (Part.linked b) where
  find_iff _ _ _ := dataAddress_eq_ok_iff
  length_old p := by cases p <;> rfl
  selected p d hp := by
    cases p <;> cases hp
    exact ⟨rfl, rfl⟩
  other p hp := by cases p <;> first | rfl | cases hp

theorem resolved_iff {b : Builder} {p : Part} :
    p.Resolved b ↔
      (∀ l, p.label? = some l → (Part.label l).Resolved b) ∧
        ∀ d, p.data? = some d → (Part.data d).Resolved b := by
  cases p <;> simp [Part.Resolved]

/-- The code of a block with its references filled in, those to labels first. -/
def relocate (b : Builder) (block : Block) : Except LinkError (List UInt8) := do
  let code ← block.labelRefs.foldlM
    (fun code (slot, l) => return Word.patch code slot (← b.labelAddress block slot l)) block.code
  block.dataRefs.foldlM
    (fun code (slot, d) => return Word.patch code slot (← b.dataAddress d)) code

/-- A block made of parts is relocated exactly if every address that it refers to can be found,
and then every part has its address. -/
theorem relocate_ofParts {b : Builder} {start : Label} {ps : List Part} {code : List UInt8} :
    b.relocate (.ofParts start ps) = .ok code ↔
      (∀ p ∈ ps, p.Resolved b) ∧ code = ps.flatMap (Part.linked b) := by
  have hlabels := (round_labels b (.ofParts start ps)).patch ps
  have hdata := (round_data b).patch ps
  rw [relocate, bind_eq_ok_iff]
  constructor
  · rintro ⟨code₁, hcode₁, hcode⟩
    obtain ⟨hl, rfl⟩ := (hlabels code₁).mp hcode₁
    obtain ⟨hd, rfl⟩ := (hdata code).mp hcode
    exact ⟨fun p hp => resolved_iff.mpr ⟨hl p hp, hd p hp⟩, rfl⟩
  · rintro ⟨hresolved, rfl⟩
    refine ⟨_, (hlabels _).mpr ⟨fun p hp => ?_, rfl⟩, (hdata _).mpr ⟨fun p hp => ?_, rfl⟩⟩
    · exact (resolved_iff.mp (hresolved p hp)).1
    · exact (resolved_iff.mp (hresolved p hp)).2

/-! ### Blocks in an image -/

/-- Patches behind other bytes. -/
theorem foldlM_patch_behind {α : Type} (find : Nat → α → Except LinkError Int32) (refs : List (Nat × α))
    (front code : List UInt8) :
    refs.foldlM (fun image (slot, a) => return Word.patch image (front.length + slot) (← find slot a))
        (front ++ code) =
      (refs.foldlM (fun code (slot, a) => return Word.patch code slot (← find slot a)) code).map
        (front ++ ·) := by
  induction refs generalizing code with
  | nil => rfl
  | cons ref refs ih =>
    obtain ⟨slot, a⟩ := ref
    rw [List.foldlM_cons, List.foldlM_cons]
    dsimp only
    cases hfind : find slot a with
    | error e => rfl
    | ok w =>
      have hrest := ih (Word.patch code slot w)
      rw [← Word.patch_behind] at hrest
      exact hrest

/-- A block that is laid out where an image ends leaves the image as it is. -/
theorem layOut_eq (b : Builder) (image : List UInt8) (block : Block) :
    b.layOut image block image.length = (b.relocate block).map (image ++ ·) := by
  rw [layOut, foldlM_patch_behind (b.labelAddress block), relocate]
  cases block.labelRefs.foldlM
      (fun code (slot, l) => return Word.patch code slot (← b.labelAddress block slot l)) block.code with
  | error e => rfl
  | ok code => exact foldlM_patch_behind (fun _ d => b.dataAddress d) block.dataRefs image code

/-- A block begins where those before it end. -/
theorem base_eq {b : Builder} {before rest : List Block} (h : b.blocks = before ++ rest) :
    b.base ⟨before.length⟩ = Image.headerSize + (before.flatMap Block.code).length := by
  rw [base, h, List.take_left]

/-- Blocks that are laid out one after the other are relocated one by one, and no block reaches into
another: a block that is made of parts has as many bytes as before when its references are filled in. -/
theorem foldlM_layOut_eq {b : Builder} {before found : List Block} {blocks : List (List Emission)}
    (hfound : List.Forall₂ Block.Contains found blocks) (h : b.blocks = before ++ found)
    (image : List UInt8) (hlength : image.length = b.base ⟨before.length⟩) :
    (found.zipIdx before.length).foldlM (fun image (block, k) => b.layOut image block (b.base ⟨k⟩)) image =
      (found.mapM b.relocate).map fun codes => image ++ codes.flatten := by
  induction hfound generalizing before image with
  | nil =>
    show Except.ok image = Except.ok (image ++ [].flatten)
    rw [List.flatten_nil, List.append_nil]
  | @cons block es found blocks hblock _ ih =>
    obtain ⟨start, rfl⟩ := hblock
    generalize hps : es.flatMap Emission.parts = ps at *
    rw [List.zipIdx_cons, List.foldlM_cons, List.mapM_cons]
    dsimp only
    rw [← hlength, layOut_eq]
    cases hcode : b.relocate (.ofParts start ps) with
    | error e => rfl
    | ok code =>
      obtain ⟨-, rfl⟩ := relocate_ofParts.mp hcode
      have hsplit : b.blocks = before ++ [.ofParts start ps] ++ found := by
        rw [h, List.append_assoc, List.singleton_append]
      have hnext : (image ++ ps.flatMap (Part.linked b)).length =
          b.base ⟨(before ++ [Block.ofParts start ps]).length⟩ := by
        rw [base_eq hsplit, List.flatMap_append, List.length_append, List.length_append, ← Nat.add_assoc,
          ← base_eq h, hlength, length_flatMap_linked, List.flatMap_singleton]
        exact congrArg (_ + ·) (length_flatMap_blank ps).symm
      have hrest := ih hsplit _ hnext
      rw [List.length_append, List.length_singleton] at hrest
      refine hrest.trans ?_
      cases found.mapM b.relocate with
      | error e => rfl
      | ok codes =>
        show Except.ok _ = Except.ok _
        simp only [List.flatten_cons, List.append_assoc]

/-- **Linking relocates each block for itself.** -/
theorem link_eq {b : Builder} {blocks : List (List Emission)}
    (hb : List.Forall₂ Block.Contains b.blocks blocks) :
    b.link = do
      let header ← address b.dataOffset
      let codes ← b.blocks.mapM b.relocate
      return ⟨Word.bytes header ++ codes.flatten ++ b.data, b.dataOffset⟩ := by
  rw [link]
  refine congrArg (address b.dataOffset >>= ·) (funext fun header => ?_)
  have hblocks := @foldlM_layOut_eq b [] b.blocks blocks hb rfl (Word.bytes header) rfl
  rw [List.length_nil] at hblocks
  rw [hblocks]
  cases b.blocks.mapM b.relocate <;> rfl

/-! ### The image -/

/-- The parts of emissions in blocks, one block after the other. -/
def partsOf (blocks : List (List Emission)) : List Part := blocks.flatten.flatMap Emission.parts

theorem partsOf_cons (es : List Emission) (blocks : List (List Emission)) :
    partsOf (es :: blocks) = es.flatMap Emission.parts ++ partsOf blocks := by
  rw [partsOf, List.flatten_cons, List.flatMap_append, partsOf]

theorem partsOf_append (blocks more : List (List Emission)) :
    partsOf (blocks ++ more) = partsOf blocks ++ partsOf more := by
  rw [partsOf, List.flatten_append, List.flatMap_append, partsOf, partsOf]

theorem flatten_map_linked (b : Builder) (blocks : List (List Emission)) :
    (blocks.map fun es => (es.flatMap Emission.parts).flatMap (Part.linked b)).flatten =
      (partsOf blocks).flatMap (Part.linked b) := by
  induction blocks with
  | nil => rfl
  | cons es blocks ih => rw [List.map_cons, List.flatten_cons, ih, partsOf_cons, List.flatMap_append]

/-- All blocks are relocated exactly if every address that they refer to can be found. -/
theorem mapM_relocate_eq_ok_iff {b : Builder} {found : List Block} {blocks : List (List Emission)}
    (h : List.Forall₂ Block.Contains found blocks) {codes : List (List UInt8)} :
    found.mapM b.relocate = .ok codes ↔
      (∀ p ∈ partsOf blocks, p.Resolved b) ∧
        codes = blocks.map fun es => (es.flatMap Emission.parts).flatMap (Part.linked b) := by
  induction h generalizing codes with
  | nil =>
    rw [List.mapM_nil, pure_eq_ok_iff]
    simp [partsOf, eq_comm]
  | cons hblock _ ih =>
    obtain ⟨start, rfl⟩ := hblock
    rw [List.mapM_cons, bind_eq_ok_iff, partsOf_cons, List.forall_mem_append, List.map_cons]
    constructor
    · rintro ⟨code, hcode, hmore⟩
      obtain ⟨codes', hcodes', heq⟩ := bind_eq_ok_iff.mp hmore
      obtain ⟨hfirst, rfl⟩ := relocate_ofParts.mp hcode
      obtain ⟨hrest, rfl⟩ := ih.mp hcodes'
      exact ⟨⟨hfirst, hrest⟩, (pure_eq_ok_iff.mp heq).symm⟩
    · rintro ⟨⟨hfirst, hrest⟩, rfl⟩
      refine ⟨_, relocate_ofParts.mpr ⟨hfirst, rfl⟩, bind_eq_ok_iff.mpr ⟨_, ?_, rfl⟩⟩
      exact ih.mpr ⟨hrest, rfl⟩

/-- **What linking makes of a builder**: it succeeds exactly if every address fits into a word
and every label that is referred to stands somewhere, and then the image is the header, what
was emitted, block by block and with its addresses, and the pool. -/
theorem link_eq_ok_iff {b : Builder} {blocks : List (List Emission)}
    (hb : List.Forall₂ Block.Contains b.blocks blocks) {img : Image} :
    b.link = .ok img ↔
      b.dataOffset < 2147483648 ∧ (∀ p ∈ partsOf blocks, p.Resolved b) ∧
        img = ⟨Word.natBytes b.dataOffset ++ (partsOf blocks).flatMap (Part.linked b) ++ b.data,
          b.dataOffset⟩ := by
  rw [link_eq hb, bind_eq_ok_iff, ← flatten_map_linked]
  constructor
  · rintro ⟨header, hheader, h⟩
    obtain ⟨codes, hcodes, himg⟩ := bind_eq_ok_iff.mp h
    obtain ⟨hlt, rfl⟩ := address_eq_ok_iff.mp hheader
    obtain ⟨hresolved, rfl⟩ := (mapM_relocate_eq_ok_iff hb).mp hcodes
    rw [pure_eq_ok_iff, Word.bytes_ofNat] at himg
    exact ⟨hlt, hresolved, himg.symm⟩
  · rintro ⟨hlt, hresolved, rfl⟩
    refine ⟨_, address_eq_ok_iff.mpr ⟨hlt, rfl⟩, bind_eq_ok_iff.mpr ?_⟩
    refine ⟨_, (mapM_relocate_eq_ok_iff hb).mpr ⟨hresolved, rfl⟩, ?_⟩
    rw [pure_eq_ok_iff, Word.bytes_ofNat]

/-- The data of a linked image begins where that of the builder does, which a word can say. -/
theorem dataOffset_of_link {b : Builder} {img : Image} (h : b.link = .ok img) :
    img.dataOffset = b.dataOffset ∧ img.dataOffset < 2147483648 := by
  obtain ⟨header, hheader, hcode⟩ := bind_eq_ok_iff.mp h
  obtain ⟨image, -, himg⟩ := bind_eq_ok_iff.mp hcode
  rw [← pure_eq_ok_iff.mp himg]
  exact ⟨rfl, (address_eq_ok_iff.mp hheader).1⟩

theorem length_flatMap_code {found : List Block} {blocks : List (List Emission)}
    (h : List.Forall₂ Block.Contains found blocks) :
    (found.flatMap Block.code).length = extent (partsOf blocks) := by
  induction h with
  | nil => rfl
  | cons hblock _ ih =>
    obtain ⟨start, rfl⟩ := hblock
    rw [List.flatMap_cons, List.length_append, ih, partsOf_cons, extent_append]
    exact congrArg (· + _) (length_flatMap_blank _)

theorem dataOffset_eq {b : Builder} {blocks : List (List Emission)}
    (hb : List.Forall₂ Block.Contains b.blocks blocks) :
    b.dataOffset = Image.headerSize + extent (partsOf blocks) := by
  rw [dataOffset, codeSize, length_flatMap_code hb]

/-- Lists one after the other, cut at one of them. -/
theorem flatten_eq_take_append {α : Type} (blocks : List (List α)) (k : Nat) :
    blocks.flatten =
      (blocks.take k).flatten ++ (blocks[k]?.getD [] ++ (blocks.drop (k + 1)).flatten) := by
  induction blocks generalizing k with
  | nil => simp
  | cons es blocks ih =>
    cases k with
    | zero => simp
    | succ k =>
      rw [List.flatten_cons, ih k, List.take_succ_cons, List.flatten_cons, List.append_assoc]
      rfl

/-- A label cuts everything that was emitted, and its address counts what is before the cut. -/
theorem Stands.cut {ops : List Op} {l : Label} {p : Place} (h : Stands ops l p) :
    ∃ front back, (contents ops).flatten = front ++ back ∧
      (performAll {} ops).base p.block + p.offset =
        Image.headerSize + extent (front.flatMap Emission.parts) := by
  obtain ⟨before, after, hblock, hoffset⟩ := h.boundary
  refine ⟨((contents ops).take p.block.number).flatten ++ before,
    after ++ ((contents ops).drop (p.block.number + 1)).flatten, ?_, ?_⟩
  · rw [flatten_eq_take_append (contents ops) p.block.number, hblock]
    simp only [List.append_assoc]
  · rw [base, length_flatMap_code (List.forall₂_take _ (performAll_blocks ops)), hoffset,
      List.flatMap_append, extent_append, partsOf, Nat.add_assoc]

/-- The code and the data of a linked image. -/
theorem segments_of_link {b : Builder} {blocks : List (List Emission)}
    (hb : List.Forall₂ Block.Contains b.blocks blocks) {img : Image} (h : b.link = .ok img) :
    img.code = (partsOf blocks).flatMap (Part.linked b) ∧ img.data = b.data := by
  obtain ⟨-, -, rfl⟩ := (link_eq_ok_iff hb).mp h
  have hoffset : b.dataOffset =
      Image.headerSize + ((partsOf blocks).flatMap (Part.linked b)).length := by
    rw [length_flatMap_linked, dataOffset_eq hb]
  have hheader : (Word.natBytes b.dataOffset).length = Image.headerSize := rfl
  generalize Word.natBytes b.dataOffset = header at hheader
  rw [hoffset]
  exact ⟨Image.code_of_parts hheader, Image.data_of_parts hheader⟩

/-- What was emitted into a block stands in the image from the base of the block on, and in front of
the data. -/
theorem bytes_of_contents {b : Builder} {blocks : List (List Emission)}
    (hb : List.Forall₂ Block.Contains b.blocks blocks) {img : Image} (h : b.link = .ok img)
    {id : BlockId} {es : List Emission} (hes : blocks[id.number]? = some es) :
    ∃ before after, img.bytes = before ++ (es.flatMap Emission.parts).flatMap (Part.linked b) ++ after ∧
      before.length = b.base id ∧ b.base id + extent (es.flatMap Emission.parts) ≤ b.dataOffset := by
  obtain ⟨k⟩ := id
  obtain ⟨-, -, rfl⟩ := (link_eq_ok_iff hb).mp h
  have hlength := length_flatMap_code (List.forall₂_take k hb)
  obtain ⟨rest, hsplit⟩ : ∃ rest, blocks = blocks.take k ++ es :: rest := by
    obtain ⟨hlt, rfl⟩ := List.getElem?_eq_some_iff.mp hes
    exact ⟨blocks.drop (k + 1), by rw [← List.drop_eq_getElem_cons hlt, List.take_append_drop]⟩
  have hparts : partsOf blocks =
      partsOf (blocks.take k) ++ (es.flatMap Emission.parts ++ partsOf rest) := by
    conv_lhs => rw [hsplit]
    rw [partsOf_append, partsOf_cons]
  refine ⟨Word.natBytes b.dataOffset ++ (partsOf (blocks.take k)).flatMap (Part.linked b),
    (partsOf rest).flatMap (Part.linked b) ++ b.data, ?_, ?_, ?_⟩
  · simp only [hparts, List.flatMap_append, List.append_assoc]
  · rw [List.length_append, length_flatMap_linked, base, hlength]
    rfl
  · rw [dataOffset_eq hb, base, hlength, hparts, extent_append, extent_append]
    omega

/-- The code of a block begins at its base. -/
theorem bytes_at_base {b : Builder} {blocks : List (List Emission)}
    (hb : List.Forall₂ Block.Contains b.blocks blocks) {img : Image} (h : b.link = .ok img)
    {k : Nat} {block : Block} (hk : b.blocks[k]? = some block) :
    ∃ start ps before after, block = .ofParts start ps ∧ (∀ p ∈ ps, p.Resolved b) ∧
      img.bytes = before ++ ps.flatMap (Part.linked b) ++ after ∧ before.length = b.base ⟨k⟩ := by
  obtain ⟨-, hresolved, -⟩ := (link_eq_ok_iff hb).mp h
  obtain ⟨es, hes, start, rfl⟩ := exists_getElem?_of_forall₂ hb hk
  have hblock : blocks[(BlockId.mk k).number]? = some es := hes
  obtain ⟨before, after, hbytes, hbase, -⟩ := bytes_of_contents hb h hblock
  refine ⟨start, _, before, after, rfl, fun p hp => hresolved p ?_, hbytes, hbase⟩
  obtain ⟨e, he, hp⟩ := List.mem_flatMap.mp hp
  exact List.mem_flatMap.mpr ⟨e, List.mem_flatten.mpr ⟨es, List.mem_of_getElem? hes, he⟩, hp⟩

/-- What stands at a site of a block stands in the image behind the base of the block. -/
theorem bytes_at_site {b : Builder} {bytes before after : List UInt8} {ps : List Part} {base : Nat}
    (hbytes : bytes = before ++ ps.flatMap (Part.linked b) ++ after) (hbase : before.length = base)
    {α : Type} {select : Part → Option α} {slot : Nat} {a : α} (h : (slot, a) ∈ sites select 0 ps) :
    ∃ p ∈ ps, select p = some a ∧ ∃ before after,
      bytes = before ++ p.linked b ++ after ∧ before.length = base + slot := by
  obtain ⟨earlier, p, later, rfl, hp, rfl⟩ := mem_sites h
  refine ⟨p, by simp, hp, before ++ earlier.flatMap (Part.linked b),
    later.flatMap (Part.linked b) ++ after, ?_, ?_⟩
  · rw [hbytes]
    simp only [List.flatMap_append, List.flatMap_cons, List.append_assoc]
  · rw [List.length_append, length_flatMap_linked, hbase, Nat.zero_add]

/-! ### The places that are patched -/

namespace Block

/-- The offsets of the references in a block. -/
def slots (b : Block) : List Nat := b.labelRefs.map Prod.fst ++ b.dataRefs.map Prod.fst

end Block

/-- Two words do not overlap. -/
def Apart (s t : Nat) : Prop := s + Word.size ≤ t ∨ t + Word.size ≤ s

/-- The offsets of the references among parts, the first of which stands at an offset. -/
def slotsFrom (k : Nat) (ps : List Part) : List Nat :=
  (sites Part.label? k ps).map Prod.fst ++ (sites Part.data? k ps).map Prod.fst

theorem slotsFrom_data (k : Nat) (d : DataRef) (ps : List Part) :
    (slotsFrom k (.data d :: ps)).Perm (k :: slotsFrom (k + Word.size) ps) := List.perm_middle

/-- References stand inside the code. -/
theorem bounds_of_mem_slotsFrom {k s : Nat} {ps : List Part} (h : s ∈ slotsFrom k ps) :
    k ≤ s ∧ s + Word.size ≤ k + extent ps := by
  induction ps generalizing k with
  | nil => cases h
  | cons p ps ih =>
    have hrest : s ∈ slotsFrom (k + p.size) ps → k ≤ s ∧ s + Word.size ≤ k + extent (p :: ps) := by
      intro hs
      have := ih hs
      simp only [extent]
      omega
    have hfirst : p.size = Word.size → s = k ∨ s ∈ slotsFrom (k + p.size) ps →
        k ≤ s ∧ s + Word.size ≤ k + extent (p :: ps) := by
      rintro hsize (rfl | hs)
      · simp only [extent]
        omega
      · exact hrest hs
    cases p with
    | bytes bs => exact hrest h
    | label l => exact hfirst rfl (List.mem_cons.mp h)
    | data d => exact hfirst rfl (List.mem_cons.mp ((slotsFrom_data k d ps).mem_iff.mp h))

/-- There is room for a word at each reference of a block. -/
theorem Block.room_ofParts {start : Label} {ps : List Part} {s : Nat}
    (h : s ∈ (ofParts start ps).slots) : s + Word.size ≤ (ofParts start ps).size := by
  have hroom := (bounds_of_mem_slotsFrom h).2
  rwa [Nat.zero_add, ← size_ofParts start] at hroom

/-- References do not overlap. -/
theorem pairwise_slotsFrom (k : Nat) (ps : List Part) : (slotsFrom k ps).Pairwise Apart := by
  induction ps generalizing k with
  | nil => exact .nil
  | cons p ps ih =>
    have hfirst : (k :: slotsFrom (k + Word.size) ps).Pairwise Apart :=
      List.pairwise_cons.mpr ⟨fun s hs => .inl (bounds_of_mem_slotsFrom hs).1, ih _⟩
    cases p with
    | bytes bs => exact ih _
    | label l => exact hfirst
    | data d => exact ((slotsFrom_data k d ps).pairwise_iff fun h => h.symm).mpr hfirst

/-- A byte that belongs to no reference is the byte that was emitted. -/
theorem getElem?_linked {b : Builder} {ps : List Part} {k j : Nat}
    (h : ∀ s ∈ slotsFrom k ps, ¬ (s ≤ k + j ∧ k + j < s + Word.size)) :
    (ps.flatMap (Part.linked b))[j]? = (ps.flatMap Part.blank)[j]? := by
  induction ps generalizing k j with
  | nil => rfl
  | cons p ps ih =>
    rw [List.flatMap_cons, List.flatMap_cons, List.getElem?_append, List.getElem?_append,
      Part.length_linked, Part.length_blank]
    split
    · next hj =>
      have hfirst : p.size = Word.size → k ∉ slotsFrom k (p :: ps) := by
        intro hsize hk
        exact h k hk (by omega)
      cases p with
      | bytes bs => rfl
      | label l => exact absurd (List.mem_cons_self ..) (hfirst rfl)
      | data d =>
        exact absurd ((slotsFrom_data k d ps).mem_iff.mpr (List.mem_cons_self ..)) (hfirst rfl)
    · next hj =>
      have hmem : ∀ s ∈ slotsFrom (k + p.size) ps, s ∈ slotsFrom k (p :: ps) := by
        intro s hs
        cases p with
        | bytes bs => exact hs
        | label l => exact List.mem_cons_of_mem _ hs
        | data d => exact (slotsFrom_data k d ps).mem_iff.mpr (List.mem_cons_of_mem _ hs)
      refine ih (k := k + p.size) fun s hs hin => h s (hmem s hs) (by omega)

/-! ### Programs -/

/-- A program in which references are words that do not overlap and lie inside their block. -/
def SlotsApart (b : Builder) : Prop :=
  ∀ block ∈ b.blocks,
    (∀ s ∈ block.slots, s + Word.size ≤ block.size) ∧ block.slots.Pairwise Apart

/-- An image is the relocation of what operations have emitted. -/
structure Relocated (ops : List Op) (b : Builder) (img : Image) : Prop where
  /-- The data begins behind the header and all code. -/
  dataOffset : img.dataOffset = Image.headerSize + b.codeSize
  /-- The image is the header, what was emitted with its addresses, and the pool. -/
  bytes : img.bytes = Word.natBytes img.dataOffset ++
    (partsOf (contents ops)).flatMap (Part.linked b) ++ pool ops
  /-- A reference to a label holds the address of the place where the label stands at last. -/
  label : ∀ k block, b.blocks[k]? = some block → ∀ slot l, (slot, l) ∈ block.labelRefs →
    ∃ p, Stands ops l p ∧ b.base p.block + p.offset < 2147483648 ∧
      img.wordAt (b.base ⟨k⟩ + slot) = .ok (Int32.ofNat (b.base p.block + p.offset))
  /-- A reference to data holds the address of the item. -/
  data : ∀ k block, b.blocks[k]? = some block → ∀ slot d, (slot, d) ∈ block.dataRefs →
    img.dataOffset + d.offset < 2147483648 ∧
      img.wordAt (b.base ⟨k⟩ + slot) = .ok (Int32.ofNat (img.dataOffset + d.offset))
  /-- Every other byte is the one that was emitted. -/
  other : ∀ k block, b.blocks[k]? = some block → ∀ j < block.size,
    (∀ s ∈ block.slots, ¬ (s ≤ j ∧ j < s + Word.size)) →
      img.bytes[b.base ⟨k⟩ + j]? = block.code[j]?
  /-- An item of data is found at its address. -/
  item : ∀ before op after d, ops = before ++ op :: after →
    ((performAll {} before).perform op).1 = .data d →
      (img.bytes.drop (img.dataOffset + d.offset)).take op.pooled.length = op.pooled

theorem slotsApart_performAll (ops : List Op) : (performAll {} ops).SlotsApart := by
  intro block hblock
  obtain ⟨k, hk⟩ := List.mem_iff_getElem?.mp hblock
  obtain ⟨es, -, start, rfl⟩ := exists_getElem?_of_forall₂ (performAll_blocks ops) hk
  exact ⟨fun s => Block.room_ofParts, pairwise_slotsFrom 0 _⟩

/-- The word that stands behind other bytes of an image. -/
theorem wordAt_of_bytes {img : Image} {before after : List UInt8} {w : Int32} {offset : Nat}
    (h : img.bytes = before ++ Word.bytes w ++ after) (ho : before.length = offset) :
    img.wordAt offset = .ok w := by
  subst ho
  refine map_eq_ok_iff.mpr ⟨(w, ⟨before.length + Word.size, after⟩), ?_, rfl⟩
  refine Cursor.word_eq_ok_iff.mpr ⟨?_, rfl⟩
  rw [Cursor.seek, h, List.append_assoc, List.drop_left]

/-- The reply of an operation that puts data into the pool is where the pool ended. -/
theorem data_of_reply {b : Builder} {op : Op} {d : DataRef} (h : (b.perform op).1 = .data d) :
    d.offset = b.data.length := by
  have hemit : ∀ id code, (b.emitReply id code).1 ≠ .data d := by
    intro id code
    rw [emitReply]
    split <;> simp
  cases op with
  | writeData bs | writeString s | writeInt n | writeTypeRecord name constructors =>
    cases h
    rfl
  | emit | emitPrintln | emitPrintString | emitPrintLiteralVar | emitFatalError =>
    exact absurd h (hemit _ _)
  | placeLabel id l =>
    simp only [perform] at h
    split at h <;> cases h
  | _ => cases h

/-- An item of data is found at its address, and behind it what was put into the pool later. -/
theorem drop_of_reply {earlier later : List Op} {op : Op} {d : DataRef} {img : Image}
    (h : (performAll {} (earlier ++ op :: later)).link = .ok img)
    (hreply : ((performAll {} earlier).perform op).1 = .data d) :
    img.bytes.drop (img.dataOffset + d.offset) = op.pooled ++ pool later := by
  have hd := data_of_reply hreply
  rw [performAll_data] at hd
  have hpool : img.bytes.drop img.dataOffset = pool (earlier ++ op :: later) := by
    rw [← performAll_data]
    exact (segments_of_link (performAll_blocks _) h).2
  rw [← List.drop_drop, hpool, hd, pool_append, pool_cons, List.drop_left]

/-- **Linking is a correct relocation.** Whatever operations have filled a builder, those that
failed included: the references recorded in a block are words inside it that do not overlap.
If the builder is linked, the image is the header with the offset of the data, the code of the
blocks in the order in which they were made, and the pool. In the code each reference to a
label holds the address of the place where the label stands in the end, each reference to data
that of the item, where the bytes of the item are found, and every other byte is the one that
was emitted. -/
theorem link_relocates (ops : List Op) :
    (performAll {} ops).SlotsApart ∧
      ∀ img, (performAll {} ops).link = .ok img → Relocated ops (performAll {} ops) img := by
  refine ⟨slotsApart_performAll ops, fun img h => ?_⟩
  have hb := performAll_blocks ops
  obtain ⟨-, -, himg⟩ := (link_eq_ok_iff hb).mp h
  have hoffset : img.dataOffset = (performAll {} ops).dataOffset := by rw [himg]
  rw [performAll_data, ← hoffset] at himg
  have hbytes := congrArg Image.bytes himg
  refine ⟨hoffset, hbytes, ?_, ?_, ?_, ?_⟩
  · intro k block hk slot l hslot
    obtain ⟨start, ps, before, after, rfl, hresolved, hcode, hbase⟩ := bytes_at_base hb h hk
    obtain ⟨p, hp, hl, before, after, hsite, hlength⟩ := bytes_at_site hcode hbase hslot
    cases p <;> cases hl
    obtain ⟨place, hplace, hlt⟩ := hresolved _ hp
    refine ⟨place, place?_performAll.mp hplace, hlt, ?_⟩
    rw [Part.linked, position, hplace] at hsite
    exact wordAt_of_bytes hsite hlength
  · intro k block hk slot d hslot
    obtain ⟨start, ps, before, after, rfl, hresolved, hcode, hbase⟩ := bytes_at_base hb h hk
    obtain ⟨p, hp, hd, before, after, hsite, hlength⟩ := bytes_at_site hcode hbase hslot
    cases p <;> cases hd
    rw [hoffset]
    exact ⟨hresolved _ hp, wordAt_of_bytes hsite hlength⟩
  · intro k block hk j hj hfree
    obtain ⟨start, ps, before, after, rfl, -, hcode, hbase⟩ := bytes_at_base hb h hk
    rw [Block.size_ofParts, ← length_flatMap_linked (performAll {} ops)] at hj
    have hsame : (ps.flatMap (Part.linked (performAll {} ops)))[j]? = (ps.flatMap Part.blank)[j]? := by
      refine getElem?_linked (k := 0) fun s hs => ?_
      rw [Nat.zero_add]
      exact hfree s hs
    rw [hcode, ← hbase, List.append_assoc, List.getElem?_append_right (Nat.le_add_right ..),
      Nat.add_sub_cancel_left, List.getElem?_append_left hj, hsame]
    rfl
  · rintro earlier op later d rfl hreply
    rw [drop_of_reply h hreply, List.take_left]

/-- A jump table with a label that is placed later, in another block and behind an instruction,
and an item of data behind another. One instruction is refused. -/
theorem link_relocates_table :
    let ops : List Op :=
      [.createBlock, .createBlock, .newLabel, .writeData [1], .writeData [7, 8],
        .emit ⟨0⟩ .jmpData [.table [⟨2⟩, ⟨0⟩]], .emit ⟨1⟩ .pushUnit [], .placeLabel ⟨1⟩ ⟨2⟩,
        .emit ⟨1⟩ .pushData [.data ⟨1⟩, .int 0, .int 0], .emit ⟨1⟩ .jmp [.text []],
        .emitLabelRef ⟨0⟩ ⟨1⟩]
    let b := performAll {} ops
    let img : Image := ⟨[35, 0, 0, 0, 21, 2, 0, 0, 0, 22, 0, 0, 0, 4, 0, 0, 0, 21, 0, 0, 0, 10, 2,
      36, 0, 0, 0, 0, 0, 0, 0, 0, 0, 0, 0, 1, 7, 8], 35⟩
    b.link = .ok img ∧ b.blocks.map Block.slots = [[5, 9, 13], [2]] ∧
      (∃ p, Stands ops ⟨2⟩ p ∧ img.wordAt 9 = .ok (Int32.ofNat (b.base p.block + p.offset))) ∧
      img.wordAt 23 = .ok 36 ∧ (img.bytes.drop 36).take 2 = [7, 8] := by
  intro ops b img
  have hlink : b.link = .ok img := by decide
  have h : Relocated ops b img := (link_relocates ops).2 img hlink
  obtain ⟨p, hp, -, hword⟩ := h.label 0 _ rfl 5 ⟨2⟩ (by decide)
  exact ⟨hlink, by decide, ⟨p, hp, hword⟩, (h.data 1 _ rfl 2 ⟨1⟩ (by decide)).2,
    h.item (ops.take 4) (.writeData [7, 8]) (ops.drop 5) ⟨1⟩ rfl rfl⟩

end Builder

end StackCode
