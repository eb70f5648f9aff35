import StackCode.Proofs.Builder.Relocation

/-!
# Why a program cannot be linked

Linking goes through the references of all blocks (`references`) and stops at the first one that it
cannot fill in (`error?_link`). Only two things can be wrong with a reference: its label stands
nowhere, or its item of data is too far away. A label that stands somewhere is never too far away,
because no label stands behind the code (`address_le_dataOffset`).
-/

namespace StackCode.Builder

open Result

/-! ### References -/

/-- A reference: where it is, which is an offset in the block with a label at its start, and what it
is to. -/
inductive Reference where
  /-- A reference to a label. -/
  | label (start : Label) (slot : Nat) (l : Label)
  /-- A reference to an item of data. -/
  | data (start : Label) (slot : Nat) (d : DataRef)

/-- The references of a block in the order in which they are filled in. -/
def Block.references (block : Block) : List Reference :=
  block.labelRefs.map (fun (slot, l) => .label block.start slot l) ++
    block.dataRefs.map fun (slot, d) => .data block.start slot d

/-- The references of all blocks in the order in which they are filled in. -/
def references (b : Builder) : List Reference := b.blocks.flatMap Block.references

/-- Why a reference cannot be filled in. -/
def Reference.offence? (b : Builder) : Reference → Option LinkError
  | .label start slot l =>
    if (b.place? l).isSome then none else some (.unresolvedLabel l start slot)
  | .data _ _ d =>
    if b.dataOffset + d.offset < 2147483648 then none
    else some (.addressOverflow (b.dataOffset + d.offset))

theorem offence?_label_eq_none_iff {b : Builder} {start l : Label} {slot : Nat} :
    (Reference.label start slot l).offence? b = none ↔ ∃ p, b.labels[l.number]? = some (some p) := by
  have hplace : (∃ p, b.labels[l.number]? = some (some p)) ↔ (b.place? l).isSome = true := by
    simp only [place?, Option.isSome_iff_exists, Option.join_eq_some_iff]
  rw [hplace, Reference.offence?]
  split <;> simp [*]

theorem offence?_data_eq_none_iff {b : Builder} {start : Label} {slot : Nat} {d : DataRef} :
    (Reference.data start slot d).offence? b = none ↔ b.dataOffset + d.offset < 2147483648 := by
  simp [Reference.offence?]

/-- All references can be filled in if all labels stand somewhere and no item of data is too far
away. -/
theorem forall_offence?_eq_none_iff {b : Builder} :
    (∀ r ∈ b.references, r.offence? b = none) ↔
      (∀ block ∈ b.blocks, ∀ slot l, (slot, l) ∈ block.labelRefs →
        ∃ p, b.labels[l.number]? = some (some p)) ∧
      ∀ block ∈ b.blocks, ∀ slot d, (slot, d) ∈ block.dataRefs →
        b.dataOffset + d.offset < 2147483648 := by
  simp only [references, List.forall_mem_flatMap, Block.references, List.forall_mem_append,
    List.forall_mem_map, Prod.forall, offence?_label_eq_none_iff, offence?_data_eq_none_iff]
  exact ⟨fun h => ⟨fun block hblock => (h block hblock).1, fun block hblock => (h block hblock).2⟩,
    fun h block hblock => ⟨h.1 block hblock, h.2 block hblock⟩⟩

/-- The references of a block are those that were emitted into it, in their order, each with its
offset in the block, where it has room for a word. -/
structure Block.Records (block : Block) (es : List Emission) : Prop where
  labels : block.labelRefs = sites Part.label? 0 (es.flatMap Emission.parts)
  data : block.dataRefs = sites Part.data? 0 (es.flatMap Emission.parts)
  room : ∀ slot ∈ block.slots, slot + Word.size ≤ block.size

theorem records_performAll (ops : List Op) :
    List.Forall₂ Block.Records (performAll {} ops).blocks (contents ops) := by
  refine (performAll_blocks ops).imp fun block es ⟨start, hblock⟩ => ?_
  subst hblock
  exact ⟨rfl, rfl, fun slot => Block.room_ofParts⟩

/-! ### Addresses -/

/-- **No label stands behind the code.** -/
theorem address_le_dataOffset {ops : List Op} {l : Label} {p : Place}
    (h : (performAll {} ops).place? l = some p) :
    (performAll {} ops).base p.block + p.offset ≤ (performAll {} ops).dataOffset := by
  obtain ⟨front, back, hsplit, haddress⟩ := (place?_performAll.mp h).cut
  rw [haddress, dataOffset_eq (performAll_blocks ops), partsOf, hsplit, List.flatMap_append,
    extent_append]
  omega

theorem error?_address (n : Nat) :
    error? (address n) = if n < 2147483648 then none else some (.addressOverflow n) := by
  unfold address
  split <;> rfl

section Link

variable {ops : List Op} (hfits : (performAll {} ops).dataOffset < 2147483648)
include hfits

/-- The address of a label that stands somewhere always fits into a word. -/
theorem labelAddress_of_place {l : Label} {p : Place} (h : (performAll {} ops).place? l = some p)
    (block : Block) (slot : Nat) :
    (performAll {} ops).labelAddress block slot l =
      .ok (Int32.ofNat ((performAll {} ops).base p.block + p.offset)) := by
  have hlt := Nat.lt_of_le_of_lt (address_le_dataOffset h) hfits
  rw [labelAddress, h]
  exact address_eq_ok_iff.mpr ⟨hlt, rfl⟩

theorem error?_labelAddress (block : Block) (slot : Nat) (l : Label) :
    error? ((performAll {} ops).labelAddress block slot l) =
      (Reference.label block.start slot l).offence? (performAll {} ops) := by
  rw [Reference.offence?]
  cases h : (performAll {} ops).place? l with
  | none =>
    rw [labelAddress, h]
    rfl
  | some p =>
    rw [labelAddress_of_place hfits h]
    rfl

/-- A block cannot be relocated because of the first of its references that cannot be filled in. -/
theorem error?_relocate (block : Block) :
    error? ((performAll {} ops).relocate block) =
      block.references.findSome? (Reference.offence? (performAll {} ops)) := by
  have hlabels : ∀ code, error? (block.labelRefs.foldlM
      (fun code (slot, l) =>
        return Word.patch code slot (← (performAll {} ops).labelAddress block slot l)) code) =
      block.labelRefs.findSome? fun (slot, l) =>
        (Reference.label block.start slot l).offence? (performAll {} ops) := by
    refine fun code => error?_foldlM (fun code ref => ?_) _ code
    obtain ⟨slot, l⟩ := ref
    rw [error?_bind (o := none) fun _ => rfl, Option.or_none, error?_labelAddress hfits]
  have hdata : ∀ code, error? (block.dataRefs.foldlM
      (fun code (slot, d) => return Word.patch code slot (← (performAll {} ops).dataAddress d)) code) =
      block.dataRefs.findSome? fun (slot, d) =>
        (Reference.data block.start slot d).offence? (performAll {} ops) := by
    refine fun code => error?_foldlM (fun code ref => ?_) _ code
    obtain ⟨slot, d⟩ := ref
    rw [error?_bind (o := none) fun _ => rfl, Option.or_none]
    exact error?_address _
  rw [relocate, error?_bind hdata, hlabels, Block.references, List.findSome?_append,
    List.findSome?_map, List.findSome?_map]
  rfl

end Link

/-- **A program cannot be linked because of its size or of the first reference that cannot be filled
in.** -/
theorem error?_link (ops : List Op) :
    error? (performAll {} ops).link =
      if (performAll {} ops).dataOffset < 2147483648 then
        (performAll {} ops).references.findSome? (Reference.offence? (performAll {} ops))
      else some (.addressOverflow (performAll {} ops).dataOffset) := by
  by_cases hfits : (performAll {} ops).dataOffset < 2147483648
  · have hblocks : error? ((performAll {} ops).blocks.mapM (performAll {} ops).relocate) =
        (performAll {} ops).references.findSome? (Reference.offence? (performAll {} ops)) := by
      rw [error?_mapM, references, findSome?_flatMap]
      exact congrArg (List.findSome? · _) (funext (error?_relocate hfits))
    rw [link_eq (performAll_blocks ops),
      error?_bind fun _ => (error?_bind (o := none) fun _ => rfl).trans Option.or_none, error?_address, if_pos hfits,
      if_pos hfits, hblocks, Option.none_or]
  · have hheader : address (performAll {} ops).dataOffset =
        .error (.addressOverflow (performAll {} ops).dataOffset) := by
      rw [address, if_neg hfits]
    rw [link, hheader, if_neg hfits]
    rfl

/-- **Linking fails exactly when it must, and names the first culprit.** Whatever operations have
filled a builder, it is linked exactly if the offset of the data fits into a word, every label that
is referred to is one of the builder and stands somewhere, and the address of every item of data that
is referred to fits into a word. If the offset of the data does not fit, this is the error. If it
fits, the error is that of the first reference that cannot be filled in, block by block in the order
in which they were made, the references to labels before those to data; and a label that stands
somewhere has an address that fits. In each block the references are those that were emitted into it,
in this order, each with its offset in the block, where it has room for a word. -/
theorem link_names_first_offence (ops : List Op) :
    let b := performAll {} ops
    ((∃ img, b.link = .ok img) ↔
      b.dataOffset < 2147483648 ∧
      (∀ block ∈ b.blocks, ∀ slot l, (slot, l) ∈ block.labelRefs →
        ∃ p, b.labels[l.number]? = some (some p)) ∧
      ∀ block ∈ b.blocks, ∀ slot d, (slot, d) ∈ block.dataRefs →
        b.dataOffset + d.offset < 2147483648) ∧
    (2147483648 ≤ b.dataOffset → b.link = .error (.addressOverflow b.dataOffset)) ∧
    (b.dataOffset < 2147483648 →
      (∀ e, b.link = .error e ↔ ∃ before r after, b.references = before ++ r :: after ∧
        r.offence? b = some e ∧ ∀ earlier ∈ before, earlier.offence? b = none) ∧
      ∀ l p, b.place? l = some p → ∀ block slot,
        b.labelAddress block slot l = .ok (Int32.ofNat (b.base p.block + p.offset))) ∧
    List.Forall₂ Block.Records b.blocks (contents ops) := by
  intro b
  refine ⟨?_, fun hover => ?_, fun hfits => ⟨fun e => ?_, fun l p => labelAddress_of_place hfits⟩,
    records_performAll ops⟩
  · rw [← error?_eq_none_iff, error?_link, ← forall_offence?_eq_none_iff]
    split
    · next hfits => rw [List.findSome?_eq_none_iff, and_iff_right hfits]
    · next hfits => exact ⟨nofun, fun h => absurd h.1 hfits⟩
  · rw [← error?_eq_some_iff, error?_link, if_neg (Nat.not_lt.mpr hover)]
  · rw [← error?_eq_some_iff, error?_link, if_pos hfits]
    exact List.findSome?_eq_some_iff

/-- A label of another builder is referred to first, but in the second block. In the first block an
item of data is too far away, and behind it a label is referred to that stands nowhere; this label is
the culprit until it is placed, and then the item is. -/
theorem link_names_first_offence_order :
    let ops : List Op :=
      [.createBlock, .createBlock, .newLabel, .emit ⟨1⟩ .jmp [.label ⟨7⟩],
        .emit ⟨0⟩ .pushData [.data ⟨2147483647⟩, .int 0, .int 0], .emit ⟨0⟩ .jmp [.label ⟨2⟩]]
    let b := performAll {} ops
    let placed := b.performAll [.placeLabel ⟨1⟩ ⟨2⟩]
    (¬ ∃ img, b.link = .ok img) ∧ b.link = .error (.unresolvedLabel ⟨2⟩ ⟨0⟩ 14) ∧
      placed.link = .error (.addressOverflow 2147483674) ∧
      placed.labelAddress { start := ⟨0⟩ } 14 ⟨2⟩ = .ok 27 := by
  intro ops b placed
  obtain ⟨hok, -, hfits, -⟩ := link_names_first_offence ops
  obtain ⟨-, -, hfits', -⟩ := link_names_first_offence (ops ++ [.placeLabel ⟨1⟩ ⟨2⟩])
  have herror : b.link = .error (.unresolvedLabel ⟨2⟩ ⟨0⟩ 14) :=
    ((hfits (by decide)).1 _).mpr ⟨[], _, _, rfl, rfl, nofun⟩
  refine ⟨?_, herror, ?_, (hfits' (by decide)).2 ⟨2⟩ ⟨⟨1⟩, 5⟩ rfl _ _⟩
  · rintro ⟨img, himg⟩
    cases herror.symm.trans himg
  · refine ((hfits' (by decide)).1 _).mpr ⟨[.label ⟨0⟩ 14 ⟨2⟩], .data ⟨0⟩ 1 ⟨2147483647⟩, _, rfl, ?_, ?_⟩
    · decide
    · simp only [List.forall_mem_singleton]
      decide

end StackCode.Builder
