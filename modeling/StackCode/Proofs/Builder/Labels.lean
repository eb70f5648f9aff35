import StackCode.Proofs.Builder.Relocation

/-!
# Where labels stand

A label that stands somewhere is moved by one operation only, which is to place it
(`place?_perform_iff`). Placing is not limited to labels that stand nowhere yet: it moves a
label that was placed before, one that was made where it stands, and even the label at the
start of a block, and the references to the label, those made earlier included, are all linked
to its last place (`wordAt_of_labelRef`). What holds is that a label stays where it stands until
it is placed again. So the label at the start of a block that is never placed is linked to the
base of the block.
-/

namespace StackCode.Builder

open Result

/-! ### One operation -/

theorem lt_of_place? {b : Builder} {l : Label} {p : Place} (h : b.place? l = some p) :
    l.number < b.labels.length := by
  unfold place? at h
  by_cases hl : l.number < b.labels.length
  · exact hl
  · rw [List.getElem?_eq_none (Nat.le_of_not_lt hl)] at h
    cases h

/-- An operation puts a label that exists somewhere only if it places it. -/
theorem places_iff_of_lt {b : Builder} {op : Op} {l : Label} {q : Place}
    (hl : l.number < b.labels.length) :
    op.Places b l q ↔ ∃ id, op = .placeLabel id l ∧ q = ⟨id, b.offset id⟩ := by
  constructor
  · intro h
    cases h with
    | start => exact absurd hl (Nat.lt_irrefl _)
    | mark id => exact absurd hl (Nat.lt_irrefl _)
    | @place id _ known => exact ⟨id, rfl, rfl⟩
  · rintro ⟨id, rfl, rfl⟩
    exact .place hl

/-- **A label stays where it stands exactly if it is not placed elsewhere.** -/
theorem place?_perform_iff {b : Builder} {l : Label} {p : Place} (h : b.place? l = some p) (op : Op) :
    (b.perform op).2.place? l = some p ↔ ∀ id, op = .placeLabel id l → p = ⟨id, b.offset id⟩ := by
  simp only [(performed b op).place?, places_iff_of_lt (lt_of_place? h)]
  constructor
  · rintro (⟨id, rfl, hp⟩ | ⟨hnot, -⟩)
    · rintro _ ⟨⟩
      exact hp
    · intro id hop
      exact absurd ⟨id, hop, rfl⟩ (hnot _)
  · intro hsame
    by_cases hplaced : ∃ id, op = .placeLabel id l
    · obtain ⟨id, hop⟩ := hplaced
      exact .inl ⟨id, hop, hsame id hop⟩
    · refine .inr ⟨?_, h⟩
      rintro q ⟨id, hop, -⟩
      exact hplaced ⟨id, hop⟩

/-! ### Many operations -/

/-- A label that is not placed again stays where it stands. -/
theorem place?_performAll_of_not_placed {b : Builder} {l : Label} {p : Place} (h : b.place? l = some p)
    {more : List Op} (hmore : ∀ id, .placeLabel id l ∉ more) : (b.performAll more).place? l = some p := by
  induction more generalizing b with
  | nil => exact h
  | cons op more ih =>
    have hstays : (b.perform op).2.place? l = some p := by
      refine (place?_perform_iff h op).mpr ?_
      rintro id rfl
      exact absurd List.mem_cons_self (hmore id)
    exact ih hstays fun id hid => hmore id (List.mem_cons_of_mem _ hid)

/-- The labels at the starts of the blocks change only when a block is made. -/
theorem map_start_perform (ops : List Op) (op : Op) :
    let b := performAll {} ops
    (b.perform op).2.blocks.map Block.start = b.blocks.map Block.start ∨
      op = .createBlock ∧
        (b.perform op).2.blocks.map Block.start = b.blocks.map Block.start ++ [⟨b.labels.length⟩] := by
  intro b
  have hperformed := performed b op
  generalize (b.perform op).2 = b' at hperformed ⊢
  cases hperformed with
  | created => exact .inr ⟨rfl, List.map_append⟩
  | labelled | placed | pooled => exact .inl rfl
  | @emitted _ id es =>
    refine .inl (List.ext_getElem? fun k => ?_)
    simp only [modifyBlock, List.getElem?_map, List.getElem?_modify]
    cases hblock : b.blocks[k]? with
    | none => rfl
    | some block =>
      -- emissions are added behind what is in a block, so its start stays
      obtain ⟨-, -, start, rfl⟩ := exists_getElem?_of_forall₂ (performAll_blocks ops) hblock
      split
      · simp only [Option.map_eq_map, Option.map_some, Block.foldl_add_ofParts]
        rfl
      · rfl

/-- A label at the start of a block that is never placed stands there. -/
theorem place?_start {ops : List Op} {k : Nat} {l : Label}
    (hl : ((performAll {} ops).blocks.map Block.start)[k]? = some l)
    (hnot : ∀ id, .placeLabel id l ∉ ops) : (performAll {} ops).place? l = some ⟨⟨k⟩, 0⟩ := by
  induction ops using List.reverseRecOn with
  | nil => cases hl
  | append_singleton ops op ih =>
    have hkept : ((performAll {} ops).blocks.map Block.start)[k]? = some l →
        ((performAll {} ops).perform op).2.place? l = some ⟨⟨k⟩, 0⟩ := by
      intro hold
      have hstands := ih hold fun id hid => hnot id (List.mem_append_left _ hid)
      refine (place?_perform_iff hstands op).mpr ?_
      rintro id rfl
      exact absurd (List.mem_append_right _ List.mem_cons_self) (hnot id)
    rw [performAll_concat] at hl ⊢
    rcases map_start_perform ops op with hsame | ⟨rfl, hnew⟩
    · rw [hsame] at hl
      exact hkept hl
    · rw [hnew, List.getElem?_append] at hl
      split at hl
      · exact hkept hl
      · next hk =>
        -- the block is the new one
        rw [List.length_map] at hk hl
        cases hnumber : k - (performAll {} ops).blocks.length with
        | succ n =>
          rw [hnumber] at hl
          cases hl
        | zero =>
          obtain rfl : k = (performAll {} ops).blocks.length := by omega
          rw [hnumber] at hl
          cases hl
          exact ((performed _ _).place? _ _).mpr (.inl .start)

/-! ### Linking -/

/-- A reference to a label holds the address of the place where the label stands. -/
theorem wordAt_of_labelRef {ops : List Op} {img : Image} (h : (performAll {} ops).link = .ok img)
    {k : Nat} {block : Block} (hk : (performAll {} ops).blocks[k]? = some block) {slot : Nat}
    {l : Label} (hslot : (slot, l) ∈ block.labelRefs) :
    img.wordAt ((performAll {} ops).base ⟨k⟩ + slot) =
      .ok (Int32.ofNat ((performAll {} ops).position l)) := by
  obtain ⟨start, ps, before, after, rfl, -, hcode, hbase⟩ :=
    bytes_at_base (performAll_blocks ops) h hk
  obtain ⟨part, -, hl, before, after, hsite, hlength⟩ := bytes_at_site hcode hbase hslot
  cases part <;> cases hl
  exact wordAt_of_bytes hsite hlength

/-- **A label is bound until it is placed again.** After any operations a label that stands
somewhere is kept there by an operation exactly if that does not place it somewhere else, and
by all operations that do not place it. The label at the start of a block stands there, and its
address is the base of the block, as long as it was never placed. If the builder is linked, all
references to a label, whenever they were made, hold the address of the one place where it stands
then. -/
theorem label_stands_until_placed (ops : List Op) :
    let b := performAll {} ops
    (∀ l p, b.place? l = some p → ∀ op,
      (b.perform op).2.place? l = some p ↔
        ∀ id, op = .placeLabel id l → p = ⟨id, b.offset id⟩) ∧
    (∀ l p, b.place? l = some p → ∀ more, (∀ id, .placeLabel id l ∉ more) →
      (b.performAll more).place? l = some p) ∧
    (∀ id, id.number < b.blocks.length → (∀ target, .placeLabel target (b.startLabel id) ∉ ops) →
      b.place? (b.startLabel id) = some ⟨id, 0⟩ ∧ b.position (b.startLabel id) = b.base id) ∧
    ∀ img, b.link = .ok img → ∀ k block slot l, b.blocks[k]? = some block →
      (slot, l) ∈ block.labelRefs →
        img.wordAt (b.base ⟨k⟩ + slot) = .ok (Int32.ofNat (b.position l)) := by
  intro b
  refine ⟨fun l p h op => place?_perform_iff h op,
    fun l p h more hmore => place?_performAll_of_not_placed h hmore, fun id hid hnot => ?_,
    fun img h k block slot l hk hslot => wordAt_of_labelRef h hk hslot⟩
  have hstart : (b.blocks.map Block.start)[id.number]? = some (b.startLabel id) := by
    rw [startLabel, List.getElem?_map, List.getElem?_eq_getElem hid]
    rfl
  have hplace : b.place? (b.startLabel id) = some ⟨id, 0⟩ := place?_start hstart hnot
  refine ⟨hplace, ?_⟩
  rw [position, hplace]
  rfl

/-- A label is referred to before and after it is placed, and the start of its block from
another. -/
theorem label_stands_until_placed_forward :
    let ops : List Op :=
      [.createBlock, .createBlock, .newLabel, .emit ⟨0⟩ .pushClosure [.label ⟨1⟩],
        .emit ⟨1⟩ .jmp [.label ⟨2⟩], .placeLabel ⟨1⟩ ⟨2⟩, .emit ⟨1⟩ .jmp [.label ⟨2⟩]]
    let b := performAll {} ops
    let img : Image := ⟨[19, 0, 0, 0, 1, 9, 0, 0, 0, 20, 14, 0, 0, 0, 20, 14, 0, 0, 0], 19⟩
    b.link = .ok img ∧ b.position (b.startLabel ⟨1⟩) = b.base ⟨1⟩ ∧
      img.wordAt 5 = .ok (Int32.ofNat (b.position (b.startLabel ⟨1⟩))) ∧
      img.wordAt 10 = .ok (Int32.ofNat (b.position ⟨2⟩)) ∧
      img.wordAt 15 = .ok (Int32.ofNat (b.position ⟨2⟩)) := by
  intro ops b img
  obtain ⟨-, -, hstart, hlinked⟩ := label_stands_until_placed ops
  have hlink : b.link = .ok img := by decide
  have hlabel : b.startLabel ⟨1⟩ = ⟨1⟩ := by decide
  have hnot : ∀ target, .placeLabel target (b.startLabel ⟨1⟩) ∉ ops := by simp [hlabel, ops]
  exact ⟨hlink, (hstart ⟨1⟩ (by decide) hnot).2, hlinked img hlink 0 _ 1 ⟨1⟩ rfl (by decide),
    hlinked img hlink 1 _ 1 ⟨2⟩ rfl (by decide), hlinked img hlink 1 _ 6 ⟨2⟩ rfl (by decide)⟩

/-- **A label that stands somewhere can be moved without an error.** A closure is made of the
start of a block, and then the label at this start is placed behind the first instruction of the
block. What was made before is a closure of the second instruction then. -/
theorem placeLabel_moves_start :
    let ops : List Op :=
      [.createBlock, .createBlock, .emit ⟨0⟩ .pushClosure [.label ⟨1⟩], .emit ⟨1⟩ .pushUnit []]
    let b := performAll {} ops
    let (reply, moved) := b.perform (.placeLabel ⟨1⟩ ⟨1⟩)
    reply = .done ∧ b.startLabel ⟨1⟩ = ⟨1⟩ ∧ moved.startLabel ⟨1⟩ = ⟨1⟩ ∧
      b.place? ⟨1⟩ = some ⟨⟨1⟩, 0⟩ ∧ moved.place? ⟨1⟩ = some ⟨⟨1⟩, 1⟩ ∧
      b.position ⟨1⟩ = 9 ∧ moved.position ⟨1⟩ = 10 ∧ moved.base ⟨1⟩ = 9 ∧
      b.link = .ok ⟨[10, 0, 0, 0, 1, 9, 0, 0, 0, 10], 10⟩ ∧
      moved.link = .ok ⟨[10, 0, 0, 0, 1, 10, 0, 0, 0, 10], 10⟩ :=
  ⟨rfl, by decide⟩

end StackCode.Builder
