import StackCode.Proofs.Builder.Contents

/-!
# Filling blocks in any order

A compiler that meets a function inside another one leaves the block it is filling, fills a new one
and comes back. All blocks are parts of one builder, but an operation that fills a block looks only
at that block and at how many labels there are, and changes only that block and the label that it
places. So what belongs to a block, which is the block itself and the labels that are placed in no
other one, is the same as if nothing but the operations on that block were performed, and these
operations answer the same (`Agree.performAll`). As a builder is nothing but what belongs to its
blocks, the order between the blocks leaves no trace (`performAll_eq_of_opsOn`).
-/

namespace StackCode.Builder

/-! ### Operations on one block -/

/-- The block that an operation fills: the operation emits into it or places a label at its end. -/
def Op.fills? : Op → Option BlockId
  | .placeLabel id _ => some id
  | op => op.emits?.map Prod.fst

theorem Op.fills?_eq_some_iff {op : Op} {id : BlockId} :
    op.fills? = some id ↔ (∃ es, op.emits? = some (id, es)) ∨ ∃ l, op = .placeLabel id l := by
  cases op <;> simp [fills?, emits?]

/-- Those of operations that fill a block. -/
def opsOn (id : BlockId) (ops : List Op) : List Op := ops.filter fun op => op.fills? = some id

theorem opsOn_cons_of_eq {id : BlockId} {op : Op} (h : op.fills? = some id) (ops : List Op) :
    opsOn id (op :: ops) = op :: opsOn id ops :=
  List.filter_cons_of_pos (decide_eq_true h)

theorem opsOn_cons_of_ne {id : BlockId} {op : Op} (h : op.fills? ≠ some id) (ops : List Op) :
    opsOn id (op :: ops) = opsOn id ops :=
  List.filter_cons_of_neg (by simpa using h)

/-- What operations answer when they are performed in order, each with its answer. -/
def answers (b : Builder) : List Op → List (Op × Reply)
  | [] => []
  | op :: ops => (op, (b.perform op).1) :: (b.perform op).2.answers ops

/-- The answers of those operations that fill a block. -/
def answersOn (id : BlockId) (replies : List (Op × Reply)) : List (Op × Reply) :=
  replies.filter fun reply => reply.1.fills? = some id

theorem answersOn_cons_of_eq {id : BlockId} {op : Op} (h : op.fills? = some id) (reply : Reply)
    (replies : List (Op × Reply)) :
    answersOn id ((op, reply) :: replies) = (op, reply) :: answersOn id replies :=
  List.filter_cons_of_pos (decide_eq_true h)

theorem answersOn_cons_of_ne {id : BlockId} {op : Op} (h : op.fills? ≠ some id) (reply : Reply)
    (replies : List (Op × Reply)) :
    answersOn id ((op, reply) :: replies) = answersOn id replies :=
  List.filter_cons_of_neg (by simpa using h)

/-- No label of a builder is placed in two blocks. -/
def PlacedApart (b : Builder) (ops : List Op) : Prop :=
  ∀ id id' l, l.number < b.labels.length → .placeLabel id l ∈ ops → .placeLabel id' l ∈ ops → id = id'

/-- The label that an operation places. -/
def Op.placed? : Op → Option Label
  | .placeLabel _ l => some l
  | _ => none

/-- Labels that are placed once at most are not placed in two blocks. -/
theorem placedApart_of_nodup (b : Builder) {ops : List Op} (h : (ops.filterMap Op.placed?).Nodup) :
    b.PlacedApart ops := by
  intro id id' l _ hid hid'
  induction ops with
  | nil => cases hid
  | cons op ops ih =>
    cases hplaced : op.placed? with
    | none =>
      rw [List.filterMap_cons_none hplaced] at h
      have hne : ∀ id, .placeLabel id l ≠ op := by
        rintro id rfl
        cases hplaced
      exact ih h (List.mem_of_ne_of_mem (hne id) hid) (List.mem_of_ne_of_mem (hne id') hid')
    | some k =>
      rw [List.filterMap_cons_some hplaced] at h
      obtain ⟨hk, h⟩ := List.nodup_cons.mp h
      have hmem : ∀ id, .placeLabel id k ∉ ops := fun id hid =>
        hk (List.mem_filterMap.mpr ⟨_, hid, rfl⟩)
      rcases List.mem_cons.mp hid with rfl | hrest <;> rcases List.mem_cons.mp hid' with heq | hrest'
      · cases heq
        rfl
      · cases hplaced
        exact absurd hrest' (hmem id')
      · cases heq
        cases hplaced
        exact absurd hrest (hmem id)
      · exact ih h hrest hrest'

/-! ### One operation -/

theorem emitReply_fst (b c : Builder) (id : BlockId) (code : List (Opcode × List Argument)) :
    (b.emitReply id code).1 = (c.emitReply id code).1 := by
  have hrefusal : ∀ b c : Builder, (b.emitAll id code).2 = (c.emitAll id code).2 := by
    induction code with
    | nil => exact fun _ _ => rfl
    | cons i code ih =>
      intro b c
      simp only [emitAll, emit]
      cases fitAll i.2 i.1.signature with
      | false => rfl
      | true =>
        cases i.2.any Argument.hasNul with
        | true => rfl
        | false => exact ih _ _
  simp only [emitReply]
  have h := hrefusal b c
  cases hb : b.emitAll id code with
  | mk b' e =>
    cases hc : c.emitAll id code with
    | mk c' e' =>
      rw [hb, hc] at h
      cases h
      cases e <;> rfl

/-- What an operation that emits answers does not depend on the builder, and what it adds to the
block does not depend on it either. -/
theorem perform_of_emits {op : Op} {id : BlockId} {es : List Emission} (h : op.emits? = some (id, es)) :
    ∃ reply, ∀ b : Builder,
      b.perform op = (reply, b.modifyBlock id fun block => es.foldl Block.add block) := by
  have hreply : ∀ code, ∃ reply, ∀ b : Builder, b.emitReply id code =
      (reply, b.modifyBlock id fun block => (emittedOf code).foldl Block.add block) := fun code =>
    ⟨(emitReply {} id code).1, fun b => Prod.ext (emitReply_fst b {} id code) (emitReply_snd b id code)⟩
  cases op <;> cases h
  case emit op args => exact hreply [(op, args)]
  case emitPrintln => exact hreply println
  case emitPrintString s => exact hreply (printString s)
  case emitPrintLiteralVar depth slot => exact hreply (printLiteralVar depth slot)
  case emitFatalError message code => exact hreply (fatalError message code)
  case emitInt | emitLabelRef | emitDataRef => exact ⟨.done, fun _ => rfl⟩

theorem perform_placeLabel_of_lt {b : Builder} {id : BlockId} {l : Label} (h : l.number < b.labels.length) :
    b.perform (.placeLabel id l) =
      (.done, { b with labels := b.labels.set l.number (some ⟨id, b.offset id⟩) }) := by
  simp only [perform, placeLabel, if_pos h]

theorem perform_placeLabel_of_le {b : Builder} {id : BlockId} {l : Label} (h : b.labels.length ≤ l.number) :
    b.perform (.placeLabel id l) = (.unlinkable (.foreignLabel l), b) := by
  simp only [perform, placeLabel, if_neg (Nat.not_lt_of_le h)]

/-- What an operation that fills a block leaves as it is. -/
structure Elsewhere (id : BlockId) (op : Op) (b b' : Builder) : Prop where
  data : b'.data = b.data
  count : b'.labels.length = b.labels.length
  block : ∀ k, k ≠ id.number → b'.blocks[k]? = b.blocks[k]?
  label : ∀ l, ¬ (op = .placeLabel id l ∧ l.number < b.labels.length) →
    b'.labels[l.number]? = b.labels[l.number]?

theorem elsewhere {op : Op} {id : BlockId} (h : op.fills? = some id) (b : Builder) :
    Elsewhere id op b (b.perform op).2 := by
  rcases Op.fills?_eq_some_iff.mp h with ⟨es, hes⟩ | ⟨l, rfl⟩
  · obtain ⟨reply, hperform⟩ := perform_of_emits hes
    rw [hperform]
    refine ⟨rfl, rfl, fun k hk => ?_, fun _ _ => rfl⟩
    exact List.getElem?_modify_ne _ _ (Ne.symm hk)
  · by_cases hl : l.number < b.labels.length
    · rw [perform_placeLabel_of_lt hl]
      refine ⟨rfl, List.length_set, fun _ _ => rfl, fun k hk => ?_⟩
      refine List.getElem?_set_ne fun hnumber => hk ?_
      cases k
      cases hnumber
      exact ⟨rfl, hl⟩
    · rw [perform_placeLabel_of_le (Nat.le_of_not_lt hl)]
      exact ⟨rfl, rfl, fun _ _ => rfl, fun _ _ => rfl⟩

/-! ### What belongs to a block -/

/-- What belongs to a block is the same in two builders: the block itself, and where the labels
stand that are its own. -/
structure Agree (id : BlockId) (own : Label → Prop) (b c : Builder) : Prop where
  block : b.blocks[id.number]? = c.blocks[id.number]?
  count : b.labels.length = c.labels.length
  label : ∀ l, own l → b.labels[l.number]? = c.labels[l.number]?

section Agree

variable {id : BlockId} {own : Label → Prop} {b c : Builder}

theorem Agree.refl (id : BlockId) (own : Label → Prop) (b : Builder) : Agree id own b b :=
  ⟨rfl, rfl, fun _ _ => rfl⟩

/-- An operation on the block does the same to both, and answers the same. -/
theorem Agree.perform (h : Agree id own b c) {op : Op} (hop : op.fills? = some id) :
    (b.perform op).1 = (c.perform op).1 ∧ Agree id own (b.perform op).2 (c.perform op).2 := by
  rcases Op.fills?_eq_some_iff.mp hop with ⟨es, hes⟩ | ⟨l, rfl⟩
  · obtain ⟨reply, hperform⟩ := perform_of_emits hes
    rw [hperform, hperform]
    refine ⟨rfl, ?_, h.count, h.label⟩
    simp only [modifyBlock, List.getElem?_modify_eq, h.block]
  · by_cases hl : l.number < b.labels.length
    · have hoffset : b.offset id = c.offset id := by rw [offset, offset, h.block]
      rw [perform_placeLabel_of_lt hl, perform_placeLabel_of_lt (h.count ▸ hl), hoffset]
      refine ⟨rfl, h.block, ?_, fun k hk => ?_⟩
      · simp only [List.length_set, h.count]
      · simp only [List.getElem?_set, h.count, h.label k hk]
    · rw [perform_placeLabel_of_le (Nat.le_of_not_lt hl),
        perform_placeLabel_of_le (h.count ▸ Nat.le_of_not_lt hl)]
      exact ⟨rfl, h⟩

/-- An operation on another block leaves alone what belongs to this one. -/
theorem Agree.perform_left (h : Agree id own b c) {op : Op} {id' : BlockId} (hop : op.fills? = some id')
    (hid : id' ≠ id) (hown : ∀ l, own l → l.number < b.labels.length → op ≠ .placeLabel id' l) :
    Agree id own (b.perform op).2 c := by
  have he := elsewhere hop b
  have hnumber : id.number ≠ id'.number := fun hn => hid (congrArg BlockId.mk hn).symm
  refine ⟨(he.block _ hnumber).trans h.block, he.count.trans h.count, fun l hl => ?_⟩
  rw [he.label l fun ⟨hplaced, hlt⟩ => hown l hl hlt hplaced]
  exact h.label l hl

/-- **What belongs to a block is the same as if only the operations on it were performed**, and these
answer the same. -/
theorem Agree.performAll (h : Agree id own b c) {ops : List Op}
    (hops : ∀ op ∈ ops, ∃ id, op.fills? = some id)
    (hown : ∀ l, own l → l.number < b.labels.length → ∀ id', .placeLabel id' l ∈ ops → id' = id) :
    answersOn id (b.answers ops) = c.answers (opsOn id ops) ∧
      Agree id own (b.performAll ops) (c.performAll (opsOn id ops)) := by
  induction ops generalizing b c with
  | nil => exact ⟨rfl, h⟩
  | cons op ops ih =>
    obtain ⟨⟨id', hop⟩, hops⟩ := List.forall_mem_cons.mp hops
    have hrest : ∀ l, own l → l.number < (b.perform op).2.labels.length →
        ∀ id', .placeLabel id' l ∈ ops → id' = id := by
      intro l hl hlt id' hid'
      rw [(elsewhere hop b).count] at hlt
      exact hown l hl hlt id' (List.mem_cons_of_mem _ hid')
    -- an operation on this block is performed on both sides, one on another block on the left only
    by_cases hid : id' = id
    · subst hid
      obtain ⟨hreply, hagree⟩ := h.perform hop
      obtain ⟨hreplies, hagree⟩ := ih hagree hops hrest
      rw [answers, answersOn_cons_of_eq hop, opsOn_cons_of_eq hop, answers, hreply, hreplies]
      exact ⟨rfl, hagree⟩
    · have hne : op.fills? ≠ some id := by
        rw [hop]
        exact fun hsome => hid (Option.some.inj hsome)
      have hagree := h.perform_left hop hid fun l hl hlt hplaced =>
        hid (hown l hl hlt id' (hplaced ▸ List.mem_cons_self))
      rw [answers, answersOn_cons_of_ne hne, opsOn_cons_of_ne hne]
      exact ih hagree hops hrest

end Agree

/-! ### The order between blocks -/

section Order

variable {b : Builder} {ops ops' : List Op}

theorem mem_of_opsOn (hops : ∀ op ∈ ops, ∃ id, op.fills? = some id)
    (hsame : ∀ id, opsOn id ops = opsOn id ops') {op : Op} (hop : op ∈ ops) : op ∈ ops' := by
  obtain ⟨id, hid⟩ := hops op hop
  have hmem : op ∈ opsOn id ops := List.mem_filter.mpr ⟨hop, decide_eq_true hid⟩
  rw [hsame] at hmem
  exact List.mem_of_mem_filter hmem

theorem data_performAll_of_fills (hops : ∀ op ∈ ops, ∃ id, op.fills? = some id) :
    (b.performAll ops).data = b.data := by
  induction ops generalizing b with
  | nil => rfl
  | cons op ops ih =>
    obtain ⟨⟨id, hop⟩, hops⟩ := List.forall_mem_cons.mp hops
    exact (ih hops).trans (elsewhere hop b).data

/-- The labels that are placed in a block or nowhere belong to the block. -/
def Own (b : Builder) (ops : List Op) (id : BlockId) (l : Label) : Prop :=
  l.number < b.labels.length → ∀ id', .placeLabel id' l ∈ ops → id' = id

/-- Every label belongs to some block. -/
theorem PlacedApart.own (h : b.PlacedApart ops) (l : Label) : ∃ id, b.Own ops id l := by
  by_cases hplaced : ∃ id, .placeLabel id l ∈ ops
  · obtain ⟨id, hid⟩ := hplaced
    exact ⟨id, fun hl id' hid' => h id' id l hl hid' hid⟩
  · exact ⟨⟨0⟩, fun _ id' hid' => absurd ⟨id', hid'⟩ hplaced⟩

/-- **A builder does not show the order in which its blocks were filled.** -/
theorem performAll_eq_of_opsOn (hops : ∀ op ∈ ops, ∃ id, op.fills? = some id)
    (hops' : ∀ op ∈ ops', ∃ id, op.fills? = some id) (hapart : b.PlacedApart ops)
    (hsame : ∀ id, opsOn id ops = opsOn id ops') :
    (∀ id, answersOn id (b.answers ops) = answersOn id (b.answers ops')) ∧
      b.performAll ops = b.performAll ops' := by
  have hown' : ∀ id l, b.Own ops id l → b.Own ops' id l := fun id l h hl id' hid' =>
    h hl id' (mem_of_opsOn hops' (fun id => (hsame id).symm) hid')
  -- for each block, both sequences are compared with the operations on that block alone
  have hleft := fun id => (Agree.refl id (b.Own ops id) b).performAll hops fun l hl => hl
  have hright := fun id => (Agree.refl id (b.Own ops id) b).performAll hops' fun l hl => hown' id l hl
  have hagree : ∀ id, (b.performAll ops).blocks[id.number]? = (b.performAll ops').blocks[id.number]? ∧
      ∀ l, b.Own ops id l → (b.performAll ops).labels[l.number]? = (b.performAll ops').labels[l.number]? := by
    intro id
    have hl := (hleft id).2
    have hr := (hright id).2
    rw [hsame id] at hl
    exact ⟨hl.block.trans hr.block.symm, fun l hown => (hl.label l hown).trans (hr.label l hown).symm⟩
  refine ⟨fun id => ?_, ?_⟩
  · rw [(hleft id).1, (hright id).1, hsame id]
  · have hblocks : (b.performAll ops).blocks = (b.performAll ops').blocks :=
      List.ext_getElem? fun k => (hagree ⟨k⟩).1
    have hlabels : (b.performAll ops).labels = (b.performAll ops').labels := by
      refine List.ext_getElem? fun k => ?_
      obtain ⟨id, hid⟩ := hapart.own ⟨k⟩
      exact (hagree id).2 ⟨k⟩ hid
    have hdata := (data_performAll_of_fills (b := b) hops).trans (data_performAll_of_fills hops').symm
    cases hb : b.performAll ops
    cases hc : b.performAll ops'
    rw [hb, hc] at hblocks hlabels hdata
    cases hblocks
    cases hlabels
    cases hdata
    rfl

end Order

/-- **Blocks may be filled in any order.** Two sequences of operations that fill blocks, whether they
succeed or not, have the same operations on each block in the same order, and no label is placed in
two blocks, which it is not if no label is placed twice (`placedApart_of_nodup`). Then from any
builder every operation answers the same in both sequences, and what is built is linked to the same
image, or cannot be linked for the same reason. -/
theorem blocks_filled_in_any_order (b : Builder) {ops ops' : List Op}
    (hops : ∀ op ∈ ops, ∃ id, op.fills? = some id) (hops' : ∀ op ∈ ops', ∃ id, op.fills? = some id)
    (hapart : b.PlacedApart ops) (hsame : ∀ id, opsOn id ops = opsOn id ops') :
    (∀ id, answersOn id (b.answers ops) = answersOn id (b.answers ops')) ∧
      (b.performAll ops).link = (b.performAll ops').link := by
  obtain ⟨hanswers, hbuilder⟩ := performAll_eq_of_opsOn hops hops' hapart hsame
  exact ⟨hanswers, congrArg link hbuilder⟩

/-- Two blocks are filled in turn, and one after the other. In the first a jump to a label that is
placed in the second, in the second an instruction that cannot be emitted. -/
theorem blocks_filled_in_any_order_in_turn :
    let b := performAll {} [.createBlock, .createBlock, .newLabel]
    let ops : List Op :=
      [.emit ⟨1⟩ .pushUnit [], .emit ⟨0⟩ .jmp [.label ⟨2⟩], .emit ⟨1⟩ .jmp [], .placeLabel ⟨1⟩ ⟨2⟩,
        .placeLabel ⟨0⟩ ⟨7⟩, .emitInt ⟨1⟩ 5]
    let ops' : List Op :=
      [.emit ⟨0⟩ .jmp [.label ⟨2⟩], .placeLabel ⟨0⟩ ⟨7⟩, .emit ⟨1⟩ .pushUnit [], .emit ⟨1⟩ .jmp [],
        .placeLabel ⟨1⟩ ⟨2⟩, .emitInt ⟨1⟩ 5]
    let img : Image := ⟨[14, 0, 0, 0, 20, 10, 0, 0, 0, 10, 5, 0, 0, 0], 14⟩
    answersOn ⟨1⟩ (b.answers ops') =
      [(.emit ⟨1⟩ .pushUnit [], .done), (.emit ⟨1⟩ .jmp [], .refused (.operandMismatch .jmp)),
        (.placeLabel ⟨1⟩ ⟨2⟩, .done), (.emitInt ⟨1⟩ 5, .done)] ∧
      (b.performAll ops).link = (b.performAll ops').link ∧ (b.performAll ops').link = .ok img := by
  intro b ops ops' img
  have hsame : ∀ id, opsOn id ops = opsOn id ops' := by
    intro id
    by_cases h0 : id = ⟨0⟩
    · subst h0
      rfl
    · by_cases h1 : id = ⟨1⟩
      · subst h1
        rfl
      · simp [ops, ops', opsOn, Op.fills?, Op.emits?, Ne.symm h0, Ne.symm h1]
  have hops : ∀ op ∈ ops, ∃ id, op.fills? = some id := by simp [ops, Op.fills?, Op.emits?]
  have hops' : ∀ op ∈ ops', ∃ id, op.fills? = some id := by simp [ops', Op.fills?, Op.emits?]
  obtain ⟨hanswers, hlink⟩ := blocks_filled_in_any_order b hops hops' (placedApart_of_nodup b (by decide)) hsame
  rw [← hanswers]
  exact ⟨rfl, hlink, by decide⟩

/-- A label that is placed in two blocks stands where it was placed last, so the order matters. -/
example :
    let b := performAll {} [.createBlock, .createBlock, .newLabel, .emit ⟨0⟩ .jmp [.label ⟨2⟩]]
    (b.performAll [.emit ⟨1⟩ .pushUnit [], .placeLabel ⟨0⟩ ⟨2⟩, .placeLabel ⟨1⟩ ⟨2⟩]).link ≠
      (b.performAll [.emit ⟨1⟩ .pushUnit [], .placeLabel ⟨1⟩ ⟨2⟩, .placeLabel ⟨0⟩ ⟨2⟩]).link := by
  decide

end StackCode.Builder
