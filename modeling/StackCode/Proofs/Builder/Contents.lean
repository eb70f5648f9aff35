import StackCode.Builder.Op
import StackCode.Link
import StackCode.Proofs.Result
import Mathlib.Data.List.Induction

/-!
# What was emitted

A builder keeps bytes with holes and a list of the holes. What a program that uses it thinks
of is simpler: into every block it has emitted instructions and operands, one after the
other, and into the pool it has put data. This module reads that off the operations alone
(`contents`, `pool`) and proves that the builder is nothing but a record of it: the bytes of
a block, and the places that linking has to fill in, are those of what was emitted
(`performAll_blocks`), and a label stands where the last operation that placed it has put it
(`place?_performAll`).
-/

namespace StackCode.Builder

/-! ### The parts of code -/

/-- A part of the code in a block. -/
inductive Part where
  /-- Bytes as they are. -/
  | bytes (bs : List UInt8)
  /-- The address of a label. -/
  | label (l : Label)
  /-- The address of an item of data. -/
  | data (d : DataRef)

namespace Part

/-- How many bytes a part takes. -/
def size : Part → Nat
  | bytes bs => bs.length
  | _ => Word.size

/-- The bytes of a part as long as addresses are missing. -/
def blank : Part → List UInt8
  | bytes bs => bs
  | _ => Word.bytes 0

/-- The label that a part refers to. -/
def label? : Part → Option Label
  | label l => some l
  | _ => none

/-- The item of data that a part refers to. -/
def data? : Part → Option DataRef
  | data d => some d
  | _ => none

@[simp] theorem blank_bytes (bs : List UInt8) : (bytes bs).blank = bs := rfl
@[simp] theorem blank_label (l : Label) : (label l).blank = Word.bytes 0 := rfl
@[simp] theorem blank_data (d : DataRef) : (data d).blank = Word.bytes 0 := rfl

@[simp] theorem label?_bytes (bs : List UInt8) : (bytes bs).label? = none := rfl
@[simp] theorem label?_label (l : Label) : (label l).label? = some l := rfl
@[simp] theorem label?_data (d : DataRef) : (data d).label? = none := rfl

@[simp] theorem data?_bytes (bs : List UInt8) : (bytes bs).data? = none := rfl
@[simp] theorem data?_label (l : Label) : (label l).data? = none := rfl
@[simp] theorem data?_data (d : DataRef) : (data d).data? = some d := rfl

@[simp] theorem length_blank (p : Part) : p.blank.length = p.size := by cases p <;> rfl

end Part

/-- How many bytes parts take. -/
def extent : List Part → Nat
  | [] => 0
  | p :: ps => p.size + extent ps

@[simp] theorem length_flatMap_blank (ps : List Part) : (ps.flatMap Part.blank).length = extent ps := by
  induction ps with
  | nil => rfl
  | cons p ps ih => simp [extent, ih]

@[simp] theorem extent_append (ps qs : List Part) : extent (ps ++ qs) = extent ps + extent qs := by
  rw [← length_flatMap_blank, List.flatMap_append, List.length_append, length_flatMap_blank,
    length_flatMap_blank]

/-- Where the selected ones among parts stand, if the first of all parts stands at an offset. -/
def sites {α : Type} (select : Part → Option α) : Nat → List Part → List (Nat × α)
  | _, [] => []
  | k, p :: ps => ((select p).map fun a => (k, a)).toList ++ sites select (k + p.size) ps

theorem sites_append {α : Type} (select : Part → Option α) (k : Nat) (ps qs : List Part) :
    sites select k (ps ++ qs) = sites select k ps ++ sites select (k + extent ps) qs := by
  induction ps generalizing k with
  | nil => simp [sites, extent]
  | cons p ps ih => simp [sites, extent, ih, Nat.add_assoc]

/-- What stands at a site stands behind the parts before it. -/
theorem mem_sites {α : Type} {select : Part → Option α} {k slot : Nat} {ps : List Part} {a : α}
    (h : (slot, a) ∈ sites select k ps) :
    ∃ before p after, ps = before ++ p :: after ∧ select p = some a ∧ slot = k + extent before := by
  induction ps generalizing k with
  | nil => cases h
  | cons p ps ih =>
    rw [sites, List.mem_append] at h
    rcases h with h | h
    · cases hp : select p with
      | none => simp [hp] at h
      | some b =>
        simp only [hp, Option.map_some, Option.toList_some, List.mem_singleton, Prod.mk.injEq] at h
        obtain ⟨rfl, rfl⟩ := h
        exact ⟨[], p, ps, rfl, hp, rfl⟩
    · obtain ⟨before, q, after, rfl, hq, rfl⟩ := ih h
      exact ⟨p :: before, q, after, rfl, hq, by simp only [extent]; omega⟩

/-! ### Blocks made of parts -/

namespace Block

/-- The block that is made of parts. -/
def ofParts (start : Label) (ps : List Part) : Block where
  start := start
  code := ps.flatMap Part.blank
  labelRefs := sites Part.label? 0 ps
  dataRefs := sites Part.data? 0 ps

@[simp] theorem size_ofParts (start : Label) (ps : List Part) : (ofParts start ps).size = extent ps :=
  length_flatMap_blank ps

theorem ofParts_append (start : Label) (ps qs : List Part) :
    ofParts start (ps ++ qs) =
      { start := start
        code := (ofParts start ps).code ++ qs.flatMap Part.blank
        labelRefs := (ofParts start ps).labelRefs ++ sites Part.label? (extent ps) qs
        dataRefs := (ofParts start ps).dataRefs ++ sites Part.data? (extent ps) qs } := by
  simp [ofParts, sites_append]

theorem bytes_ofParts (start : Label) (ps : List Part) (bs : List UInt8) :
    (ofParts start ps).bytes bs = ofParts start (ps ++ [.bytes bs]) := by
  rw [ofParts_append]
  simp [bytes, ofParts, sites]

theorem labelRef_ofParts (start : Label) (ps : List Part) (l : Label) :
    (ofParts start ps).labelRef l = ofParts start (ps ++ [.label l]) := by
  rw [labelRef, size_ofParts, ofParts_append]
  simp [int, bytes, ofParts, sites]

theorem dataRef_ofParts (start : Label) (ps : List Part) (d : DataRef) :
    (ofParts start ps).dataRef d = ofParts start (ps ++ [.data d]) := by
  rw [dataRef, size_ofParts, ofParts_append]
  simp [int, bytes, ofParts, sites]

end Block

/-- The parts that an argument makes. -/
def Argument.parts : Argument → List Part
  | .int n => [.bytes (Word.bytes n)]
  | .label l => [.label l]
  | .data d => [.data d]
  | .text bs => [.bytes (bs ++ [0])]
  | .table ls => .bytes (Word.bytes (Int32.ofNat ls.length)) :: ls.map .label

namespace Block

theorem foldl_labelRef_ofParts (start : Label) (ps : List Part) (ls : List Label) :
    ls.foldl labelRef (ofParts start ps) = ofParts start (ps ++ ls.map .label) := by
  induction ls generalizing ps with
  | nil => simp
  | cons l ls ih => rw [List.foldl_cons, labelRef_ofParts, ih, List.map_cons, ← List.append_cons]

theorem argument_ofParts (start : Label) (ps : List Part) (arg : Argument) :
    (ofParts start ps).argument arg = ofParts start (ps ++ arg.parts) := by
  cases arg with
  | int n => exact bytes_ofParts ..
  | label l => exact labelRef_ofParts ..
  | data d => exact dataRef_ofParts ..
  | text bs => exact bytes_ofParts ..
  | table ls =>
    rw [argument, int, bytes_ofParts, foldl_labelRef_ofParts, Argument.parts, ← List.append_cons]

theorem foldl_argument_ofParts (start : Label) (ps : List Part) (args : List Argument) :
    args.foldl argument (ofParts start ps) = ofParts start (ps ++ args.flatMap Argument.parts) := by
  induction args generalizing ps with
  | nil => simp
  | cons arg args ih =>
    rw [List.foldl_cons, argument_ofParts, ih, List.flatMap_cons, List.append_assoc]

end Block

/-! ### Emissions -/

/-- Something that is emitted into a block in one go. -/
inductive Emission where
  /-- An instruction. -/
  | instruction (op : Opcode) (args : List Argument)
  /-- An operand without an instruction. -/
  | operand (arg : Argument)

/-- The parts that an emission makes. -/
def Emission.parts : Emission → List Part
  | instruction op args => .bytes [op.byte] :: args.flatMap Argument.parts
  | operand arg => arg.parts

/-- A block with an emission added. -/
def Block.add (b : Block) : Emission → Block
  | .instruction op args => b.instruction op args
  | .operand arg => b.argument arg

theorem Block.add_ofParts (start : Label) (ps : List Part) (e : Emission) :
    (ofParts start ps).add e = ofParts start (ps ++ e.parts) := by
  cases e with
  | instruction op args =>
    rw [add, Block.instruction, bytes_ofParts, foldl_argument_ofParts, Emission.parts,
      ← List.append_cons]
  | operand arg => exact argument_ofParts ..

theorem Block.foldl_add_ofParts (start : Label) (ps : List Part) (es : List Emission) :
    es.foldl add (ofParts start ps) = ofParts start (ps ++ es.flatMap Emission.parts) := by
  induction es generalizing ps with
  | nil => simp
  | cons e es ih => rw [List.foldl_cons, add_ofParts, ih, List.flatMap_cons, List.append_assoc]

/-- Whether an instruction can be emitted: its arguments are those of the signature and free
of NULs. -/
def emittable (i : Opcode × List Argument) : Bool :=
  fitAll i.2 i.1.signature && !i.2.any Argument.hasNul

/-- What is emitted of a sequence of instructions: those before the first that cannot be. -/
def emittedOf (code : List (Opcode × List Argument)) : List Emission :=
  (code.takeWhile emittable).map fun (op, args) => .instruction op args

/-- What an operation emits, and into which block. -/
def Op.emits? : Op → Option (BlockId × List Emission)
  | .emit id op args => some (id, emittedOf [(op, args)])
  | .emitInt id n => some (id, [.operand (.int n)])
  | .emitLabelRef id l => some (id, [.operand (.label l)])
  | .emitDataRef id d => some (id, [.operand (.data d)])
  | .emitPrintln id => some (id, emittedOf println)
  | .emitPrintString id s => some (id, emittedOf (printString s))
  | .emitPrintLiteralVar id depth slot => some (id, emittedOf (printLiteralVar depth slot))
  | .emitFatalError id message code => some (id, emittedOf (fatalError message code))
  | _ => none

/-- What an operation puts into the pool. -/
def Op.pooled : Op → List UInt8
  | .writeData bs => bs
  | .writeString s => stringBytes s
  | .writeInt n => Word.bytes n
  | .writeTypeRecord name constructors => recordBytes name constructors
  | _ => []

/-- The emissions in each block, in the order in which the blocks were made, with what one more
operation emits. -/
def Op.record (blocks : List (List Emission)) (op : Op) : List (List Emission) :=
  match op with
  | .createBlock => blocks ++ [[]]
  | op =>
    match op.emits? with
    | some (id, es) => blocks.modify id.number (· ++ es)
    | none => blocks

/-- The emissions in each block after operations, in the order in which the blocks were made. -/
def contents (ops : List Op) : List (List Emission) := ops.foldl Op.record []

/-- The pool after operations. -/
def pool (ops : List Op) : List UInt8 := ops.flatMap Op.pooled

theorem Op.record_of_emits {op : Op} {id : BlockId} {es : List Emission}
    (h : op.emits? = some (id, es)) (blocks : List (List Emission)) :
    op.record blocks = blocks.modify id.number (· ++ es) := by
  cases op <;> cases h <;> rfl

theorem contents_concat (ops : List Op) (op : Op) :
    contents (ops ++ [op]) = op.record (contents ops) := by
  rw [contents, List.foldl_append]
  rfl

theorem pool_append (ops more : List Op) : pool (ops ++ more) = pool ops ++ pool more :=
  List.flatMap_append ..

theorem pool_cons (op : Op) (ops : List Op) : pool (op :: ops) = op.pooled ++ pool ops :=
  List.flatMap_cons ..

theorem performAll_concat (b : Builder) (ops : List Op) (op : Op) :
    b.performAll (ops ++ [op]) = ((b.performAll ops).perform op).2 := by
  rw [performAll, List.foldl_append]
  rfl

/-! ### What operations do to a builder -/

theorem emit_eq_ok_iff {b b' : Builder} {id : BlockId} {op : Opcode} {args : List Argument} :
    b.emit id op args = .ok b' ↔
      emittable (op, args) = true ∧ b' = b.modifyBlock id (·.instruction op args) := by
  unfold emit emittable
  cases fitAll args op.signature with
  | false => simp
  | true =>
    cases args.any Argument.hasNul with
    | true => simp
    | false => simp [eq_comm]

theorem modifyBlock_modifyBlock (b : Builder) (id : BlockId) (f g : Block → Block) :
    (b.modifyBlock id f).modifyBlock id g = b.modifyBlock id (fun block => g (f block)) := by
  simp only [modifyBlock, List.modify_modify_eq]
  rfl

theorem modifyBlock_self (b : Builder) (id : BlockId) : b.modifyBlock id (fun block => block) = b := by
  rw [modifyBlock]
  exact congrArg (fun blocks => { b with blocks := blocks }) (List.modify_id ..)

theorem emittedOf_cons_of_pos {op : Opcode} {args : List Argument}
    {code : List (Opcode × List Argument)} (h : emittable (op, args) = true) :
    emittedOf ((op, args) :: code) = .instruction op args :: emittedOf code := by
  rw [emittedOf, List.takeWhile_cons_of_pos h]
  rfl

theorem emittedOf_cons_of_neg {op : Opcode} {args : List Argument}
    {code : List (Opcode × List Argument)} (h : ¬ emittable (op, args) = true) :
    emittedOf ((op, args) :: code) = [] := by
  rw [emittedOf, List.takeWhile_cons_of_neg h]
  rfl

/-- Instructions are emitted one after the other up to the first that cannot be. -/
theorem emitAll_fst (b : Builder) (id : BlockId) (code : List (Opcode × List Argument)) :
    (b.emitAll id code).1 = b.modifyBlock id (fun block => (emittedOf code).foldl Block.add block) := by
  induction code generalizing b with
  | nil => exact (modifyBlock_self b id).symm
  | cons i code ih =>
    obtain ⟨op, args⟩ := i
    rw [emitAll]
    split
    · next b' hb' =>
      obtain ⟨he, rfl⟩ := emit_eq_ok_iff.mp hb'
      rw [ih, modifyBlock_modifyBlock, emittedOf_cons_of_pos he]
      rfl
    · next e hfail =>
      have he : ¬ emittable (op, args) = true := by
        intro he
        rw [emit_eq_ok_iff.mpr ⟨he, rfl⟩] at hfail
        cases hfail
      rw [emittedOf_cons_of_neg he]
      exact (modifyBlock_self b id).symm

theorem emitReply_snd (b : Builder) (id : BlockId) (code : List (Opcode × List Argument)) :
    (b.emitReply id code).2 = b.modifyBlock id (fun block => (emittedOf code).foldl Block.add block) := by
  rw [← emitAll_fst, emitReply]
  split <;> next h => rw [h]

/-- The operation puts a label at a place. -/
inductive Op.Places (b : Builder) : Op → Label → Place → Prop where
  /-- A block is made together with the label at its start. -/
  | start : Places b .createBlock ⟨b.labels.length⟩ ⟨⟨b.blocks.length⟩, 0⟩
  /-- A label is made at the end of a block. -/
  | mark (id : BlockId) : Places b (.markLabel id) ⟨b.labels.length⟩ ⟨id, b.offset id⟩
  /-- A label that exists is placed at the end of a block. -/
  | place {id : BlockId} {l : Label} (known : l.number < b.labels.length) :
    Places b (.placeLabel id l) l ⟨id, b.offset id⟩

/-- **What an operation can do to a builder.** -/
inductive Performed (b : Builder) : Op → Builder → Prop where
  /-- It makes a block. -/
  | created :
    Performed b .createBlock
      { b with
        blocks := b.blocks ++ [Block.ofParts ⟨b.labels.length⟩ []]
        labels := b.labels ++ [some ⟨⟨b.blocks.length⟩, 0⟩] }
  /-- It makes a label, at the end of a block or nowhere. -/
  | labelled {op : Op} {place : Option Place} (record : ∀ blocks, op.record blocks = blocks)
    (pooled : op.pooled = [])
    (places : ∀ l p, op.Places b l p ↔ l = ⟨b.labels.length⟩ ∧ place = some p) :
    Performed b op { b with labels := b.labels ++ [place] }
  /-- It places a label that exists. -/
  | placed {id : BlockId} {l : Label} (known : l.number < b.labels.length) :
    Performed b (.placeLabel id l)
      { b with labels := b.labels.set l.number (some ⟨id, b.offset id⟩) }
  /-- It emits into a block. -/
  | emitted {op : Op} {id : BlockId} {es : List Emission} (emits : op.emits? = some (id, es))
    (pooled : op.pooled = []) (places : ∀ l p, ¬ op.Places b l p) :
    Performed b op (b.modifyBlock id fun block => es.foldl Block.add block)
  /-- It changes nothing but the pool. -/
  | pooled {op : Op} (record : ∀ blocks, op.record blocks = blocks)
    (places : ∀ l p, ¬ op.Places b l p) :
    Performed b op { b with data := b.data ++ op.pooled }

theorem performed (b : Builder) (op : Op) : Performed b op (b.perform op).2 := by
  -- an operation without a trace leaves the pool as it is
  have hkept : ∀ {op}, (∀ blocks, op.record blocks = blocks) → (∀ l p, ¬ op.Places b l p) →
      op.pooled = [] → Performed b op b := by
    intro op hrecord hplaces hpooled
    have := Performed.pooled hrecord hplaces
    rwa [hpooled, List.append_nil] at this
  cases op with
  | createBlock => exact .created
  | newLabel => exact .labelled (fun _ => rfl) rfl fun l p => ⟨nofun, fun h => nomatch h.2⟩
  | markLabel id =>
    refine .labelled (fun _ => rfl) rfl fun l p => ⟨?_, ?_⟩
    · rintro ⟨⟩
      exact ⟨rfl, rfl⟩
    · rintro ⟨rfl, ⟨⟩⟩
      exact .mark id
  | placeLabel id l =>
    simp only [perform, placeLabel]
    by_cases h : l.number < b.labels.length
    · rw [if_pos h]
      exact .placed h
    · rw [if_neg h]
      refine hkept (fun _ => rfl) (fun k p hp => ?_) rfl
      cases hp with
      | place known => exact h known
  | startLabel id | offset id => exact hkept (fun _ => rfl) nofun rfl
  | emit id op args =>
    exact (emitReply_snd b id _).symm ▸ .emitted rfl rfl nofun
  | emitPrintln id | emitPrintString id s | emitPrintLiteralVar id depth slot
    | emitFatalError id message code =>
    exact (emitReply_snd b id _).symm ▸ .emitted rfl rfl nofun
  | emitInt id n => exact @Performed.emitted b _ id [.operand (.int n)] rfl rfl nofun
  | emitLabelRef id l => exact @Performed.emitted b _ id [.operand (.label l)] rfl rfl nofun
  | emitDataRef id d => exact @Performed.emitted b _ id [.operand (.data d)] rfl rfl nofun
  | writeData bs | writeString s | writeInt n | writeTypeRecord name constructors =>
    exact .pooled (fun _ => rfl) nofun

/-! ### The builder records what was emitted -/

/-- A block contains emissions and nothing else. -/
def Block.Contains (block : Block) (es : List Emission) : Prop :=
  ∃ start, block = ofParts start (es.flatMap Emission.parts)

theorem Block.Contains.add {block : Block} {es : List Emission} (h : block.Contains es)
    (more : List Emission) : (more.foldl Block.add block).Contains (es ++ more) := by
  obtain ⟨start, rfl⟩ := h
  exact ⟨start, by rw [foldl_add_ofParts, List.flatMap_append]⟩

theorem Performed.contains {b b' : Builder} {op : Op} {blocks : List (List Emission)}
    (h : Performed b op b') (hb : List.Forall₂ Block.Contains b.blocks blocks) :
    List.Forall₂ Block.Contains b'.blocks (op.record blocks) := by
  cases h with
  | created => exact Result.forall₂_concat hb ⟨_, rfl⟩
  | labelled record => rwa [record]
  | placed => exact hb
  | emitted emits =>
    rw [Op.record_of_emits emits]
    exact Result.forall₂_modify (fun _ _ hblock => hblock.add _) hb _
  | pooled record => rwa [record]

/-- **The blocks of a builder contain what was emitted into them.** -/
theorem performAll_blocks (ops : List Op) :
    List.Forall₂ Block.Contains (performAll {} ops).blocks (contents ops) := by
  induction ops using List.reverseRecOn with
  | nil => exact .nil
  | append_singleton ops op ih =>
    rw [performAll_concat, contents_concat]
    exact (performed _ op).contains ih

theorem Performed.data {b b' : Builder} {op : Op} (h : Performed b op b') :
    b'.data = b.data ++ op.pooled := by
  cases h with
  | created | placed => exact (List.append_nil _).symm
  | labelled _ pooled | emitted _ pooled =>
    rw [pooled]
    exact (List.append_nil _).symm
  | pooled => rfl

/-- **The pool of a builder is what was put into it.** -/
theorem performAll_data (ops : List Op) : (performAll {} ops).data = pool ops := by
  induction ops using List.reverseRecOn with
  | nil => rfl
  | append_singleton ops op ih =>
    rw [performAll_concat, (performed _ op).data, ih, pool_append, pool_cons]
    exact congrArg _ (List.append_nil _).symm

/-! ### Labels -/

/-- After operations a label stands at a place: that of the last operation that placed it. -/
inductive Stands : List Op → Label → Place → Prop where
  /-- The last operation placed it there. -/
  | placed {ops : List Op} {op : Op} {l : Label} {p : Place} :
    op.Places (performAll {} ops) l p → Stands (ops ++ [op]) l p
  /-- It stood there before, and the last operation did not place it. -/
  | kept {ops : List Op} {op : Op} {l : Label} {p : Place} :
    Stands ops l p → (∀ q, ¬ op.Places (performAll {} ops) l q) → Stands (ops ++ [op]) l p

theorem places_createBlock {b : Builder} {l : Label} {p : Place} :
    Op.Places b .createBlock l p ↔
      l = ⟨b.labels.length⟩ ∧ some ⟨⟨b.blocks.length⟩, 0⟩ = some p := by
  constructor
  · rintro ⟨⟩
    exact ⟨rfl, rfl⟩
  · rintro ⟨rfl, ⟨⟩⟩
    exact .start

/-- An operation that makes a label and puts it somewhere or nowhere. -/
theorem place?_of_concat {b b' : Builder} {op : Op} {place : Option Place}
    (hlabels : b'.labels = b.labels ++ [place])
    (hplaces : ∀ l p, op.Places b l p ↔ l = ⟨b.labels.length⟩ ∧ place = some p)
    (l : Label) (p : Place) :
    b'.place? l = some p ↔
      op.Places b l p ∨ (∀ q, ¬ op.Places b l q) ∧ b.place? l = some p := by
  simp only [hplaces, place?, hlabels]
  by_cases hl : l = ⟨b.labels.length⟩
  · subst hl
    simp
  · have hnumber : l.number ≠ b.labels.length := fun h => hl (congrArg Label.mk h)
    have hget : (b.labels ++ [place])[l.number]? = b.labels[l.number]? := by
      rw [List.getElem?_append]
      split
      · rfl
      · rw [List.getElem?_eq_none (by simp; omega), List.getElem?_eq_none (by omega)]
    simp [hl, hget]

theorem Performed.place? {b b' : Builder} {op : Op} (h : Performed b op b') (l : Label) (p : Place) :
    b'.place? l = some p ↔
      op.Places b l p ∨ (∀ q, ¬ op.Places b l q) ∧ b.place? l = some p := by
  cases h with
  | created => exact place?_of_concat rfl (fun _ _ => places_createBlock) l p
  | labelled _ _ places => exact place?_of_concat rfl places l p
  | @placed id k known =>
    have hplaces : ∀ l q, Op.Places b (.placeLabel id k) l q ↔ l = k ∧ q = ⟨id, b.offset id⟩ := by
      intro l q
      constructor
      · rintro ⟨⟩
        exact ⟨rfl, rfl⟩
      · rintro ⟨rfl, rfl⟩
        exact .place known
    simp only [hplaces, Builder.place?]
    by_cases hl : l = k
    · subst hl
      simp [known, eq_comm]
    · have hnumber : k.number ≠ l.number := fun h => hl (congrArg Label.mk h.symm)
      simp [hl, List.getElem?_set_ne hnumber]
  | emitted _ _ places | pooled _ places =>
    simp only [places, false_or, not_false_eq_true, implies_true, true_and]
    rfl

theorem not_stands_nil {l : Label} {p : Place} : ¬ Stands [] l p := by
  intro h
  generalize hops : ([] : List Op) = ops at h
  cases h <;> simp at hops

theorem stands_concat_iff {ops : List Op} {op : Op} {l : Label} {p : Place} :
    Stands (ops ++ [op]) l p ↔
      op.Places (performAll {} ops) l p ∨
        (∀ q, ¬ op.Places (performAll {} ops) l q) ∧ Stands ops l p := by
  constructor
  · intro h
    generalize hops : ops ++ [op] = ops' at h
    cases h with
    | placed hp =>
      obtain ⟨rfl, hop⟩ := List.append_inj' hops rfl
      cases hop
      exact .inl hp
    | kept hp hnot =>
      obtain ⟨rfl, hop⟩ := List.append_inj' hops rfl
      cases hop
      exact .inr ⟨hnot, hp⟩
  · rintro (hp | ⟨hnot, hp⟩)
    · exact .placed hp
    · exact .kept hp hnot

/-- **A label stands where the last operation that placed it has put it.** -/
theorem place?_performAll {ops : List Op} {l : Label} {p : Place} :
    (performAll {} ops).place? l = some p ↔ Stands ops l p := by
  induction ops using List.reverseRecOn generalizing p with
  | nil => simp [place?, performAll, not_stands_nil]
  | append_singleton ops op ih =>
    rw [performAll_concat, (performed _ op).place?, stands_concat_iff, ih]

/-- The offset of the next byte of a block is the size of what is in it. -/
theorem offset_performAll (ops : List Op) (id : BlockId) :
    (performAll {} ops).offset id =
      extent (((contents ops)[id.number]?.getD []).flatMap Emission.parts) := by
  have hcontains := performAll_blocks ops
  rw [offset]
  cases hblock : (performAll {} ops).blocks[id.number]? with
  | some block =>
    obtain ⟨es, hes, start, rfl⟩ := Result.exists_getElem?_of_forall₂ hcontains hblock
    simp [hes]
  | none =>
    have hlength := List.getElem?_eq_none_iff.mp hblock
    rw [hcontains.length_eq] at hlength
    simp [List.getElem?_eq_none hlength, extent]

/-- What is in a block stays there, and more may be added behind it. -/
theorem Performed.getElem?_record {b b' : Builder} {op : Op} (h : Performed b op b')
    {blocks : List (List Emission)} {k : Nat} {es : List Emission} (hk : blocks[k]? = some es) :
    ∃ more, (op.record blocks)[k]? = some (es ++ more) := by
  cases h with
  | created =>
    refine ⟨[], ?_⟩
    rw [Op.record, List.getElem?_append_left (List.getElem?_eq_some_iff.mp hk).1, hk, List.append_nil]
  | placed => exact ⟨[], hk.trans (congrArg some (List.append_nil es).symm)⟩
  | labelled record | pooled record => exact ⟨[], by rw [record, hk, List.append_nil]⟩
  | @emitted _ id more emits =>
    rw [Op.record_of_emits emits, List.getElem?_modify, hk]
    by_cases hid : id.number = k
    · exact ⟨more, by simp [hid]⟩
    · exact ⟨[], by simp [hid]⟩

theorem Performed.record_grows {b b' : Builder} {op : Op} (h : Performed b op b')
    (blocks : List (List Emission)) (k : Nat) :
    ∃ more, (op.record blocks)[k]?.getD [] = blocks[k]?.getD [] ++ more := by
  cases hk : blocks[k]? with
  | none => exact ⟨_, rfl⟩
  | some es =>
    obtain ⟨more, hmore⟩ := h.getElem?_record hk
    exact ⟨more, by rw [hmore, Option.getD_some, Option.getD_some]⟩

/-- What operations have emitted into a block stays there through all later ones. -/
theorem getElem?_contents_append {ops : List Op} {k : Nat} {es : List Emission}
    (hk : (contents ops)[k]? = some es) (later : List Op) :
    ∃ more, (contents (ops ++ later))[k]? = some (es ++ more) := by
  induction later using List.reverseRecOn with
  | nil => exact ⟨[], by rw [List.append_nil, List.append_nil, hk]⟩
  | append_singleton later op ih =>
    obtain ⟨more, hmore⟩ := ih
    obtain ⟨last, hlast⟩ := (performed (performAll {} (ops ++ later)) op).getElem?_record hmore
    exact ⟨more ++ last, by rw [← List.append_assoc, contents_concat, hlast, List.append_assoc]⟩

/-- **A label stands between emissions**, or at the start of a block that does not exist. -/
theorem Stands.boundary {ops : List Op} {l : Label} {p : Place} (h : Stands ops l p) :
    ∃ before after, (contents ops)[p.block.number]?.getD [] = before ++ after ∧
      p.offset = extent (before.flatMap Emission.parts) := by
  induction h with
  | @placed ops op l p hp =>
    rw [contents_concat]
    obtain ⟨more, hmore⟩ := (performed (performAll {} ops) op).record_grows (contents ops) p.block.number
    rw [hmore]
    refine ⟨_, more, rfl, ?_⟩
    cases hp with
    | start =>
      rw [List.getElem?_eq_none (Nat.le_of_eq (performAll_blocks ops).length_eq.symm)]
      rfl
    | mark id => exact offset_performAll ops id
    | place known => exact offset_performAll ops _
  | @kept ops op l p _ _ ih =>
    obtain ⟨before, after, hcontents, ho⟩ := ih
    rw [contents_concat]
    obtain ⟨more, hmore⟩ := (performed (performAll {} ops) op).record_grows (contents ops) p.block.number
    exact ⟨before, after ++ more, by rw [hmore, hcontents, List.append_assoc], ho⟩

end StackCode.Builder
