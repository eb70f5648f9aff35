import StackCode.Proofs.Builder.Relocation
import StackCode.Proofs.Listing.Lines

/-!
# Emitted instructions and their encoding

A builder checks and lays out an instruction without the encoder, because its addresses are
not known yet. Both agree: an instruction is refused by the builder exactly if it has no
encoding whatever its addresses are (`emit_eq_error_iff`), and what linking makes of it is
its encoding with the addresses that it finds (`flatMap_linked`). So a program that emits
nothing but instructions can be listed, and the listing shows what was emitted
(`ofImage_of_link`).
-/

namespace StackCode

open Result

namespace Builder

/-! ### Arguments and operands -/

/-- An operand that an argument may become: a label or an item of data becomes any integer. -/
inductive Argument.Fills : Argument → Operand → Prop where
  | int (n : Int32) : Fills (.int n) (.int n)
  | label (l : Label) (n : Int32) : Fills (.label l) (.int n)
  | data (d : DataRef) (n : Int32) : Fills (.data d) (.int n)
  | text (bs : List UInt8) : Fills (.text bs) (.text bs)
  | table {ls : List Label} {ns : List Int32} (length : ns.length = ls.length) :
    Fills (.table ls) (.table ns)

/-- Whether an argument is a label or an item of data. -/
def Argument.isHandle : Argument → Bool
  | .label _ => true
  | .data _ => true
  | _ => false

/-- A label or an item of data stands where the signature wants a plain integer. -/
def Misplaced (args : List Argument) (kinds : List OperandKind) : Prop :=
  ∃ pair ∈ args.zip kinds, pair.1.isHandle = true ∧ pair.2 = .int

theorem misplaced_cons {arg : Argument} {args : List Argument} {kind : OperandKind}
    {kinds : List OperandKind} :
    Misplaced (arg :: args) (kind :: kinds) ↔
      (arg.isHandle = true ∧ kind = .int) ∨ Misplaced args kinds := by
  simp [Misplaced]

theorem Argument.Fills.fits_eq {arg : Argument} {o : Operand} (h : arg.Fills o) {kind : OperandKind}
    (hplaced : ¬ (arg.isHandle = true ∧ kind = .int)) : o.fits kind = arg.fits kind := by
  cases h <;> cases kind <;> first | rfl | exact absurd ⟨rfl, rfl⟩ hplaced

theorem Argument.Fills.hasNul_eq {arg : Argument} {o : Operand} (h : arg.Fills o) :
    o.hasNul = arg.hasNul := by
  cases h <;> rfl

theorem not_fits_of_isHandle {arg : Argument} (h : arg.isHandle = true) : arg.fits .int = false := by
  cases arg <;> first | rfl | cases h

theorem fitAll_of_misplaced {args : List Argument} {kinds : List OperandKind}
    (h : Misplaced args kinds) : fitAll args kinds = false := by
  induction args generalizing kinds with
  | nil => simp [Misplaced] at h
  | cons arg args ih =>
    cases kinds with
    | nil => rfl
    | cons kind kinds =>
      rw [fitAll, Bool.and_eq_false_iff]
      rcases misplaced_cons.mp h with ⟨harg, rfl⟩ | h
      · exact .inl (not_fits_of_isHandle harg)
      · exact .inr (ih h)

theorem fitAll_of_fills {args : List Argument} {os : List Operand} {kinds : List OperandKind}
    (h : List.Forall₂ Argument.Fills args os) (hplaced : ¬ Misplaced args kinds) :
    Instruction.fitAll os kinds = fitAll args kinds := by
  induction h generalizing kinds with
  | nil => cases kinds <;> rfl
  | cons hfirst _ ih =>
    cases kinds with
    | nil => rfl
    | cons kind kinds =>
      rw [misplaced_cons, not_or] at hplaced
      rw [Instruction.fitAll, fitAll, hfirst.fits_eq hplaced.1, ih hplaced.2]

theorem any_hasNul_of_fills {args : List Argument} {os : List Operand}
    (h : List.Forall₂ Argument.Fills args os) :
    os.any Operand.hasNul = args.any Argument.hasNul := by
  induction h with
  | nil => rfl
  | cons hfirst _ ih => rw [List.any_cons, List.any_cons, hfirst.hasNul_eq, ih]

/-! ### Refused instructions -/

theorem emit_of_misplaced {b : Builder} {id : BlockId} {op : Opcode} {args : List Argument}
    (h : Misplaced args op.signature) : b.emit id op args = .error (.operandMismatch op) := by
  rw [emit, fitAll_of_misplaced h]
  rfl

/-- An instruction without misplaced arguments is refused exactly if it has no encoding. -/
theorem emit_eq_error_iff {b : Builder} {id : BlockId} {op : Opcode} {args : List Argument}
    {os : List Operand} (h : List.Forall₂ Argument.Fills args os)
    (hplaced : ¬ Misplaced args op.signature) {e : CodecError} :
    b.emit id op args = .error e ↔ Instruction.encode ⟨op, os⟩ = .error e := by
  unfold emit Instruction.encode
  simp only [fitAll_of_fills h hplaced, any_hasNul_of_fills h]
  split
  · rw [Except.error.injEq, Except.error.injEq]
  · split
    · rw [Except.error.injEq, Except.error.injEq]
    · exact ⟨nofun, nofun⟩

/-- Emitting one instruction, as an operation. -/
theorem perform_emit_eq {b : Builder} {id : BlockId} {op : Opcode} {args : List Argument} :
    b.perform (.emit id op args) =
      match b.emit id op args with
      | .ok b' => (.done, b')
      | .error e => (.refused e, b) := by
  simp only [perform, emitReply, emitAll]
  cases b.emit id op args <;> rfl

theorem refused_iff {b : Builder} {id : BlockId} {op : Opcode} {args : List Argument} {e : CodecError} :
    (b.perform (.emit id op args)).1 = .refused e ↔ b.emit id op args = .error e := by
  rw [perform_emit_eq]
  cases b.emit id op args <;> simp

/-! ### Emitted instructions -/

/-- The operand that an argument becomes when it is linked. -/
def Argument.resolved (b : Builder) : Argument → Operand
  | .int n => .int n
  | .label l => .int (Int32.ofNat (b.position l))
  | .data d => .int (Int32.ofNat (b.dataOffset + d.offset))
  | .text bs => .text bs
  | .table ls => .table (ls.map fun l => Int32.ofNat (b.position l))

theorem Argument.fills_resolved (b : Builder) (arg : Argument) : arg.Fills (arg.resolved b) := by
  cases arg with
  | int n => exact .int n
  | label l => exact .label l _
  | data d => exact .data d _
  | text bs => exact .text bs
  | table ls => exact .table (List.length_map _)

theorem forall₂_fills_resolved (b : Builder) (args : List Argument) :
    List.Forall₂ Argument.Fills args (args.map (Argument.resolved b)) := by
  induction args with
  | nil => exact .nil
  | cons arg args ih => exact .cons (arg.fills_resolved b) ih

/-- The instruction that an emission becomes when it is linked. -/
def Emission.instruction? (b : Builder) : Emission → Option Instruction
  | .instruction op args => some ⟨op, args.map (Argument.resolved b)⟩
  | .operand _ => none

/-- The instructions that emissions become when they are linked. -/
def instructionsOf (b : Builder) (es : List Emission) : List Instruction :=
  es.filterMap (Emission.instruction? b)

theorem instructionsOf_append (b : Builder) (es more : List Emission) :
    instructionsOf b (es ++ more) = instructionsOf b es ++ instructionsOf b more :=
  List.filterMap_append

/-- An emission that is an instruction and was not refused. -/
def Emission.Whole : Emission → Prop
  | .instruction op args => emittable (op, args) = true
  | .operand _ => False

theorem Argument.flatMap_linked (b : Builder) (arg : Argument) :
    arg.parts.flatMap (Part.linked b) = (arg.resolved b).bytes := by
  cases arg with
  | int n | label l | data d | text bs => exact List.append_nil _
  | table ls =>
    simp only [parts, resolved, Operand.bytes, List.flatMap_cons, List.flatMap_map, List.length_map]
    rfl

theorem Argument.flatMap_flatMap_linked (b : Builder) (args : List Argument) :
    (args.flatMap parts).flatMap (Part.linked b) = (args.map (resolved b)).flatMap Operand.bytes := by
  rw [List.flatMap_assoc, List.flatMap_map]
  exact congrArg (args.flatMap ·) (funext fun arg => arg.flatMap_linked b)

/-- Linking makes encodings of what was emitted. -/
theorem flatMap_linked {b : Builder} {es : List Emission} (h : ∀ e ∈ es, e.Whole) :
    (es.flatMap Emission.parts).flatMap (Part.linked b) =
      (instructionsOf b es).flatMap Instruction.bytes := by
  induction es with
  | nil => rfl
  | cons e es ih =>
    obtain ⟨he, hes⟩ := List.forall_mem_cons.mp h
    cases e with
    | operand arg => cases he
    | instruction op args =>
      rw [List.flatMap_cons, List.flatMap_append, ih hes, Emission.parts, List.flatMap_cons,
        Argument.flatMap_flatMap_linked]
      rfl

/-- Whether an operation emits an operand without an instruction. -/
def Op.isBare : Op → Bool
  | .emitInt _ _ => true
  | .emitLabelRef _ _ => true
  | .emitDataRef _ _ => true
  | _ => false

theorem whole_of_mem_emittedOf {code : List (Opcode × List Argument)} {e : Emission}
    (h : e ∈ emittedOf code) : e.Whole := by
  obtain ⟨i, hi, rfl⟩ := List.mem_map.mp h
  have hemittable := List.all_eq_true.mp List.all_takeWhile i hi
  exact hemittable

theorem whole_of_emits {op : Op} {id : BlockId} {es : List Emission} (hbare : op.isBare = false)
    (h : op.emits? = some (id, es)) : ∀ e ∈ es, e.Whole := by
  cases op <;> cases h
  case emit | emitPrintln | emitPrintString | emitPrintLiteralVar | emitFatalError =>
    exact fun _ => whole_of_mem_emittedOf
  case emitInt | emitLabelRef | emitDataRef => cases hbare

/-- What holds of everything that operations emit holds of everything in the blocks. -/
theorem Performed.forall_record {P : Emission → Prop} {b b' : Builder} {op : Op}
    (h : Performed b op b') (hop : ∀ id es, op.emits? = some (id, es) → ∀ e ∈ es, P e)
    {blocks : List (List Emission)} (hblocks : ∀ es ∈ blocks, ∀ e ∈ es, P e) :
    ∀ es ∈ op.record blocks, ∀ e ∈ es, P e := by
  cases h with
  | created =>
    rw [Op.record, List.forall_mem_append]
    exact ⟨hblocks, by simp⟩
  | placed => exact hblocks
  | labelled record | pooled record =>
    rw [record]
    exact hblocks
  | @emitted _ id more emits =>
    rw [Op.record_of_emits emits]
    intro es hes
    obtain ⟨k, hk⟩ := List.mem_iff_getElem?.mp hes
    rw [List.getElem?_modify, Option.map_eq_map, Option.map_eq_some_iff] at hk
    obtain ⟨old, hold, rfl⟩ := hk
    have hkept := hblocks old (List.mem_of_getElem? hold)
    split
    · exact List.forall_mem_append.mpr ⟨hkept, hop id more emits⟩
    · exact hkept

theorem forall_contents {P : Emission → Prop} {ops : List Op}
    (h : ∀ op ∈ ops, ∀ id es, op.emits? = some (id, es) → ∀ e ∈ es, P e) :
    ∀ es ∈ contents ops, ∀ e ∈ es, P e := by
  induction ops using List.reverseRecOn with
  | nil => simp [contents]
  | append_singleton ops op ih =>
    rw [List.forall_mem_append, List.forall_mem_singleton] at h
    rw [contents_concat]
    exact (performed (performAll {} ops) op).forall_record h.2 (ih h.1)

/-- If no operation emits an operand alone, the blocks contain nothing but instructions. -/
theorem whole_contents {ops : List Op} (h : ∀ op ∈ ops, op.isBare = false) :
    ∀ es ∈ contents ops, ∀ e ∈ es, e.Whole :=
  forall_contents fun op hop _ _ => whole_of_emits (h op hop)

/-! ### The listing -/

theorem countFits_of_length {o : Operand} (h : o.bytes.length < 2147483648) : o.CountFits := by
  cases o with
  | int n => trivial
  | text bs => trivial
  | table entries =>
    have hlength : (entries.flatMap Word.bytes).length = entries.length * Word.size := by
      simp [List.length_flatMap]
    rw [Operand.bytes, List.length_append, hlength] at h
    simp only [Operand.CountFits]
    unfold Word.size at h
    omega

/-- An instruction that was not refused has an encoding, if it is not too long. -/
theorem encodable_resolved {b : Builder} {op : Opcode} {args : List Argument}
    (h : emittable (op, args) = true)
    (hlength : (Instruction.bytes ⟨op, args.map (Argument.resolved b)⟩).length < 2147483648) :
    Instruction.Encodable ⟨op, args.map (Argument.resolved b)⟩ := by
  rw [emittable, Bool.and_eq_true, Bool.not_eq_true'] at h
  have hfills := forall₂_fills_resolved b args
  have hplaced : ¬ Misplaced args op.signature := by
    intro hmisplaced
    rw [fitAll_of_misplaced hmisplaced] at h
    cases h.1
  refine ⟨?_, ?_, fun o ho => countFits_of_length (Nat.lt_of_le_of_lt ?_ hlength)⟩
  · rw [fitAll_of_fills hfills hplaced, h.1]
  · rw [any_hasNul_of_fills hfills, h.2]
  · rw [Instruction.bytes, List.length_cons]
    exact Nat.le_succ_of_le (List.sublist_flatten_of_mem (List.mem_map_of_mem ho)).length_le

/-- What was emitted stays in its block, where the offset of the block counted what was there
before. -/
theorem contents_of_emits {before : List Op} {op : Op} {id : BlockId} {es : List Emission}
    (hop : op.emits? = some (id, es)) (hid : id.number < (performAll {} before).blocks.length)
    (after : List Op) :
    ∃ earlier later, (contents (before ++ op :: after))[id.number]? = some (earlier ++ es ++ later) ∧
      (performAll {} before).offset id = extent (earlier.flatMap Emission.parts) ∧
      (performAll {} (before ++ [op])).offset id =
        (performAll {} before).offset id + extent (es.flatMap Emission.parts) := by
  rw [(performAll_blocks before).length_eq] at hid
  have hbefore : (contents before)[id.number]? = some (contents before)[id.number] :=
    List.getElem?_eq_getElem hid
  have hadded : (contents (before ++ [op]))[id.number]? = some ((contents before)[id.number] ++ es) := by
    rw [contents_concat, Op.record_of_emits hop, List.getElem?_modify, hbefore]
    simp
  have hoffset : (performAll {} before).offset id =
      extent ((contents before)[id.number].flatMap Emission.parts) := by
    rw [offset_performAll, hbefore, Option.getD_some]
  obtain ⟨later, hlater⟩ := getElem?_contents_append hadded after
  rw [List.append_assoc before] at hlater
  refine ⟨_, later, hlater, hoffset, ?_⟩
  rw [hoffset, offset_performAll, hadded, Option.getD_some, List.flatMap_append, extent_append]

/-- The instructions that code becomes when it is linked. -/
def linkedCode (b : Builder) (code : List (Opcode × List Argument)) : List Instruction :=
  code.map fun i => ⟨i.1, i.2.map (Argument.resolved b)⟩

/-- Code of which nothing is refused is emitted as a whole. -/
theorem instructionsOf_emittedOf (b : Builder) {code : List (Opcode × List Argument)}
    (h : ∀ i ∈ code, emittable i = true) : instructionsOf b (emittedOf code) = linkedCode b code := by
  induction code with
  | nil => rfl
  | cons i code ih =>
    obtain ⟨hi, hcode⟩ := List.forall_mem_cons.mp h
    rw [emittedOf_cons_of_pos hi, linkedCode, List.map_cons, ← linkedCode, ← ih hcode]
    rfl

end Builder

/-- The instructions stand one after the other in the code of an image, from one offset to another. -/
def Image.CodeAt (img : Image) : Nat → List Instruction → Nat → Prop
  | offset, [], next => offset = next
  | offset, i :: is, next =>
    (img.inCode offset = true ∧ Instruction.decode img.bytes offset = .ok (i, i.bytes.length)) ∧
      img.CodeAt (offset + i.bytes.length) is next

theorem Image.codeAt_of_bytes {img : Image} {before after : List UInt8} {is : List Instruction}
    (hbytes : img.bytes = before ++ is.flatMap Instruction.bytes ++ after)
    (hbefore : Image.headerSize ≤ before.length)
    (hend : before.length + (is.flatMap Instruction.bytes).length ≤ img.dataOffset)
    (his : ∀ i ∈ is, i.Encodable) :
    img.CodeAt before.length is (before.length + (is.flatMap Instruction.bytes).length) := by
  induction is generalizing before with
  | nil => rfl
  | cons i is ih =>
    obtain ⟨hi, his⟩ := List.forall_mem_cons.mp his
    rw [List.flatMap_cons] at hbytes hend
    rw [List.length_append] at hend
    refine ⟨⟨?_, ?_⟩, ?_⟩
    · have hpos := i.length_bytes_pos
      rw [Image.inCode, Bool.and_eq_true, decide_eq_true_eq, decide_eq_true_eq]
      omega
    · obtain ⟨hencode, hcounts⟩ := Instruction.encodable_iff.mp hi
      rw [hbytes, ← List.append_assoc before, List.append_assoc _ _ after]
      exact Instruction.decode_append hcounts hencode
    · rw [List.flatMap_cons, List.length_append, ← Nat.add_assoc, ← List.length_append]
      refine ih ?_ ?_ ?_ his
      · rw [hbytes, List.append_assoc before i.bytes]
      · rw [List.length_append]
        omega
      · rw [List.length_append]
        omega

namespace Builder

/-- **Code that was emitted is found at its place**: from where the next byte of its block was to go
before it was emitted, to where the next byte was to go after that. -/
theorem codeAt_of_emits {ops before after : List Op} {op : Op} {id : BlockId}
    {code : List (Opcode × List Argument)} {img : Image} (hops : ops = before ++ op :: after)
    (hop : op.emits? = some (id, emittedOf code)) (hcode : ∀ i ∈ code, emittable i = true)
    (hid : id.number < (performAll {} before).blocks.length) (h : (performAll {} ops).link = .ok img) :
    img.CodeAt ((performAll {} ops).base id + (performAll {} before).offset id)
      (linkedCode (performAll {} ops) code)
      ((performAll {} ops).base id + (performAll {} (before ++ [op])).offset id) := by
  obtain ⟨earlier, later, hcontents, hoffset, hnext⟩ := contents_of_emits hop hid after
  rw [← hops] at hcontents
  obtain ⟨front, back, hbytes, hfront, hend⟩ := bytes_of_contents (performAll_blocks ops) h hcontents
  obtain ⟨hdata, hlt⟩ := dataOffset_of_link h
  have hlinked : ((emittedOf code).flatMap Emission.parts).flatMap (Part.linked (performAll {} ops)) =
      (linkedCode (performAll {} ops) code).flatMap Instruction.bytes := by
    rw [flatMap_linked fun e => whole_of_mem_emittedOf, instructionsOf_emittedOf _ hcode]
  have hsize : extent ((emittedOf code).flatMap Emission.parts) =
      ((linkedCode (performAll {} ops) code).flatMap Instruction.bytes).length := by
    rw [← hlinked, length_flatMap_linked]
  simp only [List.flatMap_append, extent_append, hlinked, hsize] at hbytes hend hnext
  have hcut : img.bytes =
      front ++ (earlier.flatMap Emission.parts).flatMap (Part.linked (performAll {} ops)) ++
        (linkedCode (performAll {} ops) code).flatMap Instruction.bytes ++
          ((later.flatMap Emission.parts).flatMap (Part.linked (performAll {} ops)) ++ back) := by
    rw [hbytes]
    simp only [List.append_assoc]
  have hplace : (performAll {} ops).base id + (performAll {} before).offset id =
      (front ++ (earlier.flatMap Emission.parts).flatMap (Part.linked (performAll {} ops))).length := by
    rw [List.length_append, length_flatMap_linked, hfront, ← hoffset]
  have hbase : Image.headerSize ≤ (performAll {} ops).base id := Nat.le_add_right ..
  rw [hnext, ← Nat.add_assoc, hplace]
  refine Image.codeAt_of_bytes hcut ?_ ?_ fun i hi => ?_
  · rw [← hplace]
    omega
  · rw [← hplace, hdata, hoffset]
    omega
  · -- none of the instructions is longer than all of them
    have hlength := (List.sublist_flatten_of_mem (List.mem_map_of_mem (f := Instruction.bytes) hi)).length_le
    rw [← List.flatMap_def] at hlength
    obtain ⟨⟨op, args⟩, hmem, rfl⟩ := List.mem_map.mp hi
    exact encodable_resolved (hcode _ hmem) (Nat.lt_of_le_of_lt hlength (by omega))

/-- An instruction that was emitted is found at its place. -/
theorem decode_of_emit {ops before after : List Op} {id : BlockId} {op : Opcode} {args : List Argument}
    {img : Image} (hops : ops = before ++ .emit id op args :: after)
    (hid : id.number < (performAll {} before).blocks.length) (hemit : emittable (op, args) = true)
    (h : (performAll {} ops).link = .ok img) :
    let i : Instruction := ⟨op, args.map (Argument.resolved (performAll {} ops))⟩
    let place := (performAll {} ops).base id + (performAll {} before).offset id
    img.inCode place = true ∧ Instruction.decode img.bytes place = .ok (i, i.bytes.length) :=
  (codeAt_of_emits hops rfl (List.forall_mem_singleton.mpr hemit) hid h).1

section Link

variable {ops : List Op} {img : Image} (hwhole : ∀ op ∈ ops, op.isBare = false)
  (h : (performAll {} ops).link = .ok img)
include hwhole

theorem whole_flatten_contents : ∀ e ∈ (contents ops).flatten, e.Whole := by
  intro e he
  obtain ⟨es, hes, he⟩ := List.mem_flatten.mp he
  exact whole_contents hwhole es hes e he

include h

/-- The code of the image is made of the encodings of what was emitted. -/
theorem code_of_link :
    img.code =
      (instructionsOf (performAll {} ops) (contents ops).flatten).flatMap Instruction.bytes := by
  rw [(segments_of_link (performAll_blocks ops) h).1, partsOf,
    flatMap_linked (whole_flatten_contents hwhole)]

theorem encodable_of_link :
    ∀ i ∈ instructionsOf (performAll {} ops) (contents ops).flatten, i.Encodable := by
  intro i hi
  -- an instruction takes no more than the whole code, whose size fits into a word
  have hlength : i.bytes.length < 2147483648 := by
    have hle := (List.sublist_flatten_of_mem (List.mem_map_of_mem (f := Instruction.bytes) hi)).length_le
    have hcode := congrArg List.length (code_of_link hwhole h)
    obtain ⟨hdata, hlt⟩ := dataOffset_of_link h
    rw [dataOffset_eq (performAll_blocks ops)] at hdata
    rw [(segments_of_link (performAll_blocks ops) h).1, length_flatMap_linked, List.flatMap_def] at hcode
    omega
  obtain ⟨e, he, hinstruction⟩ := List.mem_filterMap.mp hi
  have hemittable := whole_flatten_contents hwhole e he
  cases e with
  | operand arg => cases hinstruction
  | instruction op args =>
    cases hinstruction
    exact encodable_resolved hemittable hlength

/-- A label stands at a line of the listing or at the data. -/
theorem line_of_stands {l : Label} {p : Place} (hp : Stands ops l p) :
    (∃ line ∈ Listing.layOut Image.headerSize
        (instructionsOf (performAll {} ops) (contents ops).flatten),
      line.offset = (performAll {} ops).base p.block + p.offset) ∨
      (performAll {} ops).base p.block + p.offset = img.dataOffset := by
  obtain ⟨front, back, hsplit, haddress⟩ := hp.cut
  have hwhole' := whole_flatten_contents hwhole
  rw [hsplit, List.forall_mem_append] at hwhole'
  have hfront : extent (front.flatMap Emission.parts) =
      ((instructionsOf (performAll {} ops) front).flatMap Instruction.bytes).length := by
    rw [← flatMap_linked hwhole'.1, length_flatMap_linked]
  rw [haddress, hsplit, instructionsOf_append, hfront]
  by_cases hback : instructionsOf (performAll {} ops) back = []
  · right
    have hcode := congrArg List.length (code_of_link hwhole h)
    rw [(segments_of_link (performAll_blocks ops) h).1, length_flatMap_linked, hsplit,
      instructionsOf_append, hback, List.append_nil] at hcode
    rw [← hcode, (dataOffset_of_link h).1, dataOffset_eq (performAll_blocks ops)]
  · exact .inl (Listing.exists_mem_layOut _ _ hback)

theorem ofImage_of_link :
    ∃ l, Listing.ofImage img = .ok l ∧
      l.lines = Listing.layOut Image.headerSize
        (instructionsOf (performAll {} ops) (contents ops).flatten) := by
  have hlines : Listing.linesOf img = .ok (Listing.layOut Image.headerSize
      (instructionsOf (performAll {} ops) (contents ops).flatten)) :=
    Listing.linesOf_eq_ok_iff.mpr ⟨_, encodable_of_link hwhole h, code_of_link hwhole h, rfl⟩
  exact ⟨⟨img.size, img.dataOffset, img.digest, _, img.data⟩,
    Listing.ofImage_eq_ok_iff.mpr ⟨hlines, rfl⟩, rfl⟩

end Link

/-- A listing shows the instructions that operations have emitted. -/
structure Listed (ops : List Op) (b : Builder) (img : Image) (l : Listing) : Prop where
  /-- The lines are the emitted instructions with their addresses, block by block. -/
  lines : l.lines = Listing.layOut Image.headerSize (instructionsOf b (contents ops).flatten)
  /-- The address of a label in an instruction is that of the place where the label stands. -/
  label : ∀ k, .label k ∈ partsOf (contents ops) →
    ∃ p, Stands ops k p ∧ b.position k = b.base p.block + p.offset ∧ b.position k < 2147483648
  /-- The address of an item of data counts from the end of the code. -/
  data : b.dataOffset = img.dataOffset ∧
    ∀ d, .data d ∈ partsOf (contents ops) → img.dataOffset + d.offset < 2147483648
  /-- Every label that stands somewhere stands at a line or at the data. -/
  boundary : ∀ k p, Stands ops k p →
    (∃ line ∈ l.lines, line.offset = b.base p.block + p.offset) ∨
      b.base p.block + p.offset = img.dataOffset

/-- **What is emitted is what is listed.** If operations put nothing into blocks but instructions
and the builder is linked, the image has a listing, whose lines are the instructions that were
not refused, with their addresses. An instruction with a label or an item of data in the place
of a plain integer is refused as a mismatch. Any other is refused exactly if it has no
encoding, whatever integers stand for its labels and its data, and for the same reason. An
instruction that is refused leaves the builder as it was. -/
theorem emitted_is_listed :
    (∀ ops img, (∀ op ∈ ops, op.isBare = false) → (performAll {} ops).link = .ok img →
      ∃ l, Listing.ofImage img = .ok l ∧ Listed ops (performAll {} ops) img l) ∧
    ∀ (b : Builder) (id : BlockId) (op : Opcode) (args : List Argument),
      (Misplaced args op.signature →
        (b.perform (.emit id op args)).1 = .refused (.operandMismatch op)) ∧
      (¬ Misplaced args op.signature → ∀ os, List.Forall₂ Argument.Fills args os → ∀ e,
        ((b.perform (.emit id op args)).1 = .refused e ↔ Instruction.encode ⟨op, os⟩ = .error e)) ∧
      ∀ e, (b.perform (.emit id op args)).1 = .refused e → (b.perform (.emit id op args)).2 = b := by
  refine ⟨fun ops img hwhole h => ?_, fun b id op args => ⟨?_, ?_, ?_⟩⟩
  · obtain ⟨l, hl, hlines⟩ := ofImage_of_link hwhole h
    obtain ⟨-, hresolved, himg⟩ := (link_eq_ok_iff (performAll_blocks ops)).mp h
    refine ⟨l, hl, hlines, fun k hk => ?_, ⟨by rw [himg], fun d hd => ?_⟩, fun k p hp => ?_⟩
    · obtain ⟨p, hp, hlt⟩ := hresolved _ hk
      have hposition : (performAll {} ops).position k = (performAll {} ops).base p.block + p.offset := by
        rw [position, hp]
      exact ⟨p, place?_performAll.mp hp, hposition, by rwa [hposition]⟩
    · rw [himg]
      exact hresolved _ hd
    · rw [hlines]
      exact line_of_stands hwhole h hp
  · intro hmisplaced
    exact refused_iff.mpr (emit_of_misplaced hmisplaced)
  · intro hplaced os hos e
    rw [refused_iff, emit_eq_error_iff hos hplaced]
  · intro e he
    rw [perform_emit_eq, refused_iff.mp he]

/-- A jump over an empty block to the end of the code, an item of data, and instructions that
are refused: a label in the place of an integer, and a text with a NUL. -/
theorem emitted_is_listed_jump :
    let ops : List Op :=
      [.createBlock, .createBlock, .createBlock, .newLabel, .writeData [7],
        .emit ⟨2⟩ .pushData [.data ⟨0⟩, .int 0, .int 0], .emit ⟨0⟩ .jmpTrue [.label ⟨1⟩],
        .emit ⟨0⟩ .pushInt [.label ⟨1⟩], .emit ⟨0⟩ .pushString [.text [0]],
        .emitPrintln ⟨0⟩, .placeLabel ⟨2⟩ ⟨3⟩, .emit ⟨0⟩ .jmp [.label ⟨3⟩]]
    let b := performAll {} ops
    let img : Image := ⟨[48, 0, 0, 0, 23, 35, 0, 0, 0, 0, 36, 36, 98, 117, 105, 108, 116, 105, 110, 45,
      112, 114, 105, 110, 116, 108, 110, 0, 10, 24, 20, 48, 0, 0, 0, 2, 48, 0, 0, 0, 0, 0, 0, 0, 0, 0,
      0, 0, 7], 48⟩
    b.link = .ok img ∧
      (∃ l, Listing.ofImage img = .ok l ∧
        l.lines = [⟨4, ⟨.jmpTrue, [.int 35]⟩⟩,
          ⟨9, ⟨.pushBuiltin, [.text (Text.Utf8.encode Builtin.println.name)]⟩⟩,
          ⟨28, ⟨.pushUnit, []⟩⟩, ⟨29, ⟨.swapCall, []⟩⟩, ⟨30, ⟨.jmp, [.int 48]⟩⟩,
          ⟨35, ⟨.pushData, [.int 48, .int 0, .int 0]⟩⟩]) ∧
      (b.perform (.emit ⟨0⟩ .pushInt [.label ⟨1⟩])).1 = .refused (.operandMismatch .pushInt) ∧
      (b.perform (.emit ⟨0⟩ .pushString [.text [0]])).1 = .refused .embeddedNul ∧
        (b.perform (.emit ⟨0⟩ .pushString [.text [0]])).2 = b := by
  intro ops b img
  have hlink : b.link = .ok img := by decide +kernel
  have hbare : ∀ op ∈ ops, op.isBare = false := by decide
  obtain ⟨l, hl, hlisted⟩ := emitted_is_listed.1 ops img hbare hlink
  have hmisplaced : Misplaced [.label ⟨1⟩] Opcode.pushInt.signature :=
    ⟨(.label ⟨1⟩, .int), by decide, rfl, rfl⟩
  have hplaced : ¬ Misplaced [.text [0]] Opcode.pushString.signature := by
    simp [Misplaced, Argument.isHandle, Opcode.signature]
  have hrefused := ((emitted_is_listed.2 b ⟨0⟩ .pushString [.text [0]]).2.1 hplaced
    [.text [0]] (.cons (.text [0]) .nil) .embeddedNul).mpr rfl
  exact ⟨hlink, ⟨l, hl, hlisted.lines.trans (by decide +kernel)⟩,
    (emitted_is_listed.2 b ⟨0⟩ .pushInt [.label ⟨1⟩]).1 hmisplaced, hrefused,
    (emitted_is_listed.2 b ⟨0⟩ .pushString [.text [0]]).2.2 _ hrefused⟩

end Builder

end StackCode
