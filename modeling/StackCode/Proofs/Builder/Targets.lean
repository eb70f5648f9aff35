import StackCode.Proofs.Builder.Instructions
import StackCode.Proofs.Machine.ControlFlow

/-!
# Where emitted instructions lead

A label of a builder stands between emissions, and data is behind all code. If instructions are
emitted whole and their destinations are labels or items of data, never plain integers
(`Op.Symbolic`), then in the linked image they lead to instructions or out of the code
(`closed_of_link`).
-/

namespace StackCode.Builder

open Result

/-! ### Destinations -/

/-- An operation emits no instruction that has a plain integer for a destination. -/
def Op.Symbolic : Op → Prop
  | .emit _ op args => emittable (op, args) = true → op.isTransfer = true → ∀ n, .int n ∉ args
  | _ => True

/-- An emission is no instruction that has a plain integer for a destination. -/
def Emission.Symbolic : Emission → Prop
  | .instruction op args => op.isTransfer = true → ∀ n, .int n ∉ args
  | .operand _ => True

theorem symbolic_of_mem_emittedOf {code : List (Opcode × List Argument)}
    (hcode : ∀ i ∈ code, i.1.isTransfer = false) {e : Emission} (h : e ∈ emittedOf code) :
    e.Symbolic := by
  obtain ⟨i, hi, rfl⟩ := List.mem_map.mp h
  have hnot := hcode i (List.takeWhile_prefix _ |>.subset hi)
  intro htransfer
  rw [hnot] at htransfer
  cases htransfer

theorem symbolic_of_emits {op : Op} {id : BlockId} {es : List Emission} (hop : op.Symbolic)
    (h : op.emits? = some (id, es)) : ∀ e ∈ es, e.Symbolic := by
  cases op with
  | emit id op args =>
    cases h
    by_cases he : emittable (op, args) = true
    · rw [emittedOf_cons_of_pos he]
      exact List.forall_mem_singleton.mpr (hop he)
    · rw [emittedOf_cons_of_neg he]
      exact fun _ h => nomatch h
  | emitInt | emitLabelRef | emitDataRef =>
    cases h
    exact List.forall_mem_singleton.mpr trivial
  | emitPrintln =>
    cases h
    exact fun e => symbolic_of_mem_emittedOf (by simp [println, pushBuiltin, Opcode.isTransfer])
  | emitPrintString =>
    cases h
    exact fun e => symbolic_of_mem_emittedOf (by simp [printString, pushBuiltin, Opcode.isTransfer])
  | emitPrintLiteralVar =>
    cases h
    exact fun e => symbolic_of_mem_emittedOf (by simp [printLiteralVar, pushBuiltin, Opcode.isTransfer])
  | emitFatalError =>
    cases h
    exact fun e => symbolic_of_mem_emittedOf (by simp [fatalError, pushBuiltin, Opcode.isTransfer])
  | _ => cases h

/-- A destination of a linked instruction is the address of a label or of an item of data that the
instruction refers to. -/
theorem Emission.Symbolic.address {b : Builder} {op : Opcode} {args : List Argument} {n : Int32}
    (h : Emission.Symbolic (.instruction op args))
    (hn : n ∈ Instruction.destinations ⟨op, args.map (Argument.resolved b)⟩) :
    (∃ l, .label l ∈ Emission.parts (.instruction op args) ∧ n = Int32.ofNat (b.position l)) ∨
      ∃ d, .data d ∈ Emission.parts (.instruction op args) ∧
        n = Int32.ofNat (b.dataOffset + d.offset) := by
  have hpart : ∀ arg ∈ args, ∀ p ∈ arg.parts, p ∈ Emission.parts (.instruction op args) :=
    fun arg harg p hp => List.mem_cons_of_mem _ (List.mem_flatMap.mpr ⟨arg, harg, hp⟩)
  obtain ⟨htransfer, hoperand⟩ := Instruction.of_mem_destinations hn
  rcases hoperand with hint | ⟨entries, htable, hentry⟩
  · obtain ⟨arg, harg, hresolved⟩ := List.mem_map.mp hint
    cases arg with
    | int k => exact absurd harg (h htransfer k)
    | label l =>
      cases hresolved
      exact .inl ⟨l, hpart _ harg _ List.mem_cons_self, rfl⟩
    | data d =>
      cases hresolved
      exact .inr ⟨d, hpart _ harg _ List.mem_cons_self, rfl⟩
    | text | table => cases hresolved
  · obtain ⟨arg, harg, hresolved⟩ := List.mem_map.mp htable
    cases arg with
    | table ls =>
      cases hresolved
      obtain ⟨l, hl, rfl⟩ := List.mem_map.mp hentry
      exact .inl ⟨l, hpart _ harg _ (List.mem_cons_of_mem _ (List.mem_map_of_mem hl)), rfl⟩
    | int | label | data | text => cases hresolved

/-! ### The image -/

section Link

variable {ops : List Op} {img : Image} (h : (performAll {} ops).link = .ok img)
include h

theorem wellFormed_of_link : img.WellFormed := by
  have hb := performAll_blocks ops
  obtain ⟨-, -, rfl⟩ := (link_eq_ok_iff hb).mp h
  rw [dataOffset_eq hb, ← length_flatMap_linked (performAll {} ops)]
  exact Image.wellFormed_of_parts rfl

/-- **Where destinations are labels and data, the code is closed.** The linked image has a listing
in which every destination is that of a line or lies outside the code. -/
theorem closed_of_link (hwhole : ∀ op ∈ ops, op.isBare = false)
    (hsymbolic : ∀ op ∈ ops, op.Symbolic) :
    ∃ lines, Listing.linesOf img = .ok lines ∧ Listing.Closed img lines := by
  obtain ⟨l, hl, hlines⟩ := ofImage_of_link hwhole h
  obtain ⟨-, hresolved, himg⟩ := (link_eq_ok_iff (performAll_blocks ops)).mp h
  refine ⟨l.lines, (Listing.ofImage_eq_ok_iff.mp hl).1, fun line hline n hn => ?_⟩
  rw [hlines] at hline ⊢
  -- the emission that the line shows
  obtain ⟨before, after, hsplit, -⟩ := Listing.mem_layOut hline
  have hmem : line.instruction ∈ instructionsOf (performAll {} ops) (contents ops).flatten := by
    simp [hsplit]
  obtain ⟨e, he, hinstruction⟩ := List.mem_filterMap.mp hmem
  cases e with
  | operand arg => cases hinstruction
  | instruction op args =>
    obtain ⟨es, hes, hees⟩ := List.mem_flatten.mp he
    have hsym := forall_contents (fun op hop _ _ => symbolic_of_emits (hsymbolic op hop)) es hes _ hees
    have hpart : ∀ p ∈ Emission.parts (.instruction op args), p.Resolved (performAll {} ops) :=
      fun p hp => hresolved p (List.mem_flatMap.mpr ⟨_, he, hp⟩)
    rw [← Option.some.inj hinstruction] at hn
    rcases hsym.address hn with ⟨k, hk, rfl⟩ | ⟨d, hd, rfl⟩
    · obtain ⟨p, hp, hlt⟩ := hpart _ hk
      rw [position, hp, Word.toInt_ofNat hlt]
      rcases line_of_stands hwhole h (place?_performAll.mp hp) with ⟨there, hthere, ho⟩ | hend
      · exact .inl ⟨there, hthere, by rw [ho]⟩
      · exact .inr (.inr (Int.ofNat_le.mpr (Nat.le_of_eq hend.symm)))
    · right
      right
      rw [Word.toInt_ofNat (hpart _ hd), himg]
      exact Int.ofNat_le.mpr (Nat.le_add_right _ _)

end Link

end StackCode.Builder
