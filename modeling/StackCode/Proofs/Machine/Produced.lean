import StackCode.Proofs.Builder.Targets
import StackCode.Proofs.Source.Targets

/-!
# Programs that are never out of step

An image can come from source text or from a builder. In both cases it is made of whole
instructions, and as long as destinations are named and not counted out by hand, they are those
of instructions or outside the code. Such a program never executes bytes that were not meant to
be an instruction, however often it is run and whatever has failed before.
-/

namespace StackCode.Machine

open Listing

variable {img : Image} {lines : List Line} {m m' : Machine} {f : Failure} {fuel : Nat}

/-- **What can go wrong on the lines of a listing.** A run of closed code fails with a fault of
values, or because a line names a builtin that does not exist. -/
theorem Reachable.fault_of_run (hw : img.WellFormed) (hlines : linesOf img = .ok lines)
    (hsize : img.dataOffset < 18446744073709551616) (hc : Closed img lines) (hm : Reachable img m)
    (h : m.run fuel = .failed f m') :
    f.fault.OfValues ∨ ∃ line ∈ lines, ∃ name, line.instruction = ⟨.pushBuiltin, [.text name]⟩ ∧
      Builtin.ofName? (Text.Utf8.lossy name) = none ∧
        f.fault = .unknownBuiltin (Text.Utf8.lossy name) := by
  obtain ⟨m₀, hm₀, hstep⟩ := hm.exists_step_of_run h
  have horder := hm₀.inOrder (hc.safeCode hw hlines hsize)
  obtain rfl := horder.image
  -- in the code the machine reads the instruction of a line
  have hline : m₀.image.inCode m₀.ip = true → ∃ line ∈ lines,
      m₀.fetch = .ok (line.instruction, line.instruction.bytes.length) := by
    intro hin
    obtain ⟨line, hline, -, hread⟩ := horder.ip.line hw hlines hin
    exact ⟨line, hline, by rw [fetch, if_pos hin, hread]⟩
  -- so it is stuck only outside the code
  have hstuck : ∀ mnemonic fault, m₀.fetch = .error (mnemonic, fault) → fault.OfValues := by
    intro mnemonic fault hfetch
    by_cases hin : m₀.image.inCode m₀.ip = true
    · obtain ⟨line, -, hread⟩ := hline hin
      cases hread.symm.trans hfetch
    · rw [fetch, if_neg hin] at hfetch
      cases hfetch
      trivial
  have hstepped := stepped m₀
  rw [hstep] at hstepped
  cases hstepped with
  | stuck hfetch => exact .inl (hstuck _ _ hfetch)
  | unflushed => exact .inl trivial
  | failed hfetch ha hfails =>
    cases hfails.risk with
    | data hf => exact .inl hf.ofValues
    | uncallable | surplus => exact .inl trivial
    | unnamed hname =>
      right
      obtain ⟨hin, -, a, ha', -, -, hbuiltin⟩ := exists_action_of_fetch hfetch
      obtain ⟨line, hmem, hread⟩ := hline hin
      cases hread.symm.trans hfetch
      cases ha.symm.trans ha'
      exact ⟨line, hmem, _, hbuiltin _ rfl, hname, rfl⟩

/-- A run of closed code never fails for want of an instruction. -/
theorem Reachable.ofExecution_of_closed (hw : img.WellFormed) (hlines : linesOf img = .ok lines)
    (hsize : img.dataOffset < 18446744073709551616) (hc : Closed img lines) (hm : Reachable img m)
    (h : m.run fuel = .failed f m') : f.fault.OfExecution := by
  rcases hm.fault_of_run hw hlines hsize hc h with hf | ⟨-, -, name, -, -, hf⟩
  · exact hf.ofExecution
  · rw [hf]
    trivial

/-- **Programs that are produced never execute anything but their instructions.** Let an image of
less than 2³¹ bytes be assembled from a source in which the operands of jumps and of
`PUSH_CLOSURE` and the entries of jump tables are names of labels. However often it is run, it
never fails with an unknown opcode, a malformed instruction or an unknown builtin. Let an image be
linked from blocks into which only whole instructions were emitted, with labels, data or tables of
labels in these places. However often it is run, it never fails with an unknown opcode or a
malformed instruction. -/
theorem produced_programs_decode :
    (∀ source img, Source.assemble source = .ok img → img.size < 2147483648 →
      Source.Symbolic source → ∀ m, Reachable img m → ∀ fuel f m', m.run fuel = .failed f m' →
        (∀ byte, f.fault ≠ .unknownOpcode byte) ∧ (∀ e, f.fault ≠ .malformed e) ∧
          ∀ name, f.fault ≠ .unknownBuiltin name) ∧
    ∀ ops img, (∀ op ∈ ops, op.isBare = false) → (∀ op ∈ ops, Builder.Op.Symbolic op) →
      (Builder.performAll {} ops).link = .ok img →
        ∀ m, Reachable img m → ∀ fuel f m', m.run fuel = .failed f m' →
          (∀ byte, f.fault ≠ .unknownOpcode byte) ∧ ∀ e, f.fault ≠ .malformed e := by
  constructor
  · intro source img h hsize hsymbolic m hm fuel f m' hrun
    have hw := Source.wellFormed_of_assemble h
    have hoffset : img.dataOffset < 18446744073709551616 := by
      have hle := hw.le_size
      omega
    obtain ⟨lines, hlines, hc, hbuiltins⟩ := Source.closed_of_assemble h hsize hsymbolic
    rcases hm.fault_of_run hw hlines hoffset hc hrun with hf | ⟨line, hline, name, hi, hnone, -⟩
    · exact ⟨hf.ofExecution.ne.1, hf.ofExecution.ne.2, hf.ne⟩
    · obtain ⟨b, hb⟩ := hbuiltins line hline name hi
      cases hb.symm.trans hnone
  · intro ops img hwhole hsymbolic h m hm fuel f m' hrun
    have hw := Builder.wellFormed_of_link h
    have hoffset : img.dataOffset < 18446744073709551616 := by
      obtain ⟨hlt, -, rfl⟩ := (Builder.link_eq_ok_iff (Builder.performAll_blocks ops)).mp h
      exact Nat.lt_trans hlt (by decide)
    obtain ⟨lines, hlines, hc⟩ := Builder.closed_of_link h hwhole hsymbolic
    exact (hm.ofExecution_of_closed hw hlines hoffset hc hrun).ne

/-- A source with a closure that jumps, by a table, to a label behind all data, and a builder whose
code jumps to an item of data. Both programs leave the code, and that is reported. -/
theorem produced_programs_decode_data :
    let source := "PUSH_CLOSURE body\nPUSH_DATA tag 1 0\nSWAP_CALL\n:body\nJMP_DATA 2 body out\n" ++
      ".data\n:tag\n0x1\n:out\n"
    let img : Image := ⟨[36, 0, 0, 0, 1, 23, 0, 0, 0, 2, 36, 0, 0, 0, 1, 0, 0, 0, 0, 0, 0, 0, 24, 21, 2, 0, 0,
      0, 23, 0, 0, 0, 37, 0, 0, 0, 1], 36⟩
    let m : Machine := ⟨img, 23, [.data 36 1 []], Frames.initial.push (.call 0 23 ⟨23, 0⟩), 1, {}⟩
    let ops : List Builder.Op :=
      [.createBlock, .createBlock, .writeData [1], .emit ⟨0⟩ .pushClosure [.label ⟨1⟩],
        .emit ⟨0⟩ .jmp [.data ⟨0⟩], .emit ⟨1⟩ .ret []]
    let linked : Image := ⟨[15, 0, 0, 0, 1, 14, 0, 0, 0, 20, 15, 0, 0, 0, 26, 1], 15⟩
    Source.assemble source = .ok img ∧ Source.Symbolic source ∧ Reachable img m ∧
      (∃ f m', m.run 2 = .failed f m' ∧ f.fault = .ipOutOfBounds 37) ∧
      (∀ fuel f m', m.run fuel = .failed f m' → ∀ name, f.fault ≠ .unknownBuiltin name) ∧
      (Builder.performAll {} ops).link = .ok linked ∧
      (∃ f m', Machine.run 3 { image := linked } = .failed f m' ∧ f.fault = .ipOutOfBounds 15) ∧
      ∀ fuel f m', Machine.run fuel { image := linked } = .failed f m' →
        ∀ byte, f.fault ≠ .unknownOpcode byte := by
  intro source img m ops linked
  have hassemble : Source.assemble source = .ok img := by decide +kernel
  have hsymbolic : Source.Symbolic source := by decide +kernel
  have hm : Reachable img m := by
    have hrun : Machine.run 3 { image := img } = .running m := rfl
    exact (Reachable.start {}).run (hrun ▸ Progress.Leaves.running m)
  have hlink : (Builder.performAll {} ops).link = .ok linked := by decide
  have hwhole : ∀ op ∈ ops, op.isBare = false := by decide
  have hnamed : ∀ op ∈ ops, Builder.Op.Symbolic op := by simp [ops, Builder.Op.Symbolic]
  refine ⟨hassemble, hsymbolic, hm, ⟨_, _, rfl, rfl⟩, fun fuel f m' hrun => ?_, hlink,
    ⟨_, _, rfl, rfl⟩, fun fuel f m' hrun => ?_⟩
  · exact (produced_programs_decode.1 source img hassemble (by decide) hsymbolic m hm fuel f m' hrun).2.2
  · exact (produced_programs_decode.2 ops linked hwhole hnamed hlink _ (.start {}) fuel f m' hrun).1

end StackCode.Machine
