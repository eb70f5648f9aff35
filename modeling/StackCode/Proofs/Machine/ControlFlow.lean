import StackCode.Proofs.Listing.Lines
import StackCode.Proofs.Machine.Order

/-!
# Control flow

If the positions that the code of an image names are those of its instructions or lie
outside the code, then the machine stays on the lines of the listing: wherever the
instruction pointer is in the code, it is at a line, and the machine reads the
instruction of that line. Nothing else can be executed, and no run fails for want of an
instruction.
-/

namespace StackCode

namespace Listing

/-- An offset where execution can go on with a line, or where it ends because it is outside
the code. -/
def Expected (img : Image) (lines : List Line) (k : Nat) : Prop :=
  (∃ line ∈ lines, line.offset = k) ∨ img.inCode k = false

/-- The positions that the lines name are those of lines or lie outside the code. -/
def Closed (img : Image) (lines : List Line) : Prop :=
  ∀ line ∈ lines, ∀ n ∈ line.instruction.destinations,
    (∃ there ∈ lines, n.toInt = there.offset) ∨
      n.toInt < Image.headerSize ∨ img.dataOffset ≤ n.toInt

theorem inCode_dataOffset (img : Image) : img.inCode img.dataOffset = false := by
  simp [Image.inCode]

/-- A position outside the code leads out of the code. -/
theorem inCode_target {img : Image} {n : Int32} (hsize : img.dataOffset < 18446744073709551616)
    (h : n.toInt < Image.headerSize ∨ img.dataOffset ≤ n.toInt) :
    img.inCode (Machine.target n) = false := by
  unfold Machine.target
  cases hn : Word.toNat? n with
  | none =>
    simp only [Option.getD_none, Image.inCode, Bool.and_eq_false_iff, decide_eq_false_iff_not]
    omega
  | some k =>
    have hk := Word.toNat?_eq_some.mp hn
    simp only [Option.getD_some, Image.inCode, Bool.and_eq_false_iff, decide_eq_false_iff_not]
    omega

section Lines

variable {img : Image} {lines : List Line} (hw : img.WellFormed) (hlines : linesOf img = .ok lines)
include hw hlines

/-- What is read at an expected offset in the code is the instruction of its line. -/
theorem Expected.line {k : Nat} (hk : Expected img lines k) (hin : img.inCode k = true) :
    ∃ line ∈ lines, line.offset = k ∧
      Instruction.decode img.bytes k = .ok (line.instruction, line.instruction.bytes.length) := by
  rcases hk with ⟨line, hline, rfl⟩ | hout
  · exact ⟨line, hline, rfl, decode_of_mem hw hlines hline⟩
  · rw [hout] at hin
    cases hin

/-- Code whose positions are closed leads from expected offsets only to expected offsets. -/
theorem Closed.safeCode (hsize : img.dataOffset < 18446744073709551616) (hc : Closed img lines) :
    Machine.SafeCode img (Expected img lines) where
  start := by
    rcases start_of_lines hw hlines with h | h
    · exact .inl h
    · rw [h]
      exact .inr (inCode_dataOffset img)
  next := by
    intro k i n hk hin hdecode
    obtain ⟨line, hline, rfl, hread⟩ := hk.line hw hlines hin
    rw [hread, Except.ok.injEq, Prod.mk.injEq] at hdecode
    obtain ⟨rfl, rfl⟩ := hdecode
    rcases next_of_mem hw hlines hline with h | h
    · exact .inl h
    · rw [h]
      exact .inr (inCode_dataOffset img)
  destinations := by
    intro k i n hk hin hdecode t ht
    obtain ⟨line, hline, rfl, hread⟩ := hk.line hw hlines hin
    rw [hread, Except.ok.injEq, Prod.mk.injEq] at hdecode
    obtain ⟨rfl, rfl⟩ := hdecode
    rcases hc line hline t ht with ⟨there, hthere, ho⟩ | hout
    · refine .inl ⟨there, hthere, ?_⟩
      rw [Machine.target, Word.toNat?_eq_some.mpr ho, Option.getD_some]
    · exact .inr (inCode_target hsize hout)

end Lines

end Listing

namespace Machine

/-- A step fails for want of an instruction only if there is none at the instruction pointer. -/
theorem ofExecution_of_step {m m' : Machine} {f : Failure}
    (hread : m.image.inCode m.ip = true → ∃ found, Instruction.decode m.image.bytes m.ip = .ok found)
    (h : m.step = .failed f m') : f.fault.OfExecution := by
  have hstep := stepped m
  rw [h] at hstep
  cases hstep with
  | @stuck mnemonic fault hfetch =>
    unfold fetch at hfetch
    split at hfetch
    · next hin =>
      obtain ⟨found, hfound⟩ := hread hin
      rw [hfound] at hfetch
      cases hfetch
    · cases hfetch
      trivial
  | unflushed hfetch ha heffect hflush => trivial
  | failed hfetch ha hfails => exact hfails.ofExecution

/-- If there is an instruction wherever a program leads in the code, no run fails for want of
one. -/
theorem Reachable.ofExecution {img : Image}
    (hread : ∀ m : Machine, Reachable img m → m.image.inCode m.ip = true →
      ∃ found, Instruction.decode m.image.bytes m.ip = .ok found)
    {m m' : Machine} {f : Failure} {fuel : Nat} (hm : Reachable img m)
    (h : m.run fuel = .failed f m') : f.fault.OfExecution := by
  obtain ⟨m₀, hm₀, hstep⟩ := hm.exists_step_of_run h
  exact ofExecution_of_step (hread m₀ hm₀) hstep

/-- **The machine stays on the lines of the listing.** Let an image have a listing in which
every position of a jump, of a jump table and of a closure is that of a line or outside the
code. Whatever the machine has reached, after any number of steps and runs and also after
failures: an instruction pointer in the code is at a line, and the instruction that is read
there, from the whole image, is the instruction of the line with its size. So no run fails
with an unknown opcode or a malformed instruction. A size is a machine word, and a negative
position leads to the greatest one, which is behind every image. -/
theorem control_flow_on_lines {img : Image} {l : Listing} (hw : img.WellFormed)
    (hsize : img.size < 18446744073709551616) (hl : Listing.ofImage img = .ok l)
    (hc : Listing.Closed img l.lines) {m : Machine} (hm : Reachable img m) :
    m.image = img ∧
      (img.inCode m.ip = true → ∃ line ∈ l.lines, line.offset = m.ip ∧
        Instruction.decode img.bytes m.ip =
          .ok (line.instruction, line.instruction.bytes.length) ∧
        m.fetch = .ok (line.instruction, line.instruction.bytes.length)) ∧
      ∀ (fuel : Nat) (f : Failure) (m' : Machine), m.run fuel = .failed f m' →
        (∀ byte, f.fault ≠ .unknownOpcode byte) ∧ ∀ e, f.fault ≠ .malformed e := by
  have hlines := (Listing.ofImage_eq_ok_iff.mp hl).1
  have hdata := Nat.lt_of_le_of_lt hw.le_size hsize
  have horder : ∀ m : Machine, Reachable img m → InOrder img (Listing.Expected img l.lines) m :=
    fun m hm => hm.inOrder (hc.safeCode hw hlines hdata)
  refine ⟨(horder m hm).image, fun hin => ?_, fun fuel f m' hrun => ?_⟩
  · obtain ⟨line, hline, ho, hread⟩ := (horder m hm).ip.line hw hlines hin
    refine ⟨line, hline, ho, hread, ?_⟩
    rw [fetch, (horder m hm).image, if_pos hin, hread]
  · have hf : f.fault.OfExecution := by
      refine hm.ofExecution (fun m hm hin => ?_) hrun
      rw [(horder m hm).image] at hin ⊢
      obtain ⟨line, -, -, hread⟩ := (horder m hm).ip.line hw hlines hin
      exact ⟨_, hread⟩
    constructor
    · intro byte hb
      rw [hb] at hf
      exact hf
    · intro e he
      rw [he] at hf
      exact hf

/-- A closure that is called and returns, in an image whose data is no code. After three steps
the machine is in the body of the closure. -/
theorem control_flow_on_lines_closure :
    let img : Image := ⟨[13, 0, 0, 0, 1, 12, 0, 0, 0, 10, 24, 26, 26, 255], 13⟩
    let lines : List Listing.Line :=
      [⟨4, ⟨.pushClosure, [.int 12]⟩⟩, ⟨9, ⟨.pushUnit, []⟩⟩, ⟨10, ⟨.swapCall, []⟩⟩, ⟨11, ⟨.ret, []⟩⟩,
        ⟨12, ⟨.ret, []⟩⟩]
    let frame : Frame := Frame.call 0 12 ⟨11, 0⟩
    let m : Machine := ⟨img, 12, [.unit], Frames.initial.push frame, 1, {}⟩
    img.WellFormed ∧ Listing.linesOf img = .ok lines ∧ Listing.Closed img lines ∧ Reachable img m ∧
      img.inCode m.ip = true ∧
      ∃ line ∈ lines, line.offset = m.ip ∧ m.fetch = .ok (line.instruction, 1) := by
  intro img lines frame m
  have hw : img.WellFormed := by decide
  have hlines : Listing.linesOf img = .ok lines := by decide
  have hl : Listing.ofImage img = .ok ⟨img.size, img.dataOffset, img.digest, lines, img.data⟩ :=
    Listing.ofImage_eq_ok_iff.mpr ⟨hlines, rfl⟩
  have hc : Listing.Closed img lines := by
    simp [Listing.Closed, Instruction.destinations, lines]
  have hm : Reachable img m := by
    have hrun : Machine.run 3 { image := img } = .running m := rfl
    exact (Reachable.start {}).run (hrun ▸ Progress.Leaves.running m)
  have hin : img.inCode m.ip = true := by decide
  obtain ⟨line, hline, ho, -, hfetch⟩ := (control_flow_on_lines hw (by decide) hl hc hm).2.1 hin
  refine ⟨hw, hlines, hc, hm, hin, line, hline, ho, ?_⟩
  have hret : line.instruction.bytes.length = 1 := by
    have hall : ∀ line ∈ lines, line.offset = 12 → line.instruction.bytes.length = 1 := by decide
    exact hall line hline ho
  rw [hfetch, hret]

end Machine

end StackCode
