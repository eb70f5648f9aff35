import StackCode.Proofs.Listing.Lines
import StackCode.Proofs.Machine.History

/-!
# Fetching and listing

A listing is read from the image cut off where the data begins. The machine asks only whether an
instruction begins in the code and then reads it from the whole image. So both find the same
instruction wherever it ends in the code (`decode_beforeData_iff`). The machine alone finds one
that begins in the code and ends in the data (`Overruns`), and executes it, with bytes of the data
as operands. These are the only instructions that the two disagree about, and the only ones that
depend on the data.
-/

namespace StackCode

/-- An instruction is found in the first bytes of an image exactly if it is found in the image
and ends within these bytes. -/
theorem Instruction.decode_take_eq_ok_iff {image : List UInt8} {limit offset n : Nat}
    {i : Instruction} :
    decode (image.take limit) offset = .ok (i, n) ↔
      decode image offset = .ok (i, n) ∧ offset + n ≤ limit := by
  rw [decode_eq_ok_iff_bytes, decode_eq_ok_iff_bytes, List.drop_take, List.prefix_take_iff]
  have hpos := i.length_bytes_pos
  constructor
  · intro h
    obtain ⟨he, hn, hp, hle⟩ := h
    exact ⟨⟨he, hn, hp⟩, by omega⟩
  · intro h
    obtain ⟨⟨he, hn, hp⟩, hle⟩ := h
    exact ⟨he, hn, hp, by omega⟩

namespace Machine

theorem Reachable.image_eq {img : Image} {m : Machine} (h : Reachable img m) : m.image = img :=
  (h.inOrder (safeCode_true img)).image

/-- An instruction is fetched exactly if it is found in the whole image and begins in the code. -/
theorem fetch_eq_ok_iff {m : Machine} {i : Instruction} {n : Nat} :
    m.fetch = .ok (i, n) ↔
      m.image.inCode m.ip = true ∧ Instruction.decode m.image.bytes m.ip = .ok (i, n) := by
  constructor
  · intro h
    obtain ⟨hin, hdecode, -⟩ := exists_action_of_fetch h
    exact ⟨hin, hdecode⟩
  · intro h
    rw [fetch, if_pos h.1, h.2]

/-- An instruction in the code that ends there is found by the machine and in the image cut off
before the data, or by neither. -/
theorem decode_beforeData_iff {m : Machine} (hin : m.image.inCode m.ip = true) {i : Instruction}
    {n : Nat} :
    Instruction.decode m.image.beforeData m.ip = .ok (i, n) ↔
      m.fetch = .ok (i, n) ∧ m.ip + n ≤ m.image.dataOffset := by
  rw [fetch_eq_ok_iff, Image.beforeData, Instruction.decode_take_eq_ok_iff]
  simp only [hin, true_and]

/-- The next instruction begins in the code and ends in the data. -/
def Overruns (m : Machine) : Prop :=
  ∃ i n, m.fetch = .ok (i, n) ∧ m.image.dataOffset < m.ip + n

/-- The instruction that is fetched is the same whatever the data is exactly if it ends in the
code. -/
theorem fetch_of_other_data_iff {m : Machine} {i : Instruction} {n : Nat}
    (h : m.fetch = .ok (i, n)) :
    m.ip + n ≤ m.image.dataOffset ↔
      ∀ other : Image, other.dataOffset = m.image.dataOffset →
        other.beforeData = m.image.beforeData → { m with image := other }.fetch = .ok (i, n) := by
  obtain ⟨hin, -⟩ := fetch_eq_ok_iff.mp h
  constructor
  · intro hle other hoffset hbefore
    have hin' : other.inCode m.ip = true := by
      rw [Image.inCode, hoffset]
      exact hin
    have hcut := (decode_beforeData_iff hin).mpr ⟨h, hle⟩
    rw [← hbefore] at hcut
    exact ((decode_beforeData_iff hin').mp hcut).1
  · intro hall
    -- an image without data has nothing for the instruction to end in
    have hbefore : m.image.beforeData.take m.image.dataOffset = m.image.beforeData := by
      rw [Image.beforeData, List.take_take, Nat.min_self]
    obtain ⟨-, hcut⟩ :=
      fetch_eq_ok_iff.mp (hall ⟨m.image.beforeData, m.image.dataOffset⟩ rfl hbefore)
    exact ((decode_beforeData_iff hin).mp hcut).2

/-- **The machine and a listing agree about the instructions that end in the code.** Whatever
machine a program reaches, and wherever in the code it goes on: an instruction is found in the
image cut off before the data exactly if the machine fetches it and it ends in the code. So the
two find the same exactly if the instruction does not overrun the code, and what is fetched has
nothing to do with the data exactly if it ends in the code. -/
theorem fetch_agrees_before_data {img : Image} {m : Machine} (hm : Reachable img m) {ip : Nat}
    (hin : img.inCode ip = true) :
    (∀ i n, Instruction.decode img.beforeData ip = .ok (i, n) ↔
      { m with ip := ip }.fetch = .ok (i, n) ∧ ip + n ≤ img.dataOffset) ∧
    ((∀ i n, { m with ip := ip }.fetch = .ok (i, n) ↔
      Instruction.decode img.beforeData ip = .ok (i, n)) ↔ ¬ { m with ip := ip }.Overruns) ∧
    ∀ i n, { m with ip := ip }.fetch = .ok (i, n) →
      (ip + n ≤ img.dataOffset ↔
        ∀ other : Image, other.dataOffset = img.dataOffset → other.beforeData = img.beforeData →
          { m with ip := ip, image := other }.fetch = .ok (i, n)) := by
  obtain rfl := hm.image_eq
  have hfind : ∀ i n, Instruction.decode m.image.beforeData ip = .ok (i, n) ↔
      { m with ip := ip }.fetch = .ok (i, n) ∧ ip + n ≤ m.image.dataOffset :=
    fun i n => decode_beforeData_iff (m := { m with ip := ip }) hin
  refine ⟨hfind, ?_, fun i n h => fetch_of_other_data_iff h⟩
  simp only [hfind, Overruns]
  constructor
  · intro hagree hover
    obtain ⟨i, n, hfetch, hlt⟩ := hover
    exact absurd ((hagree i n).mp hfetch).2 (Nat.not_le_of_lt hlt)
  · intro hnot i n
    constructor
    · intro hfetch
      refine ⟨hfetch, Nat.le_of_not_lt fun hlt => hnot ?_⟩
      exact ⟨i, n, hfetch, hlt⟩
    · intro h
      exact h.1

/-- After one step a machine is at its last instruction, which takes the whole rest of the code
and ends where the data begins. -/
theorem fetch_agrees_before_data_string :
    let img : Image := ⟨[10, 0, 0, 0, 10, 6, 97, 98, 99, 0, 255], 10⟩
    let m : Machine := ⟨img, 5, [.unit], .initial, 0, {}⟩
    Reachable img m ∧ m.fetch = .ok (⟨.pushString, [.text [97, 98, 99]]⟩, 5) ∧
      Instruction.decode img.beforeData m.ip = .ok (⟨.pushString, [.text [97, 98, 99]]⟩, 5) ∧
      ¬ m.Overruns := by
  intro img m
  have hm : Reachable img m := by
    have hrun : Machine.run 1 { image := img } = .running m := rfl
    exact (Reachable.start {}).run (hrun ▸ Progress.Leaves.running m)
  have hfetch : m.fetch = .ok (⟨.pushString, [.text [97, 98, 99]]⟩, 5) := by decide
  have hin : img.inCode m.ip = true := by decide
  obtain ⟨hfind, hagree, -⟩ := fetch_agrees_before_data hm hin
  refine ⟨hm, hfetch, (hfind _ _).mpr ⟨hfetch, by decide⟩, hagree.mp fun i n => ?_⟩
  rw [hfind]
  constructor
  · intro h
    cases hfetch.symm.trans h
    exact ⟨hfetch, by decide⟩
  · intro h
    exact h.1

/-- **A string that begins in the code can end in the data.** The machine pushes it, though the
code alone holds no whole instruction, and there is no listing. -/
theorem fetch_reads_data :
    let img : Image := ⟨[7, 0, 0, 0, 6, 97, 98, 99, 0, 26], 7⟩
    let m : Machine := { image := img }
    img.WellFormed ∧ Reachable img m ∧ img.inCode m.ip = true ∧ m.Overruns ∧
      Instruction.decode img.beforeData m.ip = .error (.unterminatedString 5) ∧
      m.fetch = .ok (⟨.pushString, [.text [97, 98, 99]]⟩, 5) ∧
      m.step = .running { m with ip := 9, stack := [.str [97, 98, 99]] } ∧
      Listing.linesOf img = .error (.unterminatedString 5) := by
  intro img m
  have hfetch : m.fetch = .ok (⟨.pushString, [.text [97, 98, 99]]⟩, 5) := by decide
  exact ⟨by decide, .start {}, by decide, ⟨_, _, hfetch, by decide⟩, by decide, hfetch, rfl,
    by decide⟩

end Machine

end StackCode
