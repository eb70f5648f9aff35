import StackCode.Proofs.Machine.Parallel

/-!
# The data is only printed

Two images with the same code and different data are run side by side. As long as the instructions
that the first run executes end in the code, both machines fetch the same (`Alike.fetch`), do the
same (`parallel_perform`) and therefore keep abreast (`abreast_step`, `alike_run`): the data decides
what is printed, and whether it can be printed, and nothing else.
-/

namespace StackCode

open Instruction

theorem Image.SameCode.drop_beforeData {img other : Image} (h : img.SameCode other) {offset : Nat}
    (hle : headerSize ≤ offset) : other.beforeData.drop offset = img.beforeData.drop offset := by
  have hcode : other.beforeData.drop headerSize = img.beforeData.drop headerSize := h.code
  rw [← Nat.add_sub_cancel' hle, ← List.drop_drop, ← List.drop_drop, hcode]

theorem Image.SameCode.inCode {img other : Image} (h : img.SameCode other) (offset : Nat) :
    other.inCode offset = img.inCode offset := by
  rw [Image.inCode, Image.inCode, h.dataOffset]

/-- An instruction that ends in the code is found whatever the data is. -/
theorem Image.SameCode.decode {img other : Image} (h : img.SameCode other) {offset n : Nat}
    {i : Instruction} (hle : headerSize ≤ offset) (hi : decode img.beforeData offset = .ok (i, n)) :
    decode other.beforeData offset = .ok (i, n) := by
  rw [decode_eq_ok_iff_bytes] at hi ⊢
  rw [h.drop_beforeData hle]
  exact hi

namespace Machine

/-- Machines that are alike fetch the same instruction if it ends in the code. -/
theorem Alike.fetch {m n : Machine} (h : Alike m n) {i : Instruction} {size : Nat}
    (hfetch : m.fetch = .ok (i, size)) (hle : m.ip + size ≤ m.image.dataOffset) :
    n.fetch = .ok (i, size) := by
  obtain ⟨img, sink, himage, -, -⟩ := h
  obtain ⟨hin, -⟩ := fetch_eq_ok_iff.mp hfetch
  have hin' : img.inCode m.ip = true := himage.inCode m.ip ▸ hin
  have hheader : Image.headerSize ≤ m.ip := by
    simp only [Image.inCode, Bool.and_eq_true, decide_eq_true_eq] at hin
    exact hin.1
  have hcut := himage.decode hheader ((decode_beforeData_iff hin).mpr ⟨hfetch, hle⟩)
  exact ((decode_beforeData_iff (m := { m with image := img, sink := sink }) hin').mp hcut).1

theorem Alike.flush {m n : Machine} (h : Alike m n) : m.sink.flush = none ∧ n.sink.flush = none := by
  obtain ⟨img, sink, -, hleft, hright⟩ := h
  simp only [Sink.flush, hleft.refusesFlush, hright.refusesFlush, Bool.false_eq_true, if_false,
    and_self]

/-- How two machines side by side can come out of a step. -/
inductive Abreast : Progress → Progress → Prop where
  /-- Both go on. -/
  | running {m n : Machine} : Alike m n → Abreast (.running m) (.running n)
  /-- Both return the same value. -/
  | returned {m n : Machine} (v : Value) : Alike m n → Abreast (.returned v m) (.returned v n)
  /-- Both fail at the same instruction with the same fault. -/
  | failed {m n : Machine} {f g : Failure} : Alike m n → g.ip = f.ip → g.mnemonic = f.mnemonic →
    g.fault = f.fault → Abreast (.failed f m) (.failed g n)
  /-- The first has no type record for what it prints. -/
  | left {m : Machine} {f : Failure} {q : Progress} : f.fault.Unrecorded → Abreast (.failed f m) q
  /-- The second has no type record for what it prints. -/
  | right {n : Machine} {g : Failure} {p : Progress} : g.fault.Unrecorded → Abreast p (.failed g n)

/-- The next instruction, if the machine is in the code at all, is there and ends in the code. -/
def KeepsToCode (m : Machine) : Prop :=
  m.image.inCode m.ip = true → ∃ i size, decode m.image.bytes m.ip = .ok (i, size) ∧
    m.ip + size ≤ m.image.dataOffset

/-- **A step keeps machines abreast.** -/
theorem abreast_step {m n : Machine} (h : Alike m n) (hcode : m.KeepsToCode) :
    Abreast m.step n.step := by
  by_cases hin : m.image.inCode m.ip = true
  · obtain ⟨i, size, hdecode, hle⟩ := hcode hin
    have hm : m.fetch = .ok (i, size) := fetch_eq_ok_iff.mpr ⟨hin, hdecode⟩
    have hn := h.fetch hm hle
    obtain ⟨-, -, a, ha, -⟩ := exists_action_of_fetch hm
    obtain ⟨img, sink, himage, hleft, hright⟩ := h
    have hab := parallel_perform a _ _
      (.intro { m with ip := m.ip + size } img sink himage hleft hright)
    rw [step, step, hm, hn]
    simp only [dispatch_eq ha]
    generalize (perform a).run { m with ip := m.ip + size } = r at hab
    generalize (perform a).run { m with ip := m.ip + size, image := img, sink := sink } = r' at hab
    cases hab with
    | @ok result _ m' n' hresult halike =>
      obtain rfl := hresult
      cases result with
      | none => exact .running halike
      | some v =>
        simp only [halike.flush.1, halike.flush.2]
        exact .returned v halike
    | error halike => exact .failed halike rfl rfl rfl
    | left hf => exact .left hf
    | right hf => exact .right hf
  · -- outside the code, both are stuck at the same place
    obtain ⟨img, sink, himage, hleft, hright⟩ := h
    have hin' : ¬ img.inCode m.ip = true := himage.inCode m.ip ▸ hin
    rw [step, step, fetch, fetch, if_neg hin, if_neg hin']
    exact .failed (.intro m img sink himage hleft hright) rfl rfl rfl

/-- **A run keeps machines alike**, as far as both have come. -/
theorem alike_run {m n m' n' : Machine} {k : Nat} (h : Alike m n)
    (hcode : ∀ j m', m.run j = .running m' → m'.KeepsToCode) (hm : m.run k = .running m')
    (hn : n.run k = .running n') : Alike m' n' := by
  induction k generalizing m n with
  | zero =>
    cases hm
    cases hn
    exact h
  | succ k ih =>
    have hstep := abreast_step h (hcode 0 m rfl)
    rw [run] at hm hn
    split at hm
    · next m₁ hm₁ =>
      split at hn
      · next n₁ hn₁ =>
        rw [hm₁, hn₁] at hstep
        cases hstep with
        | running h₁ =>
          refine ih h₁ (fun j m' hj => hcode (j + 1) m' ?_) hm hn
          rw [run, hm₁]
          exact hj
      · next hdone => exact absurd hn (hdone n')
    · next hdone => exact absurd hm (hdone m')

/-- **The data decides only what is printed.** Let two images have the same code, and let the first
be run such that every instruction it comes to in the code is there and ends in the code. After any
number of steps that both make, both have the same instruction pointer, the same stack and the same
frames, with the same one current. In the next step both go on, or both return the same value, or
both fail at the same instruction with the same fault, unless one of them fails for want of a type
record. -/
theorem data_is_only_printed {img other : Image} {s t : Sink} (himage : img.SameCode other)
    (hs : s.Unlimited) (ht : t.Unlimited)
    (hcode : ∀ j m, Machine.run j { image := img, sink := s } = .running m →
      img.inCode m.ip = true →
        ∃ i size, decode img.bytes m.ip = .ok (i, size) ∧ m.ip + size ≤ img.dataOffset)
    {k : Nat} {m n : Machine} (hm : Machine.run k { image := img, sink := s } = .running m)
    (hn : Machine.run k { image := other, sink := t } = .running n) :
    n.ip = m.ip ∧ n.stack = m.stack ∧ n.current = m.current ∧ n.frames = m.frames ∧
      Abreast m.step n.step := by
  have hkeeps : ∀ j m, Machine.run j { image := img, sink := s } = .running m → m.KeepsToCode := by
    intro j m hj hin
    have hreach : Reachable img m := (Reachable.start s).run (hj ▸ Progress.Leaves.running m)
    rw [hreach.image_eq] at hin ⊢
    exact hcode j m hj hin
  have halike := alike_run (.intro { image := img, sink := s } other t himage hs ht) hkeeps hm hn
  have hstep := abreast_step halike (hkeeps k m hm)
  obtain ⟨_, _, -, -, -⟩ := halike
  exact ⟨rfl, rfl, rfl, rfl, hstep⟩

/-- A constructor value that is printed and then returned, with two records of its type that name
the type and its constructor differently: the runs print `A: T` and `B: U` and return the same. -/
theorem data_is_only_printed_names :
    let code : List UInt8 := [18, 0, 0, 0, 2, 18, 0, 0, 0, 0, 0, 0, 0, 0, 0, 0, 0, 26]
    let img : Image := ⟨code ++ [1, 0, 0, 0, 84, 0, 65, 0], 18⟩
    let other : Image := ⟨code ++ [1, 0, 0, 0, 85, 0, 66, 0], 18⟩
    let v : Value := .data 18 0 []
    let m : Machine := ⟨img, 17, [v], .initial, 0, {}⟩
    let n : Machine := ⟨other, 17, [v], .initial, 0, {}⟩
    Machine.run 1 { image := img } = .running m ∧ Machine.run 1 { image := other } = .running n ∧
      m.step = .returned v ⟨img, 18, [], .initial, 0, { written := #[65, 58, 32, 84, 10] }⟩ ∧
      n.step = .returned v ⟨other, 18, [], .initial, 0, { written := #[66, 58, 32, 85, 10] }⟩ ∧
      n.stack = m.stack ∧ Abreast m.step n.step := by
  intro code img other v m n
  have hm : Machine.run 1 { image := img } = .running m := rfl
  have hn : Machine.run 1 { image := other } = .running n := rfl
  have hmstep : m.step =
      .returned v ⟨img, 18, [], .initial, 0, { written := #[65, 58, 32, 84, 10] }⟩ := by
    decide +kernel
  have hnstep : n.step =
      .returned v ⟨other, 18, [], .initial, 0, { written := #[66, 58, 32, 85, 10] }⟩ := by
    decide +kernel
  have hcode : ∀ j m, Machine.run j { image := img, sink := {} } = .running m →
      img.inCode m.ip = true →
        ∃ i size, decode img.bytes m.ip = .ok (i, size) ∧ m.ip + size ≤ img.dataOffset := by
    intro j m' hj _
    obtain rfl | rfl | ⟨j, rfl⟩ : j = 0 ∨ j = 1 ∨ ∃ i, j = 1 + (i + 1) := by
      rcases j with _ | _ | j
      · exact .inl rfl
      · exact .inr (.inl rfl)
      · exact .inr (.inr ⟨j, by omega⟩)
    · cases hj
      exact ⟨⟨.pushData, [.int 18, .int 0, .int 0]⟩, 13, by decide⟩
    · cases hm.symm.trans hj
      exact ⟨⟨.ret, []⟩, 1, by decide⟩
    · rw [run_add hm, run, hmstep] at hj
      cases hj
  have himage : img.SameCode other := ⟨rfl, rfl⟩
  have hboth := data_is_only_printed himage ⟨rfl, rfl⟩ ⟨rfl, rfl⟩ hcode hm hn
  exact ⟨hm, hn, hmstep, hnstep, hboth.2.1, hboth.2.2.2.2⟩

end Machine

end StackCode
