import StackCode.Proofs.Machine.FrameGraph

/-!
# What failures leave

An instruction that fails has been passed, and the values that it popped are gone; otherwise the
machine is as it was (`Aborts`). No frame has changed, so an instruction that is to change a frame
or to jump does all its checks first, and only an instruction that fails to write has written
anything. Where there is no instruction, nothing happens at all, so the machine is stuck: however
often it is run again, it fails in the same way (`rerun_of_stuck`). What the report shows of the stack
and the frames is what they are after the failure (`shows_of_failed`).
-/

namespace StackCode

/-- Whether an instruction with this opcode pops values only when it succeeds. -/
def Opcode.keepsStack : Opcode → Bool
  | pushTuple | pushData | pushVar | dup | pushBuiltin | enter => true
  | _ => false

/-- Whether an action pops values only when it succeeds. -/
def Action.keepsStack : Action → Bool
  | pushTuple _ | pushData .. | pushVar .. | dup | pushBuiltin _ | enter _ => true
  | _ => false

theorem Instruction.keepsStack_eq {i : Instruction} {a : Action}
    (hfits : fitAll i.operands i.opcode.signature = true) (h : i.action? = some a)
    (hi : i.opcode.keepsStack = true) : a.keepsStack = true := by
  obtain ⟨op, os⟩ := i
  cases op with
  | dup =>
    obtain rfl := fitAll_nil hfits
    cases h
    rfl
  | pushTuple | enter =>
    obtain ⟨n, rfl⟩ := fitAll_word (by simp) hfits
    cases h
    rfl
  | pushBuiltin =>
    obtain ⟨s, rfl⟩ := fitAll_text (by simp) hfits
    cases h
    rfl
  | pushVar =>
    obtain ⟨depth, offset, rfl⟩ := fitAll_pushVar hfits
    cases h
    rfl
  | pushData =>
    obtain ⟨position, ordinal, count, rfl⟩ := fitAll_pushData hfits
    cases h
    rfl
  | _ => cases hi

namespace Machine

/-! ### Instructions -/

/-- An instruction `i` of `n` bytes has failed: the report, and the machine that is left. -/
structure Aborts (m : Machine) (i : Instruction) (n : Nat) (f : Failure) (m' : Machine) : Prop where
  /-- The report names the instruction and shows the stack and the frames that are left. -/
  report : f = ⟨m.ip, i.opcode.mnemonic, f.fault, m'.printer.snapshot m'.stack.reverse m'.current⟩
  image : m'.image = m.image
  /-- The instruction has been passed. -/
  ip : m'.ip = m.ip + n
  /-- The current frame is still current. -/
  current : m'.current = m.current
  /-- All frames are as they were. -/
  frames : m'.frames = m.frames
  /-- At most two values are gone from the stack, its top values. -/
  stack : ∃ k ≤ 2, m'.stack = m.stack.drop k
  /-- No value is gone if the instruction pops only when it succeeds. -/
  kept : i.opcode.keepsStack = true → m'.stack = m.stack
  /-- Nothing is written unless writing is what failed. -/
  sink : (∀ reason, f.fault ≠ .output reason) → m'.sink = m.sink

/-- An action that pops values only when it succeeds leaves the machine as it is when it fails. -/
theorem yields_of_keepsStack {a : Action} (h : a.keepsStack = true) (m : Machine) :
    Yields (perform a) m (fun _ _ => True) fun _ m' => m' = m := by
  cases a with
  | pushTuple count | pushData position ordinal count =>
    simp only [perform, yields_bind, yields_popMany, yields_push, yields_pure]
    split
    · trivial
    · split <;> trivial
  | pushVar depth offset =>
    simp only [perform]
    split
    · rfl
    · simp only [yields_bind, yields_get, yields_lift, yields_push, yields_pure]
      split
      · split <;> trivial
      · trivial
  | dup =>
    simp only [perform, yields_bind, yields_get]
    split <;> trivial
  | pushBuiltin name =>
    simp only [perform]
    split <;> trivial
  | enter size =>
    simp only [perform]
    split
    · rfl
    · simp only [yields_bind, yields_get, yields_lift, yields_modify, yields_pure]
      split <;> trivial
  | _ => cases h

section Dispatch

variable {m m' : Machine} {i : Instruction} {n : Nat} (hfetch : m.fetch = .ok (i, n))
include hfetch

/-- Dispatching an instruction performs its action, with the instruction pointer behind it. -/
theorem exists_dispatch_eq :
    ∃ a, i.action? = some a ∧ m.dispatch i n = (perform a).run { m with ip := m.ip + n } := by
  obtain ⟨-, -, a, ha, -⟩ := exists_action_of_fetch hfetch
  exact ⟨a, ha, dispatch_eq ha⟩

theorem aborts_of_dispatch {fault : Fault} (h : m.dispatch i n = .error fault m') :
    m.Aborts i n (m'.failure m.ip i.opcode.mnemonic fault) m' := by
  obtain ⟨a, ha, hdispatch⟩ := exists_dispatch_eq hfetch
  rw [hdispatch] at h
  have hkept : i.opcode.keepsStack = true → m'.stack = m.stack := by
    intro hi
    have ha' := Instruction.keepsStack_eq (encodable_of_fetch hfetch).fits ha hi
    rw [(yields_of_keepsStack ha' _).error h]
  obtain ⟨-, k, hk, sink, rfl, hsink⟩ := (yields_perform a _).error h
  refine ⟨rfl, rfl, rfl, rfl, rfl, ⟨k, hk, rfl⟩, hkept, fun hnot => ?_⟩
  rcases hsink with rfl | ⟨reason, hreason⟩
  · rfl
  · exact absurd hreason (hnot reason)

/-- The program returns, but its output cannot be flushed. -/
theorem aborts_of_flush {v : Value} {reason : String} (h : m.dispatch i n = .ok (some v) m') :
    m.Aborts i n (m'.failure m.ip Opcode.ret.mnemonic (.output reason)) m' := by
  obtain ⟨a, ha, hdispatch⟩ := exists_dispatch_eq hfetch
  rw [hdispatch] at h
  have heffect := (yields_perform a _).ok h
  cases heffect with
  | @finish _ stack sink action _ popped =>
    cases eq_of_fetch hfetch (action ▸ ha) rfl
    have hstack : m.stack = v :: stack := popped
    exact ⟨rfl, rfl, rfl, rfl, rfl, ⟨1, by omega, by rw [hstack]; rfl⟩, nofun,
      fun hnot => absurd rfl (hnot reason)⟩

/-- **A failing instruction leaves everything but what it popped.** -/
theorem aborts_of_step {f : Failure} (h : m.step = .failed f m') : m.Aborts i n f m' := by
  rw [step, hfetch] at h
  simp only at h
  split at h
  · cases h
  · next hdispatch =>
    split at h
    · cases h
    · cases h
      exact aborts_of_flush hfetch hdispatch
  · next hdispatch =>
    cases h
    exact aborts_of_dispatch hfetch hdispatch

end Dispatch

/-! ### Reports -/

/-- A step that fails reports with the snapshot of the machine that it leaves. -/
theorem snapshot_of_failed {m m' : Machine} {f : Failure} (h : m.step = .failed f m') :
    f.snapshot = m'.printer.snapshot m'.stack.reverse m'.current := by
  have hstep := stepped m
  rw [h] at hstep
  cases hstep with
  | stuck | unflushed | failed => rfl

/-- The report of a failure shows the stack and the frames as the failure has left them. -/
theorem shows_of_failed {img : Image} {m m' : Machine} {f : Failure} (hm : Reachable img m)
    (h : m.step = .failed f m') : m'.printer.Shows m'.stack.reverse m'.current f.snapshot := by
  have hm' : Reachable img m' := hm.step (h ▸ .failed f m')
  rw [snapshot_of_failed h]
  exact Printer.shows_snapshot hm'.wellLinked.descending _ _

/-! ### Stuck machines -/

/-- A machine after runs, one after the other, each with a bound on the number of its steps. -/
def rerun (m : Machine) (fuels : List Nat) : Machine :=
  fuels.foldl (fun m fuel => (m.run fuel).machine) m

section Stuck

variable {m : Machine} {mnemonic : String} {fault : Fault}
  (hstuck : m.fetch = .error (mnemonic, fault))
include hstuck

/-- Why there is no instruction. -/
theorem fault_of_fetch :
    fault = .ipOutOfBounds m.ip ∨ (∃ byte, fault = .unknownOpcode byte) ∨ ∃ e, fault = .malformed e := by
  unfold fetch at hstuck
  split at hstuck
  · split at hstuck
    · cases hstuck
    · cases hstuck
      exact .inr (.inl ⟨_, rfl⟩)
    · cases hstuck
      exact .inr (.inr ⟨_, rfl⟩)
  · cases hstuck
    exact .inl rfl

theorem step_of_stuck : m.step = .failed (m.failure m.ip mnemonic fault) m := by
  rw [step, hstuck]

theorem run_of_stuck (fuel : Nat) : m.run (fuel + 1) = .failed (m.failure m.ip mnemonic fault) m :=
  run_of_failed (step_of_stuck hstuck) fuel

/-- Runs leave a stuck machine as it is. -/
theorem rerun_of_stuck (fuels : List Nat) : m.rerun fuels = m := by
  induction fuels with
  | nil => rfl
  | cons fuel fuels ih =>
    have hrun : (m.run fuel).machine = m := by
      cases fuel with
      | zero => rfl
      | succ fuel =>
        rw [run_of_stuck hstuck]
        rfl
    rw [rerun, List.foldl_cons, hrun]
    exact ih

end Stuck

/-- **What failures leave.** Let a machine be at an instruction, whether a program reaches this
machine or not. If dispatching it fails, so does the step. A step that fails reports the
instruction and leaves the machine behind it, with the stack and the frames that the report shows:
the same frames with the same contents, the same current frame, and the stack without at most two
of its top values. An instruction that makes a tuple or a constructor value, reads a variable,
duplicates the top, pushes a builtin or allocates slots leaves the stack as it was. The output is as it
was unless writing it is what failed. If there is no instruction, the step fails and nothing
changes, so each further run fails with the same report and leaves the same machine. On a machine that
a program reaches, the report of any failure shows the stack that is left from the bottom to the top, and
the current frame with all frames around it. -/
theorem failures_leave (m : Machine) :
    (∀ i n, m.fetch = .ok (i, n) →
      (∀ fault m', m.dispatch i n = .error fault m' →
        m.step = .failed (m'.failure m.ip i.opcode.mnemonic fault) m') ∧
      ∀ f m', m.step = .failed f m' → m.Aborts i n f m') ∧
    (∀ mnemonic fault, m.fetch = .error (mnemonic, fault) →
      (fault = .ipOutOfBounds m.ip ∨ (∃ byte, fault = .unknownOpcode byte) ∨
        ∃ e, fault = .malformed e) ∧
      m.step = .failed (m.failure m.ip mnemonic fault) m ∧
      ∀ fuels, m.rerun fuels = m ∧
        ∀ fuel, (m.rerun fuels).run (fuel + 1) = .failed (m.failure m.ip mnemonic fault) m) ∧
    ∀ img f m', Reachable img m → m.step = .failed f m' →
      m'.printer.Shows m'.stack.reverse m'.current f.snapshot := by
  refine ⟨fun i n hfetch => ⟨fun fault m' h => ?_, fun f m' => aborts_of_step hfetch⟩,
    fun mnemonic fault hstuck => ⟨fault_of_fetch hstuck, step_of_stuck hstuck, fun fuels => ?_⟩,
    fun img f m' hm h => shows_of_failed hm h⟩
  · obtain ⟨a, ha, hdispatch⟩ := exists_dispatch_eq hfetch
    exact step_of_error hfetch ha (hdispatch ▸ h)
  · rw [rerun_of_stuck hstuck]
    exact ⟨rfl, run_of_stuck hstuck⟩

/-- A print that can write only a part of a string, then a tuple of too many values, and then the
end of the code, where the machine is stuck. -/
theorem failures_leave_print :
    let img : Image := ⟨[33, 0, 0, 0, 10, 0, 36, 36, 98, 117, 105, 108, 116, 105, 110, 45, 112, 114, 105, 110,
      116, 0, 6, 97, 98, 99, 0, 24, 8, 5, 0, 0, 0], 33⟩
    let sink : Sink := { capacity := some 2 }
    let m : Machine := ⟨img, 27, [.str [97, 98, 99], .builtin (.print .raw), .unit], .initial, 0, sink⟩
    Reachable img m ∧ m.fetch = .ok (⟨.swapCall, []⟩, 1) ∧
      ∃ f m', m.step = .failed f m' ∧ f.fault = .output Sink.fullReason ∧ m'.frames = m.frames ∧
        m'.stack = [.unit] ∧ m'.sink.written = #[97, 98] ∧ f.snapshot = "[()] :: <-, -, -, ->" ∧
        m'.printer.Shows [.unit] 0 f.snapshot ∧
        ∃ g m₂, m'.step = .failed g m₂ ∧ m₂.stack = m'.stack ∧ m₂.sink = m'.sink ∧
          ∃ report, (m₂.rerun [3, 0, 7]).run 1 = .failed report m₂ := by
  intro img sink m
  have hm : Reachable img m := by
    have hrun : Machine.run 3 { image := img, sink := sink } = .running m := by decide +kernel
    exact (Reachable.start sink).run (hrun ▸ Progress.Leaves.running m)
  have hfetch : m.fetch = .ok (⟨.swapCall, []⟩, 1) := by decide
  -- the machine that each of the two failures leaves
  let m₁ : Machine := { m with ip := 28, stack := [.unit], sink := { sink with written := #[97, 98] } }
  let m₂ : Machine := { m₁ with ip := 33 }
  have hstep : m.step = .failed (m₁.failure 27 "SWAP_CALL" (.output Sink.fullReason)) m₁ := by
    decide +kernel
  have hfetch₁ : m₁.fetch = .ok (⟨.pushTuple, [.int 5]⟩, 5) := by decide
  have hstep₁ : m₁.step = .failed (m₂.failure 28 "PUSH_TUPLE" .stackUnderflow) m₂ := by
    decide +kernel
  have hstuck : m₂.fetch = .error ("?", .ipOutOfBounds 33) := by decide
  have haborts := ((failures_leave m).1 _ _ hfetch).2 _ _ hstep
  have haborts₁ := ((failures_leave m₁).1 _ _ hfetch₁).2 _ _ hstep₁
  have hruns := ((failures_leave m₂).2.1 _ _ hstuck).2.2 [3, 0, 7]
  have hshows := (failures_leave m).2.2 _ _ _ hm hstep
  have htext : m₁.printer.snapshot [.unit] 0 = "[()] :: <-, -, -, ->" := by decide +kernel
  exact ⟨hm, hfetch, _, m₁, hstep, rfl, haborts.frames, rfl, rfl, htext, hshows, _, m₂, hstep₁, haborts₁.kept rfl,
    haborts₁.sink nofun, _, hruns.2 0⟩

end Machine

end StackCode
