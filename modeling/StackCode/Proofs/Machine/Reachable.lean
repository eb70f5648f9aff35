import StackCode.Proofs.Codec
import StackCode.Proofs.Machine.Action

/-!
# The machines that a program reaches

A machine is reached from the start by any number of steps. A step that returns or fails
also leaves a machine behind, and that machine can be run again (`Reachable`). What a step
can do is said once (`Stepped`): which instruction is fetched, and which of the effects of
its action follows.
-/

namespace StackCode

open Result

/-- The machine that a step or a run leaves behind, however it ends. -/
inductive Progress.Leaves : Progress → Machine → Prop where
  | running (m : Machine) : Leaves (.running m) m
  | returned (v : Value) (m : Machine) : Leaves (.returned v m) m
  | failed (f : Failure) (m : Machine) : Leaves (.failed f m) m

namespace Machine

/-- The machines that a program reaches: from the start, with any sink, by any number of
steps, those included that return or fail. -/
inductive Reachable (img : Image) : Machine → Prop where
  | start (sink : Sink) : Reachable img { image := img, sink := sink }
  | step {m m' : Machine} : Reachable img m → m.step.Leaves m' → Reachable img m'

/-- A run reaches what its steps reach. -/
theorem Reachable.run {img : Image} {m m' : Machine} {fuel : Nat} (hm : Reachable img m)
    (h : (m.run fuel).Leaves m') : Reachable img m' := by
  induction fuel generalizing m with
  | zero =>
    cases h
    exact hm
  | succ fuel ih =>
    rw [Machine.run] at h
    split at h
    · next m₁ hstep => exact ih (hm.step (hstep ▸ .running m₁)) h
    · exact hm.step h

/-- A run that fails does so in a step of a machine that is reached. -/
theorem Reachable.exists_step_of_run {img : Image} {m m' : Machine} {fuel : Nat} {f : Failure}
    (hm : Reachable img m) (h : m.run fuel = .failed f m') :
    ∃ m₀, Reachable img m₀ ∧ m₀.step = .failed f m' := by
  induction fuel generalizing m with
  | zero => cases h
  | succ fuel ih =>
    rw [Machine.run] at h
    split at h
    · next m₁ hstep => exact ih (hm.step (hstep ▸ .running m₁)) h
    · exact ⟨m, hm, h⟩

/-! ### A step -/

/-- An instruction that is fetched has an action. -/
theorem exists_action_of_fetch {m : Machine} {i : Instruction} {n : Nat}
    (h : m.fetch = .ok (i, n)) :
    m.image.inCode m.ip = true ∧ Instruction.decode m.image.bytes m.ip = .ok (i, n) ∧
      ∃ a, i.action? = some a ∧ a.destinations = i.destinations ∧ (∀ v, a = .push v → v.Plain) ∧
        ∀ name, a = .pushBuiltin name → i = ⟨.pushBuiltin, [.text name]⟩ := by
  unfold fetch at h
  split at h
  · next hin =>
    split at h
    · next found hdecode =>
      cases h
      obtain ⟨he, -, -⟩ := Instruction.decode_eq_ok_iff_bytes.mp hdecode
      exact ⟨hin, hdecode, Instruction.exists_action he.fits⟩
    · cases h
    · cases h
  · cases h

/-- An instruction that is fetched is one that has an encoding. -/
theorem encodable_of_fetch {m : Machine} {i : Instruction} {n : Nat} (h : m.fetch = .ok (i, n)) :
    i.Encodable := by
  obtain ⟨-, hdecode, -⟩ := exists_action_of_fetch h
  exact (Instruction.decode_eq_ok_iff_bytes.mp hdecode).1

/-- Dispatching an instruction performs its action, with the instruction pointer behind it. -/
theorem dispatch_eq {m : Machine} {i : Instruction} {n : Nat} {a : Action} (ha : i.action? = some a) :
    m.dispatch i n = (perform a).run { m with ip := m.ip + n } := by
  rw [dispatch, execute, ha]

/-- **What a step can do.** Before an instruction is executed, the instruction pointer is
moved behind it. -/
inductive Stepped (m : Machine) : Progress → Prop where
  /-- There is no instruction at the instruction pointer, and nothing changes. -/
  | stuck {mnemonic : String} {fault : Fault} (fetch : m.fetch = .error (mnemonic, fault)) :
    Stepped m (.failed (m.failure m.ip mnemonic fault) m)
  /-- The instruction has one of its effects. -/
  | running {i : Instruction} {n : Nat} {a : Action} {m' : Machine} (fetch : m.fetch = .ok (i, n))
    (action : i.action? = some a) (effect : Effect a { m with ip := m.ip + n } none m') :
    Stepped m (.running m')
  /-- The program returns. -/
  | returned {i : Instruction} {n : Nat} {a : Action} {v : Value} {m' : Machine}
    (fetch : m.fetch = .ok (i, n)) (action : i.action? = some a)
    (effect : Effect a { m with ip := m.ip + n } (some v) m') (flush : m'.sink.flush = none) :
    Stepped m (.returned v m')
  /-- The program returns, and the sink refuses to be flushed. -/
  | unflushed {i : Instruction} {n : Nat} {a : Action} {v : Value} {m' : Machine} {reason : String}
    (fetch : m.fetch = .ok (i, n)) (action : i.action? = some a)
    (effect : Effect a { m with ip := m.ip + n } (some v) m') (flush : m'.sink.flush = some reason) :
    Stepped m (.failed (m'.failure m.ip Opcode.ret.mnemonic (.output reason)) m')
  /-- The instruction fails. -/
  | failed {i : Instruction} {n : Nat} {a : Action} {fault : Fault} {m' : Machine}
    (fetch : m.fetch = .ok (i, n)) (action : i.action? = some a)
    (fails : Fails a { m with ip := m.ip + n } fault m') :
    Stepped m (.failed (m'.failure m.ip i.opcode.mnemonic fault) m')

theorem stepped (m : Machine) : Stepped m m.step := by
  unfold step
  split
  · next hfetch => exact .stuck hfetch
  · next i n hfetch =>
    obtain ⟨-, -, a, ha, -⟩ := exists_action_of_fetch hfetch
    have hperform := yields_perform a { m with ip := m.ip + n }
    rw [dispatch_eq ha]
    simp only
    split
    · next hrun => exact .running hfetch ha (hperform.ok hrun)
    · next hrun =>
      split
      · next hflush => exact .returned hfetch ha (hperform.ok hrun) hflush
      · next hflush => exact .unflushed hfetch ha (hperform.ok hrun) hflush
    · next hrun => exact .failed hfetch ha (hperform.error hrun)

end Machine

end StackCode
