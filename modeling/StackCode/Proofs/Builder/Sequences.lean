import StackCode.Proofs.Builder.Instructions
import StackCode.Proofs.Machine.Currying
import StackCode.Proofs.Machine.Fetch
import StackCode.Proofs.Machine.Output
import StackCode.Proofs.Machine.Slots
import StackCode.Proofs.Text.Utf8

/-!
# Sequences that print

Some sequences of instructions are emitted in one go: they print a string, a line feed or a
variable, or stop the program with a message. Each pushes a builtin, pushes its arguments and calls
it, and nothing of this stays on the stack. So wherever the sequence has been emitted, and whatever
machine comes to it, it does what it is for and leaves the machine behind itself
(`sequences_print`).
-/

namespace StackCode

namespace Machine

/-! ### Code at the instruction pointer -/

theorem fetch_of_codeAt {m : Machine} {i : Instruction} {is : List Instruction} {next : Nat}
    (h : m.image.CodeAt m.ip (i :: is) next) : m.fetch = .ok (i, i.bytes.length) :=
  fetch_eq_ok_iff.mpr h.1

/-- The instruction pushes a value on whatever stack the machine has, and does nothing else. -/
def Pushes (m : Machine) (i : Instruction) (v : Value) : Prop :=
  ∃ a, i.action? = some a ∧
    ∀ ip stack, (perform a).run { m with ip := ip, stack := stack } =
      .ok none { m with ip := ip, stack := v :: stack }

theorem Pushes.step {m : Machine} {i : Instruction} {v : Value} (h : m.Pushes i v) {ip n : Nat}
    {stack : List Value} (hfetch : { m with ip := ip, stack := stack }.fetch = .ok (i, n)) :
    { m with ip := ip, stack := stack }.step = .running { m with ip := ip + n, stack := v :: stack } := by
  obtain ⟨a, ha, hrun⟩ := h
  exact (step_eq_running_iff hfetch ha).mpr (hrun (ip + n) stack)

theorem pushes_of_push {i : Instruction} {v : Value} (h : i.action? = some (.push v)) (m : Machine) :
    m.Pushes i v :=
  ⟨_, h, fun _ _ => rfl⟩

/-- The instruction that pushes a builtin. -/
def naming (b : Builtin) : Instruction := ⟨.pushBuiltin, [.text (Text.Utf8.encode b.name)]⟩

theorem pushes_naming (b : Builtin) (m : Machine) : m.Pushes (naming b) (.builtin b) := by
  refine ⟨_, rfl, fun ip stack => run_eq_ok_iff.mpr ?_⟩
  simp only [perform, Text.Utf8.lossy_encode, Builtin.ofName?_name, yields_bind, yields_push, yields_pure,
    and_self]

theorem pushes_pushVar {m : Machine} {depth offset : Int32} {v : Value}
    (h : m.lookup depth offset = .ok v) : m.Pushes ⟨.pushVar, [.int depth, .int offset]⟩ v := by
  refine ⟨_, rfl, fun ip stack => run_eq_ok_iff.mpr (yields_lookup.mpr ?_)⟩
  rw [show lookup { m with ip := ip, stack := stack } depth offset = _ from h]
  exact ⟨rfl, rfl⟩

theorem step_pushVar_fails {m : Machine} {depth offset : Int32} {n : Nat} {fault : Fault}
    (hfetch : m.fetch = .ok (⟨.pushVar, [.int depth, .int offset]⟩, n))
    (h : m.lookup depth offset = .error fault) :
    let left : Machine := { m with ip := m.ip + n }
    m.step = .failed (left.failure m.ip Opcode.pushVar.mnemonic fault) left := by
  refine step_of_error hfetch rfl (run_eq_error_iff.mpr (yields_lookup.mpr ?_))
  rw [show lookup { m with ip := m.ip + n } depth offset = _ from h]
  exact ⟨rfl, rfl⟩

/-! ### A builtin and its argument -/

/-- In so many steps the machine comes to a call, which fails. The call ends at an offset, and the
stack, the frames and the output are as they were. -/
structure FailsAtCall (m : Machine) (steps next : Nat) (f : Failure) : Prop where
  run : m.run steps = .failed f { m with ip := next }
  ip : f.ip + 1 = next
  mnemonic : f.mnemonic = Opcode.swapCall.mnemonic

section Sequence

variable {m : Machine} {b : Builtin} {x : Instruction} {v : Value} {is : List Instruction} {next : Nat}

/-- The builtin is pushed, and the instruction that is to push its argument is next. -/
theorem run_naming (hcode : m.image.CodeAt m.ip (naming b :: x :: is) next) :
    ∃ ip, m.run 1 = .running { m with ip := ip, stack := .builtin b :: m.stack } ∧
      m.image.CodeAt ip (x :: is) next := by
  refine ⟨_, ?_, hcode.2⟩
  rw [run_one]
  exact (pushes_naming b m).step (fetch_of_codeAt hcode)

/-- Both are pushed, and the call is next. -/
theorem run_pushes (hcode : m.image.CodeAt m.ip (naming b :: x :: is) next) (hx : m.Pushes x v) :
    ∃ ip, m.run 2 = .running { m with ip := ip, stack := v :: .builtin b :: m.stack } ∧
      m.image.CodeAt ip is next := by
  obtain ⟨ip, hrun, hcode'⟩ := run_naming hcode
  refine ⟨_, ?_, hcode'.2⟩
  rw [run_add hrun 1, run_one]
  exact hx.step (fetch_of_codeAt hcode')

/-- The builtin is called with the value that was pushed. -/
theorem exists_called (hcode : m.image.CodeAt m.ip [naming b, x, ⟨.swapCall, []⟩] next)
    (hx : m.Pushes x v) :
    ∃ called : Machine, called = { m with ip := called.ip, stack := v :: .builtin b :: m.stack } ∧
      m.run 3 = called.step ∧ called.fetch = .ok (⟨.swapCall, []⟩, 1) ∧ called.ip + 1 = next := by
  obtain ⟨ip, hrun, hcall⟩ := run_pushes hcode hx
  refine ⟨{ m with ip := ip, stack := v :: .builtin b :: m.stack }, rfl, ?_, fetch_of_codeAt hcall, hcall.2⟩
  rw [run_add hrun 1, run_one]

theorem run_prints (hcode : m.image.CodeAt m.ip [naming b, x, ⟨.swapCall, []⟩] next) (hx : m.Pushes x v)
    (harity : b.arity = 1) {text : String} (happly : b.apply m.printer [v] = .ok (.output text))
    (hsink : m.sink.capacity = none) :
    m.run 3 = .running { m with ip := next, sink := m.sink.append (Text.Utf8.encode text) } := by
  obtain ⟨called, hcalled, hrun, hfetch, rfl⟩ := exists_called hcode hx
  have hwrite := Sink.write_of_capacity_none hsink (Text.Utf8.encode text)
  rw [hcalled] at hrun hfetch
  exact hrun.trans (step_prints rfl rfl hfetch (Nat.le_of_eq harity) happly hwrite)

theorem run_fails (hcode : m.image.CodeAt m.ip [naming b, x, ⟨.swapCall, []⟩] next) (hx : m.Pushes x v)
    (harity : b.arity = 1) {fault : Fault} (happly : b.apply m.printer [v] = .error fault) :
    ∃ f, m.FailsAtCall 3 next f ∧ f.fault = fault := by
  obtain ⟨called, hcalled, hrun, hfetch, rfl⟩ := exists_called hcode hx
  rw [hcalled] at hrun hfetch
  have hstep := step_fails rfl rfl hfetch (Nat.le_of_eq harity) happly
  exact ⟨_, ⟨hrun.trans hstep, rfl, rfl⟩, rfl⟩

/-- A variable that cannot be pushed. -/
theorem run_pushVar_fails {depth offset : Int32} {fault : Fault}
    (hcode : m.image.CodeAt m.ip [naming b, ⟨.pushVar, [.int depth, .int offset]⟩, ⟨.swapCall, []⟩] next)
    (h : m.lookup depth offset = .error fault) :
    ∃ f, m.run 3 = .failed f { m with ip := next - 1, stack := .builtin b :: m.stack } ∧
      f.ip + 10 = next ∧ f.mnemonic = Opcode.pushVar.mnemonic ∧ f.fault = fault := by
  obtain ⟨ip, hrun, hpush⟩ := run_naming hcode
  let pushed : Machine := { m with ip := ip, stack := .builtin b :: m.stack }
  have hfetch : pushed.fetch = .ok (⟨.pushVar, [.int depth, .int offset]⟩, 9) := fetch_of_codeAt hpush
  have hfails : pushed.run 2 = _ := run_of_failed (step_pushVar_fails hfetch h) 1
  have hend : ip + 10 = next := hpush.2.2
  subst hend
  exact ⟨_, (run_add hrun 2).trans hfails, rfl, rfl, rfl⟩

end Sequence

/-- The message and the code are given to the builtin one by one. -/
theorem run_stops {m : Machine} {message : List UInt8} {code : Int32} {next : Nat}
    (hcode : m.image.CodeAt m.ip [naming .fatalError, ⟨.pushString, [.text message]⟩, ⟨.swapCall, []⟩,
      ⟨.pushInt, [.int code]⟩, ⟨.swapCall, []⟩] next) :
    ∃ f, m.FailsAtCall 5 next f ∧ f.fault = .fatal (Text.Utf8.lossy message) code := by
  obtain ⟨ip, hrun, hcall⟩ := run_pushes hcode (pushes_of_push rfl m)
  let first : Machine := { m with ip := ip, stack := .str message :: .builtin .fatalError :: m.stack }
  let waiting : Value := .partialBuiltin .fatalError [.str message]
  let last : Machine := { m with ip := ip + 6, stack := .int code :: waiting :: m.stack }
  have hfirst : first.fetch = .ok (⟨.swapCall, []⟩, 1) := fetch_of_codeAt hcall
  have hlast : last.fetch = .ok (⟨.swapCall, []⟩, 1) := fetch_of_codeAt hcall.2.2
  have hwaits : first.step = .running { m with ip := ip + 1, stack := waiting :: m.stack } :=
    step_waits (m := first) rfl rfl hfirst (Nat.lt_succ_self 1)
  have hpush : { m with ip := ip + 1, stack := waiting :: m.stack }.step = .running last :=
    (pushes_of_push rfl m).step (fetch_of_codeAt hcall.2)
  have happly : Builtin.fatalError.apply last.printer [.str message, .int code] =
      .error (.fatal (Text.Utf8.lossy message) code) := rfl
  have hstops := step_fails (m := last) rfl rfl hlast (Nat.le_refl 2) happly
  have hall : m.run 5 = last.step := by
    rw [run_add hrun 3, run_succ_of_step hwaits, run_succ_of_step hpush, run_one]
  have hend : ip + 7 = next := hcall.2.2.2
  subst hend
  exact ⟨_, ⟨hall.trans hstops, rfl, rfl⟩, rfl⟩

end Machine

namespace Builder

/-! ### Emitted sequences -/

theorem emittable_pushBuiltin (b : Builtin) : emittable (pushBuiltin b) = true := by
  cases b with
  | print style => cases style <;> decide +kernel
  | _ => decide +kernel

theorem emittable_pushString {s : String} (h : Char.ofNat 0 ∉ s.toList) :
    emittable (.pushString, [.ofString s]) = true := by
  simp [emittable, fitAll, Argument.ofString, Argument.fits, Argument.hasNul, Opcode.signature,
    Text.Utf8.zero_not_mem_encode h]

theorem emittable_calling (b : Builtin) {i : Opcode × List Argument} (h : emittable i = true) :
    ∀ j ∈ [pushBuiltin b, i, (.swapCall, [])], emittable j = true := by
  simp only [List.forall_mem_cons]
  exact ⟨emittable_pushBuiltin b, h, rfl, nofun⟩

theorem emittable_fatalError {message : String} (h : Char.ofNat 0 ∉ message.toList) (code : Int32) :
    ∀ i ∈ fatalError message code, emittable i = true := by
  simp only [fatalError, List.forall_mem_cons]
  exact ⟨emittable_pushBuiltin _, emittable_pushString h, rfl, rfl, rfl, nofun⟩

/-- **The sequences do what they are for**, whatever is around them. Let one of them be emitted at
any moment while a builder is filled, let the builder be linked, and let any machine with the image
be where the sequence begins, whatever it has on its stack and in its frames. If its sink takes
everything, then the sequence appends the string, the line feed or the variable as it is printed
literally, and the machine goes on behind the sequence with the same stack and frames. If the
variable has no value or cannot be printed, the machine fails for this reason. The sequence that is
to stop the program fails at its last call, with the message and the code, which is the exit code of
the program, and the stack and the frames are as before. -/
theorem sequences_print {ops before after : List Op} {op : Op} {id : BlockId} {img : Image} {m : Machine}
    (hops : ops = before ++ op :: after) (hid : id.number < (performAll {} before).blocks.length)
    (hlink : (performAll {} ops).link = .ok img) (hm : m.image = img)
    (hip : m.ip = (performAll {} ops).base id + (performAll {} before).offset id) :
    let next := (performAll {} ops).base id + (performAll {} (before ++ [op])).offset id
    (∀ s, op = .emitPrintString id s → Char.ofNat 0 ∉ s.toList → m.sink.capacity = none →
      m.run 3 = .running { m with ip := next, sink := m.sink.append (Text.Utf8.encode s) }) ∧
    (op = .emitPrintln id → m.sink.capacity = none →
      m.run 3 = .running { m with ip := next, sink := m.sink.append (Text.Utf8.encode "\n") }) ∧
    (∀ depth offset, op = .emitPrintLiteralVar id depth offset →
      (∀ v text, m.lookup depth offset = .ok v → m.printer.render .literal v = .ok text →
        m.sink.capacity = none →
          m.run 3 = .running { m with ip := next, sink := m.sink.append (Text.Utf8.encode text) }) ∧
      (∀ fault, m.lookup depth offset = .error fault →
        ∃ f, m.run 3 = .failed f
            { m with ip := next - 1, stack := .builtin (.print .literal) :: m.stack } ∧
          f.ip + 10 = next ∧ f.mnemonic = Opcode.pushVar.mnemonic ∧ f.fault = fault) ∧
      ∀ v fault, m.lookup depth offset = .ok v → m.printer.render .literal v = .error fault →
        ∃ f, m.FailsAtCall 3 next f ∧ f.fault = fault) ∧
    ∀ message code, op = .emitFatalError id message code → Char.ofNat 0 ∉ message.toList →
      ∃ f, m.FailsAtCall 5 next f ∧ f.fault = .fatal message code ∧ f.exitCode = code := by
  intro next
  have hcode : ∀ code, op.emits? = some (id, emittedOf code) → (∀ i ∈ code, emittable i = true) →
      m.image.CodeAt m.ip (linkedCode (performAll {} ops) code) next := by
    intro code hop hemittable
    rw [hm, hip]
    exact codeAt_of_emits hops hop hemittable hid hlink
  refine ⟨?_, ?_, ?_, ?_⟩
  · rintro s rfl hnul hsink
    have hstring := hcode _ rfl (emittable_calling _ (emittable_pushString hnul))
    refine Machine.run_prints hstring (Machine.pushes_of_push rfl m) rfl ?_ hsink
    simp [Builtin.apply, Printer.render, Printer.text, Text.Utf8.lossy_encode, Except.map]
  · rintro rfl hsink
    have hunit := hcode _ rfl (emittable_calling _ rfl)
    exact Machine.run_prints hunit (Machine.pushes_of_push rfl m) rfl rfl hsink
  · rintro depth offset rfl
    have hvariable := hcode _ rfl (emittable_calling _ rfl)
    refine ⟨fun v text hv htext hsink => ?_, fun fault hfault => ?_, fun v fault hv hfault => ?_⟩
    · refine Machine.run_prints hvariable (Machine.pushes_pushVar hv) rfl ?_ hsink
      rw [Builtin.apply, htext]
      rfl
    · exact Machine.run_pushVar_fails hvariable hfault
    · refine Machine.run_fails hvariable (Machine.pushes_pushVar hv) rfl ?_
      rw [Builtin.apply, hfault]
      rfl
  · rintro message code rfl hnul
    obtain ⟨f, hf, hfault⟩ := Machine.run_stops (hcode _ rfl (emittable_fatalError hnul code))
    rw [Text.Utf8.lossy_encode] at hfault
    exact ⟨f, hf, hfault, by rw [Failure.exitCode, hfault]; rfl⟩

/-- A variable with a quotation mark is printed, and then the program is stopped, both with a value on
the stack. -/
theorem sequences_print_variable :
    let ops : List Op := [.createBlock, .emitPrintLiteralVar ⟨0⟩ 0 0, .emitFatalError ⟨0⟩ "no" 3]
    let img : Image := ⟨[73, 0, 0, 0, 0, 36, 36, 98, 117, 105, 108, 116, 105, 110, 45, 112, 114, 105, 110, 116,
      45, 108, 105, 116, 101, 114, 97, 108, 0, 11, 0, 0, 0, 0, 0, 0, 0, 0, 24, 0, 36, 36, 98, 117, 105, 108,
      116, 105, 110, 45, 102, 97, 116, 97, 108, 45, 101, 114, 114, 111, 114, 0, 6, 110, 111, 0, 24, 5, 3, 0, 0,
      0, 24], 73⟩
    let m : Machine := ⟨img, 4, [.unit], ⟨#[(Frame.root.enter 1).write 0 (.str [34])]⟩, 0, {}⟩
    let m' : Machine := { m with ip := 39, sink := m.sink.append [34, 92, 34, 34] }
    (performAll {} ops).link = .ok img ∧ m.run 3 = .running m' ∧
      ∃ f, m'.run 5 = .failed f { m' with ip := 73 } ∧ f.ip = 72 ∧ f.fault = .fatal "no" 3 ∧
        f.exitCode = 3 := by
  intro ops img m m'
  have hlink : (performAll {} ops).link = .ok img := by decide +kernel
  let start : List Op := [.createBlock]
  let between : List Op := start ++ [.emitPrintLiteralVar ⟨0⟩ 0 0]
  have hvariable : ops = start ++ .emitPrintLiteralVar ⟨0⟩ 0 0 :: [.emitFatalError ⟨0⟩ "no" 3] := rfl
  have hfatal : ops = between ++ .emitFatalError ⟨0⟩ "no" 3 :: [] := rfl
  have hid : (BlockId.mk 0).number < (performAll {} start).blocks.length := by decide
  have hid' : (BlockId.mk 0).number < (performAll {} between).blocks.length := by decide +kernel
  have hip : m.ip = (performAll {} ops).base ⟨0⟩ + (performAll {} start).offset ⟨0⟩ := by decide +kernel
  have hip' : m'.ip = (performAll {} ops).base ⟨0⟩ + (performAll {} between).offset ⟨0⟩ := by decide +kernel
  obtain ⟨-, -, hprints, -⟩ := sequences_print hvariable hid hlink rfl hip
  obtain ⟨-, -, -, hstops⟩ := sequences_print hfatal hid' hlink rfl hip'
  obtain ⟨f, hfails, hfault, hexit⟩ := hstops "no" 3 rfl (by decide)
  refine ⟨hlink, ?_, f, ?_, ?_, hfault, hexit⟩
  · have hquoted : Text.Utf8.encode (Printer.quote "\"") = [34, 92, 34, 34] := by decide +kernel
    have hshown : m.printer.render .literal (.str [34]) = .ok (Printer.quote "\"") := by decide +kernel
    exact ((hprints 0 0 rfl).1 (.str [34]) _ rfl hshown rfl).trans (by rw [hquoted]; rfl)
  · exact hfails.run
  · have hnext : f.ip + 1 = 73 := hfails.ip
    omega

end Builder

end StackCode
