import StackCode.Proofs.Machine.History

/-!
# Currying

A builtin is given one argument by each call. Until it has all of them, it is a value like any
other, which can be copied, stored and put into other values, and a machine may hold many builtins
with arguments, each in many copies. The arguments of each are those of the calls that have made
it, in their order (`Collected`), so a builtin is applied when it has as many as it takes, never
more and never fewer, and to the arguments of the calls that lead there (`Applied`).
-/

namespace StackCode

open Result

theorem Value.Plain.not_partial {v : Value} (hv : v.Plain) {b : Builtin} {args : List Value} :
    ¬ (Value.partialBuiltin b args).Within v := by
  intro h
  rw [← hv.eq_of_within h] at hv
  cases hv

/-- What is not a builtin has another shape. -/
theorem Value.shape_ne_of_application {callee argument : Value}
    (h : callee.application? argument = none) : callee.shape ≠ .builtin := by
  cases callee with
  | builtin b | partialBuiltin b args => cases h
  | _ => exact nofun

namespace Machine

/-! ### Where the arguments are from -/

/-- What a machine holds after a step, it held before, or the instruction has made it. -/
theorem holds_next {m : Machine} (hcurrent : m.current < m.frames.size) {v : Value}
    (hv : m.next.Holds v) :
    m.Holds v ∨ ∃ i n a, m.fetch = .ok (i, n) ∧ i.action? = some a ∧
      Makes a { m with ip := m.ip + n } v := by
  have hstep := stepped m
  rw [next] at hv
  generalize m.step = p at hv hstep
  cases hstep with
  | stuck => exact .inl hv
  | running hfetch ha heffect | returned hfetch ha heffect | unflushed hfetch ha heffect =>
    exact .inr ⟨_, _, _, hfetch, ha, heffect.makes hcurrent hv⟩
  | failed hfetch ha hfails => exact .inl (hfails.holds hv).of_ip

/-- The next instruction calls a value with an argument. -/
def Applies (m : Machine) (callee argument : Value) : Prop :=
  ∃ n rest, m.fetch = .ok (⟨.swapCall, []⟩, n) ∧ m.stack = argument :: callee :: rest

/-- A builtin with arguments that a machine holds after a step is in what it held before, or it
has been called. -/
theorem partial_next {m : Machine} (hcurrent : m.current < m.frames.size) {v : Value}
    (hv : m.next.Holds v) {b : Builtin} {args : List Value}
    (h : (Value.partialBuiltin b args).Within v) :
    (∃ w, m.Holds w ∧ (Value.partialBuiltin b args).Within w) ∨
      ∃ callee argument, m.Applies callee argument ∧
        callee.application? argument = some (b, args) := by
  rcases holds_next hcurrent hv with hv | ⟨i, n, a, hfetch, ha, hmakes⟩
  · exact .inl ⟨v, hv, h⟩
  cases hmakes with
  | part hw hvw => exact .inl ⟨_, hw.of_ip, h.trans hvw⟩
  | literal hpush =>
    obtain ⟨-, -, a', ha', -, hplain, -⟩ := exists_action_of_fetch hfetch
    cases ha.symm.trans ha'
    exact absurd h (hplain v hpush).not_partial
  | plain hplain => exact absurd h hplain.not_partial
  | closure => cases h
  | tuple hitems =>
    cases h with
    | tuple hw h => exact .inl ⟨_, (hitems _ hw).of_ip, h⟩
  | data hfields =>
    cases h with
    | data hw h => exact .inl ⟨_, (hfields _ hw).of_ip, h⟩
  | @partialBuiltin callee argument stack _ _ action popped applied _ =>
    cases eq_of_fetch hfetch (action ▸ ha) rfl
    change m.stack = argument :: callee :: stack at popped
    cases h with
    | refl => exact .inr ⟨callee, argument, ⟨n, stack, hfetch, popped⟩, applied⟩
    | partialBuiltin hw h =>
      rcases Value.within_of_application applied hw with rfl | hw
      · exact .inl ⟨_, .stack (popped ▸ List.mem_cons_self), h⟩
      · exact .inl ⟨callee, .stack (popped ▸ List.mem_cons_of_mem _ List.mem_cons_self), h.trans hw⟩

/-- In the first steps from a machine a builtin has been given arguments, one by each call: first
the builtin itself was called, then what came of the call before, or a copy of it. -/
inductive Collected (m : Machine) : Nat → Builtin → List Value → Prop where
  | first {j k : Nat} {b : Builtin} {argument : Value} (earlier : j < k)
    (call : (m.after j).Applies (.builtin b) argument) : Collected m k b [argument]
  | next {j k : Nat} {b : Builtin} {args : List Value} {argument : Value}
    (collected : Collected m j b args) (earlier : j < k)
    (call : (m.after j).Applies (.partialBuiltin b args) argument) :
    Collected m k b (args ++ [argument])

theorem Collected.mono {m : Machine} {j k : Nat} {b : Builtin} {args : List Value}
    (h : Collected m j b args) (hjk : j ≤ k) : Collected m k b args := by
  cases h with
  | first earlier call => exact .first (Nat.lt_of_lt_of_le earlier hjk) call
  | next collected earlier call => exact .next collected (Nat.lt_of_lt_of_le earlier hjk) call

section History

variable {m : Machine} {k : Nat} {b : Builtin} {args : List Value}

/-- A call adds an argument to those that have been collected. -/
theorem Collected.of_applies {callee argument : Value}
    (hcallee : ∀ args, callee = .partialBuiltin b args → Collected m k b args)
    (h : (m.after k).Applies callee argument)
    (happlied : callee.application? argument = some (b, args)) : Collected m (k + 1) b args := by
  cases callee with
  | builtin b =>
    cases happlied
    exact .first (Nat.lt_succ_self k) h
  | partialBuiltin b args =>
    cases happlied
    exact .next (hcallee args rfl) (Nat.lt_succ_self k) h
  | _ => cases happlied

/-- **Arguments come from calls.** Every builtin with arguments that a machine comes to hold,
wherever it is, has been given them by calls. -/
theorem collected_of_within {img : Image} {sink : Sink} {v : Value}
    (hm : m = { image := img, sink := sink }) (hv : (m.after k).Holds v)
    (h : (Value.partialBuiltin b args).Within v) : Collected m k b args := by
  have hreachable : Reachable img m := hm ▸ .start sink
  induction k generalizing v b args with
  | zero =>
    cases hm
    exact absurd hv not_holds_start
  | succ k ih =>
    rcases partial_next (hreachable.after k).current_lt hv h with ⟨w, hw, h⟩ | ⟨callee, _, h, happlied⟩
    · exact (ih hw h).mono (Nat.le_succ k)
    · refine .of_applies (fun args hcallee => ?_) h happlied
      obtain ⟨n, rest, -, hstack⟩ := h
      exact ih (.stack (hstack ▸ List.mem_cons_of_mem _ List.mem_cons_self)) (hcallee ▸ .refl)

end History

/-! ### What comes of a call -/

/-- What comes of a call that gives a builtin `b` the last of the arguments `args`, in an
instruction of `n` bytes, when the values `rest` are below on the stack. -/
structure Applied (m : Machine) (n : Nat) (b : Builtin) (args rest : List Value) : Prop where
  /-- It has at least one argument and not more than it takes. -/
  count : 0 < args.length ∧ args.length ≤ b.arity
  /-- With fewer it waits for the others. -/
  waits : args.length < b.arity →
    m.step = .running { m with ip := m.ip + n, stack := .partialBuiltin b args :: rest }
  /-- With all of them it answers with a value. -/
  value : args.length = b.arity → ∀ v, b.apply m.printer args = .ok (.value v) →
    m.step = .running { m with ip := m.ip + n, stack := v :: rest }
  /-- Or with a text, which is written. -/
  output : args.length = b.arity → ∀ text, b.apply m.printer args = .ok (.output text) →
    m.next = { m with
      ip := m.ip + n, stack := rest, sink := (m.sink.write (Text.Utf8.encode text)).1 }
  /-- Or it fails, but not for want of an argument. -/
  fails : args.length = b.arity → ∀ fault, b.apply m.printer args = .error fault →
    (∀ shape, fault ≠ .notCallable shape) ∧
      ∃ f, m.step = .failed f { m with ip := m.ip + n, stack := rest } ∧ f.fault = fault
  /-- Whatever comes of it, all slots and the rest of the stack are as they were. -/
  copies : m.next.frames = m.frames ∧ (m.next.stack = rest ∨ ∃ v, m.next.stack = v :: rest)

/-- What an instruction yields in any case holds of the machine after it. -/
theorem Yields.next {m : Machine} {i : Instruction} {n : Nat} {a : Action} {P : Machine → Prop}
    (hfetch : m.fetch = .ok (i, n)) (ha : i.action? = some a)
    (h : Yields (perform a) { m with ip := m.ip + n } (fun _ => P) fun _ => P) : P m.next := by
  rw [Machine.next, step, hfetch]
  simp only [dispatch_eq ha]
  unfold Yields at h
  generalize (perform a).run { m with ip := m.ip + n } = result at h ⊢
  rcases result with ⟨_ | v, m'⟩ | ⟨fault, m'⟩
  · exact h
  · simp only
    split <;> exact h
  · exact h

section Applied

variable {m : Machine} {n ip : Nat} {callee argument : Value} {rest args : List Value} {b : Builtin}
  (hstack : m.stack = argument :: callee :: rest)
  (happlied : callee.application? argument = some (b, args))
include hstack happlied

/-- A call of a builtin pops the argument and the callee, and gives the builtin its arguments. -/
theorem yields_call_builtin {Q : Option Value → Machine → Prop} {E : Fault → Machine → Prop} :
    Yields (perform .call) { m with ip := ip } Q E ↔
      Yields (applyBuiltin b args) { m with ip := ip, stack := rest } (fun _ => Q none) E := by
  have hcall : call callee argument = applyBuiltin b args := by
    cases callee with
    | builtin b | partialBuiltin b args =>
      cases happlied
      rfl
    | _ => cases happlied
  simp only [perform, yields_bind, yields_pop, yields_pure, hstack, hcall]

theorem yields_waits {Q : Option Value → Machine → Prop} {E : Fault → Machine → Prop}
    (few : args.length < b.arity) :
    Yields (perform .call) { m with ip := ip } Q E ↔
      Q none { m with ip := ip, stack := .partialBuiltin b args :: rest } := by
  rw [yields_call_builtin hstack happlied, applyBuiltin, if_pos few, yields_push]

theorem yields_applied {Q : Option Value → Machine → Prop} {E : Fault → Machine → Prop}
    (hall : b.arity ≤ args.length) :
    Yields (perform .call) { m with ip := ip } Q E ↔
      match b.apply m.printer args with
      | .ok (.value v) => Q none { m with ip := ip, stack := v :: rest }
      | .ok (.output text) =>
        Yields (write text) { m with ip := ip, stack := rest } (fun _ => Q none) E
      | .error fault => E fault { m with ip := ip, stack := rest } := by
  have hprinter : printer { m with ip := ip, stack := rest } = m.printer := rfl
  rw [yields_call_builtin hstack happlied, applyBuiltin, if_neg (Nat.not_lt.mpr hall), yields_bind, yields_get,
    yields_bind, yields_lift, hprinter]
  rcases b.apply m.printer args with fault | v | text
  · rfl
  · simp only [yields_push]
  · rfl

/-- Nothing but the top of the stack and the output changes. -/
theorem yields_copies :
    Yields (perform .call) { m with ip := ip }
      (fun _ m' => m'.frames = m.frames ∧ (m'.stack = rest ∨ ∃ v, m'.stack = v :: rest))
      fun _ m' => m'.frames = m.frames ∧ (m'.stack = rest ∨ ∃ v, m'.stack = v :: rest) := by
  by_cases few : args.length < b.arity
  · exact (yields_waits hstack happlied few).mpr ⟨rfl, .inr ⟨_, rfl⟩⟩
  · refine (yields_applied hstack happlied (Nat.not_lt.mp few)).mpr ?_
    split
    · exact ⟨rfl, .inr ⟨_, rfl⟩⟩
    · rw [yields_write]
      split <;> exact ⟨rfl, .inl rfl⟩
    · exact ⟨rfl, .inl rfl⟩

section Step

variable (hfetch : m.fetch = .ok (⟨.swapCall, []⟩, n))
include hfetch

theorem step_waits (few : args.length < b.arity) :
    m.step = .running { m with ip := m.ip + n, stack := .partialBuiltin b args :: rest } :=
  (step_eq_running_iff hfetch rfl).mpr <|
    run_eq_ok_iff.mpr ((yields_waits hstack happlied few).mpr ⟨rfl, rfl⟩)

/-- The text that a builtin prints is written. -/
theorem step_prints (hall : b.arity ≤ args.length) {text : String}
    (happly : b.apply m.printer args = .ok (.output text)) {s : Sink}
    (hwrite : m.sink.write (Text.Utf8.encode text) = (s, none)) :
    m.step = .running { m with ip := m.ip + n, stack := rest, sink := s } := by
  refine (step_eq_running_iff hfetch rfl).mpr (run_eq_ok_iff.mpr ?_)
  refine (yields_applied hstack happlied hall).mpr ?_
  rw [happly]
  simp only [yields_write, hwrite, and_self]

/-- A builtin that fails makes its call fail. -/
theorem step_fails (hall : b.arity ≤ args.length) {fault : Fault}
    (happly : b.apply m.printer args = .error fault) :
    let left : Machine := { m with ip := m.ip + n, stack := rest }
    m.step = .failed (left.failure m.ip Opcode.swapCall.mnemonic fault) left := by
  refine step_of_error hfetch rfl (run_eq_error_iff.mpr ?_)
  refine (yields_applied hstack happlied hall).mpr ?_
  rw [happly]
  exact ⟨rfl, rfl⟩

theorem applied (hlength : args.length ≤ b.arity) : m.Applied n b args rest where
  count := ⟨Value.length_of_application happlied, hlength⟩
  waits few := step_waits hstack happlied hfetch few
  value hall v hv := by
    refine (step_eq_running_iff hfetch rfl).mpr (run_eq_ok_iff.mpr ?_)
    refine (yields_applied hstack happlied (Nat.le_of_eq hall.symm)).mpr ?_
    rw [hv]
    exact ⟨rfl, rfl⟩
  output hall text htext := by
    refine Yields.next (P := fun m' => m' = { m with
      ip := m.ip + n, stack := rest, sink := (m.sink.write (Text.Utf8.encode text)).1 }) hfetch rfl ?_
    refine (yields_applied hstack happlied (Nat.le_of_eq hall.symm)).mpr ?_
    rw [htext]
    simp only [yields_write]
    split <;> next hwrite => rw [hwrite]
  fails hall fault hfault :=
    ⟨(Tame.apply hall fault hfault).ne, _,
      step_fails hstack happlied hfetch (Nat.le_of_eq hall.symm) hfault, rfl⟩
  copies := Yields.next hfetch rfl (yields_copies hstack happlied)

end Step

end Applied

/-! ### Reachable machines -/

section Reachable

variable {img : Image} {m : Machine}

/-- A builtin with arguments has some but not all of them. -/
theorem Reachable.count (hm : Reachable img m) {v : Value} (hv : m.Holds v) {b : Builtin}
    {args : List Value} (h : (Value.partialBuiltin b args).Within v) :
    0 < args.length ∧ args.length < b.arity :=
  (hm.inOrder (safeCode_true img)).values v hv _ h

/-- One more argument is not one too many. -/
theorem Reachable.length_le (hm : Reachable img m) {callee argument : Value} {rest args : List Value}
    {b : Builtin} (hstack : m.stack = argument :: callee :: rest)
    (happlied : callee.application? argument = some (b, args)) : args.length ≤ b.arity := by
  have hheld : m.Holds callee := .stack (hstack ▸ List.mem_cons_of_mem _ List.mem_cons_self)
  cases callee with
  | builtin b =>
    cases happlied
    exact b.arity_pos
  | partialBuiltin b args =>
    cases happlied
    rw [List.length_append]
    exact (hm.count hheld .refl).2
  | _ => cases happlied

/-- An instruction never fails because a builtin has a wrong number of arguments, nor because its
operands are not those of its signature. -/
theorem Reachable.fault_ne (hm : Reachable img m) {i : Instruction} {n : Nat} {fault : Fault}
    {m' : Machine} (hfetch : m.fetch = .ok (i, n)) (h : m.dispatch i n = .error fault m') :
    fault ≠ .notCallable .builtin ∧ ∀ e, fault ≠ .malformed e := by
  obtain ⟨-, -, a, ha, -⟩ := exists_action_of_fetch hfetch
  rw [dispatch_eq ha] at h
  have hfails := (yields_perform a _).error h
  refine ⟨?_, hfails.ofExecution.ne.2⟩
  cases hfails.risk with
  | data hf => exact hf.ne .builtin
  | unnamed => exact nofun
  | uncallable _ applied => exact fun hf => Value.shape_ne_of_application applied (Fault.notCallable.inj hf)
  | surplus popped applied many =>
    have hle := hm.length_le popped applied
    omega

end Reachable

/-- **Currying is exact.** Let a program be run from the start, however its steps end. Wherever the
machine then holds a builtin with arguments, it has at least one and fewer than it takes, and they
are those of the calls that have made it, in their order. When a builtin is called, with arguments or
without, these and the argument of the call are not more than it takes; if they are fewer it waits
for the others, and else it is applied to all of them, and whatever comes of that, no copy of it is
changed. No instruction ever fails because a builtin has a wrong number of arguments or because its
operands are not those of its signature: every instruction that can be decoded has an action. -/
theorem currying_is_exact (img : Image) (sink : Sink) (k : Nat) :
    let start : Machine := { image := img, sink := sink }
    let m : Machine := start.after k
    (∀ v, m.Holds v → ∀ b args, (Value.partialBuiltin b args).Within v →
      0 < args.length ∧ args.length < b.arity ∧ Collected start k b args) ∧
    (∀ n callee argument rest b args, m.fetch = .ok (⟨.swapCall, []⟩, n) →
      m.stack = argument :: callee :: rest → callee.application? argument = some (b, args) →
        Collected start (k + 1) b args ∧ m.Applied n b args rest) ∧
    (∀ i n fault m', m.fetch = .ok (i, n) → m.dispatch i n = .error fault m' →
      fault ≠ .notCallable .builtin ∧ ∀ e, fault ≠ .malformed e) ∧
    ∀ bytes offset i n, Instruction.decode bytes offset = .ok (i, n) →
      ∃ a, i.action? = some a ∧ execute i = perform a := by
  intro start m
  have hm : Reachable img m := (Reachable.start sink).after k
  refine ⟨fun v hv b args h => ?_, fun n callee argument rest b args hfetch hstack happlied => ?_,
    fun i n fault m' => hm.fault_ne, fun bytes offset i n h => ?_⟩
  · obtain ⟨hpos, hlt⟩ := hm.count hv h
    exact ⟨hpos, hlt, collected_of_within rfl hv h⟩
  · refine ⟨.of_applies (fun args hcallee => ?_) ⟨n, rest, hfetch, hstack⟩ happlied,
      applied hstack happlied hfetch (hm.length_le hstack happlied)⟩
    have hheld : m.Holds callee := .stack (hstack ▸ List.mem_cons_of_mem _ List.mem_cons_self)
    exact collected_of_within rfl hheld (hcallee ▸ .refl)
  · obtain ⟨he, -, -⟩ := Instruction.decode_eq_ok_iff_bytes.mp h
    obtain ⟨a, ha, -⟩ := Instruction.exists_action he.fits
    exact ⟨a, ha, by rw [execute, ha]⟩

/-- A concatenation with its first argument, and a copy of it, are called one after the other. -/
theorem currying_is_exact_copies :
    let img : Image := ⟨[58, 0, 0, 0, 25, 0, 0, 0, 0, 0, 36, 36, 98, 117, 105, 108, 116, 105, 110, 45, 115, 116,
      114, 105, 110, 103, 45, 99, 111, 110, 99, 97, 116, 0, 6, 102, 111, 111, 0, 24, 12, 6, 98, 97, 114, 0, 24,
      14, 6, 100, 0, 24, 8, 2, 0, 0, 0, 26], 58⟩
    let start : Machine := { image := img }
    let foo : Value := .str [102, 111, 111]
    let bar : Value := .str [98, 97, 114]
    let p : Value := .partialBuiltin .concat [foo]
    (start.after 6).stack = [bar, p, p] ∧ Collected start 6 .concat [foo] ∧
      Collected start 7 .concat [foo, bar] ∧ (start.after 7).stack = [.str [102, 111, 111, 98, 97, 114], p] ∧
      Collected start 10 .concat [foo, .str [100]] ∧
      (start.after 10).stack = [.str [102, 111, 111, 100], .str [102, 111, 111, 98, 97, 114]] := by
  intro img start foo bar p
  let entered : Frames := ⟨#[Frame.root.enter 0]⟩
  let m : Machine := ⟨img, 46, [bar, p, p], entered, 0, {}⟩
  let m' : Machine := ⟨img, 51, [.str [100], p, .str [102, 111, 111, 98, 97, 114]], entered, 0, {}⟩
  have hm : start.after 6 = m := after_of_run (by decide +kernel)
  have hm' : start.after 9 = m' := after_of_run (by decide +kernel)
  obtain ⟨hheld, hcall, -⟩ := currying_is_exact img {} 6
  obtain ⟨-, hcall', -⟩ := currying_is_exact img {} 9
  obtain ⟨-, -, hfoo⟩ := hheld p (.stack (by rw [hm]; simp [m])) .concat [foo] .refl
  obtain ⟨hbar, happlied⟩ := hcall 1 p bar [p] .concat [foo, bar] (by rw [hm]; rfl) (by rw [hm]) rfl
  obtain ⟨hd, happlied'⟩ := hcall' 1 p (.str [100]) [.str [102, 111, 111, 98, 97, 114]] .concat
    [foo, .str [100]] (by rw [hm']; rfl) (by rw [hm']) rfl
  exact ⟨by rw [hm], hfoo, hbar, congrArg stack (next_of_step (happlied.value rfl _ rfl)), hd,
    congrArg stack (next_of_step (happlied'.value rfl _ rfl))⟩

end Machine

end StackCode
