import StackCode.Proofs.Machine.Order

/-!
# Histories

A step leaves a machine behind however it ends, and the machine can go on from there. So every
machine has a history, which is what it becomes by one step after the other (`after`), and runs
are stretches of it (`exists_after_of_run`).

What a step does to the frames is said here in terms of the instruction that is executed
(`Reframed`): calls make a frame, `RET` goes back to an older one, `ENTER` and `STORE_VAR`
change the current one, and nothing else touches them.
-/

namespace StackCode

/-- The machine that is left, however a step or a run ends. -/
def Progress.machine : Progress → Machine
  | running m => m
  | returned _ m => m
  | failed _ m => m

theorem Progress.leaves_iff {p : Progress} {m : Machine} : p.Leaves m ↔ p.machine = m := by
  constructor
  · rintro ⟨⟩ <;> rfl
  · rintro rfl
    cases p <;> constructor

/-- The instruction for an action that may change the frames. -/
def Action.frameInstruction? : Action → Option Instruction
  | call => some ⟨.swapCall, []⟩
  | ret => some ⟨.ret, []⟩
  | enter size => some ⟨.enter, [.int size]⟩
  | store offset => some ⟨.storeVar, [.int offset]⟩
  | _ => none

/-- An instruction with the operands of its signature is the one that its action is for. -/
theorem Instruction.eq_of_action {i j : Instruction} {a : Action}
    (hfits : fitAll i.operands i.opcode.signature = true) (h : i.action? = some a)
    (hj : a.frameInstruction? = some j) : i = j := by
  obtain ⟨op, os⟩ := i
  cases op with
  | swapCall | ret =>
    obtain rfl := fitAll_nil hfits
    cases h
    cases hj
    rfl
  | enter | storeVar =>
    obtain ⟨n, rfl⟩ := fitAll_word (by simp) hfits
    cases h
    cases hj
    rfl
  | pushFalse | pushTrue | pushUnit | dup | discard | swap | add | sub | mul | div | eq =>
    obtain rfl := fitAll_nil hfits
    cases h
    cases hj
  | pushInt | pushClosure | pushDataItem | pushTuple | pushTupleItem | jmp | jmpFalse | jmpTrue =>
    obtain ⟨n, rfl⟩ := fitAll_word (by simp) hfits
    cases h
    cases hj
  | pushString | pushBuiltin =>
    obtain ⟨s, rfl⟩ := fitAll_text (by simp) hfits
    cases h
    cases hj
  | jmpData =>
    obtain ⟨entries, rfl⟩ := fitAll_table hfits
    cases h
    cases hj
  | pushVar =>
    obtain ⟨depth, offset, rfl⟩ := fitAll_pushVar hfits
    cases h
    cases hj
  | pushData =>
    obtain ⟨position, ordinal, count, rfl⟩ := fitAll_pushData hfits
    cases h
    cases hj

namespace Machine

/-- The machine after one step. -/
def next (m : Machine) : Machine := m.step.machine

/-- The machine after a number of steps, those included that return or fail. -/
def after (m : Machine) : Nat → Machine
  | 0 => m
  | k + 1 => (m.after k).next

theorem after_add (m : Machine) (j k : Nat) : (m.after j).after k = m.after (j + k) := by
  induction k with
  | zero => rfl
  | succ k ih => exact congrArg next ih

theorem next_of_step {m m' : Machine} (h : m.step = .running m') : m.next = m' := by
  rw [next, h]
  rfl

theorem Reachable.next {img : Image} {m : Machine} (h : Reachable img m) : Reachable img m.next :=
  h.step (Progress.leaves_iff.mpr rfl)

theorem Reachable.after {img : Image} {m : Machine} (h : Reachable img m) (k : Nat) :
    Reachable img (m.after k) := by
  induction k with
  | zero => exact h
  | succ k ih => exact ih.next

/-- A run leaves a machine of the history. -/
theorem exists_after_of_run (m : Machine) (fuel : Nat) : ∃ k ≤ fuel, (m.run fuel).machine = m.after k := by
  induction fuel generalizing m with
  | zero => exact ⟨0, Nat.le_refl 0, rfl⟩
  | succ fuel ih =>
    rw [run]
    split
    · next m' hstep =>
      obtain ⟨k, hk, hrun⟩ := ih m'
      refine ⟨1 + k, by omega, ?_⟩
      rw [hrun, ← next_of_step hstep]
      exact after_add m 1 k
    · exact ⟨1, by omega, rfl⟩

/-- A run that is not over has come as far as its steps. -/
theorem after_of_run {m m' : Machine} {k : Nat} (h : m.run k = .running m') : m.after k = m' := by
  induction k generalizing m with
  | zero =>
    cases h
    rfl
  | succ k ih =>
    rw [run] at h
    split at h
    · next m₁ hstep =>
      rw [Nat.add_comm, ← after_add, ← ih h, ← next_of_step hstep]
      rfl
    · next hdone => exact absurd h (hdone m')

/-- A run that is not over goes on from where it has come. -/
theorem run_add {m m' : Machine} {k : Nat} (h : m.run k = .running m') (j : Nat) :
    m.run (k + j) = m'.run j := by
  induction k generalizing m with
  | zero =>
    cases h
    rw [Nat.zero_add]
  | succ k ih =>
    rw [Nat.succ_add, run]
    rw [run] at h
    split at h
    · exact ih h
    · next hdone => exact absurd h (hdone m')

theorem run_one (m : Machine) : m.run 1 = m.step := by
  rw [run]
  cases m.step <;> rfl

theorem run_succ_of_step {m m' : Machine} (h : m.step = .running m') (k : Nat) :
    m.run (k + 1) = m'.run k := by
  rw [run, h]

theorem run_of_failed {m m' : Machine} {f : Failure} (h : m.step = .failed f m') (k : Nat) :
    m.run (k + 1) = .failed f m' := by
  rw [run, h]

/-! ### Reachable machines, whatever their code -/

theorem safeCode_true (img : Image) : SafeCode img fun _ => True :=
  ⟨trivial, fun _ _ _ => trivial, fun _ _ _ _ _ => trivial⟩

theorem Reachable.current_lt {img : Image} {m : Machine} (h : Reachable img m) :
    m.current < m.frames.size :=
  (h.inOrder (safeCode_true img)).current

/-- A frame returns to an older frame. -/
theorem Reachable.caller_lt {img : Image} {m : Machine} (h : Reachable img m) {k : Nat}
    (hk : k < m.frames.size) {r : ReturnPoint} (hr : (m.frames.get k).returnPoint = some r) :
    r.caller < k := by
  have hm := h.inOrder (safeCode_true img)
  rcases Nat.eq_zero_or_pos k with rfl | hpos
  · rw [hm.outermost.returnPoint] at hr
    cases hr
  · obtain ⟨r', hr', hcaller, -⟩ := (hm.linked k hpos hk).returnPoint
    cases hr.symm.trans hr'
    exact hcaller

/-! ### Executing one instruction -/

/-- An act succeeds with a result and leaves a machine exactly if it yields them. -/
theorem run_eq_ok_iff {α : Type} {act : Act α} {m m' : Machine} {a : α} :
    act.run m = .ok a m' ↔ Yields act m (fun b n => b = a ∧ n = m') fun _ _ => False := by
  unfold Yields
  cases act.run m <;> simp

/-- An act fails with a fault and leaves a machine exactly if it yields them. -/
theorem run_eq_error_iff {α : Type} {act : Act α} {m m' : Machine} {fault : Fault} :
    act.run m = .error fault m' ↔
      Yields act m (fun _ _ => False) fun f n => f = fault ∧ n = m' := by
  unfold Yields
  cases act.run m <;> simp

section Execute

variable {m m' : Machine} {i : Instruction} {n : Nat} {a : Action}

theorem step_eq_running_iff (hfetch : m.fetch = .ok (i, n)) (ha : i.action? = some a) :
    m.step = .running m' ↔ (perform a).run { m with ip := m.ip + n } = .ok none m' := by
  rw [step, hfetch]
  simp only [dispatch_eq ha]
  generalize (perform a).run { m with ip := m.ip + n } = result
  rcases result with ⟨_ | v, m₁⟩ | ⟨fault, m₁⟩
  · simp
  · simp only [EStateM.Result.ok.injEq, reduceCtorEq, false_and, iff_false]
    split <;> simp
  · simp

/-- What an instruction yields when it succeeds, it has done when the machine goes on. -/
theorem Yields.of_step {Q : Option Value → Machine → Prop} {E : Fault → Machine → Prop}
    (h : Yields (perform a) { m with ip := m.ip + n } Q E) (hfetch : m.fetch = .ok (i, n))
    (ha : i.action? = some a) (hstep : m.step = .running m') : Q none m' :=
  h.ok ((step_eq_running_iff hfetch ha).mp hstep)

theorem step_of_error {fault : Fault} (hfetch : m.fetch = .ok (i, n)) (ha : i.action? = some a)
    (h : (perform a).run { m with ip := m.ip + n } = .error fault m') :
    m.step = .failed (m'.failure m.ip i.opcode.mnemonic fault) m' := by
  rw [step, hfetch]
  simp only [dispatch_eq ha, h]

end Execute

/-- A closure is called. -/
theorem step_call {m : Machine} {n entry captured : Nat} {argument : Value} {rest : List Value}
    (hfetch : m.fetch = .ok (⟨.swapCall, []⟩, n))
    (hstack : m.stack = argument :: .closure entry captured :: rest) :
    m.step = .running
      { m with
        ip := entry
        stack := argument :: rest
        frames := m.frames.push (Frame.call captured entry ⟨m.ip + n, m.current⟩)
        current := m.frames.size } := by
  refine (step_eq_running_iff hfetch rfl).mpr (run_eq_ok_iff.mpr ?_)
  simp only [perform, call, yields_bind, yields_pop, yields_modify, yields_pure, hstack, and_self]

/-- A frame that has a return point returns to it. -/
theorem step_ret {m : Machine} {n : Nat} {r : ReturnPoint} (hfetch : m.fetch = .ok (⟨.ret, []⟩, n))
    (hr : (m.frames.get m.current).returnPoint = some r) :
    m.step = .running { m with ip := r.ip, current := r.caller } := by
  refine (step_eq_running_iff hfetch rfl).mpr (run_eq_ok_iff.mpr ?_)
  simp only [perform, ret, yields_bind, yields_get, yields_set, yields_pure, hr, and_self]

/-- **What a step can do to the frames**, and the instruction that does it. -/
inductive Reframed (m m' : Machine) : Prop where
  /-- They stay as they are. -/
  | kept (frames : m'.frames = m.frames) (current : m'.current = m.current)
  /-- A closure is called, and a frame is made for it. -/
  | called {n entry captured : Nat} {argument : Value} {rest : List Value}
    (fetch : m.fetch = .ok (⟨.swapCall, []⟩, n))
    (stack : m.stack = argument :: .closure entry captured :: rest)
    (frames : m'.frames = m.frames.push (Frame.call captured entry ⟨m.ip + n, m.current⟩))
    (current : m'.current = m.frames.size)
  /-- The current frame returns. -/
  | returned {n : Nat} {r : ReturnPoint} (fetch : m.fetch = .ok (⟨.ret, []⟩, n))
    (returnPoint : (m.frames.get m.current).returnPoint = some r) (frames : m'.frames = m.frames)
    (current : m'.current = r.caller)
  /-- The slots of the current frame are allocated. -/
  | entered {n count : Nat} {size : Int32} (step : m.step = .running m')
    (fetch : m.fetch = .ok (⟨.enter, [.int size]⟩, n)) (allocated : Word.toNat? size = some count)
    (fresh : (m.frames.get m.current).isEntered = false)
    (frames : m'.frames = m.frames.modify m.current (·.enter count))
    (current : m'.current = m.current)
  /-- A value is stored in a slot of the current frame. -/
  | stored {n i : Nat} {offset : Int32} {v : Value} {rest : List Value} (step : m.step = .running m')
    (fetch : m.fetch = .ok (⟨.storeVar, [.int offset]⟩, n)) (stack : m.stack = v :: rest)
    (slot : (m.frames.get m.current).slot offset = .ok i)
    (frames : m'.frames = m.frames.modify m.current (·.write i v))
    (current : m'.current = m.current)

/-- The instruction that is fetched for an action that may change the frames. -/
theorem eq_of_fetch {m : Machine} {i j : Instruction} {n : Nat} {a : Action}
    (hfetch : m.fetch = .ok (i, n)) (ha : i.action? = some a) (hj : a.frameInstruction? = some j) :
    i = j :=
  Instruction.eq_of_action (encodable_of_fetch hfetch).fits ha hj

theorem reframed (m : Machine) : Reframed m m.next := by
  have hstep := stepped m
  rw [next]
  generalize hp : m.step = p at hstep ⊢
  cases hstep with
  | stuck => exact .kept rfl rfl
  | running hfetch ha heffect =>
    cases heffect with
    | values | jump => exact .kept rfl rfl
    | call action popped =>
      cases eq_of_fetch hfetch (action ▸ ha) rfl
      exact .called hfetch popped rfl rfl
    | ret action returnPoint =>
      cases eq_of_fetch hfetch (action ▸ ha) rfl
      exact .returned hfetch returnPoint rfl rfl
    | enter action count fresh =>
      cases eq_of_fetch hfetch (action ▸ ha) rfl
      exact .entered hp hfetch count fresh rfl rfl
    | store action popped slot =>
      cases eq_of_fetch hfetch (action ▸ ha) rfl
      exact .stored hp hfetch popped slot rfl rfl
  | returned _ _ heffect | unflushed _ _ heffect =>
    cases heffect
    exact .kept rfl rfl
  | failed _ _ hfails =>
    obtain ⟨-, k, -, sink, rfl, -⟩ := hfails
    exact .kept rfl rfl

theorem size_le_next (m : Machine) : m.frames.size ≤ m.next.frames.size := by
  cases reframed m with
  | kept frames | returned _ _ frames => exact frames ▸ Nat.le_refl _
  | called _ _ frames =>
    rw [frames, Frames.size_push]
    exact Nat.le_succ _
  | entered _ _ _ _ frames | stored _ _ _ _ frames =>
    exact Nat.le_of_eq (by rw [frames, Frames.size_modify])

/-- A step changes no frame but the current one. -/
theorem frame_next {img : Image} {m : Machine} {g : Nat} (hm : Reachable img m)
    (hg : g < m.frames.size) (hcurrent : m.current ≠ g) : m.next.frames.get g = m.frames.get g := by
  cases reframed m with
  | kept frames | returned _ _ frames => rw [frames]
  | called _ _ frames => rw [frames, Frames.get_push, if_neg (Nat.ne_of_lt hg)]
  | entered _ _ _ _ frames | stored _ _ _ _ frames =>
    rw [frames, Frames.get_modify _ hm.current_lt, if_neg hcurrent]

end Machine

end StackCode
