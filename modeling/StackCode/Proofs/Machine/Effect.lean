import StackCode.Proofs.Frames
import StackCode.Proofs.Machine.Faults
import StackCode.Proofs.Machine.Yields
import StackCode.Proofs.Result

/-!
# The effects of instructions

Everything that an instruction can do to a machine, said once: `Effect` lists the ways in
which it can succeed, `Fails` says what is left when it does not, and `yields_perform` is
the proof that there are no others. What holds of all machines that a program reaches is
derived from these, without looking at the instructions again.
-/

namespace StackCode

open Result

/-! ### Values and their parts -/

/-- The value `w` is a value or a part of it. A closure has no parts: what it captured is in
the frames. -/
inductive Value.Within (w : Value) : Value → Prop where
  /-- A value is within itself. -/
  | refl : Within w w
  /-- What is within an item is within the tuple. -/
  | tuple {v : Value} {items : List Value} : v ∈ items → Within w v → Within w (.tuple items)
  /-- What is within a field is within the constructor value. -/
  | data {v : Value} {position ordinal : Int32} {fields : List Value} :
    v ∈ fields → Within w v → Within w (.data position ordinal fields)
  /-- What is within an argument is within the builtin that has it. -/
  | partialBuiltin {v : Value} {b : Builtin} {args : List Value} :
    v ∈ args → Within w v → Within w (.partialBuiltin b args)

/-- A value without parts that is no closure. -/
inductive Value.Plain : Value → Prop where
  | unit : Plain .unit
  | bool (b : Bool) : Plain (.bool b)
  | int (n : Int32) : Plain (.int n)
  | str (bytes : List UInt8) : Plain (.str bytes)
  | builtin (b : Builtin) : Plain (.builtin b)

theorem Value.Plain.eq_of_within {v w : Value} (hv : v.Plain) (h : w.Within v) : w = v := by
  cases hv <;> cases h <;> rfl

theorem Value.mem_of_itemAt {items : List Value} {index : Int32} {v : Value}
    (h : itemAt items index = .ok v) : v ∈ items := by
  unfold itemAt at h
  split at h
  · next w hw =>
    cases h
    obtain ⟨i, -, hi⟩ := Option.bind_eq_some_iff.mp hw
    exact List.mem_of_getElem? hi
  · cases h

/-- The builtin that is called, and the arguments that it then has, when a builtin is applied to one
more argument. -/
def Value.application? : Value → Value → Option (Builtin × List Value)
  | .builtin b, argument => some (b, [argument])
  | .partialBuiltin b args, argument => some (b, args ++ [argument])
  | _, _ => none

theorem Value.length_of_application {callee argument : Value} {b : Builtin} {args : List Value}
    (h : callee.application? argument = some (b, args)) : 0 < args.length := by
  cases callee with
  | builtin b | partialBuiltin b args =>
    cases h
    simp
  | _ => cases h

/-- The arguments are the last one and those that the builtin had. -/
theorem Value.within_of_application {callee argument v : Value} {b : Builtin} {args : List Value}
    (h : callee.application? argument = some (b, args)) (hv : v ∈ args) :
    v = argument ∨ v.Within callee := by
  cases callee with
  | builtin b =>
    cases h
    exact .inl (List.mem_singleton.mp hv)
  | partialBuiltin b args =>
    cases h
    rcases List.mem_append.mp hv with hv | hv
    · exact .inr (.partialBuiltin hv .refl)
    · exact .inl (List.mem_singleton.mp hv)
  | _ => cases h

namespace Machine

/-- A value that a machine holds, on the stack or in a slot of a frame. -/
inductive Holds (m : Machine) : Value → Prop where
  /-- On the stack. -/
  | stack {v : Value} : v ∈ m.stack → Holds m v
  /-- In a slot. -/
  | slot {k i : Nat} {v : Value} : (m.frames.get k).read? i = some v → Holds m v

end Machine

/-! ### Effects -/

/-- The positions to which an action may send the instruction pointer, at once or through
the closure that it makes. -/
def Action.destinations : Action → List Int32
  | .pushClosure entry => [entry]
  | .jump position => [position]
  | .jumpIf _ position => [position]
  | .jumpTable entries => entries
  | _ => []

namespace Machine

/-- A value that an action may make on a machine. -/
inductive Makes (a : Action) (m : Machine) : Value → Prop where
  /-- A value that is there, or a part of one. -/
  | part {v w : Value} : m.Holds w → v.Within w → Makes a m v
  /-- The value that the action pushes. -/
  | literal {v : Value} : a = .push v → Makes a m v
  /-- A value without parts. -/
  | plain {v : Value} : v.Plain → Makes a m v
  /-- A closure over the current frame. -/
  | closure {entry : Int32} : entry ∈ a.destinations → Makes a m (.closure (target entry) m.current)
  /-- A tuple of values that are there. -/
  | tuple {items : List Value} : (∀ v ∈ items, m.Holds v) → Makes a m (.tuple items)
  /-- A constructor value of values that are there. -/
  | data {position ordinal : Int32} {fields : List Value} :
    (∀ v ∈ fields, m.Holds v) → Makes a m (.data position ordinal fields)
  /-- A builtin that is applied to an argument and does not have all of them then. -/
  | partialBuiltin {callee argument : Value} {stack args : List Value} {b : Builtin}
    (action : a = .call) (popped : m.stack = argument :: callee :: stack)
    (applied : callee.application? argument = some (b, args)) (few : args.length < b.arity) :
    Makes a m (.partialBuiltin b args)

/-- The ways in which an action can succeed: the result, if the program returns one, and the
machine that is left. -/
inductive Effect (a : Action) (m : Machine) : Option Value → Machine → Prop where
  /-- It changes the stack and the output. -/
  | values {stack : List Value} {sink : Sink} (made : ∀ v ∈ stack, Makes a m v) :
    Effect a m none { m with stack := stack, sink := sink }
  /-- It jumps. -/
  | jump {stack : List Value} {position : Int32} (kept : ∀ v ∈ stack, v ∈ m.stack)
    (destination : position ∈ a.destinations) :
    Effect a m none { m with ip := target position, stack := stack }
  /-- It calls a closure, which gets a frame of its own. -/
  | call {stack : List Value} {argument : Value} {entry captured : Nat} (action : a = .call)
    (popped : m.stack = argument :: .closure entry captured :: stack) :
    Effect a m none
      { m with
        ip := entry
        stack := argument :: stack
        frames := m.frames.push (Frame.call captured entry ⟨m.ip, m.current⟩)
        current := m.frames.size }
  /-- It returns to the calling frame. -/
  | ret {r : ReturnPoint} (action : a = .ret)
    (returnPoint : (m.frames.get m.current).returnPoint = some r) :
    Effect a m none { m with ip := r.ip, current := r.caller }
  /-- It returns from the outermost frame, with the top value. -/
  | finish {v : Value} {stack : List Value} {sink : Sink} (action : a = .ret)
    (returnPoint : (m.frames.get m.current).returnPoint = none) (popped : m.stack = v :: stack) :
    Effect a m (some v) { m with stack := stack, sink := sink }
  /-- It allocates the slots of the current frame. -/
  | enter {size : Int32} {n : Nat} (action : a = .enter size) (count : Word.toNat? size = some n)
    (fresh : (m.frames.get m.current).isEntered = false) :
    Effect a m none { m with frames := m.frames.modify m.current (·.enter n) }
  /-- It stores the top value in a slot of the current frame. -/
  | store {v : Value} {stack : List Value} {offset : Int32} {i : Nat} (action : a = .store offset)
    (popped : m.stack = v :: stack) (slot : (m.frames.get m.current).slot offset = .ok i) :
    Effect a m none
      { m with stack := stack, frames := m.frames.modify m.current (·.write i v) }

/-- The faults that an action may end with: those of values, and that there is no builtin with
the name or that what is called cannot be. -/
inductive Risks (m : Machine) : Action → Fault → Prop where
  | data {a : Action} {f : Fault} : f.OfData → Risks m a f
  /-- What is called is neither a closure nor a builtin. -/
  | uncallable {callee argument : Value} {stack : List Value}
    (popped : m.stack = argument :: callee :: stack) (applied : callee.application? argument = none) :
    Risks m .call (.notCallable callee.shape)
  /-- A builtin has more arguments than it takes. -/
  | surplus {callee argument : Value} {stack args : List Value} {b : Builtin}
    (popped : m.stack = argument :: callee :: stack)
    (applied : callee.application? argument = some (b, args)) (many : b.arity < args.length) :
    Risks m .call (.notCallable .builtin)
  | unnamed {name : List UInt8} : Builtin.ofName? (Text.Utf8.lossy name) = none →
    Risks m (.pushBuiltin name) (.unknownBuiltin (Text.Utf8.lossy name))

/-- What is left when an action fails: at most two values are gone from the stack, and
output is written only if writing it is what failed. -/
structure Fails (a : Action) (m : Machine) (f : Fault) (m' : Machine) : Prop where
  risk : Risks m a f
  left : ∃ k ≤ 2, ∃ sink, m' = { m with stack := m.stack.drop k, sink := sink } ∧
    (sink = m.sink ∨ ∃ reason, f = .output reason)

theorem Fails.intro {a : Action} {m : Machine} {f : Fault} {stack : List Value} (k : Nat) (hk : k ≤ 2)
    (hf : f.OfData) (hstack : m.stack.drop k = stack) : Fails a m f { m with stack := stack } :=
  ⟨.data hf, k, hk, m.sink, by rw [hstack], .inl rfl⟩

theorem Fails.ofExecution {a : Action} {m m' : Machine} {f : Fault} (h : Fails a m f m') :
    f.OfExecution := by
  cases h.risk with
  | data hf => exact hf.ofValues.ofExecution
  | uncallable | surplus | unnamed => trivial

theorem holds_of_mem_drop {m : Machine} {k : Nat} {v : Value} (h : v ∈ m.stack.drop k) : m.Holds v :=
  .stack (List.mem_of_mem_drop h)

theorem holds_of_load {m : Machine} {k : Nat} {offset : Int32} {v : Value}
    (h : (m.frames.get k).load offset = .ok v) : m.Holds v := by
  obtain ⟨i, -, h⟩ := bind_eq_ok_iff.mp h
  split at h
  · next w hw =>
    cases h
    exact .slot hw
  · cases h

theorem mem_of_tableEntry {entries : List Int32} {ordinal position : Int32}
    (h : tableEntry entries ordinal = .ok position) : position ∈ entries := by
  unfold tableEntry at h
  split at h
  · next n hn =>
    cases h
    obtain ⟨i, -, hi⟩ := Option.bind_eq_some_iff.mp hn
    exact List.mem_of_getElem? hi
  · cases h

/-- Values are popped and one is pushed in their place. -/
theorem Effect.replace {a : Action} {m : Machine} {v : Value} {stack : List Value} (k : Nat)
    (hstack : m.stack.drop k = stack) (hv : Makes a m v) :
    Effect a m none { m with stack := v :: stack } := by
  refine .values (List.forall_mem_cons.mpr ⟨hv, fun w hw => .part ?_ .refl⟩)
  exact holds_of_mem_drop (hstack ▸ hw)

/-- Values are popped. -/
theorem Effect.popped {a : Action} {m : Machine} {stack : List Value} {sink : Sink} (k : Nat)
    (hstack : m.stack.drop k = stack) :
    Effect a m none { m with stack := stack, sink := sink } :=
  .values fun _ hw => .part (holds_of_mem_drop (hstack ▸ hw)) .refl

/-! ### Calls -/

/-- A builtin answers with a value without parts. -/
theorem plain_of_apply {p : Printer} {b : Builtin} {args : List Value} {v : Value}
    (h : b.apply p args = .ok (.value v)) : v.Plain := by
  unfold Builtin.apply at h
  split at h
  · obtain ⟨_, -, h⟩ := map_eq_ok_iff.mp h
    cases h
  · cases h
  · obtain ⟨_, -, h⟩ := bind_eq_ok_iff.mp h
    cases h
    exact .int _
  · obtain ⟨_, -, h⟩ := bind_eq_ok_iff.mp h
    obtain ⟨_, -, h⟩ := bind_eq_ok_iff.mp h
    obtain ⟨_, -, h⟩ := bind_eq_ok_iff.mp h
    cases h
    exact .str _
  · obtain ⟨_, -, h⟩ := bind_eq_ok_iff.mp h
    obtain ⟨_, -, h⟩ := bind_eq_ok_iff.mp h
    cases h
    exact .str _
  · obtain ⟨_, -, h⟩ := bind_eq_ok_iff.mp h
    obtain ⟨_, -, h⟩ := bind_eq_ok_iff.mp h
    cases h
    exact .bool _
  · obtain ⟨_, -, h⟩ := bind_eq_ok_iff.mp h
    obtain ⟨_, -, h⟩ := bind_eq_ok_iff.mp h
    cases h
    exact .int _
  · obtain ⟨_, -, h⟩ := bind_eq_ok_iff.mp h
    obtain ⟨_, -, h⟩ := bind_eq_ok_iff.mp h
    cases h
  · cases h

/-- Writing a text, when values are popped already. -/
theorem yields_write_effect {a : Action} {m : Machine} {stack : List Value} {text : String} (k : Nat)
    (hk : k ≤ 2) (hstack : m.stack.drop k = stack) :
    Yields (write text) { m with stack := stack } (fun _ m' => Effect a m none m') (Fails a m) := by
  rw [yields_write]
  split
  · exact Effect.popped k hstack
  · next sink reason _ => exact ⟨.data trivial, k, hk, sink, by rw [hstack], .inr ⟨reason, rfl⟩⟩

section Call

variable {m : Machine} {callee argument : Value} {stack : List Value}
  (hstack : m.stack = argument :: callee :: stack)
include hstack

/-- A call that fails has popped the argument and the callee. -/
theorem Fails.ofCall {f : Fault} (hf : Risks m .call f) :
    Fails .call m f { m with stack := stack } :=
  ⟨hf, 2, Nat.le_refl 2, m.sink, by rw [hstack]; rfl, .inl rfl⟩

theorem yields_applyBuiltin {b : Builtin} {args : List Value}
    (happlied : callee.application? argument = some (b, args)) :
    Yields (applyBuiltin b args) { m with stack := stack } (fun _ m' => Effect .call m none m')
      (Fails .call m) := by
  have hdrop : m.stack.drop 2 = stack := by rw [hstack]; rfl
  unfold applyBuiltin
  split
  · next few =>
    rw [yields_push]
    exact .replace 2 hdrop (.partialBuiltin rfl hstack happlied few)
  · next hmany =>
    rw [yields_bind, yields_get, yields_bind, yields_lift]
    split
    · next reply hreply =>
      cases reply with
      | value v =>
        rw [yields_push]
        exact .replace 2 hdrop (.plain (plain_of_apply hreply))
      | output text => exact yields_write_effect 2 (Nat.le_refl 2) hdrop
    · next fault hfault =>
      by_cases hlength : args.length = b.arity
      · exact .ofCall hstack (.data (Tame.apply hlength _ hfault))
      · rw [Builtin.apply_of_length_ne hlength] at hfault
        cases hfault
        exact .ofCall hstack (.surplus hstack happlied (by omega))

theorem yields_call :
    Yields (call callee argument) { m with stack := stack } (fun _ m' => Effect .call m none m')
      (Fails .call m) := by
  cases callee with
  | closure entry captured =>
    rw [call, yields_modify]
    exact .call rfl hstack
  | builtin b | partialBuiltin b args => exact yields_applyBuiltin hstack rfl
  | _ => exact .ofCall hstack (.uncallable hstack rfl)

end Call

theorem yields_ret {m : Machine} : Yields ret m (Effect .ret m) (Fails .ret m) := by
  unfold ret
  rw [yields_bind, yields_get]
  split
  · next r hr =>
    rw [yields_bind, yields_set, yields_pure]
    exact .ret rfl hr
  · next hr =>
    rw [yields_bind, yields_pop]
    split
    · exact .intro 0 (Nat.zero_le _) trivial rfl
    · next v stack hstack =>
      have hdrop : m.stack.drop 1 = stack := by rw [hstack]; rfl
      split
      · exact .finish rfl hr hstack
      · rw [yields_bind, yields_get, yields_bind, yields_lift]
        split
        · rw [yields_bind, yields_write]
          split
          · exact .finish rfl hr hstack
          · next sink reason _ =>
            exact ⟨.data trivial, 1, by omega, sink, by rw [hdrop], .inr ⟨reason, rfl⟩⟩
        · next fault hfault => exact .intro 1 (by omega) (Tame.render _ _ _ _ hfault) hdrop

/-! ### Instructions -/

/-- An act that pops a value, when `k` values are popped already, and goes on with it. -/
theorem yields_pop_bind {α : Type} {a : Action} {m : Machine} {stack : List Value} {f : Value → Act α}
    {Q : α → Machine → Prop} (k : Nat) (hk : k ≤ 2) (hstack : m.stack.drop k = stack)
    (h : ∀ v rest, m.stack.drop k = v :: rest → m.stack.drop (k + 1) = rest → m.Holds v →
      Yields (f v) { m with stack := rest } Q (Fails a m)) :
    Yields (pop >>= f) { m with stack := stack } Q (Fails a m) := by
  rw [yields_bind, yields_pop]
  simp only
  split
  · exact .intro k hk trivial hstack
  · next v rest =>
    refine h v rest hstack ?_ (holds_of_mem_drop (k := k) (by rw [hstack]; exact List.mem_cons_self ..))
    rw [← List.drop_drop, hstack]
    rfl

/-- An act that computes something from the values popped and goes on with it. -/
theorem yields_lift_bind {α β : Type} {a : Action} {m : Machine} {stack : List Value} {x : Except Fault α}
    {f : α → Act β} {Q : β → Machine → Prop} (k : Nat) (hk : k ≤ 2) (hstack : m.stack.drop k = stack)
    (hx : Tame x) (h : ∀ b, x = .ok b → Yields (f b) { m with stack := stack } Q (Fails a m)) :
    Yields (lift x >>= f) { m with stack := stack } Q (Fails a m) := by
  rw [yields_bind, yields_lift]
  split
  · next b => exact h b rfl
  · next fault => exact .intro k hk (hx fault rfl) hstack

/-- An act that pops an integer, when `k` values are popped already, and goes on with it. -/
theorem yields_popInt_bind {α : Type} {a : Action} {m : Machine} {stack : List Value} {f : Int32 → Act α}
    {Q : α → Machine → Prop} (k : Nat) (hk : k ≤ 1) (hstack : m.stack.drop k = stack)
    (h : ∀ n rest, m.stack.drop (k + 1) = rest → Yields (f n) { m with stack := rest } Q (Fails a m)) :
    Yields (popInt >>= f) { m with stack := stack } Q (Fails a m) := by
  rw [popInt, bind_assoc]
  refine yields_pop_bind k (by omega) hstack fun v rest _ hrest _ => ?_
  exact yields_lift_bind (k + 1) (by omega) hrest (Tame.asInt v) fun n _ => h n rest hrest

/-- A value is pushed in the place of those popped, which ends the action. -/
theorem yields_push_last {a : Action} {m : Machine} {stack : List Value} {v : Value} (k : Nat)
    (hstack : m.stack.drop k = stack) (hv : Makes a m v) :
    Yields (push v >>= fun _ => pure none) { m with stack := stack } (Effect a m) (Fails a m) := by
  rw [yields_bind, yields_push, yields_pure]
  exact .replace k hstack hv

/-- **An action has one of the effects, or fails.** -/
theorem yields_perform (a : Action) (m : Machine) :
    Yields (perform a) m (Effect a m) (Fails a m) := by
  cases a with
  | push v => exact yields_push_last 0 rfl (.literal rfl)
  | pushBuiltin name =>
    simp only [perform]
    split
    · simp only [yields_bind, yields_push, yields_pure]
      exact .replace 0 rfl (.plain (.builtin _))
    · next hname =>
      simp only [yields_bind, yields_throw]
      exact ⟨.unnamed hname, 0, Nat.zero_le 2, m.sink, rfl, .inl rfl⟩
  | pushClosure entry =>
    simp only [perform, yields_bind, yields_get, yields_push, yields_pure]
    exact .replace 0 rfl (.closure (List.mem_singleton.mpr rfl))
  | pushData position ordinal count =>
    simp only [perform, yields_bind, yields_popMany, yields_push, yields_pure]
    split
    · exact .intro 0 (Nat.zero_le 2) trivial rfl
    · next n _ =>
      split
      · exact .intro 0 (Nat.zero_le 2) trivial rfl
      · refine .replace n rfl (.data fun v hv => .stack ?_)
        exact List.mem_of_mem_take (List.mem_reverse.mp hv)
  | pushDataItem index =>
    simp only [perform]
    refine yields_pop_bind 0 (by omega) rfl fun v stack hstack hdrop hheld => ?_
    split
    · next fields =>
      refine yields_lift_bind 1 (by omega) hdrop (Tame.itemAt fields index) fun w hw => ?_
      exact yields_push_last 1 hdrop (.part hheld (.data (Value.mem_of_itemAt hw) .refl))
    · simp only [yields_bind, yields_throw]
      exact .intro 1 (by omega) trivial hdrop
  | pushTuple count =>
    simp only [perform, yields_bind, yields_popMany, yields_push, yields_pure]
    split
    · exact .intro 0 (by omega) trivial rfl
    · next n _ =>
      split
      · exact .intro 0 (by omega) trivial rfl
      · refine .replace n rfl (.tuple fun v hv => .stack ?_)
        exact List.mem_of_mem_take (List.mem_reverse.mp hv)
  | pushTupleItem index =>
    simp only [perform]
    refine yields_pop_bind 0 (by omega) rfl fun v stack hstack hdrop hheld => ?_
    split
    · next items =>
      refine yields_lift_bind 1 (by omega) hdrop (Tame.itemAt items index) fun w hw => ?_
      exact yields_push_last 1 hdrop (.part hheld (.tuple (Value.mem_of_itemAt hw) .refl))
    · simp only [yields_bind, yields_throw]
      exact .intro 1 (by omega) trivial hdrop
  | pushVar depth offset =>
    simp only [perform]
    split
    · simp only [yields_bind, yields_throw]
      exact .intro 0 (by omega) trivial rfl
    · rw [yields_bind, yields_get]
      refine yields_lift_bind 0 (by omega) rfl (Tame.ancestor _ _ _) fun frame _ => ?_
      refine yields_lift_bind 0 (by omega) rfl (Tame.load _ _) fun v hv => ?_
      exact yields_push_last 0 rfl (.part (holds_of_load hv) .refl)
  | dup =>
    simp only [perform, yields_bind, yields_get]
    split
    · exact .intro 0 (by omega) trivial rfl
    · next v stack hstack =>
      exact yields_push_last 0 rfl (.part (.stack (by rw [hstack]; exact List.mem_cons_self ..)) .refl)
  | discard =>
    simp only [perform]
    refine yields_pop_bind 0 (by omega) rfl fun _ stack _ hdrop _ => ?_
    exact Effect.popped 1 hdrop
  | swap =>
    simp only [perform]
    refine yields_pop_bind 0 (by omega) rfl fun b stack _ hdrop hb => ?_
    refine yields_pop_bind 1 (by omega) hdrop fun a stack _ hdrop ha => ?_
    simp only [yields_bind, yields_push, yields_pure]
    refine .values (List.forall_mem_cons.mpr ⟨.part ha .refl, List.forall_mem_cons.mpr
      ⟨.part hb .refl, fun v hv => .part (holds_of_mem_drop (k := 2) (hdrop ▸ hv)) .refl⟩⟩)
  | arith op =>
    simp only [perform]
    refine yields_popInt_bind 0 (by omega) rfl fun b stack hdrop => ?_
    refine yields_popInt_bind 1 (by omega) hdrop fun a stack hdrop => ?_
    refine yields_lift_bind 2 (by omega) hdrop (Tame.arith op a b) fun n _ => ?_
    exact yields_push_last 2 hdrop (.plain (.int n))
  | eq =>
    simp only [perform]
    refine yields_popInt_bind 0 (by omega) rfl fun b stack hdrop => ?_
    refine yields_popInt_bind 1 (by omega) hdrop fun a stack hdrop => ?_
    exact yields_push_last 2 hdrop (.plain (.bool _))
  | jump position =>
    simp only [perform, yields_bind, yields_jump, yields_pure]
    exact .jump (fun _ h => h) (List.mem_singleton.mpr rfl)
  | jumpIf sense position =>
    simp only [perform, popBool, bind_assoc]
    refine yields_pop_bind 0 (by omega) rfl fun v stack _ hdrop _ => ?_
    refine yields_lift_bind 1 (by omega) hdrop (Tame.asBool v) fun b _ => ?_
    split
    · simp only [yields_bind, yields_jump, yields_pure]
      exact .jump (fun _ h => List.mem_of_mem_drop (hdrop ▸ h)) (List.mem_singleton.mpr rfl)
    · exact Effect.popped 1 hdrop
  | jumpTable entries =>
    simp only [perform]
    refine yields_pop_bind 0 (by omega) rfl fun v stack hstack hdrop hheld => ?_
    split
    · next ordinal _ =>
      refine yields_lift_bind 1 (by omega) hdrop (Tame.tableEntry entries ordinal) fun n hn => ?_
      simp only [yields_bind, yields_jump, yields_pure]
      exact .jump (fun _ h => List.mem_of_mem_drop (hdrop ▸ h)) (mem_of_tableEntry hn)
    · simp only [yields_bind, yields_throw]
      exact .intro 1 (by omega) trivial hdrop
  | call =>
    simp only [perform]
    refine yields_pop_bind 0 (by omega) rfl fun argument stack hstack hdrop _ => ?_
    refine yields_pop_bind 1 (by omega) hdrop fun callee rest hrest _ _ => ?_
    simp only [yields_bind, yields_pure]
    refine yields_call ?_
    rw [List.drop_zero] at hstack
    rw [hstack, ← hrest, ← hdrop]
  | enter size =>
    simp only [perform]
    split
    · simp only [yields_bind, yields_throw]
      exact .intro 0 (by omega) trivial rfl
    · next n hn =>
      rw [yields_bind, yields_get]
      refine yields_lift_bind 0 (by omega) rfl (Tame.enter _ _ _) fun frames hframes => ?_
      obtain ⟨hfresh, rfl⟩ := Frames.enter_eq_ok_iff.mp hframes
      simp only [yields_bind, yields_modify, yields_pure]
      exact .enter rfl hn hfresh
  | ret => exact yields_ret
  | store offset =>
    simp only [perform]
    refine yields_pop_bind 0 (by omega) rfl fun v stack hstack hdrop _ => ?_
    rw [yields_bind, yields_get]
    refine yields_lift_bind 1 (by omega) hdrop (Tame.store _ _ _ _) fun frames hframes => ?_
    obtain ⟨i, hi, rfl⟩ := Frames.store_eq_ok_iff.mp hframes
    simp only [yields_bind, yields_modify, yields_pure]
    exact .store rfl hstack hi

end Machine

end StackCode
