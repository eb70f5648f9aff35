import StackCode.Machine.Step

/-!
# What acts yield

An act on a machine succeeds with a result or fails with a fault, and leaves a machine
behind in either case. `Yields act m Q E` says that it leaves what `Q` demands of its result
and the machine when it succeeds, and what `E` demands of the fault and the machine when it
fails. The rules below compute this for every act that instructions are composed of, so a
statement about an instruction is proved by rewriting with them and looking at the cases
that remain.
-/

namespace StackCode.Machine

variable {α β : Type}

/-- On `m`, the act leaves behind what `Q` demands if it succeeds and what `E` demands if it
fails. -/
def Yields (act : Act α) (m : Machine) (Q : α → Machine → Prop) (E : Fault → Machine → Prop) :
    Prop :=
  match act.run m with
  | .ok a m' => Q a m'
  | .error fault m' => E fault m'

variable {m : Machine} {Q : α → Machine → Prop} {E : Fault → Machine → Prop}

theorem Yields.ok {act : Act α} {a : α} {m' : Machine} (h : Yields act m Q E)
    (hrun : act.run m = .ok a m') : Q a m' := by
  rwa [Yields, hrun] at h

theorem Yields.error {act : Act α} {fault : Fault} {m' : Machine} (h : Yields act m Q E)
    (hrun : act.run m = .error fault m') : E fault m' := by
  rwa [Yields, hrun] at h

/-! ### Composition -/

@[simp] theorem yields_pure {a : α} : Yields (pure a) m Q E ↔ Q a m := Iff.rfl

@[simp] theorem yields_throw {fault : Fault} : Yields (throw fault) m Q E ↔ E fault m := Iff.rfl

@[simp] theorem yields_bind {x : Act α} {f : α → Act β} {R : β → Machine → Prop} :
    Yields (x >>= f) m R E ↔ Yields x m (fun a m' => Yields (f a) m' R E) E := by
  unfold Yields
  rw [EStateM.run_bind]
  cases x.run m <;> rfl

@[simp] theorem yields_lift {x : Except Fault α} :
    Yields (lift x) m Q E ↔
      match x with
      | .ok a => Q a m
      | .error fault => E fault m := by
  cases x <;> rfl

/-! ### The machine itself -/

@[simp] theorem yields_get {Q : Machine → Machine → Prop} : Yields get m Q E ↔ Q m m := Iff.rfl

@[simp] theorem yields_set {m' : Machine} {Q : PUnit → Machine → Prop} :
    Yields (set m') m Q E ↔ Q ⟨⟩ m' :=
  Iff.rfl

@[simp] theorem yields_modify {f : Machine → Machine} {Q : PUnit → Machine → Prop} :
    Yields (modify f) m Q E ↔ Q ⟨⟩ (f m) :=
  Iff.rfl

@[simp] theorem yields_modifyGet {f : Machine → α × Machine} :
    Yields (modifyGet f) m Q E ↔ Q (f m).1 (f m).2 :=
  Iff.rfl

/-! ### The stack and the output -/

@[simp] theorem yields_push {v : Value} {Q : Unit → Machine → Prop} :
    Yields (push v) m Q E ↔ Q () { m with stack := v :: m.stack } :=
  Iff.rfl

@[simp] theorem yields_jump {position : Int32} {Q : Unit → Machine → Prop} :
    Yields (jump position) m Q E ↔ Q () { m with ip := target position } :=
  Iff.rfl

@[simp] theorem yields_pop {Q : Value → Machine → Prop} :
    Yields pop m Q E ↔
      match m.stack with
      | [] => E .stackUnderflow m
      | v :: rest => Q v { m with stack := rest } := by
  rw [pop, yields_bind, yields_get]
  cases m.stack <;> rfl

@[simp] theorem yields_popMany {count : Int32} {Q : List Value → Machine → Prop} :
    Yields (popMany count) m Q E ↔
      match Word.toNat? count with
      | none => E (.indexOutOfRange count m.stack.length) m
      | some n =>
        if m.stack.length < n then E .stackUnderflow m
        else Q (m.stack.take n).reverse { m with stack := m.stack.drop n } := by
  rw [popMany, yields_bind, yields_get]
  cases Word.toNat? count with
  | none => rfl
  | some n =>
    have hlen : (m.stack.take n).length < n ↔ m.stack.length < n := by
      rw [List.length_take]
      omega
    simp only [hlen]
    by_cases hn : m.stack.length < n
    · simp only [if_pos hn, yields_throw]
    · simp only [if_neg hn, yields_bind, yields_set, yields_pure]

@[simp] theorem yields_write {text : String} {Q : Unit → Machine → Prop} :
    Yields (write text) m Q E ↔
      match m.sink.write (Text.Utf8.encode text) with
      | (sink, none) => Q () { m with sink := sink }
      | (sink, some reason) => E (.output reason) { m with sink := sink } := by
  rw [write, yields_bind, yields_modifyGet]
  simp only
  generalize m.sink.write (Text.Utf8.encode text) = written
  rcases written with ⟨sink, _ | reason⟩ <;> rfl

end StackCode.Machine
