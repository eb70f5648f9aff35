import Mathlib.Data.List.Basic
import StackCode.Machine

/-!
# The faults of execution

Two faults say that there is no instruction at the instruction pointer; all others arise
when one is executed. One of them says that there is no builtin with the name in the
instruction, and is about the instruction alone; another says that a value cannot be called.
Whatever an instruction computes from values fails only with the others (`Tame`), and printing a
value only for want of a type record (`FailsOnly.render`).
-/

namespace StackCode

/-- A fault that is not about reading the instruction. -/
def Fault.OfExecution : Fault → Prop
  | .unknownOpcode _ => False
  | .malformed _ => False
  | _ => True

/-- A fault that is not about the instruction: neither about reading it nor about a name in
it. -/
def Fault.OfValues : Fault → Prop
  | .unknownBuiltin _ => False
  | f => f.OfExecution

theorem Fault.OfValues.ofExecution {f : Fault} (h : f.OfValues) : f.OfExecution := by
  cases f with
  | unknownBuiltin name => cases h
  | _ => exact h

theorem Fault.OfExecution.ne {f : Fault} (h : f.OfExecution) :
    (∀ byte, f ≠ .unknownOpcode byte) ∧ ∀ e, f ≠ .malformed e := by
  constructor
  · intro byte hf
    rw [hf] at h
    exact h
  · intro e hf
    rw [hf] at h
    exact h

theorem Fault.OfValues.ne {f : Fault} (h : f.OfValues) (name : String) : f ≠ .unknownBuiltin name := by
  intro hf
  rw [hf] at h
  exact h

/-- A fault of values that does not say that a value cannot be called. -/
def Fault.OfData : Fault → Prop
  | .notCallable _ => False
  | f => f.OfValues

theorem Fault.OfData.ofValues {f : Fault} (h : f.OfData) : f.OfValues := by
  cases f with
  | notCallable shape => cases h
  | _ => exact h

theorem Fault.OfData.ne {f : Fault} (h : f.OfData) (shape : Shape) : f ≠ .notCallable shape := by
  intro hf
  rw [hf] at h
  exact h

/-- A fault that says that there is no usable type record at a position. -/
def Fault.Unrecorded (f : Fault) : Prop := ∃ position, f = .invalidMetadata position

theorem Fault.Unrecorded.ofData {f : Fault} (h : f.Unrecorded) : f.OfData := by
  obtain ⟨position, rfl⟩ := h
  trivial

/-- A computation that fails with no other faults than those of a kind. -/
def FailsOnly {α : Type} (P : Fault → Prop) (x : Except Fault α) : Prop := ∀ f, x = .error f → P f

namespace FailsOnly

variable {α β : Type} {P Q : Fault → Prop}

theorem ok (a : α) : FailsOnly P (.ok a) := fun _ h => by cases h

theorem error_iff {f : Fault} : FailsOnly P (.error f : Except Fault α) ↔ P f :=
  ⟨fun h => h f rfl, fun h _ hf => Except.error.inj hf ▸ h⟩

theorem mono (hPQ : ∀ f, P f → Q f) {x : Except Fault α} (hx : FailsOnly P x) : FailsOnly Q x :=
  fun f hf => hPQ f (hx f hf)

theorem bind {x : Except Fault α} {f : α → Except Fault β} (hx : FailsOnly P x)
    (hf : ∀ a, FailsOnly P (f a)) : FailsOnly P (x >>= f) := by
  cases x with
  | error e => exact error_iff.mpr (hx e rfl)
  | ok a => exact hf a

theorem map {x : Except Fault α} {f : α → β} (hx : FailsOnly P x) : FailsOnly P (x.map f) := by
  cases x with
  | error e => exact error_iff.mpr (hx e rfl)
  | ok a => exact ok _

/-! ### Printing -/

theorem record (p : Printer) (position : Int32) : FailsOnly Fault.Unrecorded (p.record position) := by
  unfold Printer.record
  split
  · exact ok _
  · exact error_iff.mpr ⟨position, rfl⟩

theorem constructorName (p : Printer) (position ordinal : Int32) :
    FailsOnly Fault.Unrecorded (p.constructorName position ordinal) := by
  refine bind (record p position) fun r => ?_
  split
  · exact ok _
  · exact error_iff.mpr ⟨position, rfl⟩

mutual

theorem text (p : Printer) (style : Style) : ∀ v : Value, FailsOnly Fault.Unrecorded (p.text style v)
  | .unit | .bool _ | .int _ | .str _ | .closure _ _ | .builtin _ => by
    rw [Printer.text]
    exact ok _
  | .tuple items => by
    rw [Printer.text]
    exact bind (texts p style items) fun _ => ok _
  | .data position ordinal fields => by
    rw [Printer.text]
    exact bind (constructorName p position ordinal) fun _ => bind (texts p style fields) fun _ => ok _
  | .partialBuiltin _ args => by
    rw [Printer.text]
    exact bind (texts p style args) fun _ => ok _

theorem texts (p : Printer) (style : Style) :
    ∀ vs : List Value, FailsOnly Fault.Unrecorded (p.texts style vs)
  | [] => by
    rw [Printer.texts]
    exact ok _
  | v :: vs => by
    rw [Printer.texts]
    exact bind (text p style v) fun _ => bind (texts p style vs) fun _ => ok _

end

mutual

theorem typeText (p : Printer) : ∀ v : Value, FailsOnly Fault.Unrecorded (p.typeText v)
  | .tuple items => by
    rw [Printer.typeText]
    exact bind (typeTexts p items) fun _ => ok _
  | .data position _ _ => by
    rw [Printer.typeText]
    exact bind (record p position) fun _ => ok _
  | .unit | .bool _ | .int _ | .str _ | .closure _ _ | .builtin _ | .partialBuiltin _ _ => by
    simp only [Printer.typeText]
    exact ok _

theorem typeTexts (p : Printer) : ∀ vs : List Value, FailsOnly Fault.Unrecorded (p.typeTexts vs)
  | [] => by
    rw [Printer.typeTexts]
    exact ok _
  | v :: vs => by
    rw [Printer.typeTexts]
    exact bind (typeText p v) fun _ => bind (typeTexts p vs) fun _ => ok _

end

theorem render (p : Printer) (style : Style) (v : Value) :
    FailsOnly Fault.Unrecorded (p.render style v) := by
  refine bind (text p style v) fun shown => ?_
  split
  · exact bind (typeText p v) fun _ => ok _
  · exact ok _

end FailsOnly

/-- A computation on values that fails with no other faults than theirs. It calls none of them. -/
def Tame {α : Type} (x : Except Fault α) : Prop := ∀ f, x = .error f → f.OfData

namespace Tame

variable {α β : Type}

@[simp] theorem ok (a : α) : Tame (.ok a) := FailsOnly.ok a

@[simp] theorem pure (a : α) : Tame (Pure.pure a : Except Fault α) := ok a

@[simp] theorem error_iff {f : Fault} : Tame (.error f : Except Fault α) ↔ f.OfData :=
  FailsOnly.error_iff

@[simp] theorem throw_iff {f : Fault} : Tame (throw f : Except Fault α) ↔ f.OfData := error_iff

theorem bind {x : Except Fault α} {f : α → Except Fault β} (hx : Tame x) (hf : ∀ a, Tame (f a)) :
    Tame (x >>= f) :=
  FailsOnly.bind hx hf

theorem map {x : Except Fault α} {f : α → β} (hx : Tame x) : Tame (x.map f) := FailsOnly.map hx

theorem itemAt (items : List Value) (index : Int32) : Tame (Value.itemAt items index) := by
  unfold Value.itemAt
  split <;> simp [Fault.OfData, Fault.OfValues, Fault.OfExecution]

theorem asInt (v : Value) : Tame v.asInt := by
  cases v <;> simp [Value.asInt, Fault.OfData, Fault.OfValues, Fault.OfExecution]

theorem asBool (v : Value) : Tame v.asBool := by
  cases v <;> simp [Value.asBool, Fault.OfData, Fault.OfValues, Fault.OfExecution]

theorem asBytes (v : Value) : Tame v.asBytes := by
  cases v <;> simp [Value.asBytes, Fault.OfData, Fault.OfValues, Fault.OfExecution]

theorem slot (f : Frame) (offset : Int32) : Tame (f.slot offset) := by
  unfold Frame.slot
  split
  · simp [Fault.OfData, Fault.OfValues, Fault.OfExecution]
  · split
    · simp [Fault.OfData, Fault.OfValues, Fault.OfExecution]
    · split <;> simp [Fault.OfData, Fault.OfValues, Fault.OfExecution]

theorem enter (fs : Frames) (i n : Nat) : Tame (fs.enter i n) := by
  rw [Frames.enter]
  split <;> simp [Fault.OfData, Fault.OfValues, Fault.OfExecution]

theorem store (fs : Frames) (i : Nat) (offset : Int32) (v : Value) : Tame (fs.store i offset v) :=
  (slot _ _).map

theorem load (f : Frame) (offset : Int32) : Tame (f.load offset) := by
  refine bind (slot f offset) fun i => ?_
  split <;> simp [Fault.OfData, Fault.OfValues, Fault.OfExecution]

theorem ancestor (fs : Frames) (i : Nat) (depth : Int32) : Tame (fs.ancestor i depth) := by
  unfold Frames.ancestor
  split <;> simp [Fault.OfData, Fault.OfValues, Fault.OfExecution]

theorem arith (op : Arith) (a b : Int32) : Tame (op.apply a b) := by
  unfold Arith.apply
  split
  · simp
  · simp
  · simp
  · split <;> simp [Fault.OfData, Fault.OfValues, Fault.OfExecution]

theorem tableEntry (entries : List Int32) (ordinal : Int32) :
    Tame (Machine.tableEntry entries ordinal) := by
  unfold Machine.tableEntry
  split <;> simp [Fault.OfData, Fault.OfValues, Fault.OfExecution]

theorem render (p : Printer) (style : Style) (v : Value) : Tame (p.render style v) :=
  (FailsOnly.render p style v).mono fun _ h => h.ofData

/-- A builtin is applied to as many arguments as it takes. -/
theorem apply {p : Printer} {b : Builtin} {args : List Value} (hlength : args.length = b.arity) :
    Tame (b.apply p args) := by
  cases b with
  | print style =>
    obtain ⟨v, rfl⟩ := List.length_eq_one_iff.mp hlength
    exact map (render p style v)
  | println =>
    obtain ⟨v, rfl⟩ := List.length_eq_one_iff.mp hlength
    exact ok _
  | stringLength =>
    obtain ⟨s, rfl⟩ := List.length_eq_one_iff.mp hlength
    exact bind (asBytes s) fun _ => pure _
  | substring =>
    obtain ⟨s, start, stop, rfl⟩ := List.length_eq_three.mp hlength
    exact bind (asBytes s) fun _ => bind (asInt start) fun _ => bind (asInt stop) fun _ => pure _
  | concat | stringEqual | stringCompare =>
    obtain ⟨s, t, rfl⟩ := List.length_eq_two.mp hlength
    exact bind (asBytes s) fun _ => bind (asBytes t) fun _ => pure _
  | fatalError =>
    obtain ⟨message, code, rfl⟩ := List.length_eq_two.mp hlength
    exact bind (asBytes message) fun _ => bind (asInt code) fun _ => throw_iff.mpr trivial

end Tame

/-- With another number of arguments a builtin is not callable. -/
theorem Builtin.apply_of_length_ne {p : Printer} {b : Builtin} {args : List Value}
    (h : args.length ≠ b.arity) : b.apply p args = .error (.notCallable .builtin) := by
  unfold Builtin.apply
  split
  all_goals first | rfl | exact absurd rfl h

end StackCode
