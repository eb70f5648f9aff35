import StackCode.Builtin
import StackCode.Fault

/-!
# Values

What the stack and the slots of frames hold. A closure names the frame it captured by
the frame's number, so that all closures over a frame see what is stored in it.
-/

namespace StackCode

/-- A value. -/
inductive Value where
  /-- The unit value. -/
  | unit
  /-- A truth value. -/
  | bool (b : Bool)
  /-- An integer. -/
  | int (n : Int32)
  /-- A string of bytes. -/
  | str (bytes : List UInt8)
  /-- A tuple. -/
  | tuple (items : List Value)
  /-- A constructor value: where the record of its type is, which constructor, and the
  fields. -/
  | data (position ordinal : Int32) (fields : List Value)
  /-- A closure: where its code begins, and the number of the frame it captured. -/
  | closure (entry frame : Nat)
  /-- A builtin. -/
  | builtin (b : Builtin)
  /-- A builtin with some of its arguments. -/
  | partialBuiltin (b : Builtin) (args : List Value)

namespace Value

/-- The shape of a value. -/
def shape : Value → Shape
  | unit => .unit
  | bool _ => .bool
  | int _ => .int
  | str _ => .string
  | tuple _ => .tuple
  | data .. => .data
  | closure .. => .closure
  | builtin _ => .builtin
  | partialBuiltin .. => .partialBuiltin

/-- The integer that a value is. -/
def asInt : Value → Except Fault Int32
  | int n => .ok n
  | v => .error (.typeMismatch .int v.shape)

/-- The truth value that a value is. -/
def asBool : Value → Except Fault Bool
  | bool b => .ok b
  | v => .error (.typeMismatch .bool v.shape)

/-- The string that a value is. -/
def asBytes : Value → Except Fault (List UInt8)
  | str bytes => .ok bytes
  | v => .error (.typeMismatch .string v.shape)

/-- The item of a list at an index. -/
def itemAt (items : List Value) (index : Int32) : Except Fault Value :=
  match (Word.toNat? index).bind fun i => items[i]? with
  | some v => .ok v
  | none => .error (.indexOutOfRange index items.length)

/-! ### Equality -/

mutual

/-- Whether two values are the same. Closures are if they have the same entry and
captured the same frame. -/
def beq : Value → Value → Bool
  | unit, unit => true
  | bool a, bool b => a == b
  | int a, int b => a == b
  | str a, str b => a == b
  | tuple a, tuple b => beqList a b
  | data p o a, data q r b => p == q && o == r && beqList a b
  | closure e f, closure g h => e == g && f == h
  | builtin a, builtin b => a == b
  | partialBuiltin f a, partialBuiltin g b => f == g && beqList a b
  | _, _ => false

/-- Whether two lists of values are the same. -/
def beqList : List Value → List Value → Bool
  | [], [] => true
  | v :: vs, w :: ws => beq v w && beqList vs ws
  | _, _ => false

end

mutual

theorem eq_of_beq : ∀ {v w : Value}, beq v w = true → v = w
  | unit, w, h => by cases w <;> simp_all [beq]
  | bool _, w, h => by cases w <;> simp_all [beq]
  | int _, w, h => by cases w <;> simp_all [beq]
  | str _, w, h => by cases w <;> simp_all [beq]
  | tuple a, w, h => by
    cases w <;> simp only [beq, Bool.false_eq_true] at h
    rw [eq_of_beqList h]
  | data p o a, w, h => by
    cases w <;> simp only [beq, Bool.and_eq_true, beq_iff_eq, Bool.false_eq_true] at h
    rw [h.1.1, h.1.2, eq_of_beqList h.2]
  | closure _ _, w, h => by cases w <;> simp_all [beq]
  | builtin _, w, h => by cases w <;> simp_all [beq]
  | partialBuiltin f a, w, h => by
    cases w <;> simp only [beq, Bool.and_eq_true, beq_iff_eq, Bool.false_eq_true] at h
    rw [h.1, eq_of_beqList h.2]

theorem eq_of_beqList : ∀ {vs ws : List Value}, beqList vs ws = true → vs = ws
  | [], ws, h => by cases ws <;> simp_all [beqList]
  | v :: vs, ws, h => by
    cases ws with
    | nil => simp [beqList] at h
    | cons w ws =>
      simp only [beqList, Bool.and_eq_true] at h
      rw [eq_of_beq h.1, eq_of_beqList h.2]

end

mutual

theorem beq_refl : ∀ v : Value, beq v v = true
  | unit => rfl
  | bool _ => by simp [beq]
  | int _ => by simp [beq]
  | str _ => by simp [beq]
  | tuple a => by simp [beq, beqList_refl a]
  | data _ _ a => by simp [beq, beqList_refl a]
  | closure _ _ => by simp [beq]
  | builtin _ => by simp [beq]
  | partialBuiltin _ a => by simp [beq, beqList_refl a]

theorem beqList_refl : ∀ vs : List Value, beqList vs vs = true
  | [] => rfl
  | v :: vs => by simp [beqList, beq_refl v, beqList_refl vs]

end

theorem beq_iff_eq {v w : Value} : beq v w = true ↔ v = w :=
  ⟨eq_of_beq, fun h => h ▸ beq_refl v⟩

instance : DecidableEq Value := fun v w => decidable_of_iff (beq v w = true) beq_iff_eq

end Value

end StackCode
