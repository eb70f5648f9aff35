import StackCode.Proofs.Codec
import StackCode.Proofs.Machine.Effect

/-!
# Instructions as actions

An instruction whose operands are those of its signature has an action, so the machine
never meets one that has none. The positions to which the action may lead are those that
the instruction names.
-/

namespace StackCode

/-- Whether an instruction with this opcode names positions to which it may send the
instruction pointer. -/
def Opcode.isTransfer : Opcode → Bool
  | jmp | jmpFalse | jmpTrue | jmpData | pushClosure => true
  | _ => false

namespace Instruction

/-- The positions to which an instruction may send the instruction pointer, at once or
through the closure that it makes: the operand of a jump and of `PUSH_CLOSURE`, and the
entries of a jump table. -/
def destinations (i : Instruction) : List Int32 :=
  match i.opcode, i.operands with
  | .jmp, [.int n] => [n]
  | .jmpFalse, [.int n] => [n]
  | .jmpTrue, [.int n] => [n]
  | .pushClosure, [.int n] => [n]
  | .jmpData, [.table entries] => entries
  | _, _ => []

/-- A destination is an operand of a jump or of `PUSH_CLOSURE`, or an entry of a jump table. -/
theorem of_mem_destinations {i : Instruction} {n : Int32} (h : n ∈ i.destinations) :
    i.opcode.isTransfer = true ∧
      (.int n ∈ i.operands ∨ ∃ entries, .table entries ∈ i.operands ∧ n ∈ entries) := by
  obtain ⟨op, os⟩ := i
  unfold destinations at h
  simp only at h ⊢
  split at h
  case h_1 | h_2 | h_3 | h_4 =>
    cases List.mem_singleton.mp h
    exact ⟨rfl, .inl List.mem_cons_self⟩
  case h_5 => exact ⟨rfl, .inr ⟨_, List.mem_cons_self, h⟩⟩
  case h_6 => cases h

theorem fitAll_pushVar {os : List Operand} (h : fitAll os Opcode.pushVar.signature = true) :
    ∃ depth offset, os = [.int depth, .int offset] := by
  obtain ⟨o, rest, rfl, ho, hrest⟩ := fitAll_cons h
  obtain ⟨depth, rfl⟩ := fits_word (.inl ho)
  obtain ⟨offset, rfl⟩ := fitAll_word (by simp) hrest
  exact ⟨depth, offset, rfl⟩

theorem fitAll_pushData {os : List Operand} (h : fitAll os Opcode.pushData.signature = true) :
    ∃ position ordinal count, os = [.int position, .int ordinal, .int count] := by
  obtain ⟨o, rest, rfl, ho, hrest⟩ := fitAll_cons h
  obtain ⟨position, rfl⟩ := fits_word (.inr ho)
  obtain ⟨o', rest', rfl, ho', hrest'⟩ := fitAll_cons hrest
  obtain ⟨ordinal, rfl⟩ := fits_word (.inl ho')
  obtain ⟨count, rfl⟩ := fitAll_word (by simp) hrest'
  exact ⟨position, ordinal, count, rfl⟩

/-- An instruction with the operands of its signature has an action, with its destinations. A
value that it pushes as it is contains no closure, and only `PUSH_BUILTIN` pushes a builtin by its
name. -/
theorem exists_action {i : Instruction} (h : fitAll i.operands i.opcode.signature = true) :
    ∃ a, i.action? = some a ∧ a.destinations = i.destinations ∧ (∀ v, a = .push v → v.Plain) ∧
      ∀ name, a = .pushBuiltin name → i = ⟨.pushBuiltin, [.text name]⟩ := by
  obtain ⟨op, os⟩ := i
  cases op with
  | pushFalse | pushTrue | pushUnit =>
    obtain rfl := fitAll_nil h
    refine ⟨_, rfl, rfl, ?_, nofun⟩
    rintro v ⟨⟩
    constructor
  | dup | discard | swap | add | sub | mul | div | eq | swapCall | ret =>
    obtain rfl := fitAll_nil h
    exact ⟨_, rfl, rfl, nofun, nofun⟩
  | pushInt =>
    obtain ⟨n, rfl⟩ := fitAll_word (by simp) h
    refine ⟨_, rfl, rfl, ?_, nofun⟩
    rintro v ⟨⟩
    constructor
  | pushClosure | pushDataItem | pushTuple | pushTupleItem | jmp | jmpFalse | jmpTrue | enter
    | storeVar =>
    obtain ⟨n, rfl⟩ := fitAll_word (by simp) h
    exact ⟨_, rfl, rfl, nofun, nofun⟩
  | pushString =>
    obtain ⟨s, rfl⟩ := fitAll_text (by simp) h
    refine ⟨_, rfl, rfl, ?_, nofun⟩
    rintro v ⟨⟩
    constructor
  | pushBuiltin =>
    obtain ⟨s, rfl⟩ := fitAll_text (by simp) h
    refine ⟨_, rfl, rfl, nofun, ?_⟩
    rintro name ⟨⟩
    rfl
  | jmpData =>
    obtain ⟨entries, rfl⟩ := fitAll_table h
    exact ⟨_, rfl, rfl, nofun, nofun⟩
  | pushVar =>
    obtain ⟨depth, offset, rfl⟩ := fitAll_pushVar h
    exact ⟨_, rfl, rfl, nofun, nofun⟩
  | pushData =>
    obtain ⟨position, ordinal, count, rfl⟩ := fitAll_pushData h
    exact ⟨_, rfl, rfl, nofun, nofun⟩

end Instruction

end StackCode
