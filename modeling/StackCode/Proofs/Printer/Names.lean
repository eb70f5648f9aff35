import StackCode.Proofs.Machine.Currying
import StackCode.Proofs.Machine.Failures

/-!
# Names that are missing

A constructor value is printed with the name of its constructor, and its type with the name of the
type. Both are in the type record, so a value cannot be printed if the record of a constructor value
within it is missing or has no such constructor. Nothing else makes printing fail, whatever the
style, and the fault is that of the first such constructor value, a constructor value being before
its fields (`Printer.error?_text`). The type needs less than the value (`Printer.exists_typeText`).
-/

namespace StackCode

open Result

mutual

/-- The constructor values within a value, by their type record and ordinal. A constructor value is
before its fields, and these are in their order. What a closure has captured is not within it. -/
def Value.nodes : Value → List (Int32 × Int32)
  | .tuple items => nodesOf items
  | .data position ordinal fields => (position, ordinal) :: nodesOf fields
  | .partialBuiltin _ args => nodesOf args
  | _ => []

/-- The constructor values within values. -/
def Value.nodesOf : List Value → List (Int32 × Int32)
  | [] => []
  | v :: vs => v.nodes ++ nodesOf vs

end

/-- There is a name for a constructor. -/
def Image.Names (img : Image) (node : Int32 × Int32) : Prop :=
  ∃ r name, img.typeRecord node.1 = .ok r ∧ r.constructor? node.2 = some name

/-! ### The constructor values within a value -/

mutual

theorem Value.within_of_mem_nodes {position ordinal : Int32} :
    ∀ {v : Value}, (position, ordinal) ∈ v.nodes →
      ∃ fields, (Value.data position ordinal fields).Within v
  | .tuple _, h =>
    have ⟨_, hv, fields, hw⟩ := exists_within_of_mem_nodesOf h
    ⟨fields, .tuple hv hw⟩
  | .data _ _ _, h => by
    rcases List.mem_cons.mp h with heq | h
    · cases heq
      exact ⟨_, .refl⟩
    · obtain ⟨_, hv, fields, hw⟩ := exists_within_of_mem_nodesOf h
      exact ⟨fields, .data hv hw⟩
  | .partialBuiltin _ _, h =>
    have ⟨_, hv, fields, hw⟩ := exists_within_of_mem_nodesOf h
    ⟨fields, .partialBuiltin hv hw⟩

theorem Value.exists_within_of_mem_nodesOf {position ordinal : Int32} :
    ∀ {vs : List Value}, (position, ordinal) ∈ nodesOf vs →
      ∃ v ∈ vs, ∃ fields, (Value.data position ordinal fields).Within v
  | _ :: _, h => by
    rcases List.mem_append.mp h with h | h
    · exact ⟨_, List.mem_cons_self, within_of_mem_nodes h⟩
    · obtain ⟨v, hv, hw⟩ := exists_within_of_mem_nodesOf h
      exact ⟨v, List.mem_cons_of_mem _ hv, hw⟩

end

/-! ### What makes printing fail -/

namespace Printer

variable {p : Printer} {style : Style}

/-- The fault of a constructor that has no name. -/
def unnamed? (p : Printer) (node : Int32 × Int32) : Option Fault :=
  error? (p.constructorName node.1 node.2)

mutual

/-- A value cannot be printed exactly if a constructor value within it has no name, and the first one
gives the fault. -/
theorem error?_text : ∀ v : Value, error? (p.text style v) = v.nodes.findSome? p.unnamed?
  | .unit | .bool _ | .int _ | .str _ | .closure _ _ | .builtin _ => rfl
  | .tuple items => by
    rw [text, error?_bind_pure, error?_texts items]
    rfl
  | .data position ordinal fields => by
    have hfields : ∀ name, error? (p.texts style fields >>= fun parts =>
        pure (name ++ String.join ((fields.zip parts).map fun (v, t) => fieldText v t))) =
          (Value.nodesOf fields).findSome? p.unnamed? := fun name => by
      rw [error?_bind_pure, error?_texts fields]
    rw [text, error?_bind hfields, Value.nodes, List.findSome?_cons, unnamed?]
    cases error? (p.constructorName position ordinal) <;> rfl
  | .partialBuiltin b args => by
    rw [text, error?_bind_pure, error?_texts args]
    rfl

theorem error?_texts : ∀ vs : List Value,
    error? (p.texts style vs) = (Value.nodesOf vs).findSome? p.unnamed?
  | [] => rfl
  | v :: vs => by
    have hrest : ∀ t, error? (p.texts style vs >>= fun ts => pure (t :: ts)) =
        (Value.nodesOf vs).findSome? p.unnamed? := fun t => by
      rw [error?_bind_pure, error?_texts vs]
    rw [texts, error?_bind hrest, error?_text v, Value.nodesOf, List.findSome?_append]

end

mutual

/-- If the constructor values have names, so have their types. -/
theorem exists_typeText : ∀ {v : Value}, (∀ node ∈ v.nodes, p.image.Names node) → ∃ t, p.typeText v = .ok t
  | .unit, _ | .bool _, _ | .int _, _ | .str _, _ | .closure _ _, _ | .builtin _, _
  | .partialBuiltin _ _, _ => ⟨_, rfl⟩
  | .tuple items, h => by
    obtain ⟨parts, hparts⟩ := exists_typeTexts h
    exact ⟨_, bind_eq_ok_iff.mpr ⟨parts, hparts, rfl⟩⟩
  | .data position ordinal fields, h => by
    obtain ⟨r, -, hr, -⟩ := h _ List.mem_cons_self
    exact ⟨r.name, bind_eq_ok_iff.mpr ⟨r, by rw [record, hr], rfl⟩⟩

theorem exists_typeTexts : ∀ {vs : List Value}, (∀ node ∈ Value.nodesOf vs, p.image.Names node) →
    ∃ ts, p.typeTexts vs = .ok ts
  | [], _ => ⟨[], rfl⟩
  | v :: vs, h => by
    obtain ⟨hv, hvs⟩ := List.forall_mem_append.mp h
    obtain ⟨t, ht⟩ := exists_typeText hv
    obtain ⟨ts, hts⟩ := exists_typeTexts hvs
    exact ⟨t :: ts, bind_eq_ok_iff.mpr ⟨t, ht, bind_eq_ok_iff.mpr ⟨ts, hts, rfl⟩⟩⟩

end

end Printer

/-! ### Instructions that print -/

namespace Machine

variable {m : Machine} {n : Nat} {v : Value} {rest : List Value} {fault : Fault}

end Machine

end StackCode
