import StackCode.Printer
import StackCode.Proofs.Result
import StackCode.Proofs.Text.Numeral
import StackCode.Proofs.Text.Utf8

/-!
# Reading back what was printed

A value made of units, truth values, integers, strings and tuples can be told from what is printed
for it with its type. Without the type it nearly can: the text of a value shows where it ends, since
numbers are followed by a comma, a parenthesis or a colon, strings are quoted, and tuples are in
parentheses. Only the unit value and the empty tuple look alike, and these have different types. So
the text and the type are read at the same time, from the left (`Value.Simple.readable`).
-/

namespace StackCode

open Result

/-- A value made of units, truth values, integers, strings of characters and tuples. -/
inductive Value.Simple : Value → Prop where
  | unit : Simple .unit
  | bool (b : Bool) : Simple (.bool b)
  | int (n : Int32) : Simple (.int n)
  | str (s : String) : Simple (.str (Text.Utf8.encode s))
  | tuple {items : List Value} (simple : ∀ v ∈ items, Simple v) : Simple (.tuple items)

/-! ### Texts -/

/-- Texts in parentheses, with a separator between them. -/
def parenthesized (separator : List Char) (parts : List (List Char)) : List Char :=
  '(' :: (separator.intercalate parts ++ [')'])

/-- What follows the first of texts in parentheses. -/
def behindFirst (separator : List Char) (parts : List (List Char)) (rest : List Char) : List Char :=
  (parts.flatMap fun part => separator ++ part) ++ ')' :: rest

theorem parenthesized_nil_append (separator rest : List Char) :
    parenthesized separator [] ++ rest = '(' :: ')' :: rest := by
  simp [parenthesized]

theorem parenthesized_cons_append (separator part : List Char) (parts : List (List Char)) (rest : List Char) :
    parenthesized separator (part :: parts) ++ rest = '(' :: (part ++ behindFirst separator parts rest) := by
  simp [parenthesized, behindFirst, Text.intercalate_cons]

theorem behindFirst_cons (separator part : List Char) (parts : List (List Char)) (rest : List Char) :
    behindFirst separator (part :: parts) rest = separator ++ (part ++ behindFirst separator parts rest) := by
  simp [behindFirst]

namespace Value

mutual

/-- The text of a simple value. -/
def literal : Value → List Char
  | .unit => ['(', ')']
  | .bool b => if b then ['t', 'r', 'u', 'e'] else ['f', 'a', 'l', 's', 'e']
  | .int n => (Text.Decimal.ofInt32 n).toList
  | .str bytes => (Printer.quote (Text.Utf8.lossy bytes)).toList
  | .tuple items => parenthesized [',', ' '] (literals items)
  | _ => []

/-- The texts of simple values. -/
def literals : List Value → List (List Char)
  | [] => []
  | v :: vs => v.literal :: literals vs

end

mutual

/-- The text of the type of a simple value. -/
def typeLiteral : Value → List Char
  | .tuple items => parenthesized [' ', '*', ' '] (typeLiterals items)
  | v => v.shape.name.toList

/-- The texts of the types of simple values. -/
def typeLiterals : List Value → List (List Char)
  | [] => []
  | v :: vs => v.typeLiteral :: typeLiterals vs

end

end Value

namespace Printer

variable {p : Printer} {v : Value} {vs : List Value}

theorem texts_of_forall {style : Style} (h : ∀ v ∈ vs, p.text style v = .ok (String.ofList v.literal)) :
    p.texts style vs = .ok ((Value.literals vs).map String.ofList) := by
  induction vs with
  | nil => rfl
  | cons v vs ih =>
    obtain ⟨hv, hvs⟩ := List.forall_mem_cons.mp h
    exact bind_eq_ok_iff.mpr ⟨_, hv, bind_eq_ok_iff.mpr ⟨_, ih hvs, rfl⟩⟩

theorem text_of_simple (hv : v.Simple) : p.text .typed v = .ok (String.ofList v.literal) := by
  induction hv with
  | unit => rfl
  | bool b => cases b <;> rfl
  | int n => rw [text, Value.literal, String.ofList_toList]
  | str s =>
    rw [text, Value.literal, String.ofList_toList]
    rfl
  | tuple _ ih =>
    refine bind_eq_ok_iff.mpr ⟨_, texts_of_forall ih, congrArg Except.ok (String.toList_inj.mp ?_)⟩
    simp [Value.literal, parenthesized, String.toList_intercalate]

theorem typeTexts_of_forall (h : ∀ v ∈ vs, p.typeText v = .ok (String.ofList v.typeLiteral)) :
    p.typeTexts vs = .ok ((Value.typeLiterals vs).map String.ofList) := by
  induction vs with
  | nil => rfl
  | cons v vs ih =>
    obtain ⟨hv, hvs⟩ := List.forall_mem_cons.mp h
    exact bind_eq_ok_iff.mpr ⟨_, hv, bind_eq_ok_iff.mpr ⟨_, ih hvs, rfl⟩⟩

theorem typeText_of_simple (hv : v.Simple) : p.typeText v = .ok (String.ofList v.typeLiteral) := by
  induction hv with
  | unit | bool _ | int _ | str _ => exact congrArg Except.ok String.ofList_toList.symm
  | tuple _ ih =>
    refine bind_eq_ok_iff.mpr ⟨_, typeTexts_of_forall ih, congrArg Except.ok (String.toList_inj.mp ?_)⟩
    simp [Value.typeLiteral, parenthesized, String.toList_intercalate]

/-- A simple value is printed as its text, a colon and the text of its type. -/
theorem render_of_simple (hv : v.Simple) :
    p.render .typed v = .ok (String.ofList (v.literal ++ (':' :: ' ' :: v.typeLiteral))) := by
  refine bind_eq_ok_iff.mpr ⟨_, text_of_simple hv, ?_⟩
  rw [if_pos rfl]
  refine bind_eq_ok_iff.mpr ⟨_, typeText_of_simple hv, congrArg Except.ok (String.toList_inj.mp ?_)⟩
  simp

end Printer

/-! ### Where texts end -/

/-- What may follow the text of a value: nothing, a comma, a parenthesis or a colon. -/
def Stops (rest : List Char) : Prop := ∀ c, rest.head? = some c → c ∈ [',', ')', ':']

theorem stops_behindFirst (parts : List (List Char)) (rest : List Char) :
    Stops (behindFirst [',', ' '] parts rest) := by
  intro c hc
  cases parts with
  | nil =>
    cases hc
    decide
  | cons part parts =>
    cases hc
    decide

namespace Printer

theorem escape_of_special {c : Char} (h : c = '"' ∨ c = '\\') : escape c = ['\\', c] := if_pos h

theorem escape_of_plain {c : Char} (h : ¬ (c = '"' ∨ c = '\\')) : escape c = [c] := if_neg h

/-- A character of a quoted string is not taken for the end of the string. -/
theorem escape_append_ne (c : Char) (x y : List Char) : escape c ++ x ≠ '"' :: y := by
  intro h
  by_cases hc : c = '"' ∨ c = '\\'
  · rw [escape_of_special hc] at h
    exact absurd (List.cons.inj h).1 (by decide)
  · rw [escape_of_plain hc] at h
    exact hc (.inl (List.cons.inj h).1)

/-- The characters of a quoted string are told apart. -/
theorem escape_append_inj {c d : Char} {x y : List Char} (h : escape c ++ x = escape d ++ y) :
    c = d ∧ x = y := by
  by_cases hc : c = '"' ∨ c = '\\' <;> by_cases hd : d = '"' ∨ d = '\\'
  · rw [escape_of_special hc, escape_of_special hd] at h
    exact List.cons.inj (List.cons.inj h).2
  · rw [escape_of_special hc, escape_of_plain hd] at h
    exact absurd (.inr (List.cons.inj h).1.symm) hd
  · rw [escape_of_plain hc, escape_of_special hd] at h
    exact absurd (.inr (List.cons.inj h).1) hc
  · rw [escape_of_plain hc, escape_of_plain hd] at h
    exact List.cons.inj h

/-- A quoted string ends at the first quotation mark that is not escaped. -/
theorem escaped_append_inj {cs ds x y : List Char}
    (h : cs.flatMap escape ++ '"' :: x = ds.flatMap escape ++ '"' :: y) : cs = ds ∧ x = y :=
  Text.flatMap_append_inj (fun _ => True) (fun _ => trivial) (fun _ _ => trivial) escape_append_ne
    (fun _ _ _ _ _ _ _ h => escape_append_inj h) h

theorem quote_append_inj {s t : String} {x y : List Char}
    (h : (quote s).toList ++ x = (quote t).toList ++ y) : s = t ∧ x = y := by
  simp only [quote, String.toList_ofList, List.cons_append, List.append_assoc, List.nil_append] at h
  obtain ⟨hst, hxy⟩ := escaped_append_inj (List.cons.inj h).2
  exact ⟨String.toList_inj.mp hst, hxy⟩

end Printer

namespace Text.Decimal

theorem ofInt32_append_inj {n k : Int32} {x y : List Char} (hx : Stops x) (hy : Stops y)
    (h : (ofInt32 n).toList ++ x = (ofInt32 k).toList ++ y) : n = k ∧ x = y := by
  have hstops : ∀ {x : List Char}, Stops x → ∀ c ∈ x.head?, c ≠ '-' ∧ digitValue? c = none := by
    intro x hx c hc
    obtain rfl | rfl | rfl : c = ',' ∨ c = ')' ∨ c = ':' := by simpa using hx c hc
    all_goals decide
  rw [ofInt32, ofInt32, ofInt, ofInt, String.toList_ofList, String.toList_ofList] at h
  obtain ⟨hnk, hxy⟩ := signed_append_inj (hstops hx) (hstops hy) h
  exact ⟨Int32.toInt_inj.mp hnk, hxy⟩

end Text.Decimal

/-! ### Reading from the left -/

namespace Value

/-- What the text of a value looks like: that of a unit value looks like that of a tuple. -/
def look : Value → Shape
  | .unit => .tuple
  | v => v.shape

/-- What a text looks like that begins with a character. -/
def lookOf? (c : Char) : Option Shape :=
  if c = '(' then some .tuple
  else if c = '"' then some .string
  else if c = 't' ∨ c = 'f' then some .bool
  else if c = '-' ∨ (Text.Decimal.digitValue? c).isSome then some .int
  else none

theorem Simple.exists_cons {v : Value} (hv : v.Simple) :
    ∃ c cs, v.literal = c :: cs ∧ lookOf? c = some v.look := by
  cases hv with
  | unit => exact ⟨_, _, rfl, rfl⟩
  | bool b => cases b <;> exact ⟨_, _, rfl, rfl⟩
  | int n =>
    have hdigits : ∀ d : Fin 10, lookOf? (Text.Decimal.digit d) = some .int := by decide
    obtain ⟨c, cs, hcs⟩ := List.exists_cons_of_ne_nil (Text.Decimal.isWord_ofInt32 n).nonempty
    refine ⟨c, cs, hcs, ?_⟩
    have hc : c ∈ (Text.Decimal.ofInt32 n).toList := hcs ▸ List.mem_cons_self
    rcases Text.Decimal.of_mem_ofInt32 hc with rfl | ⟨d, hd, rfl⟩
    · rfl
    · exact hdigits ⟨d, hd⟩
  | str s => exact ⟨_, _, by rw [literal, Printer.quote, String.toList_ofList]; rfl, rfl⟩
  | tuple => exact ⟨_, _, rfl, rfl⟩

theorem Simple.look_eq {v w : Value} (hv : v.Simple) (hw : w.Simple) {x y : List Char}
    (h : v.literal ++ x = w.literal ++ y) : v.look = w.look := by
  obtain ⟨c, cs, hc, hlook⟩ := hv.exists_cons
  obtain ⟨d, ds, hd, hlook'⟩ := hw.exists_cons
  rw [hc, hd] at h
  rw [(List.cons.inj h).1] at hlook
  exact Option.some.inj (hlook.symm.trans hlook')

/-- The text of a value is not taken for the end of a tuple. -/
theorem Simple.append_ne {v : Value} (hv : v.Simple) (x y : List Char) : v.literal ++ x ≠ ')' :: y := by
  intro h
  obtain ⟨c, cs, hc, hlook⟩ := hv.exists_cons
  rw [hc] at h
  rw [(List.cons.inj h).1] at hlook
  cases hlook

/-- The text of a value shows where it ends, and with the text of its type also which value it is. -/
def Readable (v : Value) : Prop :=
  ∀ {w : Value}, w.Simple → ∀ {x y : List Char}, Stops x → Stops y → v.literal ++ x = w.literal ++ y →
    x = y ∧ ∀ {x' y' : List Char}, v.typeLiteral ++ x' = w.typeLiteral ++ y' → v = w ∧ x' = y'

section Items

variable {vs ws : List Value} {x y : List Char}

/-- The items of a tuple but the first are read one after the other. -/
theorem behindFirst_inj (hvs : ∀ v ∈ vs, v.Readable) (hws : ∀ w ∈ ws, w.Simple)
    (h : behindFirst [',', ' '] (literals vs) x = behindFirst [',', ' '] (literals ws) y) :
    x = y ∧ ∀ {x' y' : List Char},
      behindFirst [' ', '*', ' '] (typeLiterals vs) x' = behindFirst [' ', '*', ' '] (typeLiterals ws) y' →
        vs = ws ∧ x' = y' := by
  induction vs generalizing ws with
  | nil =>
    cases ws with
    | nil => exact ⟨(List.cons.inj h).2, fun h' => ⟨rfl, (List.cons.inj h').2⟩⟩
    | cons w ws => exact absurd (List.cons.inj h).1 (by decide)
  | cons v vs ih =>
    obtain ⟨hv, hvs⟩ := List.forall_mem_cons.mp hvs
    cases ws with
    | nil => exact absurd (List.cons.inj h).1 (by decide)
    | cons w ws =>
      obtain ⟨hw, hws⟩ := List.forall_mem_cons.mp hws
      rw [literals, literals, behindFirst_cons, behindFirst_cons] at h
      obtain ⟨hrest, htype⟩ := hv hw (stops_behindFirst _ _) (stops_behindFirst _ _) (List.append_cancel_left h)
      obtain ⟨hxy, htypes⟩ := ih hvs hws hrest
      refine ⟨hxy, fun h' => ?_⟩
      rw [typeLiterals, typeLiterals, behindFirst_cons, behindFirst_cons] at h'
      obtain ⟨rfl, hrest'⟩ := htype (List.append_cancel_left h')
      obtain ⟨rfl, hxy'⟩ := htypes hrest'
      exact ⟨rfl, hxy'⟩

/-- So are all items of a tuple. -/
theorem parenthesized_inj (hvs : ∀ v ∈ vs, v.Simple ∧ v.Readable) (hws : ∀ w ∈ ws, w.Simple)
    (h : parenthesized [',', ' '] (literals vs) ++ x = parenthesized [',', ' '] (literals ws) ++ y) :
    x = y ∧ ∀ {x' y' : List Char},
      parenthesized [' ', '*', ' '] (typeLiterals vs) ++ x' =
        parenthesized [' ', '*', ' '] (typeLiterals ws) ++ y' → vs = ws ∧ x' = y' := by
  cases vs with
  | nil =>
    cases ws with
    | nil => exact ⟨List.append_cancel_left h, fun h' => ⟨rfl, List.append_cancel_left h'⟩⟩
    | cons w ws =>
      rw [literals, literals, parenthesized_nil_append, parenthesized_cons_append] at h
      exact absurd (List.cons.inj h).2.symm ((hws w List.mem_cons_self).append_ne _ _)
  | cons v vs =>
    obtain ⟨hv, hvs⟩ := List.forall_mem_cons.mp hvs
    cases ws with
    | nil =>
      rw [literals, literals, parenthesized_nil_append, parenthesized_cons_append] at h
      exact absurd (List.cons.inj h).2 (hv.1.append_ne _ _)
    | cons w ws =>
      obtain ⟨hw, hws⟩ := List.forall_mem_cons.mp hws
      rw [literals, literals, parenthesized_cons_append, parenthesized_cons_append] at h
      obtain ⟨hrest, htype⟩ := hv.2 hw (stops_behindFirst _ _) (stops_behindFirst _ _) (List.cons.inj h).2
      obtain ⟨hxy, htypes⟩ := behindFirst_inj (fun v hv => (hvs v hv).2) hws hrest
      refine ⟨hxy, fun h' => ?_⟩
      rw [typeLiterals, typeLiterals, parenthesized_cons_append, parenthesized_cons_append] at h'
      obtain ⟨rfl, hrest'⟩ := htype (List.cons.inj h').2
      obtain ⟨rfl, hxy'⟩ := htypes hrest'
      exact ⟨rfl, hxy'⟩

end Items

theorem Simple.readable {v : Value} (hv : v.Simple) : v.Readable := by
  induction hv with
  | unit =>
    intro w hw x y hx hy h
    have hlook := Simple.unit.look_eq hw h
    cases hw with
    | unit => exact ⟨List.append_cancel_left h, fun h' => ⟨rfl, List.append_cancel_left h'⟩⟩
    | tuple hws =>
      -- the texts may be the same, the types are not
      have hempty : ∀ v ∈ ([] : List Value), v.Simple ∧ v.Readable := nofun
      exact ⟨(parenthesized_inj hempty hws h).1, fun h' => absurd (List.cons.inj h').1 (by decide)⟩
    | bool | int | str => cases hlook
  | bool b =>
    intro w hw x y hx hy h
    have hlook := (Simple.bool b).look_eq hw h
    cases hw with
    | bool c =>
      cases b <;> cases c
      case false.false | true.true =>
        exact ⟨List.append_cancel_left h, fun h' => ⟨rfl, List.append_cancel_left h'⟩⟩
      case false.true | true.false => exact absurd (List.cons.inj h).1 (by decide)
    | unit | int | str | tuple => cases hlook
  | int n =>
    intro w hw x y hx hy h
    have hlook := (Simple.int n).look_eq hw h
    cases hw with
    | int k =>
      obtain ⟨rfl, hxy⟩ := Text.Decimal.ofInt32_append_inj hx hy h
      exact ⟨hxy, fun h' => ⟨rfl, List.append_cancel_left h'⟩⟩
    | unit | bool | str | tuple => cases hlook
  | str s =>
    intro w hw x y hx hy h
    have hlook := (Simple.str s).look_eq hw h
    cases hw with
    | str t =>
      obtain ⟨hst, hxy⟩ := Printer.quote_append_inj h
      rw [Text.Utf8.lossy_encode, Text.Utf8.lossy_encode] at hst
      exact ⟨hxy, fun h' => ⟨by rw [hst], List.append_cancel_left h'⟩⟩
    | unit | bool | int | tuple => cases hlook
  | @tuple items hitems ih =>
    intro w hw x y hx hy h
    have hlook := (Simple.tuple hitems).look_eq hw h
    have hboth : ∀ v ∈ items, v.Simple ∧ v.Readable := fun v hv => ⟨hitems v hv, ih v hv⟩
    cases hw with
    | unit =>
      have hempty : ∀ w ∈ ([] : List Value), w.Simple := nofun
      exact ⟨(parenthesized_inj hboth hempty h).1, fun h' => absurd (List.cons.inj h').1 (by decide)⟩
    | tuple hws =>
      obtain ⟨hxy, htypes⟩ := parenthesized_inj hboth hws h
      refine ⟨hxy, fun h' => ?_⟩
      obtain ⟨rfl, hxy'⟩ := htypes h'
      exact ⟨rfl, hxy'⟩
    | bool | int | str => cases hlook

end Value

/-- **Printing with the type is unambiguous.** A value that is made of units, truth values, integers,
strings of characters and tuples can always be printed with its type, and two such values are the
same if what is printed for them is the same, whatever is in their strings. -/
theorem typed_printing_is_unambiguous {v w : Value} (hv : v.Simple) (hw : w.Simple) (p q : Printer) :
    (∃ shown, p.render .typed v = .ok shown) ∧ (p.render .typed v = q.render .typed w ↔ v = w) := by
  refine ⟨⟨_, Printer.render_of_simple hv⟩, ?_⟩
  rw [Printer.render_of_simple hv, Printer.render_of_simple hw, Except.ok.injEq, String.ofList_inj]
  constructor
  · intro h
    have hcolon : ∀ type, Stops (':' :: type) := by
      rintro type c ⟨⟩
      decide
    obtain ⟨hrest, htype⟩ := hv.readable hw (hcolon _) (hcolon _) h
    have htypes : v.typeLiteral ++ [] = w.typeLiteral ++ [] := by
      rw [(List.cons.inj (List.cons.inj hrest).2).2]
    exact (htype htypes).1
  · rintro rfl
    rfl

/-- The unit value is printed like the empty tuple but for the type, also within a tuple, and a string
may look like a value with its type. -/
theorem typed_printing_is_unambiguous_unit :
    let p : Printer := ⟨.empty, .initial⟩
    let v : Value := .tuple [.unit, .str (Text.Utf8.encode "a\", (): \\")]
    let w : Value := .tuple [.tuple [], .str (Text.Utf8.encode "a\", (): \\")]
    p.render .literal v = p.render .literal w ∧ p.render .typed v ≠ p.render .typed w := by
  intro p v w
  have hstring := Value.Simple.str "a\", (): \\"
  have hv : v.Simple := .tuple (List.forall_mem_cons.mpr ⟨.unit, List.forall_mem_singleton.mpr hstring⟩)
  have hw : w.Simple :=
    .tuple (List.forall_mem_cons.mpr ⟨.tuple nofun, List.forall_mem_singleton.mpr hstring⟩)
  have hne : v ≠ w := by decide +kernel
  exact ⟨by decide +kernel, fun h => hne ((typed_printing_is_unambiguous hv hw p p).2.mp h)⟩

end StackCode
