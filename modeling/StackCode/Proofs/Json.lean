import StackCode.Json
import StackCode.Proofs.Text.Numeral

/-!
# Reading back documents

Two documents are not written alike (`Json.pretty_inj`). What is escaped in a string can be read back,
so a string ends at the first quotation mark, a number ends where the comma or the end of the line
stands, and the items of an array and the fields of an object are each on a line of their own, the
bracket behind them on the next one. The first character says which of these it is. So a document is
read from the left, whatever stands behind it, at whatever indentation (`Json.legible`).
-/

namespace StackCode.Json

open Text

/-! ### Strings -/

/-- The characters that have an escape of their own. -/
def named : List Char := ['"', '\\', '\x08', '\x0c', '\n', '\r', '\t']

/-- Read a character inside quotes. -/
def unescape? : List Char → Option (Char × List Char)
  | [] => none
  | '"' :: _ => none
  | '\\' :: 'b' :: rest => some ('\x08', rest)
  | '\\' :: 'f' :: rest => some ('\x0c', rest)
  | '\\' :: 'n' :: rest => some ('\n', rest)
  | '\\' :: 'r' :: rest => some ('\r', rest)
  | '\\' :: 't' :: rest => some ('\t', rest)
  | '\\' :: 'u' :: '0' :: '0' :: high :: low :: rest =>
    (Hex.readByte? ['0', 'x', high, low]).map fun b => (Char.ofNat b.toNat, rest)
  | '\\' :: c :: rest => some (c, rest)
  | c :: rest => some (c, rest)

theorem unescape?_cons {c : Char} (hquote : c ≠ '"') (hback : c ≠ '\\') (rest : List Char) :
    unescape? (c :: rest) = some (c, rest) := by
  unfold unescape?
  split <;> simp_all

theorem escape_of_not_named {c : Char} (h : c ∉ named) :
    escape c = if c.toNat < 32 then ['\\', 'u', '0', '0'] ++ Hex.pair (UInt8.ofNat c.toNat) else [c] := by
  simp only [named, List.mem_cons, List.not_mem_nil, or_false, not_or] at h
  obtain ⟨hquote, hback, hb, hf, hn, hr, ht⟩ := h
  rw [escape, if_neg hquote, if_neg hback, if_neg hb, if_neg hf, if_neg hn, if_neg hr, if_neg ht]

/-- What is escaped is read back. -/
theorem unescape?_escape (c : Char) (rest : List Char) : unescape? (escape c ++ rest) = some (c, rest) := by
  by_cases hc : c ∈ named
  · have hnamed : ∀ c ∈ named, unescape? (escape c ++ rest) = some (c, rest) := by
      simp only [named, List.forall_mem_cons]
      exact ⟨rfl, rfl, rfl, rfl, rfl, rfl, rfl, nofun⟩
    exact hnamed c hc
  · rw [escape_of_not_named hc]
    by_cases hlow : c.toNat < 32
    · have hread := Hex.readByte?_pair (UInt8.ofNat c.toNat)
      have hbyte : (UInt8.ofNat c.toNat).toNat = c.toNat := by
        rw [UInt8.toNat_ofNat']
        omega
      rw [if_pos hlow]
      show (Hex.readByte? ('0' :: 'x' :: Hex.pair (UInt8.ofNat c.toNat))).map
        (fun b => (Char.ofNat b.toNat, rest)) = some (c, rest)
      rw [hread, Option.map_some, hbyte, Char.ofNat_toNat]
    · rw [if_neg hlow]
      refine unescape?_cons ?_ ?_ rest
      · rintro rfl
        exact hc (by decide)
      · rintro rfl
        exact hc (by decide)

theorem escape_append_ne_quote (c : Char) (x y : List Char) : escape c ++ x ≠ '"' :: y := by
  intro h
  have hread := unescape?_escape c x
  rw [h] at hread
  cases hread

theorem escape_append_inj {c d : Char} {x y : List Char} (h : escape c ++ x = escape d ++ y) :
    c = d ∧ x = y := by
  have hread := unescape?_escape c x
  rw [h, unescape?_escape, Option.some.injEq, Prod.mk.injEq] at hread
  exact ⟨hread.1.symm, hread.2.symm⟩

/-- A string ends at the first quotation mark that is not escaped. -/
theorem quote_append_inj {s t : String} {x y : List Char}
    (h : (quote s).toList ++ x = (quote t).toList ++ y) : s = t ∧ x = y := by
  simp only [quote, String.toList_ofList, List.cons_append, List.append_assoc, List.nil_append] at h
  obtain ⟨hst, hxy⟩ := flatMap_append_inj (fun _ => True) (fun _ => trivial) (fun _ _ => trivial)
    escape_append_ne_quote (fun _ _ _ _ _ _ _ h => escape_append_inj h) (List.cons.inj h).2
  exact ⟨String.toList_inj.mp hst, hxy⟩

/-! ### Parts on lines of their own -/

/-- What may follow a document within another one: a comma or the end of the line. At the end of the
whole nothing follows. -/
def Ends (rest : List Char) : Prop := ∀ c ∈ rest.head?, c = ',' ∨ c = '\n'

theorem ends_cons {c : Char} (h : c = ',' ∨ c = '\n') (rest : List Char) : Ends (c :: rest) := by
  rintro _ ⟨⟩
  exact h

theorem toList_newline (indent : Nat) : (newline indent).toList = '\n' :: List.replicate indent ' ' :=
  String.toList_ofList

/-- What stands behind the first of some parts in brackets. -/
def behindFirst (right : String) (indent : Nat) (parts : List String) : List Char :=
  (parts.flatMap fun part => ',' :: ((newline (indent + 2)).toList ++ part.toList)) ++
    '\n' :: (List.replicate indent ' ' ++ right.toList)

theorem toList_bracket_nil (left right : String) (indent : Nat) :
    (bracket left right indent []).toList = left.toList ++ right.toList := by
  simp [bracket]

theorem toList_bracket_cons (left right : String) (indent : Nat) (part : String) (parts : List String) :
    (bracket left right indent (part :: parts)).toList =
      left.toList ++ ((newline (indent + 2)).toList ++ (part.toList ++ behindFirst right indent parts)) := by
  simp [bracket, behindFirst, String.toList_intercalate, Text.intercalate_cons, newline, List.flatMap_map]

theorem ends_behindFirst (right : String) (indent : Nat) (parts : List String) (rest : List Char) :
    Ends (behindFirst right indent parts ++ rest) := by
  cases parts with
  | nil => exact ends_cons (.inr rfl) _
  | cons part parts => exact ends_cons (.inl rfl) _

section Parts

variable {α : Type} {text : α → String} {left right : String} {indent : Nat} {as bs : List α} {x y : List Char}
  (hinj : ∀ a ∈ as, ∀ b x y, Ends x → Ends y →
    (text a).toList ++ x = (text b).toList ++ y → a = b ∧ x = y)
include hinj

theorem behindFirst_append_inj
    (h : behindFirst right indent (as.map text) ++ x = behindFirst right indent (bs.map text) ++ y) :
    as = bs ∧ x = y := by
  have hpart : ∀ a ∈ as, ∀ b x y, Ends x → Ends y →
      ',' :: ((newline (indent + 2)).toList ++ (text a).toList) ++ x =
        ',' :: ((newline (indent + 2)).toList ++ (text b).toList) ++ y → a = b ∧ x = y := by
    intro a ha b x y hx hy h
    rw [List.cons_append, List.cons_append, List.append_assoc, List.append_assoc] at h
    exact hinj a ha b x y hx hy (List.append_cancel_left (List.cons.inj h).2)
  simp only [behindFirst, List.flatMap_map, List.append_assoc, List.cons_append] at h
  obtain ⟨hsame, hxy⟩ := flatMap_append_inj Ends (ends_cons (.inr rfl)) (fun _ _ => ends_cons (.inl rfl) _)
    (fun _ _ _ h => absurd (List.cons.inj h).1 (by decide)) hpart h
  exact ⟨hsame, List.append_cancel_left (List.append_cancel_left hxy)⟩

/-- Parts in brackets are read one after the other, if each of them is. -/
theorem bracket_append_inj {c : Char} (hright : right.toList = [c]) (hc : c ≠ '\n')
    (h : (bracket left right indent (as.map text)).toList ++ x =
      (bracket left right indent (bs.map text)).toList ++ y) : as = bs ∧ x = y := by
  cases as with
  | nil =>
    cases bs with
    | nil => exact ⟨rfl, List.append_cancel_left h⟩
    | cons b bs =>
      simp only [List.map_nil, List.map_cons, toList_bracket_nil, toList_bracket_cons, toList_newline, hright,
        List.append_assoc, List.cons_append] at h
      exact absurd (List.cons.inj (List.append_cancel_left h)).1 hc
  | cons a as =>
    obtain ⟨hfirst, hrest⟩ := List.forall_mem_cons.mp hinj
    cases bs with
    | nil =>
      simp only [List.map_nil, List.map_cons, toList_bracket_nil, toList_bracket_cons, toList_newline, hright,
        List.append_assoc, List.cons_append] at h
      exact absurd (List.cons.inj (List.append_cancel_left h)).1.symm hc
    | cons b bs =>
      simp only [List.map_cons, toList_bracket_cons, List.append_assoc] at h
      obtain ⟨rfl, hbehind⟩ := hfirst b _ _ (ends_behindFirst _ _ _ _) (ends_behindFirst _ _ _ _)
        (List.append_cancel_left (List.append_cancel_left h))
      obtain ⟨rfl, hxy⟩ := behindFirst_append_inj hrest hbehind
      exact ⟨rfl, hxy⟩

end Parts

/-! ### Reading from the left -/

/-- What a document is. -/
inductive Kind where
  /-- A number. -/
  | number
  /-- A string. -/
  | string
  /-- An array. -/
  | array
  /-- An object. -/
  | object
  deriving DecidableEq

/-- What a document is. -/
def kind : Json → Kind
  | .int _ => .number
  | .str _ => .string
  | .arr _ => .array
  | .obj _ => .object

/-- What a document is whose text begins with a character. -/
def kindOf? (c : Char) : Option Kind :=
  if c = '"' then some .string
  else if c = '[' then some .array
  else if c = '\x7b' then some .object
  else if c = '-' ∨ (Decimal.digitValue? c).isSome then some .number
  else none

theorem pretty_arr (indent : Nat) (items : List Json) :
    pretty indent (.arr items) = bracket "[" "]" indent (items.map (pretty (indent + 2))) := by
  have hitems : ∀ items : List Json, prettyItems (indent + 2) items = items.map (pretty (indent + 2)) := by
    intro items
    induction items with
    | nil => rfl
    | cons item items ih => rw [prettyItems, ih, List.map_cons]
  rw [pretty, hitems]

/-- A field of an object on its line. -/
def fieldText (indent : Nat) (field : String × Json) : String :=
  quote field.1 ++ ": " ++ pretty indent field.2

theorem pretty_obj (indent : Nat) (fields : List (String × Json)) :
    pretty indent (.obj fields) = bracket "\x7b" "\x7d" indent (fields.map (fieldText (indent + 2))) := by
  have hfields : ∀ fields : List (String × Json),
      prettyFields (indent + 2) fields = fields.map (fieldText (indent + 2)) := by
    intro fields
    induction fields with
    | nil => rfl
    | cons field fields ih => rw [prettyFields, ih, List.map_cons, fieldText]
  rw [pretty, hfields]

theorem exists_bracket_cons (left right : String) (indent : Nat) (parts : List String) :
    ∃ cs, (bracket left right indent parts).toList = left.toList ++ cs := by
  cases parts with
  | nil => exact ⟨_, toList_bracket_nil left right indent⟩
  | cons part parts => exact ⟨_, toList_bracket_cons left right indent part parts⟩

theorem exists_pretty_cons (indent : Nat) (j : Json) :
    ∃ c cs, (pretty indent j).toList = c :: cs ∧ kindOf? c = some j.kind := by
  cases j with
  | int n =>
    have hdigits : ∀ d : Fin 10, kindOf? (Decimal.digit d) = some .number := by decide
    obtain ⟨c, cs, hcs⟩ := List.exists_cons_of_ne_nil (Decimal.signed_ne_nil n)
    refine ⟨c, cs, by rw [pretty, Decimal.ofInt, String.toList_ofList, hcs], ?_⟩
    have hc : c ∈ Decimal.signed n := hcs ▸ List.mem_cons_self
    rcases Decimal.of_mem_signed hc with rfl | ⟨d, hd, rfl⟩
    · rfl
    · exact hdigits ⟨d, hd⟩
  | str s => exact ⟨_, _, by rw [pretty, quote, String.toList_ofList]; rfl, rfl⟩
  | arr items =>
    obtain ⟨cs, hcs⟩ := exists_bracket_cons "[" "]" indent (items.map (pretty (indent + 2)))
    exact ⟨_, cs, by rw [pretty_arr, hcs]; rfl, rfl⟩
  | obj fields =>
    obtain ⟨cs, hcs⟩ := exists_bracket_cons "\x7b" "\x7d" indent (fields.map (fieldText (indent + 2)))
    exact ⟨_, cs, by rw [pretty_obj, hcs]; rfl, rfl⟩

theorem kind_eq {j k : Json} {indent : Nat} {x y : List Char}
    (h : (pretty indent j).toList ++ x = (pretty indent k).toList ++ y) : j.kind = k.kind := by
  obtain ⟨c, cs, hc, hkind⟩ := exists_pretty_cons indent j
  obtain ⟨d, ds, hd, hkind'⟩ := exists_pretty_cons indent k
  rw [hc, hd] at h
  rw [(List.cons.inj h).1] at hkind
  exact Option.some.inj (hkind.symm.trans hkind')

/-- The text of a document shows which document it is and where it ends. -/
def Legible (j : Json) : Prop :=
  ∀ (k : Json) (indent : Nat) (x y : List Char), Ends x → Ends y →
    (pretty indent j).toList ++ x = (pretty indent k).toList ++ y → j = k ∧ x = y

theorem legible_int (n : Int) : Legible (.int n) := by
  intro k indent x y hx hy h
  have hends : ∀ {x : List Char}, Ends x → ∀ c ∈ x.head?, c ≠ '-' ∧ Decimal.digitValue? c = none := by
    intro x hx c hc
    rcases hx c hc with rfl | rfl <;> decide
  have hkind := kind_eq h
  cases k with
  | int m =>
    simp only [pretty, Decimal.ofInt, String.toList_ofList] at h
    obtain ⟨rfl, hxy⟩ := Decimal.signed_append_inj (hends hx) (hends hy) h
    exact ⟨rfl, hxy⟩
  | str | arr | obj => cases hkind

theorem legible_str (s : String) : Legible (.str s) := by
  intro k indent x y _ _ h
  have hkind := kind_eq h
  cases k with
  | str t =>
    obtain ⟨rfl, hxy⟩ := quote_append_inj h
    exact ⟨rfl, hxy⟩
  | int | arr | obj => cases hkind

theorem legible_arr {items : List Json} (hitems : ∀ item ∈ items, item.Legible) : Legible (.arr items) := by
  intro k indent x y _ _ h
  have hkind := kind_eq h
  cases k with
  | arr items' =>
    rw [pretty_arr, pretty_arr] at h
    obtain ⟨rfl, hxy⟩ := bracket_append_inj (c := ']')
      (fun item hitem k x y => hitems item hitem k _ x y) rfl (by decide) h
    exact ⟨rfl, hxy⟩
  | int | str | obj => cases hkind

theorem legible_obj {fields : List (String × Json)} (hfields : ∀ field ∈ fields, field.2.Legible) :
    Legible (.obj fields) := by
  intro k indent x y _ _ h
  have hkind := kind_eq h
  have hfield : ∀ field ∈ fields, ∀ field' x y, Ends x → Ends y →
      (fieldText (indent + 2) field).toList ++ x = (fieldText (indent + 2) field').toList ++ y →
        field = field' ∧ x = y := by
    rintro ⟨name, j⟩ hj ⟨name', k⟩ x y hx hy h
    simp only [fieldText, String.toList_append, List.append_assoc] at h
    obtain ⟨rfl, hvalue⟩ := quote_append_inj h
    obtain ⟨rfl, hxy⟩ := hfields _ hj k _ x y hx hy (List.append_cancel_left hvalue)
    exact ⟨rfl, hxy⟩
  cases k with
  | obj fields' =>
    rw [pretty_obj, pretty_obj] at h
    obtain ⟨rfl, hxy⟩ := bracket_append_inj (c := '\x7d') hfield rfl (by decide) h
    exact ⟨rfl, hxy⟩
  | int | str | arr => cases hkind

mutual

/-- Every document is read from the left, whatever stands behind it. -/
theorem legible : ∀ j : Json, j.Legible
  | .int n => legible_int n
  | .str s => legible_str s
  | .arr items => legible_arr (legible_items items)
  | .obj fields => legible_obj (legible_fields fields)

theorem legible_items : ∀ items : List Json, ∀ item ∈ items, item.Legible
  | [] => nofun
  | item :: items => List.forall_mem_cons.mpr ⟨legible item, legible_items items⟩

theorem legible_fields : ∀ fields : List (String × Json), ∀ field ∈ fields, field.2.Legible
  | [] => nofun
  | (_, value) :: fields => List.forall_mem_cons.mpr ⟨legible value, legible_fields fields⟩

end

/-- **Two documents are not written alike.** -/
theorem pretty_inj {j k : Json} {indent : Nat} (h : j.pretty indent = k.pretty indent) : j = k := by
  have hends : Ends [] := nofun
  have htext : (pretty indent j).toList ++ [] = (pretty indent k).toList ++ [] := by
    rw [show pretty indent j = pretty indent k from h]
  exact (legible j k indent [] [] hends hends htext).1

end StackCode.Json
