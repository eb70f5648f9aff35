import StackCode.Listing.Reassembly
import StackCode.Proofs.Source.Draft
import StackCode.Proofs.Text.Numeral
import StackCode.Proofs.Text.Utf8

/-!
# Instructions as lines of source text

An instruction of a listing is written as a line that writes this instruction again, if a
string in it can stand on a line and a builtin in it is known (`Instruction.Writable`). And
no line at all writes an instruction that is not so: a line has no line feed, its end is
trimmed, and it has to name a builtin that there is.
-/

namespace StackCode

open Text

/-- Bytes that can stand at the end of a line: they are UTF-8, without a line feed, and do not
end in a blank. -/
def OneLine (s : List UInt8) : Prop := ∃ cs : List Char, s = Utf8.encodeChars cs ∧ '\n' ∉ cs ∧ EndsPlain cs

/-- An instruction that can be written in source text: a string that it pushes can stand on a
line, and a builtin that it pushes is known. -/
structure Instruction.Writable (i : Instruction) : Prop where
  string : i.opcode = .pushString → ∀ s, .text s ∈ i.operands → OneLine s
  builtin : i.opcode = .pushBuiltin → ∀ s, .text s ∈ i.operands → ∃ b : Builtin, s = Utf8.encode b.name

/-! ### Only writable instructions are written -/

section Converse

variable {label : String → Int32 → Prop} {text : List Char} {i : Instruction}

theorem suffix_splitFirst (text : List Char) : (splitFirst text).2 <:+ text :=
  (List.drop_suffix 1 _).trans (List.dropWhile_suffix _)

theorem endsPlain_of_suffix {cs text : List Char} (h : cs <:+ text) (hend : EndsPlain text) :
    EndsPlain cs := by
  obtain ⟨before, rfl⟩ := h
  intro c hc
  refine hend c ?_
  rw [List.getLast?_append, hc, Option.some_or]

/-- A trimmed line writes only what can be written. -/
theorem Source.Writes.writable (h : Source.Writes label text i) (hline : '\n' ∉ text) (hend : EndsPlain text) :
    i.Writable := by
  obtain ⟨op, os⟩ := i
  have hsuffix := suffix_splitFirst text
  obtain ⟨-, hoperands⟩ := h
  generalize (splitFirst text).2 = rest at hsuffix hoperands
  constructor
  · intro hop s hs
    simp only at hop hs hoperands
    subst hop
    change Source.Operands label [.string] rest os at hoperands
    cases hoperands with
    | string =>
      rw [List.mem_singleton, Operand.text.injEq] at hs
      exact ⟨rest, hs, fun hmem => hline (hsuffix.subset hmem), endsPlain_of_suffix hsuffix hend⟩
    | words each => exact absurd rfl (each.plain .string List.mem_cons_self).1
  · intro hop s hs
    simp only at hop hs hoperands
    subst hop
    change Source.Operands label [.builtin] rest os at hoperands
    cases hoperands with
    | words each =>
      generalize Text.words rest = words at each
      cases each with
      | cons first more =>
        cases more
        cases first with
        | builtin b name =>
          rw [List.mem_singleton, Operand.text.injEq] at hs
          refine ⟨b, ?_⟩
          rw [hs, Utf8.encode, name, String.toList_ofList]

end Converse

/-! ### Words -/

theorem isWord_mnemonic (op : Opcode) : IsWord op.mnemonic.toList := by
  have hall : ∀ op ∈ Opcode.all, IsWord op.mnemonic.toList := by decide +kernel
  exact hall op op.mem_all

theorem isWord_name (b : Builtin) : IsWord b.name.toList := by
  have hall : ∀ b ∈ Builtin.all, IsWord b.name.toList := by decide +kernel
  exact hall b b.mem_all

/-- A line that begins with a mnemonic speaks. -/
theorem mnemonic_head (op : Opcode) :
    ∃ c cs, op.mnemonic.toList = c :: cs ∧ isBlank c = false ∧ c ≠ '#' ∧ c ≠ ':' ∧ c ≠ '.' := by
  have hall : ∀ op ∈ Opcode.all,
      '#' ∉ op.mnemonic.toList ∧ ':' ∉ op.mnemonic.toList ∧ '.' ∉ op.mnemonic.toList := by decide +kernel
  obtain ⟨c, cs, hcs⟩ := List.exists_cons_of_ne_nil (isWord_mnemonic op).nonempty
  have hmem : c ∈ op.mnemonic.toList := hcs ▸ List.mem_cons_self
  obtain ⟨hcomment, hlabel, hmark⟩ := hall op op.mem_all
  refine ⟨c, cs, hcs, (isWord_mnemonic op).noBlank c hmem, ?_, ?_, ?_⟩
  · exact fun h => hcomment (h ▸ hmem)
  · exact fun h => hlabel (h ▸ hmem)
  · exact fun h => hmark (h ▸ hmem)

namespace Listing

/-- What the labels of a listing stand for. -/
def Named (targets : List Nat) (name : String) (n : Int32) : Prop :=
  ∃ k ∈ targets, name = labelName k ∧ n = Int32.ofNat k

theorem toList_labelName (k : Nat) : (labelName k).toList = 'L' :: Decimal.digits k := by
  simp [labelName, Decimal.ofNat]

theorem labelName_injective {j k : Nat} (h : labelName j = labelName k) : j = k := by
  have hlist := congrArg String.toList h
  rw [toList_labelName, toList_labelName] at hlist
  exact Decimal.digits_injective (List.cons.inj hlist).2

section Operands

variable (targets : List Nat)

/-- A position is written as a word that stands for it. -/
theorem position_positionText (n : Int32) :
    IsWord (positionText targets n).toList ∧
      Source.Position (Named targets) (positionText targets n).toList n := by
  have hnumber : IsWord (Decimal.ofInt32 n).toList ∧
      Source.Position (Named targets) (Decimal.ofInt32 n).toList n :=
    ⟨Decimal.isWord_ofInt32 n, .number (Decimal.toInt32?_ofInt32 n)⟩
  unfold positionText
  split
  · next k hk =>
    by_cases hmem : targets.contains k = true
    · rw [if_pos hmem, toList_labelName]
      refine ⟨(Decimal.isWord_digits k).cons (by decide), .name ?_ ⟨k, ?_, ?_, ?_⟩⟩
      · exact Decimal.toInt32?_of_letter (by decide) (by decide)
      · exact List.contains_iff_mem.mp hmem
      · rw [← toList_labelName, String.ofList_toList]
      · exact (Word.ofNat_of_toNat? hk).symm
    · rw [if_neg hmem]
      exact hnumber
  · exact hnumber

/-- An operand that is one word is written as this word. -/
theorem wordOperand_operandText {o : Operand} {kind : OperandKind} (hfits : o.fits kind = true)
    (hkind : kind ≠ .string ∧ kind ≠ .labelTable)
    (hbuiltin : kind = .builtin → ∀ s, o = .text s → ∃ b : Builtin, s = Utf8.encode b.name) :
    IsWord (operandText targets o kind).toList ∧
      Source.WordOperand (Named targets) kind (operandText targets o kind).toList o := by
  cases o with
  | int n =>
    cases kind with
    | int => exact ⟨Decimal.isWord_ofInt32 n, .int (Decimal.toInt32?_ofInt32 n)⟩
    | label =>
      have hposition := position_positionText targets n
      exact ⟨hposition.1, .position hposition.2⟩
    | _ => cases hfits
  | text s =>
    cases kind with
    | builtin =>
      obtain ⟨b, rfl⟩ := hbuiltin rfl s rfl
      have hname : operandText targets (.text (Utf8.encode b.name)) .builtin = b.name := by
        rw [operandText, Operand.display, Utf8.lossy_encode]
        · intro n h
          cases h
        · intro entries h
          cases h
      rw [hname]
      exact ⟨isWord_name b, .builtin b (by rw [String.ofList_toList])⟩
    | string => exact absurd rfl hkind.1
    | _ => cases hfits
  | table entries =>
    cases kind with
    | labelTable => exact absurd rfl hkind.2
    | _ => cases hfits

end Operands

/-! ### Lines -/

section Line

variable {targets : List Nat}

theorem toList_instructionLine (i : Instruction) :
    (instructionLine targets i).toList =
      i.opcode.mnemonic.toList ++ (i.operands.zip i.opcode.signature).flatMap fun (o, kind) =>
        ' ' :: (operandText targets o kind).toList := by
  rw [instructionLine, String.toList_append, String.toList_join, List.flatMap_map]
  simp

/-- A mnemonic and words with spaces between them write an instruction if the words are its
operands. -/
theorem writes_of_words {label : String → Int32 → Prop} {i : Instruction} {line : List Char}
    {ws : List (List Char)} (hline : line = i.opcode.mnemonic.toList ++ ws.flatMap fun w => ' ' :: w)
    (hws : ∀ w ∈ ws, IsWord w)
    (hoperands : ∀ rest, words rest = ws → Source.Operands label i.opcode.signature rest i.operands) :
    '\n' ∉ line ∧ Source.Writes label (trim line) i := by
  have hname := isWord_mnemonic i.opcode
  obtain ⟨hfirst, hrest⟩ := splitFirst_words hname hws
  rw [hline]
  refine ⟨noLineFeed_words hname hws, ?_, ?_⟩
  · rw [trim_words hname hws, hfirst, String.ofList_toList]
  · rw [trim_words hname hws]
    exact hoperands _ hrest

/-- Operands that are one word each are written as words. -/
theorem words_operandText (targets : List Nat) {os : List Operand} {kinds : List OperandKind}
    (hfits : Instruction.fitAll os kinds = true)
    (hkinds : ∀ kind ∈ kinds, kind ≠ .string ∧ kind ≠ .labelTable)
    (hbuiltin : .builtin ∈ kinds → ∀ s, .text s ∈ os → ∃ b : Builtin, s = Utf8.encode b.name) :
    (∀ w ∈ (os.zip kinds).map fun (o, kind) => (operandText targets o kind).toList, IsWord w) ∧
      Source.Words (Named targets) kinds
        ((os.zip kinds).map fun (o, kind) => (operandText targets o kind).toList) os := by
  induction kinds generalizing os with
  | nil =>
    cases Instruction.fitAll_nil hfits
    exact ⟨List.forall_mem_nil _, .nil⟩
  | cons kind kinds ih =>
    obtain ⟨o, rest, rfl, ho, hrest⟩ := Instruction.fitAll_cons hfits
    obtain ⟨hkind, hkinds⟩ := List.forall_mem_cons.mp hkinds
    have hfirst := wordOperand_operandText targets ho hkind fun hk s hs =>
      hbuiltin (hk ▸ List.mem_cons_self) s (hs ▸ List.mem_cons_self)
    obtain ⟨hwords, heach⟩ := ih hrest hkinds fun hk s hs =>
      hbuiltin (List.mem_cons_of_mem _ hk) s (List.mem_cons_of_mem _ hs)
    exact ⟨List.forall_mem_cons.mpr ⟨hfirst.1, hwords⟩, .cons hfirst.2 heach⟩

/-- A line of a string. -/
theorem writes_string {label : String → Int32 → Prop} {op : Opcode} {cs : List Char}
    (hop : op.signature = [.string]) (hline : '\n' ∉ cs) (hend : EndsPlain cs) :
    '\n' ∉ op.mnemonic.toList ++ ' ' :: cs ∧
      Source.Writes label (trim (op.mnemonic.toList ++ ' ' :: cs)) ⟨op, [.text (Utf8.encodeChars cs)]⟩ := by
  have hname := isWord_mnemonic op
  refine ⟨?_, ?_⟩
  · rw [List.mem_append, not_or, List.mem_cons, not_or]
    exact ⟨hname.noLineFeed, by decide, hline⟩
  · -- behind an empty string also the space in front of it is trimmed
    have hcut : splitFirst (trim (op.mnemonic.toList ++ ' ' :: cs)) = (op.mnemonic.toList, cs) := by
      cases cs with
      | nil => rw [hname.trim_append (by decide), splitFirst_word hname]
      | cons c cs =>
        have hends : EndsPlain (op.mnemonic.toList ++ ' ' :: c :: cs) := by
          intro d hd
          refine hend d ?_
          rw [← hd, List.getLast?_append]
          simp [List.getLast?_cons]
        rw [trim_eq_self (hname.startsPlain _) hends, splitFirst_append hname (by decide)]
    refine ⟨?_, ?_⟩
    · rw [hcut, String.ofList_toList]
    · rw [hcut]
      simp only [hop]
      exact .string cs

/-- A line of a jump table. -/
theorem writes_table {op : Opcode} {entries : List Int32} (hop : op.signature = [.labelTable])
    (hcount : entries.length < 2147483648) :
    '\n' ∉ (instructionLine targets ⟨op, [.table entries]⟩).toList ∧
      Source.Writes (Named targets) (trim (instructionLine targets ⟨op, [.table entries]⟩).toList)
        ⟨op, [.table entries]⟩ := by
  have hpositions := fun n => position_positionText targets n
  have hline : (instructionLine targets ⟨op, [.table entries]⟩).toList = op.mnemonic.toList ++
      (Decimal.digits entries.length :: entries.map fun n => (positionText targets n).toList).flatMap
        fun w => ' ' :: w := by
    rw [toList_instructionLine]
    simp only [hop, List.zip_cons_cons, List.zip_nil_right, List.flatMap_cons, List.flatMap_nil,
      List.append_nil, operandText, String.toList_append, String.toList_join, List.flatMap_map,
      Decimal.ofNat, String.toList_ofList]
    rfl
  refine writes_of_words hline ?_ ?_
  · refine List.forall_mem_cons.mpr ⟨Decimal.isWord_digits _, fun w hw => ?_⟩
    obtain ⟨n, -, rfl⟩ := List.mem_map.mp hw
    exact (hpositions n).1
  · intro rest hrest
    simp only [hop]
    have hvalue : Decimal.toInt32? (Decimal.digits entries.length) = some (Int32.ofNat entries.length) := by
      refine Decimal.toInt32?_of_toInt? ?_
      rw [Decimal.toInt?_digits, Word.toInt_ofNat hcount]
    refine .table hrest hvalue ?_ ?_
    · rw [Word.toInt_ofNat hcount, List.length_map]
    · rw [List.forall₂_map_left_iff, List.forall₂_same]
      exact fun n _ => (hpositions n).2

theorem signature_cases (op : Opcode) :
    (op.signature = [.string] ∧ op = .pushString) ∨ op.signature = [.labelTable] ∨
      ((∀ kind ∈ op.signature, kind ≠ .string ∧ kind ≠ .labelTable) ∧
        (.builtin ∈ op.signature → op = .pushBuiltin)) := by
  cases op <;> decide

/-- **A writable instruction is written as a line that writes it.** -/
theorem writes_instructionLine {i : Instruction} (he : i.Encodable) (hw : i.Writable) :
    '\n' ∉ (instructionLine targets i).toList ∧
      Source.Writes (Named targets) (trim (instructionLine targets i).toList) i := by
  obtain ⟨op, os⟩ := i
  have hfits := he.fits
  rcases signature_cases op with ⟨hop, hstring⟩ | hop | ⟨hplain, hbuiltin⟩
  · obtain ⟨s, rfl⟩ : ∃ s, os = [.text s] := by
      simp only [hop] at hfits
      exact Instruction.fitAll_text (.inr rfl) hfits
    obtain ⟨cs, rfl, hline, hend⟩ := hw.string hstring s List.mem_cons_self
    rw [toList_instructionLine]
    simp only [hop, List.zip_cons_cons, List.zip_nil_right, List.flatMap_cons, List.flatMap_nil,
      List.append_nil]
    rw [operandText, Operand.display, Utf8.lossy_encodeChars, String.toList_ofList]
    · exact writes_string hop hline hend
    · intro n h
      cases h
    · intro entries h
      cases h
  · obtain ⟨entries, rfl⟩ : ∃ entries, os = [.table entries] := by
      simp only [hop] at hfits
      exact Instruction.fitAll_table hfits
    exact writes_table hop (he.countsFit _ List.mem_cons_self)
  · obtain ⟨hwords, heach⟩ := words_operandText targets hfits hplain fun hk s hs =>
      hw.builtin (hbuiltin hk) s hs
    refine writes_of_words ?_ hwords fun rest hrest => .words (hrest ▸ heach)
    rw [toList_instructionLine, List.flatMap_map]

end Line

end Listing

end StackCode
