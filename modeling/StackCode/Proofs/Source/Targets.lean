import StackCode.Proofs.Machine.ControlFlow
import StackCode.Proofs.Source.Meaning
import StackCode.Proofs.Text.Utf8

/-!
# Where the instructions of a source lead

A label of a source stands between statements. So it stands at an instruction, at the end of the
code, or in the data (`Says.line_of_position`). If the instructions of a source name their
destinations by labels and never by numbers (`Symbolic`), they lead to instructions or out of
the code (`closed_of_assemble`). Whatever its other operands are, an instruction that is written
with the name of a builtin has the name of one (`Writes.builtin`).
-/

namespace StackCode.Source

open Result

/-! ### Labels between instructions -/

/-- Above a line there is no data, or below it there is no code. -/
theorem Says.dataOf_eq_nil_or_codeOf_eq_nil {inData : Bool} {texts : List (List Char)}
    {above below : List Statement} (h : Says inData texts (above ++ below)) :
    dataOf above = [] ∨ codeOf below = [] := by
  induction above generalizing inData texts with
  | nil => exact .inl rfl
  | cons s above ih =>
    cases h with
    | cons first rest =>
      cases first with
      | silent | label | code => exact ih rest
      | mark | data =>
        -- from here on there is data only
        have hnone : codeOf (above ++ below) = [] := rest.codeOf_eq_nil
        rw [codeOf_append] at hnone
        exact .inr (List.append_eq_nil_iff.mp hnone).2

/-- **A label stands at an instruction or not before the end of the code.** -/
theorem Says.line_of_position {texts : List (List Char)} {ss : List Statement} {is : List Instruction}
    (h : Says false texts ss) (hlabels : ((labelsFrom Image.headerSize ss).map Prod.fst).Nodup)
    (his : List.Forall₂ (Resolved (positionOf ss)) (codeOf ss) is) {name : String} {p : Nat}
    (hp : positionOf ss name = some p) :
    (∃ line ∈ Listing.layOut Image.headerSize is, line.offset = p) ∨
      Image.headerSize + (is.flatMap Instruction.bytes).length ≤ p := by
  obtain ⟨above, below, rfl, rfl⟩ := exists_of_mem_labelsFrom ((positionOf_eq_some_iff hlabels).mp hp)
  -- the instructions above the label and those below it
  have hfront := List.forall₂_take (codeOf above).length his
  have hback := List.forall₂_drop (codeOf above).length his
  rw [codeOf_append, List.take_left] at hfront
  rw [codeOf_append, List.drop_left] at hback
  rw [← List.take_append_drop (codeOf above).length is]
  generalize is.take (codeOf above).length = front at hfront ⊢
  generalize is.drop (codeOf above).length = back at hback ⊢
  rw [extent_of_resolved hfront]
  by_cases hempty : back = []
  · right
    rw [hempty, List.append_nil, ← Nat.add_assoc]
    exact Nat.le_add_right _ _
  · -- there is code below the label, so above it there is no data
    rcases h.dataOf_eq_nil_or_codeOf_eq_nil with hdata | hcode
    · rw [hdata]
      exact .inl (Listing.exists_mem_layOut _ front hempty)
    · rw [hcode] at hback
      exact absurd (List.forall₂_nil_left_iff.mp hback) hempty

theorem position_le {ss : List Statement}
    (hlabels : ((labelsFrom Image.headerSize ss).map Prod.fst).Nodup) {name : String} {p : Nat}
    (hp : positionOf ss name = some p) : p ≤ Image.headerSize + extent ss := by
  obtain ⟨above, below, rfl, rfl⟩ := exists_of_mem_labelsFrom ((positionOf_eq_some_iff hlabels).mp hp)
  rw [extent_append]
  omega

/-! ### Destinations -/

/-- The words of an instruction line that are destinations: the operands of a jump or of
`PUSH_CLOSURE`, and the entries of a jump table, which stand behind their number. -/
def targetWords (text : List Char) : List (List Char) :=
  match Opcode.ofMnemonic? (String.ofList (Text.splitFirst text).1) with
  | some .jmpData => (Text.words (Text.splitFirst text).2).tail
  | some op => if op.isTransfer then Text.words (Text.splitFirst text).2 else []
  | none => []

/-- The destinations in a source are names of labels, not numbers. -/
def Symbolic (source : String) : Prop :=
  ∀ text ∈ codeLines (texts source), ∀ word ∈ targetWords text, Text.Decimal.toInt32? word = none

instance (source : String) : Decidable (Symbolic source) :=
  inferInstanceAs (Decidable (∀ text ∈ codeLines (texts source), ∀ word ∈ targetWords text,
    Text.Decimal.toInt32? word = none))

theorem Writes.ofMnemonic? {label : String → Int32 → Prop} {text : List Char} {i : Instruction}
    (h : Writes label text i) :
    Opcode.ofMnemonic? (String.ofList (Text.splitFirst text).1) = some i.opcode := by
  rw [← h.mnemonic, Opcode.ofMnemonic?_mnemonic]

/-- A destination of an instruction is what one of the words of its line stands for. -/
theorem Writes.exists_targetWord {label : String → Int32 → Prop} {text : List Char} {i : Instruction}
    (h : Writes label text i) {n : Int32} (hn : n ∈ i.destinations) :
    ∃ word ∈ targetWords text, Position label word n := by
  obtain ⟨htransfer, hoperand⟩ := Instruction.of_mem_destinations hn
  have hoperands := h.operands
  rw [targetWords, h.ofMnemonic?]
  obtain ⟨op, os⟩ := i
  cases op <;> cases htransfer
  case jmp | jmpFalse | jmpTrue | pushClosure =>
    cases hoperands with
    | words each =>
      generalize Text.words (Text.splitFirst text).2 = words at each ⊢
      cases each with
      | cons first rest =>
        cases rest
        cases first with
        | position hposition =>
          obtain rfl : n = _ := by simpa using hoperand
          exact ⟨_, List.mem_cons_self, hposition⟩
  case jmpData =>
    cases hoperands with
    | words each => exact absurd rfl (each.plain .labelTable (List.mem_singleton_self _)).2
    | @table _ _ words _ entries cut value length positions =>
      have hentry : n ∈ entries := by simpa using hoperand
      obtain ⟨word, hword, hposition⟩ := exists_mem_of_forall₂ positions hentry
      refine ⟨word, ?_, hposition⟩
      simp only [cut, List.tail_cons]
      exact hword

/-- An instruction that is written with the name of a builtin has the name of one. -/
theorem Writes.builtin {label : String → Int32 → Prop} {text : List Char} {name : List UInt8}
    (h : Writes label text ⟨.pushBuiltin, [.text name]⟩) :
    ∃ b, Builtin.ofName? (Text.Utf8.lossy name) = some b := by
  cases h.operands with
  | words each =>
    generalize Text.words (Text.splitFirst text).2 = words at each
    cases each with
    | cons first rest =>
      cases first with
      | builtin b hname =>
        refine ⟨b, ?_⟩
        rw [Text.Utf8.lossy_encodeChars, ← hname, Builtin.ofName?_name]

/-! ### The image -/

theorem wellFormed_of_assemble {source : String} {img : Image} (h : assemble source = .ok img) :
    img.WellFormed := by
  obtain ⟨ss, is, -, -, -, rfl⟩ := assemble_eq_ok_iff.mp h
  exact Image.wellFormed_of_parts rfl

/-- **Where destinations are names, the code is closed.** The image of such a source has a listing
in which every destination is that of a line or lies outside the code, and every builtin that is
named exists. -/
theorem closed_of_assemble {source : String} {img : Image} (h : assemble source = .ok img)
    (hsize : img.size < 2147483648) (hsymbolic : Symbolic source) :
    ∃ lines, Listing.linesOf img = .ok lines ∧ Listing.Closed img lines ∧
      ∀ line ∈ lines, ∀ name, line.instruction = ⟨.pushBuiltin, [.text name]⟩ →
        ∃ b, Builtin.ofName? (Text.Utf8.lossy name) = some b := by
  obtain ⟨ss, is, hss, hlabels, his, rfl, hwrites⟩ := lines_of_assemble h
  have hencodable : ∀ i ∈ is, i.Encodable := forall_mem_of_forall₂ (hwrites.imp fun _ _ h => h.2)
  have hextent : Image.headerSize + extent ss < 2147483648 := by
    rw [extent_of_resolved his]
    rw [size_imageOf] at hsize
    omega
  have hline : ∀ line ∈ Listing.layOut Image.headerSize is,
      ∃ text ∈ codeLines (texts source), Writes (Placed (positionOf ss)) text line.instruction := by
    intro line hline
    obtain ⟨before, after, hsplit, -⟩ := Listing.mem_layOut hline
    obtain ⟨text, htext, hw, -⟩ := exists_mem_of_forall₂ hwrites (b := line.instruction) (by simp [hsplit])
    exact ⟨text, htext, hw⟩
  refine ⟨_, linesOf_imageOf _ hencodable, fun line hmem n hn => ?_, fun line hmem name hname => ?_⟩
  · obtain ⟨text, htext, hw⟩ := hline line hmem
    obtain ⟨word, hword, hposition⟩ := hw.exists_targetWord hn
    cases hposition with
    | number value =>
      rw [hsymbolic text htext word hword] at value
      cases value
    | name _ hplaced =>
      obtain ⟨p, hp, rfl⟩ := hplaced
      have hle := position_le hlabels hp
      rw [Word.toInt_ofNat (by omega)]
      rcases hss.line_of_position hlabels his hp with ⟨there, hthere, ho⟩ | hout
      · exact .inl ⟨there, hthere, by rw [ho]⟩
      · exact .inr (.inr (by exact_mod_cast hout))
  · obtain ⟨text, -, hw⟩ := hline line hmem
    rw [hname] at hw
    exact hw.builtin

end StackCode.Source
