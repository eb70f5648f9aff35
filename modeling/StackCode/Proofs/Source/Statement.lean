import StackCode.Proofs.Codec
import StackCode.Source.Statement

/-!
# What a line of source text says

A line of code writes an instruction, given what the labels stand for (`Writes`): the first
word is the mnemonic, and the rest is the operands as the signature of the opcode wants
them. A line is read exactly as the instruction that it writes, provided that this has an
encoding (`exists_code_iff`). The positions of the labels are not known yet when the line is
read; the instruction with zeros in their place is of the same size.
-/

namespace StackCode

/-! ### Operands of the same size -/

/-- Operands that differ in their numbers only. -/
inductive Operand.Similar : Operand → Operand → Prop where
  | int (n k : Int32) : Similar (.int n) (.int k)
  | text (bytes : List UInt8) : Similar (.text bytes) (.text bytes)
  | table {ns ks : List Int32} (h : ns.length = ks.length) : Similar (.table ns) (.table ks)

namespace Operand.Similar

variable {o o' : Operand} {os os' : List Operand}

theorem fits_eq (h : Similar o o') (kind : OperandKind) : o.fits kind = o'.fits kind := by
  cases h <;> cases kind <;> rfl

theorem hasNul_eq (h : Similar o o') : o.hasNul = o'.hasNul := by cases h <;> rfl

theorem length_flatMap_bytes (ns : List Int32) : (ns.flatMap Word.bytes).length = Word.size * ns.length := by
  induction ns with
  | nil => rfl
  | cons n ns ih =>
    rw [List.flatMap_cons, List.length_append, ih, Word.length_bytes, List.length_cons, Nat.mul_succ]
    omega

theorem length_bytes (h : Similar o o') : o.bytes.length = o'.bytes.length := by
  cases h with
  | int n k => rfl
  | text bytes => rfl
  | table hlen => simp only [bytes, List.length_append, Word.length_bytes, length_flatMap_bytes, hlen]

theorem fitAll_eq (h : List.Forall₂ Similar os os') (kinds : List OperandKind) :
    Instruction.fitAll os kinds = Instruction.fitAll os' kinds := by
  induction h generalizing kinds with
  | nil => rfl
  | cons ho _ ih =>
    cases kinds with
    | nil => rfl
    | cons kind kinds => rw [Instruction.fitAll, Instruction.fitAll, ho.fits_eq, ih]

theorem any_hasNul_eq (h : List.Forall₂ Similar os os') : os.any hasNul = os'.any hasNul := by
  induction h with
  | nil => rfl
  | cons ho _ ih => rw [List.any_cons, List.any_cons, ho.hasNul_eq, ih]

theorem length_instruction (h : List.Forall₂ Similar os os') (op : Opcode) :
    (Instruction.bytes ⟨op, os⟩).length = (Instruction.bytes ⟨op, os'⟩).length := by
  simp only [Instruction.bytes, List.length_cons, Nat.add_right_cancel_iff]
  induction h with
  | nil => rfl
  | cons ho _ ih =>
    rw [List.flatMap_cons, List.flatMap_cons, List.length_append, List.length_append, ho.length_bytes, ih]

end Operand.Similar

namespace Source

open Result

/-! ### The instruction that a line writes -/

/-- What a word stands for where a position is wanted: itself if it is a signed word, else
what the label of that name stands for. -/
inductive Position (label : String → Int32 → Prop) (word : List Char) (n : Int32) : Prop where
  | number (value : Text.Decimal.toInt32? word = some n)
  | name (noNumber : Text.Decimal.toInt32? word = none) (named : label (String.ofList word) n)

/-- A word as an operand of a kind: an integer is written in decimal, a position is a number
or a name, and a builtin goes by its name. -/
inductive WordOperand (label : String → Int32 → Prop) : OperandKind → List Char → Operand → Prop where
  | int {word n} (value : Text.Decimal.toInt32? word = some n) : WordOperand label .int word (.int n)
  | position {word n} (position : Position label word n) : WordOperand label .label word (.int n)
  | builtin {word} (b : Builtin) (name : b.name = String.ofList word) :
    WordOperand label .builtin word (.text (Text.Utf8.encodeChars word))

/-- Words as operands, one word for each kind. -/
inductive Words (label : String → Int32 → Prop) :
    List OperandKind → List (List Char) → List Operand → Prop where
  | nil : Words label [] [] []
  | cons {kind kinds word words o os} (first : WordOperand label kind word o)
    (rest : Words label kinds words os) : Words label (kind :: kinds) (word :: words) (o :: os)

/-- The operands that the rest of a line writes, for a signature. -/
inductive Operands (label : String → Int32 → Prop) :
    List OperandKind → List Char → List Operand → Prop where
  /-- A string is the whole rest of the line. -/
  | string (rest : List Char) : Operands label [.string] rest [.text (Text.Utf8.encodeChars rest)]
  /-- A jump table is the number of its positions and the positions. -/
  | table {rest count words k entries} (cut : Text.words rest = count :: words)
    (value : Text.Decimal.toInt32? count = some k) (length : k.toInt = words.length)
    (positions : List.Forall₂ (Position label) words entries) :
    Operands label [.labelTable] rest [.table entries]
  /-- Other operands are one word each. -/
  | words {kinds rest os} (each : Words label kinds (Text.words rest) os) : Operands label kinds rest os

/-- A line of source text writes an instruction, given what the labels stand for. -/
structure Writes (label : String → Int32 → Prop) (text : List Char) (i : Instruction) : Prop where
  mnemonic : i.opcode.mnemonic = String.ofList (Text.splitFirst text).1
  operands : Operands label i.opcode.signature (Text.splitFirst text).2 i.operands

theorem Words.plain {label : String → Int32 → Prop} {kinds : List OperandKind} {words : List (List Char)}
    {os : List Operand} (h : Words label kinds words os) :
    ∀ kind ∈ kinds, kind ≠ .string ∧ kind ≠ .labelTable := by
  induction h with
  | nil => exact fun _ h => nomatch h
  | cons first _ ih =>
    refine List.forall_mem_cons.mpr ⟨?_, ih⟩
    cases first <;> exact ⟨nofun, nofun⟩

section Mono

variable {label label' : String → Int32 → Prop} (h : ∀ name n, label name n → label' name n)
include h

theorem Position.mono {word : List Char} {n : Int32} (hp : Position label word n) : Position label' word n := by
  cases hp with
  | number value => exact .number value
  | name noNumber named => exact .name noNumber (h _ _ named)

theorem WordOperand.mono {kind : OperandKind} {word : List Char} {o : Operand}
    (hw : WordOperand label kind word o) : WordOperand label' kind word o := by
  cases hw with
  | int value => exact .int value
  | position hp => exact .position (hp.mono h)
  | builtin b name => exact .builtin b name

theorem Words.mono {kinds : List OperandKind} {words : List (List Char)} {os : List Operand}
    (hw : Words label kinds words os) : Words label' kinds words os := by
  induction hw with
  | nil => exact .nil
  | cons first _ ih => exact .cons (first.mono h) ih

theorem Operands.mono {kinds : List OperandKind} {rest : List Char} {os : List Operand}
    (ho : Operands label kinds rest os) : Operands label' kinds rest os := by
  cases ho with
  | string rest => exact .string rest
  | table cut value length positions => exact .table cut value length (positions.imp fun _ _ hp => hp.mono h)
  | words each => exact .words (each.mono h)

theorem Writes.mono {text : List Char} {i : Instruction} (hw : Writes label text i) : Writes label' text i :=
  ⟨hw.mnemonic, hw.operands.mono h⟩

end Mono

/-! ### Arguments and the operands that they stand for -/

/-- What labels stand for, given their positions. -/
def Placed (position? : String → Option Nat) (name : String) (n : Int32) : Prop :=
  ∃ p, position? name = some p ∧ n = Int32.ofNat p

/-- The position of a target, given those of the labels. -/
def Target.resolve (position? : String → Option Nat) : Target → Except Mistake Int32
  | .position n => .ok n
  | .label name =>
    match position? name with
    | some p => .ok (Int32.ofNat p)
    | none => .error (.unknownLabel name)

/-- The operand that an argument stands for, given the positions of the labels. -/
def Argument.resolve (position? : String → Option Nat) : Argument → Except Mistake Operand
  | .int n => .ok (.int n)
  | .target t => (t.resolve position?).map .int
  | .text bytes => .ok (.text bytes)
  | .table ts => (ts.mapM (Target.resolve position?)).map .table

section Resolve

variable {position? : String → Option Nat}

/-- The operand that an argument stands for differs from the one with zeros in numbers only. -/
theorem similar_of_resolve {a : Argument} {o : Operand} (h : a.resolve position? = .ok o) :
    a.blank.Similar o := by
  cases a with
  | int n =>
    cases h
    exact .int n n
  | target t =>
    obtain ⟨n, -, rfl⟩ := map_eq_ok_iff.mp h
    exact .int t.blank n
  | text bytes =>
    cases h
    exact .text bytes
  | table ts =>
    obtain ⟨ns, hns, rfl⟩ := map_eq_ok_iff.mp h
    refine .table ?_
    rw [List.length_map, (mapM_eq_ok_iff.mp hns).length_eq]

theorem similar_of_mapM_resolve {args : List Argument} {os : List Operand}
    (h : args.mapM (Argument.resolve position?) = .ok os) :
    List.Forall₂ Operand.Similar (args.map Argument.blank) os := by
  rw [List.forall₂_map_left_iff]
  exact (mapM_eq_ok_iff.mp h).imp fun _ _ => similar_of_resolve

theorem Target.resolve_mono {other : String → Option Nat}
    (h : ∀ name p, position? name = some p → other name = some p) {t : Target} {n : Int32}
    (ht : t.resolve position? = .ok n) : t.resolve other = .ok n := by
  cases t with
  | position k => exact ht
  | label name =>
    simp only [Target.resolve] at ht ⊢
    split at ht
    · next p hp =>
      rw [h name p hp]
      exact ht
    · cases ht

/-- What is resolved stays so when more labels have positions. -/
theorem Argument.resolve_mono {other : String → Option Nat}
    (h : ∀ name p, position? name = some p → other name = some p) {a : Argument} {o : Operand}
    (ha : a.resolve position? = .ok o) : a.resolve other = .ok o := by
  cases a with
  | int n => exact ha
  | text bytes => exact ha
  | target t =>
    obtain ⟨n, hn, rfl⟩ := map_eq_ok_iff.mp ha
    exact map_eq_ok_iff.mpr ⟨n, t.resolve_mono h hn, rfl⟩
  | table ts =>
    obtain ⟨ns, hns, rfl⟩ := map_eq_ok_iff.mp ha
    refine map_eq_ok_iff.mpr ⟨ns, mapM_eq_ok_iff.mpr ?_, rfl⟩
    exact (mapM_eq_ok_iff.mp hns).imp fun _ _ => Target.resolve_mono h

theorem resolve_readTarget_iff {word : List Char} {n : Int32} :
    (readTarget word).resolve position? = .ok n ↔ Position (Placed position?) word n := by
  unfold readTarget
  cases hword : Text.Decimal.toInt32? word with
  | some k =>
    simp only [Target.resolve, Except.ok.injEq]
    constructor
    · rintro rfl
      exact .number hword
    · rintro (value | ⟨noNumber, -⟩)
      · rw [hword] at value
        exact Option.some.inj value
      · rw [hword] at noNumber
        cases noNumber
  | none =>
    simp only [Target.resolve]
    constructor
    · intro h
      split at h
      · next p hp =>
        cases h
        exact .name hword ⟨p, hp, rfl⟩
      · cases h
    · rintro (value | ⟨-, p, hp, rfl⟩)
      · rw [hword] at value
        cases value
      · simp only [hp]

/-- A word is read as an argument exactly if it is an operand of that kind. -/
theorem exists_argument_iff {op : Opcode} {word : List Char} {kind : OperandKind} {o : Operand}
    (hkind : kind ≠ .string) :
    (∃ a, readArgument op word kind = .ok a ∧ a.resolve position? = .ok o) ↔
      WordOperand (Placed position?) kind word o := by
  cases kind with
  | int =>
    constructor
    · rintro ⟨a, ha, ho⟩
      obtain ⟨n, hn, rfl⟩ := map_eq_ok_iff.mp ha
      cases ho
      unfold readInt at hn
      split at hn
      · next hword =>
        cases hn
        exact .int hword
      · cases hn
    · rintro ⟨value⟩
      exact ⟨.int _, by rw [readArgument, readInt, value]; rfl, rfl⟩
  | label =>
    constructor
    · rintro ⟨a, ha, ho⟩
      cases ha
      obtain ⟨n, hn, rfl⟩ := map_eq_ok_iff.mp ho
      exact .position (resolve_readTarget_iff.mp hn)
    · rintro (_ | hp)
      exact ⟨_, rfl, map_eq_ok_iff.mpr ⟨_, resolve_readTarget_iff.mpr hp, rfl⟩⟩
  | builtin =>
    simp only [readArgument]
    constructor
    · rintro ⟨a, ha, ho⟩
      split at ha
      · next b hb =>
        cases ha
        cases ho
        exact .builtin b (by simpa using List.find?_some hb)
      · cases ha
    · rintro (_ | _ | ⟨b, name⟩)
      rw [← name, Builtin.ofName?_name]
      exact ⟨_, rfl, rfl⟩
  | string => exact absurd rfl hkind
  | labelTable =>
    constructor
    · rintro ⟨a, ha, -⟩
      cases ha
    · rintro ⟨⟩

theorem exists_words_iff {op : Opcode} {words : List (List Char)} {kinds : List OperandKind} {os : List Operand}
    (hkinds : .string ∉ kinds) :
    (∃ args, words.length = kinds.length ∧
      (words.zip kinds).mapM (fun (word, kind) => readArgument op word kind) = .ok args ∧
        args.mapM (Argument.resolve position?) = .ok os) ↔ Words (Placed position?) kinds words os := by
  simp only [mapM_eq_ok_iff]
  constructor
  · rintro ⟨args, hlen, hargs, hos⟩
    induction kinds generalizing words args os with
    | nil =>
      cases List.eq_nil_of_length_eq_zero hlen
      cases hargs
      cases hos
      exact .nil
    | cons kind kinds ih =>
      rw [List.mem_cons, not_or] at hkinds
      cases words with
      | nil => cases hlen
      | cons word words =>
        rw [List.zip_cons_cons] at hargs
        obtain ⟨a, args', ha, hargs', rfl⟩ := List.forall₂_cons_left_iff.mp hargs
        obtain ⟨o, os', ho, hos', rfl⟩ := List.forall₂_cons_left_iff.mp hos
        refine .cons ((exists_argument_iff (Ne.symm hkinds.1)).mp ⟨a, ha, ho⟩) ?_
        exact ih hkinds.2 args' (by simpa using hlen) hargs' hos'
  · intro h
    induction h with
    | nil => exact ⟨[], rfl, .nil, .nil⟩
    | @cons kind kinds word words o os first _ ih =>
      rw [List.mem_cons, not_or] at hkinds
      have hfirst : ∃ a, readArgument op word kind = .ok a ∧ a.resolve position? = .ok o :=
        (exists_argument_iff (Ne.symm hkinds.1)).mpr first
      obtain ⟨a, ha, ho⟩ := hfirst
      obtain ⟨args, hlen, hargs, hos⟩ := ih hkinds.2
      exact ⟨a :: args, by simp [hlen], .cons ha hargs, .cons ho hos⟩

/-- A table is read exactly as the table of its positions. -/
theorem exists_table_iff {op : Opcode} {rest : List Char} {os : List Operand} :
    (∃ args, readTable op (Text.words rest) = .ok args ∧ args.mapM (Argument.resolve position?) = .ok os) ↔
      Operands (Placed position?) [.labelTable] rest os := by
  constructor
  · rintro ⟨args, hargs, hos⟩
    cases hwords : Text.words rest with
    | nil =>
      rw [hwords] at hargs
      cases hargs
    | cons count words =>
      rw [hwords, readTable, bind_eq_ok_iff] at hargs
      obtain ⟨k, hk, hargs⟩ := hargs
      have hcount : Text.Decimal.toInt32? count = some k := by
        unfold readInt at hk
        split at hk
        · next h => exact Except.ok.inj hk ▸ h
        · cases hk
      split at hargs
      · next hlen =>
        cases pure_eq_ok_iff.mp hargs
        obtain ⟨o, _, ho, hnil, rfl⟩ := List.forall₂_cons_left_iff.mp (mapM_eq_ok_iff.mp hos)
        cases hnil
        obtain ⟨ns, hns, rfl⟩ := map_eq_ok_iff.mp ho
        refine .table hwords hcount (Word.toNat?_eq_some.mp hlen) ?_
        have hpositions := mapM_eq_ok_iff.mp hns
        rw [List.forall₂_map_left_iff] at hpositions
        exact hpositions.imp fun _ _ => resolve_readTarget_iff.mp
      · cases hargs
  · intro h
    cases h with
    | words each => exact absurd rfl (each.plain .labelTable (List.mem_singleton_self _)).2
    | @table _ count words k entries cut value length positions =>
      refine ⟨[.table (words.map readTarget)], ?_, ?_⟩
      · rw [cut, readTable, readInt, value]
        simp only [bind, Except.bind, Word.toNat?_eq_some.mpr length, if_true]
        rfl
      · rw [mapM_eq_ok_iff]
        refine .cons (map_eq_ok_iff.mpr ⟨entries, ?_, rfl⟩) .nil
        rw [mapM_eq_ok_iff, List.forall₂_map_left_iff]
        exact positions.imp fun _ _ => resolve_readTarget_iff.mpr

theorem not_mem_string_signature {op : Opcode} (h : op.signature ≠ [.string]) : .string ∉ op.signature := by
  cases op <;> first | decide | exact absurd rfl h

/-- The rest of a line is read exactly as the operands that it writes. -/
theorem exists_arguments_iff {op : Opcode} {rest : List Char} {os : List Operand} :
    (∃ args, readArguments op rest = .ok args ∧ args.mapM (Argument.resolve position?) = .ok os) ↔
      Operands (Placed position?) op.signature rest os := by
  unfold readArguments
  split
  · next hsignature =>
    rw [hsignature]
    constructor
    · rintro ⟨args, hargs, hos⟩
      cases hargs
      cases mapM_eq_ok_iff.mp hos with
      | cons ho hnil =>
        cases ho
        cases hnil
        exact .string rest
    · intro h
      cases h with
      | string => exact ⟨_, rfl, rfl⟩
      | words each => exact absurd rfl (each.plain .string (List.mem_singleton_self _)).1
  · next hsignature =>
    rw [hsignature]
    exact exists_table_iff
  · next hstring htable =>
    have hkinds := not_mem_string_signature hstring
    constructor
    · rintro ⟨args, hargs, hos⟩
      simp only at hargs
      split at hargs
      · next hlen => exact .words ((exists_words_iff hkinds).mp ⟨args, hlen, hargs, hos⟩)
      · cases hargs
    · intro h
      generalize op.signature = kinds at *
      cases h with
      | string => exact absurd rfl hstring
      | table => exact absurd rfl htable
      | words each =>
        obtain ⟨args, hlen, hargs, hos⟩ := (exists_words_iff hkinds).mpr each
        exact ⟨args, by rw [if_pos hlen]; exact hargs, hos⟩

end Resolve

/-! ### Lines of code -/

theorem Words.countFits {label : String → Int32 → Prop} {kinds : List OperandKind}
    {words : List (List Char)} {os : List Operand} (h : Words label kinds words os) :
    ∀ o ∈ os, o.CountFits := by
  induction h with
  | nil => exact fun _ h => nomatch h
  | cons first _ ih =>
    refine List.forall_mem_cons.mpr ⟨?_, ih⟩
    cases first <;> trivial

theorem Operands.countFits {label : String → Int32 → Prop} {kinds : List OperandKind} {rest : List Char}
    {os : List Operand} (h : Operands label kinds rest os) : ∀ o ∈ os, o.CountFits := by
  cases h with
  | string rest => exact List.forall_mem_singleton.mpr trivial
  | @table _ count words k entries cut value length positions =>
    have hlt : words.length < 2147483648 := Word.lt_of_toNat? (Word.toNat?_eq_some.mpr length)
    rw [positions.length_eq] at hlt
    exact List.forall_mem_singleton.mpr hlt
  | words each => exact each.countFits

theorem readCode_eq_ok_iff {text : List Char} {s : Statement} :
    readCode text = .ok s ↔
      ∃ op args, s = .code op args ∧ op.mnemonic = String.ofList (Text.splitFirst text).1 ∧
        readArguments op (Text.splitFirst text).2 = .ok args ∧
          ∃ e, Instruction.encode ⟨op, args.map Argument.blank⟩ = .ok e := by
  unfold readCode
  constructor
  · intro h
    simp only at h
    split at h
    · cases h
    · next op hop =>
      obtain ⟨args, hargs, h⟩ := bind_eq_ok_iff.mp h
      split at h
      · next e he =>
        exact ⟨op, args, (pure_eq_ok_iff.mp h).symm, Opcode.mnemonic_of_ofMnemonic? hop, hargs, e, he⟩
      · cases h
  · rintro ⟨op, args, rfl, hop, hargs, e, he⟩
    simp only [← hop, Opcode.ofMnemonic?_mnemonic, hargs, bind, Except.bind, he]
    rfl

/-- **A line of code is read exactly as the instruction that it writes**, if this has an
encoding. -/
theorem exists_code_iff {position? : String → Option Nat} {text : List Char} {op : Opcode}
    {os : List Operand} :
    (∃ args, readCode text = .ok (.code op args) ∧ args.mapM (Argument.resolve position?) = .ok os) ↔
      Writes (Placed position?) text ⟨op, os⟩ ∧ Instruction.Encodable ⟨op, os⟩ := by
  constructor
  · rintro ⟨args, hread, hos⟩
    obtain ⟨_, _, hs, hop, hargs, e, he⟩ := readCode_eq_ok_iff.mp hread
    cases hs
    have hoperands := exists_arguments_iff.mp ⟨args, hargs, hos⟩
    obtain ⟨hfits, hnul, -⟩ := Instruction.encode_eq_ok_iff.mp he
    have hsimilar := similar_of_mapM_resolve hos
    refine ⟨⟨hop, hoperands⟩, ⟨?_, ?_, hoperands.countFits⟩⟩
    · exact (Operand.Similar.fitAll_eq hsimilar op.signature).symm.trans hfits
    · exact (Operand.Similar.any_hasNul_eq hsimilar).symm.trans hnul
  · rintro ⟨⟨hop, hoperands⟩, he⟩
    obtain ⟨args, hargs, hos⟩ := exists_arguments_iff.mpr hoperands
    have hsimilar := similar_of_mapM_resolve hos
    refine ⟨args, readCode_eq_ok_iff.mpr ⟨op, args, rfl, hop, hargs, ?_⟩, hos⟩
    refine ⟨_, Instruction.encode_eq_ok_iff.mpr ⟨?_, ?_, rfl⟩⟩
    · exact (Operand.Similar.fitAll_eq hsimilar op.signature).trans he.fits
    · exact (Operand.Similar.any_hasNul_eq hsimilar).trans he.noNul

end Source

end StackCode
