import StackCode.Proofs.Source.Meaning
import StackCode.Proofs.Text.Blank

/-!
# Which mistake is found, and where

A source can be wrong in two ways. A line cannot be read below the lines above it (`Misread`): then
the first such line decides, whatever follows it (`FirstMisread`). Or all lines can be read, and an
instruction names a label that no line defines, which is only seen when all lines are read: then the
first such name decides, in the order of the lines and on a line in the order of the operands
(`FirstUndefined`). There are no other mistakes (`assemble_eq_error_iff`).
-/

namespace StackCode.Source

open Result

/-! ### Mistakes that show on a line -/

/-- A mistake that shows while lines are read: any but the name of a label that no line defines. -/
def Mistake.Early (m : Mistake) : Prop := ∀ name, m ≠ .unknownLabel name

section Early

variable {m : Mistake}

theorem early_of_readInt {word : List Char} (h : readInt word = .error m) : m.Early := by
  unfold readInt at h
  split at h
  · cases h
  · cases h
    rintro _ ⟨⟩

theorem early_of_readArgument {op : Opcode} {word : List Char} {kind : OperandKind}
    (h : readArgument op word kind = .error m) : m.Early := by
  cases kind with
  | int => exact early_of_readInt (map_eq_error_iff.mp h)
  | label | string => cases h
  | builtin =>
    simp only [readArgument] at h
    split at h
    · cases h
    · cases h
      rintro _ ⟨⟩
  | labelTable =>
    cases h
    rintro _ ⟨⟩

theorem early_of_readTable {op : Opcode} {words : List (List Char)} (h : readTable op words = .error m) :
    m.Early := by
  cases words with
  | nil =>
    cases h
    rintro _ ⟨⟩
  | cons count targets =>
    rcases bind_eq_error_iff.mp h with h | ⟨k, -, h⟩
    · exact early_of_readInt h
    · split at h
      · cases h
      · cases h
        rintro _ ⟨⟩

theorem early_of_readArguments {op : Opcode} {rest : List Char} (h : readArguments op rest = .error m) :
    m.Early := by
  unfold readArguments at h
  split at h
  · cases h
  · exact early_of_readTable h
  · simp only at h
    split at h
    · obtain ⟨_, -, hword⟩ := exists_of_mapM_eq_error h
      exact early_of_readArgument hword
    · cases h
      rintro _ ⟨⟩

theorem early_of_readCode {text : List Char} (h : readCode text = .error m) : m.Early := by
  unfold readCode at h
  simp only at h
  split at h
  · cases h
    rintro _ ⟨⟩
  · rcases bind_eq_error_iff.mp h with h | ⟨args, -, h⟩
    · exact early_of_readArguments h
    · split at h
      · cases h
      · cases h
        rintro _ ⟨⟩

theorem early_of_readData {text : List Char} (h : readData text = .error m) : m.Early := by
  have hword : ∀ words : List (List Char), words.mapM readByte = .error m → m.Early := by
    intro words h
    obtain ⟨word, -, hword⟩ := exists_of_mapM_eq_error h
    unfold readByte at hword
    split at hword
    · cases hword
    · cases hword
      rintro _ ⟨⟩
  unfold readData at h
  split at h
  · exact hword _ h
  · exact hword _ h
  · cases h

theorem early_of_read {inData : Bool} {text : List Char} (h : Statement.read inData text = .error m) :
    m.Early := by
  unfold Statement.read at h
  split at h
  case h_5 =>
    split at h
    · exact early_of_readData (map_eq_error_iff.mp h)
    · exact early_of_readCode h
  all_goals cases h

end Early

/-! ### Lines that cannot be read -/

/-- What is wrong with a trimmed line below others: it cannot be read, as code or, if a mark stands
above it, as data; or it defines a label that a line above it defines. -/
inductive Misread (above : List (List Char)) (text : List Char) : Mistake → Prop where
  | unread {m} (fails : Statement.read (decide (mark ∈ above)) text = .error m) : Misread above text m
  | twice {name} (label : text = ':' :: name) (again : text ∈ above) :
    Misread above text (.duplicateLabel (String.ofList name))

/-- Each of the lines can be read below those above it. -/
def Readable (texts : List (List Char)) : Prop :=
  ∀ above text below m, texts = above ++ text :: below → ¬ Misread above text m

theorem Misread.early {above : List (List Char)} {text : List Char} {m : Mistake} (h : Misread above text m) :
    m.Early := by
  cases h with
  | unread fails => exact early_of_read fails
  | twice => rintro _ ⟨⟩

/-- Nothing is wrong with a blank line. -/
theorem not_misread_nil (above : List (List Char)) (m : Mistake) : ¬ Misread above [] m := by
  rintro (⟨⟨⟩⟩ | ⟨⟨⟩⟩)

theorem Readable.concat_nil {texts : List (List Char)} (h : Readable texts) : Readable (texts ++ [[]]) := by
  intro above text below m hsplit hm
  rcases List.eq_nil_or_concat below with rfl | ⟨front, last, rfl⟩
  · obtain ⟨-, htext⟩ := List.append_inj' hsplit rfl
    cases htext
    exact not_misread_nil above m hm
  · rw [List.concat_eq_append, ← List.cons_append, ← List.append_assoc] at hsplit
    exact h above text front m (List.append_inj' hsplit rfl).1 hm

theorem Says.isSome_markFrom {inData : Bool} {texts : List (List Char)} {ss : List Statement}
    (h : Says inData texts ss) (p : Nat) : (markFrom p ss).isSome = decide (mark ∈ texts) := by
  induction h generalizing p with
  | nil => rfl
  | cons first _ ih =>
    cases first with
    | mark => simp [markFrom]
    | silent hsilent => simp [markFrom, ih, (ne_mark_of_silent hsilent).symm]
    | label name =>
      have hne : mark ≠ ':' :: name := by simp [mark]
      simp [markFrom, ih, hne]
    | data hspeaks | code hspeaks => simp [markFrom, ih, (speaks_iff.mp hspeaks).2.2.2.symm]

theorem Reading.eq_of_label {inData : Bool} {text : List Char} {name : String}
    (h : Reading inData text (.label name)) : text = ':' :: name.toList := by
  cases h
  rw [String.toList_ofList]

theorem Says.mem_labelsFrom_iff {inData : Bool} {texts : List (List Char)} {ss : List Statement}
    (h : Says inData texts ss) {name : List Char} (p : Nat) :
    String.ofList name ∈ (labelsFrom p ss).map Prod.fst ↔ (':' :: name) ∈ texts := by
  refine ⟨fun hmem => ?_, fun hmem => h.mem_labelsFrom hmem p⟩
  obtain ⟨⟨_, q⟩, hq, rfl⟩ := List.mem_map.mp hmem
  obtain ⟨above, below, rfl, -⟩ := exists_of_mem_labelsFrom hq
  obtain ⟨textsAbove, text, textsBelow, inData', rfl, -, htext, -⟩ := h.split
  have hlabel := htext.eq_of_label
  rw [String.toList_ofList] at hlabel
  rw [hlabel]
  exact List.mem_append_right _ List.mem_cons_self

namespace Draft

variable {lines : List Line} {d : Draft}

/-- A draft that lines were read into shows whether the mark is among them. -/
theorem isSome_dataOffset_of_read (h : lines.foldlM read {} = .ok d) :
    d.dataOffset.isSome = decide (mark ∈ lines.map Line.text) := by
  obtain ⟨ss, hss, rfl, -⟩ := (foldlM_read_eq_ok_iff (d := {}) List.nodup_nil).mp h
  rw [← hss.isSome_markFrom Image.headerSize]
  rfl

/-- The labels of a draft are those that the lines define. -/
theorem position?_of_read (h : lines.foldlM read {} = .ok d) (name : List Char) :
    d.position? (String.ofList name) = none ↔ (':' :: name) ∉ lines.map Line.text := by
  obtain ⟨ss, hss, rfl, -⟩ := (foldlM_read_eq_ok_iff (d := {}) List.nodup_nil).mp h
  rw [position?_eq_none_iff, ← hss.mem_labelsFrom_iff Image.headerSize]
  simp [extend]

theorem add_eq_error_iff {line : Line} {s : Statement} {e : SourceError} :
    d.add line s = .error e ↔
      ∃ name, s = .label name ∧ d.position? name ≠ none ∧ e = line.error (.duplicateLabel name) := by
  cases s with
  | label name =>
    cases hposition : d.position? name <;> simp [add, hposition, eq_comm]
  | _ => simp [add]

/-- A line cannot be read into a draft exactly if it cannot be read below the lines of the draft. -/
theorem read_eq_error_iff (h : lines.foldlM read {} = .ok d) {line : Line} {e : SourceError} :
    d.read line = .error e ↔ ∃ m, Misread (lines.map Line.text) line.text m ∧ e = line.error m := by
  unfold read
  rw [isSome_dataOffset_of_read h]
  constructor
  · intro hread
    split at hread
    · next s hs =>
      obtain ⟨name, rfl, hposition, rfl⟩ := add_eq_error_iff.mp hread
      have hlabel := (Source.read_eq_ok_iff.mp hs).eq_of_label
      have hagain : (':' :: name.toList) ∈ lines.map Line.text := by
        rw [← not_not (a := _ ∈ _), ← position?_of_read h, String.ofList_toList]
        exact hposition
      rw [← String.ofList_toList (s := name)]
      exact ⟨_, .twice hlabel (hlabel ▸ hagain), rfl⟩
    · next m hm =>
      cases hread
      exact ⟨m, .unread hm, rfl⟩
  · rintro ⟨m, hm, rfl⟩
    cases hm with
    | unread fails => simp only [fails]
    | @twice name label again =>
      have hposition := mt (position?_of_read h name).mp (not_not_intro (label ▸ again))
      rw [label, Statement.read]
      exact add_eq_error_iff.mpr ⟨_, rfl, hposition, rfl⟩

end Draft

/-! ### The first line that cannot be read -/

/-- The first line of a source that cannot be read, and what is wrong with it. -/
def FirstMisread (source : String) (e : SourceError) : Prop :=
  ∃ above text below m, texts source = above ++ text :: below ∧ Readable above ∧ Misread above text m ∧
    e = ⟨above.length + 1, String.ofList text, m⟩

/-- Lines can be read exactly if each of them can be read below those above it. -/
theorem readable_iff {lines : List Line} :
    Readable (lines.map Line.text) ↔ ∃ d, lines.foldlM Draft.read {} = .ok d := by
  constructor
  · intro h
    cases hread : lines.foldlM Draft.read {} with
    | ok d => exact ⟨d, rfl⟩
    | error e =>
      obtain ⟨above, line, below, d, rfl, habove, hline⟩ := foldlM_eq_error_iff.mp hread
      obtain ⟨m, hm, -⟩ := (Draft.read_eq_error_iff habove).mp hline
      rw [List.map_append, List.map_cons] at h
      exact absurd hm (h _ _ _ m rfl)
  · rintro ⟨d, hd⟩ above text below m hsplit hm
    obtain ⟨linesAbove, rest, rfl, rfl, hrest⟩ := List.map_eq_append_iff.mp hsplit
    obtain ⟨line, linesBelow, rfl, rfl, -⟩ := List.map_eq_cons_iff.mp hrest
    rw [List.foldlM_append] at hd
    obtain ⟨d', habove, hrest⟩ := bind_eq_ok_iff.mp hd
    rw [List.foldlM_cons, (Draft.read_eq_error_iff habove).mpr ⟨m, hm, rfl⟩] at hrest
    cases hrest

/-- Reading fails exactly at the first line that cannot be read. -/
theorem ofSource_eq_error_iff {source : String} {e : SourceError} :
    Draft.ofSource source = .error e ↔ FirstMisread source e := by
  rw [Draft.ofSource, ofSource_eq_numbered, foldlM_eq_error_iff]
  constructor
  · rintro ⟨above, line, below, d, hlines, habove, hline⟩
    obtain ⟨htexts, hnumber⟩ := Line.of_numbered_eq_append hlines
    obtain ⟨m, hm, rfl⟩ := (Draft.read_eq_error_iff habove).mp hline
    refine ⟨_, _, _, m, htexts, readable_iff.mpr ⟨d, habove⟩, hm, ?_⟩
    rw [Line.error, hnumber, List.length_map, Nat.add_comm]
  · rintro ⟨above, text, below, m, htexts, habove, hm, rfl⟩
    rw [← Line.map_text_numbered 1 above, readable_iff] at habove
    obtain ⟨d, hd⟩ := habove
    rw [htexts, Line.numbered_append, Line.numbered]
    refine ⟨_, _, _, d, rfl, hd, (Draft.read_eq_error_iff hd).mpr ⟨m, ?_, ?_⟩⟩
    · rwa [Line.map_text_numbered]
    · rw [Line.error, Nat.add_comm]

/-! ### Names on instruction lines -/

/-- The words among operands that are in the places of labels, for a signature: the entries of a jump
table, which stand behind their number, and the words that are wanted as labels. -/
def labelWords : List OperandKind → List (List Char) → List (List Char)
  | [.labelTable], words => words.tail
  | kinds, words => ((words.zip kinds).filter fun (_, kind) => kind = .label).map Prod.fst

theorem labelWords_of_ne {kinds : List OperandKind} (h : kinds ≠ [.labelTable]) (words : List (List Char)) :
    labelWords kinds words = ((words.zip kinds).filter fun (_, kind) => kind = .label).map Prod.fst := by
  unfold labelWords
  split
  · exact absurd rfl h
  · rfl

/-- The names of labels on an instruction line: the words in the places of labels that are not
numbers. -/
def namesOn (text : List Char) : List (List Char) :=
  match Opcode.ofMnemonic? (String.ofList (Text.splitFirst text).1) with
  | some op =>
    (labelWords op.signature (Text.words (Text.splitFirst text).2)).filter fun word =>
      (Text.Decimal.toInt32? word).isNone
  | none => []

/-- The mistake that a name is if no label has it. -/
def missing? (position? : String → Option Nat) (name : List Char) : Option Mistake :=
  if position? (String.ofList name) = none then some (.unknownLabel (String.ofList name)) else none

section Missing

variable (position? : String → Option Nat)

theorem error?_resolve_readTarget (word : List Char) :
    error? ((readTarget word).resolve position?) =
      if (Text.Decimal.toInt32? word).isNone then missing? position? word else none := by
  unfold readTarget
  cases Text.Decimal.toInt32? word with
  | some n => rfl
  | none =>
    simp only [Target.resolve, missing?, Option.isNone_none, if_true]
    cases position? (String.ofList word) <;> rfl

theorem error?_resolve_of_readArgument {op : Opcode} {word : List Char} {kind : OperandKind} {a : Argument}
    (h : readArgument op word kind = .ok a) :
    error? (a.resolve position?) =
      if kind = .label then error? ((readTarget word).resolve position?) else none := by
  cases kind with
  | label =>
    cases h
    exact error?_map ..
  | int =>
    obtain ⟨n, -, rfl⟩ := map_eq_ok_iff.mp h
    rfl
  | builtin =>
    simp only [readArgument] at h
    split at h <;> cases h
    rfl
  | string =>
    cases h
    rfl
  | labelTable => cases h

theorem table_of_readTable {op : Opcode} {words : List (List Char)} {args : List Argument}
    (h : readTable op words = .ok args) : args = [.table (words.tail.map readTarget)] := by
  cases words with
  | nil => cases h
  | cons count targets =>
    obtain ⟨k, -, h⟩ := bind_eq_ok_iff.mp h
    split at h
    · exact (pure_eq_ok_iff.mp h).symm
    · cases h

/-- The arguments of an instruction cannot be resolved exactly because of the first name that no label
has. -/
theorem error?_resolve_of_readArguments {op : Opcode} {rest : List Char} {args : List Argument}
    (h : readArguments op rest = .ok args) :
    error? (args.mapM (Argument.resolve position?)) =
      (labelWords op.signature (Text.words rest)).findSome? fun word =>
        error? ((readTarget word).resolve position?) := by
  rw [error?_mapM]
  unfold readArguments at h
  split at h
  · next hsignature =>
    cases h
    rw [hsignature, labelWords_of_ne (by decide)]
    cases Text.words rest with
    | nil => rfl
    | cons word words =>
      rw [List.zip_cons_cons, List.zip_nil_right]
      rfl
  · next hsignature =>
    rw [hsignature, labelWords, table_of_readTable h, List.findSome?_singleton, Argument.resolve, error?_map,
      error?_mapM, List.findSome?_map]
    rfl
  · next htable =>
    simp only at h
    split at h
    · rw [labelWords_of_ne htable, List.findSome?_map, findSome?_filter]
      refine findSome?_of_forall₂ (mapM_eq_ok_iff.mp h) ?_
      rintro ⟨word, kind⟩ a ha
      simpa using error?_resolve_of_readArgument position? ha
    · cases h

/-- An instruction line that was read cannot be resolved because of the first name on it that no label
has. -/
theorem error?_resolve_of_readCode {text : List Char} {op : Opcode} {args : List Argument}
    (h : readCode text = .ok (.code op args)) :
    error? (args.mapM (Argument.resolve position?)) = (namesOn text).findSome? (missing? position?) := by
  obtain ⟨_, _, hs, hop, hargs, -⟩ := readCode_eq_ok_iff.mp h
  cases hs
  rw [error?_resolve_of_readArguments position? hargs, namesOn, ← hop, Opcode.ofMnemonic?_mnemonic]
  simp only [error?_resolve_readTarget, findSome?_filter]

end Missing

/-! ### The first name that no label has -/

/-- The instruction lines among numbered lines. -/
def Line.codeLines (lines : List Line) : List Line :=
  (lines.takeWhile (·.text != mark)).filter (speaks ·.text)

theorem Line.map_text_codeLines (lines : List Line) :
    (codeLines lines).map text = Source.codeLines (lines.map text) := by
  rw [codeLines, Source.codeLines, List.takeWhile_map, List.filter_map]
  rfl

section CodeLines

variable {line : Line} (lines : List Line)

theorem Line.codeLines_mark (h : line.text = mark) : codeLines (line :: lines) = [] := by
  simp [codeLines, h]

theorem Line.codeLines_cons (h : line.text ≠ mark) :
    codeLines (line :: lines) = if speaks line.text then line :: codeLines lines else codeLines lines := by
  simp [codeLines, h, List.filter_cons]

theorem Line.codeLines_eq_filter {lines : List Line} (h : mark ∉ lines.map text) :
    codeLines lines = lines.filter (speaks ·.text) := by
  have hall : ∀ line ∈ lines, (line.text != mark) = true := fun line hline =>
    bne_iff_ne.mpr fun heq => h (heq ▸ List.mem_map_of_mem hline)
  rw [codeLines, List.takeWhile_eq_self_iff.mpr hall]

theorem Line.codeLines_append {above : List Line} (h : mark ∉ above.map text) (below : List Line) :
    codeLines (above ++ below) = codeLines above ++ codeLines below := by
  have hall : ∀ line ∈ above, (line.text != mark) = true := fun line hline =>
    bne_iff_ne.mpr fun heq => h (heq ▸ List.mem_map_of_mem hline)
  rw [codeLines_eq_filter h, codeLines, codeLines, List.takeWhile_append_of_pos hall, List.filter_append]

/-- The first find among instruction lines, with the lines above it. -/
theorem Line.findSome?_codeLines_eq_some_iff {lines : List Line} {γ : Type} {f : Line → Option γ} {c : γ} :
    (codeLines lines).findSome? f = some c ↔
      ∃ above line below, lines = above ++ line :: below ∧ (mark ∉ above.map text ∧ speaks line.text = true) ∧
        f line = some c ∧ ∀ earlier ∈ codeLines above, f earlier = none := by
  rw [List.findSome?_eq_some_iff]
  constructor
  · rintro ⟨before, line, after, hcode, hline, hbefore⟩
    obtain ⟨front, back, htake, rfl, hback⟩ := List.filter_eq_append_iff.mp hcode
    -- what stands between the instruction line before and this one is silent
    obtain ⟨silent, below, rfl, hsilent, hspeaks, -⟩ := List.filter_eq_cons_iff.mp hback
    have hmark : mark ∉ (front ++ silent).map text := by
      intro hmem
      obtain ⟨l, hl, htext⟩ := List.mem_map.mp hmem
      have hl : l ∈ lines.takeWhile (·.text != mark) := by
        rw [htake, ← List.append_assoc]
        exact List.mem_append_left _ hl
      have hne : (l.text != mark) = true := List.mem_takeWhile_imp (p := fun line : Line => line.text != mark) hl
      exact bne_iff_ne.mp hne htext
    refine ⟨front ++ silent, line, below ++ lines.dropWhile (·.text != mark), ?_, ⟨hmark, hspeaks⟩, hline, ?_⟩
    · rw [← List.cons_append, ← List.append_assoc, List.append_assoc front, ← htake,
        List.takeWhile_append_dropWhile]
    · rw [codeLines_eq_filter hmark, List.filter_append, List.filter_eq_nil_iff.mpr hsilent, List.append_nil]
      exact hbefore
  · rintro ⟨above, line, below, rfl, ⟨hmark, hspeaks⟩, hline, habove⟩
    refine ⟨codeLines above, line, codeLines below, ?_, hline, habove⟩
    rw [codeLines_append hmark, codeLines_cons _ (speaks_iff.mp hspeaks).2.2.2, if_pos hspeaks]

theorem Line.forall_mem_names_iff {lines : List Line} {P : List Char → Prop} :
    (∀ name ∈ (Source.codeLines (lines.map text)).flatMap namesOn, P name) ↔
      ∀ line ∈ codeLines lines, ∀ name ∈ namesOn line.text, P name := by
  rw [← map_text_codeLines]
  simp only [List.flatMap_map, List.mem_flatMap]
  exact ⟨fun h line hline name hname => h name ⟨line, hline, hname⟩,
    fun h name ⟨line, hline, hname⟩ => h line hline name hname⟩

end CodeLines

theorem error?_bytes_code (position? : String → Option Nat) (line : Line) (op : Opcode) (args : List Argument) :
    error? (Piece.bytes position? (.code line op args)) =
      (error? (args.mapM (Argument.resolve position?))).map line.error := by
  rw [Piece.bytes]
  cases args.mapM (Argument.resolve position?) <;> rfl

/-- Nothing is wrong with data. -/
theorem findSome?_pieces_of_data {ss : List Statement} (h : codeOf ss = []) (lines : List Line)
    (position? : String → Option Nat) :
    (piecesOf lines ss).findSome? (fun piece => error? (piece.bytes position?)) = none := by
  rw [List.findSome?_eq_none_iff]
  intro piece hpiece
  obtain ⟨⟨line, s⟩, hmem, hpiece⟩ := List.mem_filterMap.mp hpiece
  have hs := (List.of_mem_zip hmem).2
  cases s with
  | code op args =>
    have hcode : (op, args) ∈ codeOf ss := List.mem_filterMap.mpr ⟨_, hs, rfl⟩
    rw [h] at hcode
    cases hcode
  | bytes chunk =>
    cases hpiece
    rfl
  | _ => cases hpiece

/-- The first mistake in pieces is the first name on the instruction lines that no label has. -/
theorem Says.findSome?_pieces {texts : List (List Char)} {ss : List Statement} (h : Says false texts ss)
    {lines : List Line} (hlines : lines.map Line.text = texts) (position? : String → Option Nat) :
    (piecesOf lines ss).findSome? (fun piece => error? (piece.bytes position?)) =
      (Line.codeLines lines).findSome? fun line =>
        ((namesOn line.text).findSome? (missing? position?)).map line.error := by
  generalize hinData : false = inData at h
  induction h generalizing lines with
  | nil =>
    rw [List.map_eq_nil_iff.mp hlines]
    rfl
  | cons first rest ih =>
    subst hinData
    obtain ⟨line, lines', rfl, htext, hlines'⟩ := List.map_eq_cons_iff.mp hlines
    cases first with
    | silent hsilent =>
      rw [← htext] at hsilent
      rw [Line.codeLines_cons _ (ne_mark_of_silent hsilent), not_speaks_of_silent hsilent]
      exact ih hlines' rfl
    | label name =>
      have hmark : line.text ≠ mark := by simp [htext, mark]
      have hspeaks : speaks line.text = false := by simp [htext, speaks]
      rw [Line.codeLines_cons _ hmark, hspeaks]
      exact ih hlines' rfl
    | mark =>
      rw [Line.codeLines_mark _ htext]
      exact findSome?_pieces_of_data rest.codeOf_eq_nil lines' position?
    | code hspeaks hread =>
      rw [← htext] at hspeaks hread
      rw [Line.codeLines_cons _ (speaks_iff.mp hspeaks).2.2.2, if_pos hspeaks, List.findSome?_cons,
        ← ih hlines' rfl, ← error?_resolve_of_readCode position? hread, ← error?_bytes_code _ _ _ _]
      rfl

section Finish

variable {lines : List Line} {d : Draft} (h : lines.foldlM Draft.read {} = .ok d)
include h

theorem Draft.error?_finish :
    error? d.finish = (Line.codeLines lines).findSome? fun line =>
      ((namesOn line.text).findSome? (missing? d.position?)).map line.error := by
  obtain ⟨ss, hss, rfl, -⟩ := (Draft.foldlM_read_eq_ok_iff (d := {}) List.nodup_nil).mp h
  rw [finish_extend, error?_bind (o := none) fun _ => rfl, Option.or_none, error?_mapM, position?_extend]
  exact hss.findSome?_pieces rfl _

theorem Draft.missing?_eq_none_iff (name : List Char) :
    missing? d.position? name = none ↔ (':' :: name) ∈ lines.map Line.text := by
  rw [missing?, ← not_iff_not, ← position?_of_read h]
  split <;> simp_all

theorem Draft.missing?_eq_some_iff {name : List Char} {m : Mistake} :
    missing? d.position? name = some m ↔
      (':' :: name) ∉ lines.map Line.text ∧ m = .unknownLabel (String.ofList name) := by
  rw [missing?, ← position?_of_read h]
  split <;> simp_all [eq_comm]

end Finish

/-- An instruction line below others names a label that no line of the source defines, and each name
before it, on a line above or on the line itself, is that of a label. -/
structure Undefined (texts above : List (List Char)) (text name : List Char) : Prop where
  code : mark ∉ above ∧ speaks text = true
  undefined : (':' :: name) ∉ texts
  first : ∃ before after, namesOn text = before ++ name :: after ∧
    ∀ earlier ∈ (codeLines above).flatMap namesOn ++ before, (':' :: earlier) ∈ texts

/-- All lines of a source can be read, and this is the first name in it that no label has. -/
def FirstUndefined (source : String) (e : SourceError) : Prop :=
  Readable (texts source) ∧ ∃ above text below name, texts source = above ++ text :: below ∧
    Undefined (texts source) above text name ∧
      e = ⟨above.length + 1, String.ofList text, .unknownLabel (String.ofList name)⟩

/-- A draft cannot be finished exactly because of the first name in the source that no label has. -/
theorem finish_eq_error_iff {source : String} {d : Draft} (h : Draft.ofSource source = .ok d) {e : SourceError} :
    d.finish = .error e ↔ FirstUndefined source e := by
  have hread : Readable (texts source) := by
    rw [← map_text_ofSource]
    exact readable_iff.mpr ⟨d, h⟩
  rw [← error?_eq_some_iff, Draft.error?_finish h, Line.findSome?_codeLines_eq_some_iff]
  simp only [Option.map_eq_some_iff, Option.map_eq_none_iff, List.findSome?_eq_some_iff,
    List.findSome?_eq_none_iff, Draft.missing?_eq_none_iff h, Draft.missing?_eq_some_iff h, map_text_ofSource]
  constructor
  · rintro ⟨above, line, below, hlines, hcode, ⟨_, ⟨before, name, after, hnames, ⟨hundefined, rfl⟩, hbefore⟩,
      rfl⟩, habove⟩
    rw [ofSource_eq_numbered] at hlines
    obtain ⟨htexts, hnumber⟩ := Line.of_numbered_eq_append hlines
    refine ⟨hread, _, _, _, name, htexts, ⟨hcode, hundefined, before, after, hnames, ?_⟩, ?_⟩
    · exact List.forall_mem_append.mpr ⟨Line.forall_mem_names_iff.mpr habove, hbefore⟩
    · rw [Line.error, hnumber, List.length_map, Nat.add_comm]
  · rintro ⟨-, above, text, below, name, htexts, ⟨hcode, hundefined, before, after, hnames, hearlier⟩, rfl⟩
    obtain ⟨habove, hbefore⟩ := List.forall_mem_append.mp hearlier
    rw [← Line.map_text_numbered 1 above] at hcode habove
    refine ⟨Line.numbered 1 above, ⟨1 + above.length, text⟩, Line.numbered (1 + above.length + 1) below, ?_, hcode,
      ⟨_, ⟨before, name, after, hnames, ⟨hundefined, rfl⟩, hbefore⟩, ?_⟩, Line.forall_mem_names_iff.mp habove⟩
    · rw [ofSource_eq_numbered, htexts, Line.numbered_append, Line.numbered]
    · rw [Line.error, Nat.add_comm]

/-- **What can be wrong with a source**: a line cannot be read, or all can and a name is that of no
label. -/
theorem assemble_eq_error_iff {source : String} {e : SourceError} :
    assemble source = .error e ↔ FirstMisread source e ∨ FirstUndefined source e := by
  rw [assemble, bind_eq_error_iff, ofSource_eq_error_iff]
  refine or_congr Iff.rfl ⟨?_, fun he => ?_⟩
  · rintro ⟨d, hd, he⟩
    exact (finish_eq_error_iff hd).mp he
  · obtain ⟨d, hd⟩ := readable_iff.mp (map_text_ofSource source ▸ he.1)
    exact ⟨d, hd, (finish_eq_error_iff hd).mpr he⟩

/-- A source is assembled exactly if all its lines can be read, and some line defines each name on its
instruction lines. -/
theorem exists_image_iff {source : String} :
    (∃ img, assemble source = .ok img) ↔
      Readable (texts source) ∧
        ∀ name ∈ (codeLines (texts source)).flatMap namesOn, (':' :: name) ∈ texts source := by
  have hfinish : ∀ d, Draft.ofSource source = .ok d →
      ((∃ img, d.finish = .ok img) ↔
        ∀ name ∈ (codeLines (texts source)).flatMap namesOn, (':' :: name) ∈ texts source) := by
    intro d hd
    rw [← error?_eq_none_iff, Draft.error?_finish hd, ← map_text_ofSource, Line.forall_mem_names_iff]
    simp only [Option.map_eq_none_iff, List.findSome?_eq_none_iff, Draft.missing?_eq_none_iff hd]
  rw [← map_text_ofSource, readable_iff, map_text_ofSource, assemble]
  simp only [bind_eq_ok_iff]
  constructor
  · rintro ⟨img, d, hd, himg⟩
    exact ⟨⟨d, hd⟩, (hfinish d hd).mp ⟨img, himg⟩⟩
  · rintro ⟨⟨d, hd⟩, hnames⟩
    obtain ⟨img, himg⟩ := (hfinish d hd).mpr hnames
    exact ⟨img, d, hd, himg⟩

/-! ### The lines that decide -/

/-- A source cut off above a line. -/
def linesAbove (number : Nat) (source : String) : String :=
  String.ofList (((Text.lines source.toList).take (number - 1)).flatMap fun row => row ++ ['\n'])

theorem texts_linesAbove (number : Nat) (source : String) :
    texts (linesAbove number source) = (texts source).take (number - 1) ++ [[]] := by
  have hrows : ∀ row ∈ (Text.lines source.toList).take (number - 1), '\n' ∉ row := fun row hrow =>
    Text.noLineFeed_of_mem_lines (List.mem_of_mem_take hrow)
  rw [texts, linesAbove, String.toList_ofList, Text.lines_flatMap hrows, List.map_append, List.map_take]
  rfl

namespace FirstMisread

variable {source : String} {e : SourceError}

theorem early (h : FirstMisread source e) : e.mistake.Early := by
  obtain ⟨above, text, below, m, -, -, hm, rfl⟩ := h
  exact hm.early

/-- What stands below the line does not count. -/
theorem of_take (h : FirstMisread source e) {other : String}
    (hsame : (texts other).take e.line = (texts source).take e.line) : FirstMisread other e := by
  obtain ⟨above, text, below, m, htexts, habove, hm, rfl⟩ := h
  have htake : (texts other).take (above.length + 1) = above ++ [text] := by
    rw [hsame, htexts, List.append_cons]
    exact List.take_left' (by simp)
  refine ⟨above, text, (texts other).drop (above.length + 1), m, ?_, habove, hm, rfl⟩
  rw [List.append_cons, ← htake, List.take_append_drop]

/-- The lines above can be read. -/
theorem readable_above (h : FirstMisread source e) : Readable (texts (linesAbove e.line source)) := by
  obtain ⟨above, text, below, m, htexts, habove, hm, rfl⟩ := h
  rw [texts_linesAbove, htexts, Nat.add_sub_cancel, List.take_left]
  exact habove.concat_nil

end FirstMisread

theorem Readable.not_firstMisread {source : String} (h : Readable (texts source)) (e : SourceError) :
    ¬ FirstMisread source e := by
  rintro ⟨above, text, below, m, htexts, -, hm, -⟩
  exact h above text below m htexts hm

/-- **Which mistake is found, and where.** If it shows while lines are read, the lines up to the one
where it is found decide it: every source with the same trimmed lines up to there has the same first
mistake, and nothing is wrong with the source cut off above that line but that names may be missing.
Otherwise it is a name that no line defines, in the place of a label on an instruction line: all lines
can be read, and every name before it is that of a label. A source with neither is assembled. -/
theorem mistakes_are_located (source : String) :
    (∀ e, assemble source = .error e ↔ FirstMisread source e ∨ FirstUndefined source e) ∧
    (∀ e, assemble source = .error e → (∀ name, e.mistake ≠ .unknownLabel name) →
      (∀ other, (texts other).take e.line = (texts source).take e.line → assemble other = .error e) ∧
      ∀ e', assemble (linesAbove e.line source) = .error e' → ∃ name, e'.mistake = .unknownLabel name) ∧
    (∀ e name, assemble source = .error e → e.mistake = .unknownLabel name → FirstUndefined source e) ∧
    ((∀ e, ¬ FirstMisread source e ∧ ¬ FirstUndefined source e) → ∃ img, assemble source = .ok img) := by
  have hname : ∀ {source e}, FirstUndefined source e → ∃ name, e.mistake = .unknownLabel name := by
    rintro source e ⟨-, above, text, below, name, -, -, rfl⟩
    exact ⟨_, rfl⟩
  refine ⟨fun e => assemble_eq_error_iff, fun e he hearly => ?_, fun e name he hlate => ?_, fun hnone => ?_⟩
  · have hmisread : FirstMisread source e := by
      refine (assemble_eq_error_iff.mp he).resolve_right fun hundefined => ?_
      obtain ⟨name, hlate⟩ := hname hundefined
      exact hearly name hlate
    refine ⟨fun other hsame => assemble_eq_error_iff.mpr (.inl (hmisread.of_take hsame)), fun e' he' => ?_⟩
    exact hname ((assemble_eq_error_iff.mp he').resolve_left (hmisread.readable_above.not_firstMisread e'))
  · exact (assemble_eq_error_iff.mp he).resolve_left fun hmisread => hmisread.early name hlate
  · cases h : assemble source with
    | ok img => exact ⟨img, rfl⟩
    | error e =>
      obtain ⟨hmisread, hundefined⟩ := hnone e
      exact absurd (assemble_eq_error_iff.mp h) (not_or.mpr ⟨hmisread, hundefined⟩)

/-- A missing name above a word that is no number, and a label that is defined twice below it. The
word is found first, by another source that begins in the same way too. Above it the name is found. -/
theorem mistakes_are_located_number :
    let source := "JMP there\n:a\nPUSH_INT x\n:a\n"
    let other := "  JMP there\n:a\r\nPUSH_INT x\nRET"
    let e : SourceError := ⟨3, "PUSH_INT x", .invalidInteger "x"⟩
    assemble source = .error e ∧ assemble other = .error e ∧
      FirstUndefined (linesAbove 3 source) ⟨1, "JMP there", .unknownLabel "there"⟩ := by
  intro source other e
  have he : assemble source = .error e := by decide +kernel
  obtain ⟨-, hearly, -, -⟩ := mistakes_are_located source
  obtain ⟨-, -, hlate, -⟩ := mistakes_are_located (linesAbove 3 source)
  refine ⟨he, (hearly e he nofun).1 other (by decide +kernel), hlate _ "there" (by decide +kernel) rfl⟩

end StackCode.Source
