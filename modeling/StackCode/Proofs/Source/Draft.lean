import StackCode.Proofs.Image
import StackCode.Proofs.Source.Fixups

/-!
# From lines to the image

The lines of a source say statements, each with regard only to whether the mark `.data`
stands above it (`Says`). From the statements follows all that the draft of the image
collects: its bytes, where the labels stand, where the data begins, and which words wait for the
position of a label (`Draft.extend`). Therefore a source is assembled exactly if its lines can be read, no label
is defined twice, and each instruction can be resolved (`assemble_eq_ok_iff`).
-/

namespace StackCode.Source

open Result

/-! ### Statements -/

/-- The trimmed lines of a source. -/
def texts (source : String) : List (List Char) := (Text.lines source.toList).map Text.trim

/-- The line after which there is data. -/
def mark : List Char := ['.', 'd', 'a', 't', 'a']

/-- Whether a trimmed line is an instruction or data: it is not blank, no comment, no label
and not the mark. -/
def speaks (text : List Char) : Bool :=
  text != [] && text.head? != some '#' && text.head? != some ':' && text != mark

/-- What a trimmed line says. -/
inductive Reading : Bool → List Char → Statement → Prop where
  | silent {inData text} (silent : text = [] ∨ text.head? = some '#') : Reading inData text .blank
  | label {inData} (name : List Char) : Reading inData (':' :: name) (.label (String.ofList name))
  | mark {inData} : Reading inData mark .dataMark
  | data {text bytes} (speaks : speaks text = true) (read : readData text = .ok bytes) :
    Reading true text (.bytes bytes)
  | code {text op args} (speaks : speaks text = true) (read : readCode text = .ok (.code op args)) :
    Reading false text (.code op args)

theorem speaks_iff {text : List Char} :
    speaks text = true ↔
      text ≠ [] ∧ text.head? ≠ some '#' ∧ text.head? ≠ some ':' ∧ text ≠ mark := by
  simp [speaks, and_assoc]

/-- A line is read exactly as what it says. -/
theorem read_eq_ok_iff {inData : Bool} {text : List Char} {s : Statement} :
    Statement.read inData text = .ok s ↔ Reading inData text s := by
  constructor
  · intro h
    unfold Statement.read at h
    split at h
    · cases h
      exact .silent (.inl rfl)
    · cases h
      exact .silent (.inr rfl)
    · cases h
      exact .label _
    · cases h
      exact .mark
    · next hempty hcomment hlabel hmark =>
      have hspeaks : speaks text = true := by
        refine speaks_iff.mpr ⟨hempty, fun hhead => ?_, fun hhead => ?_, hmark⟩
        · obtain ⟨rest, rfl⟩ := List.head?_eq_some_iff.mp hhead
          exact hcomment rest rfl
        · obtain ⟨name, rfl⟩ := List.head?_eq_some_iff.mp hhead
          exact hlabel name rfl
      split at h
      · next hdata =>
        obtain ⟨bytes, hbytes, rfl⟩ := map_eq_ok_iff.mp h
        rw [hdata]
        exact .data hspeaks hbytes
      · next hcode =>
        obtain ⟨op, args, rfl, -⟩ := readCode_eq_ok_iff.mp h
        rw [Bool.not_eq_true] at hcode
        rw [hcode]
        exact .code hspeaks h
  · intro h
    cases h with
    | silent hsilent =>
      rcases hsilent with rfl | hhead
      · rfl
      · obtain ⟨rest, rfl⟩ := List.head?_eq_some_iff.mp hhead
        rfl
    | label name => rfl
    | mark => rfl
    | data hspeaks hread =>
      rw [Statement.read.eq_def]
      split
      · simp [speaks] at hspeaks
      · simp [speaks] at hspeaks
      · simp [speaks] at hspeaks
      · simp [speaks, mark] at hspeaks
      · rw [if_pos rfl, hread]
        rfl
    | code hspeaks hread =>
      rw [Statement.read.eq_def]
      split
      · simp [speaks] at hspeaks
      · simp [speaks] at hspeaks
      · simp [speaks] at hspeaks
      · simp [speaks, mark] at hspeaks
      · rw [if_neg Bool.false_ne_true, hread]

/-- An instruction on a line has the operands that its opcode takes. -/
theorem Reading.fitAll {inData : Bool} {text : List Char} {op : Opcode} {args : List Argument}
    (h : Reading inData text (.code op args)) :
    Instruction.fitAll (args.map Argument.blank) op.signature = true := by
  cases h with
  | code _ hread =>
    obtain ⟨_, _, hcode, -, -, e, he⟩ := readCode_eq_ok_iff.mp hread
    cases hcode
    exact (Instruction.encode_eq_ok_iff.mp he).1

/-- Whether what follows a statement is data. -/
def Statement.opensData (inData : Bool) : Statement → Bool
  | .dataMark => true
  | _ => inData

/-- What trimmed lines say, one after the other. -/
inductive Says : Bool → List (List Char) → List Statement → Prop where
  | nil {inData} : Says inData [] []
  | cons {inData text texts s ss} (first : Reading inData text s)
    (rest : Says (s.opensData inData) texts ss) : Says inData (text :: texts) (s :: ss)

/-! ### What statements determine -/

/-- How many bytes of the image a statement makes. -/
def Statement.size : Statement → Nat
  | .code op args => (Instruction.bytes ⟨op, args.map Argument.blank⟩).length
  | .bytes chunk => chunk.length
  | _ => 0

/-- How many bytes of the image statements make. -/
def extent : List Statement → Nat
  | [] => 0
  | s :: ss => s.size + extent ss

/-- The labels that statements define, with their positions, if they begin at a position. -/
def labelsFrom : Nat → List Statement → List (String × Nat)
  | _, [] => []
  | p, .label name :: ss => (name, p) :: labelsFrom p ss
  | p, s :: ss => labelsFrom (p + s.size) ss

/-- The position of the first mark among statements that begin at a position. -/
def markFrom : Nat → List Statement → Option Nat
  | _, [] => none
  | p, .dataMark :: _ => some p
  | p, s :: ss => markFrom (p + s.size) ss

/-- The piece of the image that a statement on a line makes. -/
def Statement.piece? (line : Line) : Statement → Option Piece
  | .code op args => some (.code line op args)
  | .bytes chunk => some (.data chunk)
  | _ => none

/-- The pieces that statements on lines make. -/
def piecesOf (lines : List Line) (ss : List Statement) : List Piece :=
  (lines.zip ss).filterMap fun (line, s) => s.piece? line

/-- The cells of the pieces that statements on lines make. -/
def cellsOf (lines : List Line) (ss : List Statement) : List Cell := (piecesOf lines ss).flatMap Piece.cells

theorem cellsOf_cons (line : Line) (s : Statement) (lines : List Line) (ss : List Statement) :
    cellsOf (line :: lines) (s :: ss) = cellsOf [line] [s] ++ cellsOf lines ss := by
  cases s <;> simp [cellsOf, piecesOf, Statement.piece?]

/-- A statement makes as many bytes while lines are read as it does in the end. -/
theorem length_blank_cellsOf (line : Line) (s : Statement) :
    ((cellsOf [line] [s]).flatMap Cell.blank).length = s.size := by
  cases s with
  | code op args =>
    have hcells : cellsOf [line] [.code op args] = codeCells line op args := List.flatMap_singleton ..
    rw [hcells, blank_codeCells, Statement.size]
  | bytes chunk => exact congrArg List.length (List.append_nil chunk)
  | _ => rfl

/-- A draft with statements on lines added. -/
def Draft.extend (d : Draft) (lines : List Line) (ss : List Statement) : Draft where
  image := d.image ++ (cellsOf lines ss).flatMap Cell.blank
  labels := (labelsFrom d.image.size ss).reverse ++ d.labels
  fixups := d.fixups ++ Cell.fixups d.image.size (cellsOf lines ss)
  dataOffset := d.dataOffset.or (markFrom d.image.size ss)

namespace Draft

theorem extend_nil (d : Draft) : d.extend [] [] = d := by
  simp [extend, labelsFrom, markFrom, cellsOf, piecesOf, Cell.fixups]

theorem size_extend (d : Draft) (line : Line) (s : Statement) :
    (d.extend [line] [s]).image.size = d.image.size + s.size := by
  rw [← length_blank_cellsOf line s, extend, ← Array.length_toList, Array.toList_appendList, List.length_append,
    Array.length_toList]

theorem extend_cons (d : Draft) (line : Line) (s : Statement) (lines : List Line) (ss : List Statement) :
    (d.extend [line] [s]).extend lines ss = d.extend (line :: lines) (s :: ss) := by
  have himage : (d.extend [line] [s]).image ++ (cellsOf lines ss).flatMap Cell.blank =
      d.image ++ (cellsOf (line :: lines) (s :: ss)).flatMap Cell.blank := by
    rw [cellsOf_cons, List.flatMap_append, ← Array.toList_inj]
    simp only [extend, Array.toList_appendList, List.append_assoc]
  have hfixups : (d.extend [line] [s]).fixups ++ Cell.fixups (d.image.size + s.size) (cellsOf lines ss) =
      d.fixups ++ Cell.fixups d.image.size (cellsOf (line :: lines) (s :: ss)) := by
    rw [cellsOf_cons, Cell.fixups_append, length_blank_cellsOf, ← Array.toList_inj]
    simp only [extend, Array.toList_appendList, List.append_assoc]
  rw [extend, himage, size_extend, hfixups, extend]
  cases s <;> simp [extend, labelsFrom, markFrom, Statement.size]

/-- An instruction that is read leaves words open where the fixups of its cells are. -/
theorem code_eq_extend {inData : Bool} {text : List Char} {op : Opcode} {args : List Argument}
    (hs : Reading inData text (.code op args)) (d : Draft) (line : Line) :
    d.code line op args = d.extend [line] [.code op args] := by
  have hfits := hs.fitAll
  have hcells : cellsOf [line] [.code op args] = codeCells line op args := List.flatMap_singleton ..
  rw [code, extend, hcells, blank_codeCells, pending_eq hfits]
  simp [labelsFrom, markFrom]

/-- A statement can be added unless it defines a label that is there already. -/
theorem add_eq_ok_iff {d d' : Draft} {inData : Bool} {line : Line} {s : Statement}
    (hs : Reading inData line.text s) :
    d.add line s = .ok d' ↔
      (∀ name, s = .label name → d.position? name = none) ∧ d' = d.extend [line] [s] := by
  cases s with
  | blank =>
    have hsame : d.extend [line] [.blank] = d := by
      simp [extend, labelsFrom, markFrom, cellsOf, piecesOf, Statement.piece?, Cell.fixups]
    simp [add, hsame, eq_comm]
  | label name =>
    cases hposition : d.position? name with
    | none =>
      simp [add, hposition, extend, labelsFrom, markFrom, cellsOf, piecesOf, Statement.piece?, Cell.fixups,
        eq_comm]
    | some p => simp [add, hposition]
  | dataMark =>
    cases hmark : d.dataOffset <;>
      simp [add, hmark, extend, labelsFrom, markFrom, cellsOf, piecesOf, Statement.piece?, Cell.fixups, eq_comm]
  | bytes chunk =>
    simp [add, extend, labelsFrom, markFrom, cellsOf, piecesOf, Statement.piece?, Piece.cells, Cell.blank,
      Cell.fixups, eq_comm]
  | code op args => simp [add, code_eq_extend hs, eq_comm]

theorem read_eq_ok_iff {d d' : Draft} {line : Line} :
    d.read line = .ok d' ↔
      ∃ s, Reading d.dataOffset.isSome line.text s ∧ d.add line s = .ok d' := by
  unfold read
  constructor
  · intro h
    split at h
    · next s hs => exact ⟨s, Source.read_eq_ok_iff.mp hs, h⟩
    · cases h
  · rintro ⟨s, hs, h⟩
    rw [Source.read_eq_ok_iff.mpr hs]
    exact h

theorem isSome_dataOffset_extend (d : Draft) (line : Line) (s : Statement) :
    (d.extend [line] [s]).dataOffset.isSome = s.opensData d.dataOffset.isSome := by
  cases s <;> simp [extend, markFrom, Statement.opensData]

theorem position?_eq_none_iff {d : Draft} {name : String} :
    d.position? name = none ↔ name ∉ d.labels.map Prod.fst := by
  rw [position?, List.lookup_eq_none_iff]
  constructor
  · intro h hmem
    obtain ⟨entry, hentry, rfl⟩ := List.mem_map.mp hmem
    simpa using h entry hentry
  · intro h entry hentry
    rw [bne_iff_ne]
    rintro rfl
    exact h (List.mem_map_of_mem hentry)

/-- A label can be added if the labels stay distinct. -/
theorem fresh_iff {d : Draft} {line : Line} {s : Statement} (hd : (d.labels.map Prod.fst).Nodup) :
    (∀ name, s = .label name → d.position? name = none) ↔
      ((d.extend [line] [s]).labels.map Prod.fst).Nodup := by
  cases s with
  | label name => simp [position?_eq_none_iff, extend, labelsFrom, hd]
  | _ => simpa [extend, labelsFrom] using hd

theorem nodup_of_extend {d : Draft} {lines : List Line} {ss : List Statement}
    (h : ((d.extend lines ss).labels.map Prod.fst).Nodup) : (d.labels.map Prod.fst).Nodup := by
  simp only [extend, List.map_append] at h
  exact (List.nodup_append.mp h).2.1

/-- **Lines are read into a draft** exactly if they say statements that define each label
once, and then the draft is extended by these. -/
theorem foldlM_read_eq_ok_iff {lines : List Line} {d d' : Draft} (hd : (d.labels.map Prod.fst).Nodup) :
    lines.foldlM read d = .ok d' ↔
      ∃ ss, Says d.dataOffset.isSome (lines.map Line.text) ss ∧ d' = d.extend lines ss ∧
        (d'.labels.map Prod.fst).Nodup := by
  induction lines generalizing d with
  | nil =>
    rw [List.foldlM_nil, pure_eq_ok_iff]
    constructor
    · rintro rfl
      exact ⟨[], .nil, (extend_nil d).symm, hd⟩
    · rintro ⟨ss, hss, rfl, -⟩
      cases hss
      exact (extend_nil d).symm
  | cons line lines ih =>
    rw [List.foldlM_cons, bind_eq_ok_iff]
    constructor
    · rintro ⟨d₁, hline, hlines⟩
      obtain ⟨s, hs, hadd⟩ := read_eq_ok_iff.mp hline
      obtain ⟨hfresh, rfl⟩ := (add_eq_ok_iff hs).mp hadd
      obtain ⟨ss, hss, rfl, hnodup⟩ := (ih ((fresh_iff hd).mp hfresh)).mp hlines
      rw [isSome_dataOffset_extend] at hss
      exact ⟨s :: ss, .cons hs hss, extend_cons d line s lines ss, hnodup⟩
    · rintro ⟨_, hss, rfl, hnodup⟩
      cases hss with
      | @cons _ _ _ s ss hs hss =>
        have hsplit := extend_cons d line s lines ss
        have hd₁ := nodup_of_extend (hsplit ▸ hnodup)
        refine ⟨d.extend [line] [s], ?_, (ih hd₁).mpr ⟨ss, ?_, hsplit.symm, hnodup⟩⟩
        · exact read_eq_ok_iff.mpr ⟨s, hs, (add_eq_ok_iff hs).mpr ⟨(fresh_iff hd).mpr hd₁, rfl⟩⟩
        · rwa [isSome_dataOffset_extend]

end Draft

/-! ### Code and data -/

/-- The instructions among statements, with their arguments. -/
def codeOf (ss : List Statement) : List (Opcode × List Argument) :=
  ss.filterMap fun
    | .code op args => some (op, args)
    | _ => none

/-- The data among statements. -/
def dataOf (ss : List Statement) : List (List UInt8) :=
  ss.filterMap fun
    | .bytes chunk => some chunk
    | _ => none

theorem codeOf_cons_code (op : Opcode) (args : List Argument) (ss : List Statement) :
    codeOf (.code op args :: ss) = (op, args) :: codeOf ss := rfl

theorem dataOf_cons_bytes (chunk : List UInt8) (ss : List Statement) :
    dataOf (.bytes chunk :: ss) = chunk :: dataOf ss := rfl

theorem codeOf_append (above below : List Statement) : codeOf (above ++ below) = codeOf above ++ codeOf below :=
  List.filterMap_append

theorem dataOf_append (above below : List Statement) : dataOf (above ++ below) = dataOf above ++ dataOf below :=
  List.filterMap_append

/-- An opcode with arguments becomes an instruction when the positions of the labels are
known. -/
structure Resolved (position? : String → Option Nat) (code : Opcode × List Argument) (i : Instruction) :
    Prop where
  opcode : code.1 = i.opcode
  operands : code.2.mapM (Argument.resolve position?) = .ok i.operands

theorem Resolved.mono {position? other : String → Option Nat} {code : Opcode × List Argument} {i : Instruction}
    (h : ∀ name p, position? name = some p → other name = some p) (hi : Resolved position? code i) :
    Resolved other code i := by
  refine ⟨hi.opcode, mapM_eq_ok_iff.mpr ?_⟩
  exact (mapM_eq_ok_iff.mp hi.operands).imp fun _ _ => Argument.resolve_mono h

theorem Resolved.length_eq {position? : String → Option Nat} {op : Opcode} {args : List Argument}
    {i : Instruction} (h : Resolved position? (op, args) i) :
    (Instruction.bytes ⟨op, args.map Argument.blank⟩).length = i.bytes.length := by
  obtain ⟨rfl, hos⟩ := h
  exact Operand.Similar.length_instruction (similar_of_mapM_resolve hos) i.opcode

section Parts

variable {position? : String → Option Nat} {texts : List (List Char)} {ss : List Statement}

/-- After the mark there is no code. -/
theorem Says.codeOf_eq_nil (h : Says true texts ss) : codeOf ss = [] := by
  generalize hinData : true = inData at h
  induction h with
  | nil => rfl
  | cons first _ ih =>
    subst hinData
    cases first <;> exact ih rfl

/-- Statements make as many bytes as their instructions and their data have. -/
theorem extent_of_resolved {is : List Instruction} (his : List.Forall₂ (Resolved position?) (codeOf ss) is) :
    extent ss = (is.flatMap Instruction.bytes).length + (dataOf ss).flatten.length := by
  induction ss generalizing is with
  | nil =>
    cases his
    rfl
  | cons s ss ih =>
    cases s with
    | code op args =>
      rw [codeOf_cons_code] at his
      obtain ⟨i, is', hi, his', rfl⟩ := List.forall₂_cons_left_iff.mp his
      have hrest := ih his'
      have hsize := hi.length_eq
      simp only [extent, Statement.size, List.flatMap_cons, List.length_append]
      change _ = _ + (dataOf ss).flatten.length
      omega
    | bytes chunk =>
      have hrest := ih his
      simp only [extent, Statement.size, dataOf_cons_bytes, List.flatten_cons, List.length_append]
      omega
    | _ => exact (Nat.zero_add _).trans (ih his)

/-- The data begins behind the code. -/
theorem Says.mark_eq (h : Says false texts ss) {is : List Instruction}
    (his : List.Forall₂ (Resolved position?) (codeOf ss) is) (p : Nat) :
    (markFrom p ss).getD (p + extent ss) = p + (is.flatMap Instruction.bytes).length := by
  generalize hinData : false = inData at h
  induction h generalizing is p with
  | nil =>
    cases his
    rfl
  | cons first rest ih =>
    subst hinData
    cases first with
    | @code _ op args =>
      rw [codeOf_cons_code] at his
      obtain ⟨i, is', hi, his', rfl⟩ := List.forall₂_cons_left_iff.mp his
      have hrest := ih his' (p + i.bytes.length) rfl
      simp only [markFrom, extent, Statement.size, hi.length_eq, List.flatMap_cons, List.length_append]
      rw [← Nat.add_assoc, hrest, Nat.add_assoc]
    | mark =>
      have hnone : codeOf (.dataMark :: _) = [] := rest.codeOf_eq_nil
      rw [hnone] at his
      cases his
      rfl
    | silent => simpa [markFrom, extent, Statement.size] using ih his p rfl
    | label name => simpa [markFrom, extent, Statement.size] using ih his p rfl

theorem bytes_code_eq_ok_iff {line : Line} {op : Opcode} {args : List Argument} {part : List UInt8} :
    Piece.bytes position? (.code line op args) = .ok part ↔
      ∃ i, Resolved position? (op, args) i ∧ part = i.bytes := by
  simp only [Piece.bytes]
  constructor
  · intro h
    split at h
    · next os hos =>
      cases h
      exact ⟨⟨op, os⟩, ⟨rfl, hos⟩, rfl⟩
    · cases h
  · rintro ⟨i, ⟨rfl, hos⟩, rfl⟩
    simp only [hos]

/-- The pieces of the image are the instructions and then the data. -/
theorem Says.parts_iff {inData : Bool} (h : Says inData texts ss) {lines : List Line}
    (hlines : lines.map Line.text = texts) {bytes : List UInt8} :
    (∃ parts, (piecesOf lines ss).mapM (Piece.bytes position?) = .ok parts ∧ parts.flatten = bytes) ↔
      ∃ is, List.Forall₂ (Resolved position?) (codeOf ss) is ∧
        bytes = is.flatMap Instruction.bytes ++ (dataOf ss).flatten := by
  simp only [mapM_eq_ok_iff]
  induction h generalizing lines bytes with
  | nil => simp [piecesOf, codeOf, dataOf, eq_comm]
  | @cons inData text texts s ss first rest ih =>
    obtain ⟨line, lines', rfl, -, hlines'⟩ := List.map_eq_cons_iff.mp hlines
    have ih := fun bytes => @ih lines' hlines' bytes
    cases first with
    | silent => exact ih bytes
    | label => exact ih bytes
    | mark => exact ih bytes
    | @code _ op args =>
      have hpieces : piecesOf (line :: lines') (.code op args :: ss) =
          .code line op args :: piecesOf lines' ss := rfl
      rw [hpieces, codeOf_cons_code]
      constructor
      · rintro ⟨parts, hparts, rfl⟩
        obtain ⟨part, parts', hpart, hparts', rfl⟩ := List.forall₂_cons_left_iff.mp hparts
        obtain ⟨i, hi, rfl⟩ := bytes_code_eq_ok_iff.mp hpart
        obtain ⟨is, his, hbytes⟩ := (ih _).mp ⟨parts', hparts', rfl⟩
        refine ⟨i :: is, .cons hi his, ?_⟩
        rw [List.flatten_cons, hbytes, List.flatMap_cons, List.append_assoc]
        rfl
      · rintro ⟨is, his, rfl⟩
        obtain ⟨i, is', hi, his', rfl⟩ := List.forall₂_cons_left_iff.mp his
        obtain ⟨parts, hparts, hbytes⟩ := (ih _).mpr ⟨is', his', rfl⟩
        refine ⟨i.bytes :: parts, .cons (bytes_code_eq_ok_iff.mpr ⟨i, hi, rfl⟩) hparts, ?_⟩
        rw [List.flatten_cons, hbytes, List.flatMap_cons, List.append_assoc]
        rfl
    | @data _ chunk =>
      have hpieces : piecesOf (line :: lines') (.bytes chunk :: ss) =
          .data chunk :: piecesOf lines' ss := rfl
      have hnone : codeOf (.bytes chunk :: ss) = [] := rest.codeOf_eq_nil
      have hnone' : codeOf ss = [] := hnone
      simp only [hnone', List.forall₂_nil_left_iff] at ih
      simp only [hpieces, hnone, dataOf_cons_bytes, List.forall₂_nil_left_iff]
      constructor
      · rintro ⟨parts, hparts, rfl⟩
        obtain ⟨part, parts', hpart, hparts', rfl⟩ := List.forall₂_cons_left_iff.mp hparts
        cases hpart
        obtain ⟨_, rfl, hbytes⟩ := (ih _).mp ⟨parts', hparts', rfl⟩
        exact ⟨[], rfl, by rw [List.flatten_cons, hbytes]; rfl⟩
      · rintro ⟨_, rfl, rfl⟩
        obtain ⟨parts, hparts, hbytes⟩ := (ih _).mpr ⟨[], rfl, rfl⟩
        exact ⟨chunk :: parts, .cons rfl hparts, by rw [List.flatten_cons, hbytes]; rfl⟩

end Parts

/-! ### The image -/

/-- The position of a label that statements define. -/
def positionOf (ss : List Statement) (name : String) : Option Nat :=
  (labelsFrom Image.headerSize ss).reverse.lookup name

/-- Where each label is defined once, its position is that of its definition. -/
theorem positionOf_eq_some_iff {ss : List Statement} (h : ((labelsFrom Image.headerSize ss).map Prod.fst).Nodup)
    {name : String} {p : Nat} : positionOf ss name = some p ↔ (name, p) ∈ labelsFrom Image.headerSize ss := by
  rw [positionOf, List.lookup_eq_some_iff, ← List.mem_reverse]
  constructor
  · rintro ⟨later, earlier, heq, -⟩
    rw [heq]
    exact List.mem_append_right _ List.mem_cons_self
  · intro hmem
    obtain ⟨later, earlier, heq⟩ := List.append_of_mem hmem
    refine ⟨later, earlier, heq, fun entry hentry => ?_⟩
    rw [← (List.reverse_perm _).nodup_iff, ← List.map_reverse, heq, List.map_append, List.map_cons] at h
    have hdisjoint := (List.nodup_append.mp h).2.2 entry.1 (List.mem_map_of_mem hentry) name List.mem_cons_self
    exact bne_iff_ne.mpr hdisjoint.symm

/-- The image with some code and some data, behind the header that goes with them. -/
def imageOf (code data : List UInt8) : Image :=
  ⟨Word.natBytes (Image.headerSize + code.length) ++ code ++ data, Image.headerSize + code.length⟩

/-- Trimmed lines with their numbers, of which the first is given. -/
def Line.numbered : Nat → List (List Char) → List Line
  | _, [] => []
  | k, text :: texts => ⟨k, text⟩ :: numbered (k + 1) texts

theorem Line.map_text_numbered (k : Nat) (texts : List (List Char)) : (numbered k texts).map text = texts := by
  induction texts generalizing k with
  | nil => rfl
  | cons text texts ih => rw [numbered, List.map_cons, ih]

theorem Line.length_numbered (k : Nat) (texts : List (List Char)) : (numbered k texts).length = texts.length := by
  rw [← List.length_map text, map_text_numbered]

theorem Line.numbered_append (k : Nat) (above below : List (List Char)) :
    numbered k (above ++ below) = numbered k above ++ numbered (k + above.length) below := by
  induction above generalizing k with
  | nil => rfl
  | cons text above ih =>
    rw [List.cons_append, numbered, ih, numbered, List.cons_append, List.length_cons, Nat.add_assoc k 1,
      Nat.add_comm 1]

/-- A line has as its number how many lines stand above it. -/
theorem Line.of_numbered_eq_append {k : Nat} {texts : List (List Char)} {above below : List Line} {line : Line}
    (h : numbered k texts = above ++ line :: below) :
    texts = above.map text ++ line.text :: below.map text ∧ line.number = k + above.length := by
  have htexts : texts = above.map text ++ line.text :: below.map text := by
    rw [← map_text_numbered k texts, h, List.map_append, List.map_cons]
  refine ⟨htexts, ?_⟩
  rw [htexts, numbered_append] at h
  have hlength : (numbered k (above.map text)).length = above.length := by
    rw [length_numbered, List.length_map]
  have hline := (List.append_inj h hlength).2
  rw [numbered] at hline
  rw [← (List.cons.inj hline).1, List.length_map]

theorem ofSource_eq_numbered (source : String) : Line.ofSource source = Line.numbered 1 (texts source) := by
  rw [Line.ofSource, texts]
  generalize 1 = k
  generalize Text.lines source.toList = rows
  induction rows generalizing k with
  | nil => rfl
  | cons row rows ih =>
    rw [List.zipIdx_cons, List.map_cons, ih, List.map_cons, Line.numbered]

theorem map_text_ofSource (source : String) : (Line.ofSource source).map Line.text = texts source := by
  rw [ofSource_eq_numbered, Line.map_text_numbered]

/-- The data begins behind the code also if the mark `.data` is missing. -/
theorem Says.dataOffset_eq {texts : List (List Char)} {ss : List Statement} (h : Says false texts ss)
    {position? : String → Option Nat} {is : List Instruction}
    (his : List.Forall₂ (Resolved position?) (codeOf ss) is) :
    (markFrom Image.headerSize ss).getD
        (Image.headerSize + (is.flatMap Instruction.bytes ++ (dataOf ss).flatten).length) =
      Image.headerSize + (is.flatMap Instruction.bytes).length := by
  rw [List.length_append, ← extent_of_resolved his]
  exact h.mark_eq his Image.headerSize

theorem position?_extend (lines : List Line) (ss : List Statement) :
    (Draft.extend {} lines ss).position? = positionOf ss := by
  funext name
  rw [Draft.position?, Draft.extend, List.append_nil, Array.size_replicate, positionOf]

theorem fixups_extend (lines : List Line) (ss : List Statement) :
    (Draft.extend {} lines ss).fixups.toList = Cell.fixups Image.headerSize (cellsOf lines ss) := by
  rw [Draft.extend, Array.toList_appendList, Array.size_replicate]
  rfl

theorem image_extend (lines : List Line) (ss : List Statement) :
    (Draft.extend {} lines ss).image.toList =
      List.replicate Image.headerSize 0 ++ (cellsOf lines ss).flatMap Cell.blank := by
  rw [Draft.extend, Array.toList_appendList, Array.toList_replicate]

/-- The image of the draft that statements make: their cells, filled in with the positions of the labels,
behind a header that says where the data begins. -/
theorem finish_extend_cells (lines : List Line) (ss : List Statement) :
    (Draft.extend {} lines ss).finish = do
      let body ← Cell.fillAll (positionOf ss) (cellsOf lines ss)
      let dataOffset := (markFrom Image.headerSize ss).getD (Image.headerSize + body.length)
      return ⟨Word.natBytes dataOffset ++ body, dataOffset⟩ := by
  have hmark : (Draft.extend {} lines ss).dataOffset = markFrom Image.headerSize ss := by
    rw [Draft.extend, Array.size_replicate, Option.none_or]
  have hfilled := @Cell.foldlM_fill_behind (positionOf ss) (cellsOf lines ss) (List.replicate Image.headerSize 0)
  rw [List.length_replicate] at hfilled
  rw [Draft.finish, position?_extend, image_extend, fixups_extend, hmark, hfilled]
  cases Cell.fillAll (positionOf ss) (cellsOf lines ss) with
  | error e => rfl
  | ok body =>
    have hlength : (List.replicate Image.headerSize (0 : UInt8) ++ body).length =
        Image.headerSize + body.length := by
      rw [List.length_append, List.length_replicate]
    have hheader : ∀ w, Word.patch (List.replicate Image.headerSize 0 ++ body) 0 w = Word.bytes w ++ body :=
      fun w => Word.patch_append [] body (List.length_replicate ..) w
    simp only [Except.map, bind, Except.bind, hlength, hheader, Word.bytes_ofNat]

/-- So it is the pieces that the statements make, behind that header. -/
theorem finish_extend (lines : List Line) (ss : List Statement) :
    (Draft.extend {} lines ss).finish = do
      let parts ← (piecesOf lines ss).mapM (Piece.bytes (positionOf ss))
      let dataOffset := (markFrom Image.headerSize ss).getD (Image.headerSize + parts.flatten.length)
      return ⟨Word.natBytes dataOffset ++ parts.flatten, dataOffset⟩ := by
  rw [finish_extend_cells, cellsOf, Piece.fillAll_flatMap_cells]
  cases (piecesOf lines ss).mapM (Piece.bytes (positionOf ss)) <;> rfl

/-- **A source is assembled** exactly if its lines can be read, each label is defined once,
and the instructions can be resolved. The image is the code and then the data. -/
theorem assemble_eq_ok_iff {source : String} {img : Image} :
    assemble source = .ok img ↔
      ∃ ss is, Says false (texts source) ss ∧ ((labelsFrom Image.headerSize ss).map Prod.fst).Nodup ∧
        List.Forall₂ (Resolved (positionOf ss)) (codeOf ss) is ∧
          img = imageOf (is.flatMap Instruction.bytes) (dataOf ss).flatten := by
  have hdraft : ∀ d, Draft.ofSource source = .ok d ↔
      ∃ ss, Says false (texts source) ss ∧ d = Draft.extend {} (Line.ofSource source) ss ∧
        (d.labels.map Prod.fst).Nodup := by
    intro d
    rw [← map_text_ofSource]
    exact Draft.foldlM_read_eq_ok_iff List.nodup_nil
  have hnodup : ∀ ss, ((Draft.extend {} (Line.ofSource source) ss).labels.map Prod.fst).Nodup ↔
      ((labelsFrom Image.headerSize ss).map Prod.fst).Nodup := by
    intro ss
    simp only [Draft.extend, List.append_nil, List.map_reverse]
    exact (List.reverse_perm _).nodup_iff
  rw [assemble, bind_eq_ok_iff]
  constructor
  · rintro ⟨d, hd, hfinish⟩
    obtain ⟨ss, hss, rfl, hlabels⟩ := (hdraft d).mp hd
    rw [finish_extend, bind_eq_ok_iff] at hfinish
    obtain ⟨parts, hparts, himg⟩ := hfinish
    obtain ⟨is, his, hbytes⟩ := (hss.parts_iff (map_text_ofSource source)).mp ⟨parts, hparts, rfl⟩
    refine ⟨ss, is, hss, (hnodup ss).mp hlabels, his, ?_⟩
    rw [← pure_eq_ok_iff.mp himg, hbytes, hss.dataOffset_eq his, imageOf, List.append_assoc]
  · rintro ⟨ss, is, hss, hlabels, his, rfl⟩
    obtain ⟨parts, hparts, hbytes⟩ := (hss.parts_iff (map_text_ofSource source)).mpr ⟨is, his, rfl⟩
    refine ⟨_, (hdraft _).mpr ⟨ss, hss, rfl, (hnodup ss).mpr hlabels⟩, ?_⟩
    refine finish_extend _ ss ▸ bind_eq_ok_iff.mpr ⟨parts, hparts, pure_eq_ok_iff.mpr ?_⟩
    rw [hbytes, hss.dataOffset_eq his, imageOf, List.append_assoc]

end StackCode.Source
