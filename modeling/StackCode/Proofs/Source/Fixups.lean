import StackCode.Proofs.Source.Statement
import StackCode.Source.Assembly

/-!
# Fixups

While lines are read, a name in the place of a position leaves a word of zeros in the image, and a fixup
with the site of this word. The site is computed from the place of the name on its line. Here it is proved
that each site is that of the word and of nothing else (`pending_eq`): the image is a row of cells, the
words that wait among them, and the fixups are their offsets. So the fixups are filled in one after the
other without touching each other, the header or any other byte (`foldlM_fill_behind`), and what comes out
is what the instructions have as their encoding when the names are positions from the beginning
(`fillAll_flatMap_cells`).
-/

namespace StackCode

open Result

namespace Source

/-! ### Cells -/

/-- A stretch of an image: bytes, or a word that waits for the position of a label. -/
inductive Cell where
  /-- Bytes. -/
  | bytes (bs : List UInt8)
  /-- A word that waits, and the line on which the label is named. -/
  | label (line : Line) (name : String)

namespace Cell

/-- The bytes of a cell while lines are read. -/
def blank : Cell → List UInt8
  | .bytes bs => bs
  | .label _ _ => Word.bytes 0

/-- The bytes of a cell, given the positions of the labels. -/
def filled (position? : String → Option Nat) : Cell → Except SourceError (List UInt8)
  | .bytes bs => .ok bs
  | .label line name =>
    match position? name with
    | some p => .ok (Word.bytes (Int32.ofNat p))
    | none => .error (line.error (.unknownLabel name))

/-- The bytes of cells, one after the other, given the positions of the labels. -/
def fillAll (position? : String → Option Nat) (cells : List Cell) : Except SourceError (List UInt8) :=
  (cells.mapM (filled position?)).map List.flatten

/-- The fixups of cells, the first of which begins at an offset. -/
def fixups : Nat → List Cell → List Fixup
  | _, [] => []
  | k, .bytes bs :: cells => fixups (k + bs.length) cells
  | k, .label line name :: cells => ⟨k, name, line⟩ :: fixups (k + Word.size) cells

theorem fixups_append (k : Nat) (cells more : List Cell) :
    fixups k (cells ++ more) = fixups k cells ++ fixups (k + (cells.flatMap blank).length) more := by
  induction cells generalizing k with
  | nil => rfl
  | cons cell cells ih =>
    cases cell with
    | bytes bs | label line name =>
      simp only [List.cons_append, fixups, ih, List.flatMap_cons, blank, List.length_append, Word.length_bytes,
        Nat.add_assoc]

variable {position? : String → Option Nat}

/-- A cell has as many bytes while lines are read as it has in the end. -/
theorem length_filled {cell : Cell} {bs : List UInt8} (h : cell.filled position? = .ok bs) :
    bs.length = cell.blank.length := by
  cases cell with
  | bytes bytes =>
    cases h
    rfl
  | label line name =>
    rw [filled] at h
    split at h
    · cases h
      rfl
    · cases h

theorem fillAll_cons (cell : Cell) (cells : List Cell) :
    fillAll position? (cell :: cells) =
      cell.filled position? >>= fun bs => (fillAll position? cells).map (bs ++ ·) := by
  rw [fillAll, List.mapM_cons, fillAll]
  cases cell.filled position? with
  | error e => rfl
  | ok bs => cases cells.mapM (filled position?) <;> rfl

/-- The fixups of cells behind bytes that are done are filled in cell by cell. Each is made in the first
cell that waits, so it cannot touch another. -/
theorem foldlM_fill_behind (cells : List Cell) (done : List UInt8) :
    (fixups done.length cells).foldlM (Draft.fill position?) (done ++ cells.flatMap blank) =
      (fillAll position? cells).map (done ++ ·) := by
  induction cells generalizing done with
  | nil => rfl
  | cons cell cells ih =>
    rw [fillAll_cons, List.flatMap_cons]
    cases cell with
    | bytes bs =>
      have hrest := ih (done ++ bs)
      rw [List.length_append, List.append_assoc] at hrest
      refine hrest.trans ?_
      rw [filled]
      cases fillAll position? cells with
      | error e => rfl
      | ok bs' => exact congrArg Except.ok (List.append_assoc ..)
    | label line name =>
      rw [fixups, List.foldlM_cons, Draft.fill, filled]
      cases position? name with
      | none => rfl
      | some p =>
        have hrest := ih (done ++ Word.bytes (Int32.ofNat p))
        rw [List.length_append, List.append_assoc, Word.length_bytes,
          ← Word.patch_append done (cells.flatMap blank) (Word.length_bytes 0)] at hrest
        refine hrest.trans ?_
        cases fillAll position? cells with
        | error e => rfl
        | ok bs => exact congrArg Except.ok (List.append_assoc ..)

end Cell

/-! ### The cells of an instruction -/

/-- The cell of a target on a line. -/
def Target.cell (line : Line) : Target → Cell
  | .position n => .bytes (Word.bytes n)
  | .label name => .label line name

/-- The cells of an argument on a line. -/
def Argument.cells (line : Line) : Argument → List Cell
  | .int n => [.bytes (Word.bytes n)]
  | .target t => [t.cell line]
  | .text bytes => [.bytes (bytes ++ [0])]
  | .table ts => .bytes (Word.bytes (Int32.ofNat ts.length)) :: ts.map (Target.cell line)

/-- The cells of an instruction on a line. -/
def codeCells (line : Line) (op : Opcode) (args : List Argument) : List Cell :=
  .bytes [op.byte] :: args.flatMap (Argument.cells line)

section Cells

variable {line : Line}

theorem Target.blank_cell (t : Target) : (t.cell line).blank = Word.bytes t.blank := by
  cases t <;> rfl

theorem Argument.blank_cells (a : Argument) : (a.cells line).flatMap Cell.blank = a.blank.bytes := by
  cases a with
  | int n | text bytes => exact List.flatMap_singleton ..
  | target t => exact (List.flatMap_singleton ..).trans t.blank_cell
  | table ts =>
    rw [cells, List.flatMap_cons, List.flatMap_map, blank, Operand.bytes, List.length_map, List.flatMap_map]
    simp only [Target.blank_cell]
    rfl

theorem blank_codeCells (op : Opcode) (args : List Argument) :
    (codeCells line op args).flatMap Cell.blank = Instruction.bytes ⟨op, args.map Argument.blank⟩ := by
  rw [codeCells, List.flatMap_cons, List.flatMap_assoc, Instruction.bytes, List.flatMap_map]
  simp only [Argument.blank_cells]
  rfl

/-! ### Sites -/

/-- A target that waits does so where its cell is. -/
theorem Target.fixups_cell (t : Target) (k : Nat) (more : List Cell) :
    Cell.fixups k (t.cell line :: more) =
      (t.pending k).map line.fixup ++ Cell.fixups (k + Word.size) more := by
  cases t <;> rfl

/-- The positions of a jump table wait one behind the other. -/
theorem fixups_table (start j : Nat) (ts : List Target) :
    Cell.fixups (start + 1 + 4 + 4 * j) (ts.map (Target.cell line)) =
      ((ts.zipIdx j).flatMap fun (t, k) => t.pending (start + 1 + 4 + 4 * k)).map line.fixup := by
  induction ts generalizing j with
  | nil => rfl
  | cons t ts ih =>
    rw [List.map_cons, Target.fixups_cell, List.zipIdx_cons, List.flatMap_cons, List.map_append, ← ih]
    rfl

/-- An operand of this kind takes one word. -/
def IsWord (kind : OperandKind) : Prop := kind = .int ∨ kind = .label

/-- The operands of an opcode are words, or there is only one. So in front of a position there are words
only, and nothing is in front of a jump table. -/
theorem signature_cases (op : Opcode) :
    (∀ kind ∈ op.signature, IsWord kind) ∨ ∃ kind, op.signature = [kind] := by
  cases op <;> simp [Opcode.signature, IsWord]

/-- An argument that is a word is one cell, a word behind it as many words farther. -/
theorem Argument.fixups_word {a : Argument} {kind : OperandKind} (hfits : a.blank.fits kind = true)
    (hword : IsWord kind) (start i : Nat) (more : List Cell) :
    Cell.fixups (start + 1 + 4 * i) (a.cells line ++ more) =
      (a.pending start i).map line.fixup ++ Cell.fixups (start + 1 + 4 * (i + 1)) more := by
  cases a with
  | int n => rfl
  | target t => exact t.fixups_cell _ more
  | text bytes | table ts => rcases hword with rfl | rfl <;> cases hfits

theorem fixups_words {args : List Argument} {kinds : List OperandKind}
    (hfits : Instruction.fitAll (args.map Argument.blank) kinds = true) (hwords : ∀ kind ∈ kinds, IsWord kind)
    (start i : Nat) :
    Cell.fixups (start + 1 + 4 * i) (args.flatMap (Argument.cells line)) =
      ((args.zipIdx i).flatMap fun (a, i) => a.pending start i).map line.fixup := by
  induction args generalizing kinds i with
  | nil => rfl
  | cons a args ih =>
    cases kinds with
    | nil => cases hfits
    | cons kind kinds =>
      obtain ⟨hkind, hkinds⟩ := List.forall_mem_cons.mp hwords
      obtain ⟨hfirst, hrest⟩ := Bool.and_eq_true_iff.mp hfits
      rw [List.flatMap_cons, Argument.fixups_word hfirst hkind, List.zipIdx_cons, List.flatMap_cons,
        List.map_append, ih hrest hkinds]

/-- **Each site is that of the word that waits.** -/
theorem pending_eq {op : Opcode} {args : List Argument}
    (hfits : Instruction.fitAll (args.map Argument.blank) op.signature = true) (start : Nat) :
    (pending start args).map line.fixup = Cell.fixups start (codeCells line op args) := by
  rw [codeCells, Cell.fixups, pending]
  rcases signature_cases op with hwords | ⟨kind, hkind⟩
  · exact (fixups_words hfits hwords start 0).symm
  · rw [hkind] at hfits
    match args with
    | [] | _ :: _ :: _ => simp [Instruction.fitAll] at hfits
    | [a] =>
      rw [List.zipIdx_singleton, List.flatMap_singleton, List.flatMap_singleton]
      cases a with
      | int n | text bytes => rfl
      | target t => cases t <;> rfl
      | table ts => exact (fixups_table start 0 ts).symm

end Cells

/-! ### What is filled in -/

namespace Cell

variable {position? : String → Option Nat}

theorem fillAll_append (cells more : List Cell) :
    fillAll position? (cells ++ more) =
      fillAll position? cells >>= fun bs => (fillAll position? more).map (bs ++ ·) := by
  induction cells with
  | nil =>
    show fillAll position? more = (fillAll position? more).map ([] ++ ·)
    cases fillAll position? more <;> rfl
  | cons cell cells ih =>
    rw [List.cons_append, fillAll_cons, fillAll_cons, ih]
    cases cell.filled position? with
    | error e => rfl
    | ok bs =>
      cases fillAll position? cells with
      | error e => rfl
      | ok bs' =>
        cases fillAll position? more with
        | error e => rfl
        | ok bs'' => exact congrArg Except.ok (List.append_assoc bs bs' bs'').symm

/-- If each of some things has cells that are filled in with what it is resolved to, so have all. -/
theorem fillAll_flatMap {α β ε : Type} {cells : α → List Cell} {resolve : α → Except ε β}
    {bytes : β → List UInt8} {mistake : ε → SourceError}
    (h : ∀ a, fillAll position? (cells a) = ((resolve a).map bytes).mapError mistake) (as : List α) :
    fillAll position? (as.flatMap cells) =
      ((as.mapM resolve).map fun bs => bs.flatMap bytes).mapError mistake := by
  induction as with
  | nil => rfl
  | cons a as ih =>
    rw [List.flatMap_cons, fillAll_append, h, ih, List.mapM_cons]
    cases resolve a with
    | error e => rfl
    | ok b => cases as.mapM resolve <;> rfl

end Cell

section Filled

variable {position? : String → Option Nat}

theorem Target.fillAll_cell (line : Line) (t : Target) :
    Cell.fillAll position? [t.cell line] = ((t.resolve position?).map Word.bytes).mapError line.error := by
  cases t with
  | position n => exact congrArg Except.ok (List.append_nil _)
  | label name =>
    rw [cell, Cell.fillAll_cons, Cell.filled, resolve]
    cases position? name with
    | none => rfl
    | some p => exact congrArg Except.ok (List.append_nil _)

/-- The cells of an argument are filled in with the operand that it stands for. -/
theorem Argument.fillAll_cells (line : Line) (a : Argument) :
    Cell.fillAll position? (a.cells line) = ((a.resolve position?).map Operand.bytes).mapError line.error := by
  cases a with
  | int n | text bytes => exact congrArg Except.ok (List.append_nil _)
  | target t =>
    rw [cells, t.fillAll_cell, resolve]
    cases t.resolve position? <;> rfl
  | table ts =>
    have htargets := Cell.fillAll_flatMap (@Target.fillAll_cell position? line) ts
    rw [← List.map_eq_flatMap] at htargets
    rw [cells, Cell.fillAll_cons, htargets, resolve]
    cases hns : ts.mapM (Target.resolve position?) with
    | error m => rfl
    | ok ns =>
      have hlength : ts.length = ns.length := (mapM_eq_ok_iff.mp hns).length_eq
      rw [hlength]
      rfl

/-- A piece of the image that a line contributes. -/
inductive Piece where
  /-- An instruction, and the line it is from. -/
  | code (line : Line) (op : Opcode) (args : List Argument)
  /-- Bytes of data. -/
  | data (bytes : List UInt8)

/-- The cells of a piece. -/
def Piece.cells : Piece → List Cell
  | .code line op args => codeCells line op args
  | .data bytes => [.bytes bytes]

/-- The bytes of a piece when the names on its line are positions from the beginning. -/
def Piece.bytes (position? : String → Option Nat) : Piece → Except SourceError (List UInt8)
  | .code line op args =>
    match args.mapM (Argument.resolve position?) with
    | .ok operands => .ok (Instruction.bytes ⟨op, operands⟩)
    | .error mistake => .error (line.error mistake)
  | .data bytes => .ok bytes

/-- The cells of a piece are filled in with its bytes. -/
theorem Piece.fillAll_cells (piece : Piece) : Cell.fillAll position? piece.cells = piece.bytes position? := by
  cases piece with
  | data bytes => exact congrArg Except.ok (List.append_nil _)
  | code line op args =>
    rw [cells, codeCells, Cell.fillAll_cons, Cell.fillAll_flatMap (Argument.fillAll_cells line), bytes]
    cases args.mapM (Argument.resolve position?) <;> rfl

/-- **Cells that are filled in give the encoding of the instructions**, as it is when the names in them are
positions from the beginning. -/
theorem Piece.fillAll_flatMap_cells (pieces : List Piece) :
    Cell.fillAll position? (pieces.flatMap cells) = (pieces.mapM (bytes position?)).map List.flatten := by
  have heach : ∀ piece : Piece, Cell.fillAll position? piece.cells =
      ((piece.bytes position?).map id).mapError id := fun piece => by
    rw [piece.fillAll_cells]
    cases piece.bytes position? <;> rfl
  rw [Cell.fillAll_flatMap heach]
  cases pieces.mapM (bytes position?) with
  | error e => rfl
  | ok parts => exact congrArg Except.ok List.flatMap_id

end Filled

/-! ### Words among the bytes -/

namespace Cell

/-- A fixup is that of a cell that waits. -/
theorem exists_of_mem_fixups {k : Nat} {cells : List Cell} {f : Fixup} (h : f ∈ fixups k cells) :
    ∃ before after, cells = before ++ .label f.line f.label :: after ∧
      f.site = k + (before.flatMap blank).length := by
  induction cells generalizing k with
  | nil => cases h
  | cons cell cells ih =>
    have hlater {n : Nat} (hn : cell.blank.length = n) (hf : f ∈ fixups (k + n) cells) :
        ∃ before after, cell :: cells = before ++ .label f.line f.label :: after ∧
          f.site = k + (before.flatMap blank).length := by
      obtain ⟨before, after, rfl, hsite⟩ := ih hf
      refine ⟨cell :: before, after, rfl, ?_⟩
      rw [hsite, List.flatMap_cons, List.length_append, hn, Nat.add_assoc]
    cases cell with
    | bytes bs => exact hlater rfl h
    | label line name =>
      rcases List.mem_cons.mp h with rfl | hf
      · exact ⟨[], cells, rfl, rfl⟩
      · exact hlater rfl hf

/-- A word that waits lies among the bytes of the cells. -/
theorem bounds_of_mem_fixups {k : Nat} {cells : List Cell} {f : Fixup} (h : f ∈ fixups k cells) :
    k ≤ f.site ∧ f.site + Word.size ≤ k + (cells.flatMap blank).length := by
  obtain ⟨before, after, rfl, hsite⟩ := exists_of_mem_fixups h
  rw [List.flatMap_append, List.flatMap_cons, List.length_append, List.length_append, blank, Word.length_bytes]
  omega

/-- Words that wait do not overlap. -/
theorem pairwise_fixups (k : Nat) (cells : List Cell) :
    (fixups k cells).Pairwise fun f g => f.site + Word.size ≤ g.site := by
  induction cells generalizing k with
  | nil => exact .nil
  | cons cell cells ih =>
    cases cell with
    | bytes bs => exact ih _
    | label line name =>
      exact List.pairwise_cons.mpr ⟨fun g hg => (bounds_of_mem_fixups hg).1, ih _⟩

variable {position? : String → Option Nat}

theorem length_fillAll {cells : List Cell} {bs : List UInt8} (h : fillAll position? cells = .ok bs) :
    bs.length = (cells.flatMap blank).length := by
  induction cells generalizing bs with
  | nil =>
    cases h
    rfl
  | cons cell cells ih =>
    rw [fillAll_cons] at h
    obtain ⟨first, hfirst, h⟩ := bind_eq_ok_iff.mp h
    obtain ⟨rest, hrest, rfl⟩ := map_eq_ok_iff.mp h
    rw [List.length_append, ih hrest, List.flatMap_cons, List.length_append, length_filled hfirst]

/-- A word that waits is filled in with the position of its label. -/
theorem filled_at_site {cells : List Cell} {bs : List UInt8} (h : fillAll position? cells = .ok bs) {k : Nat}
    {f : Fixup} (hf : f ∈ fixups k cells) :
    ∃ p before after, position? f.label = some p ∧ bs = before ++ Word.bytes (Int32.ofNat p) ++ after ∧
      f.site = k + before.length := by
  obtain ⟨front, back, rfl, hsite⟩ := exists_of_mem_fixups hf
  rw [fillAll_append] at h
  obtain ⟨before, hbefore, h⟩ := bind_eq_ok_iff.mp h
  obtain ⟨rest, hrest, rfl⟩ := map_eq_ok_iff.mp h
  rw [fillAll_cons] at hrest
  obtain ⟨word, hword, hrest⟩ := bind_eq_ok_iff.mp hrest
  obtain ⟨after, -, rfl⟩ := map_eq_ok_iff.mp hrest
  rw [filled] at hword
  split at hword
  · next p hp =>
    cases hword
    exact ⟨p, before, after, hp, (List.append_assoc ..).symm, by rw [hsite, length_fillAll hbefore]⟩
  · cases hword

/-- A byte of no word that waits stays as it is. -/
theorem getElem?_fillAll {cells : List Cell} {bs : List UInt8} (h : fillAll position? cells = .ok bs) {k j : Nat}
    (hj : ∀ f ∈ fixups k cells, ¬ (f.site ≤ k + j ∧ k + j < f.site + Word.size)) :
    bs[j]? = (cells.flatMap blank)[j]? := by
  induction cells generalizing bs k j with
  | nil =>
    cases h
    rfl
  | cons cell cells ih =>
    rw [fillAll_cons] at h
    obtain ⟨first, hfirst, h⟩ := bind_eq_ok_iff.mp h
    obtain ⟨rest, hrest, rfl⟩ := map_eq_ok_iff.mp h
    have hlength := length_filled hfirst
    rw [List.flatMap_cons, List.getElem?_append, List.getElem?_append, hlength]
    split
    · next hlt =>
      cases cell with
      | bytes bytes =>
        cases hfirst
        rfl
      | label line name => exact absurd ⟨Nat.le_add_right k j, Nat.add_lt_add_left hlt k⟩ (hj _ List.mem_cons_self)
    · next hle =>
      have hk : k + cell.blank.length + (j - cell.blank.length) = k + j := by omega
      refine ih hrest (k := k + cell.blank.length) fun f hf => ?_
      rw [hk]
      refine hj f ?_
      cases cell with
      | bytes bytes => exact hf
      | label line name => exact List.mem_cons_of_mem _ hf

end Cell

end Source

end StackCode
