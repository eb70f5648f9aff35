import StackCode.Proofs.Source.Draft
import StackCode.Proofs.Text.Blank

/-!
# Layout does not matter

Lines that say nothing and blanks at the ends of lines leave no trace but in the numbers of the lines
below them. A source with such lines put in is read in step with the original (`Spread`): a line that
says nothing leaves the draft as it is, and every other one does to the draft what it does in the
original, with another number (`foldlM_read_of_spread`). The numbers are used only where a mistake is
reported, so the images are the same, and the mistakes are but for their numbers (`assemble_of_spread`).
-/

namespace StackCode.Source

open Result

/-- A trimmed line says nothing: it is empty or a comment. -/
def Mute (text : List Char) : Prop := text = [] ∨ text.head? = some '#'

/-! ### Other line numbers -/

variable {φ : Nat → Nat}

/-- A line with another number. -/
def Line.renumber (φ : Nat → Nat) (line : Line) : Line := { line with number := φ line.number }

/-- A mistake on a line with another number. -/
def SourceError.renumber (φ : Nat → Nat) (e : SourceError) : SourceError := { e with line := φ e.line }

/-- A fixup for a line with another number. -/
def Fixup.renumber (φ : Nat → Nat) (f : Fixup) : Fixup := { f with line := f.line.renumber φ }

/-- A draft of lines with other numbers. -/
def Draft.renumber (φ : Nat → Nat) (d : Draft) : Draft := { d with fixups := d.fixups.map (Fixup.renumber φ) }

theorem Line.error_renumber (line : Line) (m : Mistake) :
    (line.renumber φ).error m = (line.error m).renumber φ := rfl

namespace Draft

theorem position?_renumber (d : Draft) : (d.renumber φ).position? = d.position? := rfl

theorem code_renumber (d : Draft) (line : Line) (op : Opcode) (args : List Argument) :
    (d.renumber φ).code (line.renumber φ) op args = (d.code line op args).renumber φ := by
  have hfixups (fs : List Fixup) : (d.fixups ++ fs).map (Fixup.renumber φ) =
      d.fixups.map (Fixup.renumber φ) ++ fs.map (Fixup.renumber φ) := by
    rw [← Array.toList_inj]
    simp
  rw [code, code, renumber, renumber, hfixups, List.map_map]
  rfl

theorem add_renumber (d : Draft) (line : Line) (s : Statement) :
    (d.renumber φ).add (line.renumber φ) s =
      ((d.add line s).map (renumber φ)).mapError (SourceError.renumber φ) := by
  cases s with
  | label name =>
    rw [add, add, position?_renumber, Line.error_renumber]
    split <;> rfl
  | code op args => exact congrArg Except.ok (d.code_renumber line op args)
  | blank | dataMark | bytes chunk => rfl

theorem read_renumber (d : Draft) (line : Line) :
    (d.renumber φ).read (line.renumber φ) =
      ((d.read line).map (renumber φ)).mapError (SourceError.renumber φ) := by
  have hmark : (d.renumber φ).dataOffset = d.dataOffset := rfl
  have htext : (line.renumber φ).text = line.text := rfl
  rw [read, read, hmark, htext]
  cases Statement.read d.dataOffset.isSome line.text with
  | ok s => exact add_renumber d line s
  | error m => rfl

theorem fill_renumber (position? : String → Option Nat) (image : List UInt8) (f : Fixup) :
    fill position? image (f.renumber φ) = (fill position? image f).mapError (SourceError.renumber φ) := by
  have hlabel : (f.renumber φ).label = f.label := rfl
  rw [fill, fill, hlabel]
  cases position? f.label <;> rfl

theorem foldlM_fill_renumber (position? : String → Option Nat) (fixups : List Fixup) (image : List UInt8) :
    (fixups.map (Fixup.renumber φ)).foldlM (fill position?) image =
      (fixups.foldlM (fill position?) image).mapError (SourceError.renumber φ) := by
  induction fixups generalizing image with
  | nil => rfl
  | cons f fixups ih =>
    rw [List.map_cons, List.foldlM_cons, List.foldlM_cons, fill_renumber]
    cases fill position? image f with
    | error e => rfl
    | ok filled => exact ih filled

theorem finish_renumber (d : Draft) : (d.renumber φ).finish = d.finish.mapError (SourceError.renumber φ) := by
  have hfixups : (d.renumber φ).fixups.toList = d.fixups.toList.map (Fixup.renumber φ) := by simp [renumber]
  have himage : (d.renumber φ).image = d.image := rfl
  rw [finish, finish, position?_renumber, hfixups, himage, foldlM_fill_renumber]
  cases d.fixups.toList.foldlM (fill d.position?) d.image.toList <;> rfl

/-- A line that says nothing leaves the draft as it is. -/
theorem read_of_mute {line : Line} (h : Mute line.text) (d : Draft) : d.read line = .ok d :=
  read_eq_ok_iff.mpr ⟨.blank, .silent h, rfl⟩

end Draft

/-! ### Lines spread out -/

/-- Lines are the same but for those that say nothing, and but for their numbers. -/
inductive Spread (φ : Nat → Nat) : List Line → List Line → Prop where
  | nil : Spread φ [] []
  | dropped {line lines lines'} (mute : Mute line.text) (rest : Spread φ lines lines') :
    Spread φ (line :: lines) lines'
  | inserted {line lines lines'} (mute : Mute line.text) (rest : Spread φ lines lines') :
    Spread φ lines (line :: lines')
  | kept {line lines lines'} (rest : Spread φ lines lines') :
    Spread φ (line :: lines) (line.renumber φ :: lines')

/-- **Reading in step**: lines that are spread out lead to the same draft and to the same mistake, with
other numbers. -/
theorem foldlM_read_of_spread {lines lines' : List Line} (h : Spread φ lines lines') (d : Draft) :
    lines'.foldlM Draft.read (d.renumber φ) =
      ((lines.foldlM Draft.read d).map (Draft.renumber φ)).mapError (SourceError.renumber φ) := by
  induction h generalizing d with
  | nil => rfl
  | dropped mute _ ih =>
    rw [List.foldlM_cons, Draft.read_of_mute mute]
    exact ih d
  | inserted mute _ ih =>
    rw [List.foldlM_cons, Draft.read_of_mute mute]
    exact ih d
  | @kept line lines lines' _ ih =>
    rw [List.foldlM_cons, List.foldlM_cons, Draft.read_renumber]
    cases d.read line with
    | error e => rfl
    | ok d' => exact ih d'

/-- A source that is spread out has the same image, or the same mistake on a line with another
number. -/
theorem assemble_of_spread {source changed : String}
    (h : Spread φ (Line.ofSource source) (Line.ofSource changed)) :
    assemble changed = (assemble source).mapError (SourceError.renumber φ) := by
  have hempty : Draft.renumber φ {} = {} := by simp [Draft.renumber]
  have hdraft := foldlM_read_of_spread h {}
  rw [hempty] at hdraft
  rw [assemble, assemble, Draft.ofSource, hdraft, Draft.ofSource]
  cases (Line.ofSource source).foldlM Draft.read {} with
  | error e => rfl
  | ok d => exact d.finish_renumber

/-! ### Sources made of lines -/

/-- A source is made of lines: each is ended by a line feed, with or without a carriage return before
it, and the last one may end with the source. -/
inductive MadeOf : List (List Char) → List Char → Prop where
  | nil : MadeOf [] []
  | last {row} (noLineFeed : '\n' ∉ row) : MadeOf [row] row
  | lineFeed {row rows rest} (noLineFeed : '\n' ∉ row) (more : MadeOf rows rest) :
    MadeOf (row :: rows) (row ++ '\n' :: rest)
  | crLineFeed {row rows rest} (noLineFeed : '\n' ∉ row) (more : MadeOf rows rest) :
    MadeOf (row :: rows) (row ++ '\r' :: '\n' :: rest)

theorem MadeOf.cons_char {c : Char} {row cs : List Char} {rows : List (List Char)} (h : MadeOf (row :: rows) cs)
    (hc : c ≠ '\n') : MadeOf ((c :: row) :: rows) (c :: cs) := by
  have hrow : '\n' ∉ row → '\n' ∉ c :: row := fun h =>
    List.not_mem_cons_of_ne_of_not_mem hc.symm h
  cases h with
  | last noLineFeed => exact .last (hrow noLineFeed)
  | lineFeed noLineFeed more => exact .lineFeed (hrow noLineFeed) more
  | crLineFeed noLineFeed more => exact .crLineFeed (hrow noLineFeed) more

/-- Every source is made of lines. -/
theorem madeOf_lines (cs : List Char) : MadeOf (Text.lines cs) cs := by
  induction cs with
  | nil => exact .last nofun
  | cons c cs ih =>
    by_cases hc : c = '\n'
    · subst hc
      exact .lineFeed nofun ih
    · obtain ⟨more, hmore⟩ := Text.splitWhere_eq_cons (· == '\n') cs
      have hlines : Text.lines (c :: cs) = (c :: _) :: more := Text.splitWhere_cons_of_neg (by simpa using hc) hmore
      rw [hlines]
      rw [Text.lines, hmore] at ih
      exact ih.cons_char hc

/-- The trimmed lines of a source that is made of lines, and maybe an empty one below the last line
feed. -/
theorem MadeOf.map_trim_lines {rows : List (List Char)} {cs : List Char} (h : MadeOf rows cs) :
    ∃ atEnd, (∀ text ∈ atEnd, text = []) ∧ (Text.lines cs).map Text.trim = rows.map Text.trim ++ atEnd := by
  induction h with
  | nil => exact ⟨[[]], List.forall_mem_singleton.mpr rfl, rfl⟩
  | last noLineFeed =>
    refine ⟨[], nofun, ?_⟩
    rw [Text.lines_eq_singleton noLineFeed, List.append_nil]
  | lineFeed noLineFeed _ ih =>
    obtain ⟨atEnd, hend, htexts⟩ := ih
    refine ⟨atEnd, hend, ?_⟩
    rw [Text.lines_cons noLineFeed, List.map_cons, htexts, List.map_cons, List.cons_append]
  | @crLineFeed row rows rest noLineFeed _ ih =>
    obtain ⟨atEnd, hend, htexts⟩ := ih
    refine ⟨atEnd, hend, ?_⟩
    have hreturn : '\n' ∉ row ++ ['\r'] := by simp [noLineFeed]
    have htrim : Text.trim ([] ++ row ++ ['\r']) = Text.trim row :=
      Text.trim_append_append (List.forall_mem_nil _) (List.forall_mem_singleton.mpr (by decide)) row
    rw [List.nil_append] at htrim
    rw [List.append_cons, Text.lines_cons hreturn, List.map_cons, htexts, htrim, List.map_cons,
      List.cons_append]

/-! ### Lines put in and blanks put at the ends -/

/-- A line says nothing: it is blank, or the first character on it that is not blank is `#`. -/
def Silent (row : List Char) : Prop :=
  row.find? (fun c => !Text.isBlank c) = none ∨ row.find? (fun c => !Text.isBlank c) = some '#'

instance (row : List Char) : Decidable (Silent row) := inferInstanceAs (Decidable (_ ∨ _))

theorem Silent.mute {row : List Char} (h : Silent row) : Mute (Text.trim row) := by
  rwa [Silent, ← Text.head?_trim_eq_find?, List.head?_eq_none_iff] at h

/-- A line of a source with what is put around it: lines above it that say nothing, and blanks at its
ends. (They are no line feeds where the new source is made of these lines.) -/
structure Relaid where
  /-- The line as it was. -/
  line : List Char
  /-- The lines that are put in above it. -/
  above : List (List Char) := []
  /-- What is put in front of it. -/
  front : List Char := []
  /-- What is put behind it. -/
  back : List Char := []
  silent : ∀ row ∈ above, Silent row := by decide
  blankFront : front.all Text.isBlank = true := by decide
  blankBack : back.all Text.isBlank = true := by decide

namespace Relaid

/-- The lines that a line becomes. -/
def rows (r : Relaid) : List (List Char) := r.above ++ [r.front ++ r.line ++ r.back]

/-- How many lines are put in above a line, given its number. -/
def insertedAbove (rs : List Relaid) (number : Nat) : Nat := ((rs.take number).flatMap above).length

theorem map_trim_rows (r : Relaid) : r.rows.map Text.trim = r.above.map Text.trim ++ [Text.trim r.line] := by
  rw [rows, List.map_append, List.map_singleton,
    Text.trim_append_append (List.all_eq_true.mp r.blankFront) (List.all_eq_true.mp r.blankBack)]

theorem insertedAbove_cons (r : Relaid) (rs : List Relaid) (number : Nat) :
    insertedAbove (r :: rs) (number + 1) = r.above.length + insertedAbove rs number := by
  rw [insertedAbove, List.take_succ_cons, List.flatMap_cons, List.length_append]
  rfl

end Relaid

section Spread

variable {φ : Nat → Nat}

/-- Lines that say nothing may be put in above others. -/
theorem Spread.insert {lines : List Line} {texts more : List (List Char)}
    (h : ∀ text ∈ texts, Mute text) {k : Nat}
    (hmore : Spread φ lines (Line.numbered (k + texts.length) more)) :
    Spread φ lines (Line.numbered k (texts ++ more)) := by
  induction texts generalizing k with
  | nil => exact hmore
  | cons text texts ih =>
    obtain ⟨htext, htexts⟩ := List.forall_mem_cons.mp h
    refine .inserted htext (ih htexts ?_)
    rwa [List.length_cons, Nat.add_comm texts.length, ← Nat.add_assoc] at hmore

theorem spread_mute {texts texts' : List (List Char)} (h : ∀ text ∈ texts, Mute text)
    (h' : ∀ text ∈ texts', Mute text) (k k' : Nat) :
    Spread φ (Line.numbered k texts) (Line.numbered k' texts') := by
  induction texts generalizing k with
  | nil =>
    rw [← List.append_nil texts']
    exact .insert h' .nil
  | cons text texts ih =>
    obtain ⟨htext, htexts⟩ := List.forall_mem_cons.mp h
    exact .dropped htext (ih htexts (k + 1))

/-- A source with lines put in and blanks put at the ends of its lines is spread out. -/
theorem spread_relaid {rs : List Relaid} {texts texts' : List (List Char)} (h : ∀ text ∈ texts, Mute text)
    (h' : ∀ text ∈ texts', Mute text) {k k' : Nat}
    (hφ : ∀ i < rs.length, φ (k + i) = k' + i + Relaid.insertedAbove rs (i + 1)) :
    Spread φ (Line.numbered k ((rs.map Relaid.line).map Text.trim ++ texts))
      (Line.numbered k' ((rs.flatMap Relaid.rows).map Text.trim ++ texts')) := by
  induction rs generalizing k k' with
  | nil => exact spread_mute h h' k k'
  | cons r rs ih =>
    have hmute : ∀ text ∈ r.above.map Text.trim, Mute text :=
      List.forall_mem_map.mpr fun row hrow => (r.silent row hrow).mute
    have hnumber : φ k = k' + r.above.length := by
      have hfirst := hφ 0 (Nat.zero_lt_succ _)
      rwa [Relaid.insertedAbove_cons] at hfirst
    rw [List.flatMap_cons, List.map_append, Relaid.map_trim_rows, List.append_assoc, List.append_assoc]
    refine .insert hmute ?_
    rw [List.length_map, ← hnumber]
    show Spread φ (⟨k, Text.trim r.line⟩ :: _) (Line.renumber φ ⟨k, Text.trim r.line⟩ :: _)
    refine .kept (ih fun i hi => ?_)
    -- below this line, the numbers are also greater by the lines put in above it
    have hnext := hφ (i + 1) (Nat.succ_lt_succ hi)
    rw [Relaid.insertedAbove_cons] at hnext
    rw [hnumber, Nat.add_assoc k, Nat.add_comm 1 i, hnext]
    omega

end Spread

/-- **The layout of a source does not matter.** In a source that is made of lines, lines that say nothing
are put in above any of the lines and below the last, and blanks at the ends of any lines. Then the image
is the same; and if something is wrong with the source, the same is wrong with the new one, on the same
trimmed line, whose number is greater by how many lines are put in above it. -/
theorem layout_does_not_matter {rs : List Relaid} {atEnd : List (List Char)} {source changed : String}
    (hsource : MadeOf (rs.map Relaid.line) source.toList)
    (hchanged : MadeOf (rs.flatMap Relaid.rows ++ atEnd) changed.toList) (hend : ∀ row ∈ atEnd, Silent row) :
    (∀ img, assemble source = .ok img → assemble changed = .ok img) ∧
    ∀ e, assemble source = .error e →
      assemble changed = .error { e with line := e.line + Relaid.insertedAbove rs e.line } := by
  obtain ⟨blank, hblank, htexts⟩ := hsource.map_trim_lines
  obtain ⟨blank', hblank', htexts'⟩ := hchanged.map_trim_lines
  have hspread : Spread (fun number => number + Relaid.insertedAbove rs number) (Line.ofSource source)
      (Line.ofSource changed) := by
    rw [ofSource_eq_numbered, ofSource_eq_numbered, texts, texts, htexts, htexts', List.map_append,
      List.append_assoc]
    refine spread_relaid (fun text htext => .inl (hblank text htext)) ?_ fun i _ => ?_
    · refine List.forall_mem_append.mpr ⟨List.forall_mem_map.mpr fun row hrow => (hend row hrow).mute, ?_⟩
      exact fun text htext => .inl (hblank' text htext)
    · rw [Nat.add_comm 1 i]
  rw [assemble_of_spread hspread]
  refine ⟨fun img himg => ?_, fun e he => ?_⟩
  · rw [himg]
    rfl
  · rw [he]
    rfl

/-- Two comments and a blank line are put in, the last line feed is left out, and there are blanks around
the lines, a string among them. If the third line is bytes of data, the image is the same. If it is not,
it is the sixth line that is wrong. -/
theorem layout_does_not_matter_bytes :
    let source := fun third => "PUSH_STRING a b\n.data\n" ++ third ++ "\n"
    let changed := fun third => "# a string\n\n\tPUSH_STRING a b \r\n .data\n  # bytes\n" ++ third ++ "\u00A0"
    let img : Image := ⟨[9, 0, 0, 0, 6, 97, 32, 98, 0, 1, 15], 9⟩
    assemble (source "0x1 0xF") = .ok img ∧ assemble (changed "0x1 0xF") = .ok img ∧
      assemble (source "0x1 0xZ") = .error ⟨3, "0x1 0xZ", .invalidHexByte "0xZ"⟩ ∧
        assemble (changed "0x1 0xZ") = .error ⟨6, "0x1 0xZ", .invalidHexByte "0xZ"⟩ := by
  intro source changed img
  let rs : String → List Relaid := fun third =>
    [{ line := "PUSH_STRING a b".toList, above := ["# a string".toList, []], front := ['\t'], back := [' '] },
      { line := ".data".toList, front := [' '] },
      { line := third.toList, above := ["  # bytes".toList], back := ['\u00A0'] }]
  have hsource : ∀ third, '\n' ∉ third.toList → MadeOf ((rs third).map Relaid.line) (source third).toList := by
    intro third hthird
    have hcut : "PUSH_STRING a b\n.data\n".toList = "PUSH_STRING a b".toList ++ '\n' ::
        (".data".toList ++ ['\n']) := by decide +kernel
    simp only [source, String.toList_append, hcut, List.append_assoc, List.cons_append, List.nil_append]
    exact .lineFeed (by decide) (.lineFeed (by decide) (.lineFeed hthird .nil))
  have hchanged : ∀ third, '\n' ∉ third.toList →
      MadeOf ((rs third).flatMap Relaid.rows ++ []) (changed third).toList := by
    intro third hthird
    have hcut : "# a string\n\n\tPUSH_STRING a b \r\n .data\n  # bytes\n".toList = "# a string".toList ++
        '\n' :: ([] ++ '\n' :: ("\tPUSH_STRING a b ".toList ++ '\r' :: '\n' :: (" .data".toList ++
          '\n' :: ("  # bytes".toList ++ ['\n'])))) := by decide +kernel
    have hrows : (rs third).flatMap Relaid.rows ++ [] = ["# a string".toList, [], "\tPUSH_STRING a b ".toList,
        " .data".toList, "  # bytes".toList, third.toList ++ ['\u00A0']] := by
      rfl
    have hlast : '\n' ∉ third.toList ++ ['\u00A0'] := by simp [hthird]
    rw [hrows]
    simp only [changed, String.toList_append, hcut, List.append_assoc, List.cons_append]
    exact .lineFeed (by decide) (.lineFeed (by decide) (.crLineFeed (by decide) (.lineFeed (by decide)
      (.lineFeed (by decide) (.last hlast)))))
  have himg : assemble (source "0x1 0xF") = .ok img := by decide +kernel
  have he : assemble (source "0x1 0xZ") = .error ⟨3, "0x1 0xZ", .invalidHexByte "0xZ"⟩ := by decide +kernel
  have hgood : '\n' ∉ "0x1 0xF".toList := by decide
  have hbad : '\n' ∉ "0x1 0xZ".toList := by decide
  exact ⟨himg, (layout_does_not_matter (hsource _ hgood) (hchanged _ hgood) nofun).1 _ himg, he,
    (layout_does_not_matter (hsource _ hbad) (hchanged _ hbad) nofun).2 _ he⟩

end StackCode.Source
