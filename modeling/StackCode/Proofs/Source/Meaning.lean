import Mathlib.Data.List.TakeWhile
import StackCode.Proofs.Listing.Lines
import StackCode.Proofs.Source.Patches

/-!
# What a source means

The image of a source has a listing, and its lines are the instruction lines of the source:
each is what its line writes, where the name of a label stands for the position of the one
line that defines it. That position follows from the lines above it: it is behind the
header, the instructions and the data that they make (`positionBelow`). The data of the
image is that of the data lines, one after the other.
-/

namespace StackCode.Source

open Result

/-! ### The parts of a source -/

/-- The instruction lines: those above the first mark that are not blank, no comments and no
labels. -/
def codeLines (texts : List (List Char)) : List (List Char) :=
  (texts.takeWhile (· != mark)).filter speaks

/-- The data lines: those below the first mark that are not blank, no comments, no labels
and no marks. -/
def dataLines (texts : List (List Char)) : List (List Char) :=
  (texts.dropWhile (· != mark)).filter speaks

/-- The data that a line makes: bytes in hexadecimal, or the text with a NUL to end it. -/
inductive DataLine : List Char → List UInt8 → Prop where
  | hex {text chunk} (starts : ['0', 'x'] <+: text ∨ ['0', 'X'] <+: text)
    (bytes : List.Forall₂ (fun word b => Text.Hex.readByte? word = some b) (Text.words text) chunk) :
    DataLine text chunk
  | text {text} (starts : ¬ (['0', 'x'] <+: text ∨ ['0', 'X'] <+: text)) :
    DataLine text (Text.Utf8.encodeChars text ++ [0])

/-- The position below some lines of a source, given the instructions and the data that the
source makes: behind the header and what the lines above make of these. -/
def positionBelow (is : List Instruction) (chunks : List (List UInt8)) (above : List (List Char)) : Nat :=
  Image.headerSize + ((is.take (codeLines above).length).flatMap Instruction.bytes).length +
    (chunks.take (dataLines above).length).flatten.length

/-- One line of the source defines a label, no other line does, and the label stands for the
position of that line. -/
def DefinedAt (texts : List (List Char)) (is : List Instruction) (chunks : List (List UInt8))
    (name : String) (n : Int32) : Prop :=
  ∃ above below, texts = above ++ (':' :: name.toList) :: below ∧
    (':' :: name.toList) ∉ above ∧ (':' :: name.toList) ∉ below ∧ n.toInt = positionBelow is chunks above

theorem readByte_eq_ok_iff {word : List Char} {b : UInt8} :
    readByte word = .ok b ↔ Text.Hex.readByte? word = some b := by
  unfold readByte
  cases Text.Hex.readByte? word <;> simp

theorem readData_eq_ok_iff {text : List Char} {chunk : List UInt8} :
    readData text = .ok chunk ↔ DataLine text chunk := by
  have hhex : (Text.words text).mapM readByte = .ok chunk ↔
      List.Forall₂ (fun word b => Text.Hex.readByte? word = some b) (Text.words text) chunk := by
    simp only [mapM_eq_ok_iff, readByte_eq_ok_iff]
  unfold readData
  split
  · rw [hhex]
    constructor
    · exact .hex (.inl ⟨_, rfl⟩)
    · rintro (⟨-, bytes⟩ | hstarts)
      · exact bytes
      · exact absurd (.inl ⟨_, rfl⟩) hstarts
  · rw [hhex]
    constructor
    · exact .hex (.inr ⟨_, rfl⟩)
    · rintro (⟨-, bytes⟩ | hstarts)
      · exact bytes
      · exact absurd (.inr ⟨_, rfl⟩) hstarts
  · next hlower hupper =>
    have hstarts : ¬ (['0', 'x'] <+: text ∨ ['0', 'X'] <+: text) := by
      rintro (⟨rest, rfl⟩ | ⟨rest, rfl⟩)
      · exact hlower rest rfl
      · exact hupper rest rfl
    rw [Except.ok.injEq]
    constructor
    · rintro rfl
      exact .text hstarts
    · rintro (⟨starts, -⟩ | -)
      · exact absurd starts hstarts
      · rfl

/-! ### Lines and statements -/

theorem not_speaks_of_silent {text : List Char} (h : text = [] ∨ text.head? = some '#') :
    speaks text = false := by
  rcases h with rfl | h
  · rfl
  · simp [speaks, h]

theorem ne_mark_of_silent {text : List Char} (h : text = [] ∨ text.head? = some '#') : text ≠ mark := by
  rintro rfl
  simp [mark] at h

theorem codeLines_mark (texts : List (List Char)) : codeLines (mark :: texts) = [] := by
  simp [codeLines]

theorem dataLines_mark (texts : List (List Char)) : dataLines (mark :: texts) = texts.filter speaks := by
  simp [dataLines, speaks]

section Cons

variable {text : List Char} (texts : List (List Char)) (h : text ≠ mark)
include h

theorem codeLines_cons :
    codeLines (text :: texts) = if speaks text then text :: codeLines texts else codeLines texts := by
  simp [codeLines, h, List.filter_cons]

theorem dataLines_cons : dataLines (text :: texts) = dataLines texts := by
  simp [dataLines, h]

end Cons

section Says

variable {texts : List (List Char)} {ss : List Statement}

/-- Below the mark each line that is not silent is data. -/
theorem Says.filter_speaks (h : Says true texts ss) :
    List.Forall₂ DataLine (texts.filter speaks) (dataOf ss) := by
  generalize hinData : true = inData at h
  induction h with
  | nil => exact .nil
  | cons first rest ih =>
    subst hinData
    cases first with
    | silent hsilent =>
      rw [List.filter_cons_of_neg (by simp [not_speaks_of_silent hsilent])]
      exact ih rfl
    | label name => exact ih rfl
    | mark => exact ih rfl
    | data hspeaks hread =>
      rw [List.filter_cons_of_pos hspeaks]
      exact .cons (readData_eq_ok_iff.mp hread) (ih rfl)

/-- The instruction lines are read as the instructions, and the data lines as the data. -/
theorem Says.lines (h : Says false texts ss) :
    List.Forall₂ (fun text code => readCode text = .ok (.code code.1 code.2)) (codeLines texts) (codeOf ss) ∧
      List.Forall₂ DataLine (dataLines texts) (dataOf ss) := by
  generalize hinData : false = inData at h
  induction h with
  | nil => exact ⟨.nil, .nil⟩
  | cons first rest ih =>
    subst hinData
    cases first with
    | silent hsilent =>
      have hspeaks := not_speaks_of_silent hsilent
      have hmark := ne_mark_of_silent hsilent
      rw [codeLines_cons _ hmark, dataLines_cons _ hmark, hspeaks]
      exact ih rfl
    | label name =>
      have hmark : ':' :: name ≠ mark := by simp [mark]
      rw [codeLines_cons _ hmark, dataLines_cons _ hmark]
      exact ih rfl
    | mark =>
      have hnone : codeOf (.dataMark :: _) = [] := rest.codeOf_eq_nil
      rw [codeLines_mark, dataLines_mark, hnone]
      exact ⟨.nil, rest.filter_speaks⟩
    | code hspeaks hread =>
      have hmark := (speaks_iff.mp hspeaks).2.2.2
      rw [codeLines_cons _ hmark, dataLines_cons _ hmark, if_pos hspeaks]
      exact ⟨.cons hread (ih rfl).1, (ih rfl).2⟩

end Says

/-! ### Labels -/

theorem labelsFrom_append (p : Nat) (above below : List Statement) :
    labelsFrom p (above ++ below) = labelsFrom p above ++ labelsFrom (p + extent above) below := by
  induction above generalizing p with
  | nil => rfl
  | cons s above ih => cases s <;> simp [labelsFrom, extent, ih, Nat.add_assoc, Statement.size]

/-- A label stands at the position where the statements above it end. -/
theorem exists_of_mem_labelsFrom {p q : Nat} {name : String} {ss : List Statement}
    (h : (name, q) ∈ labelsFrom p ss) :
    ∃ above below, ss = above ++ .label name :: below ∧ q = p + extent above := by
  induction ss generalizing p with
  | nil => cases h
  | cons s ss ih =>
    -- every other statement moves the label by its own size
    have hskip : (name, q) ∈ labelsFrom (p + s.size) ss →
        ∃ above below, s :: ss = above ++ .label name :: below ∧ q = p + extent above := by
      intro h
      obtain ⟨above, below, rfl, rfl⟩ := ih h
      exact ⟨s :: above, below, rfl, by rw [extent, Nat.add_assoc]⟩
    cases s with
    | label found =>
      rcases List.mem_cons.mp h with heq | h
      · cases heq
        exact ⟨[], ss, rfl, rfl⟩
      · exact hskip h
    | _ => exact hskip h

/-- Lines say what they say above a line and below it. -/
theorem Says.split {inData : Bool} {texts : List (List Char)} {above below : List Statement} {s : Statement}
    (h : Says inData texts (above ++ s :: below)) :
    ∃ textsAbove text textsBelow inData', texts = textsAbove ++ text :: textsBelow ∧
      Says inData textsAbove above ∧ Reading inData' text s ∧ Says (s.opensData inData') textsBelow below := by
  induction above generalizing inData texts with
  | nil =>
    cases h with
    | cons first rest => exact ⟨[], _, _, inData, rfl, .nil, first, rest⟩
  | cons s' above ih =>
    cases h with
    | @cons _ text _ _ _ first rest =>
      obtain ⟨textsAbove, text', textsBelow, inData', rfl, habove, hs, hbelow⟩ := ih rest
      exact ⟨text :: textsAbove, text', textsBelow, inData', rfl, .cons first habove, hs, hbelow⟩

theorem Says.mem_labelsFrom {inData : Bool} {texts : List (List Char)} {ss : List Statement}
    (h : Says inData texts ss) {name : List Char} (hname : (':' :: name) ∈ texts) (p : Nat) :
    String.ofList name ∈ (labelsFrom p ss).map Prod.fst := by
  induction h generalizing p with
  | nil => cases hname
  | cons first rest ih =>
    rcases List.mem_cons.mp hname with rfl | hname'
    · cases first with
      | silent hsilent => simp at hsilent
      | label => exact List.mem_cons_self
      | data hspeaks => simp [speaks] at hspeaks
      | code hspeaks => simp [speaks] at hspeaks
    · cases first with
      | label => exact List.mem_cons_of_mem _ (ih hname' p)
      | _ => exact ih hname' _

/-- The position below some lines is where the statements on them end. -/
theorem Says.positionBelow_eq {position? : String → Option Nat} {texts : List (List Char)}
    {above below : List Statement} {is : List Instruction} (h : Says false texts above)
    (his : List.Forall₂ (Resolved position?) (codeOf (above ++ below)) is) :
    positionBelow is (dataOf (above ++ below)) texts = Image.headerSize + extent above := by
  have hcode : (codeLines texts).length = (codeOf above).length := h.lines.1.length_eq
  have hdata : (dataLines texts).length = (dataOf above).length := h.lines.2.length_eq
  have htake : List.Forall₂ (Resolved position?) (codeOf above) (is.take (codeOf above).length) := by
    have := List.forall₂_take (codeOf above).length his
    rwa [codeOf_append, List.take_left] at this
  rw [positionBelow, hcode, hdata, dataOf_append, List.take_left, extent_of_resolved htake, Nat.add_assoc]

theorem extent_append (above below : List Statement) : extent (above ++ below) = extent above + extent below := by
  induction above with
  | nil => exact (Nat.zero_add _).symm
  | cons s above ih => rw [List.cons_append, extent, extent, ih, Nat.add_assoc]

/-- The position of a label is that of the one line that defines it. -/
theorem Says.definedAt {texts : List (List Char)} {ss : List Statement} {is : List Instruction}
    (h : Says false texts ss) (hlabels : ((labelsFrom Image.headerSize ss).map Prod.fst).Nodup)
    (his : List.Forall₂ (Resolved (positionOf ss)) (codeOf ss) is)
    (hsize : Image.headerSize + extent ss < 2147483648) {name : String} {n : Int32}
    (hname : Placed (positionOf ss) name n) : DefinedAt texts is (dataOf ss) name n := by
  obtain ⟨p, hp, rfl⟩ := hname
  obtain ⟨above, below, rfl, rfl⟩ := exists_of_mem_labelsFrom ((positionOf_eq_some_iff hlabels).mp hp)
  obtain ⟨textsAbove, text, textsBelow, inData, rfl, habove, htext, hbelow⟩ := h.split
  obtain ⟨cs, rfl, rfl⟩ : ∃ cs, text = ':' :: cs ∧ name = String.ofList cs := by
    cases htext with
    | label cs => exact ⟨cs, rfl, rfl⟩
  rw [labelsFrom_append, labelsFrom, List.map_append, List.map_cons, List.nodup_append] at hlabels
  obtain ⟨-, hbelowLabels, hdisjoint⟩ := hlabels
  refine ⟨textsAbove, textsBelow, by rw [String.toList_ofList], ?_, ?_, ?_⟩
  · rw [String.toList_ofList]
    intro hmem
    exact hdisjoint _ (habove.mem_labelsFrom hmem _) _ List.mem_cons_self rfl
  · rw [String.toList_ofList]
    intro hmem
    exact (List.nodup_cons.mp hbelowLabels).1 (hbelow.mem_labelsFrom hmem _)
  · rw [extent_append] at hsize
    rw [habove.positionBelow_eq his, Word.toInt_ofNat (by omega)]

/-! ### The listing -/

/-- The image of a source has for its code what the instruction lines write. -/
theorem lines_of_assemble {source : String} {img : Image} (h : assemble source = .ok img) :
    ∃ ss is, Says false (texts source) ss ∧ ((labelsFrom Image.headerSize ss).map Prod.fst).Nodup ∧
      List.Forall₂ (Resolved (positionOf ss)) (codeOf ss) is ∧
        img = imageOf (is.flatMap Instruction.bytes) (dataOf ss).flatten ∧
          List.Forall₂ (fun text i => Writes (Placed (positionOf ss)) text i ∧ i.Encodable)
            (codeLines (texts source)) is := by
  obtain ⟨ss, is, hss, hlabels, his, himg⟩ := assemble_eq_ok_iff.mp h
  refine ⟨ss, is, hss, hlabels, his, himg, forall₂_trans ?_ hss.lines.1 his⟩
  intro text code i hread hi
  rw [hi.opcode] at hread
  exact exists_code_iff.mp ⟨code.2, hread, hi.operands⟩

theorem data_imageOf (code data : List UInt8) : (imageOf code data).data = data := Image.data_of_parts rfl

theorem size_imageOf (code data : List UInt8) :
    (imageOf code data).size = Image.headerSize + code.length + data.length := by
  simp only [imageOf, Image.size, List.length_append]
  rfl

/-- The listing of an image whose code is made of encodings. -/
theorem linesOf_imageOf {is : List Instruction} (data : List UInt8) (h : ∀ i ∈ is, i.Encodable) :
    Listing.linesOf (imageOf (is.flatMap Instruction.bytes) data) =
      .ok (Listing.layOut Image.headerSize is) :=
  Listing.linesOf_eq_ok_iff.mpr ⟨is, h, Image.code_of_parts rfl, rfl⟩

theorem codeLines_takeWhile (texts : List (List Char)) :
    codeLines (texts.takeWhile (· != mark)) = codeLines texts := by
  rw [codeLines, codeLines, List.takeWhile_idem]

theorem dataLines_takeWhile (texts : List (List Char)) : dataLines (texts.takeWhile (· != mark)) = [] := by
  have hall : ∀ text ∈ texts.takeWhile (· != mark), (text != mark) = true := by
    intro text htext
    have hbefore := List.mem_takeWhile_imp htext
    exact hbefore
  rw [dataLines, List.dropWhile_eq_nil_iff.mpr hall, List.filter_nil]

theorem dataLines_eq_nil {texts : List (List Char)} (h : mark ∉ texts) : dataLines texts = [] := by
  have hall : ∀ text ∈ texts, (text != mark) = true := fun text htext =>
    bne_iff_ne.mpr fun heq => h (heq ▸ htext)
  rw [dataLines, List.dropWhile_eq_nil_iff.mpr hall, List.filter_nil]

/-- **What a source means.** If a source is assembled, into an image of less than 2³¹ bytes,
the image has a listing, whose lines are the instruction lines of the source: each is what
its line writes, where the name of a label stands for the position of the one line that
defines it. The data of the image is that of the data lines, and its header is the position
of the first mark, or the size of the image if there is none. The names are filled in when all lines are
read, and each changes nothing but the word that waits for it. -/
theorem listing_of_assemble {source : String} {img : Image} (h : assemble source = .ok img)
    (hsize : img.size < 2147483648) :
    ∃ (l : Listing) (chunks : List (List UInt8)), Listing.ofImage img = .ok l ∧
      List.Forall₂ (fun text line =>
        Writes (DefinedAt (texts source) (l.lines.map Listing.Line.instruction) chunks) text line.instruction)
        (codeLines (texts source)) l.lines ∧
      List.Forall₂ DataLine (dataLines (texts source)) chunks ∧
      img.data = chunks.flatten ∧
      img.dataOffset =
        (if mark ∈ texts source then
          positionBelow (l.lines.map Listing.Line.instruction) chunks ((texts source).takeWhile (· != mark))
        else img.size) ∧
      Word.natBytes img.dataOffset <+: img.bytes ∧
      ∃ d, Draft.ofSource source = .ok d ∧ d.Patched img := by
  have hpatched := patched_of_assemble h
  obtain ⟨ss, is, hss, hlabels, his, rfl, hwrites⟩ := lines_of_assemble h
  have hencodable : ∀ i ∈ is, i.Encodable := forall_mem_of_forall₂ (hwrites.imp fun _ _ h => h.2)
  have hextent : Image.headerSize + extent ss < 2147483648 := by
    rw [extent_of_resolved his]
    rw [size_imageOf] at hsize
    omega
  have hlines := linesOf_imageOf (dataOf ss).flatten hencodable
  refine ⟨⟨_, _, _, Listing.layOut Image.headerSize is, _⟩, dataOf ss,
    Listing.ofImage_eq_ok_iff.mpr ⟨hlines, rfl⟩, ?_, hss.lines.2, data_imageOf _ _, ?_, ?_, hpatched⟩
  · rw [Listing.map_instruction_layOut]
    rw [← Listing.map_instruction_layOut Image.headerSize is, List.forall₂_map_right_iff] at hwrites
    exact hwrites.imp fun text line hline => hline.1.mono fun name n => hss.definedAt hlabels his hextent
  · rw [Listing.map_instruction_layOut]
    split
    · rw [positionBelow, codeLines_takeWhile, dataLines_takeWhile, hwrites.length_eq, List.take_length]
      rfl
    · next hmark =>
      have hnone : dataOf ss = [] := by
        have hdata := hss.lines.2
        rw [dataLines_eq_nil hmark] at hdata
        exact List.forall₂_nil_left_iff.mp hdata
      rw [size_imageOf, hnone]
      rfl
  · exact ⟨_, (List.append_assoc _ _ _).symm⟩

/-- A source with a label of code and one of data, both used before they are defined. -/
theorem listing_of_assemble_forward :
    let source := " # two labels\nJMP end\nPUSH_STRING  a b \r\n:end\nPUSH_DATA rec 0 +0\nRET\n" ++
      ".data\n0x1 0Xff\n:rec\nab\n"
    let img : Image := ⟨[29, 0, 0, 0, 20, 15, 0, 0, 0, 6, 32, 97, 32, 98, 0, 2, 31, 0, 0, 0, 0, 0, 0, 0,
      0, 0, 0, 0, 26, 1, 255, 97, 98, 0], 29⟩
    assemble source = .ok img ∧ img.size < 2147483648 ∧
      ∃ (l : Listing) (chunks : List (List UInt8)), Listing.ofImage img = .ok l ∧
        List.Forall₂ (fun text line =>
          Writes (DefinedAt (texts source) (l.lines.map Listing.Line.instruction) chunks) text line.instruction)
          (codeLines (texts source)) l.lines ∧
        chunks.flatten = [1, 255, 97, 98, 0] := by
  intro source img
  have h : assemble source = .ok img := by decide +kernel
  have hsize : img.size < 2147483648 := by decide
  obtain ⟨l, chunks, hl, hlines, -, hdata, -⟩ := listing_of_assemble h hsize
  exact ⟨h, hsize, l, chunks, hl, hlines, hdata.symm⟩

end StackCode.Source
