import StackCode.Proofs.Listing.Written
import StackCode.Proofs.Source.Meaning

/-!
# Listings and what they assemble to

The source text of a listing assembles to the image that the listing shows, exactly if each
instruction can be written. For the one direction, the lines are followed from the header
to the end: what they contribute to the image (`Lays`) is what the image has there, and the
labels stand where they are wanted. For the other, the instruction lines are compared with
the instructions of the image that they make.
-/

namespace StackCode.Listing

open Text
open Source (Statement Says Reading Resolved codeOf dataOf labelsFrom mark speaks texts Placed)

/-! ### Lines of text -/

/-- The trimmed lines that a text makes, more than one if there are line feeds in it. -/
def textsOf (s : String) : List (List Char) := (Text.lines s.toList).map trim

theorem texts_join (ls : List String) :
    texts (String.join (ls.map (· ++ "\n"))) = ls.flatMap textsOf ++ [[]] := by
  have hjoin : (String.join (ls.map (· ++ "\n"))).toList = ls.flatMap fun s => s.toList ++ ['\n'] := by
    rw [String.toList_join, List.flatMap_map]
    simp
  rw [texts, hjoin]
  clear hjoin
  induction ls with
  | nil => rfl
  | cons s ls ih =>
    have hcut : Text.lines (s.toList ++ '\n' :: ls.flatMap fun s => s.toList ++ ['\n']) =
        Text.lines s.toList ++ Text.lines (ls.flatMap fun s => s.toList ++ ['\n']) :=
      splitWhere_append rfl _ _
    rw [List.flatMap_cons, List.append_assoc, List.singleton_append, hcut, List.map_append,
      ih, List.flatMap_cons, List.append_assoc]
    rfl

/-- A text without line feeds makes one line. -/
theorem textsOf_eq {s : String} (h : '\n' ∉ s.toList) : textsOf s = [trim s.toList] := by
  rw [textsOf, lines_eq_singleton h]
  rfl

/-- The first line of a text. -/
theorem textsOf_eq_cons (s : String) :
    ∃ more, textsOf s = trim (s.toList.takeWhile fun c => !(c == '\n')) :: more := by
  obtain ⟨more, hmore⟩ := splitWhere_eq_cons (· == '\n') s.toList
  exact ⟨more.map trim, by rw [textsOf, Text.lines, hmore, List.map_cons]⟩

theorem textsOf_labelLine (k : Nat) : textsOf (labelLine k) = [':' :: (labelName k).toList] := by
  have hlist : (labelLine k).toList = ':' :: (labelName k).toList := by simp [labelLine]
  have hword : IsWord (labelLine k).toList := by
    rw [hlist, toList_labelName]
    exact ((Decimal.isWord_digits k).cons (by decide)).cons (by decide)
  have htrim := trim_eq_self (hword.startsPlain []) (by rw [List.append_nil]; exact hword.endsPlain [])
  rw [List.append_nil] at htrim
  rw [textsOf_eq hword.noLineFeed, htrim, hlist]

/-! ### What lines contribute -/

/-- Statements contribute instructions, data and labels to an image, from a position on. They
are what lines say, whatever follows these. -/
structure Contributes (position? : String → Option Nat) (inData outData : Bool) (texts : List (List Char))
    (p : Nat) (is : List Instruction) (data : List UInt8) (labels : List Nat) (ss : List Statement) :
    Prop where
  read : ∀ {texts' : List (List Char)} {ss' : List Statement}, Says outData texts' ss' →
    Says inData (texts ++ texts') (ss ++ ss')
  code : List.Forall₂ (Resolved position?) (codeOf ss) is
  data : (dataOf ss).flatten = data
  labels : labelsFrom p ss = labels.map fun k => (labelName k, k)

/-- Lines lay instructions, data and labels in an image, from a position on. The two truth
values say whether the mark `.data` stands above the lines, and whether below. -/
def Lays (position? : String → Option Nat) (inData outData : Bool) (texts : List (List Char)) (p : Nat)
    (is : List Instruction) (data : List UInt8) (labels : List Nat) : Prop :=
  ∃ ss, Contributes position? inData outData texts p is data labels ss

section Lays

variable {position? : String → Option Nat} {inData midData outData : Bool} {texts texts' : List (List Char)}
  {p p' : Nat} {is is' : List Instruction} {data data' : List UInt8} {labels labels' : List Nat}

theorem lays_nil (p : Nat) : Lays position? inData inData [] p [] [] [] :=
  ⟨[], fun h => h, .nil, rfl, rfl⟩

/-- Lines below others lay what they lay behind that of the others. -/
theorem Lays.append (h : Lays position? inData midData texts p is data labels)
    (hp : p' = p + (is.flatMap Instruction.bytes).length + data.length)
    (h' : Lays position? midData outData texts' p' is' data' labels') :
    Lays position? inData outData (texts ++ texts') p (is ++ is') (data ++ data') (labels ++ labels') := by
  subst hp
  obtain ⟨ss, hss⟩ := h
  obtain ⟨ss', hss'⟩ := h'
  refine ⟨ss ++ ss', ?_, ?_, ?_, ?_⟩
  · intro more ms hmore
    rw [List.append_assoc, List.append_assoc]
    exact hss.read (hss'.read hmore)
  · rw [Source.codeOf_append]
    exact List.rel_append hss.code hss'.code
  · rw [Source.dataOf_append, List.flatten_append, hss.data, hss'.data]
  · rw [Source.labelsFrom_append, Source.extent_of_resolved hss.code, hss.data, ← Nat.add_assoc, hss.labels,
      hss'.labels, List.map_append]

/-- A line lays what it says. -/
theorem lays_line {text : List Char} {s : Statement} (h : Reading inData text s)
    (hcode : List.Forall₂ (Resolved position?) (codeOf [s]) is) (hdata : (dataOf [s]).flatten = data)
    (hlabels : labelsFrom p [s] = labels.map fun k => (labelName k, k)) :
    Lays position? inData (s.opensData inData) [text] p is data labels :=
  ⟨[s], fun hrest => .cons h hrest, hcode, hdata, hlabels⟩

theorem lays_label (k : Nat) : Lays position? inData inData (textsOf (labelLine k)) k [] [] [k] := by
  rw [textsOf_labelLine]
  refine lays_line (.label _) .nil rfl ?_
  rw [String.ofList_toList]
  rfl

/-- The label that stands before a line of the listing, if it is wanted. -/
theorem lays_wanted (targets : List Nat) (k : Nat) :
    Lays position? inData inData ((if targets.contains k then [labelLine k] else []).flatMap textsOf) k [] []
      ([k].filter targets.contains) := by
  by_cases h : targets.contains k = true
  · rw [if_pos h, List.flatMap_singleton, List.filter_cons_of_pos h]
    exact lays_label k
  · rw [if_neg h, List.flatMap_nil, List.filter_cons_of_neg h]
    exact lays_nil k

end Lays

/-! ### Code -/

theorem speaks_of_mnemonic (op : Opcode) (rest : List Char) :
    speaks (trim (op.mnemonic.toList ++ rest)) = true := by
  obtain ⟨c, cs, hcs, hblank, hcomment, hlabel, hdot⟩ := mnemonic_head op
  have hhead : (trim (op.mnemonic.toList ++ rest)).head? = some c := by
    rw [hcs, List.cons_append]
    exact head?_trim hblank
  refine Source.speaks_iff.mpr ⟨?_, ?_, ?_, ?_⟩
  · intro h
    rw [h] at hhead
    cases hhead
  · rw [hhead]
    exact fun h => hcomment (Option.some.inj h)
  · rw [hhead]
    exact fun h => hlabel (Option.some.inj h)
  · intro h
    rw [h] at hhead
    exact hdot (Option.some.inj hhead).symm

section Code

variable {position? : String → Option Nat} {targets : List Nat}

theorem lays_instruction (hnamed : ∀ name n, Named targets name n → Placed position? name n) {i : Instruction}
    (he : i.Encodable) (hw : i.Writable) (p : Nat) :
    Lays position? false false (textsOf (instructionLine targets i)) p [i] [] [] := by
  have hline : '\n' ∉ (instructionLine targets i).toList ∧ _ := writes_instructionLine he hw
  obtain ⟨hfeed, hwrites⟩ := hline
  have hspeaks : speaks (trim (instructionLine targets i).toList) = true := by
    rw [toList_instructionLine]
    exact speaks_of_mnemonic _ _
  obtain ⟨args, hread, hos⟩ := Source.exists_code_iff.mpr ⟨hwrites.mono hnamed, he⟩
  rw [textsOf_eq hfeed]
  exact lays_line (.code hspeaks hread) (.cons ⟨rfl, hos⟩ .nil) rfl rfl

/-- The lines of the code lay the instructions, with labels at those that are wanted. -/
theorem lays_code (hnamed : ∀ name n, Named targets name n → Placed position? name n) {is : List Instruction}
    (his : ∀ i ∈ is, i.Encodable ∧ i.Writable) (p : Nat) :
    Lays position? false false (((layOut p is).flatMap (codeLines targets)).flatMap textsOf) p is []
      (((layOut p is).map Line.offset).filter targets.contains) := by
  induction is generalizing p with
  | nil => exact lays_nil p
  | cons i is ih =>
    obtain ⟨⟨he, hw⟩, his⟩ := List.forall_mem_cons.mp his
    have hline : Lays position? false false ((codeLines targets ⟨p, i⟩).flatMap textsOf) p [i] []
        ([p].filter targets.contains) := by
      have h := (lays_wanted targets p).append rfl (lays_instruction hnamed he hw _)
      simp only [List.nil_append, List.append_nil] at h
      rwa [← List.flatMap_singleton textsOf, ← List.flatMap_append] at h
    have hlabels : ((layOut p (i :: is)).map Line.offset).filter targets.contains =
        [p].filter targets.contains ++
        ((layOut (p + i.bytes.length) is).map Line.offset).filter targets.contains := by
      rw [← List.filter_append]
      rfl
    rw [hlabels, layOut, List.flatMap_cons, List.flatMap_append]
    exact hline.append (by rw [List.flatMap_singleton]; rfl) (ih his (p + i.bytes.length))

end Code

/-! ### Data -/

theorem intercalate_cons (w : List Char) (ws : List (List Char)) :
    [' '].intercalate (w :: ws) = w ++ ws.flatMap fun w => ' ' :: w :=
  Text.intercalate_cons [' '] w ws

section Data

variable {position? : String → Option Nat}

/-- A line of bytes in hexadecimal lays these bytes. -/
theorem lays_hexLine {chunk : List UInt8} (h : chunk ≠ []) (p : Nat) :
    Lays position? true true
      (textsOf (String.intercalate " " (chunk.map fun b => "0x" ++ String.ofList (Hex.pair b))))
      p [] chunk [] := by
  obtain ⟨b, bs, rfl⟩ := List.exists_cons_of_ne_nil h
  have hline : (String.intercalate " " ((b :: bs).map fun b => "0x" ++ String.ofList (Hex.pair b))).toList =
      ('0' :: 'x' :: Hex.pair b) ++ (bs.map fun b => '0' :: 'x' :: Hex.pair b).flatMap fun w => ' ' :: w := by
    rw [← intercalate_cons, String.toList_intercalate, List.map_map]
    simp [Function.comp_def]
  have hws : ∀ w ∈ bs.map fun b => '0' :: 'x' :: Hex.pair b, IsWord w := by
    intro w hw
    obtain ⟨b, -, rfl⟩ := List.mem_map.mp hw
    exact Hex.isWord_pair b
  have hfeed := noLineFeed_words (Hex.isWord_pair b) hws
  have hread : Source.DataLine (('0' :: 'x' :: Hex.pair b) ++
      (bs.map fun b => '0' :: 'x' :: Hex.pair b).flatMap fun w => ' ' :: w) (b :: bs) := by
    refine .hex (.inl ⟨_, rfl⟩) ?_
    rw [words_cons (Hex.isWord_pair b) hws]
    refine .cons (Hex.readByte?_pair b) ?_
    rw [List.forall₂_map_left_iff, List.forall₂_same]
    exact fun b _ => Hex.readByte?_pair b
  have hspeaks : speaks (('0' :: 'x' :: Hex.pair b) ++
      (bs.map fun b => '0' :: 'x' :: Hex.pair b).flatMap fun w => ' ' :: w) = true :=
    Source.speaks_iff.mpr ⟨by simp, by simp, by simp, by simp [mark]⟩
  rw [← hline] at hfeed
  rw [textsOf_eq hfeed, hline, trim_words (Hex.isWord_pair b) hws]
  exact lays_line (.data hspeaks (Source.readData_eq_ok_iff.mpr hread)) .nil (List.append_nil _) rfl

/-- Bytes that are cut into lines are laid one after the other. -/
theorem lays_hexLines {fuel : Nat} {bytes : List UInt8} (h : bytes.length ≤ fuel) (p : Nat) :
    Lays position? true true ((hexLines fuel bytes).flatMap textsOf) p [] bytes [] := by
  induction fuel generalizing bytes p with
  | zero =>
    cases List.eq_nil_of_length_eq_zero (Nat.le_zero.mp h)
    exact lays_nil p
  | succ fuel ih =>
    rw [hexLines]
    by_cases hempty : bytes = []
    · subst hempty
      exact lays_nil p
    · have hchunk : bytes.take bytesPerLine ≠ [] := by
        rw [Ne, List.take_eq_nil_iff, not_or]
        exact ⟨by decide, hempty⟩
      have hshort : (bytes.drop bytesPerLine).length ≤ fuel := by
        have hpos := List.length_pos_of_ne_nil hempty
        rw [List.length_drop, bytesPerLine]
        omega
      have hlines := (lays_hexLine hchunk p).append rfl (ih hshort _)
      rw [List.take_append_drop] at hlines
      rw [if_neg (by simpa using hempty), List.flatMap_cons]
      exact hlines

/-- Parts of the data with a label each follow each other from an offset on. -/
def Follow : Nat → List (Nat × List UInt8) → Prop
  | _, [] => True
  | p, (k, bytes) :: more => k = p ∧ Follow (p + bytes.length) more

theorem segments_cons (targets : List Nat) (offset : Nat) (b : UInt8) (data : List UInt8) :
    segments targets offset (b :: data) =
      if targets.contains offset then
        ([], (offset, b :: (segments targets (offset + 1) data).1) :: (segments targets (offset + 1) data).2)
      else (b :: (segments targets (offset + 1) data).1, (segments targets (offset + 1) data).2) := by
  rw [segments, List.zipIdx_cons, List.foldr_cons]
  rfl

/-- Cutting the data at labels loses nothing, and the labels are those that are wanted. -/
theorem segments_parts (targets : List Nat) (offset : Nat) (data : List UInt8) :
    (segments targets offset data).1 ++ (segments targets offset data).2.flatMap Prod.snd = data ∧
      Follow (offset + (segments targets offset data).1.length) (segments targets offset data).2 ∧
      (segments targets offset data).2.map Prod.fst =
        (List.range' offset data.length).filter targets.contains := by
  induction data generalizing offset with
  | nil => exact ⟨rfl, trivial, rfl⟩
  | cons b data ih =>
    obtain ⟨hdata, hfollow, hlabels⟩ := ih (offset + 1)
    rw [segments_cons, List.length_cons, List.range'_succ]
    by_cases h : targets.contains offset = true
    · rw [if_pos h, List.filter_cons_of_pos h, ← hlabels]
      refine ⟨?_, ⟨rfl, ?_⟩, rfl⟩
      · rw [List.flatMap_cons, List.nil_append, List.cons_append, hdata]
      · rw [List.length_cons, List.length_nil, Nat.add_zero, Nat.add_comm _ 1, ← Nat.add_assoc]
        exact hfollow
    · rw [if_neg h, List.filter_cons_of_neg h, ← hlabels]
      refine ⟨?_, ?_, rfl⟩
      · rw [List.cons_append, hdata]
      · rw [List.length_cons, Nat.add_comm _ 1, ← Nat.add_assoc]
        exact hfollow

theorem lays_labelled {labelled : List (Nat × List UInt8)} {p : Nat} (h : Follow p labelled) :
    Lays position? true true
      ((labelled.flatMap fun (offset, bytes) => labelLine offset :: hexLines bytes.length bytes).flatMap textsOf)
      p [] (labelled.flatMap Prod.snd) (labelled.map Prod.fst) := by
  induction labelled generalizing p with
  | nil => exact lays_nil p
  | cons part more ih =>
    obtain ⟨k, bytes⟩ := part
    obtain ⟨rfl, hmore⟩ := h
    have hpart : Lays position? true true
        (textsOf (labelLine k) ++ (hexLines bytes.length bytes).flatMap textsOf) k [] bytes [k] :=
      (lays_label k).append rfl (lays_hexLines (Nat.le_refl _) _)
    rw [List.flatMap_cons, List.flatMap_append, List.flatMap_cons]
    exact hpart.append rfl (ih hmore)

/-- The lines of the data lay the data, with labels where they are wanted, the end included. -/
theorem lays_data (targets : List Nat) {l : Listing} (hsize : l.size = l.dataOffset + l.data.length) :
    Lays position? true true ((dataLines targets l).flatMap textsOf) l.dataOffset [] l.data
      ((List.range' l.dataOffset (l.data.length + 1)).filter targets.contains) := by
  obtain ⟨hdata, hfollow, hlabels⟩ := segments_parts targets l.dataOffset l.data
  have hparts : Lays position? true true _ l.dataOffset [] _ _ :=
    (lays_hexLines (Nat.le_refl _) l.dataOffset).append rfl (lays_labelled hfollow)
  rw [hdata] at hparts
  have hall := hparts.append hsize (lays_wanted targets l.size)
  simp only [List.nil_append, List.append_nil] at hall
  rw [hsize, hlabels, ← List.filter_append, ← List.range'_1_concat] at hall
  rw [dataLines, List.flatMap_append, List.flatMap_append, hsize]
  exact hall

end Data

/-! ### The whole source -/

/-- Lines that lay an image with labels that are distinct and stand where they are wanted are
assembled to this image. -/
theorem assemble_of_lays {position? : String → Option Nat} {outData : Bool} {source : String}
    {is : List Instruction} {data : List UInt8} {labels : List Nat}
    (h : Lays position? false outData (texts source) Image.headerSize is data labels) (hlabels : labels.Nodup)
    (hposition : ∀ name p, position? name = some p → ∃ k ∈ labels, name = labelName k ∧ p = k) :
    Source.assemble source = .ok (Source.imageOf (is.flatMap Instruction.bytes) data) := by
  obtain ⟨ss, hss⟩ := h
  have hread := hss.read (Says.nil)
  rw [List.append_nil, List.append_nil] at hread
  have hnodup : ((labelsFrom Image.headerSize ss).map Prod.fst).Nodup := by
    rw [hss.labels, List.map_map]
    exact List.Pairwise.map _ (fun j k hne heq => hne (labelName_injective heq)) hlabels
  refine Source.assemble_eq_ok_iff.mpr
    ⟨ss, is, hread, hnodup, hss.code.imp fun code i hi => ?_, by rw [hss.data]⟩
  refine hi.mono fun name p hp => ?_
  obtain ⟨k, hk, rfl, rfl⟩ := hposition name p hp
  rw [Source.positionOf_eq_some_iff hnodup, hss.labels]
  exact List.mem_map_of_mem hk

/-- The offset of the label with a name. -/
def labelAt (targets : List Nat) (name : String) : Option Nat := targets.find? fun k => labelName k == name

theorem labelAt_eq_some_iff {targets : List Nat} {name : String} {k : Nat} :
    labelAt targets name = some k ↔ k ∈ targets ∧ name = labelName k := by
  constructor
  · intro h
    have hname := List.find?_some h
    exact ⟨List.mem_of_find?_eq_some h, (beq_iff_eq.mp hname).symm⟩
  · intro ⟨hk, hname⟩
    have hfound : (labelAt targets name).isSome = true :=
      List.find?_isSome.mpr ⟨k, hk, beq_iff_eq.mpr hname.symm⟩
    obtain ⟨j, hj⟩ := Option.isSome_iff_exists.mp hfound
    have hsame := List.find?_some hj
    rw [hj, labelName_injective ((beq_iff_eq.mp hsame).trans hname)]

theorem placed_of_named (targets : List Nat) (name : String) (n : Int32) (h : Named targets name n) :
    Placed (labelAt targets) name n := by
  obtain ⟨k, hk, hname, hn⟩ := h
  exact ⟨k, labelAt_eq_some_iff.mpr ⟨hk, hname⟩, hn⟩

/-- A line of the code stands between the beginning and the end of the code. -/
theorem offset_bounds {p : Nat} {is : List Instruction} {line : Line} (h : line ∈ layOut p is) :
    p ≤ line.offset ∧ line.offset < p + (is.flatMap Instruction.bytes).length := by
  obtain ⟨before, after, rfl, ho⟩ := mem_layOut h
  have hpos := line.instruction.length_bytes_pos
  rw [List.flatMap_append, List.flatMap_cons, List.length_append, List.length_append]
  omega

theorem pairwise_layOut (p : Nat) (is : List Instruction) :
    ((layOut p is).map Line.offset).Pairwise (· < ·) := by
  induction is generalizing p with
  | nil => exact .nil
  | cons i is ih =>
    refine .cons (fun k hk => ?_) (ih _)
    obtain ⟨line, hline, rfl⟩ := List.mem_map.mp hk
    have hbounds := offset_bounds hline
    have hpos := i.length_bytes_pos
    simp only
    omega

/-- The offsets where labels can stand, in order. -/
def offsets (l : Listing) : List Nat :=
  l.lines.map Line.offset ++ List.range' l.dataOffset (l.data.length + 1)

/-- An image with the right header is made of its code and its data. -/
theorem imageOf_parts {img : Image} (hw : img.WellFormed)
    (hheader : Word.natBytes img.dataOffset <+: img.bytes) :
    Source.imageOf img.code img.data = img := by
  rw [Source.imageOf, hw.length_code, ← hw.bytes_eq_header hheader]

/-- A listing shows an image: its lines are the code, one instruction after the other, and its
data is the data. -/
structure Shows (l : Listing) (img : Image) : Prop where
  encodable : ∀ i ∈ l.lines.map Line.instruction, i.Encodable
  layout : l.lines = layOut Image.headerSize (l.lines.map Line.instruction)
  dataOffset : l.dataOffset =
    Image.headerSize + ((l.lines.map Line.instruction).flatMap Instruction.bytes).length
  size : l.size = l.dataOffset + l.data.length
  code : img.code = (l.lines.map Line.instruction).flatMap Instruction.bytes
  data : img.data = l.data

theorem shows_of_ofImage {img : Image} {l : Listing} (hw : img.WellFormed) (hl : ofImage img = .ok l) :
    l.Shows img := by
  obtain ⟨hlines, hl⟩ := ofImage_eq_ok_iff.mp hl
  obtain ⟨is, his, hcode, hlayout⟩ := linesOf_eq_ok_iff.mp hlines
  have hmap : l.lines.map Line.instruction = is := by rw [hlayout, map_instruction_layOut]
  refine ⟨?_, ?_, ?_, ?_, ?_, ?_⟩
  · rw [hmap]
    exact his
  · rw [hmap]
    exact hlayout
  · rw [hmap, ← hcode, hl]
    exact hw.length_code.symm
  · rw [hl]
    have hle := hw.le_size
    simp only [Image.data, Image.size, List.length_drop] at hle ⊢
    omega
  · rw [hmap, hcode]
  · rw [hl]

namespace Shows

variable {l : Listing} {img : Image} (h : l.Shows img)
include h

theorem pairwise_offsets : l.offsets.Pairwise (· < ·) := by
  have hlayout := h.layout
  have hdata := h.dataOffset
  generalize l.lines.map Line.instruction = is at hlayout hdata
  rw [offsets, hlayout, List.pairwise_append]
  refine ⟨pairwise_layOut _ _, List.pairwise_lt_range', fun j hj k hk => ?_⟩
  obtain ⟨line, hline, rfl⟩ := List.mem_map.mp hj
  have hbounds := offset_bounds hline
  have hrange := List.mem_range'_1.mp hk
  omega

/-- Labels are wanted only where they can stand. -/
theorem mem_offsets_of_mem_targets {k : Nat} (hk : k ∈ l.targets) : k ∈ l.offsets := by
  have hsize := h.size
  have hplaceable : l.placeable k = true := (List.mem_filter.mp hk).2
  rw [placeable, Bool.or_eq_true, List.any_eq_true, Bool.and_eq_true, decide_eq_true_iff,
    decide_eq_true_iff] at hplaceable
  rw [offsets, List.mem_append]
  rcases hplaceable with ⟨line, hline, hoffset⟩ | hdata
  · exact .inl (List.mem_map.mpr ⟨line, hline, beq_iff_eq.mp hoffset⟩)
  · exact .inr (List.mem_range'_1.mpr (by omega))

/-- The source text of a listing lays the image if the instructions can be written. -/
theorem lays_source (hwritable : ∀ line ∈ l.lines, line.instruction.Writable) :
    Lays (labelAt l.targets) false true (texts l.source) Image.headerSize (l.lines.map Line.instruction) l.data
      (l.offsets.filter l.targets.contains) := by
  have his : ∀ i ∈ l.lines.map Line.instruction, i.Encodable ∧ i.Writable := by
    intro i hi
    refine ⟨h.encodable i hi, ?_⟩
    obtain ⟨line, hline, rfl⟩ := List.mem_map.mp hi
    exact hwritable line hline
  have hcode := lays_code (placed_of_named l.targets) his Image.headerSize
  rw [← h.layout] at hcode
  have hmark : Lays (labelAt l.targets) false true [mark] l.dataOffset [] [] [] := lays_line .mark .nil rfl rfl
  have hdata : Lays (labelAt l.targets) true true _ l.dataOffset [] l.data _ := lays_data l.targets h.size
  have hblank : ∀ p, Lays (labelAt l.targets) true true [[]] p [] [] [] := fun p =>
    lays_line (.silent (.inl rfl)) .nil rfl rfl
  have hrest := hmark.append rfl (hdata.append rfl (hblank _))
  have hall := hcode.append h.dataOffset hrest
  simp only [List.nil_append, List.append_nil] at hall
  have htexts : texts l.source = ((l.lines.flatMap (codeLines l.targets)).flatMap textsOf) ++
      ([mark] ++ ((dataLines l.targets l).flatMap textsOf ++ [[]])) := by
    have hmark : textsOf ".data" = [mark] := by decide +kernel
    rw [source, texts_join, sourceLines, List.flatMap_append, List.flatMap_cons, hmark, List.append_assoc,
      List.append_assoc]
  rw [htexts, offsets, List.filter_append]
  exact hall

theorem assemble_source (hw : img.WellFormed) (hheader : Word.natBytes img.dataOffset <+: img.bytes)
    (hwritable : ∀ line ∈ l.lines, line.instruction.Writable) : Source.assemble l.source = .ok img := by
  have hnodup : (l.offsets.filter l.targets.contains).Nodup :=
    (h.pairwise_offsets.filter _).imp fun hlt => Nat.ne_of_lt hlt
  have hassemble := assemble_of_lays (h.lays_source hwritable) hnodup fun name p hp => by
    obtain ⟨hmem, hname⟩ := labelAt_eq_some_iff.mp hp
    refine ⟨p, List.mem_filter.mpr ⟨h.mem_offsets_of_mem_targets hmem, ?_⟩, hname, rfl⟩
    exact List.contains_iff_mem.mpr hmem
  rw [hassemble, ← h.code, ← h.data, imageOf_parts hw hheader]

end Shows

/-! ### The instructions that can be written -/

/-- A label that is wanted is not an instruction line. -/
theorem codeLines_wanted (targets : List Nat) (k : Nat) (rest : List (List Char)) :
    Source.codeLines ((if targets.contains k then [labelLine k] else []).flatMap textsOf ++ rest) =
      Source.codeLines rest := by
  by_cases h : targets.contains k = true
  · have hmark : ':' :: (labelName k).toList ≠ mark := by simp [mark]
    rw [if_pos h, List.flatMap_singleton, textsOf_labelLine, List.singleton_append,
      Source.codeLines_cons _ hmark]
    rfl
  · rw [if_neg h, List.flatMap_nil, List.nil_append]

/-- Lines from the beginning of a text of a listing that write its instructions are writable.
As long as they are, each instruction makes one line, so the next line is compared with the
next instruction. -/
theorem writable_of_writes {label : String → Int32 → Prop} {targets : List Nat} {ls : List Line}
    {rest : List (List Char)} (he : ∀ line ∈ ls, line.instruction.Encodable)
    (h : List.Forall₂ (Source.Writes label)
      (Source.codeLines ((ls.flatMap (codeLines targets)).flatMap textsOf ++ rest))
      (ls.map Line.instruction)) :
    ∀ line ∈ ls, line.instruction.Writable := by
  induction ls with
  | nil => exact List.forall_mem_nil _
  | cons line ls ih =>
    obtain ⟨heline, he⟩ := List.forall_mem_cons.mp he
    obtain ⟨more, hmore⟩ := textsOf_eq_cons (instructionLine targets line.instruction)
    have hspeaks : speaks (trim ((instructionLine targets line.instruction).toList.takeWhile
        fun c => !(c == '\n'))) = true := by
      rw [toList_instructionLine, List.takeWhile_append_of_pos]
      · exact speaks_of_mnemonic _ _
      · intro c hc
        rw [Bool.not_eq_true', beq_eq_false_iff_ne]
        rintro rfl
        exact (isWord_mnemonic _).noLineFeed hc
    have hmark := (Source.speaks_iff.mp hspeaks).2.2.2
    rw [List.flatMap_cons, List.flatMap_append, codeLines, List.flatMap_append, List.flatMap_singleton,
      List.append_assoc, List.append_assoc, codeLines_wanted, hmore, List.cons_append,
      Source.codeLines_cons _ hmark, if_pos hspeaks, List.map_cons] at h
    obtain ⟨hfirst, hrest⟩ := List.forall₂_cons.mp h
    have hwritable : line.instruction.Writable := by
      refine hfirst.writable (fun hmem => ?_) (endsPlain_trim _)
      have := List.mem_takeWhile_imp (mem_of_mem_trim hmem)
      simp at this
    have hone : more = [] := by
      have hfeed : '\n' ∉ (instructionLine targets line.instruction).toList :=
        (writes_instructionLine heline hwritable).1
      rw [textsOf_eq hfeed] at hmore
      exact (List.cons.inj hmore).2.symm
    rw [hone, List.nil_append] at hrest
    exact List.forall_mem_cons.mpr ⟨hwritable, ih he hrest⟩

theorem Shows.writable_of_assemble {l : Listing} {img : Image} (h : l.Shows img)
    (hl : ofImage img = .ok l) (hassemble : Source.assemble l.source = .ok img) :
    ∀ line ∈ l.lines, line.instruction.Writable := by
  obtain ⟨ss, is, -, -, -, rfl, hwrites⟩ := Source.lines_of_assemble hassemble
  have hencodable := Result.forall_mem_of_forall₂ (hwrites.imp fun _ _ h => h.2)
  have hsame : l.lines.map Line.instruction = is := by
    have hlines := (ofImage_eq_ok_iff.mp hl).1
    rw [Source.linesOf_imageOf _ hencodable, Except.ok.injEq] at hlines
    rw [← hlines, map_instruction_layOut]
  have htexts : texts l.source = (l.lines.flatMap (codeLines l.targets)).flatMap textsOf ++
      (textsOf ".data" ++ (dataLines l.targets l).flatMap textsOf ++ [[]]) := by
    rw [source, texts_join, sourceLines, List.flatMap_append, List.flatMap_cons, List.append_assoc]
  rw [htexts, ← hsame] at hwrites
  refine writable_of_writes (fun line hline => ?_) (hwrites.imp fun _ _ h => h.1)
  exact h.encodable _ (List.mem_map_of_mem hline)

/-- **When a listing assembles to its image.** Let bytes be an image that has a listing. The
source text of the listing is assembled to this image, exactly if every string that is
pushed is UTF-8 without a line feed and not with a blank at its end, and every builtin that is
pushed is known. Nothing else about the image matters. -/
theorem assemble_source_iff {bytes : List UInt8} {img : Image} {l : Listing}
    (himg : Image.ofBytes bytes = .ok img) (hl : ofImage img = .ok l) :
    Source.assemble l.source = .ok img ↔ ∀ line ∈ l.lines, line.instruction.Writable := by
  obtain ⟨rfl, hw, -, hheader⟩ := Image.ofBytes_eq_ok_iff.mp himg
  have hshows := shows_of_ofImage hw hl
  exact ⟨hshows.writable_of_assemble hl, hshows.assemble_source hw hheader⟩

/-- Jumps to a negative position, into an instruction, to the data and to the end of the image,
a string that begins with a blank, and a builtin. -/
theorem assemble_source_iff_jumps :
    let img : Image := ⟨[46, 0, 0, 0, 20, 255, 255, 255, 255, 20, 5, 0, 0, 0, 20, 46, 0, 0, 0, 20, 48, 0, 0,
      0, 6, 32, 97, 0, 0, 36, 36, 98, 117, 105, 108, 116, 105, 110, 45, 112, 114, 105, 110, 116, 0, 26, 0, 255], 46⟩
    let lines : List Line := [⟨4, ⟨.jmp, [.int (-1)]⟩⟩, ⟨9, ⟨.jmp, [.int 5]⟩⟩, ⟨14, ⟨.jmp, [.int 46]⟩⟩,
      ⟨19, ⟨.jmp, [.int 48]⟩⟩, ⟨24, ⟨.pushString, [.text [32, 97]]⟩⟩,
      ⟨28, ⟨.pushBuiltin, [.text (Utf8.encode "$$builtin-print")]⟩⟩, ⟨45, ⟨.ret, []⟩⟩]
    let l : Listing := ⟨img.size, img.dataOffset, img.digest, lines, img.data⟩
    Image.ofBytes img.bytes = .ok img ∧ ofImage img = .ok l ∧ Source.assemble l.source = .ok img := by
  intro img lines l
  have himg : Image.ofBytes img.bytes = .ok img := by decide
  have hlines : linesOf img = .ok lines := by decide +kernel
  have hl : ofImage img = .ok l := ofImage_eq_ok_iff.mpr ⟨hlines, rfl⟩
  have hplain : ∀ i : Instruction, i.opcode ≠ .pushString → i.opcode ≠ .pushBuiltin → i.Writable :=
    fun i hstring hbuiltin => ⟨fun h => absurd h hstring, fun h => absurd h hbuiltin⟩
  have hstring : Instruction.Writable ⟨.pushString, [.text [32, 97]]⟩ := by
    refine ⟨fun _ s hs => ?_, nofun⟩
    rw [List.mem_singleton, Operand.text.injEq] at hs
    refine ⟨[' ', 'a'], hs, by decide, fun c hc => ?_⟩
    cases hc
    decide
  have hbuiltin : Instruction.Writable ⟨.pushBuiltin, [.text (Utf8.encode "$$builtin-print")]⟩ := by
    refine ⟨nofun, fun _ s hs => ⟨.print .raw, ?_⟩⟩
    rw [List.mem_singleton, Operand.text.injEq] at hs
    exact hs
  refine ⟨himg, hl, (assemble_source_iff himg hl).mpr ?_⟩
  simp only [l, lines, List.forall_mem_cons]
  exact ⟨hplain _ nofun nofun, hplain _ nofun nofun, hplain _ nofun nofun, hplain _ nofun nofun,
    hstring, hbuiltin, hplain _ nofun nofun, List.forall_mem_nil _⟩

end StackCode.Listing
