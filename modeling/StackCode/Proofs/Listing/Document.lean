import StackCode.Proofs.Json
import StackCode.Proofs.Listing.Runs
import StackCode.Proofs.Text.Utf8

/-!
# Listings as documents

The document of a listing says what is in an image, even without the digest: where the data begins,
what the instructions are, from which the code is encoded again, and what the data is. The kinds of the
operands need not be said, since a number, a string and an array are told apart. What is shown as text
could stand for different bytes only if it were not UTF-8 (`Listing.Textual`). And since no two documents
are written alike, the text of the document says it as well.
-/

namespace StackCode

/-- The field of an object with a name. -/
def Json.field? (name : String) : Json → Option Json
  | .obj fields => fields.lookup name
  | _ => none

namespace Listing

/-! ### Text in the data -/

/-- Within bytes, a part that is all text and neither begins nor ends within text. -/
def LongestText (data piece : List UInt8) : Prop :=
  ∃ before after, data = before ++ piece ++ after ∧ piece ≠ [] ∧ (∀ b ∈ piece, 32 ≤ b) ∧
    (∀ b ∈ before.getLast?, b < 32) ∧ ∀ b ∈ after.head?, b < 32

theorem cut_singleton {kind : Bool} {piece : List UInt8} :
    Cut piece [(kind, piece)] ↔ piece ≠ [] ∧ ∀ b ∈ piece, isText b = kind := by
  constructor
  · intro h
    exact h.uniform _ (List.mem_singleton.mpr rfl)
  · intro h
    exact ⟨by simp, by simpa using h, .singleton _⟩

/-- The longest parts that are text are the stretches of text. -/
theorem longestText_iff {data piece : List UInt8} : LongestText data piece ↔ (true, piece) ∈ stretches data := by
  constructor
  · rintro ⟨before, after, rfl, hne, htext, hbefore, hafter⟩
    -- The kind changes behind the piece and in front of it, so the three are cut on their own.
    have hpiece : Cut piece [(true, piece)] := cut_singleton.mpr ⟨hne, fun b hb => isText_iff.mpr (htext b hb)⟩
    have hrest : Cut (piece ++ after) ([(true, piece)] ++ stretches after) := by
      refine cut_append_iff.mpr ⟨piece, after, rfl, hpiece, cut_stretches after, fun b hb c hc => ?_⟩
      rw [isText_iff.mpr (htext b (List.mem_of_getLast? hb)), not_isText_iff.mpr (hafter c hc)]
      decide
    have hcut : Cut (before ++ (piece ++ after)) (stretches before ++ ([(true, piece)] ++ stretches after)) := by
      refine cut_append_iff.mpr ⟨before, _, rfl, cut_stretches before, hrest, fun b hb c hc => ?_⟩
      rw [List.head?_append_of_ne_nil _ hne] at hc
      rw [not_isText_iff.mpr (hbefore b hb), isText_iff.mpr (htext c (List.mem_of_head? hc))]
      decide
    rw [List.append_assoc, ← cut_iff.mp hcut]
    simp
  · intro h
    obtain ⟨parts, parts', hparts⟩ := List.append_of_mem h
    have hcut := cut_stretches data
    rw [hparts, ← List.singleton_append] at hcut
    obtain ⟨before, rest, rfl, -, hrest, hbefore⟩ := cut_append_iff.mp hcut
    obtain ⟨piece', after, rfl, hpiece, -, hafter⟩ := cut_append_iff.mp hrest
    obtain rfl : piece = piece' := by simpa using hpiece.whole
    obtain ⟨hne, htext⟩ := cut_singleton.mp hpiece
    refine ⟨before, after, (List.append_assoc ..).symm, hne, fun b hb => isText_iff.mp (htext b hb), ?_, ?_⟩
    · intro b hb
      have hhead : (piece ++ after).head? = some (piece.head hne) := by
        rw [List.head?_append_of_ne_nil _ hne, List.head?_eq_some_head hne]
      have hkind := hbefore b hb _ hhead
      rw [htext _ (List.head_mem hne)] at hkind
      exact not_isText_iff.mp (Bool.eq_false_iff.mpr hkind)
    · intro c hc
      have hkind := hafter (piece.getLast hne) (List.getLast?_eq_some_getLast hne) c hc
      rw [htext _ (List.getLast_mem hne)] at hkind
      exact not_isText_iff.mp (Bool.eq_false_iff.mpr hkind.symm)

/-- What a listing shows as text is UTF-8: its strings and builtins, and in the data the longest parts
that are text. -/
structure Textual (l : Listing) : Prop where
  operands : ∀ line ∈ l.lines, ∀ bytes, .text bytes ∈ line.instruction.operands →
    ∃ s, bytes = Text.Utf8.encode s
  data : ∀ piece, LongestText l.data piece → ∃ s, piece = Text.Utf8.encode s

/-- Bytes that are UTF-8 are shown as the text that they encode. -/
theorem eq_of_lossy_eq {bytes bytes' : List UInt8} (h : ∃ s, bytes = Text.Utf8.encode s)
    (h' : ∃ s, bytes' = Text.Utf8.encode s) (hsame : Text.Utf8.lossy bytes = Text.Utf8.lossy bytes') :
    bytes = bytes' := by
  obtain ⟨s, rfl⟩ := h
  obtain ⟨t, rfl⟩ := h'
  rw [Text.Utf8.lossy_encode, Text.Utf8.lossy_encode] at hsame
  rw [hsame]

/-! ### What a document says -/

theorem eq_of_map_eq {α β : Type} {f : α → β} {as bs : List α}
    (hf : ∀ a ∈ as, ∀ b ∈ bs, f a = f b → a = b) (h : as.map f = bs.map f) : as = bs := by
  induction as generalizing bs with
  | nil => exact (List.map_eq_nil_iff.mp h.symm).symm
  | cons a as ih =>
    cases bs with
    | nil => cases h
    | cons b bs =>
      obtain ⟨hfirst, hrest⟩ := List.cons.inj h
      rw [hf a List.mem_cons_self b List.mem_cons_self hfirst,
        ih (fun a ha b hb => hf a (List.mem_cons_of_mem _ ha) b (List.mem_cons_of_mem _ hb)) hrest]

theorem operandDocument_inj {o o' : Operand} (h : ∀ bytes, o = .text bytes → ∃ s, bytes = Text.Utf8.encode s)
    (h' : ∀ bytes, o' = .text bytes → ∃ s, bytes = Text.Utf8.encode s)
    (hsame : operandDocument o = operandDocument o') : o = o' := by
  cases o with
  | int n =>
    cases o' with
    | int k => exact congrArg Operand.int (Int32.toInt_inj.mp (Json.int.inj hsame))
    | text bytes => cases hsame
    | table entries => cases hsame
  | text bytes =>
    cases o' with
    | text bytes' => exact congrArg Operand.text (eq_of_lossy_eq (h _ rfl) (h' _ rfl) (Json.str.inj hsame))
    | int n => cases hsame
    | table entries => cases hsame
  | table entries =>
    cases o' with
    | table entries' =>
      refine congrArg Operand.table (eq_of_map_eq (fun n _ k _ h => ?_) (Json.arr.inj hsame))
      exact Int32.toInt_inj.mp (Json.int.inj h)
    | int n => cases hsame
    | text bytes => cases hsame

theorem Line.document_inj {line line' : Line}
    (h : ∀ bytes, .text bytes ∈ line.instruction.operands → ∃ s, bytes = Text.Utf8.encode s)
    (h' : ∀ bytes, .text bytes ∈ line'.instruction.operands → ∃ s, bytes = Text.Utf8.encode s)
    (hsame : line.document = line'.document) : line = line' := by
  obtain ⟨offset, opcode, operands⟩ := line
  obtain ⟨offset', opcode', operands'⟩ := line'
  simp only [Line.document, Json.obj.injEq, List.cons.injEq, Prod.mk.injEq, true_and, and_true, Json.int.injEq,
    Json.str.injEq, Json.arr.injEq] at hsame
  obtain ⟨hoffset, hmnemonic, hoperands⟩ := hsame
  have hopcode : opcode = opcode' := by
    have hread := Opcode.ofMnemonic?_mnemonic opcode
    rw [hmnemonic, Opcode.ofMnemonic?_mnemonic] at hread
    exact (Option.some.inj hread).symm
  have hsame : operands = operands' := by
    refine eq_of_map_eq (fun o ho o' ho' => ?_) hoperands
    exact operandDocument_inj (fun bytes hb => h bytes (hb ▸ ho)) fun bytes hb => h' bytes (hb ▸ ho')
  rw [Int.ofNat.inj hoffset, hopcode, hsame]

theorem Run.document_inj {run run' : Run} (h : run.document = run'.document) : run = run' := by
  cases run with
  | text offset chars =>
    cases run' with
    | text offset' chars' =>
      simp only [Run.document, Json.obj.injEq, List.cons.injEq, Prod.mk.injEq, true_and, and_true,
        Json.int.injEq, Json.str.injEq] at h
      rw [Int.ofNat.inj h.1, h.2]
    | bytes offset' dump => simp [Run.document] at h
  | bytes offset dump =>
    cases run' with
    | text offset' chars => simp [Run.document] at h
    | bytes offset' dump' =>
      simp only [Run.document, Json.obj.injEq, List.cons.injEq, Prod.mk.injEq, true_and, and_true,
        Json.int.injEq, Json.arr.injEq] at h
      have hdump : dump = dump' := eq_of_map_eq
        (fun b _ c _ hbc => UInt8.toNat_inj.mp (Int.ofNat.inj (Json.int.inj hbc))) h.2
      rw [Int.ofNat.inj h.1, hdump]

/-- The runs of stretches show the stretches, if those of text are UTF-8. -/
theorem place_inj {offset offset' : Nat} {parts parts' : List (Bool × List UInt8)}
    (h : ∀ piece, (true, piece) ∈ parts → ∃ s, piece = Text.Utf8.encode s)
    (h' : ∀ piece, (true, piece) ∈ parts' → ∃ s, piece = Text.Utf8.encode s)
    (hsame : place offset parts = place offset' parts') : parts = parts' := by
  induction parts generalizing offset offset' parts' with
  | nil =>
    cases parts' with
    | nil => rfl
    | cons part' parts' => cases hsame
  | cons part parts ih =>
    obtain ⟨kind, piece⟩ := part
    cases parts' with
    | nil => cases hsame
    | cons part' parts' =>
      obtain ⟨kind', piece'⟩ := part'
      obtain ⟨hfirst, hrest⟩ := List.cons.inj hsame
      rw [ih (fun piece hp => h piece (List.mem_cons_of_mem _ hp))
        (fun piece hp => h' piece (List.mem_cons_of_mem _ hp)) hrest]
      cases kind <;> cases kind'
      case false.false => rw [(Run.bytes.inj hfirst).2]
      case true.true =>
        rw [eq_of_lossy_eq (h piece List.mem_cons_self) (h' piece' List.mem_cons_self) (Run.text.inj hfirst).2]
      case false.true => cases hfirst
      case true.false => cases hfirst

/-! ### The document of an image -/

section Document

variable {l l' : Listing} (ht : l.Textual) (ht' : l'.Textual)
include ht ht'

theorem lines_eq_of_document (h : l.document.field? "code" = l'.document.field? "code") : l.lines = l'.lines := by
  have hlines : l.lines.map Line.document = l'.lines.map Line.document := Json.arr.inj (Option.some.inj h)
  exact eq_of_map_eq
    (fun line h line' h' => Line.document_inj (ht.operands line h) (ht'.operands line' h')) hlines

theorem data_eq_of_document (h : l.document.field? "data" = l'.document.field? "data") : l.data = l'.data := by
  have hruns : l.runs.map Run.document = l'.runs.map Run.document := Json.arr.inj (Option.some.inj h)
  have hstretches : stretches l.data = stretches l'.data :=
    place_inj (fun piece hp => ht.data piece (longestText_iff.mpr hp))
      (fun piece hp => ht'.data piece (longestText_iff.mpr hp))
      (eq_of_map_eq (fun _ _ _ _ => Run.document_inj) hruns)
  rw [← (cut_stretches l.data).whole, hstretches, (cut_stretches l'.data).whole]

end Document

/-- The code is encoded again from the lines that show it. -/
theorem code_eq_of_lines {img img' : Image} {lines : List Line} (h : linesOf img = .ok lines)
    (h' : linesOf img' = .ok lines) : img.code = img'.code := by
  obtain ⟨is, -, hcode, rfl⟩ := linesOf_eq_ok_iff.mp h
  obtain ⟨is', -, hcode', hsame⟩ := linesOf_eq_ok_iff.mp h'
  have his := congrArg (List.map Line.instruction) hsame
  rw [map_instruction_layOut, map_instruction_layOut] at his
  rw [hcode, hcode', his]

/-- **The document of a listing loses nothing.** Let two images be made from bytes and have listings in
which all that is shown as text is UTF-8. If their documents agree on every field but the digest, the
images are the same. And the documents are written alike only if the images are the same. -/
theorem document_is_lossless {bytes bytes' : List UInt8} {img img' : Image} {l l' : Listing}
    (himg : Image.ofBytes bytes = .ok img) (himg' : Image.ofBytes bytes' = .ok img')
    (hl : ofImage img = .ok l) (hl' : ofImage img' = .ok l') (ht : l.Textual) (ht' : l'.Textual) :
    ((∀ name, name ≠ "sha256" → l.document.field? name = l'.document.field? name) ↔ img = img') ∧
      (l.json = l'.json ↔ img = img') := by
  have hfields : (∀ name, name ≠ "sha256" → l.document.field? name = l'.document.field? name) → img = img' := by
    intro h
    obtain ⟨hlines, hshows⟩ := ofImage_eq_ok_iff.mp hl
    obtain ⟨hlines', hshows'⟩ := ofImage_eq_ok_iff.mp hl'
    have hoffset : l.dataOffset = l'.dataOffset :=
      Int.ofNat.inj (Json.int.inj (Option.some.inj (h "data_offset" (by decide))))
    have hsame := lines_eq_of_document ht ht' (h "code" (by decide))
    have hdata := data_eq_of_document ht ht' (h "data" (by decide))
    rw [← hsame] at hlines'
    rw [hshows, hshows'] at hoffset hdata
    exact Image.eq_of_parts himg himg' hoffset (code_eq_of_lines hlines hlines') hdata
  have hlisting : img = img' → l = l' := by
    rintro rfl
    exact Except.ok.inj (hl.symm.trans hl')
  refine ⟨⟨hfields, fun h => ?_⟩, fun h => hfields fun name _ => ?_, fun h => ?_⟩
  · rw [hlisting h]
    exact fun _ _ => rfl
  · rw [Json.pretty_inj h]
  · rw [hlisting h]

/-- Two images that differ in the last byte of the data, which is no text. The lines are the same, and
so is all that is shown as text; the documents differ nevertheless. -/
theorem document_is_lossless_last_byte :
    let img (b : UInt8) : Image := ⟨[8, 0, 0, 0, 6, 195, 169, 0, 195, 169, b], 8⟩
    let l (b : UInt8) : Listing :=
      ⟨11, 8, (img b).digest, [⟨4, ⟨.pushString, [.text [195, 169]]⟩⟩], [195, 169, b]⟩
    (∀ b < 32, Image.ofBytes (img b).bytes = .ok (img b) ∧ ofImage (img b) = .ok (l b) ∧ (l b).Textual) ∧
      (¬ ∀ name, name ≠ "sha256" → (l 0).document.field? name = (l 1).document.field? name) ∧
      (l 0).json ≠ (l 1).json := by
  intro img l
  have htext : ∃ s, ([195, 169] : List UInt8) = Text.Utf8.encode s := ⟨"\u00e9", by decide⟩
  have hlisted : ∀ b < 32, Image.ofBytes (img b).bytes = .ok (img b) ∧ ofImage (img b) = .ok (l b) ∧
      (l b).Textual := by
    intro b hb
    refine ⟨rfl, ofImage_eq_ok_iff.mpr ⟨rfl, rfl⟩, ?_, fun piece hpiece => ?_⟩
    · intro line hline bytes hbytes
      obtain rfl : line = ⟨4, ⟨.pushString, [.text [195, 169]]⟩⟩ := List.mem_singleton.mp hline
      obtain rfl : bytes = [195, 169] := Operand.text.inj (List.mem_singleton.mp hbytes)
      exact htext
    · have hcut : Cut (l b).data [(true, [195, 169]), (false, [b])] := by
        refine ⟨rfl, ?_, by simp⟩
        simpa using ⟨by decide, not_isText_iff.mpr hb⟩
      rw [longestText_iff, ← cut_iff.mp hcut] at hpiece
      obtain rfl : piece = [195, 169] := by simpa using hpiece
      exact htext
  obtain ⟨himg, hl, ht⟩ := hlisted 0 (by decide)
  obtain ⟨himg', hl', ht'⟩ := hlisted 1 (by decide)
  obtain ⟨hfields, hjson⟩ := document_is_lossless himg himg' hl hl' ht ht'
  have hne : img 0 ≠ img 1 := by decide
  exact ⟨hlisted, fun h => hne (hfields.mp h), fun h => hne (hjson.mp h)⟩

end Listing

end StackCode
