import Mathlib.Data.List.Chain
import Mathlib.Data.List.TakeWhile
import Mathlib.Data.Option.Basic
import StackCode.Proofs.Listing.Lines

/-!
# The runs of the data

The data of an image is shown as runs, alternately of bytes that may be text and of other bytes.
There is only one way to cut bytes so (`cut_iff`): the first part ends where the first byte of the
other kind stands, since within a part there is none and the next part begins with one. What is shown
for a part says where it begins and of which kind it is, so the runs with the bytes that they cover
(`Dump`) are determined by the image.
-/

namespace StackCode.Listing

/-! ### Longest stretches -/

/-- A byte in front of others. -/
theorem stretches_cons (b : UInt8) (data : List UInt8) :
    stretches (b :: data) = match stretches data with
      | [] => [(isText b, [b])]
      | (kind, bytes) :: more =>
        if kind == isText b then (kind, b :: bytes) :: more
        else (isText b, [b]) :: (kind, bytes) :: more := rfl

/-- The first stretch has the kind of the first byte. -/
theorem exists_stretches_cons (b : UInt8) (data : List UInt8) :
    ∃ bytes more, stretches (b :: data) = (isText b, bytes) :: more := by
  rw [stretches_cons]
  split
  · exact ⟨[b], [], rfl⟩
  · next kind bytes more _ =>
    by_cases hkind : (kind == isText b) = true
    · rw [if_pos hkind, beq_iff_eq.mp hkind]
      exact ⟨b :: bytes, more, rfl⟩
    · rw [if_neg hkind]
      exact ⟨[b], (kind, bytes) :: more, rfl⟩

/-- Before bytes of the other kind, a byte is a stretch of its own. -/
theorem stretches_cons_of_ne {b : UInt8} {data : List UInt8}
    (h : ∀ c ∈ data.head?, isText c ≠ isText b) :
    stretches (b :: data) = (isText b, [b]) :: stretches data := by
  cases data with
  | nil => rfl
  | cons c data =>
    obtain ⟨bytes, more, hc⟩ := exists_stretches_cons c data
    have hkind : ¬ (isText c == isText b) = true := fun heq => h c rfl (beq_iff_eq.mp heq)
    rw [stretches_cons, hc]
    exact if_neg hkind

/-- Before a stretch of its kind, a byte belongs to it. -/
theorem stretches_cons_of_eq {b : UInt8} {data bytes : List UInt8} {more : List (Bool × List UInt8)}
    (h : stretches data = (isText b, bytes) :: more) :
    stretches (b :: data) = (isText b, b :: bytes) :: more := by
  rw [stretches_cons, h]
  exact if_pos (beq_self_eq_true _)

/-- Bytes of one kind, up to the first byte of the other kind, are the first stretch. -/
theorem stretches_append {kind : Bool} {piece rest : List UInt8} (hne : piece ≠ [])
    (hpiece : ∀ b ∈ piece, isText b = kind) (hrest : ∀ c ∈ rest.head?, isText c ≠ kind) :
    stretches (piece ++ rest) = (kind, piece) :: stretches rest := by
  induction piece with
  | nil => exact absurd rfl hne
  | cons b piece ih =>
    obtain ⟨rfl, hpiece⟩ := List.forall_mem_cons.mp hpiece
    cases piece with
    | nil => exact stretches_cons_of_ne hrest
    | cons c piece => exact stretches_cons_of_eq (ih (List.cons_ne_nil _ _) hpiece)

/-! ### Cutting bytes where the kind changes -/

/-- Bytes are cut into parts, each with its kind, wherever the kind changes. -/
structure Cut (data : List UInt8) (parts : List (Bool × List UInt8)) : Prop where
  /-- Nothing is left out, and nothing is there twice. -/
  whole : parts.flatMap Prod.snd = data
  /-- A part is not empty, and all its bytes are of its kind. -/
  uniform : ∀ part ∈ parts, part.2 ≠ [] ∧ ∀ b ∈ part.2, isText b = part.1
  /-- A part is followed by one of the other kind. -/
  alternate : parts.IsChain fun p q => p.1 ≠ q.1

theorem cut_stretches (data : List UInt8) : Cut data (stretches data) := by
  induction data with
  | nil => exact ⟨rfl, nofun, .nil⟩
  | cons b data ih =>
    rw [stretches_cons]
    split
    · next hnil =>
      obtain rfl : data = [] := by rw [← ih.whole, hnil]; rfl
      exact ⟨rfl, by simp, .singleton _⟩
    · next kind bytes more hmore =>
      rw [hmore] at ih
      obtain ⟨hfirst, hrest⟩ := List.forall_mem_cons.mp ih.uniform
      by_cases hkind : (kind == isText b) = true
      · rw [if_pos hkind]
        refine ⟨congrArg (b :: ·) ih.whole, List.forall_mem_cons.mpr ⟨⟨List.cons_ne_nil _ _, ?_⟩, hrest⟩, ?_⟩
        · exact List.forall_mem_cons.mpr ⟨(beq_iff_eq.mp hkind).symm, hfirst.2⟩
        · exact List.isChain_cons.mpr (List.isChain_cons.mp ih.alternate)
      · rw [if_neg hkind]
        refine ⟨congrArg (b :: ·) ih.whole, List.forall_mem_cons.mpr ⟨by simp, ih.uniform⟩, ?_⟩
        exact .cons_cons (fun h => hkind (beq_iff_eq.mpr h.symm)) ih.alternate

section Cut

variable {data : List UInt8} {parts : List (Bool × List UInt8)}

/-- The first part is of the kind of the first byte. -/
theorem Cut.head?_kind (h : Cut data parts) : parts.head?.map Prod.fst = data.head?.map isText := by
  obtain ⟨rfl, huniform, -⟩ := h
  cases parts with
  | nil => rfl
  | cons part parts =>
    obtain ⟨hne, hkind⟩ := (List.forall_mem_cons.mp huniform).1
    rw [List.flatMap_cons, List.head?_append_of_ne_nil _ hne, List.head?_eq_some_head hne]
    exact congrArg some (hkind _ (List.head_mem hne)).symm

/-- The last part is of the kind of the last byte. -/
theorem Cut.getLast?_kind (h : Cut data parts) : parts.getLast?.map Prod.fst = data.getLast?.map isText := by
  obtain ⟨rfl, huniform, -⟩ := h
  rcases parts.eq_nil_or_concat with rfl | ⟨parts, part, rfl⟩
  · rfl
  · obtain ⟨hne, hkind⟩ := huniform part (by simp)
    rw [List.concat_eq_append, List.getLast?_concat, List.flatMap_append, List.flatMap_singleton,
      List.getLast?_append_of_ne_nil _ hne, List.getLast?_eq_some_getLast hne]
    exact congrArg some (hkind _ (List.getLast_mem hne)).symm

/-- Where the kind changes, bytes can be cut on both sides on their own. -/
theorem cut_append_iff {parts' : List (Bool × List UInt8)} :
    Cut data (parts ++ parts') ↔ ∃ before after, data = before ++ after ∧ Cut before parts ∧
      Cut after parts' ∧ ∀ b ∈ before.getLast?, ∀ c ∈ after.head?, isText b ≠ isText c := by
  have hkinds : ∀ {before after}, Cut before parts → Cut after parts' →
      ((∀ p ∈ parts.getLast?, ∀ q ∈ parts'.head?, p.1 ≠ q.1) ↔
        ∀ b ∈ before.getLast?, ∀ c ∈ after.head?, isText b ≠ isText c) := by
    intro before after hbefore hafter
    rw [← Option.forall_mem_map (p := fun k => ∀ q ∈ parts'.head?, k ≠ q.1), hbefore.getLast?_kind,
      Option.forall_mem_map]
    refine forall₂_congr fun b _ => ?_
    rw [← Option.forall_mem_map (p := fun k => isText b ≠ k), hafter.head?_kind, Option.forall_mem_map]
  constructor
  · rintro ⟨rfl, huniform, halternate⟩
    obtain ⟨hu, hu'⟩ := List.forall_mem_append.mp huniform
    obtain ⟨ha, ha', hne⟩ := List.isChain_append.mp halternate
    have hcut : Cut _ parts := ⟨rfl, hu, ha⟩
    have hcut' : Cut _ parts' := ⟨rfl, hu', ha'⟩
    exact ⟨_, _, List.flatMap_append, hcut, hcut', (hkinds hcut hcut').mp hne⟩
  · rintro ⟨before, after, rfl, h, h', hne⟩
    refine ⟨by rw [List.flatMap_append, h.whole, h'.whole], List.forall_mem_append.mpr ⟨h.uniform, h'.uniform⟩, ?_⟩
    exact List.isChain_append.mpr ⟨h.alternate, h'.alternate, (hkinds h h').mpr hne⟩

/-- **There is one way to cut bytes where the kind changes**, into the longest stretches. -/
theorem cut_iff : Cut data parts ↔ parts = stretches data := by
  constructor
  · intro h
    induction parts generalizing data with
    | nil =>
      obtain rfl := h.whole
      rfl
    | cons part parts ih =>
      have hcons : Cut data ([part] ++ parts) := h
      obtain ⟨piece, rest, rfl, hfirst, hrest, hne⟩ := cut_append_iff.mp hcons
      obtain ⟨hbytes, hkind⟩ := hfirst.uniform part (List.mem_singleton.mpr rfl)
      obtain rfl : part.2 = piece := by simpa using hfirst.whole
      rw [stretches_append hbytes hkind, ← ih hrest]
      intro c hc
      rw [← hkind _ (List.getLast_mem hbytes)]
      exact (hne _ (List.getLast?_eq_some_getLast hbytes) c hc).symm
  · rintro rfl
    exact cut_stretches data

end Cut

/-! ### Going through the bytes -/

/-- The runs that are found by going through bytes: a byte and those of its kind behind it are a run,
and so on behind the run. At most `fuel` of them. -/
def scan : Nat → Nat → List UInt8 → List Run
  | 0, _, _ => []
  | _ + 1, _, [] => []
  | fuel + 1, offset, b :: data =>
    let piece := b :: data.takeWhile fun c => isText c == isText b
    (if isText b then Run.text offset (Text.Utf8.lossy piece) else Run.bytes offset piece) ::
      scan fuel (offset + piece.length) (data.dropWhile fun c => isText c == isText b)

theorem stretches_cons_eq (b : UInt8) (data : List UInt8) :
    stretches (b :: data) = (isText b, b :: data.takeWhile fun c => isText c == isText b) ::
      stretches (data.dropWhile fun c => isText c == isText b) := by
  have hsplit : b :: data = (b :: data.takeWhile fun c => isText c == isText b) ++
      data.dropWhile fun c => isText c == isText b := by
    rw [List.cons_append, List.takeWhile_append_dropWhile]
  conv_lhs => rw [hsplit]
  refine stretches_append (List.cons_ne_nil _ _) (List.forall_mem_cons.mpr ⟨rfl, fun c hc => ?_⟩) fun c hc => ?_
  · have hkind : (isText c == isText b) = true :=
      List.mem_takeWhile_imp (p := fun c => isText c == isText b) hc
    exact beq_iff_eq.mp hkind
  · have hstop := List.head?_dropWhile_not (fun c => isText c == isText b) data
    rw [Option.mem_def.mp hc] at hstop
    exact beq_eq_false_iff_ne.mp hstop

/-- There are at most as many runs as bytes, so the search ends, and it finds the longest stretches. -/
theorem scan_eq_place {fuel : Nat} (offset : Nat) {data : List UInt8} (hfuel : data.length ≤ fuel) :
    scan fuel offset data = place offset (stretches data) := by
  induction fuel generalizing offset data with
  | zero =>
    obtain rfl := List.eq_nil_of_length_eq_zero (Nat.le_zero.mp hfuel)
    rfl
  | succ fuel ih =>
    cases data with
    | nil => rfl
    | cons b data =>
      have hrest : (data.dropWhile fun c => isText c == isText b).length ≤ fuel :=
        Nat.le_trans (List.length_dropWhile_le _ _) (Nat.le_of_succ_le_succ hfuel)
      rw [scan, stretches_cons_eq, place, ih _ hrest]

/-! ### Runs and the bytes that they cover -/

/-- Where a run begins. -/
def Run.offset : Run → Nat
  | .text offset _ => offset
  | .bytes offset _ => offset

/-- Whether a run is text. -/
def Run.isText : Run → Bool
  | .text .. => true
  | .bytes .. => false

/-- What a run shows of the bytes that it covers: of bytes that may be text the text, of other bytes
the bytes. -/
inductive Run.Covers : Run → List UInt8 → Prop where
  | text {offset bytes} (htext : ∀ b ∈ bytes, 32 ≤ b) : Covers (.text offset (Text.Utf8.lossy bytes)) bytes
  | bytes {offset bytes} (hbytes : ∀ b ∈ bytes, b < 32) : Covers (.bytes offset bytes) bytes

/-- Runs stand one behind the other from an offset to another, without a gap, and none is empty. -/
inductive Tiles : Nat → List Run → List (List UInt8) → Nat → Prop where
  | nil (offset : Nat) : Tiles offset [] [] offset
  | cons {run piece runs pieces stop} (nonempty : piece ≠ []) (covers : run.Covers piece)
    (rest : Tiles (run.offset + piece.length) runs pieces stop) :
    Tiles run.offset (run :: runs) (piece :: pieces) stop

/-- Runs are a dump of the data of an image: they cover all of it, from where it begins to the end of
the image, and a run of text and one of other bytes follow each other in turn. -/
structure Dump (img : Image) (runs : List Run) (pieces : List (List UInt8)) : Prop where
  tiles : Tiles img.dataOffset runs pieces img.size
  whole : pieces.flatten = img.data
  alternate : runs.IsChain fun r s => r.isText ≠ s.isText

theorem isText_iff {b : UInt8} : Listing.isText b = true ↔ 32 ≤ b := decide_eq_true_iff

theorem not_isText_iff {b : UInt8} : Listing.isText b = false ↔ b < 32 := by
  rw [Listing.isText, decide_eq_false_iff_not, UInt8.not_le]

theorem map_isText_place (offset : Nat) (parts : List (Bool × List UInt8)) :
    (place offset parts).map Run.isText = parts.map Prod.fst := by
  induction parts generalizing offset with
  | nil => rfl
  | cons part parts ih =>
    obtain ⟨kind, bytes⟩ := part
    rw [place, List.map_cons, ih]
    cases kind <;> rfl

/-- A run covers bytes exactly if it is the one made for them. -/
theorem Run.covers_iff {run : Run} {piece : List UInt8} :
    run.Covers piece ↔ ∃ kind, (∀ b ∈ piece, Listing.isText b = kind) ∧
      run = if kind then .text run.offset (Text.Utf8.lossy piece) else .bytes run.offset piece := by
  constructor
  · rintro (htext | hbytes)
    · exact ⟨true, fun b hb => isText_iff.mpr (htext b hb), rfl⟩
    · exact ⟨false, fun b hb => not_isText_iff.mpr (hbytes b hb), rfl⟩
  · rintro ⟨kind, hkind, hrun⟩
    rw [hrun]
    cases kind with
    | true => exact .text fun b hb => isText_iff.mp (hkind b hb)
    | false => exact .bytes fun b hb => not_isText_iff.mp (hkind b hb)

theorem tiles_place {parts : List (Bool × List UInt8)} (offset : Nat)
    (h : ∀ part ∈ parts, part.2 ≠ [] ∧ ∀ b ∈ part.2, Listing.isText b = part.1) :
    Tiles offset (place offset parts) (parts.map Prod.snd) (offset + (parts.flatMap Prod.snd).length) := by
  induction parts generalizing offset with
  | nil => exact .nil offset
  | cons part parts ih =>
    obtain ⟨⟨hne, hkind⟩, hparts⟩ := List.forall_mem_cons.mp h
    obtain ⟨kind, bytes⟩ := part
    rw [place, List.map_cons, List.flatMap_cons, List.length_append, ← Nat.add_assoc]
    have hrest := ih (offset + bytes.length) hparts
    cases kind with
    | true =>
      have hcovers : (Run.text offset (Text.Utf8.lossy bytes)).Covers bytes :=
        .text fun b hb => isText_iff.mp (hkind b hb)
      exact .cons hne hcovers hrest
    | false =>
      have hcovers : (Run.bytes offset bytes).Covers bytes :=
        .bytes fun b hb => not_isText_iff.mp (hkind b hb)
      exact .cons hne hcovers hrest

theorem Tiles.exists_parts {offset stop : Nat} {runs : List Run} {pieces : List (List UInt8)}
    (h : Tiles offset runs pieces stop) :
    ∃ parts : List (Bool × List UInt8), runs = place offset parts ∧ pieces = parts.map Prod.snd ∧
      ∀ part ∈ parts, part.2 ≠ [] ∧ ∀ b ∈ part.2, Listing.isText b = part.1 := by
  induction h with
  | nil offset => exact ⟨[], rfl, rfl, nofun⟩
  | @cons run piece runs pieces stop hne hcovers _ ih =>
    obtain ⟨kind, hkind, hrun⟩ := Run.covers_iff.mp hcovers
    obtain ⟨parts, rfl, rfl, hparts⟩ := ih
    refine ⟨(kind, piece) :: parts, ?_, rfl, List.forall_mem_cons.mpr ⟨⟨hne, hkind⟩, hparts⟩⟩
    rw [place]
    exact congrArg (· :: _) hrun

theorem dump_iff {img : Image} (hw : img.WellFormed) {runs : List Run} {pieces : List (List UInt8)} :
    Dump img runs pieces ↔
      runs = place img.dataOffset (stretches img.data) ∧ pieces = (stretches img.data).map Prod.snd := by
  constructor
  · rintro ⟨htiles, hwhole, halternate⟩
    obtain ⟨parts, rfl, rfl, huniform⟩ := htiles.exists_parts
    have hcut : Cut img.data parts := by
      refine ⟨by rw [← hwhole, List.flatMap_def], huniform, ?_⟩
      have hkinds := (List.isChain_map Run.isText).mpr halternate
      rw [map_isText_place] at hkinds
      exact (List.isChain_map Prod.fst).mp hkinds
    rw [cut_iff.mp hcut]
    exact ⟨rfl, rfl⟩
  · rintro ⟨rfl, rfl⟩
    obtain ⟨hwhole, huniform, halternate⟩ := cut_stretches img.data
    refine ⟨?_, by rw [← List.flatMap_def, hwhole], ?_⟩
    · have hsize : img.dataOffset + img.data.length = img.size := by
        rw [Image.data, List.length_drop]
        exact Nat.add_sub_of_le hw.le_size
      have htiles := tiles_place img.dataOffset huniform
      rwa [hwhole, hsize] at htiles
    · have hkinds := (List.isChain_map Prod.fst).mpr halternate
      rw [← map_isText_place img.dataOffset] at hkinds
      exact (List.isChain_map Run.isText).mp hkinds

/-- **The data is dumped faithfully, in the only way there is.** The runs of a listing cover the data
without a gap: the first begins where the data begins, each next one where the one before ends, and the
last one ends at the end of the image. No run is empty, runs of text and of other bytes follow each
other in turn, a run of text covers bytes from the space on and shows them as text, and the others cover
bytes below the space and show these. No other runs do so. Going through the data finds them, after
at most as many steps as there are bytes. -/
theorem data_is_dumped {img : Image} {l : Listing} (hw : img.WellFormed) (hl : ofImage img = .ok l) :
    (∃ pieces, Dump img l.runs pieces ∧
      ∀ runs pieces', Dump img runs pieces' → runs = l.runs ∧ pieces' = pieces) ∧
    ∀ fuel, img.data.length ≤ fuel → scan fuel img.dataOffset img.data = l.runs := by
  have hruns : l.runs = place img.dataOffset (stretches img.data) := by
    rw [(ofImage_eq_ok_iff.mp hl).2, runs]
  rw [hruns]
  refine ⟨⟨(stretches img.data).map Prod.snd, (dump_iff hw).mpr ⟨rfl, rfl⟩, ?_⟩, fun fuel => scan_eq_place _⟩
  exact fun runs pieces' h => (dump_iff hw).mp h

/-- The last byte that is no text and the first that is, and bytes that are not UTF-8. Cut in front of
these, the data would be shown by other runs, which are no dump. -/
theorem data_is_dumped_boundaries :
    let img : Image := ⟨[4, 0, 0, 0, 31, 32, 127, 128, 255, 0, 0], 4⟩
    let l : Listing := ⟨11, 4, img.digest, [], img.data⟩
    let other : List Run := [.bytes 4 [31], .text 5 " \x7f", .text 7 "\ufffd\ufffd", .bytes 9 [0, 0]]
    img.WellFormed ∧ ofImage img = .ok l ∧
      l.runs = [.bytes 4 [31], .text 5 " \x7f\ufffd\ufffd", .bytes 9 [0, 0]] ∧
      (∃ pieces, Dump img l.runs pieces) ∧ ¬ ∃ pieces, Dump img other pieces := by
  intro img l other
  have hw : img.WellFormed := by decide
  have hl : ofImage img = .ok l := ofImage_eq_ok_iff.mpr ⟨by decide, rfl⟩
  obtain ⟨⟨pieces, hdump, honly⟩, hscan⟩ := data_is_dumped hw hl
  have hruns : l.runs = [.bytes 4 [31], .text 5 " \x7f\ufffd\ufffd", .bytes 9 [0, 0]] :=
    (hscan 7 (by decide)).symm.trans (by decide +kernel)
  refine ⟨hw, hl, hruns, ⟨pieces, hdump⟩, fun ⟨pieces', hother⟩ => ?_⟩
  have hsame := (honly other pieces' hother).1
  rw [hruns] at hsame
  revert hsame
  decide

end StackCode.Listing
