import StackCode.Proofs.Listing.Lines

/-!
# Which images have a listing

A listing is read one instruction after the other, from the header on, in the image cut off where
the data begins (`Decodes`). Reading can only go one way, since no encoding begins with another one,
so of all sequences of instructions that can be read from an offset on each is the beginning of the
longest (`Decodes.prefix_of_error`). The longest either ends where the data begins, and then the code
is a concatenation of encodings and the listing shows them (`Encodes`, `Adjoin`), or it ends before
that, at an offset where no instruction can be read, and why it cannot is why there is no listing
(`ofImage_eq_error_iff`).
-/

namespace StackCode

open Result

/-- What is read after an instruction is what stands behind it. -/
theorem Cursor.instruction_seek_eq_ok_iff {image : List UInt8} {offset : Nat} {i : Instruction}
    {next : Cursor} :
    (Cursor.seek image offset).instruction = .ok (i, next) ↔
      ∃ n, Instruction.decode image offset = .ok (i, n) ∧ next = Cursor.seek image (offset + n) := by
  rw [Cursor.instruction_eq_ok_iff]
  simp only [Instruction.decode_eq_ok_iff_bytes]
  constructor
  · rintro ⟨he, hr, ho⟩
    refine ⟨i.bytes.length, ⟨he, rfl, ⟨next.rest, hr.symm⟩⟩, ?_⟩
    have hrest : next.rest = image.drop (offset + i.bytes.length) := by
      rw [← List.drop_drop, show image.drop offset = i.bytes ++ next.rest from hr, List.drop_left]
    cases next
    simp_all [Cursor.seek]
  · rintro ⟨_, ⟨he, rfl, rest, hrest⟩, rfl⟩
    refine ⟨he, ?_, rfl⟩
    simp only [Cursor.seek, ← List.drop_drop, ← hrest, List.drop_left]

theorem Cursor.instruction_seek_eq_error_iff {image : List UInt8} {offset : Nat} {e : CodecError} :
    (Cursor.seek image offset).instruction = .error e ↔ Instruction.decode image offset = .error e := by
  rw [Instruction.decode]
  cases (Cursor.seek image offset).instruction <;> simp [Except.map]

namespace Listing

/-! ### Encodings one after the other -/

/-- Bytes are the encodings of instructions, one after the other. -/
structure Encodes (is : List Instruction) (bytes : List UInt8) : Prop where
  countsFit : ∀ i ∈ is, i.CountsFit
  encodings : ∃ es, List.Forall₂ (fun i e => i.encode = .ok e) is es ∧ es.flatten = bytes

theorem encodes_iff {is : List Instruction} {bytes : List UInt8} :
    Encodes is bytes ↔ (∀ i ∈ is, i.Encodable) ∧ bytes = is.flatMap Instruction.bytes := by
  constructor
  · rintro ⟨hcounts, es, hes, rfl⟩
    induction hes with
    | nil => exact ⟨nofun, rfl⟩
    | @cons i e is es he _ ih =>
      obtain ⟨hi, his⟩ := List.forall_mem_cons.mp hcounts
      obtain ⟨hencodable, hbytes⟩ := ih his
      obtain rfl := (Instruction.encode_eq_ok_iff.mp he).2.2
      refine ⟨List.forall_mem_cons.mpr ⟨Instruction.encodable_iff.mpr ⟨he, hi⟩, hencodable⟩, ?_⟩
      rw [List.flatten_cons, hbytes, List.flatMap_cons]
  · rintro ⟨hencodable, rfl⟩
    refine ⟨fun i hi => (hencodable i hi).countsFit, is.map Instruction.bytes, ?_, rfl⟩
    rw [List.forall₂_map_right_iff, List.forall₂_same]
    exact fun i hi => (Instruction.encodable_iff.mp (hencodable i hi)).1

/-- Bytes are the encodings of one sequence of instructions at most. -/
theorem Encodes.unique {is js : List Instruction} {bytes : List UInt8} (his : Encodes is bytes)
    (hjs : Encodes js bytes) : is = js := by
  rw [encodes_iff] at his hjs
  obtain ⟨his, rfl⟩ := his
  obtain ⟨hjs, hsame⟩ := hjs
  induction is generalizing js with
  | nil => exact (flatMap_bytes_eq_nil_iff.mp hsame.symm).symm
  | cons i is ih =>
    cases js with
    | nil => exact flatMap_bytes_eq_nil_iff.mp hsame
    | cons j js =>
      obtain ⟨hi, hrest⟩ := List.forall_mem_cons.mp his
      obtain ⟨hj, hrest'⟩ := List.forall_mem_cons.mp hjs
      rw [List.flatMap_cons, List.flatMap_cons] at hsame
      -- both sides begin with an encoding, and only one instruction can be read there
      have hfirst : Instruction.decode (i.bytes ++ is.flatMap Instruction.bytes) 0 =
          .ok (i, i.bytes.length) :=
        Instruction.decode_eq_ok_iff_bytes.mpr ⟨hi, rfl, List.prefix_append _ _⟩
      have hfirst' : Instruction.decode (j.bytes ++ js.flatMap Instruction.bytes) 0 =
          .ok (j, j.bytes.length) :=
        Instruction.decode_eq_ok_iff_bytes.mpr ⟨hj, rfl, List.prefix_append _ _⟩
      obtain rfl : i = j := by
        rw [hsame, hfirst'] at hfirst
        cases hfirst
        rfl
      rw [ih hrest hrest' (List.append_cancel_left hsame)]

/-- Lines stand one behind the other from an offset to another, without a gap. -/
inductive Adjoin : Nat → List Line → Nat → Prop where
  | nil (offset : Nat) : Adjoin offset [] offset
  | cons {line lines stop} (rest : Adjoin (line.offset + line.instruction.bytes.length) lines stop) :
    Adjoin line.offset (line :: lines) stop

theorem adjoin_layOut (offset : Nat) (is : List Instruction) :
    Adjoin offset (layOut offset is) (offset + (is.flatMap Instruction.bytes).length) := by
  induction is generalizing offset with
  | nil => exact .nil offset
  | cons i is ih =>
    rw [layOut, List.flatMap_cons, List.length_append, ← Nat.add_assoc]
    show Adjoin (Line.offset ⟨offset, i⟩) (⟨offset, i⟩ :: _) _
    exact .cons (ih _)

/-! ### Reading one instruction after the other -/

/-- Instructions are read one after the other, from an offset to another. -/
inductive Decodes (image : List UInt8) : Nat → List Instruction → Nat → Prop where
  | nil (offset : Nat) : Decodes image offset [] offset
  | cons {offset i n is stop} (first : Instruction.decode image offset = .ok (i, n))
    (rest : Decodes image (offset + n) is stop) : Decodes image offset (i :: is) stop

theorem Decodes.le {image : List UInt8} {offset stop : Nat} {is : List Instruction}
    (h : Decodes image offset is stop) : offset ≤ stop := by
  induction h with
  | nil => exact Nat.le_refl _
  | cons _ _ ih => omega

/-- Where no instruction can be read, the longest sequence has ended. -/
theorem Decodes.prefix_of_error {image : List UInt8} {offset stop stop' : Nat} {is js : List Instruction}
    {e : CodecError} (h : Decodes image offset is stop) (hstop : Instruction.decode image stop = .error e)
    (hjs : Decodes image offset js stop') : js <+: is := by
  induction h generalizing js with
  | nil =>
    cases hjs with
    | nil => exact List.prefix_rfl
    | cons first _ =>
      rw [hstop] at first
      cases first
  | cons first _ ih =>
    cases hjs with
    | nil => exact List.nil_prefix
    | cons first' rest' =>
      rw [first] at first'
      cases first'
      exact List.cons_prefix_cons.mpr ⟨rfl, ih hstop rest'⟩

/-- Reading from an offset on gets stuck before the end of the bytes. -/
def Stuck (image : List UInt8) (offset : Nat) (e : CodecError) : Prop :=
  ∃ is stop, Decodes image offset is stop ∧ stop < image.length ∧ Instruction.decode image stop = .error e

section Stuck

variable {image : List UInt8} {offset : Nat} {e : CodecError}

theorem not_stuck_of_end (h : image.length ≤ offset) : ¬ Stuck image offset e := by
  rintro ⟨is, stop, hread, hlt, -⟩
  exact absurd (Nat.le_trans h hread.le) (Nat.not_le_of_lt hlt)

theorem stuck_iff_of_ok {i : Instruction} {n : Nat} (h : Instruction.decode image offset = .ok (i, n)) :
    Stuck image offset e ↔ Stuck image (offset + n) e := by
  constructor
  · rintro ⟨is, stop, hread, hlt, herror⟩
    cases hread with
    | nil => exact absurd (h.symm.trans herror) nofun
    | cons first rest =>
      cases h.symm.trans first
      exact ⟨_, stop, rest, hlt, herror⟩
  · rintro ⟨is, stop, hread, hlt, herror⟩
    exact ⟨i :: is, stop, .cons h hread, hlt, herror⟩

theorem stuck_iff_of_error {e' : CodecError} (hlt : offset < image.length)
    (h : Instruction.decode image offset = .error e') : Stuck image offset e ↔ e' = e := by
  constructor
  · rintro ⟨is, stop, hread, -, herror⟩
    cases hread with
    | nil => exact Except.error.inj (h.symm.trans herror)
    | cons first _ => exact absurd (h.symm.trans first) nofun
  · rintro rfl
    exact ⟨[], offset, .nil offset, hlt, h⟩

/-- **Reading fails exactly if it gets stuck.** -/
theorem readLines_eq_error_iff {fuel : Nat} {done : Array Line} (hfuel : (image.drop offset).length ≤ fuel) :
    readLines fuel (Cursor.seek image offset) done = .error e ↔ Stuck image offset e := by
  rw [List.length_drop] at hfuel
  induction fuel generalizing offset done with
  | zero =>
    constructor
    · intro h
      cases h
    · exact fun h => absurd h (not_stuck_of_end (by omega))
  | succ fuel ih =>
    rw [readLines]
    split
    · next hempty =>
      constructor
      · intro h
        cases h
      · exact fun h => absurd h (not_stuck_of_end (by simpa [Cursor.seek] using hempty))
    · next hnonempty =>
      split
      · next i next hi =>
        obtain ⟨n, hdecode, rfl⟩ := Cursor.instruction_seek_eq_ok_iff.mp hi
        have hpos := (Instruction.bounds_of_decode hdecode).1
        rw [stuck_iff_of_ok hdecode]
        exact ih (by omega)
      · next e' he' =>
        have hlt : offset < image.length := by simpa [Cursor.seek] using hnonempty
        rw [stuck_iff_of_error hlt (Cursor.instruction_seek_eq_error_iff.mp he'), Except.error.injEq]

end Stuck

/-- As many steps as there are bytes are always enough: more of them change nothing. -/
theorem readLines_of_length_le {image : List UInt8} {offset fuel fuel' : Nat} {done : Array Line}
    (h : (image.drop offset).length ≤ fuel) (h' : (image.drop offset).length ≤ fuel') :
    readLines fuel (Cursor.seek image offset) done = readLines fuel' (Cursor.seek image offset) done := by
  cases hresult : readLines fuel' (Cursor.seek image offset) done with
  | ok lines => exact (readLines_eq_ok_iff h).mpr ((readLines_eq_ok_iff h').mp hresult)
  | error e => exact (readLines_eq_error_iff h).mpr ((readLines_eq_error_iff h').mp hresult)

/-! ### The listing of an image -/

theorem ofImage_eq_error_iff {img : Image} {e : CodecError} :
    ofImage img = .error e ↔ Stuck img.beforeData Image.headerSize e := by
  have hfuel : (img.beforeData.drop Image.headerSize).length ≤ img.dataOffset := by
    simp only [Image.beforeData, List.length_drop, List.length_take]
    omega
  have hread : readLines img.dataOffset (Cursor.seek img.beforeData Image.headerSize) #[] = .error e ↔
      Stuck img.beforeData Image.headerSize e := readLines_eq_error_iff hfuel
  rw [← hread, ofImage, linesOf]
  cases readLines img.dataOffset (Cursor.seek img.beforeData Image.headerSize) #[] <;>
    simp [Except.map, bind, Except.bind, pure, Except.pure]

/-- **An image has a listing exactly if its code is a concatenation of encodings**, of which there is
one sequence of instructions at most. (That the data begins neither in the header nor beyond the end
holds of every image that is loaded, linked or assembled.) Its lines show these instructions; the
first stands behind the header, each next one where the one before ends, and the last one ends where
the data begins. There is no listing exactly if in the image, cut off before the data, the longest
sequence of instructions that can be read from the header on ends before that, and the error says why
nothing can be read there. Reading ends after at most as many steps as the code has bytes. -/
theorem listing_iff_encodings {img : Image} (hw : img.WellFormed) :
    ((∃ l, ofImage img = .ok l) ↔ ∃ is, Encodes is img.code) ∧
    (∀ is js, Encodes is img.code → Encodes js img.code → is = js) ∧
    (∀ l, ofImage img = .ok l →
      Encodes (l.lines.map Line.instruction) img.code ∧ Adjoin Image.headerSize l.lines img.dataOffset) ∧
    (∀ e, ofImage img = .error e ↔
      ∃ is stop, Decodes img.beforeData Image.headerSize is stop ∧
        (∀ js stop', Decodes img.beforeData Image.headerSize js stop' → js <+: is) ∧
        stop < img.dataOffset ∧ Instruction.decode img.beforeData stop = .error e) ∧
    ∀ fuel, img.code.length ≤ fuel →
      (readLines fuel (Cursor.seek img.beforeData Image.headerSize) #[]).map Array.toList = linesOf img := by
  have hsize : img.beforeData.length = img.dataOffset := by
    rw [Image.beforeData, List.length_take]
    exact Nat.min_eq_left hw.le_size
  have hlines : ∀ l, ofImage img = .ok l → ∃ is, Encodes is img.code ∧ l.lines = layOut Image.headerSize is := by
    intro l hl
    obtain ⟨is, hes, hcode, hlines⟩ := linesOf_eq_ok_iff.mp (ofImage_eq_ok_iff.mp hl).1
    exact ⟨is, encodes_iff.mpr ⟨hes, hcode⟩, hlines⟩
  refine ⟨⟨?_, ?_⟩, fun is js his hjs => his.unique hjs, fun l hl => ?_, fun e => ?_, fun fuel hfuel => ?_⟩
  · rintro ⟨l, hl⟩
    obtain ⟨is, his, -⟩ := hlines l hl
    exact ⟨is, his⟩
  · rintro ⟨is, his⟩
    obtain ⟨hes, hcode⟩ := encodes_iff.mp his
    exact ⟨⟨_, _, _, _, _⟩, ofImage_eq_ok_iff.mpr ⟨linesOf_eq_ok_iff.mpr ⟨is, hes, hcode, rfl⟩, rfl⟩⟩
  · obtain ⟨is, his, hl⟩ := hlines l hl
    have hadjoin := adjoin_layOut Image.headerSize is
    rw [← (encodes_iff.mp his).2, hw.length_code] at hadjoin
    rw [hl, map_instruction_layOut]
    exact ⟨his, hadjoin⟩
  · rw [ofImage_eq_error_iff, Stuck, hsize]
    constructor
    · rintro ⟨is, stop, hread, hlt, herror⟩
      exact ⟨is, stop, hread, fun js stop' => hread.prefix_of_error herror, hlt, herror⟩
    · rintro ⟨is, stop, hread, -, hlt, herror⟩
      exact ⟨is, stop, hread, hlt, herror⟩
  · have hcode : img.code.length ≤ img.dataOffset := by
      rw [← hw.length_code]
      exact Nat.le_add_left _ _
    rw [linesOf]
    exact congrArg _ (readLines_of_length_le hfuel hcode)

/-- The third instruction is a string that ends in the data. Two instructions can be read, and the
string begins where the third stands. -/
theorem listing_iff_encodings_overrun :
    let img : Image := ⟨[13, 0, 0, 0, 10, 20, 4, 0, 0, 0, 6, 97, 98, 99, 0], 13⟩
    img.WellFormed ∧ (¬ ∃ is, Encodes is img.code) ∧ ofImage img = .error (.unterminatedString 11) := by
  intro img
  have hw : img.WellFormed := by decide
  obtain ⟨hiff, -, -, herror, -⟩ := listing_iff_encodings hw
  have hstop : Instruction.decode img.beforeData 10 = .error (.unterminatedString 11) := by decide
  have hread : Decodes img.beforeData Image.headerSize [⟨.pushUnit, []⟩, ⟨.jmp, [.int 4]⟩] 10 :=
    .cons (n := 1) (by decide) (.cons (n := 5) (by decide) (.nil 10))
  have hfails : ofImage img = .error (.unterminatedString 11) :=
    (herror _).mpr ⟨_, 10, hread, fun js stop => hread.prefix_of_error hstop, by decide, hstop⟩
  refine ⟨hw, ?_, hfails⟩
  rw [← hiff]
  rintro ⟨l, hl⟩
  cases hfails.symm.trans hl

end Listing

end StackCode
