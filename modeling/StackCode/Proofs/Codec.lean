import StackCode.Instruction
import StackCode.Proofs.Result

/-!
# Reading what was written

Each reader of an image is specified by the bytes it accepts: from a cursor it gives a
result and a later cursor exactly when the bytes between the two are the encoding of the
result (`Cursor.Reads`). The specifications of the readers compose as the readers do, and
the last of them says of instructions that decoding and encoding are inverse to each other
(`Instruction.decode_eq_ok_iff`).

A table can be written whatever its length, but the count before its entries is a signed
word, so the encoding of a table with `2 ^ 31` entries or more is not read back. The
statements are about instructions whose tables are shorter (`Instruction.CountsFit`); every
instruction that is read is one of them.
-/

namespace StackCode

open Result

/-! ### Words -/

namespace Word

theorem toInt_ofNat {n : Nat} (h : n < 2147483648) : (Int32.ofNat n).toInt = n :=
  Int32.toInt_ofNat_of_lt h

theorem toNat?_ofNat {n : Nat} (h : n < 2147483648) : toNat? (Int32.ofNat n) = some n :=
  toNat?_eq_some.mpr (toInt_ofNat h)

theorem lt_of_toNat? {w : Int32} {n : Nat} (h : toNat? w = some n) : n < 2147483648 := by
  have hw := toNat?_eq_some.mp h
  have hlt := w.toInt_lt
  omega

theorem ofNat_of_toNat? {w : Int32} {n : Nat} (h : toNat? w = some n) : Int32.ofNat n = w := by
  apply Int32.toInt_inj.mp
  rw [toInt_ofNat (lt_of_toNat? h), toNat?_eq_some.mp h]

end Word

namespace Cursor

/-! ### What lies between two cursors -/

/-- The bytes between the cursors `c` and `c'` are `bs`. -/
structure Reads (c : Cursor) (bs : List UInt8) (c' : Cursor) : Prop where
  rest : c.rest = bs ++ c'.rest
  offset : c'.offset = c.offset + bs.length

theorem Reads.refl (c : Cursor) : Reads c [] c := ⟨rfl, rfl⟩

theorem reads_nil_iff {c c' : Cursor} : Reads c [] c' ↔ c' = c := by
  constructor
  · rintro ⟨hr, ho⟩
    cases c
    cases c'
    simp_all
  · rintro rfl
    exact Reads.refl _

/-- Bytes that are read one part after the other. -/
theorem reads_append_iff {c c' : Cursor} {bs bs' : List UInt8} :
    Reads c (bs ++ bs') c' ↔ ∃ d, Reads c bs d ∧ Reads d bs' c' := by
  constructor
  · rintro ⟨hr, ho⟩
    rw [List.append_assoc] at hr
    rw [List.length_append] at ho
    exact ⟨⟨c.offset + bs.length, bs' ++ c'.rest⟩, ⟨hr, rfl⟩, ⟨rfl, by rw [ho]; simp only []; omega⟩⟩
  · rintro ⟨d, ⟨hr, ho⟩, ⟨hr', ho'⟩⟩
    refine ⟨by rw [hr, hr', List.append_assoc], ?_⟩
    rw [ho', ho, List.length_append]
    omega

/-! ### The readers -/

/-- A word is read exactly from its four bytes. -/
theorem word_eq_ok_iff {c c' : Cursor} {w : Int32} :
    c.word = .ok (w, c') ↔ Reads c (Word.bytes w) c' := by
  constructor
  · intro h
    unfold word at h
    split at h
    · next b0 b1 b2 b3 rest hr =>
      simp only [Except.ok.injEq, Prod.mk.injEq] at h
      obtain ⟨rfl, rfl⟩ := h
      exact ⟨by rw [hr, Word.bytes_ofFour]; rfl, rfl⟩
    · cases h
  · rintro ⟨hr, ho⟩
    obtain ⟨b0, b1, b2, b3, hb⟩ : ∃ b0 b1 b2 b3, Word.bytes w = [b0, b1, b2, b3] := ⟨_, _, _, _, rfl⟩
    have hw : Word.ofFour b0 b1 b2 b3 = w := Word.ofFour_bytes hb
    rw [hb] at hr ho
    unfold word
    simp only [hr, List.cons_append, List.nil_append, hw, Except.ok.injEq, Prod.mk.injEq, true_and]
    cases c'
    simp_all [Word.size]

/-- What is read a number of times is read exactly from the bytes of all results, one after the
other. -/
theorem repeat_eq_ok_iff {α : Type} {read : Cursor → Except CodecError (α × Cursor)}
    {many : Nat → Cursor → Except CodecError (List α × Cursor)} {bytes : α → List UInt8}
    {P : α → Prop} (hzero : ∀ c, many 0 c = .ok ([], c))
    (hsucc : ∀ n c, many (n + 1) c = do
      let (a, c) ← read c
      let (as, c) ← many n c
      return (a :: as, c))
    (hread : ∀ c c' a, read c = .ok (a, c') ↔ P a ∧ Reads c (bytes a) c')
    {n : Nat} {c c' : Cursor} {as : List α} :
    many n c = .ok (as, c') ↔
      as.length = n ∧ (∀ a ∈ as, P a) ∧ Reads c (as.flatMap bytes) c' := by
  induction n generalizing c as with
  | zero =>
    simp only [hzero, Except.ok.injEq, Prod.mk.injEq, List.length_eq_zero_iff]
    constructor
    · rintro ⟨rfl, rfl⟩
      exact ⟨rfl, nofun, Reads.refl c⟩
    · rintro ⟨rfl, -, h⟩
      exact ⟨rfl, (reads_nil_iff.mp h).symm⟩
  | succ n ih =>
    rw [hsucc, bind_eq_ok_iff]
    constructor
    · rintro ⟨⟨a, d⟩, ha, h⟩
      obtain ⟨⟨as', d'⟩, has, h⟩ := bind_eq_ok_iff.mp h
      cases pure_eq_ok_iff.mp h
      obtain ⟨hlen, hvalid, hr⟩ := ih.mp has
      obtain ⟨hfirst, hd⟩ := (hread _ _ _).mp ha
      refine ⟨by rw [List.length_cons, hlen], List.forall_mem_cons.mpr ⟨hfirst, hvalid⟩, ?_⟩
      rw [List.flatMap_cons, reads_append_iff]
      exact ⟨d, hd, hr⟩
    · rintro ⟨hlen, hvalid, h⟩
      obtain ⟨a, as', rfl⟩ := List.exists_cons_of_length_eq_add_one hlen
      obtain ⟨hfirst, hrest⟩ := List.forall_mem_cons.mp hvalid
      rw [List.flatMap_cons, reads_append_iff] at h
      obtain ⟨d, ha, has⟩ := h
      refine ⟨(a, d), (hread _ _ _).mpr ⟨hfirst, ha⟩, bind_eq_ok_iff.mpr ⟨(as', c'), ?_, rfl⟩⟩
      exact ih.mpr ⟨by simpa using hlen, hrest, has⟩

/-- Words are read exactly from their bytes, one after the other. -/
theorem words_eq_ok_iff {n : Nat} {c c' : Cursor} {ws : List Int32} :
    words n c = .ok (ws, c') ↔ ws.length = n ∧ Reads c (ws.flatMap Word.bytes) c' := by
  rw [repeat_eq_ok_iff (P := fun _ => True) (fun _ => rfl) (fun _ _ => rfl) fun _ _ _ => by
    rw [word_eq_ok_iff, true_and]]
  simp

/-- A string is read exactly from bytes without a NUL and the NUL behind them. -/
theorem string_eq_ok_iff {c c' : Cursor} {s : List UInt8} :
    c.string = .ok (s, c') ↔ 0 ∉ s ∧ Reads c (s ++ [0]) c' := by
  constructor
  · intro h
    unfold string at h
    simp only at h
    split at h
    · cases h
    · next b rest hd =>
      simp only [Except.ok.injEq, Prod.mk.injEq] at h
      obtain ⟨rfl, rfl⟩ := h
      obtain rfl : b = 0 := by
        have := List.head?_dropWhile_not (· ≠ (0 : UInt8)) c.rest
        rw [hd] at this
        simpa using this
      refine ⟨fun hmem => ?_, ⟨?_, ?_⟩⟩
      · have := List.all_eq_true.mp List.all_takeWhile _ hmem
        simp at this
      · rw [List.append_assoc, List.singleton_append, ← hd, List.takeWhile_append_dropWhile]
      · simp only [List.length_append, List.length_singleton]
        omega
  · rintro ⟨hs, hr, ho⟩
    have hp : ∀ b ∈ s, (decide (b ≠ (0 : UInt8))) = true := by
      intro b hb
      exact decide_eq_true fun h0 => hs (h0 ▸ hb)
    have htake : c.rest.takeWhile (· ≠ 0) = s := by
      rw [hr, List.append_assoc, List.takeWhile_append_of_pos hp]
      simp
    have hdrop : c.rest.dropWhile (· ≠ 0) = 0 :: c'.rest := by
      rw [hr, List.append_assoc, List.dropWhile_append_of_pos hp]
      simp
    unfold string
    simp only [htake, hdrop, Except.ok.injEq, Prod.mk.injEq, true_and]
    cases c'
    simp_all [Nat.add_assoc]

/-- Strings are read exactly from their bytes, each with a NUL behind it. -/
theorem strings_eq_ok_iff {n : Nat} {c c' : Cursor} {ss : List (List UInt8)} :
    strings n c = .ok (ss, c') ↔
      ss.length = n ∧ (∀ s ∈ ss, 0 ∉ s) ∧ Reads c (ss.flatMap (· ++ [0])) c' :=
  repeat_eq_ok_iff (fun _ => rfl) (fun _ _ => rfl) fun _ _ _ => string_eq_ok_iff

end Cursor

/-! ### Operands -/

/-- The number of entries of a table fits into the word that counts them. -/
def Operand.CountFits : Operand → Prop
  | .table entries => entries.length < 2147483648
  | _ => True

instance : (o : Operand) → Decidable o.CountFits
  | .int _ => isTrue trivial
  | .text _ => isTrue trivial
  | .table entries => inferInstanceAs (Decidable (entries.length < 2147483648))

/-- The number of entries of each table of an instruction fits into the word that counts
them. -/
def Instruction.CountsFit (i : Instruction) : Prop := ∀ o ∈ i.operands, o.CountFits

instance (i : Instruction) : Decidable i.CountsFit :=
  inferInstanceAs (Decidable (∀ o ∈ i.operands, o.CountFits))

namespace Cursor

/-- A table is read exactly from its count and its entries. -/
theorem table_eq_ok_iff {c c' : Cursor} {entries : List Int32} :
    c.table = .ok (entries, c') ↔
      (Operand.table entries).CountFits ∧ Reads c (Operand.table entries).bytes c' := by
  unfold table
  rw [bind_eq_ok_iff]
  simp only [Operand.CountFits, Operand.bytes]
  constructor
  · rintro ⟨⟨length, d⟩, hw, h⟩
    simp only at h
    split at h
    · cases h
    · next n hn =>
      split at h
      · cases h
      · obtain ⟨rfl, hr⟩ := words_eq_ok_iff.mp h
        refine ⟨Word.lt_of_toNat? hn, ?_⟩
        rw [Word.ofNat_of_toNat? hn, reads_append_iff]
        exact ⟨d, word_eq_ok_iff.mp hw, hr⟩
  · rintro ⟨hlen, h⟩
    rw [reads_append_iff] at h
    obtain ⟨d, hw, hr⟩ := h
    refine ⟨(Int32.ofNat entries.length, d), word_eq_ok_iff.mpr hw, ?_⟩
    -- the bytes of the entries are there, so the check of their number passes
    have henough : ¬ d.rest.length < Word.size * entries.length := by
      have hbytes : (entries.flatMap Word.bytes).length = Word.size * entries.length := by
        simp [List.length_flatMap, Nat.mul_comm]
      rw [hr.rest, List.length_append, hbytes]
      omega
    simp only [Word.toNat?_ofNat hlen, if_neg henough]
    exact words_eq_ok_iff.mpr ⟨rfl, hr⟩

theorem map_word_eq_ok_iff {c c' : Cursor} {o : Operand} :
    (c.word.map fun (n, d) => (Operand.int n, d)) = .ok (o, c') ↔
      ∃ n, o = .int n ∧ Reads c o.bytes c' := by
  rw [map_eq_ok_iff]
  constructor
  · rintro ⟨⟨n, d⟩, h, heq⟩
    cases heq
    exact ⟨n, rfl, word_eq_ok_iff.mp h⟩
  · rintro ⟨n, rfl, h⟩
    exact ⟨(n, c'), word_eq_ok_iff.mpr h, rfl⟩

theorem map_string_eq_ok_iff {c c' : Cursor} {o : Operand} :
    (c.string.map fun (s, d) => (Operand.text s, d)) = .ok (o, c') ↔
      ∃ s, o = .text s ∧ o.hasNul = false ∧ Reads c o.bytes c' := by
  rw [map_eq_ok_iff]
  constructor
  · rintro ⟨⟨s, d⟩, h, heq⟩
    cases heq
    obtain ⟨hs, hr⟩ := string_eq_ok_iff.mp h
    exact ⟨s, rfl, by simpa [Operand.hasNul] using hs, hr⟩
  · rintro ⟨s, rfl, hs, h⟩
    exact ⟨(s, c'), string_eq_ok_iff.mpr ⟨by simpa [Operand.hasNul] using hs, h⟩, rfl⟩

theorem map_table_eq_ok_iff {c c' : Cursor} {o : Operand} :
    (c.table.map fun (entries, d) => (Operand.table entries, d)) = .ok (o, c') ↔
      ∃ entries, o = .table entries ∧ o.CountFits ∧ Reads c o.bytes c' := by
  rw [map_eq_ok_iff]
  constructor
  · rintro ⟨⟨entries, d⟩, h, heq⟩
    cases heq
    exact ⟨entries, rfl, table_eq_ok_iff.mp h⟩
  · rintro ⟨entries, rfl, h⟩
    exact ⟨(entries, c'), table_eq_ok_iff.mpr h, rfl⟩

/-- An operand of a kind is read exactly from its bytes. -/
theorem operand_eq_ok_iff {c c' : Cursor} {kind : OperandKind} {o : Operand} :
    c.operand kind = .ok (o, c') ↔
      (o.fits kind = true ∧ o.hasNul = false ∧ o.CountFits) ∧ Reads c o.bytes c' := by
  cases kind <;> cases o <;>
    simp [operand, map_word_eq_ok_iff, map_string_eq_ok_iff, map_table_eq_ok_iff, Operand.fits,
      Operand.hasNul, Operand.CountFits]

/-- Operands are read exactly from their bytes, one after the other. -/
theorem operands_eq_ok_iff {kinds : List OperandKind} {c c' : Cursor} {os : List Operand} :
    operands kinds c = .ok (os, c') ↔
      (Instruction.fitAll os kinds = true ∧ os.any Operand.hasNul = false ∧
        ∀ o ∈ os, o.CountFits) ∧ Reads c (os.flatMap Operand.bytes) c' := by
  induction kinds generalizing c os with
  | nil =>
    cases os with
    | nil => simp [operands, Instruction.fitAll, reads_nil_iff, eq_comm]
    | cons o os => simp [operands, Instruction.fitAll]
  | cons kind kinds ih =>
    rw [operands, bind_eq_ok_iff]
    constructor
    · rintro ⟨⟨o, d⟩, ho, h⟩
      obtain ⟨⟨os', d'⟩, hos, h⟩ := bind_eq_ok_iff.mp h
      cases pure_eq_ok_iff.mp h
      obtain ⟨⟨hf, hn, hc⟩, hr⟩ := operand_eq_ok_iff.mp ho
      obtain ⟨⟨hfs, hns, hcs⟩, hrs⟩ := ih.mp hos
      refine ⟨⟨by simp [Instruction.fitAll, hf, hfs], by simp [hn, hns], ?_⟩, ?_⟩
      · exact List.forall_mem_cons.mpr ⟨hc, hcs⟩
      · rw [List.flatMap_cons, reads_append_iff]
        exact ⟨d, hr, hrs⟩
    · rintro ⟨⟨hfs, hns, hcs⟩, h⟩
      cases os with
      | nil => simp [Instruction.fitAll] at hfs
      | cons o os =>
        simp only [Instruction.fitAll, Bool.and_eq_true] at hfs
        simp only [List.any_cons, Bool.or_eq_false_iff] at hns
        obtain ⟨hc, hcs⟩ := List.forall_mem_cons.mp hcs
        rw [List.flatMap_cons, reads_append_iff] at h
        obtain ⟨d, hr, hrs⟩ := h
        refine ⟨(o, d), operand_eq_ok_iff.mpr ⟨⟨hfs.1, hns.1, hc⟩, hr⟩, ?_⟩
        exact bind_eq_ok_iff.mpr ⟨(os, c'), ih.mpr ⟨⟨hfs.2, hns.2, hcs⟩, hrs⟩, rfl⟩

end Cursor

/-! ### Instructions -/

namespace Instruction

theorem fitAll_cons {os : List Operand} {kind : OperandKind} {kinds : List OperandKind}
    (h : fitAll os (kind :: kinds) = true) :
    ∃ o rest, os = o :: rest ∧ o.fits kind = true ∧ fitAll rest kinds = true := by
  cases os with
  | nil => cases h
  | cons o rest =>
    rw [fitAll, Bool.and_eq_true] at h
    exact ⟨o, rest, rfl, h⟩

theorem fitAll_nil {os : List Operand} (h : fitAll os [] = true) : os = [] := by
  cases os with
  | nil => rfl
  | cons o rest => cases h

theorem fits_word {o : Operand} (h : o.fits .int = true ∨ o.fits .label = true) : ∃ n, o = .int n := by
  cases o with
  | int n => exact ⟨n, rfl⟩
  | text s => rcases h with h | h <;> cases h
  | table entries => rcases h with h | h <;> cases h

theorem fits_text {o : Operand} (h : o.fits .builtin = true ∨ o.fits .string = true) :
    ∃ s, o = .text s := by
  cases o with
  | int n => rcases h with h | h <;> cases h
  | text s => exact ⟨s, rfl⟩
  | table entries => rcases h with h | h <;> cases h

theorem fits_labelTable {o : Operand} (h : o.fits .labelTable = true) : ∃ entries, o = .table entries := by
  cases o with
  | int n => cases h
  | text s => cases h
  | table entries => exact ⟨entries, rfl⟩

theorem fitAll_word {os : List Operand} {kind : OperandKind} (hk : kind = .int ∨ kind = .label)
    (h : fitAll os [kind] = true) : ∃ n, os = [.int n] := by
  obtain ⟨o, rest, rfl, ho, hrest⟩ := fitAll_cons h
  obtain ⟨n, rfl⟩ := fits_word (hk.imp (· ▸ ho) (· ▸ ho))
  obtain rfl := fitAll_nil hrest
  exact ⟨n, rfl⟩

theorem fitAll_text {os : List Operand} {kind : OperandKind} (hk : kind = .builtin ∨ kind = .string)
    (h : fitAll os [kind] = true) : ∃ s, os = [.text s] := by
  obtain ⟨o, rest, rfl, ho, hrest⟩ := fitAll_cons h
  obtain ⟨s, rfl⟩ := fits_text (hk.imp (· ▸ ho) (· ▸ ho))
  obtain rfl := fitAll_nil hrest
  exact ⟨s, rfl⟩

theorem fitAll_table {os : List Operand} (h : fitAll os [.labelTable] = true) :
    ∃ entries, os = [.table entries] := by
  obtain ⟨o, rest, rfl, ho, hrest⟩ := fitAll_cons h
  obtain ⟨entries, rfl⟩ := fits_labelTable ho
  obtain rfl := fitAll_nil hrest
  exact ⟨entries, rfl⟩

/-- The instruction has an encoding, and one that is read back. -/
structure Encodable (i : Instruction) : Prop where
  fits : fitAll i.operands i.opcode.signature = true
  noNul : i.operands.any Operand.hasNul = false
  countsFit : i.CountsFit

theorem encode_eq_ok_iff {i : Instruction} {e : List UInt8} :
    i.encode = .ok e ↔
      fitAll i.operands i.opcode.signature = true ∧ i.operands.any Operand.hasNul = false ∧ e = i.bytes := by
  unfold encode
  cases fitAll i.operands i.opcode.signature with
  | false => simp
  | true =>
    cases i.operands.any Operand.hasNul with
    | true => simp
    | false => simp [eq_comm]

theorem encodable_iff {i : Instruction} : i.Encodable ↔ i.encode = .ok i.bytes ∧ i.CountsFit := by
  rw [encode_eq_ok_iff]
  constructor
  · rintro ⟨hf, hn, hc⟩
    exact ⟨⟨hf, hn, rfl⟩, hc⟩
  · rintro ⟨⟨hf, hn, -⟩, hc⟩
    exact ⟨hf, hn, hc⟩

theorem length_bytes_pos (i : Instruction) : 0 < i.bytes.length := by
  rw [bytes, List.length_cons]
  exact Nat.succ_pos _

end Instruction

/-- An instruction is read exactly from its encoding. -/
theorem Cursor.instruction_eq_ok_iff {c c' : Cursor} {i : Instruction} :
    c.instruction = .ok (i, c') ↔ i.Encodable ∧ Reads c i.bytes c' := by
  constructor
  · intro h
    unfold instruction at h
    split at h
    · cases h
    · next byte rest hrest =>
      split at h
      · cases h
      · next op hop =>
        obtain ⟨⟨os, d⟩, hos, heq⟩ := map_eq_ok_iff.mp h
        cases heq
        obtain ⟨⟨hf, hn, hc⟩, hr, ho⟩ := operands_eq_ok_iff.mp hos
        refine ⟨⟨hf, hn, hc⟩, ⟨?_, ?_⟩⟩
        · rw [hrest, Instruction.bytes, Opcode.byte_of_ofByte? hop, List.cons_append, ← hr]
        · rw [ho, Instruction.bytes, List.length_cons]
          simp only []
          omega
  · rintro ⟨⟨hf, hn, hc⟩, hr, ho⟩
    rw [Instruction.bytes, List.cons_append] at hr
    rw [Instruction.bytes, List.length_cons] at ho
    unfold instruction
    simp only [hr, Opcode.ofByte?_byte]
    refine map_eq_ok_iff.mpr ⟨(i.operands, c'), operands_eq_ok_iff.mpr ⟨⟨hf, hn, hc⟩, rfl, ?_⟩, rfl⟩
    simp only [ho]
    omega

namespace Instruction

/-- An instruction is found at an offset exactly if its encoding stands there. -/
theorem decode_eq_ok_iff_bytes {image : List UInt8} {offset : Nat} {i : Instruction} {n : Nat} :
    decode image offset = .ok (i, n) ↔
      i.Encodable ∧ n = i.bytes.length ∧ i.bytes <+: image.drop offset := by
  unfold decode
  rw [map_eq_ok_iff]
  constructor
  · rintro ⟨⟨j, c'⟩, h, heq⟩
    cases heq
    obtain ⟨he, hr, ho⟩ := Cursor.instruction_eq_ok_iff.mp h
    refine ⟨he, ?_, ⟨c'.rest, hr.symm⟩⟩
    simp only [ho, Cursor.seek]
    omega
  · rintro ⟨he, rfl, rest, hrest⟩
    refine ⟨(i, ⟨offset + i.bytes.length, rest⟩), ?_, ?_⟩
    · exact Cursor.instruction_eq_ok_iff.mpr ⟨he, hrest.symm, rfl⟩
    · simp

/-- The first `n` bytes from an offset on are a given encoding of `n` bytes. -/
theorem take_drop_eq_iff {image e : List UInt8} {offset n : Nat} :
    e.length = n ∧ (image.drop offset).take n = e ↔ n = e.length ∧ e <+: image.drop offset := by
  constructor
  · rintro ⟨rfl, h⟩
    exact ⟨rfl, List.prefix_iff_eq_take.mpr h.symm⟩
  · rintro ⟨rfl, h⟩
    exact ⟨rfl, (List.prefix_iff_eq_take.mp h).symm⟩

/-- **An instruction is read exactly where its encoding stands.** -/
theorem decode_eq_ok_iff {image : List UInt8} {offset : Nat} {i : Instruction} {n : Nat}
    (hc : i.CountsFit) :
    decode image offset = .ok (i, n) ↔
      ∃ e, i.encode = .ok e ∧ e.length = n ∧ (image.drop offset).take n = e := by
  simp only [take_drop_eq_iff, decode_eq_ok_iff_bytes, encodable_iff]
  constructor
  · rintro ⟨⟨he, -⟩, hn, hp⟩
    exact ⟨i.bytes, he, hn, hp⟩
  · rintro ⟨e, he, hn, hp⟩
    obtain rfl := (encode_eq_ok_iff.mp he).2.2
    exact ⟨⟨he, hc⟩, hn, hp⟩

/-- An encoding is read back, whatever stands before and behind it. -/
theorem decode_append {before e after : List UInt8} {i : Instruction} (hc : i.CountsFit)
    (he : i.encode = .ok e) : decode (before ++ e ++ after) before.length = .ok (i, e.length) := by
  rw [decode_eq_ok_iff hc]
  refine ⟨e, he, rfl, ?_⟩
  rw [List.append_assoc, List.drop_left, List.take_left]

/-- What is read is the encoding of the instruction that is found. -/
theorem encode_of_decode {image : List UInt8} {offset : Nat} {i : Instruction} {n : Nat}
    (h : decode image offset = .ok (i, n)) :
    i.CountsFit ∧ i.encode = .ok ((image.drop offset).take n) := by
  obtain ⟨he, hn, hp⟩ := decode_eq_ok_iff_bytes.mp h
  obtain ⟨-, heq⟩ := take_drop_eq_iff.mpr ⟨hn, hp⟩
  refine ⟨he.countsFit, ?_⟩
  rw [heq]
  exact (encodable_iff.mp he).1

/-- An instruction takes at least one byte and ends within the image. -/
theorem bounds_of_decode {image : List UInt8} {offset : Nat} {i : Instruction} {n : Nat}
    (h : decode image offset = .ok (i, n)) : 1 ≤ n ∧ offset + n ≤ image.length := by
  obtain ⟨-, rfl, hp⟩ := decode_eq_ok_iff_bytes.mp h
  have hpos := i.length_bytes_pos
  have hle := hp.length_le
  rw [List.length_drop] at hle
  omega

/-- Only the bytes of the instruction matter for what is read. -/
theorem decode_congr {image other : List UInt8} {offset at' : Nat} {i : Instruction} {n : Nat}
    (h : decode image offset = .ok (i, n))
    (hsame : (other.drop at').take n = (image.drop offset).take n) :
    decode other at' = .ok (i, n) := by
  obtain ⟨hc, he⟩ := encode_of_decode h
  rw [decode_eq_ok_iff hc] at h ⊢
  obtain ⟨e, he, hn, hp⟩ := h
  exact ⟨e, he, hn, hsame.trans hp⟩

/-- An encoding that begins with another one is that one. -/
theorem encode_prefix_free {i j : Instruction} {e t : List UInt8} (hi : i.CountsFit)
    (hj : j.CountsFit) (he : i.encode = .ok e) (het : j.encode = .ok (e ++ t)) : i = j ∧ t = [] := by
  have h₁ : decode ([] ++ e ++ t) 0 = .ok (i, e.length) := decode_append hi he
  have h₂ : decode ([] ++ (e ++ t) ++ []) 0 = .ok (j, (e ++ t).length) := decode_append hj het
  rw [List.nil_append] at h₁
  rw [List.nil_append, List.append_nil, h₁] at h₂
  simp only [Except.ok.injEq, Prod.mk.injEq, List.length_append] at h₂
  exact ⟨h₂.1, List.eq_nil_of_length_eq_zero (by omega)⟩

/-- **Decoding and encoding are inverse to each other.** An instruction is read exactly
where its encoding stands, whatever stands around it; what is read is a nonempty part of the
image and the encoding of what is found; an instruction has one encoding, and no encoding
begins with another one; and only the bytes that are consumed matter. -/
theorem decode_inverse_encode :
    (∀ (image : List UInt8) (offset : Nat) (i : Instruction) (n : Nat), i.CountsFit →
      (decode image offset = .ok (i, n) ↔
        ∃ e, i.encode = .ok e ∧ e.length = n ∧ (image.drop offset).take n = e)) ∧
    (∀ (before e after : List UInt8) (i : Instruction), i.CountsFit → i.encode = .ok e →
      decode (before ++ e ++ after) before.length = .ok (i, e.length)) ∧
    (∀ (image : List UInt8) (offset : Nat) (i : Instruction) (n : Nat),
      decode image offset = .ok (i, n) →
        1 ≤ n ∧ offset + n ≤ image.length ∧ i.CountsFit ∧
          i.encode = .ok ((image.drop offset).take n)) ∧
    (∀ (image other : List UInt8) (offset at' : Nat) (i : Instruction) (n m : Nat),
      decode image offset = .ok (i, n) → decode other at' = .ok (i, m) →
        m = n ∧ (other.drop at').take m = (image.drop offset).take n) ∧
    (∀ (i j : Instruction) (e t : List UInt8), i.CountsFit → j.CountsFit →
      i.encode = .ok e → j.encode = .ok (e ++ t) → i = j ∧ t = []) ∧
    (∀ (image other : List UInt8) (offset : Nat) (i : Instruction) (n : Nat),
      decode image offset = .ok (i, n) →
        (other.drop offset).take n = (image.drop offset).take n →
          decode other offset = .ok (i, n)) := by
  refine ⟨fun _ _ _ _ hc => decode_eq_ok_iff hc, fun _ _ _ _ hc he => decode_append hc he, ?_, ?_,
    fun _ _ _ _ hi hj he het => encode_prefix_free hi hj he het,
    fun _ _ _ _ _ h hsame => decode_congr h hsame⟩
  · intro image offset i n h
    obtain ⟨hpos, hle⟩ := bounds_of_decode h
    exact ⟨hpos, hle, encode_of_decode h⟩
  · intro image other offset at' i n m h h'
    -- both slices are the encoding of `i`, which also has the length of each
    have hslice : (other.drop at').take m = (image.drop offset).take n :=
      Except.ok.inj ((encode_of_decode h').2.symm.trans (encode_of_decode h).2)
    obtain ⟨-, hn, -⟩ := decode_eq_ok_iff_bytes.mp h
    obtain ⟨-, hm, -⟩ := decode_eq_ok_iff_bytes.mp h'
    exact ⟨hm.trans hn.symm, hslice⟩

/-- A jump through a table of two positions, one of them negative, between other bytes. -/
theorem decode_inverse_encode_table :
    CountsFit ⟨.jmpData, [.table [-1, 7]]⟩ ∧
      encode ⟨.jmpData, [.table [-1, 7]]⟩ = .ok [21, 2, 0, 0, 0, 255, 255, 255, 255, 7, 0, 0, 0] ∧
      decode ([255, 21] ++ [21, 2, 0, 0, 0, 255, 255, 255, 255, 7, 0, 0, 0] ++ [26, 0]) 2 =
        .ok (⟨.jmpData, [.table [-1, 7]]⟩, 13) :=
  ⟨by decide, by decide, decode_inverse_encode.2.1 [255, 21] _ [26, 0] _ (by decide) (by decide)⟩

end Instruction

end StackCode
