import StackCode.Proofs.Builder.Instructions
import StackCode.Proofs.Machine.History
import StackCode.Proofs.Text.Utf8

/-!
# Type records

A type record is written into the pool by the builder and read by the printer, which is given no
more than its address. The record has no mark and no length: its reader follows the count and the
NULs. It reads what was written, whatever is around it, because it never reads further than the
record (`typeRecord_of_bytes`), and the address is that of the record because linking has put it
into the instructions that refer to it (`decode_of_emit`).
-/

namespace StackCode

open Result

/-! ### Reading a record -/

/-- **What is written as a type record is read back**, if no name has a NUL in it. -/
theorem Image.typeRecord_of_bytes {img : Image} {offset : Nat} {name : String}
    {constructors : List String} {rest : List UInt8}
    (hbytes : img.bytes.drop offset = Builder.recordBytes name constructors ++ rest)
    (hoffset : offset < 2147483648) (hcount : constructors.length < 2147483648)
    (hnul : ∀ s ∈ name :: constructors, Char.ofNat 0 ∉ s.toList) :
    img.typeRecord (Int32.ofNat offset) = .ok ⟨name, constructors⟩ := by
  obtain ⟨hname, hconstructors⟩ := List.forall_mem_cons.mp hnul
  obtain ⟨behind, hrecord⟩ : ∃ behind, (Cursor.seek img.bytes offset).Reads
      (Builder.recordBytes name constructors) behind :=
    ⟨⟨_, rest⟩, hbytes, rfl⟩
  rw [Builder.recordBytes, Cursor.reads_append_iff] at hrecord
  obtain ⟨c₂, hrecord, hstrings⟩ := hrecord
  obtain ⟨c₁, hword, hstring⟩ := Cursor.reads_append_iff.mp hrecord
  -- the three readers, one after the other
  have hread := Cursor.word_eq_ok_iff.mpr hword
  have hread₁ := Cursor.string_eq_ok_iff.mpr ⟨Text.Utf8.zero_not_mem_encode hname, hstring⟩
  have hread₂ : c₂.strings constructors.length = .ok (constructors.map Text.Utf8.encode, behind) := by
    refine Cursor.strings_eq_ok_iff.mpr ⟨List.length_map _, fun s hs => ?_, ?_⟩
    · obtain ⟨t, ht, rfl⟩ := List.mem_map.mp hs
      exact Text.Utf8.zero_not_mem_encode (hconstructors t ht)
    · rw [List.flatMap_map]
      exact hstrings
  have hlossy : (constructors.map Text.Utf8.encode).map Text.Utf8.lossy = constructors := by
    simp [Function.comp_def, Text.Utf8.lossy_encode]
  rw [Image.typeRecord, Word.toNat?_ofNat hoffset]
  simp only [hread, Word.toNat?_ofNat hcount, hread₁, hread₂, hlossy, Text.Utf8.lossy_encode, bind,
    Except.bind, pure, Except.pure]

/-- A constructor value without fields is printed as the name of the constructor and the name of the
type. -/
theorem Printer.render_data {p : Printer} {position ordinal : Int32} {r : TypeRecord} {name : String}
    (hrecord : p.image.typeRecord position = .ok r) (hname : r.constructor? ordinal = some name) :
    p.render .typed (.data position ordinal []) = .ok (name ++ ": " ++ r.name) := by
  have hread : p.record position = .ok r := by rw [record, hrecord]
  simp [render, text, texts, typeText, constructorName, hread, hname, bind, Except.bind, pure, Except.pure]

/-- A constructor value without fields is made. -/
theorem Machine.step_pushData {m : Machine} {position ordinal : Int32} {n : Nat}
    (hfetch : m.fetch = .ok (⟨.pushData, [.int position, .int ordinal, .int 0]⟩, n)) :
    m.step = .running
      { m with ip := m.ip + n, stack := .data position ordinal [] :: m.stack } := by
  have hzero : Word.toNat? 0 = some 0 := by decide
  refine (step_eq_running_iff hfetch rfl).mpr (run_eq_ok_iff.mpr ?_)
  simp only [perform, yields_bind, yields_popMany, hzero, Nat.not_lt_zero, if_false, List.take_zero,
    List.reverse_nil, List.drop_zero, yields_push, yields_pure, and_self]

namespace Builder

/-! ### Records of a linked program -/

section Record

variable {ops before after : List Op} {name : String} {constructors : List String} {d : DataRef}
  {img : Image} (hops : ops = before ++ .writeTypeRecord name constructors :: after)
  (hreply : ((performAll {} before).perform (.writeTypeRecord name constructors)).1 = .data d)
  (hcount : constructors.length < 2147483648)
  (hnul : ∀ s ∈ name :: constructors, Char.ofNat 0 ∉ s.toList)
  (hlink : (performAll {} ops).link = .ok img) (hfits : img.dataOffset + d.offset < 2147483648)
include hlink

/-- An instruction that makes a constructor value carries the address of its item of data. -/
theorem fetch_of_emit {earlier later : List Op} {id : BlockId} {ordinal count : Int32}
    (hemit : ops = earlier ++ .emit id .pushData [.data d, .int ordinal, .int count] :: later)
    (hid : id.number < (performAll {} earlier).blocks.length) {m : Machine} (hm : m.image = img)
    (hip : m.ip = (performAll {} ops).base id + (performAll {} earlier).offset id) :
    m.fetch = .ok (⟨.pushData,
      [.int (Int32.ofNat (img.dataOffset + d.offset)), .int ordinal, .int count]⟩, 13) := by
  obtain ⟨hin, hdecode⟩ := decode_of_emit hemit hid rfl hlink
  rw [← hip] at hin hdecode
  rw [Machine.fetch, hm, if_pos hin, hdecode, (dataOffset_of_link hlink).1]
  rfl

include hops hreply hcount hnul hfits

theorem typeRecord_of_reply :
    img.typeRecord (Int32.ofNat (img.dataOffset + d.offset)) = .ok ⟨name, constructors⟩ := by
  subst hops
  exact Image.typeRecord_of_bytes (drop_of_reply hlink hreply) hfits hcount hnul

/-- **Type records survive linking.** Let a type record be written at any moment while a builder is
filled, with names that have no NUL in them, and let the builder be linked so that the address of the
record fits into a word. Then the record is read at this address, with the name of the type and the
names of all constructors, whatever else has been emitted or put into the pool before and after. A
constructor value with this address and no fields is printed, for the ordinal of any constructor, as
the name of the constructor, a colon and the name of the type. An instruction that makes constructor
values and was emitted with the item of data, at any moment, carries this address; it stands where
the next byte of its block was to go, and makes the value with its ordinal when it takes no fields. -/
theorem type_record_survives_linking :
    let position := Int32.ofNat (img.dataOffset + d.offset)
    position.toInt = img.dataOffset + d.offset ∧
    img.typeRecord position = .ok ⟨name, constructors⟩ ∧
    (∀ (i : Nat) (s : String), constructors[i]? = some s → ∀ frames,
      (Printer.mk img frames).render .typed (.data position (Int32.ofNat i) []) =
        .ok (s ++ ": " ++ name)) ∧
    ∀ earlier id ordinal count later,
      ops = earlier ++ .emit id .pushData [.data d, .int ordinal, .int count] :: later →
      id.number < (performAll {} earlier).blocks.length →
      ∀ m : Machine, m.image = img →
        m.ip = (performAll {} ops).base id + (performAll {} earlier).offset id →
          m.fetch = .ok (⟨.pushData, [.int position, .int ordinal, .int count]⟩, 13) ∧
          (count = 0 → m.step = .running
            { m with ip := m.ip + 13, stack := .data position ordinal [] :: m.stack }) := by
  intro position
  have hrecord := typeRecord_of_reply hops hreply hcount hnul hlink hfits
  refine ⟨Word.toInt_ofNat hfits, hrecord, fun i s hs frames => ?_,
    fun earlier id ordinal count later hemit hid m hm hip => ?_⟩
  · have hi : i < 2147483648 := Nat.lt_trans (List.getElem?_eq_some_iff.mp hs).1 hcount
    refine Printer.render_data (p := ⟨img, frames⟩) hrecord ?_
    rw [TypeRecord.constructor?, Word.toNat?_ofNat hi, Option.bind_some, hs]
  · have hfetch := fetch_of_emit hlink hemit hid hm hip
    refine ⟨hfetch, ?_⟩
    rintro rfl
    exact Machine.step_pushData hfetch

end Record

/-- A record with a name that is empty and one that is not ASCII, between other data, and an
instruction that was emitted behind another. -/
theorem type_record_survives_linking_empty :
    let ops : List Op :=
      [.createBlock, .writeData [7], .writeTypeRecord "é" ["", "Ja"], .emit ⟨0⟩ .pushUnit [],
        .emit ⟨0⟩ .pushData [.data ⟨1⟩, .int 1, .int 0], .writeString "x"]
    let img : Image := ⟨[18, 0, 0, 0, 10, 2, 19, 0, 0, 0, 1, 0, 0, 0, 0, 0, 0, 0, 7, 2, 0, 0, 0, 195, 169,
      0, 0, 74, 97, 0, 120, 0], 18⟩
    let m : Machine := ⟨img, 5, [.unit], .initial, 0, {}⟩
    (performAll {} ops).link = .ok img ∧ img.typeRecord 19 = .ok ⟨"é", ["", "Ja"]⟩ ∧
      m.step = .running { m with ip := 18, stack := [.data 19 1 [], .unit] } ∧
      m.printer.render .typed (.data 19 1 []) = .ok "Ja: é" := by
  intro ops img m
  have hlink : (performAll {} ops).link = .ok img := by decide +kernel
  let before : List Op := [.createBlock, .writeData [7]]
  have hops : ops = before ++ .writeTypeRecord "é" ["", "Ja"] :: ops.drop 3 := rfl
  have hreply : ((performAll {} before).perform (.writeTypeRecord "é" ["", "Ja"])).1 = .data ⟨1⟩ := rfl
  have hnul : ∀ s ∈ ["é", "", "Ja"], Char.ofNat 0 ∉ s.toList := by decide +kernel
  obtain ⟨-, hrecord, hrender, hemit⟩ :=
    type_record_survives_linking hops hreply (by decide) hnul hlink (by decide)
  have hfetch := hemit (ops.take 4) ⟨0⟩ 1 0 (ops.drop 5) rfl (by decide) m rfl rfl
  exact ⟨hlink, hrecord, hfetch.2 rfl, hrender 1 "Ja" rfl .initial⟩

end Builder

end StackCode
