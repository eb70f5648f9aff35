import StackCode.Text.Utf8

/-!
# Reading back UTF-8

What is written as UTF-8 is read back: the decoder, fed with the bytes of a character,
arrives at that character, whatever it has read before. The first byte decides how many
bytes follow and, in the four cases where not every second byte is possible, which range
is left for it; the lemmas go byte by byte.
-/

namespace StackCode.Text.Utf8

theorem toNat_byte {n : Nat} (h : n < 256) : (UInt8.ofNat n).toNat = n := by
  rw [UInt8.toNat_ofNat']
  exact Nat.mod_eq_of_lt h

/-! ### One byte -/

section Feed

variable {read : Array (Option Char)} {byte : UInt8} {p : Pending}

theorem feed_whole {c : Char} (h : lead byte = .whole c) :
    Decoder.feed ⟨read, none⟩ byte = ⟨read.push (some c), none⟩ := by
  simp only [Decoder.feed, Decoder.start, h]

theorem feed_opens (h : lead byte = .opens p) : Decoder.feed ⟨read, none⟩ byte = ⟨read, some p⟩ := by
  simp only [Decoder.feed, Decoder.start, h]

/-- A byte in the middle of a character adds its six bits. -/
theorem feed_more {n : Nat} (hmore : 1 < p.more) (hlow : p.low ≤ n % 64 + 0x80) (hhigh : n % 64 + 0x80 ≤ p.high) :
    Decoder.feed ⟨read, some p⟩ (UInt8.ofNat (n % 64 + 0x80)) =
      ⟨read, some ⟨p.more - 1, 0x80, 0xBF, p.bits * 64 + n % 64⟩⟩ := by
  have hbits : (n % 64 + 0x80) % 64 = n % 64 := by omega
  simp only [Decoder.feed, toNat_byte (show n % 64 + 0x80 < 256 by omega), if_pos (And.intro hlow hhigh),
    if_neg (Nat.not_le.mpr hmore), hbits]

/-- The last byte of a character. -/
theorem feed_last {n : Nat} (hmore : p.more ≤ 1) (hlow : p.low ≤ n % 64 + 0x80) (hhigh : n % 64 + 0x80 ≤ p.high) :
    Decoder.feed ⟨read, some p⟩ (UInt8.ofNat (n % 64 + 0x80)) =
      ⟨read.push (some (Char.ofNat (p.bits * 64 + n % 64))), none⟩ := by
  have hbits : (n % 64 + 0x80) % 64 = n % 64 := by omega
  simp only [Decoder.feed, toNat_byte (show n % 64 + 0x80 < 256 by omega), if_pos (And.intro hlow hhigh),
    if_pos hmore, hbits]

end Feed

/-! ### The first byte -/

theorem lead_one {n : Nat} (h : n ≤ 0x7F) : lead (UInt8.ofNat n) = .whole (Char.ofNat n) := by
  simp only [lead, toNat_byte (show n < 256 by omega)]
  rw [if_pos (by omega)]

theorem lead_two {n : Nat} (hlow : 2 ≤ n) (hhigh : n < 32) :
    lead (UInt8.ofNat (n + 0xC0)) = .opens ⟨1, 0x80, 0xBF, n⟩ := by
  simp only [lead, toNat_byte (show n + 0xC0 < 256 by omega)]
  rw [if_neg (by omega), if_neg (by omega), if_pos (by omega), show (n + 0xC0) % 32 = n by omega]

/-- The first byte of three: after the least and after the one of the surrogates, the range
of the second byte is narrower. -/
theorem lead_three {n : Nat} (h : n < 16) :
    lead (UInt8.ofNat (n + 0xE0)) =
      .opens ⟨2, if n = 0 then 0xA0 else 0x80, if n = 13 then 0x9F else 0xBF, n⟩ := by
  simp only [lead, toNat_byte (show n + 0xE0 < 256 by omega)]
  rw [if_neg (by omega), if_neg (by omega), if_neg (by omega)]
  by_cases h0 : n = 0
  · subst h0
    rfl
  · by_cases h13 : n = 13
    · subst h13
      rfl
    · rw [if_neg (by omega), if_neg (by omega), if_pos (by omega), if_neg h0, if_neg h13,
        show (n + 0xE0) % 16 = n by omega]

/-- The first byte of four: after the least and after the greatest, the range of the second
byte is narrower. -/
theorem lead_four {n : Nat} (h : n ≤ 4) :
    lead (UInt8.ofNat (n + 0xF0)) =
      .opens ⟨3, if n = 0 then 0x90 else 0x80, if n = 4 then 0x8F else 0xBF, n⟩ := by
  simp only [lead, toNat_byte (show n + 0xF0 < 256 by omega)]
  rw [if_neg (by omega), if_neg (by omega), if_neg (by omega), if_neg (by omega), if_neg (by omega),
    if_neg (by omega)]
  by_cases h0 : n = 0
  · subst h0
    rfl
  · by_cases h4 : n = 4
    · subst h4
      rfl
    · rw [if_neg (by omega), if_pos (by omega), if_neg h0, if_neg h4, show (n + 0xF0) % 8 = n by omega]

/-! ### Characters -/

section Characters

variable (read : Array (Option Char)) {v : Nat}

theorem foldl_feed_two (hlow : 0x7F < v) (hhigh : v ≤ 0x7FF) :
    [UInt8.ofNat (v / 64 % 32 + 0xC0), UInt8.ofNat (v % 64 + 0x80)].foldl Decoder.feed ⟨read, none⟩ =
      ⟨read.push (some (Char.ofNat v)), none⟩ := by
  have hlead := lead_two (n := v / 64 % 32) (by omega) (by omega)
  have hbits : v / 64 % 32 * 64 + v % 64 = v := by omega
  rw [List.foldl_cons, List.foldl_cons, List.foldl_nil, feed_opens hlead,
    feed_last (Nat.le_refl 1) (by simp only []; omega) (by simp only []; omega), hbits]

theorem foldl_feed_three (hlow : 0x7FF < v) (hhigh : v ≤ 0xFFFF) (hvalid : v < 0xD800 ∨ 0xDFFF < v) :
    [UInt8.ofNat (v / 4096 % 16 + 0xE0), UInt8.ofNat (v / 64 % 64 + 0x80),
      UInt8.ofNat (v % 64 + 0x80)].foldl Decoder.feed ⟨read, none⟩ =
      ⟨read.push (some (Char.ofNat v)), none⟩ := by
  have hlead := lead_three (n := v / 4096 % 16) (by omega)
  have hbits : (v / 4096 % 16 * 64 + v / 64 % 64) * 64 + v % 64 = v := by omega
  rw [List.foldl_cons, List.foldl_cons, List.foldl_cons, List.foldl_nil, feed_opens hlead,
    feed_more (by simp only []; omega) (by simp only []; split <;> omega) (by simp only []; split <;> omega),
    feed_last (Nat.le_refl 1) (by simp only []; omega) (by simp only []; omega), hbits]

theorem foldl_feed_four (hlow : 0xFFFF < v) (hhigh : v < 0x110000) :
    [UInt8.ofNat (v / 262144 % 8 + 0xF0), UInt8.ofNat (v / 4096 % 64 + 0x80), UInt8.ofNat (v / 64 % 64 + 0x80),
      UInt8.ofNat (v % 64 + 0x80)].foldl Decoder.feed ⟨read, none⟩ =
      ⟨read.push (some (Char.ofNat v)), none⟩ := by
  have hlead := lead_four (n := v / 262144 % 8) (by omega)
  have hbits : ((v / 262144 % 8 * 64 + v / 4096 % 64) * 64 + v / 64 % 64) * 64 + v % 64 = v := by omega
  rw [List.foldl_cons, List.foldl_cons, List.foldl_cons, List.foldl_cons, List.foldl_nil, feed_opens hlead,
    feed_more (by simp only []; omega) (by simp only []; split <;> omega) (by simp only []; split <;> omega),
    feed_more (by simp only []; omega) (by simp only []; omega) (by simp only []; omega),
    feed_last (Nat.le_refl 1) (by simp only []; omega) (by simp only []; omega), hbits]

/-- The bytes of a character are read as that character. -/
theorem foldl_feed_char (c : Char) :
    (String.utf8EncodeChar c).foldl Decoder.feed ⟨read, none⟩ = ⟨read.push (some c), none⟩ := by
  have hvalid : c.val.toNat < 0xD800 ∨ (0xDFFF < c.val.toNat ∧ c.val.toNat < 0x110000) := c.valid
  have hchar : Char.ofNat c.val.toNat = c := Char.ofNat_toNat c
  have hread : (String.utf8EncodeChar c).foldl Decoder.feed ⟨read, none⟩ =
      ⟨read.push (some (Char.ofNat c.val.toNat)), none⟩ := by
    unfold String.utf8EncodeChar
    by_cases h1 : c.val.toNat ≤ 0x7F
    · simp only [if_pos h1]
      rw [List.foldl_cons, List.foldl_nil, feed_whole (lead_one h1)]
    · by_cases h2 : c.val.toNat ≤ 0x7FF
      · simp only [if_neg h1, if_pos h2]
        exact foldl_feed_two read (Nat.not_le.mp h1) h2
      · by_cases h3 : c.val.toNat ≤ 0xFFFF
        · simp only [if_neg h1, if_neg h2, if_pos h3]
          exact foldl_feed_three read (Nat.not_le.mp h2) h3 (by omega)
        · simp only [if_neg h1, if_neg h2, if_neg h3]
          exact foldl_feed_four read (Nat.not_le.mp h3) (by omega)
  rw [hread, hchar]

end Characters

theorem foldl_feed_encodeChars (read : Array (Option Char)) (cs : List Char) :
    (encodeChars cs).foldl Decoder.feed ⟨read, none⟩ = ⟨read ++ (cs.map some).toArray, none⟩ := by
  induction cs generalizing read with
  | nil => simp [encodeChars]
  | cons c cs ih =>
    have hcons : encodeChars (c :: cs) = String.utf8EncodeChar c ++ encodeChars cs := List.flatMap_cons
    rw [hcons, List.foldl_append, foldl_feed_char, ih]
    simp

/-- **What is written as UTF-8 is read back.** -/
theorem lossy_encodeChars (cs : List Char) : lossy (encodeChars cs) = String.ofList cs := by
  have hparts : parts (encodeChars cs) = cs.map some := by
    have hread := foldl_feed_encodeChars #[] cs
    simp only [parts, hread, Decoder.finish]
    simp
  have hsome : ((fun part : Option Char => part.getD replacement) ∘ some) = id := rfl
  rw [lossy, hparts, List.map_map, hsome, List.map_id]

theorem lossy_encode (s : String) : lossy (encode s) = s := by
  rw [encode, lossy_encodeChars, String.ofList_toList]

/-! ### NULs -/

theorem zero_ne_ofNat_add {n k : Nat} (hk : 0 < k) (h : n + k < 256) : 0 ≠ UInt8.ofNat (n + k) := by
  intro h0
  have hzero := congrArg UInt8.toNat h0
  rw [toNat_byte h] at hzero
  change 0 = n + k at hzero
  omega

/-- No character but the NUL itself has a zero byte. -/
theorem eq_nul_of_zero_mem {c : Char} (h : 0 ∈ String.utf8EncodeChar c) : c = Char.ofNat 0 := by
  unfold String.utf8EncodeChar at h
  by_cases h1 : c.val.toNat ≤ 0x7F
  · simp only [if_pos h1, List.mem_singleton] at h
    have hzero := congrArg UInt8.toNat h
    rw [toNat_byte (by omega)] at hzero
    rw [← Char.ofNat_toNat c]
    exact congrArg Char.ofNat hzero.symm
  · -- in a longer character each byte has a marking bit
    exfalso
    simp only [if_neg h1] at h
    split at h
    case' isFalse => split at h
    all_goals
      simp (disch := omega) only [List.mem_cons, List.not_mem_nil, or_false, zero_ne_ofNat_add] at h

/-- What is written as UTF-8 has a zero byte only for a NUL. -/
theorem zero_not_mem_encode {s : String} (h : Char.ofNat 0 ∉ s.toList) : 0 ∉ encode s := by
  intro h0
  obtain ⟨c, hc, h0⟩ := List.mem_flatMap.mp h0
  exact h (eq_nul_of_zero_mem h0 ▸ hc)

end StackCode.Text.Utf8
