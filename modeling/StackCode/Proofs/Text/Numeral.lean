import StackCode.Proofs.Text.Blank
import StackCode.Proofs.Text.Delimited
import StackCode.Text.Decimal
import StackCode.Text.Hex

/-!
# Reading back numbers

A number that is written in decimal is read back, and so is a byte that is written in
hexadecimal. What is written is a word, so numbers that follow each other with spaces
between them are told apart. Two numbers are not written alike.
-/

namespace StackCode.Text

namespace Decimal

/-! ### Digits -/

theorem digitValue?_digit {d : Nat} (h : d < 10) : digitValue? (digit d) = some d := by
  have hall : ∀ d : Fin 10, digitValue? (digit d) = some d.val := by decide
  exact hall ⟨d, h⟩

/-- A digit is not a blank and not a sign. -/
theorem digit_plain {d : Nat} (h : d < 10) :
    isBlank (digit d) = false ∧ digit d ≠ '-' ∧ digit d ≠ '+' := by
  have hall : ∀ d : Fin 10, isBlank (digit d) = false ∧ digit d ≠ '-' ∧ digit d ≠ '+' := by decide
  exact hall ⟨d, h⟩

theorem digits_of_lt {n : Nat} (h : n < 10) : digits n = [digit n] := by rw [digits, if_pos h]

theorem digits_of_ge {n : Nat} (h : 10 ≤ n) : digits n = digits (n / 10) ++ [digit (n % 10)] := by
  rw [digits, if_neg (Nat.not_lt.mpr h)]

/-- The digits of a number are characters of digits. -/
theorem exists_digit_of_mem {n : Nat} {c : Char} (h : c ∈ digits n) : ∃ d < 10, c = digit d := by
  induction n using Nat.strongRecOn with
  | ind n ih =>
    by_cases hn : n < 10
    · rw [digits_of_lt hn, List.mem_singleton] at h
      exact ⟨n, hn, h⟩
    · rw [digits_of_ge (Nat.not_lt.mp hn), List.mem_append, List.mem_singleton] at h
      rcases h with h | h
      · exact ih (n / 10) (by omega) h
      · exact ⟨n % 10, by omega, h⟩

theorem digits_ne_nil (n : Nat) : digits n ≠ [] := by
  by_cases hn : n < 10
  · rw [digits_of_lt hn]
    simp
  · rw [digits_of_ge (Nat.not_lt.mp hn)]
    simp

theorem foldlM_digits (n : Nat) :
    (digits n).foldlM (fun n c => (digitValue? c).map (10 * n + ·)) 0 = some n := by
  induction n using Nat.strongRecOn with
  | ind n ih =>
    by_cases hn : n < 10
    · rw [digits_of_lt hn, List.foldlM_cons, digitValue?_digit hn]
      simp
    · rw [digits_of_ge (Nat.not_lt.mp hn), List.foldlM_append, ih (n / 10) (by omega)]
      simp only [Option.bind_eq_bind, Option.bind_some, List.foldlM_cons, List.foldlM_nil,
        digitValue?_digit (show n % 10 < 10 by omega), Option.map_some, Option.pure_def, Option.some.injEq]
      omega

/-- The digits of a number are read as that number. -/
theorem toNat?_digits (n : Nat) : toNat? (digits n) = some n := by
  rw [toNat?, List.isEmpty_eq_false_iff.mpr (digits_ne_nil n)]
  exact foldlM_digits n

theorem digits_injective {n k : Nat} (h : digits n = digits k) : n = k := by
  have hread := toNat?_digits n
  rw [h, toNat?_digits k] at hread
  exact (Option.some.inj hread).symm

/-! ### Signed numbers -/

/-- Without a sign in front, digits are read as they are. -/
theorem toInt?_of_head {cs : List Char} (h : ∀ c, cs.head? = some c → c ≠ '-' ∧ c ≠ '+') :
    toInt? cs = (toNat? cs).map fun n => (n : Int) := by
  unfold toInt?
  split
  · exact absurd rfl (h '-' rfl).1
  · exact absurd rfl (h '+' rfl).2
  · rfl

theorem toInt?_digits (n : Nat) : toInt? (digits n) = some (n : Int) := by
  have hhead : ∀ c, (digits n).head? = some c → c ≠ '-' ∧ c ≠ '+' := by
    intro c hc
    obtain ⟨d, hd, rfl⟩ := exists_digit_of_mem (List.mem_of_mem_head? hc)
    exact (digit_plain hd).2
  rw [toInt?_of_head hhead, toNat?_digits]
  rfl

theorem toInt?_signed (z : Int) : toInt? (signed z) = some z := by
  cases z with
  | ofNat n => exact toInt?_digits n
  | negSucc n =>
    rw [signed, toInt?, toNat?_digits]
    rfl

theorem toInt32?_of_toInt? {cs : List Char} {n : Int32} (h : toInt? cs = some n.toInt) :
    toInt32? cs = some n := by
  have hlow := n.le_toInt
  have hhigh := n.toInt_lt
  rw [toInt32?, h, Option.bind_some, if_pos (by omega), Int32.ofInt_toInt]

/-- A signed word that is written in decimal is read back. -/
theorem toInt32?_ofInt32 (n : Int32) : toInt32? (ofInt32 n).toList = some n := by
  rw [ofInt32, ofInt, String.toList_ofList]
  exact toInt32?_of_toInt? (toInt?_signed n.toInt)

/-- A number is written with digits and a sign. -/
theorem of_mem_signed {z : Int} {c : Char} (h : c ∈ signed z) : c = '-' ∨ ∃ d < 10, c = digit d := by
  cases z with
  | ofNat k => exact .inr (exists_digit_of_mem h)
  | negSucc k =>
    rcases List.mem_cons.mp h with rfl | h
    · exact .inl rfl
    · exact .inr (exists_digit_of_mem h)

theorem signed_ne_nil (z : Int) : signed z ≠ [] := by
  cases z with
  | ofNat k => exact digits_ne_nil k
  | negSucc k => exact List.cons_ne_nil _ _

theorem of_mem_ofInt32 {n : Int32} {c : Char} (h : c ∈ (ofInt32 n).toList) :
    c = '-' ∨ ∃ d < 10, c = digit d := by
  rw [ofInt32, ofInt, String.toList_ofList] at h
  exact of_mem_signed h

/-- A number ends where a character stands that is neither a digit nor a sign. -/
theorem signed_append_inj {n k : Int} {x y : List Char} (hx : ∀ c ∈ x.head?, c ≠ '-' ∧ digitValue? c = none)
    (hy : ∀ c ∈ y.head?, c ≠ '-' ∧ digitValue? c = none) (h : signed n ++ x = signed k ++ y) :
    n = k ∧ x = y := by
  have hends : ∀ {x : List Char}, (∀ c ∈ x.head?, c ≠ '-' ∧ digitValue? c = none) →
      ∀ c ∈ x.head?, ¬ (c = '-' ∨ ∃ d < 10, c = digit d) := by
    rintro x hx c hc (rfl | ⟨d, hd, rfl⟩)
    · exact (hx _ hc).1 rfl
    · have hdigit := (hx _ hc).2
      rw [digitValue?_digit hd] at hdigit
      cases hdigit
  obtain ⟨hsame, hxy⟩ := append_inj_of_ends (fun c hc => of_mem_signed hc) (fun c hc => of_mem_signed hc)
    (hends hx) (hends hy) h
  have hread := toInt?_signed n
  rw [hsame, toInt?_signed] at hread
  exact ⟨(Option.some.inj hread).symm, hxy⟩

/-- What begins with a letter is no number. -/
theorem toInt32?_of_letter {c : Char} {cs : List Char} (hdigit : digitValue? c = none)
    (hsign : c ≠ '-' ∧ c ≠ '+') :
    toInt32? (c :: cs) = none := by
  have hhead : ∀ d, (c :: cs).head? = some d → d ≠ '-' ∧ d ≠ '+' := by
    intro d hd
    cases hd
    exact hsign
  have hnat : toNat? (c :: cs) = none := by
    rw [toNat?, List.foldlM_cons, hdigit]
    rfl
  rw [toInt32?, toInt?_of_head hhead, hnat]
  rfl

theorem isWord_digits (n : Nat) : IsWord (digits n) := by
  refine ⟨digits_ne_nil n, fun c hc => ?_⟩
  obtain ⟨d, hd, rfl⟩ := exists_digit_of_mem hc
  exact (digit_plain hd).1

theorem isWord_ofInt32 (n : Int32) : IsWord (ofInt32 n).toList := by
  rw [ofInt32, ofInt, String.toList_ofList]
  cases n.toInt with
  | ofNat k => exact isWord_digits k
  | negSucc k => exact (isWord_digits (k + 1)).cons (by decide)

end Decimal

namespace Hex

/-- A digit is read back, and is not a blank. -/
theorem digit_read {d : Nat} (h : d < 16) :
    digitValue? (digit d) = some d ∧ isBlank (digit d) = false := by
  have hall : ∀ d : Fin 16, digitValue? (digit d) = some d.val ∧ isBlank (digit d) = false := by decide
  exact hall ⟨d, h⟩

/-- A byte that is written with both its digits is read back. -/
theorem readByte?_pair (b : UInt8) : readByte? ('0' :: 'x' :: pair b) = some b := by
  have hb := b.toNat_lt
  have hhigh := (digit_read (show b.toNat / 16 < 16 by omega)).1
  have hlow := (digit_read (show b.toNat % 16 < 16 by omega)).1
  have hsum : 16 * (b.toNat / 16) + b.toNat % 16 = b.toNat := Nat.div_add_mod ..
  simp only [pair, readByte?, hhigh, hlow, true_or, if_true, Option.bind_some, Option.map_some, hsum]
  rw [UInt8.ofNat_toNat]

theorem isWord_pair (b : UInt8) : IsWord ('0' :: 'x' :: pair b) := by
  have hb := b.toNat_lt
  refine ⟨List.cons_ne_nil _ _, ?_⟩
  simp only [pair, List.forall_mem_cons]
  refine ⟨by decide, by decide, ?_, ?_, fun _ h => nomatch h⟩
  · exact (digit_read (show b.toNat / 16 < 16 by omega)).2
  · exact (digit_read (show b.toNat % 16 < 16 by omega)).2

end Hex

end StackCode.Text
