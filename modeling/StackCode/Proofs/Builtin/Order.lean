import StackCode.Proofs.Builtin.Strings

/-!
# The order of strings

Strings are compared byte by byte, and bytes as unsigned numbers. This is the lexicographic order of
lists (`Builtin.order_eq_compare`), so it is a total order, in which only strings that are the same are
equal, and what two strings begin with alike does not matter.
-/

namespace StackCode.Builtin

/-! ### Lexicographic order -/

theorem order_cons_cons (a b : UInt8) (s t : List UInt8) :
    order (a :: s) (b :: t) = (compare a b).then (order s t) := by
  rw [order]
  by_cases hlt : a < b
  · rw [if_pos hlt, Std.compare_eq_lt.mpr hlt, Ordering.lt_then]
  · rw [if_neg hlt]
    by_cases hgt : b < a
    · rw [if_pos hgt, Std.compare_eq_gt.mpr hgt, Ordering.gt_then]
    · have heq : a = b := UInt8.le_antisymm (UInt8.not_lt.mp hgt) (UInt8.not_lt.mp hlt)
      rw [if_neg hgt, Std.compare_eq_iff_eq.mpr heq, Ordering.eq_then]

theorem order_eq_compare (s t : List UInt8) : order s t = compare s t := by
  induction s generalizing t with
  | nil => cases t <;> rfl
  | cons a s ih =>
    cases t with
    | nil => rfl
    | cons b t => rw [order_cons_cons, List.compare_cons_cons, ih]

theorem order_eq_iff {s t : List UInt8} : order s t = .eq ↔ s = t := by
  rw [order_eq_compare, Std.compare_eq_iff_eq]

theorem order_swap (s t : List UInt8) : order t s = (order s t).swap := by
  rw [order_eq_compare, order_eq_compare, ← Std.OrientedOrd.eq_swap]

theorem order_trans {s t u : List UInt8} (h : (order s t).isLE) (h' : (order t u).isLE) : (order s u).isLE := by
  rw [order_eq_compare] at h h' ⊢
  exact Std.TransOrd.isLE_trans h h'

/-- What two strings begin with alike does not matter. -/
theorem order_append (q s t : List UInt8) : order (q ++ s) (q ++ t) = order s t := by
  induction q with
  | nil => rfl
  | cons b q ih =>
    rw [List.cons_append, List.cons_append, order_cons_cons, Std.compare_eq_iff_eq.mpr rfl, Ordering.eq_then, ih]

theorem order_of_proper_prefix {s t : List UInt8} (h : s <+: t) (hne : s ≠ t) : order s t = .lt := by
  obtain ⟨rest, rfl⟩ := h
  have hrest := order_append s [] rest
  rw [List.append_nil] at hrest
  rw [hrest]
  cases rest with
  | nil => exact absurd (List.append_nil s).symm hne
  | cons b rest => rfl

/-- The first byte in which two strings differ decides. -/
theorem order_of_lt (q : List UInt8) {a b : UInt8} (h : a.toNat < b.toNat) (s t : List UInt8) :
    order (q ++ a :: s) (q ++ b :: t) = .lt := by
  rw [order_append, order, if_pos (UInt8.lt_iff_toNat_lt.mpr h)]

/-! ### The order as an integer -/

/-- What comparing two strings gives. -/
def compared (s t : List UInt8) : Int32 := orderInt (order s t)

theorem compared_cases (s t : List UInt8) : compared s t = -1 ∨ compared s t = 0 ∨ compared s t = 1 := by
  rw [compared]
  cases order s t <;> decide

theorem compared_eq_zero_iff {s t : List UInt8} : compared s t = 0 ↔ s = t := by
  rw [compared, ← order_eq_iff]
  cases order s t <;> decide

theorem compared_swap (s t : List UInt8) : compared t s = -compared s t := by
  rw [compared, compared, order_swap s t]
  cases order s t <;> decide

theorem compared_le_zero_iff {s t : List UInt8} : compared s t ≤ 0 ↔ (order s t).isLE := by
  rw [compared]
  cases order s t <;> decide

/-- **Comparing strings is a total order, in which only equal strings are equal.** It gives `-1`, `0` or
`1`, and `0` exactly if the other builtin finds the strings equal, that is if they are the same bytes.
The other way round it gives the negative. Its order is transitive. A string is smaller than one that it
properly begins, what two strings both begin with does not matter, and then the first byte in which they
differ decides, as an unsigned number. -/
theorem comparison_is_total_order (p : Printer) :
    (∀ s t, Gives p .stringCompare [.str s, .str t] (.int (compared s t)) ∧
      (compared s t = -1 ∨ compared s t = 0 ∨ compared s t = 1)) ∧
    (∀ s t, ∃ same, Gives p .stringEqual [.str s, .str t] (.bool same) ∧
      (compared s t = 0 ↔ same = true) ∧ (same = true ↔ s = t)) ∧
    (∀ s t, compared t s = -compared s t) ∧
    (∀ s t u, compared s t ≤ 0 → compared t u ≤ 0 → compared s u ≤ 0) ∧
    (∀ s t, s <+: t → s ≠ t → compared s t = -1) ∧
    (∀ q s t, ∃ qs qt, Gives p .concat [.str q, .str s] (.str qs) ∧
      Gives p .concat [.str q, .str t] (.str qt) ∧ compared qs qt = compared s t) ∧
    ∀ q a b s t, a.toNat < b.toNat → compared (q ++ a :: s) (q ++ b :: t) = -1 := by
  refine ⟨fun s t => ⟨gives_stringCompare p s t, compared_cases s t⟩,
    fun s t => ⟨s == t, gives_stringEqual p s t, ?_, beq_iff_eq⟩, compared_swap, fun s t u h h' => ?_,
    fun s t h hne => ?_, fun q s t => ⟨q ++ s, q ++ t, gives_concat p q s, gives_concat p q t, ?_⟩,
    fun q a b s t h => ?_⟩
  · rw [compared_eq_zero_iff, beq_iff_eq]
  · rw [compared_le_zero_iff] at h h' ⊢
    exact order_trans h h'
  · rw [compared, order_of_proper_prefix h hne]
    rfl
  · rw [compared, compared, order_append]
  · rw [compared, order_of_lt q h]
    rfl

/-- `caf`, `cafe` and `café`: the first begins the second, and the third has a byte above all letters. -/
theorem comparison_is_total_order_accent :
    let p : Printer := ⟨.empty, .initial⟩
    let s : List UInt8 := [99, 97, 102]
    let t : List UInt8 := [99, 97, 102, 101]
    let u : List UInt8 := [99, 97, 102, 195, 169]
    Gives p .stringCompare [.str s, .str t] (.int (-1)) ∧ Gives p .stringCompare [.str t, .str u] (.int (-1)) ∧
      compared s u ≤ 0 := by
  intro p s t u
  obtain ⟨hcompare, -, -, htrans, hprefix, -, hbyte⟩ := comparison_is_total_order p
  have hst : compared s t = -1 := hprefix s t (by decide) (by decide)
  have htu : compared t u = -1 := hbyte s 101 195 [] [169] (by decide)
  have hsu : compared s u ≤ 0 := htrans s t u (by rw [hst]; decide) (by rw [htu]; decide)
  exact ⟨hst ▸ (hcompare s t).1, htu ▸ (hcompare t u).1, hsu⟩

end StackCode.Builtin
