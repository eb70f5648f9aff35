import StackCode.Builtin.Apply

/-!
# Parts of strings

What the builtins on strings give (`Builtin.Gives`), and how cutting a string, putting strings together
and measuring them fit. What is cut out of a string is what stands between two positions
(`Builtin.bytesBetween`), wherever these are: before the string, in it or behind it. Whatever the
positions, the range that is taken lies in the string (`Builtin.slice?_eq_some`).
-/

namespace StackCode.Builtin

/-- A builtin answers with a value. -/
def Gives (p : Printer) (b : Builtin) (args : List Value) (v : Value) : Prop :=
  apply p b args = .ok (.value v)

section Gives

variable (p : Printer) (s t : List UInt8)

theorem gives_stringLength : Gives p .stringLength [.str s] (.int (length s)) := rfl

theorem gives_substring (start stop : Int32) :
    Gives p .substring [.str s, .int start, .int stop] (.str (slice s start stop)) := rfl

theorem gives_concat : Gives p .concat [.str s, .str t] (.str (s ++ t)) := rfl

theorem gives_stringEqual : Gives p .stringEqual [.str s, .str t] (.bool (s == t)) := rfl

theorem gives_stringCompare : Gives p .stringCompare [.str s, .str t] (.int (orderInt (order s t))) := rfl

end Gives

/-! ### Between two positions -/

/-- The bytes of a string whose positions are in a range. -/
def bytesBetween (s : List UInt8) (start stop : Int) : List UInt8 :=
  (s.zipIdx.filter fun (_, position) => start ≤ position ∧ position < stop).map Prod.fst

/-- The end of a string that is nearest to a position, or the position if it is in the string. -/
def clamp (s : List UInt8) (position : Int32) : Nat := min position.toInt.toNat s.length

/-- The positions of the bytes may be counted from anywhere. -/
theorem filter_zipIdx (s : List UInt8) (first : Nat) (start stop : Int) :
    ((s.zipIdx first).filter fun (_, position) => start ≤ position ∧ position < stop).map Prod.fst =
      (s.take (stop - first).toNat).drop (start - first).toNat := by
  induction s generalizing first with
  | nil => simp
  | cons b s ih =>
    have hrest := ih (first + 1)
    rw [List.zipIdx_cons, List.filter_cons]
    -- The first byte is in the range, before it, or behind it together with all the others.
    by_cases hstop : (first : Int) < stop
    · have hlast : (stop - first).toNat = (stop - (first + 1 : Nat)).toNat + 1 := by omega
      by_cases hstart : start ≤ first
      · have hfirst : (start - first).toNat = 0 := by omega
        have hnext : (start - (first + 1 : Nat)).toNat = 0 := by omega
        rw [if_pos (by simpa using ⟨hstart, hstop⟩), List.map_cons, hrest, hlast, hfirst, hnext]
        rfl
      · have hfirst : (start - first).toNat = (start - (first + 1 : Nat)).toNat + 1 := by omega
        rw [if_neg (by simp [hstart]), hrest, hlast, hfirst]
        rfl
    · have hlast : (stop - first).toNat = 0 := by omega
      have hnext : (stop - (first + 1 : Nat)).toNat = 0 := by omega
      rw [if_neg (by simp [hstop]), hrest, hlast, hnext]
      simp

/-- The two tests and the clamps of `slice?` together: a range that is taken lies in the string, and
where none is taken the bytes up to `stop`, without those before `start`, are none either. -/
theorem slice?_eq_take_drop (s : List UInt8) (start stop : Int32) :
    slice? s start stop = some ((s.take stop.toInt.toNat).drop start.toInt.toNat) := by
  have hstart : (max start.toInt 0).toNat = start.toInt.toNat := by omega
  have hstop : (max stop.toInt 0).toNat = stop.toInt.toNat := by omega
  simp only [slice?, range?, hstart, hstop]
  split
  case isTrue h =>
    have hnone : (s.take stop.toInt.toNat).drop start.toInt.toNat = [] := by
      rw [List.drop_eq_nil_iff, List.length_take]
      omega
    rw [hnone]
  case isFalse h =>
    have hlast : s.take (min stop.toInt.toNat s.length) = s.take stop.toInt.toNat := by
      rw [List.take_eq_take_iff, Nat.min_assoc, Nat.min_self]
    rw [if_pos (by omega), hlast]

theorem slice?_eq_some (s : List UInt8) (start stop : Int32) :
    slice? s start stop = some (slice s start stop) :=
  (Option.some_get _).symm

theorem slice_eq_take_drop (s : List UInt8) (start stop : Int32) :
    slice s start stop = (s.take stop.toInt.toNat).drop start.toInt.toNat :=
  Option.some.inj ((slice?_eq_some s start stop).symm.trans (slice?_eq_take_drop s start stop))

theorem slice_eq_bytesBetween (s : List UInt8) (start stop : Int32) :
    slice s start stop = bytesBetween s start.toInt stop.toInt := by
  simpa [bytesBetween, slice_eq_take_drop] using (filter_zipIdx s 0 start.toInt stop.toInt).symm

/-- A position outside the string counts as an end of it. -/
theorem slice_eq_extract (s : List UInt8) (start stop : Int32) :
    slice s start stop = s.extract (clamp s start) (clamp s stop) := by
  have hdrop : s.drop (clamp s start) = s.drop start.toInt.toNat := by
    rw [List.drop_eq_drop_iff, clamp]
    omega
  rw [slice_eq_take_drop, List.extract_eq_drop_take', List.drop_take, List.drop_take, hdrop, List.take_eq_take_iff,
    List.length_drop, clamp, clamp]
  omega

theorem slice_of_le (s : List UInt8) {start stop : Int32} (h : stop ≤ start) : slice s start stop = [] := by
  rw [Int32.le_iff_toInt_le] at h
  rw [slice_eq_take_drop, List.drop_eq_nil_iff, List.length_take]
  omega

/-! ### Putting parts together -/

/-- What stands before a position in the middle, and what stands behind it. -/
theorem slice_append_slice (s : List UInt8) {start middle stop : Int32} (h : start ≤ middle)
    (h' : middle ≤ stop) :
    slice s start middle ++ slice s middle stop = slice s start stop := by
  rw [Int32.le_iff_toInt_le] at h h'
  have hstart : start.toInt.toNat ≤ middle.toInt.toNat := by omega
  have hstop : middle.toInt.toNat ≤ stop.toInt.toNat := by omega
  simp only [slice_eq_take_drop]
  generalize start.toInt.toNat = first at *
  generalize middle.toInt.toNat = split at *
  generalize stop.toInt.toNat = last at *
  calc (s.take split).drop first ++ (s.take last).drop split
      = (((s.take last).take split).drop first) ++ (s.take last).drop (first + (split - first)) := by
        rw [List.take_take, Nat.min_eq_left hstop, Nat.add_sub_cancel' hstart]
    _ = ((s.take last).drop first).take (split - first) ++ ((s.take last).drop first).drop (split - first) := by
        rw [List.drop_take, List.drop_drop]
    _ = (s.take last).drop first := List.take_append_drop _ _

theorem toInt_length {s : List UInt8} (h : s.length < 2147483648) : (length s).toInt = s.length :=
  Int32.toInt_ofNat_of_lt h

theorem slice_append_rest {s : List UInt8} (h : s.length < 2147483648) (k : Int32) :
    slice s 0 k ++ slice s k (length s) = s := by
  rw [slice_eq_take_drop, slice_eq_take_drop, toInt_length h, Int.toNat_natCast, List.take_length]
  exact List.take_append_drop _ _

/-- **Cutting strings, putting them together and measuring them fit.** The part of a string between two
positions is the bytes at the positions from the first to before the second one, where a position outside
the string counts as an end of it, and cutting it out never takes a range that the string does not have.
A string cut anywhere, at a negative position or behind its end too, is put together again, and so are two
parts of it that meet. And unless the strings are too long to be measured, the length of two strings put
together is the sum of their lengths. -/
theorem parts_fit_together (p : Printer) (s : List UInt8) :
    (∀ start stop, ∃ piece, Gives p .substring [.str s, .int start, .int stop] (.str piece) ∧
      slice? s start stop = some piece ∧
      piece = bytesBetween s start.toInt stop.toInt ∧ piece = s.extract (clamp s start) (clamp s stop) ∧
      (stop ≤ start → piece = [])) ∧
    (s.length < 2147483648 → ∀ k, ∃ n left right, Gives p .stringLength [.str s] (.int n) ∧
      Gives p .substring [.str s, .int 0, .int k] left ∧ Gives p .substring [.str s, .int k, .int n] right ∧
      Gives p .concat [left, right] (.str s)) ∧
    (∀ start middle stop, start ≤ middle → middle ≤ stop → ∃ left right whole,
      Gives p .substring [.str s, .int start, .int middle] left ∧
      Gives p .substring [.str s, .int middle, .int stop] right ∧
      Gives p .substring [.str s, .int start, .int stop] whole ∧ Gives p .concat [left, right] whole) ∧
    ∀ t, s.length + t.length < 2147483648 → ∃ m n k joined, Gives p .stringLength [.str s] (.int m) ∧
      Gives p .stringLength [.str t] (.int n) ∧ Gives p .concat [.str s, .str t] joined ∧
      Gives p .stringLength [joined] (.int k) ∧ m.toInt = s.length ∧ n.toInt = t.length ∧
      k.toInt = m.toInt + n.toInt := by
  refine ⟨fun start stop => ?_, fun hs k => ?_, fun start middle stop h h' => ?_, fun t ht => ?_⟩
  · exact ⟨_, gives_substring p s start stop, slice?_eq_some s start stop, slice_eq_bytesBetween s start stop,
      slice_eq_extract s start stop, slice_of_le s⟩
  · have hwhole := gives_concat p (slice s 0 k) (slice s k (length s))
    rw [slice_append_rest hs k] at hwhole
    exact ⟨_, _, _, gives_stringLength p s, gives_substring p s 0 k, gives_substring p s k _, hwhole⟩
  · have hwhole := gives_concat p (slice s start middle) (slice s middle stop)
    rw [slice_append_slice s h h'] at hwhole
    exact ⟨_, _, _, gives_substring p s start middle, gives_substring p s middle stop,
      gives_substring p s start stop, hwhole⟩
  · have hjoined : (s ++ t).length < 2147483648 := by rwa [List.length_append]
    have hm : (length s).toInt = s.length := toInt_length (by omega)
    have hn : (length t).toInt = t.length := toInt_length (by omega)
    refine ⟨_, _, _, _, gives_stringLength p s, gives_stringLength p t, gives_concat p s t,
      gives_stringLength p (s ++ t), hm, hn, ?_⟩
    rw [toInt_length hjoined, List.length_append, hm, hn, Int.natCast_add]

/-- A string cut from before it to behind it, behind its end, and in the middle. -/
theorem parts_fit_together_hello :
    let p : Printer := ⟨.empty, .initial⟩
    let s : List UInt8 := Text.Utf8.encode "hello"
    Gives p .substring [.str s, .int (-2), .int 99] (.str s) ∧
      (∃ n left right, Gives p .stringLength [.str s] (.int n) ∧
        Gives p .substring [.str s, .int 0, .int 99] left ∧ Gives p .substring [.str s, .int 99, .int n] right ∧
        Gives p .concat [left, right] (.str s)) ∧
      (∃ left right whole, Gives p .substring [.str s, .int (-2), .int 3] left ∧
        Gives p .substring [.str s, .int 3, .int 4] right ∧ Gives p .substring [.str s, .int (-2), .int 4] whole ∧
        Gives p .concat [left, right] whole) ∧
      ∃ joined, Gives p .concat [.str s, .str s] joined ∧ Gives p .stringLength [joined] (.int 10) := by
  intro p s
  obtain ⟨hpart, hcut, hmeet, hlength⟩ := parts_fit_together p s
  refine ⟨?_, hcut (by decide) 99, hmeet (-2) 3 4 (by decide) (by decide), ?_⟩
  · obtain ⟨piece, hgives, -, hbytes, -⟩ := hpart (-2) 99
    have hwhole : bytesBetween s (-2) 99 = s := by decide
    rw [hbytes] at hgives
    exact hwhole ▸ hgives
  · obtain ⟨m, n, k, joined, -, -, hjoined, hk, hm, hn, hsum⟩ := hlength s (by decide)
    have hten : k = 10 := Int32.toInt_inj.mp (by rw [hsum, hm, hn]; decide)
    exact ⟨joined, hjoined, hten ▸ hk⟩

end StackCode.Builtin
