import StackCode.Text.Blank

/-!
# Cutting text that was put together

Words that are put together with spaces are cut into these words again, and lines that are
ended with line feeds into these lines. What was trimmed has no blanks at its ends, and
text without blanks at its ends stays as it is.
-/

namespace StackCode.Text

/-- A text that is one word: it is not empty, and there is no blank in it. -/
structure IsWord (w : List Char) : Prop where
  nonempty : w ≠ []
  noBlank : ∀ c ∈ w, isBlank c = false

theorem isWord_iff {w : List Char} : IsWord w ↔ w ≠ [] ∧ w.any isBlank = false := by
  simp only [List.any_eq_false, Bool.not_eq_true]
  exact ⟨fun h => ⟨h.nonempty, h.noBlank⟩, fun h => ⟨h.1, h.2⟩⟩

instance (w : List Char) : Decidable (IsWord w) := decidable_of_decidable_of_iff isWord_iff.symm

theorem IsWord.cons {c : Char} {w : List Char} (hw : IsWord w) (hc : isBlank c = false) : IsWord (c :: w) :=
  ⟨List.cons_ne_nil _ _, List.forall_mem_cons.mpr ⟨hc, hw.noBlank⟩⟩

/-! ### Pieces -/

/-- A separator is put in front of every word but the first. -/
theorem intercalate_cons (separator w : List Char) (ws : List (List Char)) :
    separator.intercalate (w :: ws) = w ++ ws.flatMap fun w => separator ++ w := by
  induction ws generalizing w with
  | nil => simp
  | cons w' ws ih => rw [List.intercalate_cons_cons, ih, List.flatMap_cons]; simp

theorem splitWhere_eq_cons (p : Char → Bool) (cs : List Char) :
    ∃ more, splitWhere p cs = cs.takeWhile (fun c => !p c) :: more := by
  induction cs with
  | nil => exact ⟨[], rfl⟩
  | cons c cs ih =>
    obtain ⟨more, hmore⟩ := ih
    by_cases h : p c
    · exact ⟨splitWhere p cs, by rw [splitWhere_cons_of_pos h, List.takeWhile_cons_of_neg (by simp [h])]⟩
    · exact ⟨more, by rw [splitWhere_cons_of_neg h hmore, List.takeWhile_cons_of_pos (by simp [h])]⟩

/-- Text without separators is one piece. -/
theorem splitWhere_eq_singleton {p : Char → Bool} {cs : List Char} (h : ∀ c ∈ cs, p c = false) :
    splitWhere p cs = [cs] := by
  induction cs with
  | nil => rfl
  | cons c cs ih =>
    obtain ⟨hc, hcs⟩ := List.forall_mem_cons.mp h
    exact splitWhere_cons_of_neg (by simp [hc]) (ih hcs)

/-- The pieces of two texts with a separator between them are those of each. -/
theorem splitWhere_append {p : Char → Bool} {c : Char} (h : p c) (before after : List Char) :
    splitWhere p (before ++ c :: after) = splitWhere p before ++ splitWhere p after := by
  induction before with
  | nil => exact splitWhere_cons_of_pos h after
  | cons d before ih =>
    by_cases hd : p d
    · rw [List.cons_append, splitWhere_cons_of_pos hd, splitWhere_cons_of_pos hd, ih, List.cons_append]
    · obtain ⟨more, hmore⟩ := splitWhere_eq_cons p before
      rw [hmore, List.cons_append] at ih
      rw [List.cons_append, splitWhere_cons_of_neg hd ih, splitWhere_cons_of_neg hd hmore, List.cons_append]

theorem of_mem_splitWhere {p : Char → Bool} {cs piece : List Char} (h : piece ∈ splitWhere p cs) :
    ∀ c ∈ piece, p c = false := by
  induction cs generalizing piece with
  | nil =>
    rw [splitWhere, List.foldr_nil, List.mem_singleton] at h
    subst h
    exact List.forall_mem_nil _
  | cons c cs ih =>
    by_cases hc : p c
    · rw [splitWhere_cons_of_pos hc] at h
      rcases List.mem_cons.mp h with rfl | h
      · exact List.forall_mem_nil _
      · exact ih h
    · obtain ⟨more, hmore⟩ := splitWhere_eq_cons p cs
      rw [splitWhere_cons_of_neg hc hmore] at h
      rw [hmore] at ih
      rcases List.mem_cons.mp h with rfl | h
      · exact List.forall_mem_cons.mpr ⟨Bool.not_eq_true _ ▸ hc, ih List.mem_cons_self⟩
      · exact ih (List.mem_cons_of_mem _ h)

/-! ### Lines -/

theorem noLineFeed_of_mem_lines {cs row : List Char} (h : row ∈ lines cs) : '\n' ∉ row := fun hmem => by
  have hother := of_mem_splitWhere h _ hmem
  simp at hother

/-- A text without line feeds is one line. -/
theorem lines_eq_singleton {row : List Char} (h : '\n' ∉ row) : lines row = [row] := by
  refine splitWhere_eq_singleton fun c hc => ?_
  rw [beq_eq_false_iff_ne]
  rintro rfl
  exact h hc

/-- What stands before a line feed is a line, and then come the lines behind it. -/
theorem lines_cons {row : List Char} (h : '\n' ∉ row) (rest : List Char) :
    lines (row ++ '\n' :: rest) = row :: lines rest := by
  have hcut : lines (row ++ '\n' :: rest) = lines row ++ lines rest := splitWhere_append rfl _ _
  rw [hcut, lines_eq_singleton h, List.singleton_append]

/-- Lines that are each ended with a line feed. -/
theorem lines_flatMap {rows : List (List Char)} (h : ∀ row ∈ rows, '\n' ∉ row) :
    lines (rows.flatMap fun row => row ++ ['\n']) = rows ++ [[]] := by
  induction rows with
  | nil => rfl
  | cons row rows ih =>
    obtain ⟨hrow, hrows⟩ := List.forall_mem_cons.mp h
    rw [List.flatMap_cons, List.append_assoc, List.singleton_append, lines_cons hrow, ih hrows,
      List.cons_append]

/-! ### Words -/

theorem words_append {c : Char} (h : isBlank c = true) (before after : List Char) :
    words (before ++ c :: after) = words before ++ words after := by
  rw [words, splitWhere_append h, List.filter_append]
  rfl

theorem words_of_isWord {w : List Char} (h : IsWord w) : words w = [w] := by
  rw [words, splitWhere_eq_singleton h.noBlank]
  simp [h.nonempty]

/-- Words that follow each other with spaces between them are cut at the spaces. -/
theorem words_cons {w : List Char} {ws : List (List Char)} (hw : IsWord w) (hws : ∀ w ∈ ws, IsWord w) :
    words (w ++ ws.flatMap fun w => ' ' :: w) = w :: ws := by
  induction ws generalizing w with
  | nil =>
    rw [List.flatMap_nil, List.append_nil]
    exact words_of_isWord hw
  | cons w' ws ih =>
    obtain ⟨hw', hws⟩ := List.forall_mem_cons.mp hws
    rw [List.flatMap_cons, List.cons_append, words_append (by decide), words_of_isWord hw, ih hw' hws]
    rfl

/-! ### The first word -/

section First

variable {name : List Char} (hname : IsWord name)
include hname

theorem splitFirst_word : splitFirst name = (name, []) := by
  have hall : ∀ c ∈ name, (!isBlank c) = true := fun c hc => by rw [hname.noBlank c hc]; rfl
  have htake : (name ++ []).takeWhile (fun c => !isBlank c) = name ++ [] := List.takeWhile_append_of_pos hall
  have hdrop : (name ++ []).dropWhile (fun c => !isBlank c) = [] := List.dropWhile_append_of_pos hall
  rw [List.append_nil] at htake hdrop
  rw [splitFirst, hdrop, htake, List.drop_nil]

theorem splitFirst_append {c : Char} (h : isBlank c = true) (rest : List Char) :
    splitFirst (name ++ c :: rest) = (name, rest) := by
  have hall : ∀ c ∈ name, (!isBlank c) = true := fun c hc => by rw [hname.noBlank c hc]; rfl
  rw [splitFirst, List.takeWhile_append_of_pos hall, List.dropWhile_append_of_pos hall]
  simp [h]

/-- The first word of a line that is put together with spaces, and the other words. -/
theorem splitFirst_words {ws : List (List Char)} (hws : ∀ w ∈ ws, IsWord w) :
    (splitFirst (name ++ ws.flatMap fun w => ' ' :: w)).1 = name ∧
      words (splitFirst (name ++ ws.flatMap fun w => ' ' :: w)).2 = ws := by
  cases ws with
  | nil =>
    rw [List.flatMap_nil, List.append_nil, splitFirst_word hname]
    exact ⟨rfl, rfl⟩
  | cons w ws =>
    obtain ⟨hw, hws⟩ := List.forall_mem_cons.mp hws
    rw [List.flatMap_cons, List.cons_append, splitFirst_append hname (by decide)]
    exact ⟨rfl, words_cons hw hws⟩

end First

/-! ### Trimming -/

/-- There is no blank at the beginning of a text. -/
def StartsPlain (cs : List Char) : Prop := ∀ c, cs.head? = some c → isBlank c = false

/-- There is no blank at the end of a text. -/
def EndsPlain (cs : List Char) : Prop := ∀ c, cs.getLast? = some c → isBlank c = false

theorem dropWhile_isBlank {cs : List Char} (h : StartsPlain cs) : cs.dropWhile isBlank = cs := by
  cases cs with
  | nil => rfl
  | cons c cs => rw [List.dropWhile_cons_of_neg (by simp [h c rfl])]

theorem trim_eq_self {cs : List Char} (hstart : StartsPlain cs) (hend : EndsPlain cs) : trim cs = cs := by
  have hreverse : StartsPlain cs.reverse := by
    intro c hc
    rw [List.head?_reverse] at hc
    exact hend c hc
  rw [trim, dropWhile_isBlank hstart, dropWhile_isBlank hreverse, List.reverse_reverse]

theorem startsPlain_dropWhile (cs : List Char) : StartsPlain (cs.dropWhile isBlank) := by
  intro c hc
  have := List.head?_dropWhile_not isBlank cs
  rw [hc] at this
  simpa using this

/-- A trimmed text does not end in a blank. -/
theorem endsPlain_trim (cs : List Char) : EndsPlain (trim cs) := by
  intro c hc
  rw [trim, List.getLast?_reverse] at hc
  exact startsPlain_dropWhile _ c hc

theorem mem_of_mem_trim {c : Char} {cs : List Char} (h : c ∈ trim cs) : c ∈ cs := by
  rw [trim, List.mem_reverse] at h
  have h := (List.dropWhile_sublist isBlank).subset h
  rw [List.mem_reverse] at h
  exact (List.dropWhile_sublist isBlank).subset h

/-- A text that does not begin with a blank begins as before when it is trimmed. -/
theorem head?_trim {c : Char} {cs : List Char} (h : isBlank c = false) : (trim (c :: cs)).head? = some c := by
  have hstart : StartsPlain (c :: cs) := by
    intro d hd
    cases hd
    exact h
  rw [trim, dropWhile_isBlank hstart, List.head?_reverse, List.reverse_cons, List.dropWhile_append]
  split
  · simp [h]
  · simp

/-- Blanks that are put at the ends are trimmed. -/
theorem trim_append_append {front back : List Char} (hfront : ∀ c ∈ front, isBlank c = true)
    (hback : ∀ c ∈ back, isBlank c = true) (cs : List Char) : trim (front ++ cs ++ back) = trim cs := by
  rw [trim, trim, List.append_assoc, List.dropWhile_append_of_pos hfront, List.dropWhile_append]
  split
  · next hempty =>
    have hall : (back ++ []).dropWhile isBlank = [] := List.dropWhile_append_of_pos hback
    rw [List.append_nil] at hall
    rw [List.isEmpty_iff.mp hempty, hall]
  · have hreverse : ∀ c ∈ back.reverse, isBlank c = true := fun c hc => hback c (List.mem_reverse.mp hc)
    rw [List.reverse_append, List.dropWhile_append_of_pos hreverse]

/-- A trimmed text begins with the first character that is not blank. -/
theorem head?_trim_eq_find? (cs : List Char) : (trim cs).head? = cs.find? fun c => !isBlank c := by
  induction cs with
  | nil => rfl
  | cons c cs ih =>
    by_cases hc : isBlank c
    · have hskip : trim (c :: cs) = trim cs := by rw [trim, trim, List.dropWhile_cons_of_pos hc]
      rw [hskip, ih, List.find?_cons_of_neg (by simp [hc])]
    · rw [head?_trim (Bool.eq_false_iff.mpr hc), List.find?_cons_of_pos (by simp [hc])]

/-! ### Words at the ends -/

namespace IsWord

variable {w : List Char} (hw : IsWord w)
include hw

theorem startsPlain (rest : List Char) : StartsPlain (w ++ rest) := by
  intro c hc
  obtain ⟨d, w', rfl⟩ := List.exists_cons_of_ne_nil hw.nonempty
  cases hc
  exact hw.noBlank c List.mem_cons_self

theorem endsPlain (before : List Char) : EndsPlain (before ++ w) := by
  intro c hc
  rw [List.getLast?_append, List.getLast?_eq_some_getLast hw.nonempty, Option.some_or,
    ← List.getLast?_eq_some_getLast hw.nonempty] at hc
  exact hw.noBlank c (List.mem_of_getLast? hc)

/-- A blank behind a word is trimmed. -/
theorem trim_append {c : Char} (h : isBlank c = true) : trim (w ++ [c]) = w := by
  have htrim : trim ([] ++ w ++ [c]) = trim w :=
    trim_append_append (List.forall_mem_nil _) (List.forall_mem_singleton.mpr h) w
  have hstart := hw.startsPlain []
  rw [List.append_nil] at hstart
  rw [List.nil_append] at htrim
  rw [htrim, trim_eq_self hstart (hw.endsPlain [])]

end IsWord

/-- There is no line feed in a word, since it is a blank. -/
theorem IsWord.noLineFeed {w : List Char} (hw : IsWord w) : '\n' ∉ w := by
  intro hmem
  have hblank := hw.noBlank '\n' hmem
  revert hblank
  decide

theorem noLineFeed_words {w : List Char} {ws : List (List Char)} (hw : IsWord w) (hws : ∀ w ∈ ws, IsWord w) :
    '\n' ∉ w ++ ws.flatMap fun w => ' ' :: w := by
  rw [List.mem_append, not_or, List.mem_flatMap]
  refine ⟨hw.noLineFeed, ?_⟩
  rintro ⟨w', hw', hmem⟩
  rcases List.mem_cons.mp hmem with h | h
  · exact absurd h (by decide)
  · exact (hws w' hw').noLineFeed h

/-- Words that are put together with spaces are not changed by trimming. -/
theorem trim_words {w : List Char} {ws : List (List Char)} (hw : IsWord w) (hws : ∀ w ∈ ws, IsWord w) :
    trim (w ++ ws.flatMap fun w => ' ' :: w) = w ++ ws.flatMap fun w => ' ' :: w := by
  refine trim_eq_self (hw.startsPlain _) ?_
  rcases List.eq_nil_or_concat ws with rfl | ⟨front, last, rfl⟩
  · rw [List.flatMap_nil, List.append_nil]
    exact hw.endsPlain []
  · have hlast := hws last (by simp)
    rw [List.concat_eq_append, List.flatMap_append, List.flatMap_singleton, ← List.append_assoc,
      ← List.singleton_append, ← List.append_assoc]
    exact hlast.endsPlain _

end StackCode.Text
