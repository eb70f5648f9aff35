/-!
# Texts that show where they end

If something is put behind a text, the two can be told apart if the text shows where it ends: because
it has only characters that cannot come next, or because it is made of parts that show where they end
and is closed by a character that no part begins with.
-/

namespace StackCode.Text

/-- A text ends where the first character stands that it cannot have. -/
theorem append_inj_of_ends {p : Char → Prop} {cs ds x y : List Char} (hcs : ∀ c ∈ cs, p c)
    (hds : ∀ d ∈ ds, p d) (hx : ∀ c ∈ x.head?, ¬ p c) (hy : ∀ c ∈ y.head?, ¬ p c)
    (h : cs ++ x = ds ++ y) : cs = ds ∧ x = y := by
  induction cs generalizing ds with
  | nil =>
    cases ds with
    | nil => exact ⟨rfl, h⟩
    | cons d ds =>
      rw [List.nil_append] at h
      exact absurd (hds d List.mem_cons_self) (hx d (by rw [h]; rfl))
  | cons c cs ih =>
    cases ds with
    | nil =>
      rw [List.nil_append] at h
      exact absurd (hcs c List.mem_cons_self) (hy c (by rw [← h]; rfl))
    | cons d ds =>
      obtain ⟨rfl, hrest⟩ := List.cons.inj h
      obtain ⟨rfl, hxy⟩ := ih (List.forall_mem_cons.mp hcs).2 (List.forall_mem_cons.mp hds).2 hrest
      exact ⟨rfl, hxy⟩

/-- Parts one after the other end where the closing character stands, if no part begins with it. Each
part has to show where it ends only before what can come behind a part. -/
theorem flatMap_append_inj {α : Type} {part : α → List Char} {close : Char} (behind : List Char → Prop)
    (hclose : ∀ x, behind (close :: x)) (hpart : ∀ a x, behind (part a ++ x))
    (hne : ∀ a x y, part a ++ x ≠ close :: y) {as bs : List α} {x y : List Char}
    (hinj : ∀ a ∈ as, ∀ b x y, behind x → behind y → part a ++ x = part b ++ y → a = b ∧ x = y)
    (h : as.flatMap part ++ close :: x = bs.flatMap part ++ close :: y) : as = bs ∧ x = y := by
  have hbehind : ∀ (as : List α) x, behind (as.flatMap part ++ close :: x) := by
    intro as x
    cases as with
    | nil => exact hclose x
    | cons a as =>
      rw [List.flatMap_cons, List.append_assoc]
      exact hpart a _
  induction as generalizing bs with
  | nil =>
    cases bs with
    | nil => exact ⟨rfl, (List.cons.inj h).2⟩
    | cons b bs =>
      rw [List.flatMap_cons, List.append_assoc] at h
      exact absurd h.symm (hne b _ _)
  | cons a as ih =>
    rw [List.flatMap_cons, List.append_assoc] at h
    cases bs with
    | nil => exact absurd h (hne a _ _)
    | cons b bs =>
      rw [List.flatMap_cons, List.append_assoc] at h
      obtain ⟨hfirst, hrest⟩ := List.forall_mem_cons.mp hinj
      obtain ⟨rfl, hbehinds⟩ := hfirst b _ _ (hbehind as x) (hbehind bs y) h
      obtain ⟨rfl, hxy⟩ := ih hrest hbehinds
      exact ⟨rfl, hxy⟩

end StackCode.Text
