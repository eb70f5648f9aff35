import StackCode.Frame
import StackCode.Proofs.Result

/-!
# The frames around a frame

A frame is enclosed by the frame that its closure captured, and that one by another, until there is
none. `Frames.Parent` is one link of this chain, and `Frames.Around` is a chain of so many links. The walk
that looks a variable up (`Frames.ancestor`) comes to the frame at the end of the chain of that length,
and the depth of a frame is the number of the chains that start there.

At the end stand what it takes to allocate the slots of a frame and to store in one of them.
-/

namespace StackCode.Frames

open Result

variable {fs : Frames}

/-! ### Chains -/

/-- Frame `j` encloses frame `i`, with none between them. -/
def Parent (fs : Frames) (i j : Nat) : Prop := (fs.get i).parent = some j

/-- Every frame is enclosed by older frames only. -/
def Descending (fs : Frames) : Prop := ∀ i j, fs.Parent i j → j < i

/-- Frame `j` is `n` levels around frame `i`: the links from one to the other are that many. -/
inductive Around (fs : Frames) : Nat → Nat → Nat → Prop where
  /-- The frame itself. -/
  | here (i : Nat) : Around fs 0 i i
  /-- One level more than around the parent. -/
  | outward {n i p j : Nat} : fs.Parent i p → Around fs n p j → Around fs (n + 1) i j

theorem around_zero_iff {i j : Nat} : fs.Around 0 i j ↔ j = i := by
  constructor
  · intro h
    cases h with
    | here => rfl
  · rintro rfl
    exact .here _

theorem around_succ_iff {n i j : Nat} : fs.Around (n + 1) i j ↔ ∃ p, fs.Parent i p ∧ fs.Around n p j := by
  constructor
  · intro h
    cases h with
    | outward hp h => exact ⟨_, hp, h⟩
  · rintro ⟨p, hp, h⟩
    exact .outward hp h

/-! ### Walking along a chain -/

/-- The walk along the links ends where the chain of that length does. -/
theorem ancestor?_eq_some_iff {n i j : Nat} : fs.ancestor? n i = some j ↔ fs.Around n i j := by
  induction n generalizing i with
  | zero => rw [ancestor?, around_zero_iff, Option.some.injEq, eq_comm]
  | succ n ih =>
    rw [ancestor?, Option.bind_eq_some_iff, around_succ_iff]
    exact exists_congr fun p => and_congr_right fun _ => ih

theorem Around.unique {n i j k : Nat} (h : fs.Around n i j) (h' : fs.Around n i k) : j = k :=
  Option.some.inj ((ancestor?_eq_some_iff.mpr h).symm.trans (ancestor?_eq_some_iff.mpr h'))

theorem ancestor_eq_ok_iff {i j : Nat} {d : Int32} :
    fs.ancestor i d = .ok j ↔ fs.Around d.toInt.toNat i j := by
  rw [← ancestor?_eq_some_iff, ancestor]
  cases fs.ancestor? d.toInt.toNat i <;> simp

theorem ancestor_of_not_around {i : Nat} {d : Int32} (h : ∀ j, ¬ fs.Around d.toInt.toNat i j) :
    fs.ancestor i d = .error (.noEnclosingFrame d) := by
  have hnone : fs.ancestor? d.toInt.toNat i = none :=
    Option.eq_none_iff_forall_ne_some.mpr fun j hj => h j (ancestor?_eq_some_iff.mp hj)
  rw [ancestor, hnone]

/-! ### Counting the links -/

/-- The path to a frame stands before what is inside of it. -/
theorem path_eq_append (fs : Frames) (i : Nat) (inner : List Nat) :
    fs.path i inner = fs.path i [] ++ inner := by
  induction i using Nat.strongRecOn generalizing inner with
  | ind i ih =>
    rw [path, path]
    split
    · rfl
    · next p _ =>
      split
      · next hlt => rw [ih p hlt (i :: inner), ih p hlt [i], List.append_assoc, List.singleton_append]
      · rfl

theorem path_of_parent (hfs : fs.Descending) {i p : Nat} (h : fs.Parent i p) :
    fs.path i [] = fs.path p [] ++ [i] := by
  rw [path, h]
  simp only [if_pos (hfs i p h)]
  exact path_eq_append ..

theorem path_of_no_parent {i : Nat} (h : (fs.get i).parent = none) : fs.path i [] = [i] := by
  rw [path, h]

/-- There is one frame more around a frame than around its parent. -/
theorem depth_eq (hfs : fs.Descending) (i : Nat) :
    fs.depth i = (fs.get i).parent.elim 0 fs.depth + 1 := by
  cases h : (fs.get i).parent with
  | none =>
    rw [depth, path_of_no_parent h]
    rfl
  | some p =>
    rw [depth, path_of_parent hfs h, List.length_append]
    rfl

/-- There is a frame that many levels around a frame exactly if there are more frames around it,
itself included. -/
theorem exists_around_iff (hfs : fs.Descending) {n i : Nat} : (∃ j, fs.Around n i j) ↔ n < fs.depth i := by
  induction n generalizing i with
  | zero =>
    rw [depth_eq hfs]
    exact ⟨fun _ => Nat.succ_pos _, fun _ => ⟨i, .here i⟩⟩
  | succ n ih =>
    simp only [around_succ_iff, Parent, depth_eq hfs i]
    cases (fs.get i).parent with
    | none => simp
    | some p => simp [ih]

theorem exists_ancestor_iff (hfs : fs.Descending) {i : Nat} {d : Int32} (hd : 0 ≤ d) :
    (∃ a, fs.ancestor i d = .ok a) ↔ d.toInt < fs.depth i := by
  rw [Int32.le_iff_toInt_le] at hd
  simp only [ancestor_eq_ok_iff, exists_around_iff hfs]
  have : (0 : Int32).toInt = 0 := rfl
  omega

/-! ### Slots -/

theorem enter_eq_ok_iff {fs' : Frames} {i n : Nat} :
    fs.enter i n = .ok fs' ↔ (fs.get i).isEntered = false ∧ fs' = fs.modify i (·.enter n) := by
  rw [enter]
  cases (fs.get i).isEntered <;> simp [eq_comm]

theorem store_eq_ok_iff {fs' : Frames} {i : Nat} {offset : Int32} {v : Value} :
    fs.store i offset v = .ok fs' ↔
      ∃ k, (fs.get i).slot offset = .ok k ∧ fs' = fs.modify i (·.write k v) := by
  rw [store, map_eq_ok_iff]
  exact exists_congr fun k => and_congr_right fun _ => eq_comm

end StackCode.Frames
