import StackCode.Proofs.Machine.Calls
import StackCode.Proofs.Machine.Slots
import StackCode.Proofs.Printer.Snapshot

/-!
# The graph of frames

A slot may hold a closure over a younger frame, and a closure over the frame that the slot is in,
so the frames and what they refer to are a graph with cycles. The two links of a frame, to the
frame around it and to the frame that it returns to, are made with the frame and lead to older
frames only (`WellLinked`). So both chains end at the outermost frame, and what follows the chain
of enclosing frames is the recursion that it is meant to be (`Chained`). A step changes frames only
for the better: slots are allocated once, and no slot loses its value (`Frame.Grows`).
-/

namespace StackCode

open Relation

/-! ### Frames grow -/

/-- What becomes of a frame: its links stay, its slots are allocated once and keep their number,
and a slot that has a value has one from then on. -/
structure Frame.Grows (f f' : Frame) : Prop where
  parent : f'.parent = f.parent
  entry : f'.entry = f.entry
  returnPoint : f'.returnPoint = f.returnPoint
  slots : ∀ slots, f.slots = some slots → ∃ slots', f'.slots = some slots' ∧ slots'.size = slots.size
  values : ∀ i v, f.read? i = some v → ∃ w, f'.read? i = some w

namespace Frame.Grows

variable {f f' f'' : Frame}

theorem refl (f : Frame) : Grows f f :=
  ⟨rfl, rfl, rfl, fun slots h => ⟨slots, h, rfl⟩, fun _ v h => ⟨v, h⟩⟩

theorem trans (h : Grows f f') (h' : Grows f' f'') : Grows f f'' where
  parent := h'.parent.trans h.parent
  entry := h'.entry.trans h.entry
  returnPoint := h'.returnPoint.trans h.returnPoint
  slots slots hslots := by
    obtain ⟨slots', hslots', hsize⟩ := h.slots slots hslots
    obtain ⟨slots'', hslots'', hsize'⟩ := h'.slots slots' hslots'
    exact ⟨slots'', hslots'', hsize'.trans hsize⟩
  values i v hv := by
    obtain ⟨w, hw⟩ := h.values i v hv
    exact h'.values i w hw

theorem enter (h : f.isEntered = false) (n : Nat) : Grows f (f.enter n) := by
  have hnone : f.slots = none := by simpa [isEntered] using h
  refine ⟨rfl, rfl, rfl, fun slots hslots => ?_, fun i v hv => ?_⟩
  · rw [hnone] at hslots
    cases hslots
  · rw [read?, hnone] at hv
    cases hv

theorem write {offset : Int32} {i : Nat} (h : f.slot offset = .ok i) (v : Value) :
    Grows f (f.write i v) := by
  refine ⟨rfl, rfl, rfl, fun slots hslots => ?_, fun j w hw => ?_⟩
  · refine ⟨slots.setIfInBounds i (some v), ?_, Array.size_setIfInBounds⟩
    rw [Frame.write, hslots]
    rfl
  · rw [read?_write_slot h]
    by_cases hij : i = j
    · exact ⟨v, if_pos hij⟩
    · exact ⟨w, by rw [if_neg hij, hw]⟩

end Frame.Grows

namespace Machine

variable {img : Image} {m : Machine} {g : Nat}

theorem grows_next (hm : Reachable img m) (hg : g < m.frames.size) :
    (m.frames.get g).Grows (m.next.frames.get g) := by
  have hget := Frames.get_modify m.frames hm.current_lt
  by_cases hcurrent : m.current = g
  · subst hcurrent
    cases reframed m with
    | kept frames | returned _ _ frames => exact frames ▸ .refl _
    | called _ _ frames =>
      rw [frames, Frames.get_push, if_neg (Nat.ne_of_lt hg)]
      exact .refl _
    | entered _ _ _ fresh frames =>
      rw [frames, hget, if_pos rfl]
      exact .enter fresh _
    | stored _ _ _ slot frames =>
      rw [frames, hget, if_pos rfl]
      exact .write slot _
  · rw [frame_next hm hg hcurrent]
    exact .refl _

theorem grows_after (hm : Reachable img m) (hg : g < m.frames.size) (k : Nat) :
    g < (m.after k).frames.size ∧ (m.frames.get g).Grows ((m.after k).frames.get g) := by
  induction k with
  | zero => exact ⟨hg, .refl _⟩
  | succ k ih =>
    exact ⟨Nat.lt_of_lt_of_le ih.1 (size_le_next _), ih.2.trans (grows_next (hm.after k) ih.1)⟩

/-- `ENTER` succeeds only in a frame without slots. -/
theorem Does.fresh {size : Int32} (h : m.Does g ⟨.enter, [.int size]⟩) :
    (m.frames.get g).slots = none := by
  obtain ⟨rfl, ⟨n, hfetch⟩, hstep⟩ := h
  have hyields : Yields (perform (.enter size)) { m with ip := m.ip + n }
      (fun _ _ => (m.frames.get m.current).slots = none) (fun _ _ => True) := by
    simp only [perform]
    split
    · trivial
    · simp only [yields_bind, yields_get, yields_lift, yields_modify, yields_pure]
      split
      · next frames hframes =>
        simpa [Frame.isEntered] using (Frames.enter_eq_ok_iff.mp hframes).1
      · trivial
  exact hyields.of_step hfetch rfl hstep

/-- After `ENTER` has succeeded in a frame, it does not succeed there again. -/
theorem Does.not_enter_after {size size' : Int32} (hm : Reachable img m)
    (h : m.Does g ⟨.enter, [.int size]⟩) (k : Nat) :
    ¬ (m.after (k + 1)).Does g ⟨.enter, [.int size']⟩ := by
  intro hagain
  obtain ⟨n, -, hentered⟩ := h.enter hm
  have hg : g < m.next.frames.size :=
    h.current ▸ Nat.lt_of_lt_of_le hm.current_lt (size_le_next m)
  have hgrows := (grows_after hm.next hg k).2
  rw [hentered] at hgrows
  obtain ⟨slots, hslots, -⟩ := hgrows.slots _ rfl
  have hfresh := hagain.fresh
  rw [Nat.add_comm, ← after_add] at hfresh
  cases hslots.symm.trans hfresh

theorem enter_once (hm : Reachable img m) {i j : Nat} {size size' : Int32}
    (hi : (m.after i).Does g ⟨.enter, [.int size]⟩)
    (hj : (m.after j).Does g ⟨.enter, [.int size']⟩) : i = j := by
  rcases Nat.lt_trichotomy i j with hlt | heq | hlt
  · obtain ⟨k, rfl⟩ := Nat.exists_eq_add_of_lt hlt
    rw [Nat.add_assoc, ← after_add] at hj
    exact absurd hj (hi.not_enter_after (hm.after i) k)
  · exact heq
  · obtain ⟨k, rfl⟩ := Nat.exists_eq_add_of_lt hlt
    rw [Nat.add_assoc, ← after_add] at hi
    exact absurd hi (hj.not_enter_after (hm.after j) k)

/-! ### Reachable machines -/

/-- The links between the frames of a machine, and the frames that its closures have captured. -/
structure WellLinked (m : Machine) : Prop where
  current : m.current < m.frames.size
  /-- The first frame has no links. -/
  outermost : (m.frames.get 0).Outermost
  /-- Every other frame has all links, and they lead to older frames. -/
  linked : ∀ k, 0 < k → k < m.frames.size → (m.frames.get k).Linked (fun _ => True) k
  /-- The outermost frame is around every frame. -/
  enclosed : ∀ k < m.frames.size, ReflTransGen m.frames.Parent k 0
  /-- Every frame returns to the outermost frame, directly or not. -/
  returns : ∀ k < m.frames.size, ReflTransGen m.frames.Caller k 0
  /-- A closure anywhere in a value on the stack or in a slot has captured a frame that exists. -/
  captured : ∀ v, m.Holds v → ∀ entry frame, (Value.closure entry frame).Within v →
    frame < m.frames.size

/-- What follows the frames around a frame does what is meant. -/
structure Chained (m : Machine) (g : Nat) : Prop where
  /-- The depth counts the frame and those around it. -/
  depth : m.frames.depth g = (m.frames.get g).parent.elim 0 m.frames.depth + 1
  /-- There is a frame that many levels around it exactly if the depth is greater. -/
  ancestor : ∀ d : Int32, 0 ≤ d →
    ((∃ a, m.frames.ancestor g d = .ok a) ↔ d.toInt < m.frames.depth g)
  /-- The frame is printed with the frame around it, which is printed likewise. -/
  activation : m.printer.activation g = m.printer.frameText (m.frames.get g)
    ((m.frames.get g).parent.elim "-" m.printer.activation)
    ((m.frames.get g).parent.elim 0 m.frames.depth)

/-- A relation that leads from each number to a smaller one leads to zero. -/
theorem chain_to_zero {R : Nat → Nat → Prop} {n : Nat}
    (h : ∀ k, 0 < k → k < n → ∃ j < k, R k j) {k : Nat} (hk : k < n) : ReflTransGen R k 0 := by
  induction k using Nat.strongRecOn with
  | ind k ih =>
    rcases Nat.eq_zero_or_pos k with rfl | hpos
    · exact .refl
    · obtain ⟨j, hj, hR⟩ := h k hpos hk
      exact .head hR (ih j hj (Nat.lt_trans hj hk))

theorem Reachable.wellLinked (hm : Reachable img m) : m.WellLinked := by
  have horder := hm.inOrder (safeCode_true img)
  refine ⟨horder.current, horder.outermost, horder.linked, fun k hk => ?_, fun k hk => ?_,
    fun v hv entry frame hwithin => (horder.values v hv _ hwithin).2⟩
  · refine chain_to_zero (fun k hpos hk => ?_) hk
    obtain ⟨p, hp, hlt⟩ := (horder.linked k hpos hk).parent
    exact ⟨p, hlt, hp⟩
  · refine chain_to_zero (fun k hpos hk => ?_) hk
    obtain ⟨r, hr, hlt, -⟩ := (horder.linked k hpos hk).returnPoint
    exact ⟨r.caller, hlt, r.ip, hr⟩

/-- A number that is not used yet has no parent, so only the frames that exist matter. -/
theorem WellLinked.descending (h : m.WellLinked) : m.frames.Descending := by
  intro i j hij
  by_cases hi : i < m.frames.size
  · rcases Nat.eq_zero_or_pos i with rfl | hpos
    · rw [Frames.Parent, h.outermost.parent] at hij
      cases hij
    · obtain ⟨p, hp, hlt⟩ := (h.linked i hpos hi).parent
      cases hp.symm.trans hij
      exact hlt
  · have hroot : m.frames.get i = Frame.root := by
      rw [Frames.get, Array.getD_eq_getD_getElem?, Array.getElem?_eq_none (Nat.le_of_not_lt hi)]
      rfl
    rw [Frames.Parent, hroot] at hij
    cases hij

theorem Reachable.chained (hm : Reachable img m) (g : Nat) : m.Chained g :=
  have hfs := hm.wellLinked.descending
  ⟨Frames.depth_eq hfs g, fun _ => Frames.exists_ancestor_iff hfs, Printer.activation_eq hfs g⟩

/-- **The graph of frames is well formed.** Whatever machine a program reaches, by any number of
runs and steps: the first frame has no parent, no entry and no return point, and every other
frame has all three, with a parent and a caller that are older, so that both chains end at the
first frame; and every closure in a value that the machine holds has captured a frame that exists.
So depth, ancestors and the printer of frames follow a chain to its end, and there is an ancestor
for a number exactly if the number is less than the depth. Whatever follows, no frame goes away or
changes its links, its slots are allocated once and keep their number, and a slot with a value
keeps one. -/
theorem frame_graph_well_formed (hm : Reachable img m) :
    m.WellLinked ∧ (∀ g < m.frames.size, m.Chained g) ∧
      (∀ k, ∀ g < m.frames.size, g < (m.after k).frames.size ∧
        (m.frames.get g).Grows ((m.after k).frames.get g)) ∧
      ∀ i j g size size', (m.after i).Does g ⟨.enter, [.int size]⟩ →
        (m.after j).Does g ⟨.enter, [.int size']⟩ → i = j :=
  ⟨hm.wellLinked, fun g _ => hm.chained g, fun k _ hg => grows_after hm hg k,
    fun _ _ _ _ _ hi hj => enter_once hm hi hj⟩

/-- A slot of the outermost frame that holds a closure over a frame inside of it. -/
theorem frame_graph_well_formed_cycle :
    let img : Image := ⟨[30, 0, 0, 0, 25, 1, 0, 0, 0, 1, 23, 0, 0, 0, 10, 24, 27, 0, 0, 0, 0, 10, 26, 1, 29,
      0, 0, 0, 26, 26], 30⟩
    let outer : Frame := { slots := some #[some (.closure 29 1)] }
    let inner : Frame := .call 0 23 ⟨16, 0⟩
    let m : Machine := ⟨img, 21, [.unit], ⟨#[outer, inner]⟩, 0, {}⟩
    Reachable img m ∧ m.Holds (.closure 29 1) ∧ m.WellLinked ∧ m.frames.depth 1 = 2 ∧
      (∃ a, m.frames.ancestor 1 1 = .ok a) ∧ (¬ ∃ a, m.frames.ancestor 1 2 = .ok a) ∧
      ∀ k, ((m.after k).frames.get 1).parent = some 0 ∧
        ∃ w, ((m.after k).frames.get 0).read? 0 = some w := by
  intro img outer inner m
  have hm : Reachable img m := by
    let called : Machine := ⟨img, 23, [.unit], ⟨#[Frame.root.enter 1, inner]⟩, 1, {}⟩
    have hcall : Machine.run 4 { image := img } = .running called := rfl
    have hstore : called.run 3 = .running m := rfl
    exact ((Reachable.start {}).run (hcall ▸ Progress.Leaves.running called)).run
      (hstore ▸ Progress.Leaves.running m)
  obtain ⟨hlinked, hchained, hgrows, -⟩ := frame_graph_well_formed hm
  have hsize : m.frames.size = 2 := rfl
  have hheld : m.Holds (.closure 29 1) := .slot (k := 0) (i := 0) rfl
  have houter : m.frames.depth 0 = 1 := (hchained 0 (by omega)).depth
  have hinner : m.frames.depth 1 = 2 := by
    rw [(hchained 1 (by omega)).depth]
    show m.frames.depth 0 + 1 = 2
    rw [houter]
  refine ⟨hm, hheld, hlinked, hinner, ?_, ?_, fun k => ⟨?_, ?_⟩⟩
  · rw [(hchained 1 (by omega)).ancestor 1 (by decide), hinner]
    decide
  · rw [(hchained 1 (by omega)).ancestor 2 (by decide), hinner]
    decide
  · exact (hgrows k 1 (by omega)).2.parent
  · exact (hgrows k 0 (by omega)).2.values 0 _ rfl

end Machine

end StackCode
