import Mathlib.Data.List.Forall2
import StackCode.Printer
import StackCode.Proofs.Frames

/-!
# What a snapshot shows

The report of a failure shows the stack and the frames as they are then. What it has to show is said
here without the printer of frames, following the links from a frame to the frame around it: the values
of the stack from the bottom to the top, and behind them the current frame, inside of which stands the
frame around it, and so on to the outermost (`Printer.Shows`). The printer of frames walks along the path
from the outermost frame inward instead; both come to the same as long as a frame is enclosed by older
frames only (`Printer.shows_snapshot`).
-/

namespace StackCode.Printer

/-! ### What is to be shown -/

/-- What stands for a value: its raw text, or in angle brackets why it has none. -/
inductive ShowsValue (p : Printer) (v : Value) : String → Prop where
  | text {t : String} : p.text .raw v = .ok t → ShowsValue p v t
  | fault {f : Fault} : p.text .raw v = .error f → ShowsValue p v ("<" ++ f.message ++ ">")

/-- What stands for a slot: a dash as long as nothing is stored in it. -/
inductive ShowsSlot (p : Printer) : Option Value → String → Prop where
  | empty : ShowsSlot p none "-"
  | value {v : Value} {t : String} : p.ShowsValue v t → ShowsSlot p (some v) t

/-- What stands for the slots of a frame: a dash as long as they are not allocated. -/
inductive ShowsSlots (p : Printer) : Option (Array (Option Value)) → String → Prop where
  | unallocated : ShowsSlots p none "-"
  | allocated {slots : Array (Option Value)} {items : List String} :
    List.Forall₂ p.ShowsSlot slots.toList items →
      ShowsSlots p (some slots) ("[" ++ String.intercalate ", " items ++ "]")

/-- What stands for the closure that a frame with `n` frames around it was made for. -/
inductive ShowsClosure (n : Nat) : Option Nat → String → Prop where
  | none : ShowsClosure n none "-"
  | entry (e : Nat) : ShowsClosure n (some e) ("c" ++ Text.Decimal.ofNat e ++ "#" ++ Text.Decimal.ofNat n)

/-- What stands for the place that a frame returns to. -/
inductive ShowsReturn : Option ReturnPoint → String → Prop where
  | none : ShowsReturn none "-"
  | point (r : ReturnPoint) : ShowsReturn (some r) (Text.Decimal.ofNat r.ip)

/-- What stands for a frame with `n` frames around it: in angle brackets what stands for its parent, for
its closure, for its return point and for its slots. -/
inductive ShowsFrame (p : Printer) : Nat → Nat → String → Prop where
  | outermost {i : Nat} {closure point slots : String} : (p.frames.get i).parent = none →
    ShowsClosure 0 (p.frames.get i).entry closure → ShowsReturn (p.frames.get i).returnPoint point →
    p.ShowsSlots (p.frames.get i).slots slots →
      ShowsFrame p i 0 ("<" ++ "-" ++ ", " ++ closure ++ ", " ++ point ++ ", " ++ slots ++ ">")
  | inner {i j n : Nat} {parent closure point slots : String} : p.frames.Parent i j →
    ShowsFrame p j n parent → ShowsClosure (n + 1) (p.frames.get i).entry closure →
    ShowsReturn (p.frames.get i).returnPoint point → p.ShowsSlots (p.frames.get i).slots slots →
      ShowsFrame p i (n + 1) ("<" ++ parent ++ ", " ++ closure ++ ", " ++ point ++ ", " ++ slots ++ ">")

/-- The text shows a stack, bottom first, and frame `i` with all frames around it. -/
inductive Shows (p : Printer) (stack : List Value) (i : Nat) : String → Prop where
  | intro {items : List String} {n : Nat} {frame : String} : List.Forall₂ p.ShowsValue stack items →
    p.ShowsFrame i n frame → Shows p stack i ("[" ++ String.intercalate ", " items ++ "]" ++ " :: " ++ frame)

/-! ### The printer of frames -/

variable {p : Printer}

/-- Each frame on a path is one level deeper. -/
theorem snd_foldl_frameText (p : Printer) (path : List Nat) (start : String × Nat) :
    (path.foldl (fun (text, depth) k => (p.frameText (p.frames.get k) text depth, depth + 1))
      start).2 = start.2 + path.length := by
  induction path generalizing start with
  | nil => rfl
  | cons k path ih =>
    obtain ⟨text, depth⟩ := start
    rw [List.foldl_cons, ih, List.length_cons]
    show depth + 1 + path.length = depth + (path.length + 1)
    omega

/-- A frame is printed around its parent. -/
theorem activation_eq (hfs : p.frames.Descending) (i : Nat) :
    p.activation i = p.frameText (p.frames.get i)
      ((p.frames.get i).parent.elim "-" p.activation)
      ((p.frames.get i).parent.elim 0 p.frames.depth) := by
  cases h : (p.frames.get i).parent with
  | none =>
    rw [activation, Frames.path_of_no_parent h]
    rfl
  | some q =>
    have hdepth := p.snd_foldl_frameText (p.frames.path q []) ("-", 0)
    rw [Nat.zero_add] at hdepth
    rw [activation, Frames.path_of_parent hfs h, List.foldl_append, Option.elim_some, Option.elim_some,
      Frames.depth, ← hdepth]
    rfl

/-! ### What is shown -/

theorem showsValue_renderLossy (p : Printer) (v : Value) : p.ShowsValue v (p.renderLossy .raw v) := by
  have hraw : p.render .raw v = p.text .raw v := by
    rw [render]
    cases p.text .raw v <;> rfl
  rw [renderLossy, hraw]
  cases h : p.text .raw v with
  | ok t => exact .text h
  | error f => exact .fault h

theorem showsSlots_slotsText (p : Printer) (f : Frame) : p.ShowsSlots f.slots (p.slotsText f) := by
  rw [slotsText]
  cases f.slots with
  | none => exact .unallocated
  | some slots =>
    refine .allocated (List.forall₂_map_right_iff.mpr (List.forall₂_same.mpr fun slot _ => ?_))
    cases slot with
    | none => exact .empty
    | some v => exact .value (p.showsValue_renderLossy v)

theorem showsClosure_elim (n : Nat) (entry : Option Nat) :
    ShowsClosure n entry (entry.elim "-" fun e => closureText e n) := by
  cases entry with
  | none => exact .none
  | some e => exact .entry e

theorem showsReturn_elim (point : Option ReturnPoint) :
    ShowsReturn point (point.elim "-" fun r => Text.Decimal.ofNat r.ip) := by
  cases point with
  | none => exact .none
  | some r => exact .point r

/-- A frame is shown with all frames around it. -/
theorem showsFrame_activation (hfs : p.frames.Descending) (i : Nat) :
    ∃ n, p.frames.depth i = n + 1 ∧ p.ShowsFrame i n (p.activation i) := by
  induction i using Nat.strongRecOn with
  | ind i ih =>
    rw [activation_eq hfs, Frames.depth_eq hfs]
    cases hparent : (p.frames.get i).parent with
    | none =>
      exact ⟨0, rfl, .outermost hparent (showsClosure_elim _ _) (showsReturn_elim _) (p.showsSlots_slotsText _)⟩
    | some j =>
      obtain ⟨n, hdepth, hshown⟩ := ih j (hfs i j hparent)
      rw [Option.elim_some, Option.elim_some, hdepth]
      exact ⟨n + 1, rfl, .inner hparent hshown (showsClosure_elim _ _) (showsReturn_elim _)
        (p.showsSlots_slotsText _)⟩

/-- **A snapshot shows the stack and the frames around a frame.** -/
theorem shows_snapshot (hfs : p.frames.Descending) (stack : List Value) (i : Nat) :
    p.Shows stack i (p.snapshot stack i) := by
  obtain ⟨n, -, hframe⟩ := showsFrame_activation hfs i
  refine .intro (List.forall₂_map_right_iff.mpr (List.forall₂_same.mpr fun v _ => ?_)) hframe
  exact p.showsValue_renderLossy v

end StackCode.Printer
