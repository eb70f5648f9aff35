import StackCode.Proofs.Machine.History
import Mathlib.Logic.Relation

/-!
# Calls and returns

The machine has no stack of frames. A frame knows where to return to, and closures keep frames
alive after they have returned. Still calls nest: the frames that have been called and have not
returned are those on the chain of return points from the current frame (`Active`), a step takes
a frame off the chain only if the frame returns (`Active.next`), and no step puts it back
(`Active.of_next`).
-/

namespace StackCode

/-- Frame `j` is the one to which frame `i` returns. -/
def Frames.Caller (fs : Frames) (i j : Nat) : Prop :=
  ∃ ip, (fs.get i).returnPoint = some ⟨ip, j⟩

theorem Frames.Caller.eq {fs : Frames} {i j : Nat} {r : ReturnPoint} (h : fs.Caller i j)
    (hr : (fs.get i).returnPoint = some r) : j = r.caller := by
  obtain ⟨ip, hip⟩ := h
  cases hip.symm.trans hr
  rfl

namespace Machine

open Relation

variable {img : Image} {m : Machine} {g : Nat}

/-- A frame is the current one or waits for it, directly or not. -/
def Active (m : Machine) (g : Nat) : Prop := ReflTransGen m.frames.Caller m.current g

/-- The next instruction is the `RET` of a frame. -/
def AtReturn (m : Machine) (g : Nat) : Prop :=
  m.current = g ∧ ∃ n, m.fetch = .ok (⟨.ret, []⟩, n)

/-! ### Frames are linked once and for all -/

/-- The return point of a frame never changes. -/
theorem returnPoint_next (hm : Reachable img m) (hg : g < m.frames.size) :
    (m.next.frames.get g).returnPoint = (m.frames.get g).returnPoint := by
  cases reframed m with
  | kept frames | returned _ _ frames => rw [frames]
  | called _ _ frames => rw [frames, Frames.get_push, if_neg (Nat.ne_of_lt hg)]
  | entered _ _ _ _ frames | stored _ _ _ _ frames =>
    rw [frames, Frames.get_modify _ hm.current_lt]
    split <;> rfl

theorem returnPoint_after (hm : Reachable img m) (hg : g < m.frames.size) (k : Nat) :
    g < (m.after k).frames.size ∧
      ((m.after k).frames.get g).returnPoint = (m.frames.get g).returnPoint := by
  induction k with
  | zero => exact ⟨hg, rfl⟩
  | succ k ih =>
    refine ⟨Nat.lt_of_lt_of_le ih.1 (size_le_next _), ?_⟩
    rw [after, returnPoint_next (hm.after k) ih.1, ih.2]

theorem caller_next_iff (hm : Reachable img m) {i j : Nat} (hi : i < m.frames.size) :
    m.next.frames.Caller i j ↔ m.frames.Caller i j := by
  rw [Frames.Caller, returnPoint_next hm hi, Frames.Caller]

theorem lt_of_caller (hm : Reachable img m) {i j : Nat} (hi : i < m.frames.size)
    (h : m.frames.Caller i j) : j < i := by
  obtain ⟨ip, hip⟩ := h
  exact hm.caller_lt hi hip

/-- The chain from a frame leads to older frames only. -/
theorem le_of_chain (hm : Reachable img m) {i j : Nat} (hi : i < m.frames.size)
    (h : ReflTransGen m.frames.Caller i j) : j ≤ i := by
  induction h using ReflTransGen.head_induction_on with
  | refl => exact Nat.le_refl _
  | head hcaller _ ih =>
    have hlt := lt_of_caller hm hi hcaller
    exact Nat.le_trans (ih (Nat.lt_trans hlt hi)) (Nat.le_of_lt hlt)

/-- The chain from a frame never changes. -/
theorem chain_next_iff (hm : Reachable img m) {i j : Nat} (hi : i < m.frames.size) :
    ReflTransGen m.next.frames.Caller i j ↔ ReflTransGen m.frames.Caller i j := by
  constructor
  · intro h
    induction h using ReflTransGen.head_induction_on with
    | refl => exact .refl
    | head hcaller _ ih =>
      rw [caller_next_iff hm hi] at hcaller
      exact .head hcaller (ih (Nat.lt_trans (lt_of_caller hm hi hcaller) hi))
  · intro h
    induction h using ReflTransGen.head_induction_on with
    | refl => exact .refl
    | head hcaller _ ih =>
      have hlt := lt_of_caller hm hi hcaller
      exact .head ((caller_next_iff hm hi).mpr hcaller) (ih (Nat.lt_trans hlt hi))

/-! ### The frames that have not returned -/

/-- A frame stays on the chain unless it returns. -/
theorem Active.next (hm : Reachable img m) (h : m.Active g) (hstays : ¬ m.AtReturn g) :
    m.next.Active g := by
  have hcurrent := hm.current_lt
  unfold Active at h ⊢
  cases reframed m with
  | kept _ current | entered _ _ _ _ _ current | stored _ _ _ _ _ current =>
    rw [current]
    exact (chain_next_iff hm hcurrent).mpr h
  | called _ _ frames current =>
    rw [current]
    refine .head ?_ ((chain_next_iff hm hcurrent).mpr h)
    rw [Frames.Caller, frames, Frames.get_push, if_pos rfl]
    exact ⟨_, rfl⟩
  | returned fetch returnPoint _ current =>
    rw [current]
    rcases h.cases_head with rfl | ⟨c, hcaller, h⟩
    · exact absurd ⟨rfl, _, fetch⟩ hstays
    · obtain rfl := hcaller.eq returnPoint
      exact (chain_next_iff hm (Nat.lt_trans (lt_of_caller hm hcurrent hcaller) hcurrent)).mpr h

/-- No frame comes back onto the chain. -/
theorem Active.of_next (hm : Reachable img m) (hg : g < m.frames.size) (h : m.next.Active g) :
    m.Active g := by
  have hcurrent := hm.current_lt
  unfold Active at h ⊢
  cases reframed m with
  | kept _ current | entered _ _ _ _ _ current | stored _ _ _ _ _ current =>
    rw [current] at h
    exact (chain_next_iff hm hcurrent).mp h
  | called _ _ frames current =>
    rw [current] at h
    rcases h.cases_head with rfl | ⟨c, hcaller, h⟩
    · exact absurd hg (Nat.lt_irrefl _)
    · obtain rfl : c = m.current := hcaller.eq (by rw [frames, Frames.get_push, if_pos rfl]; rfl)
      exact (chain_next_iff hm hcurrent).mp h
  | @returned n r fetch returnPoint _ current =>
    rw [current] at h
    have hcaller : m.frames.Caller m.current r.caller := ⟨r.ip, returnPoint⟩
    exact .head hcaller
      ((chain_next_iff hm (Nat.lt_trans (lt_of_caller hm hcurrent hcaller) hcurrent)).mp h)

/-- A frame that does not return in some steps is still on the chain. -/
theorem Active.after (hm : Reachable img m) (h : m.Active g) {k : Nat}
    (hstays : ∀ j < k, ¬ (m.after j).AtReturn g) : (m.after k).Active g := by
  induction k with
  | zero => exact h
  | succ k ih =>
    exact (ih fun j hj => hstays j (Nat.lt_succ_of_lt hj)).next (hm.after k) (hstays k (Nat.lt_succ_self k))

/-- A frame that is not on the chain is never current again and never changed. -/
theorem frozen_after (hm : Reachable img m) (hg : g < m.frames.size) (h : ¬ m.Active g) (k : Nat) :
    ¬ (m.after k).Active g ∧ (m.after k).frames.get g = m.frames.get g := by
  induction k with
  | zero => exact ⟨h, rfl⟩
  | succ k ih =>
    have hk := (returnPoint_after hm hg k).1
    have hcurrent : (m.after k).current ≠ g := fun heq => ih.1 (heq ▸ .refl)
    exact ⟨fun hnext => ih.1 (.of_next (hm.after k) hk hnext),
      (frame_next (hm.after k) hk hcurrent).trans ih.2⟩

/-- A frame that returns leaves the chain. -/
theorem not_active_of_ret (hm : Reachable img m) {r : ReturnPoint}
    (hr : (m.frames.get m.current).returnPoint = some r)
    (hnext : m.next = { m with ip := r.ip, current := r.caller }) : ¬ m.next.Active m.current := by
  intro h
  have hlt := hm.caller_lt hm.current_lt hr
  rw [hnext] at h
  exact absurd (le_of_chain hm (Nat.lt_trans hlt hm.current_lt) h) (Nat.not_le_of_lt hlt)

/-- **Calls and returns nest.** Let a closure be called in a frame, so that a frame is made for
it. As long as the new frame has not executed its `RET`, the calling frame is on the chain of
return points from the current frame. When the new frame executes `RET`, the calling frame is
current again and goes on behind the call, whatever has happened since. From then on the new
frame is never current, and nothing in it changes, whoever has captured it. -/
theorem calls_nest {n entry captured : Nat} {argument : Value} {rest : List Value}
    (hm : Reachable img m) (hfetch : m.fetch = .ok (⟨.swapCall, []⟩, n))
    (hstack : m.stack = argument :: .closure entry captured :: rest) (hg : g = m.frames.size) :
    m.next.current = g ∧ m.next.frames.get g = Frame.call captured entry ⟨m.ip + n, m.current⟩ ∧
      ∀ k, ((∀ j < k, ¬ (m.next.after j).AtReturn g) →
          TransGen (m.next.after k).frames.Caller (m.next.after k).current m.current) ∧
        ((m.next.after k).AtReturn g →
          (m.next.after (k + 1)).current = m.current ∧ (m.next.after (k + 1)).ip = m.ip + n ∧
          ∀ j, k < j → (m.next.after j).current ≠ g ∧
            (m.next.after j).frames.get g = (m.next.after k).frames.get g) := by
  subst hg
  have hcalled := next_of_step (step_call hfetch hstack)
  have hframe : m.next.frames.get m.frames.size = Frame.call captured entry ⟨m.ip + n, m.current⟩ := by
    rw [hcalled, Frames.get_push, if_pos rfl]
  have hcurrent : m.next.current = m.frames.size := by rw [hcalled]
  have hsize : m.frames.size < m.next.frames.size := hcurrent ▸ hm.next.current_lt
  refine ⟨hcurrent, hframe, fun k => ?_⟩
  -- the new frame knows where to return to, from now on
  obtain ⟨hsize', hreturnPoint⟩ := returnPoint_after hm.next hsize k
  rw [hframe] at hreturnPoint
  refine ⟨fun hstays => ?_, fun hret => ?_⟩
  · have hactive : m.next.Active m.frames.size := hcurrent ▸ .refl
    exact .tail' (hactive.after hm.next hstays) ⟨_, hreturnPoint⟩
  · obtain ⟨hat, n', hfetch'⟩ := hret
    have hreach := hm.next.after k
    rw [← hat] at hreturnPoint
    have hnext := next_of_step (step_ret hfetch' hreturnPoint)
    have hgone := not_active_of_ret hreach hreturnPoint hnext
    rw [hat] at hgone
    rw [after, hnext]
    refine ⟨rfl, rfl, fun j hj => ?_⟩
    obtain ⟨d, rfl⟩ := Nat.exists_eq_add_of_le hj
    rw [← after_add]
    obtain ⟨hinactive, hget⟩ := frozen_after hreach.next (Nat.lt_of_lt_of_le hsize' (size_le_next _)) hgone d
    refine ⟨fun heq => hinactive (heq ▸ .refl), hget.trans ?_⟩
    rw [hnext]

/-- A closure whose frame has a slot and is captured by the closure that it returns. After it
has returned, the closure that it returned is called in a frame inside of its own. -/
theorem calls_nest_captured :
    let img : Image := ⟨[45, 0, 0, 0, 1, 18, 0, 0, 0, 5, 7, 0, 0, 0, 24, 10, 24, 26, 25, 1, 0, 0, 0, 27, 0,
      0, 0, 0, 1, 34, 0, 0, 0, 26, 13, 11, 1, 0, 0, 0, 0, 0, 0, 0, 26], 45⟩
    let m : Machine := { image := img, ip := 14, stack := [.int 7, .closure 18 0] }
    Reachable img m ∧ m.fetch = .ok (⟨.swapCall, []⟩, 1) ∧ m.next.current = 1 ∧
      TransGen (m.next.after 3).frames.Caller (m.next.after 3).current 0 ∧
      (m.next.after 3).AtReturn 1 ∧ (m.next.after 4).current = 0 ∧ (m.next.after 4).ip = 15 ∧
      ((m.next.after 6).frames.get (m.next.after 6).current).parent = some 1 ∧
      ∀ j, 3 < j → (m.next.after j).current ≠ 1 ∧
        ((m.next.after j).frames.get 1).slots = some #[some (.int 7)] := by
  intro img m
  have hm : Reachable img m := by
    have hrun : Machine.run 2 { image := img } = .running m := rfl
    exact (Reachable.start {}).run (hrun ▸ Progress.Leaves.running m)
  have hfetch : m.fetch = .ok (⟨.swapCall, []⟩, 1) := rfl
  -- the machines between the call and the return, and that of the second call
  let frame : Frame := Frame.call 0 18 ⟨15, 0⟩
  let filled : Frame := { frame with slots := some #[some (.int 7)] }
  have h₀ : m.next = ⟨img, 18, [.int 7], ⟨#[.root, frame]⟩, 1, {}⟩ := next_of_step rfl
  have h₁ : m.next.after 1 = ⟨img, 23, [.int 7], ⟨#[.root, frame.enter 1]⟩, 1, {}⟩ :=
    h₀ ▸ after_of_run rfl
  have h₂ : m.next.after 2 = ⟨img, 28, [], ⟨#[.root, filled]⟩, 1, {}⟩ := h₀ ▸ after_of_run rfl
  have h₃ : m.next.after 3 = ⟨img, 33, [.closure 34 1], ⟨#[.root, filled]⟩, 1, {}⟩ :=
    h₀ ▸ after_of_run rfl
  have h₆ : m.next.after 6 =
      ⟨img, 34, [.unit], ⟨#[.root, filled, .call 1 34 ⟨17, 0⟩]⟩, 2, {}⟩ := h₀ ▸ after_of_run rfl
  have hstays : ∀ j < 3, ¬ (m.next.after j).AtReturn 1 := by
    rintro j hj ⟨-, n, hn⟩
    obtain rfl | rfl | rfl : j = 0 ∨ j = 1 ∨ j = 2 := by omega
    · rw [after, h₀] at hn
      cases hn
    · rw [h₁] at hn
      cases hn
    · rw [h₂] at hn
      cases hn
  have hret : (m.next.after 3).AtReturn 1 := h₃ ▸ ⟨rfl, 1, rfl⟩
  have hnew : 1 = m.frames.size := rfl
  obtain ⟨hcurrent, -, hnest⟩ := calls_nest hm hfetch rfl hnew
  obtain ⟨hback, hip, hfrozen⟩ := (hnest 3).2 hret
  refine ⟨hm, hfetch, hcurrent, (hnest 3).1 hstays, hret, hback, hip, by rw [h₆]; rfl, fun j hj => ?_⟩
  obtain ⟨hne, hframe⟩ := hfrozen j hj
  exact ⟨hne, by rw [hframe, h₃]; rfl⟩

end Machine

end StackCode
