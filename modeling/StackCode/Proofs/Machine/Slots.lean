import StackCode.Proofs.Machine.History

/-!
# Slots

A slot of a frame can be read from far away: through any closure that captured the frame or a
frame inside of it, long after the frame has returned. What is read is nevertheless told by the
history of the one frame alone. The slot is there if `ENTER` has allocated it while the frame
was current (`slot_after_iff`), and it holds what the last `STORE_VAR` has put there while the
frame was current (`read?_after_iff`). An instruction that fails allocates and stores nothing.
-/

namespace StackCode

open Result

namespace Frame

theorem slot_eq_ok_iff {f : Frame} {offset : Int32} {i : Nat} :
    f.slot offset = .ok i ↔
      ∃ slots, f.slots = some slots ∧ Word.toNat? offset = some i ∧ i < slots.size := by
  unfold slot
  cases f.slots with
  | none => simp
  | some slots =>
    cases Word.toNat? offset with
    | none => simp
    | some j =>
      by_cases hj : j < slots.size
      · simp only [if_pos hj, Except.ok.injEq, Option.some.injEq, exists_eq_left']
        constructor
        · rintro rfl
          exact ⟨rfl, hj⟩
        · exact fun h => h.1
      · simp only [if_neg hj, reduceCtorEq, Option.some.injEq, exists_eq_left', false_iff, not_and]
        rintro rfl
        exact hj

theorem slot_congr {f f' : Frame} (h : f'.slots = f.slots) (offset : Int32) :
    f'.slot offset = f.slot offset := by
  rw [slot, h, slot]

theorem read?_congr {f f' : Frame} (h : f'.slots = f.slots) (i : Nat) : f'.read? i = f.read? i := by
  rw [read?, h, read?]

theorem slot_enter_eq_ok_iff {f : Frame} {n i : Nat} {offset : Int32} :
    (f.enter n).slot offset = .ok i ↔ Word.toNat? offset = some i ∧ i < n := by
  simp [slot_eq_ok_iff, enter]

theorem slot_write (f : Frame) (i : Nat) (v : Value) (offset : Int32) :
    (f.write i v).slot offset = f.slot offset := by
  unfold slot write
  cases f.slots with
  | none => rfl
  | some slots => simp only [Option.map_some, Array.size_setIfInBounds]

/-- A value that is written to a slot is read there, and nothing else has changed. -/
theorem read?_write_slot {f : Frame} {offset : Int32} {i : Nat} (h : f.slot offset = .ok i) (v : Value)
    (j : Nat) : (f.write i v).read? j = if i = j then some v else f.read? j := by
  obtain ⟨slots, hslots, -, hi⟩ := slot_eq_ok_iff.mp h
  simp only [read?, write, hslots, Option.map_some, Option.bind_some, Array.getElem?_setIfInBounds]
  by_cases hij : i = j
  · subst hij
    simp only [if_true, if_pos hi, Option.join_some]
  · simp only [if_neg hij]

theorem load_eq_ok_iff {f : Frame} {offset : Int32} {v : Value} :
    f.load offset = .ok v ↔ ∃ i, f.slot offset = .ok i ∧ f.read? i = some v := by
  unfold load
  rw [bind_eq_ok_iff]
  refine exists_congr fun i => and_congr_right fun _ => ?_
  cases f.read? i with
  | none => simp
  | some w => exact pure_eq_ok_iff.trans Option.some_inj.symm

theorem load_of_read?_none {f : Frame} {offset : Int32} {i : Nat} (h : f.slot offset = .ok i)
    (hread : f.read? i = none) : f.load offset = .error (.uninitializedSlot i) := by
  rw [load, h]
  simp only [bind, Except.bind, hread]
  rfl

end Frame

namespace Machine

variable {img : Image} {m : Machine} {g : Nat}

/-! ### Events in a frame -/

/-- An instruction is executed while a frame is current, and succeeds. -/
structure Does (m : Machine) (g : Nat) (i : Instruction) : Prop where
  current : m.current = g
  fetch : ∃ n, m.fetch = .ok (i, n)
  step : m.step = .running m.next

/-- `ENTER` allocates the slot at an offset of a frame. -/
def Allocates (m : Machine) (g : Nat) (offset : Int32) : Prop :=
  ∃ size, m.Does g ⟨.enter, [.int size]⟩ ∧ 0 ≤ offset ∧ offset < size

/-- `STORE_VAR` stores a value in the slot at an offset of a frame. -/
def Stores (m : Machine) (g : Nat) (offset : Int32) (v : Value) : Prop :=
  m.Does g ⟨.storeVar, [.int offset]⟩ ∧ m.stack.head? = some v

theorem Stores.eq {offset : Int32} {v w : Value} (hv : m.Stores g offset v) (hw : m.Stores g offset w) :
    v = w :=
  Option.some.inj (hv.2.symm.trans hw.2)

/-- What `ENTER` does when it succeeds. -/
theorem Does.enter {size : Int32} (hm : Reachable img m) (h : m.Does g ⟨.enter, [.int size]⟩) :
    ∃ n, Word.toNat? size = some n ∧ m.next.frames.get g = (m.frames.get g).enter n := by
  obtain ⟨rfl, ⟨n, hfetch⟩, hstep⟩ := h
  have hyields : Yields (perform (.enter size)) { m with ip := m.ip + n }
      (fun _ m' => ∃ n, Word.toNat? size = some n ∧
        m'.frames = m.frames.modify m.current (·.enter n)) (fun _ _ => True) := by
    simp only [perform]
    split
    · trivial
    · next n hn =>
      simp only [yields_bind, yields_get, yields_lift, yields_modify, yields_pure]
      split
      · next frames hframes => exact ⟨n, hn, (Frames.enter_eq_ok_iff.mp hframes).2⟩
      · trivial
  obtain ⟨count, hcount, hframes⟩ := hyields.of_step hfetch rfl hstep
  refine ⟨count, hcount, ?_⟩
  rw [hframes, Frames.get_modify _ hm.current_lt, if_pos rfl]

/-- What `STORE_VAR` does when it succeeds. -/
theorem Stores.write {offset : Int32} {v : Value} (hm : Reachable img m) (h : m.Stores g offset v) :
    ∃ i, (m.frames.get g).slot offset = .ok i ∧
      m.next.frames.get g = (m.frames.get g).write i v := by
  obtain ⟨⟨rfl, ⟨n, hfetch⟩, hstep⟩, hv⟩ := h
  have hyields : Yields (perform (.store offset)) { m with ip := m.ip + n }
      (fun _ m' => ∃ w i, m.stack.head? = some w ∧ (m.frames.get m.current).slot offset = .ok i ∧
        m'.frames = m.frames.modify m.current (·.write i w)) (fun _ _ => True) := by
    simp only [perform, yields_bind, yields_pop, yields_get, yields_lift]
    split
    · trivial
    · next w rest hstack =>
      split
      · next frames hframes =>
        obtain ⟨i, hi, rfl⟩ := Frames.store_eq_ok_iff.mp hframes
        exact ⟨w, i, by rw [hstack]; rfl, hi, rfl⟩
      · trivial
  obtain ⟨w, i, hw, hi, hframes⟩ := hyields.of_step hfetch rfl hstep
  cases hv.symm.trans hw
  refine ⟨i, hi, ?_⟩
  rw [hframes, Frames.get_modify _ hm.current_lt, if_pos rfl]

/-! ### What a step does to slots -/

/-- **What a step can do to the slots of a frame.** -/
inductive Filled (m : Machine) (g : Nat) : Prop where
  /-- They stay as they are. -/
  | same (slots : (m.next.frames.get g).slots = (m.frames.get g).slots)
  /-- They are allocated. -/
  | entered {size : Int32} {n : Nat} (does : m.Does g ⟨.enter, [.int size]⟩)
    (allocated : Word.toNat? size = some n) (fresh : (m.frames.get g).slots = none)
    (frame : m.next.frames.get g = (m.frames.get g).enter n)
  /-- A value is stored in one of them. -/
  | stored {offset : Int32} {i : Nat} {v : Value} (stores : m.Stores g offset v)
    (slot : (m.frames.get g).slot offset = .ok i)
    (frame : m.next.frames.get g = (m.frames.get g).write i v)

theorem filled (hm : Reachable img m) (g : Nat) : Filled m g := by
  cases reframed m with
  | kept frames | returned _ _ frames => exact .same (by rw [frames])
  | called _ _ frames =>
    refine .same ?_
    rw [frames, Frames.get_push]
    split
    · next hg =>
      subst hg
      simp [Frames.get, Frames.size, Frame.call, Frame.root]
    · rfl
  | entered step fetch allocated fresh frames =>
    have hget := Frames.get_modify m.frames hm.current_lt
    by_cases hg : m.current = g
    · subst hg
      refine .entered ⟨rfl, ⟨_, fetch⟩, step⟩ allocated ?_ (by rw [frames, hget, if_pos rfl])
      simpa [Frame.isEntered] using fresh
    · exact .same (by rw [frames, hget, if_neg hg])
  | stored step fetch stack slot frames =>
    have hget := Frames.get_modify m.frames hm.current_lt
    by_cases hg : m.current = g
    · subst hg
      exact .stored ⟨⟨rfl, ⟨_, fetch⟩, step⟩, by rw [stack]; rfl⟩ slot (by rw [frames, hget, if_pos rfl])
    · exact .same (by rw [frames, hget, if_neg hg])

/-- A slot is there after a step if it was there before or was allocated. -/
theorem slot_next_iff (hm : Reachable img m) {offset : Int32} {i : Nat}
    (hi : Word.toNat? offset = some i) :
    (m.next.frames.get g).slot offset = .ok i ↔
      m.Allocates g offset ∨ (m.frames.get g).slot offset = .ok i := by
  have hoffset := Word.toNat?_eq_some.mp hi
  constructor
  · intro h
    cases filled hm g with
    | same slots => exact .inr (Frame.slot_congr slots offset ▸ h)
    | @entered size n does allocated _ frame =>
      rw [frame, Frame.slot_enter_eq_ok_iff] at h
      have hsize := Word.toNat?_eq_some.mp allocated
      refine .inl ⟨size, does, ?_, ?_⟩
      · rw [Int32.le_iff_toInt_le, hoffset]
        exact Int.natCast_nonneg i
      · rw [Int32.lt_iff_toInt_lt, hoffset, hsize]
        exact_mod_cast h.2
    | stored _ _ frame =>
      rw [frame, Frame.slot_write] at h
      exact .inr h
  · rintro (⟨size, hdoes, -, hlt⟩ | h)
    · obtain ⟨n, hn, hframe⟩ := hdoes.enter hm
      have hsize := Word.toNat?_eq_some.mp hn
      rw [Int32.lt_iff_toInt_lt, hoffset, hsize] at hlt
      rw [hframe, Frame.slot_enter_eq_ok_iff]
      exact ⟨hi, by exact_mod_cast hlt⟩
    · cases filled hm g with
      | same slots => rw [Frame.slot_congr slots, h]
      | entered _ _ fresh _ =>
        obtain ⟨slots, hslots, -⟩ := Frame.slot_eq_ok_iff.mp h
        rw [fresh] at hslots
        cases hslots
      | stored _ _ frame => rw [frame, Frame.slot_write, h]

/-- A slot holds after a step what was stored in it, or what it has held before. -/
theorem read?_next_iff (hm : Reachable img m) {offset : Int32} {i : Nat}
    (hi : Word.toNat? offset = some i) {v : Value} :
    (m.next.frames.get g).read? i = some v ↔
      m.Stores g offset v ∨
        (∀ w, ¬ m.Stores g offset w) ∧ (m.frames.get g).read? i = some v := by
  by_cases hstores : ∃ w, m.Stores g offset w
  · obtain ⟨w, hw⟩ := hstores
    obtain ⟨j, hj, hframe⟩ := hw.write hm
    obtain ⟨-, -, hij, -⟩ := Frame.slot_eq_ok_iff.mp hj
    cases hi.symm.trans hij
    rw [hframe, Frame.read?_write_slot hj, if_pos rfl, Option.some.injEq]
    constructor
    · rintro rfl
      exact .inl hw
    · rintro (hv | ⟨hnot, -⟩)
      · exact hw.eq hv
      · exact absurd hw (hnot w)
  · have hkept : (m.next.frames.get g).read? i = (m.frames.get g).read? i := by
      cases filled hm g with
      | same slots => exact Frame.read?_congr slots i
      | entered _ _ fresh frame =>
        rw [frame, read?_enter, Frame.read?, fresh]
        rfl
      | @stored offset' j w stores slot frame =>
        obtain ⟨-, -, hj, -⟩ := Frame.slot_eq_ok_iff.mp slot
        -- a store in the same slot would be a store at the same offset
        have hne : j ≠ i := by
          rintro rfl
          have hsame : offset' = offset := by
            rw [← Int32.toInt_inj, Word.toNat?_eq_some.mp hj, Word.toNat?_eq_some.mp hi]
          exact hstores ⟨w, hsame ▸ stores⟩
        rw [frame, Frame.read?_write_slot slot, if_neg hne]
    rw [hkept]
    constructor
    · exact fun h => .inr ⟨fun w hw => hstores ⟨w, hw⟩, h⟩
    · rintro (hv | ⟨-, h⟩)
      · exact absurd ⟨v, hv⟩ hstores
      · exact h

/-! ### What the history says -/

/-- Within the first `k` steps the slot at an offset of a frame was allocated. -/
def Allocated (m : Machine) (k g : Nat) (offset : Int32) : Prop :=
  ∃ j < k, (m.after j).Allocates g offset

/-- Within the first `k` steps, the last that stored a value in the slot at an offset of a frame
has stored this one. -/
def LastStored (m : Machine) (k g : Nat) (offset : Int32) (v : Value) : Prop :=
  ∃ j < k, (m.after j).Stores g offset v ∧
    ∀ l, j < l → l < k → ∀ w, ¬ (m.after l).Stores g offset w

theorem allocated_succ_iff {k : Nat} {offset : Int32} :
    m.Allocated (k + 1) g offset ↔ (m.after k).Allocates g offset ∨ m.Allocated k g offset := by
  constructor
  · rintro ⟨j, hj, h⟩
    rcases Nat.lt_succ_iff_lt_or_eq.mp hj with hj | rfl
    · exact .inr ⟨j, hj, h⟩
    · exact .inl h
  · rintro (h | ⟨j, hj, h⟩)
    · exact ⟨k, Nat.lt_succ_self k, h⟩
    · exact ⟨j, Nat.lt_succ_of_lt hj, h⟩

theorem lastStored_succ_iff {k : Nat} {offset : Int32} {v : Value} :
    m.LastStored (k + 1) g offset v ↔
      (m.after k).Stores g offset v ∨
        (∀ w, ¬ (m.after k).Stores g offset w) ∧ m.LastStored k g offset v := by
  constructor
  · rintro ⟨j, hj, h, hlast⟩
    rcases Nat.lt_succ_iff_lt_or_eq.mp hj with hj | rfl
    · exact .inr ⟨hlast k hj (Nat.lt_succ_self k), j, hj, h,
        fun l hl hlk => hlast l hl (Nat.lt_succ_of_lt hlk)⟩
    · exact .inl h
  · rintro (h | ⟨hnot, j, hj, h, hlast⟩)
    · exact ⟨k, Nat.lt_succ_self k, h, fun l hl hlk => absurd hlk (by omega)⟩
    · refine ⟨j, Nat.lt_succ_of_lt hj, h, fun l hl hlk => ?_⟩
      rcases Nat.lt_succ_iff_lt_or_eq.mp hlk with hlk | rfl
      · exact hlast l hl hlk
      · exact hnot

theorem Allocated.exists_toNat? {k : Nat} {offset : Int32} (h : m.Allocated k g offset) :
    ∃ i, Word.toNat? offset = some i := by
  obtain ⟨-, -, -, -, hpos, -⟩ := h
  rw [Int32.le_iff_toInt_le] at hpos
  obtain ⟨i, hi⟩ := Int.eq_ofNat_of_zero_le hpos
  exact ⟨i, Word.toNat?_eq_some.mpr hi⟩

section Start

variable {sink : Sink} {m₀ : Machine} (hstart : m₀ = { image := img, sink := sink })
include hstart

theorem slots_start (g : Nat) : (m₀.frames.get g).slots = none := by
  subst hstart
  rcases g with _ | g <;> rfl

theorem reachable_after (k : Nat) : Reachable img (m₀.after k) := by
  subst hstart
  exact (Reachable.start sink).after k

/-- **A slot is there exactly if it was allocated while its frame was current.** -/
theorem slot_after_iff {offset : Int32} {i : Nat} (hi : Word.toNat? offset = some i) (k : Nat) :
    ((m₀.after k).frames.get g).slot offset = .ok i ↔ m₀.Allocated k g offset := by
  induction k with
  | zero =>
    rw [after, Frame.slot_eq_ok_iff, slots_start hstart]
    simp [Allocated]
  | succ k ih => rw [after, slot_next_iff (reachable_after hstart k) hi, ih, allocated_succ_iff]

/-- **A slot holds what was last stored in it while its frame was current.** -/
theorem read?_after_iff {offset : Int32} {i : Nat} (hi : Word.toNat? offset = some i) (k : Nat)
    {v : Value} :
    ((m₀.after k).frames.get g).read? i = some v ↔ m₀.LastStored k g offset v := by
  induction k with
  | zero =>
    rw [after, Frame.read?, slots_start hstart]
    simp [LastStored]
  | succ k ih => rw [after, read?_next_iff (reachable_after hstart k) hi, ih, lastStored_succ_iff]

theorem load_after_iff {offset : Int32} {k : Nat} {v : Value} :
    ((m₀.after k).frames.get g).load offset = .ok v ↔
      m₀.Allocated k g offset ∧ m₀.LastStored k g offset v := by
  rw [Frame.load_eq_ok_iff]
  constructor
  · rintro ⟨i, hslot, hread⟩
    obtain ⟨-, -, hi, -⟩ := Frame.slot_eq_ok_iff.mp hslot
    exact ⟨(slot_after_iff hstart hi k).mp hslot, (read?_after_iff hstart hi k).mp hread⟩
  · rintro ⟨hallocated, hstored⟩
    obtain ⟨i, hi⟩ := hallocated.exists_toNat?
    exact ⟨i, (slot_after_iff hstart hi k).mpr hallocated, (read?_after_iff hstart hi k).mpr hstored⟩

theorem load_after_of_not_stored {offset : Int32} {k : Nat} (hallocated : m₀.Allocated k g offset)
    (hnot : ∀ j < k, ∀ v, ¬ (m₀.after j).Stores g offset v) :
    ((m₀.after k).frames.get g).load offset = .error (.uninitializedSlot offset.toInt.toNat) := by
  obtain ⟨i, hi⟩ := hallocated.exists_toNat?
  have hread : ((m₀.after k).frames.get g).read? i = none := by
    rw [Option.eq_none_iff_forall_ne_some]
    intro v hv
    obtain ⟨j, hj, hstores, -⟩ := (read?_after_iff hstart hi k).mp hv
    exact hnot j hj v hstores
  rw [Frame.load_of_read?_none ((slot_after_iff hstart hi k).mpr hallocated) hread,
    Word.toNat?_eq_some.mp hi, Int.toNat_natCast]

end Start

/-! ### Reading a variable -/

/-- What `PUSH_VAR` pushes. -/
def lookup (m : Machine) (depth offset : Int32) : Except Fault Value :=
  if depth < 0 then .error (.noEnclosingFrame depth)
  else
    match m.frames.ancestor m.current depth with
    | .ok frame => (m.frames.get frame).load offset
    | .error fault => .error fault

/-- What `PUSH_VAR` does. -/
theorem yields_lookup {depth offset : Int32} {Q : Option Value → Machine → Prop}
    {E : Fault → Machine → Prop} :
    Yields (perform (.pushVar depth offset)) m Q E ↔
      match m.lookup depth offset with
      | .ok v => Q none { m with stack := v :: m.stack }
      | .error fault => E fault m := by
  unfold lookup
  simp only [perform]
  by_cases hdepth : depth < 0
  · rw [if_pos hdepth, if_pos hdepth]
    rfl
  · rw [if_neg hdepth, if_neg hdepth]
    simp only [yields_bind, yields_get, yields_lift, yields_push, yields_pure]
    cases m.frames.ancestor m.current depth with
    | error fault => exact Iff.rfl
    | ok frame =>
      simp only
      cases (m.frames.get frame).load offset <;> exact Iff.rfl

/-- What it does at a depth that is not negative. -/
theorem yields_pushVar {depth offset : Int32} (hdepth : 0 ≤ depth)
    {Q : Option Value → Machine → Prop} {E : Fault → Machine → Prop} :
    Yields (perform (.pushVar depth offset)) m Q E ↔
      match m.frames.ancestor m.current depth with
      | .error fault => E fault m
      | .ok g =>
        match (m.frames.get g).load offset with
        | .ok v => Q none { m with stack := v :: m.stack }
        | .error fault => E fault m := by
  have hnot : ¬ depth < 0 := Int32.not_lt.mpr hdepth
  rw [yields_lookup, lookup, if_neg hnot]
  cases m.frames.ancestor m.current depth <;> exact Iff.rfl

/-- **Variables have the value that was stored last.** Let `PUSH_VAR` be executed after `k` steps
of a program, and let `g` be the frame that as many parent links lead to from the current frame as it
says. It pushes a value exactly if `g` exists, the slot was allocated by an `ENTER` while `g` was
current, and the value is that of the last `STORE_VAR` to this offset while `g` was current. If
there was no such store, the slot is reported as uninitialized, and if the links end before, that there
is no such frame. Only instructions that succeed count, and nothing else that has happened in the `k`
steps matters. -/
theorem pushVar_reads_last_store {sink : Sink} {m₀ : Machine} {k n : Nat} {depth offset : Int32}
    (hstart : m₀ = { image := img, sink := sink }) (hm : m = m₀.after k)
    (hfetch : m.fetch = .ok (⟨.pushVar, [.int depth, .int offset]⟩, n)) (hdepth : 0 ≤ depth) :
    (∀ v, m.step = .running { m with ip := m.ip + n, stack := v :: m.stack } ↔
      ∃ g, m.frames.Around depth.toInt.toNat m.current g ∧
        m₀.Allocated k g offset ∧ m₀.LastStored k g offset v) ∧
    (∀ g, m.frames.Around depth.toInt.toNat m.current g → m₀.Allocated k g offset →
      (∀ j < k, ∀ v, ¬ (m₀.after j).Stores g offset v) →
        ∃ f, f.fault = .uninitializedSlot offset.toInt.toNat ∧
          m.step = .failed f { m with ip := m.ip + n }) ∧
    ((∀ g, ¬ m.frames.Around depth.toInt.toNat m.current g) →
      ∃ f, f.fault = .noEnclosingFrame depth ∧ m.step = .failed f { m with ip := m.ip + n }) := by
  subst hm
  refine ⟨fun v => ?_, fun g hg hallocated hnot => ?_, fun hnone => ?_⟩
  · simp only [← load_after_iff hstart, ← Frames.ancestor_eq_ok_iff]
    rw [step_eq_running_iff hfetch rfl, run_eq_ok_iff, yields_pushVar hdepth]
    cases (m₀.after k).frames.ancestor (m₀.after k).current depth with
    | error fault => simp
    | ok g =>
      cases hload : ((m₀.after k).frames.get g).load offset <;> simp [hload]
  · have hload := load_after_of_not_stored hstart hallocated hnot
    have hancestor := Frames.ancestor_eq_ok_iff.mpr hg
    refine ⟨_, rfl, step_of_error hfetch rfl (run_eq_error_iff.mpr ?_)⟩
    simp only [yields_pushVar hdepth, hancestor, hload, and_self]
  · have hancestor := Frames.ancestor_of_not_around hnone
    refine ⟨_, rfl, step_of_error hfetch rfl (run_eq_error_iff.mpr ?_)⟩
    simp only [yields_pushVar hdepth, hancestor, and_self]

/-- A program that reads a slot before anything is stored in it, which fails, and goes on. It
stores two values in the slot, one after the other, and calls a closure that stores another
value at the same offset of its own frame and then reads the slot. -/
theorem pushVar_reads_last_store_captured :
    let img : Image := ⟨[56, 0, 0, 0, 25, 1, 0, 0, 0, 11, 0, 0, 0, 0, 0, 0, 0, 0, 10, 27, 0, 0, 0, 0, 7, 27,
      0, 0, 0, 0, 1, 37, 0, 0, 0, 10, 24, 25, 1, 0, 0, 0, 27, 0, 0, 0, 0, 11, 1, 0, 0, 0, 0, 0, 0, 0],
      56⟩
    let m₀ : Machine := { image := img }
    let early : Machine := ⟨img, 9, [], ⟨#[{ slots := some #[none] }]⟩, 0, {}⟩
    let late : Machine := ⟨img, 47, [], ⟨#[{ slots := some #[some (.bool true)] },
      ⟨some 0, some 37, some ⟨37, 0⟩, some #[some .unit]⟩]⟩, 1, {}⟩
    early = m₀.after 1 ∧ early.fetch = .ok (⟨.pushVar, [.int 0, .int 0]⟩, 9) ∧
      (∃ f, f.fault = .uninitializedSlot 0 ∧ early.step = .failed f { early with ip := 18 }) ∧
      late = m₀.after 11 ∧ late.fetch = .ok (⟨.pushVar, [.int 1, .int 0]⟩, 9) ∧
      late.step = .running { late with ip := 56, stack := [.bool true] } ∧
      m₀.LastStored 11 0 0 (.bool true) := by
  intro img m₀ early late
  have hstart : m₀ = { image := img, sink := {} } := rfl
  have hearly : early = m₀.after 1 := (after_of_run rfl).symm
  have hfetch : early.fetch = .ok (⟨.pushVar, [.int 0, .int 0]⟩, 9) := rfl
  have hallocated : m₀.Allocated 1 0 0 :=
    ⟨0, Nat.zero_lt_one, 1, ⟨rfl, ⟨5, rfl⟩, rfl⟩, by decide, by decide⟩
  have hnot : ∀ j < 1, ∀ v, ¬ (m₀.after j).Stores 0 0 v := by
    rintro j hj v ⟨⟨-, ⟨n, hn⟩, -⟩, -⟩
    cases Nat.lt_one_iff.mp hj
    cases hn
  obtain ⟨f, hf, hfails⟩ :=
    (pushVar_reads_last_store hstart hearly hfetch (by decide)).2.1 0 (.here 0) hallocated hnot
  -- the machine goes on behind the instruction that has failed
  have h₂ : m₀.after 2 = { early with ip := 18 } := by
    rw [after, ← hearly, next, hfails]
    rfl
  have h₄ : m₀.after 4 = ⟨img, 24, [], ⟨#[{ slots := some #[some .unit] }]⟩, 0, {}⟩ := by
    rw [← after_add m₀ 2 2, h₂]
    exact after_of_run rfl
  have h₇ : m₀.after 7 =
      ⟨img, 35, [.closure 37 0], ⟨#[{ slots := some #[some (.bool true)] }]⟩, 0, {}⟩ := by
    rw [← after_add m₀ 4 3, h₄]
    exact after_of_run rfl
  have hlate : late = m₀.after 11 := by
    rw [← after_add m₀ 7 4, h₇]
    exact (after_of_run rfl).symm
  have hfetch' : late.fetch = .ok (⟨.pushVar, [.int 1, .int 0]⟩, 9) := rfl
  have hpush : late.step = .running { late with ip := 56, stack := [.bool true] } := rfl
  obtain ⟨g, hg, -, hlast⟩ :=
    ((pushVar_reads_last_store hstart hlate hfetch' (by decide)).1 (.bool true)).mp hpush
  have houter : late.frames.Around 1 1 0 := .outward rfl (.here 0)
  cases hg.unique houter
  exact ⟨hearly, hfetch, ⟨f, hf, hfails⟩, hlate, hfetch', hpush, hlast⟩

end Machine

end StackCode
