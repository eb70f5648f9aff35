import StackCode.Proofs.Machine.Reachable

/-!
# Machines in order

Every machine that a program reaches is in order (`InOrder`): the frames are linked to older
frames, closures capture frames that exist, builtins with arguments have some but not all
of them, and every instruction pointer that the machine has or keeps for later (in a return
point, as the entry of a closure or of a frame) is one of a set `safe`, provided that the
code leads from `safe` only to `safe` (`SafeCode`).

The set may be that of all numbers; a smaller one says more about the control flow.
-/

namespace StackCode

/-- What holds of every part of a value that a machine with `n` frames has: a closure enters
at a safe offset and captured a frame that exists, and a builtin with arguments has some but
not all of them. -/
def Value.InOrder (safe : Nat → Prop) (n : Nat) : Value → Prop
  | .closure entry frame => safe entry ∧ frame < n
  | .partialBuiltin b args => 0 < args.length ∧ args.length < b.arity
  | _ => True

/-- All parts of a value are in order. -/
def Value.AllInOrder (safe : Nat → Prop) (n : Nat) (v : Value) : Prop :=
  ∀ w : Value, w.Within v → w.InOrder safe n

/-- What holds of a frame with number `k` that a call has made. -/
structure Frame.Linked (safe : Nat → Prop) (k : Nat) (f : Frame) : Prop where
  parent : ∃ p, f.parent = some p ∧ p < k
  entry : ∃ e, f.entry = some e ∧ safe e
  returnPoint : ∃ r, f.returnPoint = some r ∧ r.caller < k ∧ safe r.ip

/-- The outermost frame, which no call has made. -/
structure Frame.Outermost (f : Frame) : Prop where
  parent : f.parent = none
  entry : f.entry = none
  returnPoint : f.returnPoint = none

namespace Value

variable {safe : Nat → Prop} {n : Nat}

theorem InOrder.mono {k : Nat} {v : Value} (h : v.InOrder safe n) (hk : n ≤ k) : v.InOrder safe k := by
  cases v with
  | closure entry frame => exact ⟨h.1, Nat.lt_of_lt_of_le h.2 hk⟩
  | _ => exact h

theorem Plain.allInOrder {v : Value} (h : v.Plain) : v.AllInOrder safe n := by
  intro w hw
  rw [h.eq_of_within hw]
  cases h <;> trivial

theorem allInOrder_closure {entry frame : Nat} (he : safe entry) (hf : frame < n) :
    (closure entry frame).AllInOrder safe n := by
  intro w hw
  cases hw
  exact ⟨he, hf⟩

theorem allInOrder_tuple {items : List Value} (h : ∀ v ∈ items, v.AllInOrder safe n) :
    (tuple items).AllInOrder safe n := by
  intro w hw
  cases hw with
  | refl => trivial
  | tuple hv hw => exact h _ hv w hw

theorem allInOrder_data {position ordinal : Int32} {fields : List Value}
    (h : ∀ v ∈ fields, v.AllInOrder safe n) : (data position ordinal fields).AllInOrder safe n := by
  intro w hw
  cases hw with
  | refl => trivial
  | data hv hw => exact h _ hv w hw

theorem allInOrder_partialBuiltin {b : Builtin} {args : List Value} (hpos : 0 < args.length)
    (hlt : args.length < b.arity) (h : ∀ v ∈ args, v.AllInOrder safe n) :
    (partialBuiltin b args).AllInOrder safe n := by
  intro w hw
  cases hw with
  | refl => exact ⟨hpos, hlt⟩
  | partialBuiltin hv hw => exact h _ hv w hw

theorem Within.trans {u v w : Value} (huv : u.Within v) (hvw : v.Within w) : u.Within w := by
  induction hvw with
  | refl => exact huv
  | tuple hv _ ih => exact .tuple hv ih
  | data hv _ ih => exact .data hv ih
  | partialBuiltin hv _ ih => exact .partialBuiltin hv ih

theorem AllInOrder.of_within {v w : Value} (h : w.AllInOrder safe n) (hv : v.Within w) :
    v.AllInOrder safe n :=
  fun u hu => h u (hu.trans hv)

end Value

namespace Machine

/-- The machine runs an image, with instruction pointers from a set, and is in order. -/
structure InOrder (img : Image) (safe : Nat → Prop) (m : Machine) : Prop where
  image : m.image = img
  ip : safe m.ip
  current : m.current < m.frames.size
  outermost : (m.frames.get 0).Outermost
  linked : ∀ k, 0 < k → k < m.frames.size → (m.frames.get k).Linked safe k
  values : ∀ v, m.Holds v → v.AllInOrder safe m.frames.size

/-- The code of an image leads from safe offsets only to safe offsets. -/
structure SafeCode (img : Image) (safe : Nat → Prop) : Prop where
  start : safe Image.headerSize
  next : ∀ {k : Nat} {i : Instruction} {n : Nat}, safe k → img.inCode k = true →
    Instruction.decode img.bytes k = .ok (i, n) → safe (k + n)
  destinations : ∀ {k : Nat} {i : Instruction} {n : Nat}, safe k → img.inCode k = true →
    Instruction.decode img.bytes k = .ok (i, n) → ∀ t ∈ i.destinations, safe (target t)

/-! ### Slots -/

theorem read?_enter (f : Frame) (n i : Nat) : (f.enter n).read? i = none := by
  simp only [Frame.read?, Frame.enter, Option.bind_some]
  rw [Array.getElem?_replicate]
  split <;> rfl

theorem read?_write {f : Frame} {i j : Nat} {v w : Value} (h : (f.write i v).read? j = some w) :
    w = v ∨ f.read? j = some w := by
  cases hslots : f.slots with
  | none => simp [Frame.read?, Frame.write, hslots] at h
  | some slots =>
    simp only [Frame.read?, Frame.write, hslots, Option.map_some, Option.bind_some,
      Array.getElem?_setIfInBounds] at h ⊢
    split at h
    · split at h
      · left
        simpa using h.symm
      · cases h
    · exact .inr h

/-! ### What a machine holds after a step -/

section Effect

variable {a : Action} {m m' : Machine} {v : Value}

theorem Holds.of_ip {ip : Nat} (h : Holds { m with ip := ip } v) : m.Holds v := by
  cases h with
  | stack hv => exact .stack hv
  | slot hv => exact .slot hv

/-- After an effect a machine holds only what the action may have made. -/
theorem Effect.makes {r : Option Value} (hcurrent : m.current < m.frames.size) (h : Effect a m r m')
    (hv : m'.Holds v) : Makes a m v := by
  have held : m.Holds v → Makes a m v := fun hv => .part hv .refl
  cases h with
  | values made =>
    cases hv with
    | stack hv => exact made v hv
    | slot hv => exact held (.slot hv)
  | jump kept _ =>
    cases hv with
    | stack hv => exact held (.stack (kept v hv))
    | slot hv => exact held (.slot hv)
  | call _ popped =>
    cases hv with
    | stack hv =>
      refine held (.stack (popped ▸ ?_))
      rcases List.mem_cons.mp hv with rfl | hv
      · exact List.mem_cons_self
      · exact List.mem_cons_of_mem _ (List.mem_cons_of_mem _ hv)
    | slot hv =>
      rw [Frames.get_push] at hv
      split at hv
      · cases hv
      · exact held (.slot hv)
  | ret =>
    cases hv with
    | stack hv => exact held (.stack hv)
    | slot hv => exact held (.slot hv)
  | finish _ _ popped =>
    cases hv with
    | stack hv => exact held (.stack (popped ▸ List.mem_cons_of_mem _ hv))
    | slot hv => exact held (.slot hv)
  | enter _ _ _ =>
    cases hv with
    | stack hv => exact held (.stack hv)
    | slot hv =>
      rw [Frames.get_modify _ hcurrent] at hv
      split at hv
      · rw [read?_enter] at hv
        cases hv
      · exact held (.slot hv)
  | store _ popped _ =>
    cases hv with
    | stack hv => exact held (.stack (popped ▸ List.mem_cons_of_mem _ hv))
    | slot hv =>
      rw [Frames.get_modify _ hcurrent] at hv
      split at hv
      · rcases read?_write hv with rfl | hv
        · exact held (.stack (popped ▸ List.mem_cons_self))
        · exact held (.slot hv)
      · exact held (.slot hv)

/-- After a failure a machine holds only what it held. -/
theorem Fails.holds {f : Fault} (h : Fails a m f m') (hv : m'.Holds v) : m.Holds v := by
  obtain ⟨-, k, -, sink, rfl, -⟩ := h
  cases hv with
  | stack hv => exact holds_of_mem_drop hv
  | slot hv => exact .slot hv

end Effect

/-! ### What a step keeps -/

section Step

variable {img : Image} {safe : Nat → Prop} {a : Action} {m m' : Machine}

/-- What an action makes of values in order is in order. -/
theorem Makes.allInOrder {v : Value} (hm : InOrder img safe m)
    (hdest : ∀ t ∈ a.destinations, safe (target t)) (hpush : ∀ v, a = .push v → v.Plain)
    (h : Makes a m v) : v.AllInOrder safe m.frames.size := by
  cases h with
  | part hw hv => exact (hm.values _ hw).of_within hv
  | literal hv => exact (hpush v hv).allInOrder
  | plain hv => exact hv.allInOrder
  | closure ht => exact Value.allInOrder_closure (hdest _ ht) hm.current
  | tuple hitems => exact Value.allInOrder_tuple fun w hw => hm.values w (hitems w hw)
  | data hfields => exact Value.allInOrder_data fun w hw => hm.values w (hfields w hw)
  | partialBuiltin _ popped applied few =>
    refine Value.allInOrder_partialBuiltin (Value.length_of_application applied) few fun w hw => ?_
    rcases Value.within_of_application applied hw with rfl | hw
    · exact hm.values w (.stack (by simp [popped]))
    · exact (hm.values _ (.stack (by simp [popped]))).of_within hw

/-- A machine stays in order when the instruction pointer moves to a safe offset. -/
theorem InOrder.move (hm : InOrder img safe m) {ip : Nat} (hip : safe ip) :
    InOrder img safe { m with ip := ip } :=
  ⟨hm.image, hip, hm.current, hm.outermost, hm.linked, fun v hv => hm.values v hv.of_ip⟩

/-- A machine stays in order when the slots of the current frame change and all values are in
order. -/
theorem InOrder.modify (hm : InOrder img safe m) {stack : List Value} {change : Frame → Frame}
    (hlinks : ∀ f, (change f).parent = f.parent ∧ (change f).entry = f.entry ∧
      (change f).returnPoint = f.returnPoint)
    (hvalues : ∀ v, Holds { m with
      stack := stack, frames := m.frames.modify m.current change } v →
        v.AllInOrder safe m.frames.size) :
    InOrder img safe { m with stack := stack, frames := m.frames.modify m.current change } := by
  have hkeep : ∀ k, ((m.frames.modify m.current change).get k).parent = (m.frames.get k).parent ∧
      ((m.frames.modify m.current change).get k).entry = (m.frames.get k).entry ∧
      ((m.frames.modify m.current change).get k).returnPoint = (m.frames.get k).returnPoint := by
    intro k
    rw [m.frames.get_modify hm.current change k]
    split
    · exact hlinks _
    · exact ⟨rfl, rfl, rfl⟩
  refine ⟨hm.image, hm.ip, ?_, ?_, fun k hpos hk => ?_, fun v hv => ?_⟩
  · rw [Frames.size_modify]
    exact hm.current
  · obtain ⟨hp, he, hr⟩ := hkeep 0
    exact ⟨hp.trans hm.outermost.parent, he.trans hm.outermost.entry,
      hr.trans hm.outermost.returnPoint⟩
  · rw [Frames.size_modify] at hk
    obtain ⟨hp, he, hr⟩ := hkeep k
    obtain ⟨hparent, hentry, hret⟩ := hm.linked k hpos hk
    exact ⟨by rw [hp]; exact hparent, by rw [he]; exact hentry, by rw [hr]; exact hret⟩
  · rw [Frames.size_modify]
    exact hvalues v hv

/-- The frames stay in order when a closure is called, and the old values stay in order as the
number of frames grows. -/
theorem InOrder.call (hm : InOrder img safe m) {stack : List Value} {argument : Value}
    {entry captured : Nat} (hpopped : m.stack = argument :: .closure entry captured :: stack)
    (hvalues : ∀ v, Holds { m with
      ip := entry
      stack := argument :: stack
      frames := m.frames.push (Frame.call captured entry ⟨m.ip, m.current⟩)
      current := m.frames.size } v → v.AllInOrder safe m.frames.size) :
    InOrder img safe
      { m with
        ip := entry
        stack := argument :: stack
        frames := m.frames.push (Frame.call captured entry ⟨m.ip, m.current⟩)
        current := m.frames.size } := by
  have hget := m.frames.get_push (Frame.call captured entry ⟨m.ip, m.current⟩)
  obtain ⟨hentry, hcaptured⟩ : safe entry ∧ captured < m.frames.size :=
    hm.values (.closure entry captured) (.stack (by rw [hpopped]; simp)) _ .refl
  refine ⟨hm.image, hentry, ?_, ?_, fun k hpos hk => ?_, fun v hv w hw => ?_⟩
  · rw [Frames.size_push]
    exact Nat.lt_succ_self _
  · simp only
    rw [hget 0, if_neg (Nat.ne_of_lt (Nat.zero_lt_of_lt hm.current))]
    exact hm.outermost
  · rw [Frames.size_push] at hk
    simp only
    rw [hget k]
    split
    · next h =>
      rw [h]
      exact ⟨⟨captured, rfl, hcaptured⟩, ⟨entry, rfl, hentry⟩, ⟨_, rfl, hm.current, hm.ip⟩⟩
    · exact hm.linked k hpos (by omega)
  · rw [Frames.size_push]
    exact (hvalues v hv w hw).mono (Nat.le_succ _)

/-- **A machine stays in order whatever effect an action has.** -/
theorem Effect.inOrder {r : Option Value} (hm : InOrder img safe m)
    (hdest : ∀ t ∈ a.destinations, safe (target t)) (hpush : ∀ v, a = .push v → v.Plain)
    (h : Effect a m r m') : InOrder img safe m' := by
  have hvalues : ∀ v, m'.Holds v → v.AllInOrder safe m.frames.size := fun v hv =>
    (h.makes hm.current hv).allInOrder hm hdest hpush
  cases h with
  | values | finish => exact ⟨hm.image, hm.ip, hm.current, hm.outermost, hm.linked, hvalues⟩
  | jump _ ht => exact ⟨hm.image, hdest _ ht, hm.current, hm.outermost, hm.linked, hvalues⟩
  | call _ hpopped => exact hm.call hpopped hvalues
  | @ret r _ hr =>
    -- only a frame that a call has made has a return point
    have hpos : 0 < m.current := by
      refine Nat.pos_of_ne_zero fun h0 => ?_
      rw [h0, hm.outermost.returnPoint] at hr
      cases hr
    obtain ⟨r', hr', hcaller, hip⟩ := (hm.linked _ hpos hm.current).returnPoint
    cases hr.symm.trans hr'
    exact ⟨hm.image, hip, Nat.lt_trans hcaller hm.current, hm.outermost, hm.linked, hvalues⟩
  | enter | store => exact hm.modify (fun _ => ⟨rfl, rfl, rfl⟩) hvalues

/-- A machine stays in order when an action fails. -/
theorem Fails.inOrder {f : Fault} (hm : InOrder img safe m) (h : Fails a m f m') :
    InOrder img safe m' := by
  have hvalues : ∀ v, m'.Holds v → v.AllInOrder safe m.frames.size := fun v hv =>
    hm.values v (h.holds hv)
  obtain ⟨-, k, -, sink, rfl, -⟩ := h
  exact ⟨hm.image, hm.ip, hm.current, hm.outermost, hm.linked, hvalues⟩

/-- A step keeps a machine in order. -/
theorem InOrder.step (hcode : SafeCode img safe) (hm : InOrder img safe m)
    (h : m.step.Leaves m') : InOrder img safe m' := by
  -- behind a fetched instruction the machine is in order, and its action leads only to safe offsets
  have hfetched : ∀ {i n a}, m.fetch = .ok (i, n) → i.action? = some a →
      InOrder img safe { m with ip := m.ip + n } ∧ (∀ t ∈ a.destinations, safe (target t)) ∧
        ∀ v, a = .push v → v.Plain := by
    intro i n a hfetch ha
    obtain ⟨hin, hdecode, a', ha', hdestinations, hplain, -⟩ := exists_action_of_fetch hfetch
    rw [ha] at ha'
    cases ha'
    rw [hm.image] at hin hdecode
    refine ⟨hm.move (hcode.next hm.ip hin hdecode), ?_, hplain⟩
    rw [hdestinations]
    exact hcode.destinations hm.ip hin hdecode
  have hstep := stepped m
  generalize m.step = p at h hstep
  cases hstep with
  | stuck hfetch =>
    cases h
    exact hm
  | running hfetch ha heffect =>
    cases h
    obtain ⟨hm₁, hdest, hpush⟩ := hfetched hfetch ha
    exact heffect.inOrder hm₁ hdest hpush
  | returned hfetch ha heffect hflush =>
    cases h
    obtain ⟨hm₁, hdest, hpush⟩ := hfetched hfetch ha
    exact heffect.inOrder hm₁ hdest hpush
  | unflushed hfetch ha heffect hflush =>
    cases h
    obtain ⟨hm₁, hdest, hpush⟩ := hfetched hfetch ha
    exact heffect.inOrder hm₁ hdest hpush
  | failed hfetch ha hfails =>
    cases h
    exact hfails.inOrder (hfetched hfetch ha).1

end Step

/-- At the start a machine holds nothing. -/
theorem not_holds_start {img : Image} {sink : Sink} {v : Value} :
    ¬ Holds { image := img, sink := sink } v := by
  intro hv
  cases hv with
  | stack hv => cases hv
  | @slot k i _ hv =>
    have hroot : Frames.initial.get k = Frame.root := by rcases k with _ | k <;> rfl
    simp only at hv
    rw [hroot] at hv
    cases hv

theorem inOrder_start {img : Image} {safe : Nat → Prop} (hstart : safe Image.headerSize)
    (sink : Sink) : InOrder img safe { image := img, sink := sink } := by
  refine ⟨rfl, hstart, Nat.zero_lt_one, ⟨rfl, rfl, rfl⟩, fun k hpos hk => ?_,
    fun v hv => absurd hv not_holds_start⟩
  have : k < 1 := hk
  omega

/-- **Every machine that a program reaches is in order.** -/
theorem Reachable.inOrder {img : Image} {safe : Nat → Prop} (hcode : SafeCode img safe)
    {m : Machine} (hm : Reachable img m) : InOrder img safe m := by
  induction hm with
  | start sink => exact inOrder_start hcode.start sink
  | step _ h ih => exact ih.step hcode h

end Machine

end StackCode
