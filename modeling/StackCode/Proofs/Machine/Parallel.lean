import StackCode.Proofs.Machine.Fetch
import StackCode.Proofs.Machine.Output

/-!
# Two machines side by side

Two machines are `Alike` if they differ only in the data of their images and in what they have
written. An act runs on both of them in parallel (`Parallel`): it does the same to both and they
stay alike, or it fails on both in the same way, or on one of them it fails because there is no
usable type record. The last is the only way in which the data can show, since nothing but printing
looks at it (`parallel_perform`).

The acts need not be the same on both sides. A machine that has printed goes on with another text
than the one beside it, and must not do anything with it but write it.
-/

namespace StackCode

/-- Images that differ only in their data. -/
structure Image.SameCode (img other : Image) : Prop where
  dataOffset : other.dataOffset = img.dataOffset
  code : other.code = img.code

namespace Machine

open Result

variable {α β γ δ : Type}

/-- The machines differ only in the data of their images and in what they have written, and what
they write is never refused. -/
inductive Alike : Machine → Machine → Prop where
  | intro (m : Machine) (img : Image) (sink : Sink) (image : m.image.SameCode img)
    (left : m.sink.Unlimited) (right : sink.Unlimited) :
    Alike m { m with image := img, sink := sink }

/-- How an act can end on two machines side by side. -/
inductive Concur (R : α → β → Prop) :
    EStateM.Result Fault Machine α → EStateM.Result Fault Machine β → Prop where
  /-- It succeeds on both. -/
  | ok {a : α} {b : β} {m n : Machine} : R a b → Alike m n → Concur R (.ok a m) (.ok b n)
  /-- It fails on both with the same fault. -/
  | error {f : Fault} {m n : Machine} : Alike m n → Concur R (.error f m) (.error f n)
  /-- It finds no type record on the first. -/
  | left {f : Fault} {m : Machine} {r : EStateM.Result Fault Machine β} :
    f.Unrecorded → Concur R (.error f m) r
  /-- It finds no type record on the second. -/
  | right {f : Fault} {n : Machine} {r : EStateM.Result Fault Machine α} :
    f.Unrecorded → Concur R r (.error f n)

/-- On machines that are alike, the acts end in the same way, with results that `R` relates. -/
def Parallel (R : α → β → Prop) (x : Act α) (y : Act β) : Prop :=
  ∀ m n, Alike m n → Concur R (x.run m) (y.run n)

/-! ### Composition -/

theorem parallel_pure {R : α → β → Prop} {a : α} {b : β} (h : R a b) :
    Parallel R (pure a) (pure b) := fun _ _ hmn => .ok h hmn

theorem parallel_throw {R : α → β → Prop} (f : Fault) : Parallel R (throw f) (throw f) :=
  fun _ _ hmn => .error hmn

/-- What would come after a failure does not matter. -/
theorem parallel_throw_bind {R : β → γ → Prop} (f : Fault) (g : α → Act β) (h : α → Act γ) :
    Parallel R (throw f >>= g) (throw f >>= h) := fun _ _ hmn => .error hmn

theorem Parallel.bind {R : α → β → Prop} {S : γ → δ → Prop} {x : Act α} {y : Act β}
    {f : α → Act γ} {g : β → Act δ} (h : Parallel R x y)
    (hfg : ∀ a b, R a b → Parallel S (f a) (g b)) : Parallel S (x >>= f) (y >>= g) := by
  intro m n hmn
  have hxy := h m n hmn
  rw [EStateM.run_bind, EStateM.run_bind]
  generalize x.run m = r, y.run n = r' at hxy
  cases hxy with
  | ok hab hmn => exact hfg _ _ hab _ _ hmn
  | error hmn => exact .error hmn
  | left hf => exact .left hf
  | right hf => exact .right hf

theorem Parallel.mono {R S : α → β → Prop} {x : Act α} {y : Act β} (h : Parallel R x y)
    (hRS : ∀ a b, R a b → S a b) : Parallel S x y := by
  intro m n hmn
  have hxy := h m n hmn
  generalize x.run m = r, y.run n = r' at hxy
  cases hxy with
  | ok hab hmn => exact .ok (hRS _ _ hab) hmn
  | error hmn => exact .error hmn
  | left hf => exact .left hf
  | right hf => exact .right hf

/-- Acts with the same result, which the next act may look at. -/
theorem Parallel.andThen {S : γ → δ → Prop} {x y : Act α} {f : α → Act γ} {g : α → Act δ}
    (h : Parallel Eq x y) (hfg : ∀ a, Parallel S (f a) (g a)) : Parallel S (x >>= f) (y >>= g) :=
  h.bind fun a _ hab => hab ▸ hfg a

/-- The last act of an action, which does not end the program. -/
theorem Parallel.last {x y : Act Unit} (h : Parallel Eq x y) :
    Parallel Eq (x >>= fun _ => pure (none : Option γ)) (y >>= fun _ => pure none) :=
  h.andThen fun _ => parallel_pure rfl

theorem parallel_get : Parallel Alike get get := fun _ _ hmn => .ok hmn hmn

theorem parallel_set {m n : Machine} (h : Alike m n) : Parallel Eq (set m : Act PUnit) (set n) :=
  fun _ _ _ => .ok rfl h

theorem parallel_modify {f g : Machine → Machine} (h : ∀ m n, Alike m n → Alike (f m) (g n)) :
    Parallel Eq (modify f : Act PUnit) (modify g) := fun m n hmn => .ok rfl (h m n hmn)

theorem parallel_lift (x : Except Fault α) : Parallel Eq (lift x) (lift x) := by
  cases x with
  | error f => exact parallel_throw f
  | ok a => exact parallel_pure rfl

/-- A computation that looks at the data and can fail for want of a type record. -/
theorem parallel_lift_of_unrecorded {R : α → β → Prop} {x : Except Fault α} {y : Except Fault β}
    (hx : FailsOnly Fault.Unrecorded x) (hy : FailsOnly Fault.Unrecorded y)
    (hR : ∀ a b, x = .ok a → y = .ok b → R a b) : Parallel R (lift x) (lift y) := by
  intro m n hmn
  cases x with
  | error f => exact .left (hx f rfl)
  | ok a =>
    cases y with
    | error f => exact .right (hy f rfl)
    | ok b => exact .ok (hR a b rfl rfl) hmn

/-- A change that has nothing to do with the image and the sink. -/
theorem parallel_change {f : Machine → Machine}
    (h : ∀ m img sink, f { m with image := img, sink := sink } = { f m with image := img, sink := sink }) :
    Parallel Eq (modify f : Act PUnit) (modify f) := by
  refine parallel_modify fun m n hmn => ?_
  obtain ⟨img, sink, himage, hleft, hright⟩ := hmn
  -- the change leaves the image and the sink as they are
  have hsame : f m = { f m with image := m.image, sink := m.sink } := h m m.image m.sink
  have himg : (f m).image = m.image := by rw [hsame]
  have hsink : (f m).sink = m.sink := by rw [hsame]
  rw [h m img sink]
  exact .intro (f m) img sink (himg ▸ himage) (hsink ▸ hleft) hright

/-! ### The stack and the output -/

theorem parallel_push (v : Value) : Parallel Eq (push v) (push v) := parallel_change fun _ _ _ => rfl

theorem parallel_jump (position : Int32) : Parallel Eq (jump position) (jump position) :=
  parallel_change fun _ _ _ => rfl

theorem parallel_pop : Parallel Eq pop pop := by
  refine parallel_get.bind fun m n hmn => ?_
  obtain ⟨img, sink, himage, hleft, hright⟩ := hmn
  cases m.stack with
  | nil => exact parallel_throw _
  | cons v rest =>
    refine Parallel.andThen (parallel_set ?_) fun _ => parallel_pure rfl
    exact .intro { m with stack := rest } img sink himage hleft hright

theorem parallel_popMany (count : Int32) : Parallel Eq (popMany count) (popMany count) := by
  refine parallel_get.bind fun m n hmn => ?_
  obtain ⟨img, sink, himage, hleft, hright⟩ := hmn
  cases Word.toNat? count with
  | none => exact parallel_throw _
  | some k =>
    dsimp only
    split
    · exact parallel_throw _
    · refine Parallel.andThen (parallel_set ?_) fun _ => parallel_pure rfl
      exact .intro { m with stack := m.stack.drop k } img sink himage hleft hright

theorem parallel_popInt : Parallel Eq popInt popInt :=
  parallel_pop.andThen fun v => parallel_lift v.asInt

theorem parallel_popBool : Parallel Eq popBool popBool :=
  parallel_pop.andThen fun v => parallel_lift v.asBool

/-- The texts that are written need not be the same. -/
theorem parallel_write (s t : String) : Parallel Eq (write s) (write t) := by
  intro m n hmn
  obtain ⟨img, sink, himage, hleft, hright⟩ := hmn
  obtain ⟨sink₁, h₁, hleft₁⟩ := hleft.write (Text.Utf8.encode s)
  obtain ⟨sink₂, h₂, hright₂⟩ := hright.write (Text.Utf8.encode t)
  have hm : (write s).run m = .ok () { m with sink := sink₁ } := by
    rw [run_eq_ok_iff, yields_write, h₁]
    exact ⟨rfl, rfl⟩
  have hn : (write t).run { m with image := img, sink := sink } =
      .ok () { m with image := img, sink := sink₂ } := by
    rw [run_eq_ok_iff, yields_write, h₂]
    exact ⟨rfl, rfl⟩
  rw [hm, hn]
  exact .ok rfl (.intro { m with sink := sink₁ } img sink₂ himage hleft₁ hright₂)

/-! ### Calls and returns -/

/-- Replies that are the same, or texts to be printed. -/
inductive SameReply : Builtin.Reply → Builtin.Reply → Prop where
  | value (v : Value) : SameReply (.value v) (.value v)
  | output (s t : String) : SameReply (.output s) (.output t)

/-- A builtin that prints fails only for want of a type record, and the others do not look at the
data. -/
theorem parallel_lift_apply (p q : Printer) (b : Builtin) (args : List Value) :
    Parallel SameReply (lift (b.apply p args)) (lift (b.apply q args)) := by
  have hsame : b.apply p args = b.apply q args →
      Parallel SameReply (lift (b.apply p args)) (lift (b.apply q args)) := by
    intro h
    rw [← h]
    refine (parallel_lift _).mono fun reply reply' hreply => ?_
    cases hreply
    cases reply <;> constructor
  cases b with
  | print style =>
    match args with
    | [v] =>
      refine parallel_lift_of_unrecorded (.map (.render p style v)) (.map (.render q style v)) ?_
      intro reply reply' hp hq
      obtain ⟨s, -, rfl⟩ := map_eq_ok_iff.mp hp
      obtain ⟨t, -, rfl⟩ := map_eq_ok_iff.mp hq
      exact .output s t
    | [] => exact hsame rfl
    | _ :: _ :: _ => exact hsame rfl
  | _ => exact hsame (by rcases args with _ | ⟨_, _ | ⟨_, _ | ⟨_, _ | ⟨_, _⟩⟩⟩⟩ <;> rfl)

theorem parallel_applyBuiltin (b : Builtin) (args : List Value) :
    Parallel Eq (applyBuiltin b args) (applyBuiltin b args) := by
  unfold applyBuiltin
  split
  · exact parallel_push _
  · refine parallel_get.bind fun m n _ => ?_
    refine (parallel_lift_apply m.printer n.printer b args).bind fun reply reply' hreply => ?_
    cases hreply with
    | value v => exact parallel_push v
    | output s t => exact parallel_write s t

theorem parallel_call (callee argument : Value) :
    Parallel Eq (call callee argument) (call callee argument) := by
  unfold call
  split
  · exact parallel_change fun _ _ _ => rfl
  · exact parallel_applyBuiltin _ _
  · exact parallel_applyBuiltin _ _
  · exact parallel_throw _

theorem parallel_ret : Parallel Eq ret ret := by
  refine parallel_get.bind fun m n hmn => ?_
  obtain ⟨img, sink, himage, hleft, hright⟩ := hmn
  dsimp only
  cases (m.frames.get m.current).returnPoint with
  | some r =>
    refine Parallel.andThen (parallel_set ?_) fun _ => parallel_pure rfl
    exact .intro { m with ip := r.ip, current := r.caller } img sink himage hleft hright
  | none =>
    refine parallel_pop.andThen fun v => ?_
    split
    · exact parallel_pure rfl
    · refine parallel_get.bind fun m n _ => ?_
      have hrender : Parallel (fun _ _ => True) (lift (m.printer.render .typed v))
          (lift (n.printer.render .typed v)) :=
        parallel_lift_of_unrecorded (.render _ _ _) (.render _ _ _) fun _ _ _ _ => trivial
      refine hrender.bind fun s t _ => ?_
      exact (parallel_write _ _).andThen fun _ => parallel_pure rfl

/-- **Every action runs in parallel on machines that are alike.** -/
theorem parallel_perform (a : Action) : Parallel Eq (perform a) (perform a) := by
  cases a with
  | push v => exact (parallel_push v).last
  | pushBuiltin name =>
    simp only [perform]
    split
    · exact (parallel_push _).last
    · exact parallel_throw_bind _ _ _
  | pushClosure entry =>
    refine parallel_get.bind fun m n hmn => ?_
    obtain ⟨img, sink, -, -, -⟩ := hmn
    exact (parallel_push _).last
  | pushData position ordinal count =>
    refine (parallel_popMany count).andThen fun fields => ?_
    exact (parallel_push _).last
  | pushDataItem index =>
    simp only [perform]
    refine parallel_pop.andThen fun v => ?_
    split
    · refine (parallel_lift _).andThen fun w => ?_
      exact (parallel_push w).last
    · exact parallel_throw_bind _ _ _
  | pushTuple count =>
    refine (parallel_popMany count).andThen fun items => ?_
    exact (parallel_push _).last
  | pushTupleItem index =>
    simp only [perform]
    refine parallel_pop.andThen fun v => ?_
    split
    · refine (parallel_lift _).andThen fun w => ?_
      exact (parallel_push w).last
    · exact parallel_throw_bind _ _ _
  | pushVar depth offset =>
    simp only [perform]
    split
    · exact parallel_throw_bind _ _ _
    · refine parallel_get.bind fun m n hmn => ?_
      obtain ⟨img, sink, -, -, -⟩ := hmn
      refine (parallel_lift _).andThen fun frame => ?_
      refine (parallel_lift _).andThen fun v => ?_
      exact (parallel_push v).last
  | dup =>
    refine parallel_get.bind fun m n hmn => ?_
    obtain ⟨img, sink, -, -, -⟩ := hmn
    dsimp only
    split
    · exact parallel_throw_bind _ _ _
    · exact (parallel_push _).last
  | discard => exact parallel_pop.andThen fun _ => parallel_pure rfl
  | swap =>
    refine parallel_pop.andThen fun b => parallel_pop.andThen fun a => ?_
    exact (parallel_push b).andThen fun _ => (parallel_push a).last
  | arith op =>
    refine parallel_popInt.andThen fun b => parallel_popInt.andThen fun a => ?_
    refine (parallel_lift _).andThen fun c => ?_
    exact (parallel_push _).last
  | eq =>
    refine parallel_popInt.andThen fun b => parallel_popInt.andThen fun a => ?_
    exact (parallel_push _).last
  | jump position => exact (parallel_jump position).last
  | jumpIf sense position =>
    simp only [perform]
    refine parallel_popBool.andThen fun b => ?_
    split
    · exact (parallel_jump position).last
    · exact parallel_pure rfl
  | jumpTable entries =>
    simp only [perform]
    refine parallel_pop.andThen fun v => ?_
    split
    · refine (parallel_lift _).andThen fun position => ?_
      exact (parallel_jump position).last
    · exact parallel_throw_bind _ _ _
  | call =>
    refine parallel_pop.andThen fun argument => parallel_pop.andThen fun callee => ?_
    exact (parallel_call callee argument).last
  | enter size =>
    simp only [perform]
    split
    · exact parallel_throw_bind _ _ _
    · refine parallel_get.bind fun m n hmn => ?_
      obtain ⟨img, sink, -, -, -⟩ := hmn
      refine (parallel_lift _).andThen fun frames => ?_
      exact (parallel_change fun _ _ _ => rfl).last
  | ret => exact parallel_ret
  | store offset =>
    refine parallel_pop.andThen fun v => parallel_get.bind fun m n hmn => ?_
    obtain ⟨img, sink, -, -, -⟩ := hmn
    refine (parallel_lift _).andThen fun frames => ?_
    exact (parallel_change fun _ _ _ => rfl).last

end Machine

end StackCode
