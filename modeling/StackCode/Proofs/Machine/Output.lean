import StackCode.Proofs.Machine.History

/-!
# What actions write

A write offers its bytes to the sink until the sink has taken them all or takes no more
(`takes_iff`), so a text may as well be written in pieces (`write_append`).

An action has to do with the sink in one place only. Either it leaves the sink alone, or it writes
one text, and that is the last thing it does (`delivers_perform`). So whatever sink a machine has,
an action does the same up to the write.
-/

namespace StackCode

/-! ### Sinks -/

namespace Sink

/-- How many bytes a sink has taken. -/
def size (s : Sink) : Nat := s.written.size

/-- A sink that has taken more bytes. -/
def append (s : Sink) (bytes : List UInt8) : Sink := { s with written := s.written ++ bytes }

@[simp] theorem append_nil (s : Sink) : s.append [] = s := by simp [append]

@[simp] theorem append_append (s : Sink) (bytes more : List UInt8) :
    (s.append bytes).append more = s.append (bytes ++ more) := by
  have hwritten : s.written ++ bytes ++ more = s.written ++ (bytes ++ more) := by
    apply Array.toList_inj.mp
    simp
  simp only [append, hwritten]

@[simp] theorem toList_append (s : Sink) (bytes : List UInt8) :
    (s.append bytes).written.toList = s.written.toList ++ bytes :=
  Array.toList_appendList

@[simp] theorem size_append (s : Sink) (bytes : List UInt8) :
    (s.append bytes).size = s.size + bytes.length := by
  simp [size, ← Array.length_toList]

theorem write_eq (s : Sink) (bytes : List UInt8) :
    s.write bytes = (s.append (bytes.take (s.room bytes.length)),
      if s.room bytes.length < bytes.length then some fullReason else none) :=
  rfl

theorem room_of_limit {s : Sink} {limit : Nat} (h : s.capacity = some limit) (n : Nat) :
    s.room n = min n (limit - s.size) := by
  rw [room, h, size]

theorem room_of_no_limit {s : Sink} (h : s.capacity = none) (n : Nat) : s.room n = n := by
  rw [room, h]

theorem room_le (s : Sink) (n : Nat) : s.room n ≤ n := by
  cases h : s.capacity with
  | none => exact Nat.le_of_eq (room_of_no_limit h n)
  | some limit =>
    rw [room_of_limit h]
    exact Nat.min_le_left ..

/-- There is room for what there is room for. -/
theorem room_room (s : Sink) (n : Nat) : s.room (s.room n) = s.room n := by
  cases h : s.capacity with
  | none => exact room_of_no_limit h _
  | some limit =>
    simp only [room_of_limit h]
    omega

/-- A sink takes all of what it has room for. -/
theorem write_of_room {s : Sink} {bytes : List UInt8} (h : bytes.length ≤ s.room bytes.length) :
    s.write bytes = (s.append bytes, none) := by
  rw [write_eq, if_neg (Nat.not_lt_of_le h), List.take_of_length_le h]

/-- A sink without a limit takes everything. -/
theorem write_of_capacity_none {s : Sink} (h : s.capacity = none) (bytes : List UInt8) :
    s.write bytes = (s.append bytes, none) :=
  write_of_room (Nat.le_of_eq (room_of_no_limit h _).symm)

/-- A sink that takes everything that is written and can be flushed. -/
structure Unlimited (s : Sink) : Prop where
  capacity : s.capacity = none
  refusesFlush : s.refusesFlush = false

theorem Unlimited.flush {s : Sink} (h : s.Unlimited) : s.flush = none := by
  rw [Sink.flush, h.refusesFlush]
  rfl

theorem Unlimited.append {s : Sink} (h : s.Unlimited) (bytes : List UInt8) : (s.append bytes).Unlimited :=
  ⟨h.capacity, h.refusesFlush⟩

theorem Unlimited.write {s : Sink} (h : s.Unlimited) (bytes : List UInt8) :
    ∃ t, s.write bytes = (t, none) ∧ t.Unlimited :=
  ⟨s.append bytes, write_of_capacity_none h.capacity bytes, h.append bytes⟩

/-- A sink takes what stays within its limit. -/
theorem write_of_le {s : Sink} {limit : Nat} {bytes : List UInt8} (h : s.capacity = some limit)
    (hle : s.size + bytes.length ≤ limit) : s.write bytes = (s.append bytes, none) := by
  apply write_of_room
  rw [room_of_limit h]
  omega

/-- A sink fills up with what goes beyond its limit. -/
theorem write_of_lt {s : Sink} {limit : Nat} {bytes : List UInt8} (h : s.capacity = some limit)
    (hne : bytes ≠ []) (hlt : limit < s.size + bytes.length) :
    s.write bytes = (s.append (bytes.take (limit - s.size)), some fullReason) := by
  have hpos : 0 < bytes.length := List.length_pos_iff.mpr hne
  have hroom : s.room bytes.length = limit - s.size := by
    rw [room_of_limit h]
    omega
  rw [write_eq, hroom, if_pos (by omega)]

/-- Bytes may be written in pieces, up to the first piece that cannot be written. -/
theorem write_append (s : Sink) (bytes more : List UInt8) :
    s.write (bytes ++ more) =
      match s.write bytes with
      | (t, none) => t.write more
      | (t, some reason) => (t, some reason) := by
  cases hcapacity : s.capacity with
  | none =>
    have hafter : (s.append bytes).capacity = none := hcapacity
    simp only [write_of_capacity_none hcapacity, write_of_capacity_none hafter, append_append]
  | some limit =>
    have hafter : (s.append bytes).capacity = some limit := hcapacity
    have hlength : (bytes ++ more).length = bytes.length + more.length := List.length_append
    by_cases hle : s.size + bytes.length ≤ limit
    · simp only [write_of_le hcapacity hle]
      by_cases hall : s.size + (bytes ++ more).length ≤ limit
      · rw [write_of_le hcapacity hall, write_of_le hafter (by rw [size_append]; omega), append_append]
      · have hmore : more ≠ [] := by
          rintro rfl
          rw [List.append_nil] at hall
          exact hall hle
        -- the limit lies in the second piece
        have htake : (bytes ++ more).take (limit - s.size) =
            bytes ++ more.take (limit - (s.append bytes).size) := by
          rw [List.take_append, List.take_of_length_le (by omega), size_append, Nat.sub_sub]
        rw [write_of_lt hcapacity (List.append_ne_nil_of_right_ne_nil _ hmore) (by omega),
          write_of_lt hafter hmore (by rw [size_append]; omega), append_append, htake]
    · by_cases hnil : bytes = []
      · subst hnil
        have hempty : s.write [] = (s.append [], none) := write_of_room (Nat.zero_le _)
        rw [hempty, append_nil, List.nil_append]
      · rw [write_of_lt hcapacity hnil (by omega),
          write_of_lt hcapacity (List.append_ne_nil_of_left_ne_nil hnil _) (by omega),
          List.take_append_of_le_length (by omega)]

/-- Bytes are offered to a sink until nothing is left. Each time it takes what fits; if nothing
fits, the rest is given up. -/
inductive Takes : Sink → List UInt8 → Sink × Option String → Prop where
  /-- Nothing is left. -/
  | done {s : Sink} : Takes s [] (s, none)
  /-- Nothing fits. -/
  | full {s : Sink} {bytes : List UInt8} (left : bytes ≠ []) (room : s.room bytes.length = 0) :
    Takes s bytes (s, some fullReason)
  /-- It takes what fits and is offered the rest. -/
  | some {s : Sink} {bytes : List UInt8} {r : Sink × Option String} (room : 0 < s.room bytes.length)
    (rest : Takes (s.append (bytes.take (s.room bytes.length))) (bytes.drop (s.room bytes.length)) r) :
    Takes s bytes r

/-- Writing what fits and then the rest is writing all. -/
theorem write_rest (s : Sink) (bytes : List UInt8) :
    (s.append (bytes.take (s.room bytes.length))).write (bytes.drop (s.room bytes.length)) =
      s.write bytes := by
  have hlength : (bytes.take (s.room bytes.length)).length = s.room bytes.length := by
    rw [List.length_take, Nat.min_eq_left (s.room_le _)]
  have hfirst : s.write (bytes.take (s.room bytes.length)) =
      (s.append (bytes.take (s.room bytes.length)), none) := by
    apply write_of_room
    rw [hlength]
    exact Nat.le_of_eq (s.room_room _).symm
  conv_rhs => rw [← List.take_append_drop (s.room bytes.length) bytes, write_append, hfirst]

theorem Takes.eq_write {s : Sink} {bytes : List UInt8} {r : Sink × Option String}
    (h : Takes s bytes r) : r = s.write bytes := by
  induction h with
  | done => rw [write_of_room (Nat.zero_le _), append_nil]
  | full left room =>
    rw [write_eq, room, List.take_zero, append_nil, if_pos (List.length_pos_iff.mpr left)]
  | some _ _ ih => rw [ih, write_rest]

theorem takes_write (s : Sink) (bytes : List UInt8) : Takes s bytes (s.write bytes) := by
  induction hn : bytes.length using Nat.strongRecOn generalizing s bytes with
  | ind n ih =>
    subst hn
    rcases Nat.eq_zero_or_pos (s.room bytes.length) with hzero | hpos
    · by_cases hnil : bytes = []
      · subst hnil
        rw [write_of_room (Nat.zero_le _), append_nil]
        exact .done
      · have hfull := Takes.full hnil hzero
        rwa [hfull.eq_write] at hfull
    · rw [← write_rest]
      refine .some hpos (ih _ ?_ _ _ rfl)
      have hle := s.room_le bytes.length
      rw [List.length_drop]
      omega

/-- **A write is what becomes of bytes that are offered again and again.** -/
theorem takes_iff {s : Sink} {bytes : List UInt8} {r : Sink × Option String} :
    Takes s bytes r ↔ r = s.write bytes := by
  constructor
  · intro h
    exact h.eq_write
  · rintro rfl
    exact takes_write s bytes

end Sink

namespace Machine

variable {α β : Type}

/-! ### Acts that have nothing to do with the sink -/

/-- How an act ends, with another sink in the machine that is left. -/
def onto (s : Sink) : EStateM.Result Fault Machine α → EStateM.Result Fault Machine α
  | .ok a m => .ok a { m with sink := s }
  | .error fault m => .error fault { m with sink := s }

/-- The act does the same whatever the sink is, and leaves the sink alone. -/
def Silent (x : Act α) : Prop := ∀ m s, x.run { m with sink := s } = onto s (x.run m)

theorem silent_pure (a : α) : Silent (pure a) := fun _ _ => rfl

theorem silent_throw (fault : Fault) : Silent (throw fault : Act α) := fun _ _ => rfl

theorem silent_throw_bind (fault : Fault) (f : α → Act β) : Silent (throw fault >>= f) :=
  fun _ _ => rfl

theorem silent_lift (x : Except Fault α) : Silent (lift x) := by
  cases x with
  | ok a => exact silent_pure a
  | error fault => exact silent_throw fault

theorem silent_modify {f : Machine → Machine}
    (h : ∀ m s, f { m with sink := s } = { f m with sink := s }) : Silent (modify f : Act PUnit) :=
  fun m s => congrArg (EStateM.Result.ok PUnit.unit) (h m s)

theorem Silent.bind {x : Act α} {f : α → Act β} (hx : Silent x) (hf : ∀ a, Silent (f a)) :
    Silent (x >>= f) := by
  intro m s
  rw [EStateM.run_bind, EStateM.run_bind, hx]
  cases x.run m with
  | ok a m₁ => exact hf a m₁ s
  | error fault m₁ => rfl

/-- An act that looks at the machine. -/
theorem silent_get_bind {f : Machine → Act α}
    (h : ∀ m s, (f { m with sink := s }).run { m with sink := s } = onto s ((f m).run m)) :
    Silent (get >>= f) := h

theorem silent_push (v : Value) : Silent (push v) := silent_modify fun _ _ => rfl

theorem silent_jump (position : Int32) : Silent (jump position) := silent_modify fun _ _ => rfl

theorem silent_pop : Silent pop := by
  rintro ⟨img, ip, stack, frames, current, sink⟩ s
  cases stack <;> rfl

theorem silent_popMany (count : Int32) : Silent (popMany count) := by
  refine silent_get_bind fun m s => ?_
  cases Word.toNat? count with
  | none => rfl
  | some n =>
    dsimp only
    split <;> rfl

theorem silent_popInt : Silent popInt := silent_pop.bind fun v => silent_lift v.asInt

theorem silent_popBool : Silent popBool := silent_pop.bind fun v => silent_lift v.asBool

/-- An act whose end is silent. -/
theorem Silent.last {x : Act Unit} (h : Silent x) : Silent (x >>= fun _ => pure (none : Option α)) :=
  h.bind fun _ => silent_pure none

end Machine

/-- Whether an action may print. -/
def Action.mayPrint : Action → Bool
  | call | ret => true
  | _ => false

namespace Machine

/-- Only calls and returns can have to do with the sink. -/
theorem silent_perform {a : Action} (h : a.mayPrint = false) : Silent (perform a) := by
  cases a with
  | push v => exact (silent_push v).last
  | pushBuiltin name =>
    simp only [perform]
    split
    · exact (silent_push _).last
    · exact silent_throw_bind _ _
  | pushClosure entry =>
    refine silent_get_bind fun m s => ?_
    exact (silent_push (.closure (target entry) m.current)).last m s
  | pushData position ordinal count =>
    exact (silent_popMany count).bind fun fields => (silent_push _).last
  | pushDataItem index =>
    simp only [perform]
    refine silent_pop.bind fun v => ?_
    split
    · exact (silent_lift _).bind fun w => (silent_push w).last
    · exact silent_throw_bind _ _
  | pushTuple count => exact (silent_popMany count).bind fun items => (silent_push _).last
  | pushTupleItem index =>
    simp only [perform]
    refine silent_pop.bind fun v => ?_
    split
    · exact (silent_lift _).bind fun w => (silent_push w).last
    · exact silent_throw_bind _ _
  | pushVar depth offset =>
    simp only [perform]
    split
    · exact silent_throw_bind _ _
    · refine silent_get_bind fun m s => ?_
      dsimp only
      exact ((silent_lift _).bind fun frame => (silent_lift _).bind fun v => (silent_push v).last) m s
  | dup =>
    refine silent_get_bind fun m s => ?_
    dsimp only
    split
    · exact silent_throw_bind _ _ m s
    · exact (silent_push _).last m s
  | discard => exact silent_pop.bind fun _ => silent_pure none
  | swap =>
    refine silent_pop.bind fun b => silent_pop.bind fun a => ?_
    exact (silent_push b).bind fun _ => (silent_push a).last
  | arith op =>
    refine silent_popInt.bind fun b => silent_popInt.bind fun a => ?_
    exact (silent_lift _).bind fun c => (silent_push _).last
  | eq =>
    refine silent_popInt.bind fun b => silent_popInt.bind fun a => ?_
    exact (silent_push _).last
  | jump position => exact (silent_jump position).last
  | jumpIf sense position =>
    simp only [perform]
    refine silent_popBool.bind fun b => ?_
    split
    · exact (silent_jump position).last
    · exact silent_pure none
  | jumpTable entries =>
    simp only [perform]
    refine silent_pop.bind fun v => ?_
    split
    · exact (silent_lift _).bind fun position => (silent_jump position).last
    · exact silent_throw_bind _ _
  | call => cases h
  | enter size =>
    simp only [perform]
    split
    · exact silent_throw_bind _ _
    · refine silent_get_bind fun m s => ?_
      exact ((silent_lift _).bind fun frames => (silent_modify fun _ _ => rfl).last) m s
  | ret => cases h
  | store offset =>
    refine silent_pop.bind fun v => silent_get_bind fun m s => ?_
    dsimp only
    refine ((silent_lift _).bind fun i => Silent.last ?_) m s
    exact silent_modify fun _ _ => rfl

/-! ### Acts that print -/

/-- What an act has to do with the sink of a machine. -/
inductive Delivers (x : Act α) (m : Machine) : Prop where
  /-- Nothing. -/
  | silent (run : ∀ s, x.run { m with sink := s } = onto s (x.run m))
  /-- It comes to a machine on which it writes a text, and it does nothing else then. -/
  | prints (text : String) (a : α) (m' : Machine)
    (run : ∀ s, x.run { m with sink := s } = (write text >>= fun _ => pure a).run { m' with sink := s })

/-- After acts that have nothing to do with the sink. -/
theorem Silent.delivers_bind {x : Act α} {f : α → Act β} {m : Machine} (hx : Silent x)
    (hf : ∀ a m', x.run m = .ok a m' → Delivers (f a) m') : Delivers (x >>= f) m := by
  cases hrun : x.run m with
  | error fault m' =>
    refine .silent fun s => ?_
    rw [EStateM.run_bind, EStateM.run_bind, hx, hrun]
    rfl
  | ok a m' =>
    have hbind : ∀ s, (x >>= f).run { m with sink := s } = (f a).run { m' with sink := s } := by
      intro s
      rw [EStateM.run_bind, hx, hrun]
      rfl
    cases hf a m' hrun with
    | silent h =>
      refine .silent fun s => ?_
      rw [hbind, h, EStateM.run_bind, hrun]
    | prints text b m₁ h => exact .prints text b m₁ fun s => (hbind s).trans (h s)

/-- The act ends with the result of another one in place of its own. -/
theorem Delivers.last {x : Act Unit} {m : Machine} (h : Delivers x m) (b : β) :
    Delivers (x >>= fun _ => pure b) m := by
  cases h with
  | silent h =>
    refine .silent fun s => ?_
    rw [EStateM.run_bind, EStateM.run_bind, h]
    cases x.run m <;> rfl
  | prints text a m' h =>
    refine .prints text b m' fun s => ?_
    rw [EStateM.run_bind, h, ← EStateM.run_bind, bind_assoc]
    rfl

theorem Silent.delivers {x : Act α} (h : Silent x) (m : Machine) : Delivers x m := .silent (h m)

/-- An act that looks at the machine, and not at its sink. -/
theorem delivers_get_bind {f : Machine → Act α} {m : Machine} (h : Delivers (f m) m)
    (hsink : ∀ s, f { m with sink := s } = f m) : Delivers (get >>= f) m := by
  have hget : ∀ s, (get >>= f).run { m with sink := s } = (f m).run { m with sink := s } := by
    intro s
    rw [← hsink s]
    rfl
  cases h with
  | silent h => exact .silent fun s => (hget s).trans (h s)
  | prints text a m' h => exact .prints text a m' fun s => (hget s).trans (h s)

theorem delivers_write (text : String) (m : Machine) : Delivers (write text) m :=
  .prints text () m fun _ => by rw [bind_pure_unit]

theorem delivers_applyBuiltin (b : Builtin) (args : List Value) (m : Machine) :
    Delivers (applyBuiltin b args) m := by
  unfold applyBuiltin
  split
  · exact (silent_push _).delivers m
  · refine delivers_get_bind ((silent_lift _).delivers_bind fun reply m' _ => ?_) fun _ => rfl
    cases reply with
    | value v => exact (silent_push v).delivers m'
    | output text => exact delivers_write text m'

theorem delivers_call (callee argument : Value) (m : Machine) : Delivers (call callee argument) m := by
  unfold call
  split
  · exact (silent_modify fun _ _ => rfl).delivers m
  · exact delivers_applyBuiltin _ _ m
  · exact delivers_applyBuiltin _ _ m
  · exact (silent_throw _).delivers m

theorem delivers_ret (m : Machine) : Delivers ret m := by
  cases hreturn : (m.frames.get m.current).returnPoint with
  | some r =>
    refine .silent fun s => ?_
    simp only [ret, EStateM.run_bind, EStateM.run_get, hreturn]
    rfl
  | none =>
    refine delivers_get_bind ?_ fun s => by simp only [hreturn]
    rw [hreturn]
    refine silent_pop.delivers_bind fun v m' _ => ?_
    split
    · exact (silent_pure _).delivers m'
    · refine delivers_get_bind ((silent_lift _).delivers_bind fun text m₁ _ => ?_) fun _ => rfl
      exact (delivers_write _ m₁).last _

/-- **An action leaves the sink alone, or writes one text and does nothing else then.** -/
theorem delivers_perform (a : Action) (m : Machine) : Delivers (perform a) m := by
  cases h : a.mayPrint with
  | false => exact (silent_perform h).delivers m
  | true =>
    cases a with
    | call =>
      refine silent_pop.delivers_bind fun argument m₁ _ => ?_
      refine silent_pop.delivers_bind fun callee m₂ _ => ?_
      exact (delivers_call callee argument m₂).last none
    | ret => exact delivers_ret m
    | _ => cases h

/-! ### What a step writes -/

/-- The machine that is left, however an act ends. -/
def leftBy : EStateM.Result Fault Machine α → Machine
  | .ok _ m => m
  | .error _ m => m

theorem run_print (text : String) (a : α) (m : Machine) :
    (write text >>= fun _ => pure a).run m =
      match m.sink.write (Text.Utf8.encode text) with
      | (s, none) => .ok a { m with sink := s }
      | (s, some reason) => .error (.output reason) { m with sink := s } := by
  rw [write, EStateM.run_bind, EStateM.run_bind, EStateM.run_modifyGet]
  simp only
  generalize m.sink.write (Text.Utf8.encode text) = written
  rcases written with ⟨s, _ | reason⟩ <;> rfl

/-- What becomes of a machine, by how its instruction ends. -/
def conclude (ip : Nat) (mnemonic : String) : EStateM.Result Fault Machine (Option Value) → Progress
  | .ok none m => .running m
  | .ok (some v) m =>
    match m.sink.flush with
    | none => .returned v m
    | some reason => .failed (m.failure ip Opcode.ret.mnemonic (.output reason)) m
  | .error fault m => .failed (m.failure ip mnemonic fault) m

theorem step_eq_conclude {m : Machine} {i : Instruction} {n : Nat} (hfetch : m.fetch = .ok (i, n)) :
    m.step = conclude m.ip i.opcode.mnemonic (m.dispatch i n) := by
  rw [step, hfetch]
  rfl

theorem machine_conclude (ip : Nat) (mnemonic : String)
    (r : EStateM.Result Fault Machine (Option Value)) : (conclude ip mnemonic r).machine = leftBy r := by
  rcases r with ⟨_ | v, m⟩ | ⟨fault, m⟩
  · rfl
  · simp only [conclude]
    split <;> rfl
  · rfl

theorem Delivers.exists_append {x : Act α} {m : Machine} (h : Delivers x m) :
    ∃ bytes, (leftBy (x.run m)).sink = m.sink.append bytes := by
  cases h with
  | silent h =>
    refine ⟨[], ?_⟩
    rw [Sink.append_nil, show x.run m = onto m.sink (x.run m) from h m.sink]
    cases x.run m <;> rfl
  | prints text a m' h =>
    refine ⟨(Text.Utf8.encode text).take (m.sink.room (Text.Utf8.encode text).length), ?_⟩
    rw [show x.run m = _ from h m.sink, run_print, Sink.write_eq]
    split_ifs <;> rfl

/-- **What has been written stays written.** -/
theorem exists_append_next (m : Machine) : ∃ bytes, m.next.sink = m.sink.append bytes := by
  cases hfetch : m.fetch with
  | error stuck =>
    refine ⟨[], ?_⟩
    rw [next, step, hfetch, Sink.append_nil]
    rfl
  | ok found =>
    obtain ⟨i, n⟩ := found
    obtain ⟨-, -, a, ha, -⟩ := exists_action_of_fetch hfetch
    rw [next, step_eq_conclude hfetch, machine_conclude, dispatch_eq ha]
    exact (delivers_perform a { m with ip := m.ip + n }).exists_append

end Machine

end StackCode
