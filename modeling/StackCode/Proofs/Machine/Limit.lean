import StackCode.Proofs.Machine.Output

/-!
# Output with a limit

A machine runs with a sink that takes everything, and beside it the same machine with a sink that
takes only so many bytes. As long as the first has written no more than these, both do the same.
The step in which it writes more fails on the second, because an action writes only once and does
nothing afterwards (`delivers_perform`); what has been written then is the beginning of what the
first has written (`limited_step`). So a limit cuts the output and does not change it.
-/

namespace StackCode

/-- The machine with a limit on its output. -/
def Machine.limited (m : Machine) (limit : Nat) : Machine :=
  { m with sink := { m.sink with capacity := some limit } }

/-- What becomes of a machine, with a limit on its output. -/
def Progress.limited (p : Progress) (limit : Nat) : Progress :=
  match p with
  | .running m => .running (m.limited limit)
  | .returned v m => .returned v (m.limited limit)
  | .failed f m => .failed f (m.limited limit)

namespace Machine

variable {α : Type} {m : Machine} {limit : Nat}

/-! ### Acts -/

/-- How an act ends without a limit on the output, and how it ends with one. -/
inductive Cut (limit : Nat) : EStateM.Result Fault Machine α → EStateM.Result Fault Machine α → Prop where
  /-- It succeeds on both. -/
  | ok {a : α} {m : Machine} (le : m.sink.size ≤ limit) : Cut limit (.ok a m) (.ok a (m.limited limit))
  /-- It fails on both. -/
  | error {fault : Fault} {m : Machine} (le : m.sink.size ≤ limit) :
    Cut limit (.error fault m) (.error fault (m.limited limit))
  /-- It writes too much. -/
  | full {a : α} {m n : Machine} (lt : limit < m.sink.size)
    (written : n.sink.written.toList = m.sink.written.toList.take limit) :
    Cut limit (.ok a m) (.error (.output Sink.fullReason) n)

/-- What does not fit into the limit is the end of the text. -/
theorem toList_append_eq_take {s : Sink} {bytes : List UInt8} (hle : s.size ≤ limit) :
    s.written.toList ++ bytes.take (limit - s.size) = (s.written.toList ++ bytes).take limit := by
  have hlength : s.written.toList.length = s.size := Array.length_toList
  have htake : s.written.toList.take limit = s.written.toList :=
    List.take_of_length_le (by rwa [hlength])
  rw [List.take_append, hlength, htake]

theorem Delivers.cut {x : Act α} (h : Delivers x m) (hm : m.sink.Unlimited) (hle : m.sink.size ≤ limit) :
    Cut limit (x.run m) (x.run (m.limited limit)) := by
  cases h with
  | silent h =>
    have hown : x.run m = onto m.sink (x.run m) := h m.sink
    have hlimited : x.run (m.limited limit) = onto (m.limited limit).sink (x.run m) := h _
    rw [hlimited, hown]
    cases x.run m with
    | ok a m' => exact .ok (m := { m' with sink := m.sink }) hle
    | error fault m' => exact .error (m := { m' with sink := m.sink }) hle
  | prints text a m' h =>
    have hown : x.run m = _ := h m.sink
    have hlimited : x.run (m.limited limit) = _ := h (m.limited limit).sink
    rw [hlimited, hown, run_print, run_print, Sink.write_of_capacity_none hm.capacity]
    have hcapacity : (m.limited limit).sink.capacity = some limit := rfl
    generalize Text.Utf8.encode text = bytes
    by_cases hfits : m.sink.size + bytes.length ≤ limit
    · rw [Sink.write_of_le hcapacity hfits]
      refine .ok (m := { m' with sink := m.sink.append bytes }) ?_
      rw [Sink.size_append]
      exact hfits
    · have hlt := Nat.lt_of_not_le hfits
      have hne : bytes ≠ [] := by
        rintro rfl
        exact hfits hle
      rw [Sink.write_of_lt hcapacity hne hlt]
      refine .full (by rwa [Sink.size_append]) ?_
      rw [Sink.toList_append, Sink.toList_append]
      exact toList_append_eq_take hle

/-! ### Steps -/

/-- The next instruction writes beyond a limit on the output. With the limit it fails, and what goes
beyond the limit is not written. -/
structure Overflows (m : Machine) (limit : Nat) (f : Failure) (n : Machine) : Prop where
  /-- No more than the limit allows has been written before the instruction, and more after it. -/
  before : m.sink.size ≤ limit
  beyond : limit < m.next.sink.size
  /-- With the limit the instruction fails, and the failure names it. -/
  step : (m.limited limit).step = .failed f n
  ip : f.ip = m.ip
  instruction : ∃ i size, m.fetch = .ok (i, size) ∧ f.mnemonic = i.opcode.mnemonic
  fault : f.fault = .output Sink.fullReason
  /-- The output is the beginning of what it is without the limit. -/
  written : n.sink.written.toList = m.next.sink.written.toList.take limit

theorem unlimited_next (hm : m.sink.Unlimited) : m.next.sink.Unlimited := by
  obtain ⟨bytes, hbytes⟩ := exists_append_next m
  exact hbytes ▸ hm.append bytes

/-- **With a limit a machine makes the same step**, or without it the step writes beyond the limit. -/
theorem limited_step (hm : m.sink.Unlimited) (hle : m.sink.size ≤ limit) :
    (m.next.sink.size ≤ limit ∧ (m.limited limit).step = m.step.limited limit) ∨
      ∃ f n, m.Overflows limit f n := by
  cases hfetch : m.fetch with
  | error stuck =>
    have hstep : m.step = .failed (m.failure m.ip stuck.1 stuck.2) m := by rw [step, hfetch]
    have hstep' : (m.limited limit).step =
        .failed ((m.limited limit).failure m.ip stuck.1 stuck.2) (m.limited limit) := by
      rw [step, show (m.limited limit).fetch = _ from hfetch]
      rfl
    refine .inl ⟨?_, ?_⟩
    · rw [next, hstep]
      exact hle
    · rw [hstep', hstep]
      rfl
  | ok found =>
    obtain ⟨i, size⟩ := found
    obtain ⟨-, -, a, ha, -⟩ := exists_action_of_fetch hfetch
    have hfetch' : (m.limited limit).fetch = .ok (i, size) := hfetch
    have hstep := step_eq_conclude hfetch
    have hstep' := step_eq_conclude hfetch'
    have hcut := (delivers_perform a { m with ip := m.ip + size }).cut hm hle
    have hnext : m.next = leftBy (m.dispatch i size) := by rw [next, hstep, machine_conclude]
    have hdispatch : (m.limited limit).dispatch i size =
        (perform a).run ({ m with ip := m.ip + size }.limited limit) := dispatch_eq ha
    rw [← dispatch_eq ha, ← hdispatch] at hcut
    generalize m.dispatch i size = r, (m.limited limit).dispatch i size = r' at hcut hstep hstep' hnext
    cases hcut with
    | @ok result m' le =>
      refine .inl ⟨hnext ▸ le, ?_⟩
      rw [hstep, hstep']
      cases result with
      | none => rfl
      | some v =>
        have hmachine : m.next = m' := hnext
        have hm' : m'.sink.Unlimited := hmachine ▸ unlimited_next hm
        have hflush : m'.sink.flush = none := hm'.flush
        have hflush' : (m'.limited limit).sink.flush = none := hm'.flush
        simp only [conclude, hflush, hflush']
        rfl
    | error le =>
      refine .inl ⟨hnext ▸ le, ?_⟩
      rw [hstep, hstep']
      rfl
    | full lt written =>
      refine .inr ⟨_, _, hle, hnext ▸ lt, hstep', rfl, ⟨i, size, hfetch, rfl⟩, rfl, hnext ▸ written⟩

/-! ### Runs -/

/-- **A run with a limit**: it is the same run, or it ends with the instruction that writes beyond
the limit. -/
theorem limited_run (hm : m.sink.Unlimited) (hle : m.sink.size ≤ limit) (fuel : Nat) :
    ((m.run fuel).machine.sink.size ≤ limit ∧ (m.limited limit).run fuel = (m.run fuel).limited limit) ∨
      ∃ k < fuel, ∃ m', m.run k = .running m' ∧ (m.limited limit).run k = .running (m'.limited limit) ∧
        ∃ f n, m'.Overflows limit f n := by
  induction fuel generalizing m with
  | zero => exact .inl ⟨hle, rfl⟩
  | succ fuel ih =>
    rcases limited_step hm hle with ⟨hnext, hstep⟩ | hover
    · cases hs : m.step with
      | running m₁ =>
        rw [hs] at hstep
        have hsink : m.next = m₁ := next_of_step hs
        have hunlimited := unlimited_next hm
        rw [hsink] at hnext hunlimited
        have hrun : ∀ j, m.run (j + 1) = m₁.run j := fun j => by rw [run, hs]
        have hrun' : ∀ j, (m.limited limit).run (j + 1) = (m₁.limited limit).run j := fun j => by
          rw [run, hstep]
          rfl
        rw [hrun, hrun']
        rcases ih hunlimited hnext with hsame | ⟨k, hk, m', hm', hlimited, hover⟩
        · exact .inl hsame
        · exact .inr ⟨k + 1, Nat.succ_lt_succ hk, m', (hrun k).trans hm', (hrun' k).trans hlimited, hover⟩
      | returned v m₁ | failed f m₁ =>
        have hsink : m.next = m₁ := by rw [next, hs]; rfl
        rw [hs] at hstep
        rw [hsink] at hnext
        refine .inl ⟨?_, ?_⟩
        · rw [run, hs]
          exact hnext
        · rw [run, hstep, run, hs]
          rfl
    · exact .inr ⟨0, Nat.succ_pos fuel, m, rfl, rfl, hover⟩

/-- What is written in the first step of a run stays at the beginning of its output. -/
theorem exists_append_run (m : Machine) (fuel : Nat) :
    ∃ bytes, (m.run (fuel + 1)).machine.sink = m.next.sink.append bytes := by
  have hafter : ∀ (m : Machine) k, ∃ bytes, (m.after k).sink = m.sink.append bytes := by
    intro m k
    induction k with
    | zero => exact ⟨[], m.sink.append_nil.symm⟩
    | succ k ih =>
      obtain ⟨bytes, hbytes⟩ := ih
      obtain ⟨more, hmore⟩ := exists_append_next (m.after k)
      exact ⟨bytes ++ more, by rw [after, hmore, hbytes, Sink.append_append]⟩
  rw [run]
  split
  · next m' hstep =>
    obtain ⟨k, -, hrun⟩ := exists_after_of_run m' fuel
    rw [hrun, next_of_step hstep]
    exact hafter m' k
  · exact ⟨[], (Sink.append_nil _).symm⟩

/-- **A limit cuts the output and does not change it.** Let a program be run with a sink that takes
everything, and with one that takes only so many bytes. As long as no more is written, the two runs
do the same, so they end with the same result or the same failure and have the same output. If more
is written, the second run ends with the instruction that does so, which fails to write, and its
output is the beginning of that of the first run. Here writing some bytes is offering them until
nothing is left or nothing fits, so writing them in pieces makes no difference. -/
theorem limit_cuts_output (img : Image) (limit : Nat) :
    let m : Machine := { image := img }
    let bounded : Machine := { image := img, sink := { capacity := some limit } }
    (∀ fuel, (m.run fuel).machine.sink.size ≤ limit → bounded.run fuel = (m.run fuel).limited limit) ∧
    (∀ fuel, limit < (m.run fuel).machine.sink.size →
      ∃ k < fuel, ∃ m' f n, m.run k = .running m' ∧ m'.Overflows limit f n ∧
        n.sink.written.toList = (m.run fuel).machine.sink.written.toList.take limit ∧
        ∀ more, bounded.run (k + 1 + more) = .failed f n) ∧
    (∀ s bytes r, Sink.Takes s bytes r ↔ r = s.write bytes) ∧
    ∀ (s : Sink) bytes more, s.write (bytes ++ more) =
      match s.write bytes with
      | (t, none) => t.write more
      | (t, some reason) => (t, some reason) := by
  intro m bounded
  have hm : m.sink.Unlimited := ⟨rfl, rfl⟩
  have hempty : m.sink.size ≤ limit := Nat.zero_le limit
  refine ⟨fun fuel hle => ?_, fun fuel hlt => ?_, fun s bytes r => Sink.takes_iff, Sink.write_append⟩
  · rcases limited_run hm hempty fuel with hsame | ⟨k, hk, m', hm', -, f, n, hover⟩
    · exact hsame.2
    · -- what the instruction writes beyond the limit is part of the output
      obtain ⟨d, rfl⟩ := Nat.exists_eq_add_of_lt hk
      obtain ⟨bytes, hbytes⟩ := exists_append_run m' d
      rw [Nat.add_assoc, run_add hm', hbytes, Sink.size_append] at hle
      have hbeyond := hover.beyond
      omega
  · rcases limited_run hm hempty fuel with hsame | ⟨k, hk, m', hm', hlimited, f, n, hover⟩
    · exact absurd hsame.1 (Nat.not_le_of_lt hlt)
    · refine ⟨k, hk, m', f, n, hm', hover, ?_, fun more => ?_⟩
      · obtain ⟨d, rfl⟩ := Nat.exists_eq_add_of_lt hk
        obtain ⟨bytes, hbytes⟩ := exists_append_run m' d
        rw [Nat.add_assoc, run_add hm', hbytes, Sink.toList_append, hover.written]
        exact (List.take_append_of_le_length (Nat.le_of_lt hover.beyond)).symm
      · have hfailed : (m'.limited limit).run (1 + more) = .failed f n := by
          rw [Nat.add_comm, run, hover.step]
        rw [Nat.add_assoc]
        exact (run_add hlimited _).trans hfailed

/-- The program returns a string. With its type and the line feed it takes 13 bytes, and of these the
line feed is cut. -/
theorem limit_cuts_output_line :
    let img : Image := ⟨[9, 0, 0, 0, 6, 97, 98, 0, 26], 9⟩
    let m : Machine := { image := img }
    (m.run 2).machine.sink.size = 13 ∧
      Machine.run 2 { image := img, sink := { capacity := some 13 } } = (m.run 2).limited 13 ∧
      ∃ f n, Machine.run 2 { image := img, sink := { capacity := some 12 } } = .failed f n ∧ f.ip = 8 ∧
        f.fault = .output "sink full" ∧ n.sink.written.toList = Text.Utf8.encode "\"ab\": String" := by
  intro img m
  have hsize : (m.run 2).machine.sink.size = 13 := by decide +kernel
  have hfirst : m.run 1 = .running ⟨img, 8, [.str [97, 98]], .initial, 0, {}⟩ := by decide +kernel
  obtain ⟨hfits, -⟩ := limit_cuts_output img 13
  obtain ⟨-, hcut, -⟩ := limit_cuts_output img 12
  obtain ⟨k, hk, m', f, n, hm', hover, hwritten, hfailed⟩ := hcut 2 (by rw [hsize]; decide)
  refine ⟨hsize, hfits 2 (Nat.le_of_eq hsize), f, n, ?_⟩
  obtain rfl | rfl : k = 0 ∨ k = 1 := by omega
  · -- nothing is written in the first step
    cases hm'
    exact absurd hover.beyond (by decide +kernel)
  · cases hm'.symm.trans hfirst
    refine ⟨hfailed 0, hover.ip, hover.fault, hwritten.trans ?_⟩
    decide +kernel

end Machine

end StackCode
