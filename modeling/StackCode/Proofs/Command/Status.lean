import StackCode.Command.Session
import StackCode.Proofs.Command.Arguments
import StackCode.Proofs.Result

/-!
# The exit status of a run

`run` and `exec` differ in how they get an image from their file (`program?`) and agree in what they
do with it (`carryOut_of_program`). The exit status is read off the end of the run: zero if the
program has returned, and what the operating system makes of the exit code of the fault if it has
failed. The system keeps the code modulo 256. So every fault can be told from a return by the status,
apart from one: a program that stops itself with a code that 256 divides.
-/

namespace StackCode.Command

/-! ### Commands that run a program -/

section FileSystem

variable {σ : Type} [FileSystem σ] {s s' : σ}

/-- The image that a command runs, or what is wrong with its file. Nothing if it runs none. -/
def program? (s : σ) : Command → Option (Except String Image)
  | .run file _ => some (loadFile file (FileSystem.read s file))
  | .exec file _ => some ((assembleFile file (FileSystem.find s file)).map Prod.fst)
  | _ => none

/-- Run the image that was found, or report what is wrong. -/
def runOrReport (fuel : Nat) (env : Environment) (debug : Bool) (log : List LogEvent) :
    Except String Image → Option Outcome
  | .ok img => runImage fuel env debug log img
  | .error message => some { stderr := logText (env.shown debug) log ++ (message ++ "\n"), exit := 1 }

variable {c : Command} {fuel : Nat} {env : Environment}

/-- What is logged about a binary file is not from a machine. -/
theorem ne_reported_of_mem_loadedEvents {file : String} {content : Except FileError (Array UInt8)} {e : LogEvent}
    (he : e ∈ loadedEvents file content) (event : Event) : e ≠ .reported event := by
  cases content with
  | error => cases he
  | ok bytes =>
    cases List.mem_singleton.mp he
    intro h
    cases h

/-- **What a command does that runs a program**: it runs its image, or says what is wrong with its
file, and leaves the files as they are. What is logged in front is not from a machine. -/
theorem carryOut_of_program {found : Except String Image} (h : c.program? s = some found) (fuel : Nat)
    (env : Environment) :
    ∃ log, (∀ e ∈ log, ∀ event, e ≠ .reported event) ∧
      carryOut fuel env s c = (runOrReport fuel env c.debug log found).map (·, s) := by
  cases c with
  | run file debug =>
    cases h
    refine ⟨loadedEvents file (FileSystem.read s file), fun e he => ne_reported_of_mem_loadedEvents he, ?_⟩
    rw [carryOut, file?, Option.getD_some, plan, FileSystem.find]
    dsimp only
    cases loadFile file (FileSystem.read s file) <;> rfl
  | exec file debug =>
    cases h
    rw [carryOut, file?, Option.getD_some, plan]
    cases assembleFile file (FileSystem.find s file) with
    | ok found =>
      refine ⟨[assembledEvent found.1 found.2], List.forall_mem_singleton.mpr ?_, rfl⟩
      intro event h
      cases h
    | error message => exact ⟨[], List.forall_mem_nil _, rfl⟩
  | version | help | assemble | list => cases h

/-- Nothing is logged but what a machine reports, unless a command asks for more. -/
def Environment.LogsRunsOnly (env : Environment) : Prop :=
  ∀ shows, env.filter = some shows → ∀ e, shows e = true → ∃ event, e = .reported event

/-- So it is without a filter. -/
theorem logsRunsOnly_default : ({} : Environment).LogsRunsOnly := nofun

theorem logText_append {shown : Option (LogEvent → Bool)} {log : List LogEvent}
    (h : ∀ shows, shown = some shows → ∀ e ∈ log, shows e = false) (events : List LogEvent) :
    logText shown (log ++ events) = logText shown events := by
  cases shown with
  | none => rfl
  | some shows =>
    have hnone : log.filter shows = [] :=
      List.filter_eq_nil_iff.mpr fun e he => Bool.eq_false_iff.mp (h shows rfl e he)
    rw [logText, logText, List.filter_append, hnone, List.nil_append]

/-- Where only runs are logged, it does not matter where the program is from. -/
theorem runOrReport_of_logsRunsOnly (henv : env.LogsRunsOnly) {log : List LogEvent}
    (hlog : ∀ e ∈ log, ∀ event, e ≠ .reported event) (found : Except String Image) :
    runOrReport fuel env false log found = runOrReport fuel env false [] found := by
  have hshown : ∀ shows, env.shown false = some shows → ∀ e ∈ log, shows e = false := by
    intro shows hshows e he
    rw [Environment.shown, if_neg Bool.false_ne_true, Option.or_none] at hshows
    refine Bool.eq_false_iff.mpr fun htrue => ?_
    obtain ⟨event, hevent⟩ := henv shows hshows e htrue
    exact hlog e he event hevent
  cases found with
  | error message =>
    have hnil := logText_append hshown []
    rw [List.append_nil] at hnil
    rw [runOrReport, runOrReport, hnil]
  | ok img => simp only [runOrReport, runImage, logText_append hshown, List.nil_append]

/-- What a command line does that runs a program and does not ask for a log. -/
theorem carryOutArguments_of_program {args : List String} (hc : ofArguments? args = some c)
    (hquiet : c.debug = false) (henv : env.LogsRunsOnly) {found : Except String Image}
    (h : c.program? s = some found) (fuel : Nat) :
    carryOutArguments fuel s args env = (runOrReport fuel env false [] found).map (·, s) := by
  obtain ⟨log, hlog, hcarry⟩ := carryOut_of_program h fuel env
  rw [hquiet, runOrReport_of_logsRunsOnly henv hlog] at hcarry
  rw [carryOutArguments, hc]
  exact hcarry

/-- The exit status of a run that is over. -/
theorem exit_of_runImage {debug : Bool} {log : List LogEvent} {img : Image} {outcome : Outcome}
    (h : runImage fuel env debug log img = some outcome) :
    (∃ v m, Machine.run fuel { image := img, sink := env.stdout } = .returned v m ∧ outcome.exit = 0) ∨
      ∃ f m, Machine.run fuel { image := img, sink := env.stdout } = .failed f m ∧
        outcome.exit = exitStatus f.exitCode := by
  obtain ⟨⟨message, exit⟩, hending, rfl⟩ := Option.map_eq_some_iff.mp h
  cases hrun : Machine.run fuel { image := img, sink := env.stdout } with
  | running m =>
    rw [hrun] at hending
    cases hending
  | returned v m =>
    rw [hrun] at hending
    cases hending
    exact .inl ⟨v, m, rfl, rfl⟩
  | failed f m =>
    rw [hrun] at hending
    cases hending
    exact .inr ⟨f, m, rfl, rfl⟩

/-! ### The status -/

theorem exitStatus_eq_zero_iff {code : Int32} : exitStatus code = 0 ↔ 256 ∣ code.toInt := by
  unfold exitStatus
  omega

/-- The faults that the exit status does not tell from a return. -/
theorem exitStatus_fault_eq_zero_iff {fault : Fault} :
    exitStatus fault.exitCode = 0 ↔ ∃ message code, fault = .fatal message code ∧ 256 ∣ code.toInt := by
  constructor
  · intro h
    cases fault with
    | fatal message code => exact ⟨message, code, rfl, exitStatus_eq_zero_iff.mp h⟩
    | _ => cases h
  · rintro ⟨message, code, rfl, hcode⟩
    exact exitStatus_eq_zero_iff.mpr hcode

/-- How a command line ends that is to run a program, and its exit status. -/
inductive Ends (fuel : Nat) (s : σ) (env : Environment) (args : List String) : Nat → Prop where
  /-- It is not understood. -/
  | misunderstood : ofArguments? args = none → Ends fuel s env args 2
  /-- It asks for help. -/
  | helped {topic : Option String} : ofArguments? args = some (.help topic) → Ends fuel s env args 0
  /-- The file cannot be loaded or assembled. -/
  | refused {c : Command} {message : String} : ofArguments? args = some c →
    c.program? s = some (.error message) → Ends fuel s env args 1
  /-- The program returns. -/
  | returned {c : Command} {img : Image} {v : Value} {m : Machine} : ofArguments? args = some c →
    c.program? s = some (.ok img) →
      Machine.run fuel { image := img, sink := env.stdout } = .returned v m → Ends fuel s env args 0
  /-- The program fails. -/
  | failed {c : Command} {img : Image} {f : Failure} {m : Machine} : ofArguments? args = some c →
    c.program? s = some (.ok img) →
      Machine.run fuel { image := img, sink := env.stdout } = .failed f m →
        Ends fuel s env args (exitStatus f.exitCode)

/-- The exit status says how the command line ended. -/
theorem ends_of_carryOutArguments {name : String} (hname : name = "run" ∨ name = "exec")
    {args : List String} {outcome : Outcome}
    (h : carryOutArguments fuel s (name :: args) env = some (outcome, s')) :
    Ends fuel s env (name :: args) outcome.exit := by
  unfold carryOutArguments at h
  split at h
  · next c hc =>
    obtain rfl | hruns := ofArguments?_runs hname hc
    · cases h
      exact .helped hc
    · obtain ⟨found, hfound⟩ : ∃ found, c.program? s = some found := by
        obtain ⟨file, debug, rfl | rfl⟩ := hruns
        · exact ⟨_, rfl⟩
        · exact ⟨_, rfl⟩
      obtain ⟨log, -, hcarry⟩ := carryOut_of_program hfound fuel env
      rw [hcarry] at h
      cases found with
      | error message =>
        cases h
        exact .refused hc hfound
      | ok img =>
        obtain ⟨ended, hended, houtcome⟩ := Option.map_eq_some_iff.mp h
        cases houtcome
        obtain ⟨v, m, hrun, hexit⟩ | ⟨f, m, hrun, hexit⟩ := exit_of_runImage hended
        · rw [hexit]
          exact .returned hc hfound hrun
        · rw [hexit]
          exact .failed hc hfound hrun
  · next hc =>
    cases h
    exact .misunderstood hc

/-- **Which runs are reported as a success**: those that return a value, and those that stop
themselves with a code that 256 divides. That is so in every file system, and whatever standard output
takes or the log shows. Every command line that is over ends in one of five ways, and its exit status is
that of the way; if it is 0 and there was no such run, help was asked for. -/
theorem exit_zero_iff_returned_or_fatal (s : σ) (env : Environment) {name : String}
    (hname : name = "run" ∨ name = "exec") (args : List String) {outcome : Outcome}
    (h : carryOutArguments fuel s (name :: args) env = some (outcome, s')) :
    Ends fuel s env (name :: args) outcome.exit ∧
    (outcome.exit = 0 ↔
      (∃ topic, ofArguments? (name :: args) = some (.help topic)) ∨
      ∃ c img, ofArguments? (name :: args) = some c ∧ c.program? s = some (.ok img) ∧
        ((∃ v m, Machine.run fuel { image := img, sink := env.stdout } = .returned v m) ∨
          ∃ f m message code, Machine.run fuel { image := img, sink := env.stdout } = .failed f m ∧
            f.fault = .fatal message code ∧ 256 ∣ code.toInt)) := by
  have hends := ends_of_carryOutArguments hname h
  refine ⟨hends, ?_, ?_⟩
  · intro hzero
    generalize outcome.exit = status at hends hzero
    cases hends with
    | misunderstood => cases hzero
    | helped hc => exact .inl ⟨_, hc⟩
    | refused => cases hzero
    | returned hc hfound hrun => exact .inr ⟨_, _, hc, hfound, .inl ⟨_, _, hrun⟩⟩
    | failed hc hfound hrun =>
      obtain ⟨message, code, hfault, hcode⟩ := exitStatus_fault_eq_zero_iff.mp hzero
      exact .inr ⟨_, _, hc, hfound, .inr ⟨_, _, message, code, hrun, hfault, hcode⟩⟩
  · generalize outcome.exit = status at hends
    rintro (⟨topic, hc⟩ | ⟨c, img, hc, hfound, hrun⟩)
    · cases hends with
      | helped | returned => rfl
      | misunderstood hc' => cases hc.symm.trans hc'
      | refused hc' hfound =>
        cases hc.symm.trans hc'
        cases hfound
      | failed hc' hfound =>
        cases hc.symm.trans hc'
        cases hfound
    · cases hends with
      | helped | returned => rfl
      | misunderstood hc' => cases hc.symm.trans hc'
      | refused hc' hfound' =>
        cases hc.symm.trans hc'
        cases hfound.symm.trans hfound'
      | failed hc' hfound' hfailed =>
        cases hc.symm.trans hc'
        cases hfound.symm.trans hfound'
        obtain ⟨v, m, hreturned⟩ | ⟨f, m, message, code, hrun, hfault, hcode⟩ := hrun
        · cases hreturned.symm.trans hfailed
        · cases hrun.symm.trans hfailed
          exact exitStatus_fault_eq_zero_iff.mpr ⟨message, code, hfault, hcode⟩

end FileSystem

/-- A program that stops itself with code -1 fails, and is reported as a failure. -/
theorem exit_zero_iff_returned_or_fatal_minus_one :
    let source :=
      "PUSH_BUILTIN $$builtin-fatal-error\nPUSH_STRING no\nSWAP_CALL\nPUSH_INT -1\nSWAP_CALL\n"
    let d := Disk.fresh.put ["tmp", "", "p.bci"] (.file source.toUTF8.data)
    let img : Image :=
      ⟨[38, 0, 0, 0, 0, 36, 36, 98, 117, 105, 108, 116, 105, 110, 45, 102, 97, 116, 97, 108, 45, 101,
        114, 114, 111, 114, 0, 6, 110, 111, 0, 24, 5, 255, 255, 255, 255, 24], 38⟩
    let message :=
      "runtime error at 37 (SWAP_CALL): fatal error: no (code -1)\n  state: [] :: <-, -, -, ->\n"
    carryOutArguments 5 d ["exec", "p.bci"] = some ({ stderr := message, exit := 255 }, d) ∧
      Ends 5 d {} ["exec", "p.bci"] 255 ∧ program? d (.exec "p.bci" false) = some (.ok img) ∧
      ∀ v m, Machine.run 5 { image := img } ≠ .returned v m := by
  intro source d img message
  have hc : ofArguments? ["exec", "p.bci"] = some (.exec "p.bci" false) := by decide +kernel
  have hfound : program? d (.exec "p.bci" false) = some (.ok img) := by decide +kernel
  have hcarry : carryOutArguments 5 d ["exec", "p.bci"] =
      some ({ stderr := message, exit := 255 }, d) := by
    have hran : runOrReport 5 {} false [] (.ok img) = some { stderr := message, exit := 255 } := by
      decide +kernel
    rw [carryOutArguments_of_program hc rfl logsRunsOnly_default hfound 5, hran]
    rfl
  obtain ⟨hends, hzero⟩ := exit_zero_iff_returned_or_fatal d {} (.inr rfl) ["p.bci"] hcarry
  refine ⟨hcarry, hends, hfound, fun v m hrun => ?_⟩
  cases hzero.mpr (.inr ⟨_, img, hc, hfound, .inl ⟨v, m, hrun⟩⟩)

/-- A program that stops itself with code 256 fails, and is reported as a success. -/
theorem fatal_256_exits_zero :
    let source :=
      "PUSH_BUILTIN $$builtin-fatal-error\nPUSH_STRING no\nSWAP_CALL\nPUSH_INT 256\nSWAP_CALL\n"
    let d := Disk.fresh.put ["tmp", "", "p.bci"] (.file source.toUTF8.data)
    let img : Image :=
      ⟨[38, 0, 0, 0, 0, 36, 36, 98, 117, 105, 108, 116, 105, 110, 45, 102, 97, 116, 97, 108, 45, 101,
        114, 114, 111, 114, 0, 6, 110, 111, 0, 24, 5, 0, 1, 0, 0, 24], 38⟩
    let message :=
      "runtime error at 37 (SWAP_CALL): fatal error: no (code 256)\n  state: [] :: <-, -, -, ->\n"
    carryOutArguments 5 d ["exec", "p.bci"] = some ({ stderr := message, exit := 0 }, d) ∧
      program? d (.exec "p.bci" false) = some (.ok img) ∧
      ∃ f m, Machine.run 5 { image := img } = .failed f m ∧ f.fault = .fatal "no" 256 := by
  intro source d img message
  have hc : ofArguments? ["exec", "p.bci"] = some (.exec "p.bci" false) := by decide +kernel
  have hfound : program? d (.exec "p.bci" false) = some (.ok img) := by decide +kernel
  have hran : runOrReport 5 {} false [] (.ok img) = some { stderr := message, exit := 0 } := by
    decide +kernel
  have hfault : (match Machine.run 5 { image := img } with
      | .failed f _ => some f.fault
      | _ => none) = some (.fatal "no" 256) := by decide +kernel
  refine ⟨?_, hfound, ?_⟩
  · rw [carryOutArguments_of_program hc rfl logsRunsOnly_default hfound 5, hran]
    rfl
  · split at hfault
    · next f m hrun => exact ⟨f, m, hrun, Option.some.inj hfault⟩
    · cases hfault

end StackCode.Command
