import StackCode.Machine

/-!
# Steps and runs

A step reads the instruction at the instruction pointer and executes it. A run is as many
steps as there are until the program returns or fails, within a bound on their number;
reaching the bound is an answer of its own.
-/

namespace StackCode

/-- A fault, where it happened, and the machine at that moment. -/
structure Failure where
  /-- The offset of the instruction. -/
  ip : Nat
  /-- The mnemonic of the instruction, `?` if there is none. -/
  mnemonic : String
  /-- What went wrong. -/
  fault : Fault
  /-- The stack and the frames, as text. -/
  snapshot : String
  deriving DecidableEq

/-- The message of a failure. -/
def Failure.message (f : Failure) : String :=
  "runtime error at " ++ Text.Decimal.ofNat f.ip ++ " (" ++ f.mnemonic ++ "): " ++
    f.fault.message ++ "\n  state: " ++ f.snapshot

/-- The exit code of a program that fails. -/
def Failure.exitCode (f : Failure) : Int32 := f.fault.exitCode

/-- What becomes of a machine. -/
inductive Progress where
  /-- It can go on. -/
  | running (m : Machine)
  /-- The program has returned a value. -/
  | returned (v : Value) (m : Machine)
  /-- An instruction has failed. -/
  | failed (f : Failure) (m : Machine)
  deriving DecidableEq

namespace Machine

/-- The failure that a fault is, at an instruction. -/
def failure (m : Machine) (ip : Nat) (mnemonic : String) (fault : Fault) : Failure :=
  ⟨ip, mnemonic, fault, m.printer.snapshot m.stack.reverse m.current⟩

/-- The mnemonic of the opcode at an offset of an image. -/
def mnemonicAt (img : Image) (offset : Nat) : String :=
  match img.bytes[offset]?.bind Opcode.ofByte? with
  | some op => op.mnemonic
  | none => "?"

/-- Read the instruction at the instruction pointer: the instruction and its size, or the
mnemonic to report and the fault. -/
def fetch (m : Machine) : Except (String × Fault) (Instruction × Nat) :=
  if m.image.inCode m.ip then
    match Instruction.decode m.image.bytes m.ip with
    | .ok found => .ok found
    | .error (.unknownOpcode byte _) => .error ("?", .unknownOpcode byte)
    | .error e => .error (mnemonicAt m.image m.ip, .malformed e)
  else .error ("?", .ipOutOfBounds m.ip)

/-- Execute an instruction of a size at the instruction pointer. -/
def dispatch (m : Machine) (i : Instruction) (size : Nat) :
    EStateM.Result Fault Machine (Option Value) :=
  (execute i).run { m with ip := m.ip + size }

/-- Execute the instruction at the instruction pointer. When the program returns, the sink
is flushed. -/
def step (m : Machine) : Progress :=
  match m.fetch with
  | .error (mnemonic, fault) => .failed (m.failure m.ip mnemonic fault) m
  | .ok (i, size) =>
    let ip := m.ip
    match m.dispatch i size with
    | .ok none m => .running m
    | .ok (some v) m =>
      match m.sink.flush with
      | none => .returned v m
      | some reason => .failed (m.failure ip Opcode.ret.mnemonic (.output reason)) m
    | .error fault m => .failed (m.failure ip i.opcode.mnemonic fault) m

/-- Run for at most a number of steps. A machine still running has used them all. -/
def run : Nat → Machine → Progress
  | 0, m => .running m
  | fuel + 1, m =>
    match m.step with
    | .running m => run fuel m
    | done => done

end Machine

end StackCode
