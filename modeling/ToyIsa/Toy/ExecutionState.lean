import Mathlib.Algebra.Group.Nat.Defs
import Mathlib.Tactic.Common

/-!
# Words, execution status and failures

Port of `toy_constants.hpp`, `execution_state.hpp` and `cpu_state.hpp`. A call that does not return
normally ends in a `Failure`: a `SimulationException`, a `std::runtime_error`, or undefined
behaviour. Only the first two are C++ exceptions.
-/

namespace ToyIsa

abbrev Word := BitVec 32
abbrev Byte := BitVec 8

namespace TI32

def elfMachine : BitVec 16 := 0x6767
def wordSize : Nat := 4
def wordBitCount : Nat := 32
def instructionSize : Word := 4
def registerCount : Nat := 32

end TI32

inductive ExecutionStatus where
  | running
  | halted
  | faulted
  deriving DecidableEq, Repr

structure TIExecutionState where
  status : ExecutionStatus := .running
  exitCode : Word := 0
  deriving DecidableEq, Repr

namespace TIExecutionState

def reset (_ : TIExecutionState) : TIExecutionState := { status := .running, exitCode := 0 }

def halt (_ : TIExecutionState) (code : Word) : TIExecutionState :=
  { status := .halted, exitCode := code }

def fault (s : TIExecutionState) : TIExecutionState := { s with status := .faulted }

end TIExecutionState

inductive ErrorCode where
  | invalidInstruction
  | memoryOutOfBounds
  | misalignedAccess
  | unsupportedSyscall
  | incorrectBinaryFile
  deriving DecidableEq, Repr

/-- How a call ends that does not return. `undefined` is undefined behaviour, which no handler
catches. -/
inductive Failure where
  | simulation (code : ErrorCode) (message : String)
  | runtime (message : String)
  | undefined
  deriving DecidableEq, Repr

/-- A failing check as a step that leaves the state alone. -/
def check {σ α} : Except Failure α → EStateM Failure σ α
  | .ok a => fun s => .ok a s
  | .error e => fun s => .error e s

/-- A checked result. -/
@[simp] lemma check_ok {σ α} (a : α) (s : σ) : check (.ok a) s = .ok a s := rfl

/-- A checked error. -/
@[simp] lemma check_error {σ α} (e : Failure) (s : σ) :
    check (α := α) (.error e) s = .error e s := rfl

structure TICpuState where
  registers : Vector Word TI32.registerCount := Vector.replicate _ 0
  pc : Word := 0
  deriving DecidableEq, Repr

end ToyIsa
