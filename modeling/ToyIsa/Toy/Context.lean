import ToyIsa.Toy.BlockCache

/-!
# The execution context

The data of `execution_context.hpp`, with the outside world of the process as a parameter: a
`Host` says how `read(2)`, `write(2)` and `std::cin` answer in a host state. The context also keeps
a history of the system calls performed, which the program does not read.
-/

namespace ToyIsa

inductive TIExecutionMode where
  | threaded
  | switch
  | jit
  deriving DecidableEq, Repr

/-- The process outside the interpreter, with states `σ`. -/
class Host (σ : Type) where
  /-- `read(STDIN_FILENO, buffer, count)`: the bytes delivered or `errno`. -/
  read : (count : Nat) → σ → Except Word (List Byte) × σ
  /-- `write(fd, buffer, size)`: the count written or `errno`. -/
  write : (fileDescriptor : Word) → List Byte → σ → Except Word Word × σ
  /-- `std::cin >> Value`: the number extracted, if the stream is good afterwards. -/
  extract : σ → Option Word × σ
  /-- `std::cin.eof()`. -/
  eof : σ → Bool
  read_length : ∀ count s bytes s', read count s = (.ok bytes, s') → bytes.length ≤ count

/-- A system call performed. -/
inductive SyscallEvent where
  | read (address : Word) (result : Except Word (List Byte))
  | write (fileDescriptor : Word) (bytes : List Byte) (result : Except Word Word)
  | readNumber (result : Option Word)
  | badDescriptor (number fileDescriptor : Word)
  | exit (code : Word)

structure ExecutionContext (σ : Type) where
  cpu : TICpuState := {}
  memory : TIMemory
  state : TIExecutionState := {}
  blockCache : TIBasicBlockCache := {}
  mode : TIExecutionMode := .threaded
  jitThreshold : Nat := 0
  jitOptimizationLevel : Byte := 0
  host : σ
  syscalls : List SyscallEvent := []

/-- Code that runs on a context and may fail. A failure keeps the changes made before it. -/
abbrev Exec (σ α : Type) := EStateM Failure (ExecutionContext σ) α

/-- How a call on a context ends. -/
abbrev Outcome (σ : Type) := EStateM.Result Failure (ExecutionContext σ) Unit

/-- The context that a call leaves. -/
def resultContext {σ α : Type} :
    EStateM.Result Failure (ExecutionContext σ) α → ExecutionContext σ
  | .ok _ c => c
  | .error _ c => c

abbrev Outcome.context {σ : Type} (o : Outcome σ) : ExecutionContext σ := resultContext o

namespace ExecutionContext

variable {σ : Type}

def flushInstructionCache : Exec σ Unit := fun c =>
  let (ranges, memory) := c.memory.takeDirtyCodeRanges
  .ok () { c with
    memory := memory
    blockCache := ranges.foldl (fun cache range => cache.invalidateRange range.address range.size)
      c.blockCache }

/-- Run a memory operation on the memory of the context. -/
def onMemory {α} (f : EStateM Failure TIMemory α) : Exec σ α := fun c =>
  match f c.memory with
  | .ok a m => .ok a { c with memory := m }
  | .error e m => .error e { c with memory := m }

/-- `Registers[Index]`, undefined behaviour past the end of the array. -/
def readRegister (index : Word) : Exec σ Word := fun c =>
  if h : index.toNat < TI32.registerCount then .ok c.cpu.registers[index.toNat] c
  else .error .undefined c

/-- `Registers[Index] = Value`, undefined behaviour past the end of the array. -/
def writeRegister (index value : Word) : Exec σ Unit := fun c =>
  if h : index.toNat < TI32.registerCount then
    .ok () { c with
      cpu := { c.cpu with registers := c.cpu.registers.set index.toNat value } }
  else .error .undefined c

def setPc (pc : Word) : Exec σ Unit := fun c => .ok () { c with cpu := { c.cpu with pc := pc } }

/-- `Cpu.PC += Offset`. -/
def addPc (offset : Word) : Exec σ Unit := fun c =>
  .ok () { c with cpu := { c.cpu with pc := c.cpu.pc + offset } }

def setState (f : TIExecutionState → TIExecutionState) : Exec σ Unit := fun c =>
  .ok () { c with state := f c.state }

/-- Perform a host operation. -/
def onHost {α} (f : σ → α × σ) : Exec σ α := fun c =>
  let (a, host) := f c.host
  .ok a { c with host := host }

/-- Add to the history of system calls. -/
def record (event : SyscallEvent) : Exec σ Unit := fun c =>
  .ok () { c with syscalls := c.syscalls ++ [event] }

end ExecutionContext

end ToyIsa
