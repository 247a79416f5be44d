import ToyIsa.Toy.Executor

/-!
# The interpreting engines

Port of `switch_executor.cpp` and `threaded_executor.cpp`. The switch engine runs every instruction
of the block. The threaded engine follows the handlers stored in the instructions: those defined by
`DEFINE_THREADED_HANDLER` dispatch to the next instruction, the others return.
-/

namespace ToyIsa

variable {σ : Type} [Host σ]

def executeInstructionSwitch (instruction : TIInstruction) : Exec σ Unit :=
  match instruction.opCode with
  | .li => executeLi instruction
  | .add => executeAdd instruction
  | .addi => executeAddi instruction
  | .or => executeOr instruction
  | .ldReg => executeLdReg instruction
  | .st => executeSt instruction
  | .stp => executeStp instruction
  | .flush => executeFlush instruction
  | .beq => executeBeq instruction
  | .j => executeJ instruction
  | .clz => executeClz instruction
  | .ssat => executeSsat instruction
  | .rori => executeRori instruction
  | .bext => executeBext instruction
  | .syscall => executeSyscall instruction
  | .ldImm => executeLdImm instruction
  | .invalid => executeInvalid instruction

/-- The loop of `executeSwitchBlock`. -/
def executeInstructions : List TIInstruction → Exec σ Unit
  | [] => pure ()
  | instruction :: rest => do
    executeInstructionSwitch instruction
    executeInstructions rest

def executeSwitchBlock (block : TIBasicBlock) : Exec σ Unit :=
  executeInstructions block.instructions

/-- The `execute` function a threaded handler calls. -/
def TIThreadedHandler.execute (instruction : TIInstruction) : TIThreadedHandler → Exec σ Unit
  | .threadedLi => executeLi instruction
  | .threadedAdd => executeAdd instruction
  | .threadedAddi => executeAddi instruction
  | .threadedOr => executeOr instruction
  | .threadedLdReg => executeLdReg instruction
  | .threadedLdImm => executeLdImm instruction
  | .threadedSt => executeSt instruction
  | .threadedStp => executeStp instruction
  | .threadedClz => executeClz instruction
  | .threadedSsat => executeSsat instruction
  | .threadedRori => executeRori instruction
  | .threadedBext => executeBext instruction
  | .threadedFlush => executeFlush instruction
  | .threadedBeq => executeBeq instruction
  | .threadedJ => executeJ instruction
  | .threadedSyscall => executeSyscall instruction
  | .threadedInvalid => executeInvalid instruction

/-- Whether a threaded handler ends with `DISPATCH_NEXT`. -/
def TIThreadedHandler.dispatchesNext : TIThreadedHandler → Bool
  | .threadedFlush | .threadedBeq | .threadedJ | .threadedSyscall | .threadedInvalid => false
  | _ => true

/-- `Current->ThreadedHandler(Context, Current, End)` with the instructions from `Current` on. -/
def callThreadedHandler : List TIInstruction → Exec σ Unit
  | [] => throw .undefined
  | current :: rest =>
    match current.threadedHandler with
    | none => throw .undefined
    | some handler => do
      handler.execute current
      if handler.dispatchesNext && !rest.isEmpty then callThreadedHandler rest

def executeThreadedBlock (block : TIBasicBlock) : Exec σ Unit :=
  callThreadedHandler block.instructions

end ToyIsa
