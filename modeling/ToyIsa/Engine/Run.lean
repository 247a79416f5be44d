import ToyIsa.Engine.Encoder
import ToyIsa.Engine.Native

/-!
# Running blocks

Port of `executeJitBlock` of `jit_executor.cpp` and of `step`, `run` and `executeBlock` of
`execution_context.cpp`. The two unbounded loops, `run` over blocks and `executeJitBlock` over
chained entries, take the number of turns they may make: the result is `none` if that is not enough
or if decoding a block never ends. A reference to a cached block is the block with its key.
-/

namespace ToyIsa

variable {σ : Type} [Host σ]

/-- The loop of `executeJitBlock` over the entries returned by native code. -/
def chainLoop (ir : IrLibrary) : Nat → Entry → ExecutionContext σ → Option (Outcome σ)
  | 0, _, _ => none
  | fuel + 1, nextEntry, c =>
    if nextEntry = 0 then some (.ok () c)
    else
      match callEntry ir nextEntry c with
      | .ok nextEntry c => chainLoop ir fuel nextEntry c
      | .error e c => some (.error e c)

/-- Compile a block, store the result in it and publish its entry point. -/
def compileAndPublish (ir : IrLibrary) (key : Word) (block : TIBasicBlock) :
    Exec σ Entry := fun c =>
  match compileBlock ir block c.jitOptimizationLevel c.blockCache with
  | .error e cache => .error e { c with blockCache := cache }
  | .ok compiledBlock cache =>
    if compiledBlock.empty then
      .error (.runtime "IR failed to compile a basic block") { c with blockCache := cache }
    else
      .ok compiledBlock.entryPoint { c with
        blockCache := (cache.modifyBlock key (·.setCompiledBlock compiledBlock)).setJitEntry
          block.startAddress compiledBlock.entryPoint }

/-- What `executeJitBlock` does before it runs native code: interpret the block, and then there is
nothing left to do (entry 0), or have the entry point to call. -/
def enterJitBlock (ir : IrLibrary) (key : Word) (block : TIBasicBlock) (threshold : Nat) :
    Exec σ Entry := do
  if !block.hasCompiledBlock && block.executionCount < threshold then
    modify fun c => { c with blockCache := c.blockCache.modifyBlock key (·.recordExecution) }
    executeThreadedBlock block
    return 0
  else if !block.hasCompiledBlock then
    compileAndPublish ir key block
  else
    return block.compiledBlock.entryPoint

def executeJitBlock (ir : IrLibrary) (fuel : Nat) (key : Word) (block : TIBasicBlock)
    (threshold : Nat) (c : ExecutionContext σ) : Option (Outcome σ) :=
  match enterJitBlock ir key block threshold c with
  | .ok nextEntry c => chainLoop ir fuel nextEntry c
  | .error e c => some (.error e c)

/-- The handler of `executeBlock`: a `SimulationException` faults the context and goes on. -/
def catchSimulation : Outcome σ → Outcome σ
  | .error (.simulation code message) c =>
    .error (.simulation code message) { c with state := c.state.fault }
  | outcome => outcome

def executeBlock (ir : IrLibrary) (fuel : Nat) (key : Word) (block : TIBasicBlock)
    (c : ExecutionContext σ) : Option (Outcome σ) :=
  (match c.mode with
    | .switch => some (executeSwitchBlock block c)
    | .jit => executeJitBlock ir fuel key block c.jitThreshold c
    | .threaded => some (executeThreadedBlock block c)).map catchSimulation

/-- `BlockCache.getBlock(Cpu.PC, Memory, Decoder)`. -/
def fetchBlock (c : ExecutionContext σ) :
    Option (EStateM.Result Failure (ExecutionContext σ) TIBasicBlock) :=
  match c.blockCache.getBlock c.cpu.pc c.memory with
  | none => none
  | some (.error e cache) => some (.error e { c with blockCache := cache })
  | some (.ok block cache) => some (.ok block { c with blockCache := cache })

def step (ir : IrLibrary) (fuel : Nat) (c : ExecutionContext σ) : Option (Outcome σ) :=
  match fetchBlock c with
  | none => none
  | some (.error e c') => some (.error e c')
  | some (.ok block c') => executeBlock ir fuel c.cpu.pc block c'

def run (ir : IrLibrary) : Nat → ExecutionContext σ → Option (Outcome σ)
  | 0, _ => none
  | fuel + 1, c =>
    if c.state.status = .running then
      match step ir fuel c with
      | none => none
      | some (.ok () c) => run ir fuel c
      | some (.error e c) => some (.error e c)
    else some (.ok () c)

/-- `run` stops with an outcome. -/
def Runs (ir : IrLibrary) (c : ExecutionContext σ) (outcome : Outcome σ) : Prop :=
  ∃ fuel, run ir fuel c = some outcome

end ToyIsa
