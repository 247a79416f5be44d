import ToyIsa.Toy.SyscallEmulator

/-!
# The instruction functions

Port of `executor.cpp`.
-/

namespace ToyIsa

namespace ExecutorDetail

/-- The loop of `countLeadingZeros`. The mask is 0 after 32 shifts. -/
def countLoop (value : Word) : Nat → Word → Word → Word
  | 0, _, count => count
  | fuel + 1, mask, count =>
    if mask ≠ 0 ∧ value &&& mask = 0 then countLoop value fuel (mask >>> 1) (count + 1) else count

def countLeadingZeros (value : Word) : Word := countLoop value TI32.wordBitCount 0x80000000 0

def saturateSigned (value width : Word) : Except Failure Word :=
  if h : width = 0 ∨ width.toNat ≥ TI32.wordBitCount then
    .error (.simulation .invalidInstruction "[EXECUTE] SSAT width must be in range 1..31")
  else
    let maximum := makeMask (width.toNat - 1) (by omega)
    let minimum := ~~~maximum
    let signBit := (1 : Word) <<< (TI32.wordBitCount - 1)
    if value &&& signBit = 0 then .ok (if value > maximum then maximum else value)
    else .ok (if value < minimum then minimum else value)

/-- A shift by 32 or more is undefined behaviour. -/
def rotateRight (value shift : Word) : Except Failure Word :=
  if shift = 0 then .ok value
  else if shift.toNat < TI32.wordBitCount then
    .ok ((value >>> shift.toNat) ||| (value <<< (TI32.wordBitCount - shift.toNat)))
  else .error .undefined

/-- One turn of the loop of `compressBits`, on the result and the next output bit. -/
def compressStep (value mask : Word) (state : Word × Nat) (inputBit : Nat) : Word × Nat :=
  if mask &&& ((1 : Word) <<< inputBit) ≠ 0 then
    (state.1 ||| (((value >>> inputBit) &&& 1) <<< state.2), state.2 + 1)
  else state

def compressBits (value mask : Word) : Word :=
  ((List.range TI32.wordBitCount).foldl (compressStep value mask) (0, 0)).1

end ExecutorDetail

open ExecutionContext

variable {σ : Type}

def executeLi (instruction : TIInstruction) : Exec σ Unit := do
  writeRegister (← check (instruction.operand 0)) (← check (instruction.operand 1))
  addPc TI32.instructionSize

def executeAdd (instruction : TIInstruction) : Exec σ Unit := do
  let rs ← readRegister (← check (instruction.operand 1))
  let rt ← readRegister (← check (instruction.operand 2))
  writeRegister (← check (instruction.operand 0)) (rs + rt)
  addPc TI32.instructionSize

def executeAddi (instruction : TIInstruction) : Exec σ Unit := do
  let rs ← readRegister (← check (instruction.operand 1))
  let immediate ← check (instruction.operand 2)
  writeRegister (← check (instruction.operand 0)) (rs + immediate)
  addPc TI32.instructionSize

def executeOr (instruction : TIInstruction) : Exec σ Unit := do
  let rs ← readRegister (← check (instruction.operand 1))
  let rt ← readRegister (← check (instruction.operand 2))
  writeRegister (← check (instruction.operand 0)) (rs ||| rt)
  addPc TI32.instructionSize

def executeLdReg (instruction : TIInstruction) : Exec σ Unit := do
  let base ← readRegister (← check (instruction.operand 1))
  let offset ← readRegister (← check (instruction.operand 2))
  let address := base + offset
  let value ← check ((← get).memory.read32 address)
  writeRegister (← check (instruction.operand 0)) value
  addPc TI32.instructionSize

def executeLdImm (instruction : TIInstruction) : Exec σ Unit := do
  let base ← readRegister (← check (instruction.operand 1))
  let offset ← check (instruction.operand 2)
  let address := base + offset
  let value ← check ((← get).memory.read32 address)
  writeRegister (← check (instruction.operand 0)) value
  addPc TI32.instructionSize

def executeSt (instruction : TIInstruction) : Exec σ Unit := do
  let base ← readRegister (← check (instruction.operand 1))
  let offset ← check (instruction.operand 2)
  let address := base + offset
  let value ← readRegister (← check (instruction.operand 0))
  onMemory (TIMemory.write32 address value)
  addPc TI32.instructionSize

def executeStp (instruction : TIInstruction) : Exec σ Unit := do
  let base ← readRegister (← check (instruction.operand 2))
  let offset ← check (instruction.operand 3)
  let address := base + offset
  let value1 ← readRegister (← check (instruction.operand 0))
  onMemory (TIMemory.write32 address value1)
  let value2 ← readRegister (← check (instruction.operand 1))
  onMemory (TIMemory.write32 (address + BitVec.ofNat 32 TI32.wordSize) value2)
  addPc TI32.instructionSize

def executeFlush (_ : TIInstruction) : Exec σ Unit := do
  flushInstructionCache
  addPc TI32.instructionSize

def executeBeq (instruction : TIInstruction) : Exec σ Unit := do
  let rs ← readRegister (← check (instruction.operand 0))
  let rt ← readRegister (← check (instruction.operand 1))
  if rs = rt then
    addPc ((← check (instruction.operand 2)) * TI32.instructionSize)
  else
    addPc TI32.instructionSize

def executeJ (instruction : TIInstruction) : Exec σ Unit := do
  let index ← check (instruction.operand 0)
  setPc (((← get).cpu.pc &&& 0xF0000000) ||| (index * TI32.instructionSize))

def executeClz (instruction : TIInstruction) : Exec σ Unit := do
  let rs ← readRegister (← check (instruction.operand 1))
  writeRegister (← check (instruction.operand 0)) (ExecutorDetail.countLeadingZeros rs)
  addPc TI32.instructionSize

def executeSsat (instruction : TIInstruction) : Exec σ Unit := do
  let rs ← readRegister (← check (instruction.operand 1))
  let value ← check (ExecutorDetail.saturateSigned rs (← check (instruction.operand 2)))
  writeRegister (← check (instruction.operand 0)) value
  addPc TI32.instructionSize

def executeRori (instruction : TIInstruction) : Exec σ Unit := do
  let rs ← readRegister (← check (instruction.operand 1))
  let value ← check (ExecutorDetail.rotateRight rs (← check (instruction.operand 2)))
  writeRegister (← check (instruction.operand 0)) value
  addPc TI32.instructionSize

def executeBext (instruction : TIInstruction) : Exec σ Unit := do
  let rs1 ← readRegister (← check (instruction.operand 1))
  let rs2 ← readRegister (← check (instruction.operand 2))
  writeRegister (← check (instruction.operand 0)) (ExecutorDetail.compressBits rs1 rs2)
  addPc TI32.instructionSize

def executeSyscall [Host σ] (_ : TIInstruction) : Exec σ Unit := do
  TISyscallEmulator.execute
  if (← get).state.status = .running then
    addPc TI32.instructionSize

def executeInvalid (_ : TIInstruction) : Exec σ Unit :=
  throw (.simulation .invalidInstruction "[EXECUTE] Invalid instruction")

end ToyIsa
