import ToyIsa.Toy.BlockCache

/-!
# Compiling a block to IR

Port of the `encode*` functions and of `compileBlock` of `jit_executor.cpp`. The builder state is
the code emitted so far and the block cache, in which `encodeJitEntryLoad` creates chaining slots.
A builder call emits one instruction and returns the reference to its value. `START` and `PARAM`
emit nothing here: the only parameter is the reference `IrRef.param`.
-/

namespace ToyIsa

structure EmitState where
  code : List IrInsn := []
  cache : TIBasicBlockCache

abbrev Emit (α : Type) := EStateM Failure EmitState α

/-- Emit an instruction. -/
def emit (insn : IrInsn) : Emit IrRef := fun s =>
  .ok (.insn s.code.length) { s with code := s.code ++ [insn] }

/-- Emit an instruction without a value. -/
def emit' (insn : IrInsn) : Emit Unit := fun s =>
  .ok () { s with code := s.code ++ [insn] }

def irConstU32 (w : Word) : IrRef := .const (.word w)
def irConstStatus (w : Word) : IrRef := .const (.word w)
def irConstEntry (e : Entry) : IrRef := .const (.entry e)

def irLoadU8 (p : IrPtr) : Emit IrRef := emit (.loadU8 p)
def irLoadU32 (p : IrPtr) : Emit IrRef := emit (.loadU32 p)
def irLoadA (p : IrPtr) : Emit IrRef := emit (.loadA p)
def irStore (p : IrPtr) (v : IrRef) : Emit Unit := emit' (.store p v)
def irUnary (op : IrUnary) (a : IrRef) : Emit IrRef := emit (.unary op a)
def irBinary (op : IrBinary) (a b : IrRef) : Emit IrRef := emit (.binary op a b)
def irCall (f : IrCallee) (args : List IrRef) : Emit IrRef := emit (.call f args)
def irIf (c : IrRef) : Emit IrRef := emit (.ifNode c)
def irIfTrue (n : IrRef) : Emit Unit := emit' (.ifTrue n)
def irIfFalse (n : IrRef) : Emit Unit := emit' (.ifFalse n)
def irEnd : Emit IrRef := emit .endNode
def irMerge2 (a b : IrRef) : Emit Unit := emit' (.merge2 a b)
def irPhi2 (a b : IrRef) : Emit IrRef := emit (.phi2 a b)
def irReturn (v : IrRef) : Emit Unit := emit' (.ret v)

/-- `&Context.cpu().Registers[Instruction.Operands[Index].Value]`. -/
def registerPtr (instruction : TIInstruction) (index : Nat) : Emit IrPtr := do
  let register ← check (instruction.operand index)
  if h : register.toNat < TI32.registerCount then return .register ⟨register.toNat, h⟩
  else throw .undefined

def encodeExitIfStopped : Emit Unit := do
  let status ← irLoadU8 .status
  let stopped ← irIf (← irBinary .ne status (irConstStatus 0))
  irIfTrue stopped
  irReturn (irConstEntry 0)
  irIfFalse stopped

def encodeCall (contextReference : IrRef) (instruction : TIInstruction)
    (handler : TIInstructionHandler) : Emit Unit := do
  let handlerReference := IrRef.const (.handler handler)
  let instructionReference := IrRef.const (.instruction instruction)
  let _ ← irCall .executeInstructionHelper
    [contextReference, instructionReference, handlerReference]
  encodeExitIfStopped

def encodeLi (inst : TIInstruction) : Emit Unit := do
  let regPtr ← registerPtr inst 0
  let value ← check (inst.operand 1)
  irStore regPtr (irConstU32 value)

def encodeAdd (inst : TIInstruction) : Emit Unit := do
  let rdPtr ← registerPtr inst 0
  let rsPtr ← registerPtr inst 1
  let rtPtr ← registerPtr inst 2
  let rsVal ← irLoadU32 rsPtr
  let rtVal ← irLoadU32 rtPtr
  let newRdVal ← irBinary .addU32 rsVal rtVal
  irStore rdPtr newRdVal

def encodeAddi (inst : TIInstruction) : Emit Unit := do
  let rdPtr ← registerPtr inst 0
  let rsPtr ← registerPtr inst 1
  let imm ← check (inst.operand 2)
  let rsVal ← irLoadU32 rsPtr
  let newRdVal ← irBinary .addU32 rsVal (irConstU32 imm)
  irStore rdPtr newRdVal

def encodeOr (inst : TIInstruction) : Emit Unit := do
  let rdPtr ← registerPtr inst 0
  let rsPtr ← registerPtr inst 1
  let rtPtr ← registerPtr inst 2
  let rsVal ← irLoadU32 rsPtr
  let rtVal ← irLoadU32 rtPtr
  let newRdVal ← irBinary .orU32 rsVal rtVal
  irStore rdPtr newRdVal

def encodeClz (inst : TIInstruction) : Emit Unit := do
  let rdPtr ← registerPtr inst 0
  let rsPtr ← registerPtr inst 1
  let rsVal ← irLoadU32 rsPtr
  let isZero ← irBinary .eq rsVal (irConstU32 0)
  let zeroAdjustment ← irUnary .zextU32 isZero
  let safeValue ← irBinary .orU32 rsVal zeroAdjustment
  let value ← irBinary .addU32 (← irUnary .ctlzU32 safeValue) zeroAdjustment
  irStore rdPtr value

def encodeSsat (contextReference : IrRef) (inst : TIInstruction) : Emit Unit := do
  let rdPtr ← registerPtr inst 0
  let rsPtr ← registerPtr inst 1
  let width ← check (inst.operand 2)
  if width = 0 ∨ width.toNat ≥ TI32.wordBitCount then
    encodeCall contextReference inst .executeSsat
  else
    let maximum := (1 : Word) <<< (width.toNat - 1) - 1
    let minimum := -maximum - 1
    let rsVal ← irLoadU32 rsPtr
    let signedRsVal ← irUnary .bitcastI32 rsVal
    let lowerBound ← irBinary .maxI32 signedRsVal (irConstU32 minimum)
    let saturated ← irBinary .minI32 lowerBound (irConstU32 maximum)
    irStore rdPtr (← irUnary .bitcastU32 saturated)

def encodeRori (inst : TIInstruction) : Emit Unit := do
  let rdPtr ← registerPtr inst 0
  let rsPtr ← registerPtr inst 1
  let shift ← check (inst.operand 2)
  let rsVal ← irLoadU32 rsPtr
  let value ← irBinary .rorU32 rsVal (irConstU32 shift)
  irStore rdPtr value

def encodeBext (inst : TIInstruction) : Emit Unit := do
  let rdPtr ← registerPtr inst 0
  let rs1Ptr ← registerPtr inst 1
  let rs2Ptr ← registerPtr inst 2
  let rs1Val ← irLoadU32 rs1Ptr
  let rs2Val ← irLoadU32 rs2Ptr
  let value ← irCall .compressBits [rs1Val, rs2Val]
  irStore rdPtr value

def encodeLdImm (contextReference : IrRef) (inst : TIInstruction) : Emit Unit := do
  let rtPtr ← registerPtr inst 0
  let basePtr ← registerPtr inst 1
  let imm ← check (inst.operand 2)
  let baseVal ← irLoadU32 basePtr
  let addr ← irBinary .addU32 baseVal (irConstU32 imm)
  let value ← irCall .readMemory32 [contextReference, addr]
  encodeExitIfStopped
  irStore rtPtr value

def encodeLdReg (contextReference : IrRef) (inst : TIInstruction) : Emit Unit := do
  let rtPtr ← registerPtr inst 0
  let basePtr ← registerPtr inst 1
  let rmPtr ← registerPtr inst 2
  let baseVal ← irLoadU32 basePtr
  let rmVal ← irLoadU32 rmPtr
  let addr ← irBinary .addU32 baseVal rmVal
  let value ← irCall .readMemory32 [contextReference, addr]
  encodeExitIfStopped
  irStore rtPtr value

def encodeSt (contextReference : IrRef) (inst : TIInstruction) : Emit Unit := do
  let rtPtr ← registerPtr inst 0
  let basePtr ← registerPtr inst 1
  let imm ← check (inst.operand 2)
  let baseVal ← irLoadU32 basePtr
  let addr ← irBinary .addU32 baseVal (irConstU32 imm)
  let value ← irLoadU32 rtPtr
  let _ ← irCall .writeMemory32 [contextReference, addr, value]
  encodeExitIfStopped

def encodeStp (contextReference : IrRef) (inst : TIInstruction) : Emit Unit := do
  let rt1Ptr ← registerPtr inst 0
  let rt2Ptr ← registerPtr inst 1
  let basePtr ← registerPtr inst 2
  let imm ← check (inst.operand 3)
  let baseVal ← irLoadU32 basePtr
  let addr1 ← irBinary .addU32 baseVal (irConstU32 imm)
  let addr2 ← irBinary .addU32 addr1 (irConstU32 TI32.instructionSize)
  let value1 ← irLoadU32 rt1Ptr
  let value2 ← irLoadU32 rt2Ptr
  let _ ← irCall .writeMemory32 [contextReference, addr1, value1]
  encodeExitIfStopped
  let _ ← irCall .writeMemory32 [contextReference, addr2, value2]
  encodeExitIfStopped

def encodePc (value : Word) : Emit Unit := irStore .pc (irConstU32 value)

def encodeJ (inst : TIInstruction) (instructionAddress : Word) : Emit Unit := do
  let index ← check (inst.operand 0)
  let target := (instructionAddress &&& 0xF0000000) ||| (index * TI32.instructionSize)
  encodePc target

/-- `BEQ` has no case of its own: `compileBlock` leaves a terminal one to
`encodeNextJitEntry`. -/
def encodeInstruction (contextReference : IrRef) (instruction : TIInstruction)
    (instructionAddress : Word) : Emit Unit :=
  match instruction.opCode with
  | .li => encodeLi instruction
  | .add => encodeAdd instruction
  | .addi => encodeAddi instruction
  | .or => encodeOr instruction
  | .ldReg => encodeLdReg contextReference instruction
  | .st => encodeSt contextReference instruction
  | .stp => encodeStp contextReference instruction
  | .flush => do
    encodeCall contextReference instruction .executeFlush
    encodePc (instructionAddress + TI32.instructionSize)
  | .j => encodeJ instruction instructionAddress
  | .clz => encodeClz instruction
  | .ssat => encodeSsat contextReference instruction
  | .rori => encodeRori instruction
  | .bext => encodeBext instruction
  | .syscall => do
    encodePc instructionAddress
    encodeCall contextReference instruction .executeSyscall
  | .ldImm => encodeLdImm contextReference instruction
  | .invalid | .beq => do
    encodePc instructionAddress
    encodeCall contextReference instruction .executeInvalid

def updatesPc : TIOpcode → Bool
  | .beq | .j | .syscall | .invalid | .flush => true
  | _ => false

def encodeJitEntryLoad (address : Word) : Emit IrRef := do
  modify fun s => { s with cache := s.cache.jitEntrySlot address }
  irLoadA (.slot address)

def encodeNextJitEntry (block : TIBasicBlock) : Emit IrRef :=
  match block.instructions.getLast? with
  | none => encodeJitEntryLoad block.endAddress
  | some lastInstruction =>
    let instructionAddress := block.endAddress - TI32.instructionSize
    match lastInstruction.opCode with
    | .beq => do
      let rsPtr ← registerPtr lastInstruction 0
      let rtPtr ← registerPtr lastInstruction 1
      let takenAddress := instructionAddress +
        (← check (lastInstruction.operand 2)) * TI32.instructionSize
      let fallthroughAddress := instructionAddress + TI32.instructionSize
      let rsVal ← irLoadU32 rsPtr
      let rtVal ← irLoadU32 rtPtr
      let condition ← irIf (← irBinary .eq rsVal rtVal)
      irIfTrue condition
      let takenEntry ← encodeJitEntryLoad takenAddress
      irStore .pc (irConstU32 takenAddress)
      let takenEnd ← irEnd
      irIfFalse condition
      let fallthroughEntry ← encodeJitEntryLoad fallthroughAddress
      irStore .pc (irConstU32 fallthroughAddress)
      let fallthroughEnd ← irEnd
      irMerge2 takenEnd fallthroughEnd
      irPhi2 takenEntry fallthroughEntry
    | .j => do
      let target := (instructionAddress &&& 0xF0000000) |||
        ((← check (lastInstruction.operand 0)) * TI32.instructionSize)
      encodeJitEntryLoad target
    | .invalid => pure (irConstEntry 0)
    | .syscall => encodeJitEntryLoad (instructionAddress + TI32.instructionSize)
    | .flush => pure (irConstEntry 0)
    | _ => encodeJitEntryLoad block.endAddress

/-- The loop of `compileBlock` from instruction `index` on, which leaves out a terminal `BEQ`. -/
def encodeInstructions (contextReference : IrRef) (startAddress : Word) :
    Nat → List TIInstruction → Emit Unit
  | _, [] => pure ()
  | index, instruction :: rest => do
    if rest.isEmpty && instruction.opCode == .beq then pure ()
    else
      encodeInstruction contextReference instruction
        (startAddress + BitVec.ofNat 32 (index * 4))
    encodeInstructions contextReference startAddress (index + 1) rest

/-- The IR of a block. -/
def emitBlock (block : TIBasicBlock) : Emit Unit := do
  let contextReference := IrRef.param
  encodeInstructions contextReference block.startAddress 0 block.instructions
  if (block.instructions.getLast?).all (fun last => !updatesPc last.opCode) then
    encodePc block.endAddress
  irReturn (← encodeNextJitEntry block)

/-- Compile a block. The compiled block is empty if `ir_jit_compile` fails. -/
def compileBlock (ir : IrLibrary) (block : TIBasicBlock) (optimizationLevel : Byte) :
    EStateM Failure TIBasicBlockCache TICompiledBlock := fun cache =>
  match emitBlock block { cache := cache } with
  | .error e s => .error e s.cache
  | .ok () s =>
    let entryPoint := s.cache.compilations + 1
    let cache := { s.cache with compilations := entryPoint }
    if ir.jitCompile s.cache.compilations optimizationLevel s.code then
      .ok { entryPoint := entryPoint } { cache with
        nativeCode := Function.update cache.nativeCode entryPoint
          (some { code := s.code, level := optimizationLevel }) }
    else .ok {} cache

end ToyIsa
