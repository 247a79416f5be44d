import ToyIsa.Engine.Interpreters
import ToyIsa.Isa.Instr
import ToyIsa.Lib.EState
import Mathlib.Tactic.Simps.Basic

/-!
# The meaning of typed instructions

`Instr.exec` is what each typed instruction does to a context: first its effect on registers,
memory and the rest of the machine, and then, unless it fails, the move of the PC.
`executeInstructionSwitch_toTI` says that the `execute` functions do just that on the
representation of the instruction. Proofs about the engines use `Instr.exec` and never unfold the
`execute` functions again.
-/

namespace ToyIsa

variable {σ : Type}

namespace ExecutionContext

/-- The value of a register. -/
def reg (c : ExecutionContext σ) (r : Reg) : Word := c.cpu.registers[r.index]

/-- The context with a register changed. -/
@[simps] def setReg (c : ExecutionContext σ) (r : Reg) (w : Word) : ExecutionContext σ :=
  { c with cpu := { c.cpu with registers := c.cpu.registers.set r.index w } }

/-- A register that was just written. -/
lemma reg_setReg_self (c : ExecutionContext σ) (r w) : (c.setReg r w).reg r = w :=
  Vector.getElem_set_self _

/-- The context with another PC. -/
@[simps] def atPc (c : ExecutionContext σ) (pc : Word) : ExecutionContext σ :=
  { c with cpu := { c.cpu with pc := pc } }

/-- The context with another memory. -/
@[simps] def withMemory (c : ExecutionContext σ) (m : TIMemory) : ExecutionContext σ :=
  { c with memory := m }

/-- The context with status `FAULTED`. -/
@[simps] def fault (c : ExecutionContext σ) : ExecutionContext σ :=
  { c with state := c.state.fault }

/-- The context after `flushInstructionCache`. -/
@[simps] def flushed (c : ExecutionContext σ) : ExecutionContext σ :=
  { c with
    memory := { c.memory with dirtyCodeRanges := [] }
    blockCache := c.memory.dirtyCodeRanges.foldl
      (fun cache range => cache.invalidateRange range.address range.size) c.blockCache }

/-- Another memory keeps the registers. -/
@[simp] lemma withMemory_reg (c : ExecutionContext σ) (m r) :
    (c.withMemory m).reg r = c.reg r := rfl

/-- The last memory counts. -/
@[simp] lemma withMemory_withMemory (c : ExecutionContext σ) (m m') :
    (c.withMemory m).withMemory m' = c.withMemory m' := rfl

/-- Another PC keeps the registers. -/
@[simp] lemma atPc_reg (c : ExecutionContext σ) (pc r) : (c.atPc pc).reg r = c.reg r := rfl

/-- The last PC counts. -/
@[simp] lemma atPc_atPc (c : ExecutionContext σ) (pc pc') : (c.atPc pc).atPc pc' = c.atPc pc' := rfl

end ExecutionContext

open ExecutionContext

/-- What a computing instruction computes. It reads registers and memory only. -/
@[simp] def Compute.value (op : Compute) (c : ExecutionContext σ) : Except Failure Word :=
  match op with
  | .li _ imm => .ok (imm.signExtend 32)
  | .add _ rs rt => .ok (c.reg rs + c.reg rt)
  | .addi _ rs imm => .ok (c.reg rs + imm.signExtend 32)
  | .or _ rs rt => .ok (c.reg rs ||| c.reg rt)
  | .ldReg _ base rm => c.memory.read32 (c.reg base + c.reg rm)
  | .ldImm _ base imm => c.memory.read32 (c.reg base + imm.signExtend 32)
  | .clz _ rs => .ok (ExecutorDetail.countLeadingZeros (c.reg rs))
  | .ssat _ rs width => ExecutorDetail.saturateSigned (c.reg rs) (width.setWidth 32)
  | .rori _ rs shift => ExecutorDetail.rotateRight (c.reg rs) (shift.setWidth 32)
  | .bext _ rs1 rs2 => .ok (ExecutorDetail.compressBits (c.reg rs1) (c.reg rs2))

/-- The memory after a list of word stores, which stops at the first that fails. -/
def storeAll : List (Word × Word) → EStateM Failure TIMemory Unit
  | [] => pure ()
  | (address, value) :: rest => do
    TIMemory.write32 address value
    storeAll rest

/-- The context after a list of word stores. -/
def ExecutionContext.storing (c : ExecutionContext σ) (stores : List (Word × Word)) : Outcome σ :=
  onMemory (storeAll stores) c

/-- What an instruction does to everything but the PC. -/
def Instr.effect [Host σ] (i : Instr) (c : ExecutionContext σ) : Outcome σ :=
  match i with
  | .compute op =>
    match op.value c with
    | .ok w => .ok () (c.setReg op.dest w)
    | .error e => .error e c
  | .st rt base imm => c.storing [(c.reg base + imm.signExtend 32, c.reg rt)]
  | .stp rt1 rt2 base offset =>
    c.storing [(c.reg base + offset.signExtend 32, c.reg rt1),
      (c.reg base + offset.signExtend 32 + 4, c.reg rt2)]
  | .flush => .ok () c.flushed
  | .beq .. | .j .. => .ok () c
  | .syscall _ => TISyscallEmulator.execute c
  | .invalid => .error (.simulation .invalidInstruction "[EXECUTE] Invalid instruction") c

/-- The PC after an instruction, in the context that it leaves. -/
def Instr.nextPc (i : Instr) (c : ExecutionContext σ) : Word :=
  match i with
  | .beq rs rt offset =>
    if c.reg rs = c.reg rt then c.cpu.pc + offset.signExtend 32 * TI32.instructionSize
    else c.cpu.pc + TI32.instructionSize
  | .j index => (c.cpu.pc &&& 0xF0000000) ||| (index.setWidth 32 * TI32.instructionSize)
  | .syscall _ =>
    if c.state.status = .running then c.cpu.pc + TI32.instructionSize else c.cpu.pc
  | _ => c.cpu.pc + TI32.instructionSize

/-- What an instruction does. -/
def Instr.exec [Host σ] (i : Instr) (c : ExecutionContext σ) : Outcome σ :=
  match i.effect c with
  | .ok () d => .ok () (d.atPc (i.nextPc d))
  | .error e d => .error e d

/-! The primitives of the `execute` functions on typed operands. -/

/-- A register number is small enough for every width. -/
@[simp] lemma toNat_setWidth_reg (r : Reg) : (r.setWidth 32).toNat = r.toNat := by
  have := r.isLt
  simp
  omega

/-- Reading a register named by its number. -/
@[simp] lemma readRegister_apply (r : Reg) (c : ExecutionContext σ) :
    readRegister (r.setWidth 32) c = .ok (c.reg r) c := by
  have h : (r.setWidth 32).toNat < TI32.registerCount := by
    rw [toNat_setWidth_reg]
    exact r.isLt
  unfold readRegister
  rw [dif_pos h]
  simp only [toNat_setWidth_reg]
  rfl

/-- Writing a register named by its number. -/
@[simp] lemma writeRegister_apply (r : Reg) (w) (c : ExecutionContext σ) :
    writeRegister (r.setWidth 32) w c = .ok () (c.setReg r w) := by
  have h : (r.setWidth 32).toNat < TI32.registerCount := by
    rw [toNat_setWidth_reg]
    exact r.isLt
  unfold writeRegister
  rw [dif_pos h]
  simp only [toNat_setWidth_reg]
  rfl

/-- Setting the PC. -/
@[simp] lemma setPc_apply (pc) (c : ExecutionContext σ) : setPc pc c = .ok () (c.atPc pc) := rfl

/-- Moving the PC. -/
@[simp] lemma addPc_apply (offset) (c : ExecutionContext σ) :
    addPc offset c = .ok () (c.atPc (c.cpu.pc + offset)) := rfl

/-- Flushing the instruction cache. -/
@[simp] lemma flushInstructionCache_apply (c : ExecutionContext σ) :
    flushInstructionCache c = .ok () c.flushed := rfl

/-- A change of memory changes nothing else of the context. -/
lemma onMemory_apply {α} (f : EStateM Failure TIMemory α) (c : ExecutionContext σ) :
    onMemory f c = match f c.memory with
      | .ok a m => .ok a (c.withMemory m)
      | .error e m => .error e (c.withMemory m) := rfl

/-- The operands of a typed instruction by position. -/
lemma toTI_operand (i : Instr) (n : Nat) :
    i.toTI.operand n = match i.operands[n]? with
      | some operand => .ok operand.value
      | none => .error .undefined := rfl

/-- The operand of a register holds its number. -/
@[simp] lemma reg_operand_value (r : Reg) : r.operand.value = r.setWidth 32 := rfl

/-- A failing check either gives its value or stops. -/
lemma check_apply {α : Type} (x : Except Failure α) (c : ExecutionContext σ) :
    check x c = match x with
      | .ok a => .ok a c
      | .error e => .error e c := by
  cases x <;> rfl

/-- The `execute` functions of computing instructions. -/
lemma executeInstructionSwitch_compute [Host σ] (op : Compute) (c : ExecutionContext σ) :
    executeInstructionSwitch (Instr.compute op).toTI c = (Instr.compute op).exec c := by
  cases op with
  | li rt imm =>
    simp [executeInstructionSwitch, executeLi, toTI_operand, Instr.exec, Instr.effect, Instr.nextPc]
  | add rd rs rt =>
    simp [executeInstructionSwitch, executeAdd, toTI_operand, Instr.exec, Instr.effect,
      Instr.nextPc]
  | addi rt rs imm =>
    simp [executeInstructionSwitch, executeAddi, toTI_operand, Instr.exec, Instr.effect,
      Instr.nextPc]
  | or rd rs rt =>
    simp [executeInstructionSwitch, executeOr, toTI_operand, Instr.exec, Instr.effect, Instr.nextPc]
  | ldReg rt base rm =>
    simp [executeInstructionSwitch, executeLdReg, toTI_operand, Instr.exec, Instr.effect,
      Instr.nextPc, check_apply]
    cases c.memory.read32 (c.reg base + c.reg rm) <;> simp
  | ldImm rt base imm =>
    simp [executeInstructionSwitch, executeLdImm, toTI_operand, Instr.exec, Instr.effect,
      Instr.nextPc, check_apply]
    cases c.memory.read32 (c.reg base + imm.signExtend 32) <;> simp
  | clz rd rs =>
    simp [executeInstructionSwitch, executeClz, toTI_operand, Instr.exec, Instr.effect,
      Instr.nextPc]
  | ssat rd rs width =>
    simp [executeInstructionSwitch, executeSsat, toTI_operand, Instr.exec, Instr.effect,
      Instr.nextPc, check_apply]
    cases ExecutorDetail.saturateSigned (c.reg rs) (width.setWidth 32) <;> simp
  | rori rd rs shift =>
    simp [executeInstructionSwitch, executeRori, toTI_operand, Instr.exec, Instr.effect,
      Instr.nextPc, check_apply]
    cases ExecutorDetail.rotateRight (c.reg rs) (shift.setWidth 32) <;> simp
  | bext rd rs1 rs2 =>
    simp [executeInstructionSwitch, executeBext, toTI_operand, Instr.exec, Instr.effect,
      Instr.nextPc]

/-- The `execute` functions do what typed instructions mean. -/
theorem executeInstructionSwitch_toTI [Host σ] (i : Instr) (c : ExecutionContext σ) :
    executeInstructionSwitch i.toTI c = i.exec c := by
  cases i with
  | compute op => exact executeInstructionSwitch_compute op c
  | st rt base imm =>
    simp [executeInstructionSwitch, executeSt, toTI_operand, Instr.exec, Instr.effect, Instr.nextPc,
      storing, storeAll, onMemory_apply]
    cases TIMemory.write32 (c.reg base + imm.signExtend 32) (c.reg rt) c.memory <;> simp
  | stp rt1 rt2 base offset =>
    have e4 : BitVec.ofNat 32 TI32.wordSize = 4#32 := rfl
    simp [executeInstructionSwitch, executeStp, toTI_operand, Instr.exec, Instr.effect,
      Instr.nextPc, storing, storeAll, onMemory_apply, e4]
    cases TIMemory.write32 (c.reg base + offset.signExtend 32) (c.reg rt1) c.memory with
    | error e m => simp
    | ok u m =>
      simp only [withMemory_reg, withMemory_memory]
      cases TIMemory.write32 (c.reg base + offset.signExtend 32 + 4#32) (c.reg rt2) m <;> simp
  | flush =>
    simp [executeInstructionSwitch, executeFlush, Instr.exec, Instr.effect, Instr.nextPc]
  | beq rs rt offset =>
    simp [executeInstructionSwitch, executeBeq, toTI_operand, Instr.exec, Instr.effect,
      Instr.nextPc]
    split <;> rfl
  | j index =>
    simp [executeInstructionSwitch, executeJ, toTI_operand, Instr.exec, Instr.effect, Instr.nextPc]
  | syscall code =>
    simp [executeInstructionSwitch, executeSyscall, Instr.exec, Instr.effect, Instr.nextPc]
    cases TISyscallEmulator.execute c with
    | ok u s => simp only; split <;> rfl
    | error e s => rfl
  | invalid => simp [executeInstructionSwitch, executeInvalid, Instr.exec, Instr.effect]

end ToyIsa
