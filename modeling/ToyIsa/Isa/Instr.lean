import ToyIsa.Toy.Decoder

/-!
# Typed instructions

The instructions of the ISA with the fields their formats give them: an invalid register number or
an immediate that does not fit cannot be written. `Instr.toTI` is the representation of the program
and `decode_eq_toTI` says that the decoder returns nothing else. `Compute` is the instructions that
compute one register.
-/

namespace ToyIsa

abbrev Reg := BitVec 5

namespace Reg

/-- The register as an index of the register file. -/
def index (r : Reg) : Fin TI32.registerCount := ⟨r.toNat, r.isLt⟩

/-- The operand naming the register. -/
def operand (r : Reg) : Operand := ⟨.register, r.setWidth 32⟩

end Reg

/-- The instructions that compute a register and go on with the next instruction. -/
inductive Compute where
  | li (rt : Reg) (imm : BitVec 16)
  | add (rd rs rt : Reg)
  | addi (rt rs : Reg) (imm : BitVec 16)
  | or (rd rs rt : Reg)
  | ldReg (rt base rm : Reg)
  | ldImm (rt base : Reg) (imm : BitVec 14)
  | clz (rd rs : Reg)
  | ssat (rd rs : Reg) (width : BitVec 5)
  | rori (rd rs : Reg) (shift : BitVec 5)
  | bext (rd rs1 rs2 : Reg)
  deriving DecidableEq, Repr

inductive Instr where
  | compute (op : Compute)
  | st (rt base : Reg) (imm : BitVec 14)
  | stp (rt1 rt2 base : Reg) (offset : BitVec 11)
  | flush
  | beq (rs rt : Reg) (offset : BitVec 16)
  | j (index : BitVec 26)
  | syscall (code : BitVec 20)
  | invalid
  deriving DecidableEq, Repr

namespace Compute

@[simp] def opCode : Compute → TIOpcode
  | .li .. => .li
  | .add .. => .add
  | .addi .. => .addi
  | .or .. => .or
  | .ldReg .. => .ldReg
  | .ldImm .. => .ldImm
  | .clz .. => .clz
  | .ssat .. => .ssat
  | .rori .. => .rori
  | .bext .. => .bext

@[simp] def operands : Compute → List Operand
  | .li rt imm => [rt.operand, ⟨.immediate, imm.signExtend 32⟩]
  | .add rd rs rt => [rd.operand, rs.operand, rt.operand]
  | .addi rt rs imm => [rt.operand, rs.operand, ⟨.immediate, imm.signExtend 32⟩]
  | .or rd rs rt => [rd.operand, rs.operand, rt.operand]
  | .ldReg rt base rm => [rt.operand, base.operand, rm.operand]
  | .ldImm rt base imm => [rt.operand, base.operand, ⟨.immediate, imm.signExtend 32⟩]
  | .clz rd rs => [rd.operand, rs.operand]
  | .ssat rd rs width => [rd.operand, rs.operand, ⟨.immediate, width.setWidth 32⟩]
  | .rori rd rs shift => [rd.operand, rs.operand, ⟨.immediate, shift.setWidth 32⟩]
  | .bext rd rs1 rs2 => [rd.operand, rs1.operand, rs2.operand]

/-- The register computed. -/
@[simp] def dest : Compute → Reg
  | .li rt _ => rt
  | .add rd _ _ => rd
  | .addi rt _ _ => rt
  | .or rd _ _ => rd
  | .ldReg rt _ _ => rt
  | .ldImm rt _ _ => rt
  | .clz rd _ => rd
  | .ssat rd _ _ => rd
  | .rori rd _ _ => rd
  | .bext rd _ _ => rd

end Compute

namespace Instr

@[simp] def opCode : Instr → TIOpcode
  | .compute op => op.opCode
  | .st .. => .st
  | .stp .. => .stp
  | .flush => .flush
  | .beq .. => .beq
  | .j .. => .j
  | .syscall .. => .syscall
  | .invalid => .invalid

@[simp] def operands : Instr → List Operand
  | .compute op => op.operands
  | .st rt base imm => [rt.operand, base.operand, ⟨.immediate, imm.signExtend 32⟩]
  | .stp rt1 rt2 base offset =>
    [rt1.operand, rt2.operand, base.operand, ⟨.immediate, offset.signExtend 32⟩]
  | .flush => []
  | .beq rs rt offset => [rs.operand, rt.operand, ⟨.immediate, offset.signExtend 32⟩]
  | .j index => [⟨.immediate, index.setWidth 32⟩]
  | .syscall code => [⟨.immediate, code.setWidth 32⟩]
  | .invalid => []

/-- The representation of the program. -/
def toTI (i : Instr) : TIInstruction :=
  { opCode := i.opCode
    operands := i.operands
    threadedHandler := some (getThreadedHandler i.opCode) }

/-- The representation keeps the opcode. -/
@[simp] lemma toTI_opCode (i : Instr) : i.toTI.opCode = i.opCode := rfl

/-- The representation keeps the operands. -/
@[simp] lemma toTI_operands (i : Instr) : i.toTI.operands = i.operands := rfl

end Instr

/-- Zero extension loses nothing. -/
lemma setWidth_inj {w} (h : w ≤ 32) {x y : BitVec w} : x.setWidth 32 = y.setWidth 32 ↔ x = y := by
  refine ⟨fun e => BitVec.eq_of_toNat_eq ?_, congrArg _⟩
  have e' := congrArg BitVec.toNat e
  rwa [BitVec.toNat_setWidth_of_le h, BitVec.toNat_setWidth_of_le h] at e'

/-- Sign extension loses nothing. -/
lemma signExtend_inj {w} (h : w ≤ 32) {x y : BitVec w} :
    x.signExtend 32 = y.signExtend 32 ↔ x = y := by
  refine ⟨fun e => BitVec.eq_of_toInt_eq ?_, congrArg _⟩
  have e' := congrArg BitVec.toInt e
  rwa [BitVec.toInt_signExtend_of_le h, BitVec.toInt_signExtend_of_le h] at e'

/-- An operand names one register. -/
lemma Reg.operand_inj {r s : Reg} : r.operand = s.operand ↔ r = s := by
  simp [Reg.operand, setWidth_inj]

/-- Opcode and operands determine a computing instruction. -/
lemma Compute.ext_operands {op op' : Compute} (code : op.opCode = op'.opCode)
    (h : op.operands = op'.operands) : op = op' := by
  cases op <;> cases op' <;> simp_all [Reg.operand_inj, setWidth_inj, signExtend_inj]

/-- A computing instruction shares its opcode with no other instruction. -/
lemma Compute.opCode_ne (op : Compute) :
    op.opCode ∉ [.st, .stp, .flush, .beq, .j, .syscall, .invalid] := by
  cases op <;> simp

/-- The representation determines the instruction. -/
lemma Instr.toTI_injective : Function.Injective Instr.toTI := by
  intro i j h
  have code : i.opCode = j.opCode := congrArg TIInstruction.opCode h
  have operands : i.operands = j.operands := congrArg TIInstruction.operands h
  cases i with
  | compute op =>
    cases j with
    | compute op' => rw [Compute.ext_operands code operands]
    | _ => exact absurd code (by have := op.opCode_ne; simp_all)
  | _ =>
    cases j with
    | compute op => exact absurd code.symm (by have := op.opCode_ne; simp_all)
    | _ => simp_all [Reg.operand_inj, setWidth_inj, signExtend_inj]
open TIDecoder

/-- The result of a handler, completed as `decode` does. -/
def withHandler (instruction : TIInstruction) : TIInstruction :=
  { instruction with threadedHandler := some (getThreadedHandler instruction.opCode) }

/-! The handlers, as typed instructions of the fields they extract. -/

/-- The decoder of `ST`. -/
lemma decodeSt_eq (word : Word) :
    withHandler (decodeSt word) =
      (Instr.st (word.extractLsb' 16 5) (word.extractLsb' 21 5) (word.extractLsb' 0 14)).toTI := by
  simp only [withHandler, decodeSt, extractBits_eq, signExtend_eq]
  rfl

/-- The decoder of `ADDI`. -/
lemma decodeAddi_eq (word : Word) :
    withHandler (decodeAddi word) =
      (Instr.compute (.addi (word.extractLsb' 16 5) (word.extractLsb' 21 5)
        (word.extractLsb' 0 16))).toTI := by
  simp only [withHandler, decodeAddi, extractBits_eq, signExtend_eq]
  rfl

/-- The decoder of `OR`. -/
lemma decodeOr_eq (word : Word) :
    withHandler (decodeOr word) =
      (Instr.compute (.or (word.extractLsb' 11 5) (word.extractLsb' 21 5)
        (word.extractLsb' 16 5))).toTI := by
  simp only [withHandler, decodeOr, extractBits_eq]
  rfl

/-- The decoder of `LD` with a register offset. -/
lemma decodeLdReg_eq (word : Word) :
    withHandler (decodeLdReg word) =
      (Instr.compute (.ldReg (word.extractLsb' 16 5) (word.extractLsb' 21 5)
        (word.extractLsb' 0 5))).toTI := by
  simp only [withHandler, decodeLdReg, extractBits_eq]
  rfl

/-- The decoder of `J`. -/
lemma decodeJ_eq (word : Word) :
    withHandler (decodeJ word) =
      (Instr.j (word.extractLsb' 0 26)).toTI := by
  simp only [withHandler, decodeJ, extractBits_eq]
  rfl

/-- The decoder of `BEQ`. -/
lemma decodeBeq_eq (word : Word) :
    withHandler (decodeBeq word) =
      (Instr.beq (word.extractLsb' 21 5) (word.extractLsb' 16 5) (word.extractLsb' 0 16)).toTI := by
  simp only [withHandler, decodeBeq, extractBits_eq, signExtend_eq]
  rfl

/-- The decoder of `CLZ`. -/
lemma decodeClz_eq (word : Word) :
    withHandler (decodeClz word) =
      (Instr.compute (.clz (word.extractLsb' 21 5) (word.extractLsb' 16 5))).toTI := by
  simp only [withHandler, decodeClz, extractBits_eq]
  rfl

/-- The decoder of `SSAT`. -/
lemma decodeSsat_eq (word : Word) :
    withHandler (decodeSsat word) =
      (Instr.compute (.ssat (word.extractLsb' 21 5) (word.extractLsb' 16 5)
        (word.extractLsb' 11 5))).toTI := by
  simp only [withHandler, decodeSsat, extractBits_eq]
  rfl

/-- The decoder of `LD` with an immediate offset. -/
lemma decodeLdImm_eq (word : Word) :
    withHandler (decodeLdImm word) =
      (Instr.compute (.ldImm (word.extractLsb' 16 5) (word.extractLsb' 21 5)
        (word.extractLsb' 0 14))).toTI := by
  simp only [withHandler, decodeLdImm, extractBits_eq, signExtend_eq]
  rfl

/-- The decoder of `ADD`. -/
lemma decodeAdd_eq (word : Word) :
    withHandler (decodeAdd word) =
      (Instr.compute (.add (word.extractLsb' 11 5) (word.extractLsb' 21 5)
        (word.extractLsb' 16 5))).toTI := by
  simp only [withHandler, decodeAdd, extractBits_eq]
  rfl

/-- The decoder of `SYSCALL`. -/
lemma decodeSyscall_eq (word : Word) :
    withHandler (decodeSyscall word) =
      (Instr.syscall (word.extractLsb' 6 20)).toTI := by
  simp only [withHandler, decodeSyscall, extractBits_eq]
  rfl

/-- The decoder of `BEXT`. -/
lemma decodeBext_eq (word : Word) :
    withHandler (decodeBext word) =
      (Instr.compute (.bext (word.extractLsb' 21 5) (word.extractLsb' 16 5)
        (word.extractLsb' 11 5))).toTI := by
  simp only [withHandler, decodeBext, extractBits_eq]
  rfl

/-- The decoder of `LI`. -/
lemma decodeLi_eq (word : Word) :
    withHandler (decodeLi word) =
      (Instr.compute (.li (word.extractLsb' 16 5) (word.extractLsb' 0 16))).toTI := by
  simp only [withHandler, decodeLi, extractBits_eq, signExtend_eq]
  rfl

/-- The decoder of `RORI`. -/
lemma decodeRori_eq (word : Word) :
    withHandler (decodeRori word) =
      (Instr.compute (.rori (word.extractLsb' 21 5) (word.extractLsb' 16 5)
        (word.extractLsb' 11 5))).toTI := by
  simp only [withHandler, decodeRori, extractBits_eq]
  rfl

/-- The decoder of `STP`. -/
lemma decodeStp_eq (word : Word) :
    withHandler (decodeStp word) =
      (Instr.stp (word.extractLsb' 16 5) (word.extractLsb' 11 5) (word.extractLsb' 21 5)
        (word.extractLsb' 0 11)).toTI := by
  simp only [withHandler, decodeStp, extractBits_eq, signExtend_eq]
  rfl

/-- The decoder of `FLUSH`. -/
lemma decodeFlush_eq (word : Word) : withHandler (decodeFlush word) = Instr.flush.toTI := rfl

/-- Every row of the table decodes to a typed instruction. -/
lemma handler_eq_toTI {info : DecodeInfo} (mem : info ∈ decodeVector) (word : Word) :
    ∃ i : Instr, withHandler (info.handler word) = i.toTI := by
  simp only [decodeVector, List.mem_cons, List.not_mem_nil, or_false] at mem
  obtain rfl | rfl | rfl | rfl | rfl | rfl | rfl | rfl | rfl | rfl | rfl | rfl | rfl | rfl | rfl |
    rfl := mem
  · exact ⟨_, decodeSt_eq word⟩
  · exact ⟨_, decodeAddi_eq word⟩
  · exact ⟨_, decodeOr_eq word⟩
  · exact ⟨_, decodeLdReg_eq word⟩
  · exact ⟨_, decodeJ_eq word⟩
  · exact ⟨_, decodeBeq_eq word⟩
  · exact ⟨_, decodeClz_eq word⟩
  · exact ⟨_, decodeSsat_eq word⟩
  · exact ⟨_, decodeLdImm_eq word⟩
  · exact ⟨_, decodeAdd_eq word⟩
  · exact ⟨_, decodeSyscall_eq word⟩
  · exact ⟨_, decodeBext_eq word⟩
  · exact ⟨_, decodeLi_eq word⟩
  · exact ⟨_, decodeRori_eq word⟩
  · exact ⟨_, decodeStp_eq word⟩
  · exact ⟨_, decodeFlush_eq word⟩

/-- The decoder returns typed instructions only. -/
theorem decode_eq_toTI (word : Word) : ∃ i : Instr, decode word = i.toTI := by
  unfold decode
  cases e : decodeVector.find? (·.matches word) with
  | none => exact ⟨.invalid, rfl⟩
  | some info => exact handler_eq_toTI (List.mem_of_find?_eq_some e) word

end ToyIsa
