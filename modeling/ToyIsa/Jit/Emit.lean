import ToyIsa.Engine.Encoder
import ToyIsa.Isa.Decode

/-!
# The code of a block

The `encode` functions of `jit_executor.cpp` in closed form. `nativeCode` is the IR of one
instruction, `blockCode` that of the instructions of a block and `exitCode` that of its end, each as
a function of the position at which it is emitted. `emitBlock_toTI` puts them together. The chaining
slots that the code of a block loads are its `successors`.
-/

namespace ToyIsa

/-- The IR of `encodeExitIfStopped`. -/
def exitIfStoppedCode (n : Nat) : List IrInsn :=
  [.loadU8 .status, .binary .ne (.insn n) (.const (.word 0)), .ifNode (.insn (n + 1)),
    .ifTrue (.insn (n + 2)), .ret (.const (.entry 0)), .ifFalse (.insn (n + 2))]

/-- The IR of `encodeCall`. -/
def callCode (i : Instr) (h : TIInstructionHandler) (n : Nat) : List IrInsn :=
  .call .executeInstructionHelper
    [.param, .const (.instruction i.toTI), .const (.handler h)] :: exitIfStoppedCode (n + 1)

/-- The IR of a computing instruction. -/
def Compute.nativeCode (op : Compute) (n : Nat) : List IrInsn :=
  match op with
  | .li rt imm => [.store (.register rt.index) (.const (.word (imm.signExtend 32)))]
  | .add rd rs rt =>
    [.loadU32 (.register rs.index), .loadU32 (.register rt.index),
      .binary .addU32 (.insn n) (.insn (n + 1)), .store (.register rd.index) (.insn (n + 2))]
  | .addi rt rs imm =>
    [.loadU32 (.register rs.index), .binary .addU32 (.insn n) (.const (.word (imm.signExtend 32))),
      .store (.register rt.index) (.insn (n + 1))]
  | .or rd rs rt =>
    [.loadU32 (.register rs.index), .loadU32 (.register rt.index),
      .binary .orU32 (.insn n) (.insn (n + 1)), .store (.register rd.index) (.insn (n + 2))]
  | .ldReg rt base rm =>
    [.loadU32 (.register base.index), .loadU32 (.register rm.index),
      .binary .addU32 (.insn n) (.insn (n + 1)), .call .readMemory32 [.param, .insn (n + 2)]] ++
      exitIfStoppedCode (n + 4) ++ [.store (.register rt.index) (.insn (n + 3))]
  | .ldImm rt base imm =>
    [.loadU32 (.register base.index),
      .binary .addU32 (.insn n) (.const (.word (imm.signExtend 32))),
      .call .readMemory32 [.param, .insn (n + 1)]] ++
      exitIfStoppedCode (n + 3) ++ [.store (.register rt.index) (.insn (n + 2))]
  | .clz rd rs =>
    [.loadU32 (.register rs.index), .binary .eq (.insn n) (.const (.word 0)),
      .unary .zextU32 (.insn (n + 1)), .binary .orU32 (.insn n) (.insn (n + 2)),
      .unary .ctlzU32 (.insn (n + 3)), .binary .addU32 (.insn (n + 4)) (.insn (n + 2)),
      .store (.register rd.index) (.insn (n + 5))]
  | .ssat rd rs width =>
    if width = 0 then callCode (.compute (.ssat rd rs width)) .executeSsat n
    else
      let maximum := (1 : Word) <<< (width.toNat - 1) - 1
      [.loadU32 (.register rs.index), .unary .bitcastI32 (.insn n),
        .binary .maxI32 (.insn (n + 1)) (.const (.word (-maximum - 1))),
        .binary .minI32 (.insn (n + 2)) (.const (.word maximum)),
        .unary .bitcastU32 (.insn (n + 3)), .store (.register rd.index) (.insn (n + 4))]
  | .rori rd rs shift =>
    [.loadU32 (.register rs.index),
      .binary .rorU32 (.insn n) (.const (.word (shift.setWidth 32))),
      .store (.register rd.index) (.insn (n + 1))]
  | .bext rd rs1 rs2 =>
    [.loadU32 (.register rs1.index), .loadU32 (.register rs2.index),
      .call .compressBits [.insn n, .insn (n + 1)], .store (.register rd.index) (.insn (n + 2))]

/-- The IR of an instruction at address `a`, except for a terminal `BEQ`. -/
def Instr.nativeCode (i : Instr) (a : Word) (n : Nat) : List IrInsn :=
  match i with
  | .compute op => op.nativeCode n
  | .st rt base imm =>
    [.loadU32 (.register base.index),
      .binary .addU32 (.insn n) (.const (.word (imm.signExtend 32))),
      .loadU32 (.register rt.index),
      .call .writeMemory32 [.param, .insn (n + 1), .insn (n + 2)]] ++ exitIfStoppedCode (n + 4)
  | .stp rt1 rt2 base offset =>
    [.loadU32 (.register base.index),
      .binary .addU32 (.insn n) (.const (.word (offset.signExtend 32))),
      .binary .addU32 (.insn (n + 1)) (.const (.word TI32.instructionSize)),
      .loadU32 (.register rt1.index), .loadU32 (.register rt2.index),
      .call .writeMemory32 [.param, .insn (n + 1), .insn (n + 3)]] ++ exitIfStoppedCode (n + 6) ++
      [.call .writeMemory32 [.param, .insn (n + 2), .insn (n + 4)]] ++ exitIfStoppedCode (n + 13)
  | .flush =>
    callCode .flush .executeFlush n ++
      [.store .pc (.const (.word (a + TI32.instructionSize)))]
  | .j index =>
      [.store .pc
        (.const (.word ((a &&& 0xF0000000) ||| (index.setWidth 32 * TI32.instructionSize))))]
  | .syscall code =>
    .store .pc (.const (.word a)) :: callCode (.syscall code) .executeSyscall (n + 1)
  | .invalid => .store .pc (.const (.word a)) :: callCode .invalid .executeInvalid (n + 1)
  | .beq rs rt offset =>
    .store .pc (.const (.word a)) :: callCode (.beq rs rt offset) .executeInvalid (n + 1)

/-! The `encode` functions emit that code. -/

attribute [simp] irConstU32 irConstStatus irConstEntry irLoadU8 irLoadU32 irLoadA irStore irUnary
  irBinary irCall irIf irIfTrue irIfFalse irEnd irMerge2 irPhi2 irReturn encodePc

/-- Emitting an instruction with a result. -/
@[simp] lemma emit_apply (insn) (s : EmitState) :
    emit insn s = .ok (.insn s.code.length) { s with code := s.code ++ [insn] } := rfl

/-- Emitting an instruction without a result. -/
@[simp] lemma emit'_apply (insn) (s : EmitState) :
    emit' insn s = .ok () { s with code := s.code ++ [insn] } := rfl

/-- Emitting the check after a helper call. -/
@[simp] lemma encodeExitIfStopped_apply (s : EmitState) :
    encodeExitIfStopped s =
      .ok () { s with code := s.code ++ exitIfStoppedCode s.code.length } := by
  simp [encodeExitIfStopped,
    exitIfStoppedCode]

/-- Emitting a helper call. -/
@[simp] lemma encodeCall_apply (i : Instr) (h) (s : EmitState) :
    encodeCall .param i.toTI h s =
      .ok () { s with code := s.code ++ callCode i h s.code.length } := by
  simp [encodeCall, callCode]

/-- `registerPtr` of a register operand. -/
lemma registerPtr_apply {i : Instr} {k} {r : Reg} (h : i.operands[k]? = some r.operand)
    (s : EmitState) : registerPtr i.toTI k s = .ok (.register r.index) s := by
  have hr : (r.setWidth 32).toNat < TI32.registerCount := by
    rw [toNat_setWidth_reg]
    exact r.isLt
  simp only [registerPtr, toTI_operand, h, EState.bind_apply, check_ok, reg_operand_value]
  rw [dif_pos hr]
  simp only [toNat_setWidth_reg]
  rfl

/-- An immediate operand. -/
lemma check_operand {i : Instr} {k} {o : Operand} (h : i.operands[k]? = some o)
    (s : EmitState) : check (i.toTI.operand k) s = .ok o.value s := by
  rw [toTI_operand, h]
  rfl

/-- The code of a computing instruction. -/
lemma encodeInstruction_compute (op : Compute) (a) (s : EmitState) :
    encodeInstruction .param (Instr.compute op).toTI a s =
      .ok () { s with code := s.code ++ op.nativeCode s.code.length } := by
  cases op with
  | li rt imm =>
    simp [encodeInstruction, encodeLi, registerPtr_apply (r := rt),
      check_operand,
      Compute.nativeCode]
  | add rd rs rt =>
    simp [encodeInstruction, encodeAdd, registerPtr_apply (r := rd),
      registerPtr_apply (r := rs), registerPtr_apply (r := rt), Compute.nativeCode]
  | addi rt rs imm =>
    simp [encodeInstruction, encodeAddi, registerPtr_apply (r := rt), registerPtr_apply (r := rs),
      check_operand,
      Compute.nativeCode]
  | or rd rs rt =>
    simp [encodeInstruction, encodeOr, registerPtr_apply (r := rd),
      registerPtr_apply (r := rs), registerPtr_apply (r := rt), Compute.nativeCode]
  | ldReg rt base rm =>
    simp [encodeInstruction, encodeLdReg, registerPtr_apply (r := rt),
      registerPtr_apply (r := base), registerPtr_apply (r := rm), Compute.nativeCode]
  | ldImm rt base imm =>
    simp [encodeInstruction, encodeLdImm, registerPtr_apply (r := rt),
      registerPtr_apply (r := base), check_operand, Compute.nativeCode]
  | clz rd rs =>
    simp [encodeInstruction, encodeClz, registerPtr_apply (r := rd), registerPtr_apply (r := rs),
      Compute.nativeCode]
  | rori rd rs shift =>
    simp [encodeInstruction, encodeRori, registerPtr_apply (r := rd), registerPtr_apply (r := rs),
      check_operand,
      Compute.nativeCode]
  | bext rd rs1 rs2 =>
    simp [encodeInstruction, encodeBext, registerPtr_apply (r := rd),
      registerPtr_apply (r := rs1), registerPtr_apply (r := rs2), Compute.nativeCode]
  | ssat rd rs width =>
    have hw : (width.setWidth 32).toNat = width.toNat := by have := width.isLt; simp; omega
    have h0 : (width.setWidth 32 = 0 ∨ (width.setWidth 32).toNat ≥ TI32.wordBitCount) ↔
        width = 0 := by
      have := width.isLt
      unfold TI32.wordBitCount
      rw [hw]
      constructor
      · rintro (h | h)
        · exact BitVec.eq_of_toNat_eq (by rw [← hw, h]; rfl)
        · omega
      · rintro rfl
        exact .inl rfl
    simp only [encodeInstruction, encodeSsat, Instr.toTI_opCode, Instr.opCode, Compute.opCode,
      EState.bind_apply,
      registerPtr_apply (i := .compute (.ssat rd rs width)) (k := 0) (r := rd) rfl,
      registerPtr_apply (i := .compute (.ssat rd rs width)) (k := 1) (r := rs) rfl,
      check_operand (i := .compute (.ssat rd rs width)) (k := 2) rfl, EState.ite_apply, h0,
      Compute.nativeCode]
    by_cases hz : width = 0
    · rw [if_pos hz, if_pos hz]
      exact encodeCall_apply _ _ s
    · rw [if_neg hz, if_neg hz]
      have hm : width.toNat % 4294967296 = width.toNat := by have := width.isLt; omega
      simp [hm]

/-- The code of an instruction. -/
theorem encodeInstruction_toTI (i : Instr) (a) (s : EmitState) :
    encodeInstruction .param i.toTI a s =
      .ok () { s with code := s.code ++ i.nativeCode a s.code.length } := by
  cases i with
  | compute op => exact encodeInstruction_compute op a s
  | st rt base imm =>
    simp [encodeInstruction, encodeSt, registerPtr_apply (r := rt), registerPtr_apply (r := base),
      check_operand, Instr.nativeCode]
  | stp rt1 rt2 base offset =>
    simp [encodeInstruction, encodeStp, registerPtr_apply (r := rt1),
      registerPtr_apply (r := rt2), registerPtr_apply (r := base), check_operand,
      Instr.nativeCode, exitIfStoppedCode]
  | flush => simp [encodeInstruction, Instr.nativeCode]
  | j index =>
    simp [encodeInstruction, encodeJ, check_operand,
      Instr.nativeCode]
  | syscall code => simp [encodeInstruction, Instr.nativeCode]
  | invalid => simp [encodeInstruction, Instr.nativeCode]
  | beq rs rt offset =>
    simp [encodeInstruction, Instr.nativeCode]

/-- The IR of the instructions of a block from index `k` on. -/
def instructionsCode (start : Word) : Nat → List Instr → Nat → List IrInsn
  | _, [], _ => []
  | k, i :: is, n =>
    let code := if is.isEmpty && i.opCode == .beq then [] else i.nativeCode (wordAt start k) n
    code ++ instructionsCode start (k + 1) is (n + code.length)

/-- The code of the instructions of a block. -/
lemma encodeInstructions_toTI (start) (is : List Instr) (k) (s : EmitState) :
    encodeInstructions .param start k (is.map Instr.toTI) s =
      .ok () { s with code := s.code ++ instructionsCode start k is s.code.length } := by
  induction is generalizing k s with
  | nil => simp [encodeInstructions, instructionsCode]
  | cons i is ih =>
    have e : (is.map Instr.toTI).isEmpty = is.isEmpty := by cases is <;> rfl
    simp only [List.map_cons, encodeInstructions, instructionsCode, e, Instr.toTI_opCode]
    split
    case isTrue => simpa using ih (k + 1) s
    case isFalse =>
      rw [EState.bind_apply, ← wordAt, encodeInstruction_toTI]
      simpa using ih (k + 1)
        { s with code := s.code ++ i.nativeCode (wordAt start k) s.code.length }

/-- What the last instruction of a block gives control to: the chaining slots it loads. -/
def Instr.successors (i : Instr) (a : Word) : List Word :=
  match i with
  | .beq _ _ offset => [a + offset.signExtend 32 * TI32.instructionSize, a + TI32.instructionSize]
  | .j index => [(a &&& 0xF0000000) ||| (index.setWidth 32 * TI32.instructionSize)]
  | .invalid | .flush => []
  | _ => [a + TI32.instructionSize]

/-- The IR after a terminal `BEQ` to `taken` or else to `fallthrough`. -/
def branchCode (rs rt : Reg) (taken fallthrough : Word) (n : Nat) : List IrInsn :=
  [.loadU32 (.register rs.index), .loadU32 (.register rt.index),
    .binary .eq (.insn n) (.insn (n + 1)), .ifNode (.insn (n + 2)),
    .ifTrue (.insn (n + 3)), .loadA (.slot taken), .store .pc (.const (.word taken)), .endNode,
    .ifFalse (.insn (n + 3)), .loadA (.slot fallthrough),
    .store .pc (.const (.word fallthrough)), .endNode,
    .merge2 (.insn (n + 7)) (.insn (n + 11)), .phi2 (.insn (n + 5)) (.insn (n + 9)),
    .ret (.insn (n + 13))]

/-- The IR after the last instruction of a block, at address `a`. -/
def Instr.exitCode (i : Instr) (a : Word) (n : Nat) : List IrInsn :=
  match i with
  | .beq rs rt offset =>
    branchCode rs rt (a + offset.signExtend 32 * TI32.instructionSize)
      (a + TI32.instructionSize) n
  | .j index =>
    [.loadA (.slot ((a &&& 0xF0000000) ||| (index.setWidth 32 * TI32.instructionSize))),
      .ret (.insn n)]
  | .invalid | .flush => [.ret (.const (.entry 0))]
  | .syscall _ => [.loadA (.slot (a + TI32.instructionSize)), .ret (.insn n)]
  | _ =>
    [.store .pc (.const (.word (a + TI32.instructionSize))),
      .loadA (.slot (a + TI32.instructionSize)), .ret (.insn (n + 1))]

/-- The IR of a block. -/
def blockCode (start : Word) (is : List Instr) (last : Instr) : List IrInsn :=
  let code := instructionsCode start 0 is 0
  code ++ last.exitCode (wordAt start (is.length - 1)) code.length

/-- The cache with the slots of some addresses created. -/
def withSlots (cache : TIBasicBlockCache) (addresses : List Word) : TIBasicBlockCache :=
  addresses.foldl TIBasicBlockCache.jitEntrySlot cache

/-- The end of a block is the address after its last word. -/
lemma endAddress_sub_four {block : TIBasicBlock} {is : List Instr}
    (h : block.instructions = is.map Instr.toTI) (ne : is ≠ []) :
    block.endAddress - TI32.instructionSize = wordAt block.startAddress (is.length - 1) := by
  have hl : is.length = is.length - 1 + 1 := by
    have := List.length_pos_iff.mpr ne
    omega
  unfold TIBasicBlock.endAddress wordAt
  rw [h, List.length_map, hl, Nat.succ_mul, BitVec.ofNat_add, ← BitVec.add_assoc]
  exact BitVec.add_sub_cancel _ _

/-- The end of a block is the address after its last word. -/
lemma endAddress_eq {block : TIBasicBlock} {is : List Instr}
    (h : block.instructions = is.map Instr.toTI) (ne : is ≠ []) :
    block.endAddress = wordAt block.startAddress (is.length - 1) + TI32.instructionSize := by
  rw [← endAddress_sub_four h ne, BitVec.sub_add_cancel]

/-- The chaining slot of an address is loaded after it is created. -/
@[simp] lemma encodeJitEntryLoad_apply (a) (s : EmitState) :
    encodeJitEntryLoad a s =
      .ok (.insn s.code.length)
        { code := s.code ++ [.loadA (.slot a)], cache := s.cache.jitEntrySlot a } := rfl

section exit

variable {block : TIBasicBlock} {a : Word}

/-- After an instruction that does not end a block, control goes to the next address. -/
lemma encodeNextJitEntry_default {last : Instr}
    (hl : block.instructions.getLast? = some last.toTI) (ne : ¬ last.Ends) :
    encodeNextJitEntry block = encodeJitEntryLoad block.endAddress := by
  have ho : TIBasicBlockCache.endsBlock last.toTI.opCode = false := by
    simpa [Instr.Ends] using ne
  unfold encodeNextJitEntry
  rw [hl]
  generalize last.toTI = instruction at ho
  obtain ⟨opCode, _, _⟩ := instruction
  cases opCode <;> first | rfl | cases ho

/-- The end of a block by a branch: two slots, of which the condition selects one. -/
lemma encodeNextJitEntry_beq {rs rt offset}
    (hl : block.instructions.getLast? = some (Instr.beq rs rt offset).toTI)
    (ha : block.endAddress = a + TI32.instructionSize) (s : EmitState) :
    (encodeNextJitEntry block >>= irReturn) s =
      .ok () {
        code := s.code ++ (Instr.beq rs rt offset).exitCode a s.code.length
        cache := withSlots s.cache ((Instr.beq rs rt offset).successors a) } := by
  have hs : a + TI32.instructionSize - TI32.instructionSize = a := BitVec.add_sub_cancel _ _
  unfold encodeNextJitEntry
  rw [hl, ha]
  simp only [Instr.toTI_opCode, Instr.opCode, hs, EState.bind_apply,
    registerPtr_apply (i := .beq rs rt offset) (k := 0) (r := rs) rfl,
    registerPtr_apply (i := .beq rs rt offset) (k := 1) (r := rt) rfl,
    check_operand (i := .beq rs rt offset) (k := 2) rfl]
  simp only [irLoadU32, irBinary, irIf, irIfTrue, irStore, irConstU32, irEnd, irIfFalse, irMerge2,
    irPhi2, irReturn, emit_apply, emit'_apply, encodeJitEntryLoad_apply, List.append_assoc,
    List.length_append, List.length_cons, List.length_nil, List.cons_append, List.nil_append]
  rfl

/-- The end of a block by a jump. -/
lemma encodeNextJitEntry_j {index}
    (hl : block.instructions.getLast? = some (Instr.j index).toTI)
    (ha : block.endAddress = a + TI32.instructionSize) (s : EmitState) :
    (encodeNextJitEntry block >>= irReturn) s =
      .ok () {
        code := s.code ++ (Instr.j index).exitCode a s.code.length
        cache := withSlots s.cache ((Instr.j index).successors a) } := by
  have hs : a + TI32.instructionSize - TI32.instructionSize = a := BitVec.add_sub_cancel _ _
  unfold encodeNextJitEntry
  rw [hl, ha]
  simp only [Instr.toTI_opCode, Instr.opCode, hs, EState.bind_apply,
    check_operand (i := .j index) (k := 0) rfl, encodeJitEntryLoad_apply, irReturn, emit'_apply,
    List.append_assoc]
  rfl

/-- The end of a block by `SYSCALL`, `FLUSH` or an invalid instruction. -/
lemma encodeNextJitEntry_other {last : Instr}
    (hl : block.instructions.getLast? = some last.toTI)
    (ha : block.endAddress = a + TI32.instructionSize)
    (other : (∃ code, last = .syscall code) ∨ last = .flush ∨ last = .invalid) (s : EmitState) :
    (encodeNextJitEntry block >>= irReturn) s =
      .ok () {
        code := s.code ++ last.exitCode a s.code.length
        cache := withSlots s.cache (last.successors a) } := by
  have hs : a + TI32.instructionSize - TI32.instructionSize = a := BitVec.add_sub_cancel _ _
  unfold encodeNextJitEntry
  rw [hl, ha]
  obtain ⟨code, rfl⟩ | rfl | rfl := other
  · simp only [Instr.toTI_opCode, Instr.opCode, hs, EState.bind_apply, encodeJitEntryLoad_apply,
      irReturn, emit'_apply, List.append_assoc]
    rfl
  · simp only [Instr.toTI_opCode, Instr.opCode, EState.bind_apply, EState.pure_apply, irReturn,
      emit'_apply]
    rfl
  · simp only [Instr.toTI_opCode, Instr.opCode, EState.bind_apply, EState.pure_apply, irReturn,
      emit'_apply]
    rfl

end exit

/-- The end of a block, which is the part of `compileBlock` after its loop. -/
def encodeExit (block : TIBasicBlock) : Emit Unit := do
  if (block.instructions.getLast?).all (fun last => !updatesPc last.opCode) then
    encodePc block.endAddress
  irReturn (← encodeNextJitEntry block)

/-- The code of the end of a block. -/
lemma encodeExit_toTI {block : TIBasicBlock} {last : Instr} {a}
    (hl : block.instructions.getLast? = some last.toTI)
    (ha : block.endAddress = a + TI32.instructionSize) (s : EmitState) :
    encodeExit block s =
      .ok () {
        code := s.code ++ last.exitCode a s.code.length
        cache := withSlots s.cache (last.successors a) } := by
  by_cases he : last.Ends
  · have hu : updatesPc last.opCode = true := he
    have e : encodeExit block s = (encodeNextJitEntry block >>= irReturn) s := by
      unfold encodeExit
      rw [hl, Option.all_some, Instr.toTI_opCode, hu]
      rfl
    rw [e]
    cases last with
    | compute op => cases op <;> cases he
    | st | stp => cases he
    | beq => exact encodeNextJitEntry_beq hl ha s
    | j => exact encodeNextJitEntry_j hl ha s
    | syscall code => exact encodeNextJitEntry_other hl ha (.inl ⟨code, rfl⟩) s
    | flush => exact encodeNextJitEntry_other hl ha (.inr (.inl rfl)) s
    | invalid => exact encodeNextJitEntry_other hl ha (.inr (.inr rfl)) s
  · have hu : updatesPc last.opCode = false := Bool.eq_false_iff.mpr he
    have e : encodeExit block s =
        (encodePc (a + TI32.instructionSize) >>= fun _ =>
          encodeJitEntryLoad (a + TI32.instructionSize) >>= irReturn) s := by
      unfold encodeExit
      rw [hl, Option.all_some, Instr.toTI_opCode, hu, encodeNextJitEntry_default hl he, ha]
      rfl
    rw [e]
    simp only [EState.bind_apply, encodePc, irStore, irConstU32, irReturn, emit'_apply,
      encodeJitEntryLoad_apply, List.append_assoc, List.length_append, List.length_cons,
      List.length_nil, List.cons_append, List.nil_append]
    cases last with
    | compute | st | stp => rfl
    | _ => exact absurd rfl he

/-- A block emits its code and creates the slots of its successors. -/
theorem emitBlock_toTI {block : TIBasicBlock} {is : List Instr} {last}
    (h : block.instructions = is.map Instr.toTI) (hl : is.getLast? = some last) (cache) :
    emitBlock block { cache := cache } =
      .ok () {
        code := blockCode block.startAddress is last
        cache := withSlots cache
          (last.successors (wordAt block.startAddress (is.length - 1))) } := by
  have ne : is ≠ [] := by rintro rfl; simp at hl
  have hlast : block.instructions.getLast? = some last.toTI := by
    rw [h, List.getLast?_map, hl]
    rfl
  have e : emitBlock block { cache := cache } =
      (encodeInstructions .param block.startAddress 0 block.instructions >>= fun _ =>
        encodeExit block) { cache := cache } := rfl
  rw [e, EState.bind_apply, h, encodeInstructions_toTI]
  exact encodeExit_toTI hlast (endAddress_eq h ne) _

end ToyIsa
