import ToyIsa.Block.Enter
import ToyIsa.Toy.Scripted

/-!
# Defined operations

The operators of `BitVec` are total where those of C++ are not: a shift of a 32-bit value by 32 or
more is undefined behaviour, and the assertions of `bitutils.hpp` exclude some widths. `Checked` has
the functions that shift by a computed amount again, with every shift and every assertion checked,
and they compute the same. Operands, registers and memory are checked where the model uses them, so
there an undefined operation is the failure `undefined`.
-/

namespace ToyIsa

namespace Checked

def shiftLeft (value : Word) (count : Nat) : Except Failure Word :=
  if count < TI32.wordBitCount then .ok (value <<< count) else .error .undefined

def shiftRight (value : Word) (count : Nat) : Except Failure Word :=
  if count < TI32.wordBitCount then .ok (value >>> count) else .error .undefined

/-- `assert`. -/
def assert (p : Prop) [Decidable p] : Except Failure Unit :=
  if p then .ok () else .error .undefined

def makeMask (width : Nat) : Except Failure Word := do
  assert (width ≤ TI32.wordBitCount)
  if width = TI32.wordBitCount then return ~~~0
  return (← shiftLeft 1 width) - 1

def extractBits (word : Word) (offset width : Nat) : Except Failure Word := do
  assert (offset ≤ TI32.wordBitCount)
  assert (width ≤ TI32.wordBitCount - offset)
  if offset = TI32.wordBitCount then return 0
  return (← shiftRight word offset) &&& (← makeMask width)

def signExtend (value : Word) (width : Nat) : Except Failure Word := do
  assert (width ≠ 0 ∧ width ≤ TI32.wordBitCount)
  let mask ← makeMask width
  let value := value &&& mask
  if width = TI32.wordBitCount then return value
  let signBit ← shiftLeft 1 (width - 1)
  return if value &&& signBit ≠ 0 then value ||| ~~~mask else value

def saturateSigned (value width : Word) : Except Failure Word :=
  if width = 0 ∨ width.toNat ≥ TI32.wordBitCount then
    .error (.simulation .invalidInstruction "[EXECUTE] SSAT width must be in range 1..31")
  else do
    let maximum ← makeMask (width.toNat - 1)
    let minimum := ~~~maximum
    let signBit ← shiftLeft 1 (TI32.wordBitCount - 1)
    if value &&& signBit = 0 then return if value > maximum then maximum else value
    else return if value < minimum then minimum else value

def rotateRight (value shift : Word) : Except Failure Word :=
  if shift = 0 then .ok value
  else do
    return (← shiftRight value shift.toNat) |||
      (← shiftLeft value (BitVec.ofNat 32 TI32.wordBitCount - shift).toNat)

def compressStep (value mask : Word) (state : Word × Nat) (inputBit : Nat) :
    Except Failure (Word × Nat) := do
  if mask &&& (← shiftLeft 1 inputBit) ≠ 0 then
    let bit := (← shiftRight value inputBit) &&& 1
    return (state.1 ||| (← shiftLeft bit state.2), state.2 + 1)
  else return state

def compressBits (value mask : Word) : Except Failure Word := do
  return (← (List.range TI32.wordBitCount).foldlM (compressStep value mask) (0, 0)).1

/-- The constants that `encodeSsat` computes. -/
def ssatMaximum (width : Word) : Except Failure Word := do
  return (← shiftLeft 1 (width.toNat - 1)) - 1

end Checked

open Checked

/-! Checks that pass. -/

/-- A shift by less than the width is defined. -/
lemma shiftLeft_ok {count} (h : count < TI32.wordBitCount) (value) :
    shiftLeft value count = .ok (value <<< count) := if_pos h

/-- A shift by less than the width is defined. -/
lemma shiftRight_ok {count} (h : count < TI32.wordBitCount) (value) :
    shiftRight value count = .ok (value >>> count) := if_pos h

/-- An assertion that holds. -/
lemma assert_ok {p : Prop} [Decidable p] (h : p) : assert p = .ok () := if_pos h

/-- `makeMask` shifts below the width of the word. -/
lemma makeMask_defined {width} (h : width ≤ TI32.wordBitCount) :
    Checked.makeMask width = .ok (ToyIsa.makeMask width h) := by
  unfold Checked.makeMask ToyIsa.makeMask
  rw [assert_ok h]
  by_cases full : width = TI32.wordBitCount
  · simp only [full]
    rfl
  · simp only [if_neg full, shiftLeft_ok (Nat.lt_of_le_of_ne h full)]
    rfl

/-- So does `extractBits`. -/
lemma extractBits_defined (word) {offset width}
    (h : offset ≤ TI32.wordBitCount ∧ width ≤ TI32.wordBitCount - offset) :
    Checked.extractBits word offset width = .ok (ToyIsa.extractBits word offset width h) := by
  unfold Checked.extractBits ToyIsa.extractBits
  rw [assert_ok h.1, assert_ok h.2]
  by_cases full : offset = TI32.wordBitCount
  · simp only [full]
    rfl
  · have hw : width ≤ TI32.wordBitCount := Nat.le_trans h.2 (Nat.sub_le _ _)
    simp only [if_neg full, shiftRight_ok (Nat.lt_of_le_of_ne h.1 full), makeMask_defined hw]
    rfl

/-- So does `signExtend`. -/
lemma signExtend_defined (value) {width} (h : width ≠ 0 ∧ width ≤ TI32.wordBitCount) :
    Checked.signExtend value width = .ok (ToyIsa.signExtend value width h) := by
  unfold Checked.signExtend ToyIsa.signExtend
  rw [assert_ok h, makeMask_defined h.2]
  by_cases full : width = TI32.wordBitCount
  · simp only [full]
    rfl
  · have lt : width - 1 < TI32.wordBitCount := Nat.lt_of_lt_of_le (by omega) h.2
    simp only [if_neg full, shiftLeft_ok lt]
    rfl

/-- `saturateSigned` throws before it shifts out of range. -/
lemma saturateSigned_defined (value width) :
    Checked.saturateSigned value width = ExecutorDetail.saturateSigned value width := by
  unfold Checked.saturateSigned ExecutorDetail.saturateSigned
  by_cases out : width = 0 ∨ width.toNat ≥ TI32.wordBitCount
  · rw [if_pos out, dif_pos out]
  · have hw : width.toNat - 1 ≤ TI32.wordBitCount := by omega
    rw [if_neg out, dif_neg out, makeMask_defined hw]
    have sign : TI32.wordBitCount - 1 < TI32.wordBitCount := by decide
    simp only [shiftLeft_ok sign, bind, Except.bind]
    split <;> rfl

/-- `rotateRight` does not shift by the whole width. -/
lemma rotateRight_defined (value) {shift : Word} (h : shift.toNat < TI32.wordBitCount) :
    Checked.rotateRight value shift = ExecutorDetail.rotateRight value shift := by
  unfold Checked.rotateRight ExecutorDetail.rotateRight
  by_cases zero : shift = 0
  · rw [if_pos zero, if_pos zero]
  · have pos : shift.toNat ≠ 0 := fun e => zero (BitVec.eq_of_toNat_eq e)
    have left : (BitVec.ofNat 32 TI32.wordBitCount - shift).toNat =
        TI32.wordBitCount - shift.toNat := by
      unfold TI32.wordBitCount at h ⊢
      rw [BitVec.toNat_sub, BitVec.toNat_ofNat]
      omega
    have lt : TI32.wordBitCount - shift.toNat < TI32.wordBitCount := by
      unfold TI32.wordBitCount at h ⊢
      omega
    rw [if_neg zero, if_neg zero, if_pos h, left]
    simp only [shiftRight_ok h, shiftLeft_ok lt]
    rfl

/-- A turn of the loop of `compressBits` writes one bit at most. -/
lemma compressStep_defined (value mask) {state : Word × Nat} {inputBit}
    (h : inputBit < TI32.wordBitCount) (le : state.2 ≤ inputBit) :
    Checked.compressStep value mask state inputBit =
        .ok (ExecutorDetail.compressStep value mask state inputBit) ∧
      (ExecutorDetail.compressStep value mask state inputBit).2 ≤ inputBit + 1 := by
  have out : state.2 < TI32.wordBitCount := Nat.lt_of_le_of_lt le h
  unfold Checked.compressStep ExecutorDetail.compressStep
  rw [shiftLeft_ok h, shiftRight_ok h]
  by_cases set : mask &&& (1 : Word) <<< inputBit ≠ 0
  · simp only [bind, Except.bind, if_pos set, shiftLeft_ok out]
    exact ⟨rfl, Nat.succ_le_succ le⟩
  · simp only [bind, Except.bind, if_neg set]
    exact ⟨rfl, Nat.le_succ_of_le le⟩

/-- The loop of `compressBits` writes no more bits than it has read. -/
lemma compressSteps_defined (value mask) {n} (h : n ≤ TI32.wordBitCount) :
    let state := (List.range n).foldl (ExecutorDetail.compressStep value mask) (0, 0)
    (List.range n).foldlM (Checked.compressStep value mask) (0, 0) = Except.ok state ∧
      state.2 ≤ n := by
  induction n with
  | zero => exact ⟨rfl, Nat.le_refl 0⟩
  | succ n ih =>
    obtain ⟨run, le⟩ := ih (Nat.le_of_succ_le h)
    obtain ⟨step, le'⟩ := compressStep_defined value mask h le
    simp only [List.range_succ, List.foldlM_append, List.foldl_append, run]
    simp only [bind, Except.bind, List.foldlM_cons, List.foldlM_nil, List.foldl_cons,
      List.foldl_nil, step]
    exact ⟨rfl, le'⟩

/-- `compressBits` shifts below the width of the word. -/
lemma compressBits_defined (value mask) :
    Checked.compressBits value mask = .ok (ExecutorDetail.compressBits value mask) := by
  unfold Checked.compressBits ExecutorDetail.compressBits
  rw [(compressSteps_defined value mask (Nat.le_refl _)).1]
  rfl

/-- `encodeSsat` shifts below the width of the word. -/
lemma ssatMaximum_defined {width : Word}
    (h : ¬ (width = 0 ∨ width.toNat ≥ TI32.wordBitCount)) :
    Checked.ssatMaximum width = .ok ((1 : Word) <<< (width.toNat - 1) - 1) := by
  have lt : width.toNat - 1 < TI32.wordBitCount := by omega
  unfold Checked.ssatMaximum
  rw [shiftLeft_ok lt]
  rfl

/-- The helpers of the instructions use defined operations only, whatever they are called with. A
rotation is called with less than the width of the word. -/
structure HelpersDefined : Prop where
  makeMask : ∀ width h, Checked.makeMask width = .ok (ToyIsa.makeMask width h)
  extractBits : ∀ word offset width h,
    Checked.extractBits word offset width = .ok (ToyIsa.extractBits word offset width h)
  signExtend : ∀ value width h,
    Checked.signExtend value width = .ok (ToyIsa.signExtend value width h)
  saturateSigned : ∀ value width,
    Checked.saturateSigned value width = ExecutorDetail.saturateSigned value width
  rotateRight : ∀ value shift : Word, shift.toNat < TI32.wordBitCount →
    Checked.rotateRight value shift = ExecutorDetail.rotateRight value shift
  compressBits : ∀ value mask,
    Checked.compressBits value mask = .ok (ExecutorDetail.compressBits value mask)
  ssatMaximum : ∀ width : Word, ¬ (width = 0 ∨ width.toNat ≥ TI32.wordBitCount) →
    Checked.ssatMaximum width = .ok ((1 : Word) <<< (width.toNat - 1) - 1)
  ranges : ∀ (m : TIMemory) address byteCount range,
    m.readableRange address byteCount = .ok range ∨ m.writableRange address byteCount = .ok range →
    range.data + range.size ≤ m.size

/-- A range that is handed out lies in the memory. -/
lemma range_inside {m : TIMemory} {address byteCount range}
    (h : m.readableRange address byteCount = .ok range ∨
      m.writableRange address byteCount = .ok range) :
    range.data + range.size ≤ m.size := by
  have inside (h : m.readableRange address byteCount = .ok range) :
      range.data + range.size ≤ m.size := by
    unfold TIMemory.readableRange at h
    rw [TIMemory.checkBounds_eq] at h
    split at h
    case isTrue bounds =>
      cases h
      exact bounds.1
    case isFalse => cases h
  obtain h | h := h <;> exact inside h

/-- Every helper is defined where it is called. -/
lemma helpers_defined : HelpersDefined where
  makeMask _ h := makeMask_defined h
  extractBits word _ _ h := extractBits_defined word h
  signExtend value _ h := signExtend_defined value h
  saturateSigned := saturateSigned_defined
  rotateRight value _ h := rotateRight_defined value h
  compressBits := compressBits_defined
  ssatMaximum _ h := ssatMaximum_defined h
  ranges _ _ _ _ h := range_inside h

variable {σ : Type} [Host σ]

/-- An instruction fails with a `SimulationException` only. -/
lemma Instr.exec_isSimulation {i : Instr} {c d : ExecutionContext σ} {e}
    (h : i.exec c = .error e d) : e.IsSimulation :=
  (Instr.effect_error (Instr.exec_error_iff.mp h)).1

/-- The native code of one instruction ends with an entry point. -/
lemma nativeCode_returns {ir : IrLibrary} (doc : ir.Documented) (level) (i : Instr)
    (c : ExecutionContext σ) (running : c.state.status = .running) :
    ∃ s, emitBlock { startAddress := c.cpu.pc, instructions := [i.toTI] } { cache := c.blockCache }
        = .ok () s ∧
      ∃ entry d, evalIr ir level s.code {} (c.withCache s.cache) = .ok entry d := by
  let slots := withSlots c.blockCache (i.successors (wordAt c.cpu.pc 0))
  have emitted : emitBlock { startAddress := c.cpu.pc, instructions := [i.toTI] }
      { cache := c.blockCache } = .ok () { code := blockCode c.cpu.pc [i] i, cache := slots } :=
    emitBlock_toTI rfl rfl c.blockCache
  have loaded : HasSlots (c.withCache slots).blockCache
      (i.successors (wordAt (c.withCache slots).cpu.pc ([i].length - 1))) :=
    hasSlots_withSlots _ _
  have run : evalIr ir level (blockCode c.cpu.pc [i] i) {} (c.withCache slots) = _ :=
    eval_blockCode (c := c.withCache slots) doc (.last i) List.getLast?_singleton running loaded
  refine ⟨_, emitted, ?_⟩
  cases x : nativeRun (c.withCache slots).cpu.pc [i] (c.withCache slots) with
  | ok d =>
    rw [x] at run
    exact ⟨_, d, run⟩
  | error d =>
    rw [x] at run
    exact ⟨_, d, run⟩

/-- No word makes the interpreter leave its defined operations: the `execute` functions, called by
either interpreting engine, fail with a `SimulationException` only, the JIT compiles every
instruction, and its native code ends with an entry point. -/
theorem decoded_instruction_defined (word) (c : ExecutionContext σ) :
    let instruction := TIDecoder.decode word
    HelpersDefined ∧
    (∀ e d, executeInstructionSwitch instruction c = .error e d → e.IsSimulation) ∧
    (∃ handler, instruction.threadedHandler = some handler ∧
      ∀ e d, handler.execute instruction c = .error e d → e.IsSimulation) ∧
    (∀ address s, ∃ s', encodeInstruction .param instruction address s = .ok () s') ∧
    (∀ ir level, IrLibrary.Documented ir → c.state.status = .running →
      ∃ s, emitBlock { startAddress := c.cpu.pc, instructions := [instruction] }
          { cache := c.blockCache } = .ok () s ∧
        ∃ entry d, evalIr ir level s.code {} (c.withCache s.cache) = .ok entry d) := by
  intro instruction
  obtain ⟨i, decoded⟩ := decode_eq_toTI word
  have hi : instruction = i.toTI := decoded
  rw [hi]
  refine ⟨helpers_defined, fun e d h => ?_, ⟨_, rfl, fun e d h => ?_⟩, fun address s => ?_,
    fun ir level doc running => nativeCode_returns doc level i c running⟩
  · rw [executeInstructionSwitch_toTI] at h
    exact Instr.exec_isSimulation h
  · rw [threadedHandler_execute] at h
    exact Instr.exec_isSimulation h
  · exact ⟨_, encodeInstruction_toTI i address s⟩

/-- A context with a memory of eight bytes. -/
def eightBytes : ExecutionContext Script := .ofMemory (.create 8)

/-- A load from the last word of the address space, which faults. -/
theorem decoded_instruction_defined_load :
    (∃ e d, executeInstructionSwitch (TIDecoder.decode 0xCC013FFC) eightBytes = .error e d ∧
      e.IsSimulation) ∧
    ∃ s, emitBlock { startAddress := 0, instructions := [TIDecoder.decode 0xCC013FFC] }
        { cache := {} } = .ok () s ∧
      ∃ entry d, evalIr .reference 2 s.code {} (eightBytes.withCache s.cache) = .ok entry d := by
  obtain ⟨e, d, failed⟩ : ∃ e d, executeInstructionSwitch (TIDecoder.decode 0xCC013FFC)
    eightBytes = .error e d := ⟨_, _, rfl⟩
  obtain ⟨-, fails, -, -, native⟩ := decoded_instruction_defined 0xCC013FFC eightBytes
  exact ⟨⟨e, d, failed, fails e d failed⟩, native .reference 2 IrLibrary.reference_documented rfl⟩

end ToyIsa
