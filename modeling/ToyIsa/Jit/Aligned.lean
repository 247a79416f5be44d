import ToyIsa.Jit.Emit

/-!
# Instruction addresses

The PC is computed by the `execute` functions, by the encoders when a block is compiled, and from
the address of the block. All of them add, multiply and mask modulo `2 ^ 32`, which keeps the
multiples of the size of an instruction.
-/

namespace ToyIsa

open ExecutionContext

variable {σ : Type}

/-- A multiple of the size of an instruction. -/
def Aligned (a : Word) : Prop := a.toNat % 4 = 0

instance (a) : Decidable (Aligned a) := inferInstanceAs (Decidable (_ = _))

/-- The sum of aligned addresses. -/
lemma Aligned.add {a b : Word} (ha : Aligned a) (hb : Aligned b) : Aligned (a + b) := by
  unfold Aligned at *
  rw [BitVec.toNat_add]
  omega

/-- The address of the next instruction. -/
lemma Aligned.next {a : Word} (h : Aligned a) : Aligned (a + TI32.instructionSize) :=
  h.add (by decide)

/-- An offset in instructions. -/
lemma aligned_mul (offset : Word) : Aligned (offset * TI32.instructionSize) := by
  have four : TI32.instructionSize.toNat = 4 := rfl
  unfold Aligned
  rw [BitVec.toNat_mul, four]
  omega

/-- A jump inside the region of the PC. -/
lemma aligned_jump (a index : Word) :
    Aligned ((a &&& 0xF0000000) ||| (index * TI32.instructionSize)) := by
  have region : (0xF0000000 : Word).toNat % 2 ^ 2 = 0 := rfl
  have offset : (index * TI32.instructionSize).toNat % 2 ^ 2 = 0 := aligned_mul index
  have low : ((a &&& 0xF0000000) ||| (index * TI32.instructionSize)).toNat % 2 ^ 2 = 0 := by
    rw [BitVec.toNat_or, Nat.or_mod_two_pow, offset, BitVec.toNat_and, Nat.and_mod_two_pow, region,
      Nat.and_zero]
    rfl
  exact low

/-- The words of a block at an aligned address. -/
lemma aligned_wordAt {a : Word} (h : Aligned a) (k) : Aligned (wordAt a k) := by
  induction k with
  | zero => rwa [wordAt_zero]
  | succ k ih =>
    rw [← wordAt_add_four]
    exact ih.add (by decide)

/-- The PC after an instruction. -/
lemma Instr.nextPc_aligned (i : Instr) {c : ExecutionContext σ} (h : Aligned c.cpu.pc) :
    Aligned (i.nextPc c) := by
  cases i with
  | beq rs rt offset =>
    by_cases equal : c.reg rs = c.reg rt
    · have taken : (Instr.beq rs rt offset).nextPc c
          = c.cpu.pc + offset.signExtend 32 * TI32.instructionSize := if_pos equal
      rw [taken]
      exact h.add (aligned_mul _)
    · have fallthrough : (Instr.beq rs rt offset).nextPc c = c.cpu.pc + TI32.instructionSize :=
        if_neg equal
      rw [fallthrough]
      exact h.next
  | j index => exact aligned_jump _ _
  | syscall code =>
    by_cases running : c.state.status = .running
    · have next : (Instr.syscall code).nextPc c = c.cpu.pc + TI32.instructionSize := if_pos running
      rw [next]
      exact h.next
    · have kept : (Instr.syscall code).nextPc c = c.cpu.pc := if_neg running
      rwa [kept]
  | _ => exact h.next

/-- The chaining slots that the code of a block loads. -/
lemma Instr.successors_aligned (i : Instr) {a : Word} (h : Aligned a) :
    ∀ s ∈ i.successors a, Aligned s := by
  cases i with
  | beq rs rt offset =>
    have both : ∀ s ∈ [a + offset.signExtend 32 * TI32.instructionSize, a + TI32.instructionSize],
        Aligned s :=
      List.forall_mem_cons.mpr ⟨h.add (aligned_mul _), List.forall_mem_singleton.mpr h.next⟩
    exact both
  | j index =>
    intro s mem
    rw [List.mem_singleton.mp mem]
    exact aligned_jump _ _
  | invalid | flush => exact fun s mem => absurd mem List.not_mem_nil
  | _ =>
    intro s mem
    rw [List.mem_singleton.mp mem]
    exact h.next

/-! Compiled code. -/

/-- The instruction stores no address in the PC but aligned ones. -/
def IrInsn.StoresAligned : IrInsn → Prop
  | .store .pc v => ∃ w, v = .const (.word w) ∧ Aligned w
  | _ => True

def CodeAligned (code : List IrInsn) : Prop := ∀ insn ∈ code, insn.StoresAligned

/-- No code stores nothing. -/
@[simp] lemma codeAligned_nil : CodeAligned [] := fun _ mem => absurd mem List.not_mem_nil

/-- The first instruction and the others. -/
@[simp] lemma codeAligned_cons {insn code} :
    CodeAligned (insn :: code) ↔ insn.StoresAligned ∧ CodeAligned code :=
  List.forall_mem_cons

/-- Two pieces of code. -/
@[simp] lemma codeAligned_append {code code'} :
    CodeAligned (code ++ code') ↔ CodeAligned code ∧ CodeAligned code' :=
  List.forall_mem_append

/-- A store of an address that is known when the block is compiled. -/
@[simp] lemma storesAligned_pc {w : Word} :
    (IrInsn.store .pc (.const (.word w))).StoresAligned ↔ Aligned w := by
  constructor
  · rintro ⟨_, ⟨⟩, h⟩
    exact h
  · exact fun h => ⟨w, rfl, h⟩

/-- The check after a helper call stores no address. -/
lemma exitIfStoppedCode_aligned (n) : CodeAligned (exitIfStoppedCode n) := by
  simp [exitIfStoppedCode, IrInsn.StoresAligned]

/-- A helper call stores aligned addresses only. -/
lemma callCode_aligned (i h n) : CodeAligned (callCode i h n) := by
  simp [callCode, exitIfStoppedCode_aligned, IrInsn.StoresAligned]

/-- Computing instructions do not store the PC. -/
lemma Compute.nativeCode_aligned (op : Compute) (n) : CodeAligned (op.nativeCode n) := by
  cases op with
  | ssat rd rs width =>
    simp only [nativeCode]
    -- a width of zero is left to the interpreter's function
    split
    · exact callCode_aligned _ _ _
    · simp [IrInsn.StoresAligned]
  | _ => simp [nativeCode, exitIfStoppedCode_aligned, IrInsn.StoresAligned]

/-- The code of an instruction. -/
lemma Instr.nativeCode_aligned (i : Instr) {a : Word} (h : Aligned a) (n) :
    CodeAligned (i.nativeCode a n) := by
  cases i with
  | compute op => exact op.nativeCode_aligned n
  | st | stp => simp [nativeCode, exitIfStoppedCode_aligned, IrInsn.StoresAligned]
  | flush =>
    exact codeAligned_append.mpr
      ⟨callCode_aligned _ _ _, codeAligned_cons.mpr ⟨storesAligned_pc.mpr h.next, codeAligned_nil⟩⟩
  | j index =>
    exact codeAligned_cons.mpr ⟨storesAligned_pc.mpr (aligned_jump _ _), codeAligned_nil⟩
  | syscall | invalid | beq =>
    exact codeAligned_cons.mpr ⟨storesAligned_pc.mpr h, callCode_aligned _ _ _⟩

/-- The code of the instructions of a block. -/
lemma instructionsCode_aligned {start : Word} (h : Aligned start) (k is n) :
    CodeAligned (instructionsCode start k is n) := by
  induction is generalizing k n with
  | nil => exact codeAligned_nil
  | cons i is ih =>
    unfold instructionsCode
    refine codeAligned_append.mpr ⟨?_, ih _ _⟩
    split
    · exact codeAligned_nil
    · exact i.nativeCode_aligned (aligned_wordAt h k) n

/-- The code at the end of a block. -/
lemma branchCode_aligned (rs rt) {taken fallthrough : Word} (ht : Aligned taken)
    (hf : Aligned fallthrough) (n) : CodeAligned (branchCode rs rt taken fallthrough n) := by
  simp only [branchCode, codeAligned_cons, codeAligned_nil, storesAligned_pc, ht, hf]
  simp only [IrInsn.StoresAligned, and_self]

/-- The end of a block stores aligned addresses only. -/
lemma Instr.exitCode_aligned (i : Instr) {a : Word} (h : Aligned a) (n) :
    CodeAligned (i.exitCode a n) := by
  have loads (s m) : CodeAligned [.loadA (.slot s), .ret (.insn m)] :=
    codeAligned_cons.mpr ⟨trivial, codeAligned_cons.mpr ⟨trivial, codeAligned_nil⟩⟩
  cases i with
  | beq rs rt offset => exact branchCode_aligned rs rt (h.add (aligned_mul _)) h.next n
  | j | syscall => exact loads _ _
  | invalid | flush => exact codeAligned_cons.mpr ⟨trivial, codeAligned_nil⟩
  | compute | st | stp => exact codeAligned_cons.mpr ⟨storesAligned_pc.mpr h.next, loads _ _⟩

/-- The code of a block. -/
lemma blockCode_aligned {start : Word} (h : Aligned start) (is last) :
    CodeAligned (blockCode start is last) :=
  codeAligned_append.mpr
    ⟨instructionsCode_aligned h _ _ _, last.exitCode_aligned (aligned_wordAt h _) _⟩

end ToyIsa
