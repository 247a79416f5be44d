import ToyIsa.Isa.Frame
import ToyIsa.Toy.Scripted

/-!
# What a faulting instruction has done

Every instruction checks its operands, its addresses and its system call before it changes
anything, so a fault leaves the context as it was. The exception is `STP`, which stores its two
words one after the other: if only the second address is bad, the first word stays stored.
-/

namespace ToyIsa

open ExecutionContext

variable {σ : Type}

/-- The first word of an `STP` has been stored and the second one faults with `e`. -/
structure HalfStored (rt1 rt2 base : Reg) (offset : BitVec 11) (e : Failure)
    (c d : ExecutionContext σ) : Prop where
  first : TIMemory.write32 (c.reg base + offset.signExtend 32) (c.reg rt1) c.memory =
    .ok () d.memory
  second : TIMemory.write32 (c.reg base + offset.signExtend 32 + 4) (c.reg rt2) d.memory =
    .error e d.memory
  rest : d = c.withMemory d.memory

/-- Two stores that fail have made the first one or none. -/
lemma storeAll_pair_error {a1 a2 v1 v2 e} {m m' : TIMemory}
    (h : storeAll [(a1, v1), (a2, v2)] m = .error e m') :
    m' = m ∨ (TIMemory.write32 a1 v1 m = .ok () m' ∧ TIMemory.write32 a2 v2 m' = .error e m') := by
  simp only [storeAll, EState.bind_apply] at h
  cases w1 : TIMemory.write32 a1 v1 m with
  | error e1 m1 =>
    rw [w1] at h
    cases h
    exact .inl (TIMemory.write32_error w1).1
  | ok u m1 =>
    rw [w1] at h
    simp only at h
    cases w2 : TIMemory.write32 a2 v2 m1 with
    | ok u m2 => rw [w2] at h; cases h
    | error e2 m2 =>
      rw [w2] at h
      cases h
      obtain ⟨rfl, _⟩ := TIMemory.write32_error w2
      exact .inr ⟨rfl, w2⟩

/-- One store that fails has changed nothing. -/
lemma storeAll_single_error {a v e} {m m' : TIMemory} (h : storeAll [(a, v)] m = .error e m') :
    m' = m := by
  simp only [storeAll, EState.bind_apply] at h
  cases w : TIMemory.write32 a v m with
  | error e1 m1 =>
    rw [w] at h
    cases h
    exact (TIMemory.write32_error w).1
  | ok u m1 => rw [w] at h; cases h

/-- A failing list of stores leaves the context with the memory that it leaves. -/
lemma storing_error {c d : ExecutionContext σ} {stores e} (h : c.storing stores = .error e d) :
    storeAll stores c.memory = .error e d.memory ∧ d = c.withMemory d.memory := by
  rw [storing, onMemory_apply] at h
  cases s : storeAll stores c.memory with
  | ok u m => rw [s] at h; cases h
  | error e' m =>
    rw [s] at h
    cases h
    exact ⟨rfl, rfl⟩

variable [Host σ]

/-- A failing instruction has changed nothing or is an `STP` that has stored its first word. -/
lemma Instr.effect_error_cases {i : Instr} {c d : ExecutionContext σ} {e}
    (h : i.effect c = .error e d) :
    d = c ∨ ∃ rt1 rt2 base offset, i = .stp rt1 rt2 base offset ∧
      HalfStored rt1 rt2 base offset e c d := by
  cases i with
  | compute op =>
    cases v : op.value c with
    | ok w => simp only [effect, v] at h; cases h
    | error e' =>
      simp only [effect, v] at h
      cases h
      exact .inl rfl
  | st =>
    obtain ⟨stored, rest⟩ := storing_error h
    rw [storeAll_single_error stored] at rest
    exact .inl rest
  | stp rt1 rt2 base offset =>
    obtain ⟨stored, rest⟩ := storing_error h
    obtain same | ⟨first, second⟩ := storeAll_pair_error stored
    · rw [same] at rest
      exact .inl rest
    · exact .inr ⟨rt1, rt2, base, offset, rfl, first, second, rest⟩
  | flush => cases h
  | beq => cases h
  | j => cases h
  | syscall =>
    obtain ⟨d', h', _⟩ | ⟨e', h', _⟩ := execute_cases c
    · rw [effect, h'] at h; cases h
    · rw [effect, h'] at h
      cases h
      exact .inl rfl
  | invalid =>
    cases h
    exact .inl rfl

/-- A faulting instruction has no effect, unless it is an `STP` of which only the second word
faults. -/
theorem faulting_instruction_effect (word) (c d : ExecutionContext σ) (e)
    (h : executeInstructionSwitch (TIDecoder.decode word) c = .error e d) :
    d = c ∨ ∃ rt1 rt2 base offset, TIDecoder.decode word = (Instr.stp rt1 rt2 base offset).toTI ∧
      HalfStored rt1 rt2 base offset e c d := by
  obtain ⟨i, decoded⟩ := decode_eq_toTI word
  rw [decoded] at h ⊢
  rw [executeInstructionSwitch_toTI] at h
  obtain same | ⟨rt1, rt2, base, offset, rfl, half⟩ :=
    Instr.effect_error_cases (Instr.exec_error_iff.mp h)
  · exact .inl same
  · exact .inr ⟨rt1, rt2, base, offset, rfl, half⟩

/-- `Stp x1, x2, [x0, 4]` in a memory of eight bytes. -/
def halfStore : ExecutionContext Script := .ofMemory (.ofWords [0x54011004, 0xFFFFFFFF] 0)

/-- The second word does not fit, and the first one stays stored. -/
theorem halfStore_stores : ∃ message d,
    executeInstructionSwitch (TIDecoder.decode 0x54011004) halfStore =
      .error (.simulation .memoryOutOfBounds message) d ∧
    d.memory.bytes ≠ halfStore.memory.bytes ∧
    d.memory.dirtyCodeRanges ≠ halfStore.memory.dirtyCodeRanges :=
  ⟨_, _, rfl, by decide, by decide⟩

/-- The same `Stp`. -/
theorem faulting_instruction_effect_stp : ∃ e d,
    executeInstructionSwitch (TIDecoder.decode 0x54011004) halfStore = .error e d ∧
      (d = halfStore ∨ ∃ rt1 rt2 base offset,
        TIDecoder.decode 0x54011004 = (Instr.stp rt1 rt2 base offset).toTI ∧
          HalfStored rt1 rt2 base offset e halfStore d) :=
  ⟨_, _, rfl, faulting_instruction_effect 0x54011004 halfStore _ _ rfl⟩

end ToyIsa
