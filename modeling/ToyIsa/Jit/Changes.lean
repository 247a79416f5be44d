import ToyIsa.Engine.Native
import ToyIsa.Isa.Changes

/-!
# What native code changes

Native code touches memory and the block cache only through the helpers it calls, so an IR
instruction changes what the helper it calls changes (`IrInsn.exec_changes`). What every IR
instruction preserves, a native function preserves (`evalIr_preserves`). `IrInsn.exec_cases` lists
the contexts that an IR instruction can leave behind.
-/

namespace ToyIsa

open ExecutionContext

variable {σ : Type}

/-- The context after an IR instruction. -/
def IrStep.context : IrStep σ → ExecutionContext σ
  | .next _ c => c
  | .returned _ c => c
  | .undefined c => c

/-- The action of a handler. -/
def TIInstructionHandler.action : TIInstructionHandler → Action
  | .executeFlush => .flush
  | .executeSyscall => .syscall
  | .executeSsat | .executeInvalid => .compute

/-- The action of a call. -/
def callAction : IrCallee → List IrVal → Action
  | .executeInstructionHelper, [.context, .instruction _, .handler h] => h.action
  | .writeMemory32, [.context, .word _, .word _] => .store
  | _, _ => .compute

/-- The action of an IR instruction in a frame. -/
def IrInsn.action (f : IrFrame) : IrInsn → Action
  | .call callee args =>
    if f.live then
      match args.mapM f.lookup with
      | some values => callAction callee values
      | none => .compute
    else .compute
  | _ => .compute

/-- A context with the same memory and the same cache. -/
lemma changes_compute {c d : ExecutionContext σ} (memory : d.memory = c.memory)
    (cache : d.blockCache = c.blockCache) : Changes .compute c d :=
  .nothing (by decide) memory cache

/-- `executeHelper` leaves the context that its action leaves, faulted if it catches an
exception. -/
lemma executeHelper_context (action : Exec σ Unit) (c : ExecutionContext σ) :
    resultContext (executeHelper action c) = resultContext (action c) ∨
      resultContext (executeHelper action c) = (resultContext (action c)).fault := by
  unfold executeHelper
  cases action c with
  | ok u d => exact .inl rfl
  | error e d =>
    cases e with
    | undefined => exact .inl rfl
    | simulation code message => exact .inr rfl
    | runtime message => exact .inr rfl

/-- `executeHelper` changes what its action changes. -/
lemma executeHelper_changes {a} {c : ExecutionContext σ} {action : Exec σ Unit}
    (h : Changes a c (resultContext (action c))) :
    Changes a c (resultContext (executeHelper action c)) := by
  obtain same | faulted := executeHelper_context action c
  · rw [same]
    exact h
  · rw [faulted]
    exact h.congr rfl rfl

/-- `SSAT` on any operands fails, or writes a register and moves the PC. -/
lemma executeSsat_cases (i : TIInstruction) (c : ExecutionContext σ) :
    resultContext (executeSsat i c) = c ∨ ∃ registers, resultContext (executeSsat i c) =
      { c with cpu := ⟨registers, c.cpu.pc + TI32.instructionSize⟩ } := by
  have read (index) : readRegister index c = .error .undefined c ∨
      ∃ w, readRegister index c = .ok w c := by
    unfold readRegister
    split
    · exact .inr ⟨_, rfl⟩
    · exact .inl rfl
  -- the operands are arbitrary here, so every check can fail
  unfold executeSsat
  cases i.operand 1 with
  | error e => exact .inl rfl
  | ok source =>
    simp only [EState.bind_apply, check_ok]
    obtain r | ⟨w, r⟩ := read source
    · rw [r]
      exact .inl rfl
    · rw [r]
      simp only
      cases i.operand 2 with
      | error e => exact .inl rfl
      | ok width =>
        simp only [check_ok]
        cases ExecutorDetail.saturateSigned w width with
        | error e => exact .inl rfl
        | ok value =>
          simp only [check_ok]
          cases i.operand 0 with
          | error e => exact .inl rfl
          | ok target =>
            simp only [check_ok, writeRegister]
            by_cases bound : target.toNat < TI32.registerCount
            · simp only [dif_pos bound]
              exact .inr ⟨_, rfl⟩
            · simp only [dif_neg bound]
              exact .inl rfl

/-- `SSAT` on any operands changes the CPU only. -/
lemma executeSsat_changes (i : TIInstruction) (c : ExecutionContext σ) :
    Changes .compute c (resultContext (executeSsat i c)) := by
  obtain same | ⟨registers, e⟩ := executeSsat_cases i c
  · rw [same]
    exact changes_compute rfl rfl
  · rw [e]
    exact changes_compute rfl rfl

/-- `readMemory32` may fault. -/
lemma readMemory32_changes (address) (c : ExecutionContext σ) :
    Changes .compute c (resultContext (readMemory32 address c)) := by
  unfold readMemory32
  rcases c.memory.read32 address with (_ | _ | _) | w <;> exact changes_compute rfl rfl

/-- `writeMemory32` stores a word or faults. -/
lemma writeMemory32_changes (address value) (c : ExecutionContext σ) :
    Changes .store c (resultContext (writeMemory32 address value c)) := by
  refine executeHelper_changes ?_
  rw [onMemory_apply]
  cases w : TIMemory.write32 address value c.memory with
  | ok u m => exact .stored (.single ⟨address, value, w⟩) rfl
  | error e m =>
    obtain ⟨rfl, _⟩ := TIMemory.write32_error w
    exact .nothing (by decide) rfl rfl

/-- The context after a call is the context that the called function leaves. -/
lemma IrStep.ofCall_context {α} (f : IrFrame) (value : α → Option IrVal)
    (r : EStateM.Result Failure (ExecutionContext σ) α) :
    (IrStep.ofCall f value r).context = resultContext r := by
  cases r <;> rfl

variable [Host σ]

/-- The functions that compiled code names change what their action says. -/
lemma instructionHandler_changes (i : TIInstruction) (h : TIInstructionHandler)
    (c : ExecutionContext σ) : Changes h.action c (resultContext (instructionHandler i h c)) := by
  cases h with
  | executeFlush => exact .flushed rfl rfl
  | executeSsat => exact executeSsat_changes i c
  | executeInvalid => exact changes_compute rfl rfl
  | executeSyscall =>
    have e : instructionHandler i .executeSyscall c = (Instr.syscall 0).exec c :=
      executeInstructionSwitch_toTI (.syscall 0) c
    rw [e]
    exact (Instr.syscall 0).changes c

/-- A call changes what the called function changes. -/
lemma callHelper_changes (f : IrFrame) (c : ExecutionContext σ) (callee args) :
    Changes (callAction callee args) c (callHelper f c callee args).context := by
  unfold callAction
  split
  case h_1 i h =>
    exact (IrStep.ofCall_context f _ _).symm ▸
      executeHelper_changes (instructionHandler_changes i h c)
  case h_2 address value =>
    exact (IrStep.ofCall_context f _ _).symm ▸ writeMemory32_changes address value c
  -- neither a handler nor a store is called
  case h_3 handler write =>
    unfold callHelper
    split
    case h_1 i h => exact absurd rfl (handler i h rfl)
    case h_2 address =>
      rw [IrStep.ofCall_context]
      exact readMemory32_changes address c
    case h_3 address value => exact absurd rfl (write address value rfl)
    case h_4 => exact changes_compute rfl rfl
    case h_5 => exact changes_compute rfl rfl

/-- What an IR instruction leaves behind: a register or the PC written, what a call leaves, or the
context as it was. -/
inductive IrInsn.Leaves (f : IrFrame) (c : ExecutionContext σ) :
    IrInsn → ExecutionContext σ → Prop where
  | same {insn} :
    insn.action f = .compute →
    Leaves f c insn c
  | register {i v registers} :
    Leaves f c (.store (.register i) v) { c with cpu := { c.cpu with registers := registers } }
  | pc {v w} :
    f.lookup v = some (.word w) →
    Leaves f c (.store .pc v) (c.atPc w)
  | called {callee args values} :
    (IrInsn.call callee args).action f = callAction callee values →
    Leaves f c (.call callee args) (callHelper f c callee values).context

/-- Every IR instruction leaves one of these contexts. -/
theorem IrInsn.exec_cases (ir : IrLibrary) (level f) (c : ExecutionContext σ) (insn : IrInsn) :
    Leaves f c insn (insn.exec ir level f c).context := by
  -- an instruction in a branch not taken does nothing
  have dead {insn : IrInsn} (compute : insn.action f = .compute) (r : IrStep σ)
      (h : Leaves f c insn r.context) :
      Leaves f c insn (if f.live then r else .next (f.push none) c : IrStep σ).context := by
    split
    · exact h
    · exact .same compute
  cases insn with
  | ifTrue n =>
    delta exec
    dsimp only
    rcases f.lookup n with _ | _ | _ | _ | _ | _ <;> exact .same rfl
  | ifFalse n =>
    delta exec
    dsimp only
    rcases f.lookup n with _ | _ | _ | _ | _ | _ <;> exact .same rfl
  | merge2 a b => exact .same rfl
  | loadU8 p =>
    refine dead rfl _ ?_
    cases p <;> exact .same rfl
  | loadU32 p =>
    refine dead rfl _ ?_
    cases p <;> exact .same rfl
  | loadA p =>
    refine dead rfl _ ?_
    cases p with
    | slot a =>
      delta execLive
      dsimp only
      cases c.blockCache.jitEntries a <;> exact .same rfl
    | _ => exact .same rfl
  | store p v =>
    refine dead rfl _ ?_
    delta execLive
    dsimp only
    cases p with
    | register i =>
      dsimp only
      rcases f.lookup v with _ | _ | _ | _ | _ | _ <;> first | exact .same rfl | exact .register
    | pc =>
      dsimp only
      rcases value : f.lookup v with _ | _ | _ | _ | _ | _ <;>
      first | exact .same rfl | exact .pc value
    | _ => exact .same rfl
  | unary op a =>
    refine dead rfl _ ?_
    delta execLive
    dsimp only
    rcases f.lookup a with _ | _ | _ | _ | _ | _ <;> exact .same rfl
  | binary op a b =>
    refine dead rfl _ ?_
    delta execLive
    dsimp only
    rcases f.lookup a with _ | _ | _ | _ | _ | _ <;>
    rcases f.lookup b with _ | _ | _ | _ | _ | _ <;> exact .same rfl
  | ifNode n => exact dead rfl _ (.same rfl)
  | endNode => exact dead rfl _ (.same rfl)
  | phi2 a b => exact dead rfl _ (.same rfl)
  | ret v =>
    refine dead rfl _ ?_
    delta execLive
    dsimp only
    rcases f.lookup v with _ | _ | _ | _ | _ | _ <;> exact .same rfl
  | call callee args =>
    show Leaves f c _
      (if f.live then execLive ir level f c (.call callee args) else _ : IrStep σ).context
    cases live : f.live with
    | false => exact .same (by rw [action, live]; rfl)
    | true =>
      rw [if_pos rfl]
      delta execLive
      dsimp only
      cases values : args.mapM f.lookup with
      | none => exact .same (by rw [action, live, values]; rfl)
      | some values' => exact .called (by rw [action, live, values]; rfl)

/-- An IR instruction changes what its action says. -/
theorem IrInsn.exec_changes (ir : IrLibrary) (level f) (c : ExecutionContext σ) (insn : IrInsn) :
    Changes (insn.action f) c (insn.exec ir level f c).context := by
  have cases' := exec_cases ir level f c insn
  generalize (insn.exec ir level f c).context = d at cases'
  cases cases' with
  | same compute =>
    rw [compute]
    exact changes_compute rfl rfl
  | register => exact changes_compute rfl rfl
  | pc => exact changes_compute rfl rfl
  | called action =>
    rw [action]
    exact callHelper_changes f c _ _

/-- What calls leave alone. Some move the PC to the next instruction. -/
structure CallFrame (c d : ExecutionContext σ) : Prop extends SameSetup c d where
  pc : d.cpu.pc = c.cpu.pc ∨ d.cpu.pc = c.cpu.pc + TI32.instructionSize

omit [Host σ] in
/-- A fault leaves the setup and the PC alone. -/
lemma CallFrame.executeHelper {c : ExecutionContext σ} {action : Exec σ Unit}
    (h : CallFrame c (resultContext (action c))) :
    CallFrame c (resultContext (ToyIsa.executeHelper action c)) := by
  obtain same | faulted := executeHelper_context action c
  · rw [same]
    exact h
  · rw [faulted]
    exact ⟨h.toSameSetup.trans ⟨rfl, rfl, rfl, rfl, rfl⟩, h.pc⟩

/-- The frame of the functions that compiled code names. -/
lemma instructionHandler_frame (i : TIInstruction) (h : TIInstructionHandler)
    (c : ExecutionContext σ) : CallFrame c (resultContext (instructionHandler i h c)) := by
  cases h with
  | executeFlush => exact ⟨⟨rfl, rfl, rfl, rfl, rfl⟩, .inr rfl⟩
  | executeInvalid => exact ⟨.refl c, .inl rfl⟩
  | executeSsat =>
    have shape : CallFrame c (resultContext (executeSsat i c)) := by
      obtain same | ⟨registers, e⟩ := executeSsat_cases i c
      · rw [same]
        exact ⟨.refl c, .inl rfl⟩
      · rw [e]
        exact ⟨⟨rfl, rfl, rfl, rfl, rfl⟩, .inr rfl⟩
    exact shape
  | executeSyscall =>
    have e : instructionHandler i .executeSyscall c = (Instr.syscall 0).exec c :=
      executeInstructionSwitch_toTI (.syscall 0) c
    rw [e]
    refine ⟨Instr.exec_setup, ?_⟩
    obtain same | ⟨d, pc, e⟩ := Instr.exec_pc (i := .syscall 0) (c := c)
    · exact .inl same
    · rw [e, Instr.nextPc, pc]
      split
      · exact .inr rfl
      · exact .inl rfl

/-- The frame of a call. -/
lemma callHelper_frame (f : IrFrame) (c : ExecutionContext σ) (callee args) :
    CallFrame c (callHelper f c callee args).context := by
  have same : CallFrame c c := ⟨.refl c, .inl rfl⟩
  unfold callHelper
  split
  case h_1 i h =>
    rw [IrStep.ofCall_context]
    exact (instructionHandler_frame i h c).executeHelper
  case h_2 address =>
    rw [IrStep.ofCall_context]
    unfold readMemory32
    rcases c.memory.read32 address with (_ | _ | _) | w <;>
    exact ⟨⟨rfl, rfl, rfl, rfl, rfl⟩, .inl rfl⟩
  case h_3 address value =>
    rw [IrStep.ofCall_context]
    refine CallFrame.executeHelper ?_
    rw [onMemory_apply]
    cases w : TIMemory.write32 address value c.memory with
    | ok u m =>
      obtain ⟨hb, _, rfl⟩ := TIMemory.write32_ok w
      exact ⟨⟨rfl, rfl, rfl, TIMemory.written_executableRegions _ _ _, TIMemory.size_written hb⟩,
        .inl rfl⟩
    | error e m =>
      obtain ⟨rfl, _⟩ := TIMemory.write32_error w
      exact same
  case h_4 => exact same
  case h_5 => exact same

/-- Every IR instruction leaves engine and memory layout alone. -/
lemma IrInsn.exec_setup (ir : IrLibrary) (level f) (c : ExecutionContext σ) (insn : IrInsn) :
    SameSetup c (insn.exec ir level f c).context := by
  have cases' := exec_cases ir level f c insn
  generalize (insn.exec ir level f c).context = d at cases'
  cases cases' with
  | same => exact .refl c
  | register => exact ⟨rfl, rfl, rfl, rfl, rfl⟩
  | pc => exact ⟨rfl, rfl, rfl, rfl, rfl⟩
  | called => exact (callHelper_frame f c _ _).toSameSetup

/-- What every IR instruction preserves, native code preserves. -/
lemma evalIr_preserves {ir : IrLibrary} {level} {P : ExecutionContext σ → Prop}
    (step : ∀ insn f c, P c → P (IrInsn.exec ir level f c insn).context) (code f)
    {c : ExecutionContext σ} (h : P c) : P (resultContext (evalIr ir level code f c)) := by
  induction code generalizing f c with
  | nil => exact h
  | cons insn rest ih =>
    have h' := step insn f c h
    unfold evalIr
    cases x : IrInsn.exec ir level f c insn with
    | next f' c' => rw [x] at h'; exact ih f' h'
    | returned e c' => rw [x] at h'; exact h'
    | undefined c' => rw [x] at h'; exact h'

end ToyIsa
