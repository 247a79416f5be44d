import ToyIsa.Isa.Block

/-!
# The state of the guest

Two contexts are in the same state of the guest if they differ in the engine and in the block cache
only. No instruction but `FLUSH` looks at either, and `FLUSH` looks at the cache to change it, so
what an instruction does to the guest does not depend on them (`Instr.effect_withEngine`).
-/

namespace ToyIsa

open ExecutionContext TISyscallEmulator

variable {σ : Type}

/-- The part of a context that is not the state of the guest. -/
structure EngineState where
  mode : TIExecutionMode
  jitThreshold : Nat
  jitOptimizationLevel : Byte
  blockCache : TIBasicBlockCache

/-- The engine after an instruction with some ranges pending. -/
def EngineState.after (g : EngineState) (i : Instr) (ranges : List TICodeRange) : EngineState :=
  if i = .flush then
    { g with
      blockCache := ranges.foldl
        (fun cache range => cache.invalidateRange range.address range.size) g.blockCache }
  else g

/-- The state of the guest with another engine. -/
@[simps] def ExecutionContext.withEngine (c : ExecutionContext σ) (g : EngineState) :
    ExecutionContext σ :=
  { c with
    mode := g.mode
    jitThreshold := g.jitThreshold
    jitOptimizationLevel := g.jitOptimizationLevel
    blockCache := g.blockCache }

/-- The engine of a context. -/
def ExecutionContext.engine (c : ExecutionContext σ) : EngineState :=
  { mode := c.mode
    jitThreshold := c.jitThreshold
    jitOptimizationLevel := c.jitOptimizationLevel
    blockCache := c.blockCache }

/-- An outcome with another engine. -/
def Outcome.withEngine (o : Outcome σ) (g : EngineState) : Outcome σ :=
  match o with
  | .ok u c => .ok u (c.withEngine g)
  | .error e c => .error e (c.withEngine g)

/-- A context keeps its own engine. -/
@[simp] lemma withEngine_engine (c : ExecutionContext σ) : c.withEngine c.engine = c := rfl

/-- The last engine counts. -/
@[simp] lemma withEngine_withEngine (c : ExecutionContext σ) (g g') :
    (c.withEngine g).withEngine g' = c.withEngine g' := rfl

/-- Another engine keeps the registers. -/
@[simp] lemma withEngine_reg (c : ExecutionContext σ) (g r) :
    (c.withEngine g).reg r = c.reg r := rfl

/-- The value computed does not depend on the engine. -/
lemma Compute.value_withEngine (op : Compute) (c : ExecutionContext σ) (g) :
    op.value (c.withEngine g) = op.value c := by
  cases op <;> rfl

/-- Stores do not depend on the engine. -/
lemma storing_withEngine (c : ExecutionContext σ) (g stores) :
    (c.withEngine g).storing stores = (c.storing stores).withEngine g := by
  unfold storing
  rw [onMemory_apply, onMemory_apply, withEngine_memory]
  cases storeAll stores c.memory <;> rfl

/-- The next PC does not depend on the engine. -/
lemma Instr.nextPc_withEngine (i : Instr) (c : ExecutionContext σ) (g) :
    i.nextPc (c.withEngine g) = i.nextPc c := by
  cases i <;> rfl

variable [Host σ]

/-! System calls. -/

/-- READ does not depend on the engine. -/
lemma readCall_withEngine (c : ExecutionContext σ) (g) :
    readCall (c.withEngine g) = (readCall c).withEngine g := by
  unfold readCall
  simp only [withEngine_reg, withEngine_memory, withEngine_host]
  split
  · rfl
  · split
    · rcases Host.read (c.reg Reg.r2).toNat c.host with ⟨_ | bytes, s⟩ <;> rfl
    · rfl

/-- WRITE does not depend on the engine. -/
lemma writeCall_withEngine (c : ExecutionContext σ) (g) :
    writeCall (c.withEngine g) = (writeCall c).withEngine g := by
  unfold writeCall
  simp only [withEngine_reg, withEngine_memory, withEngine_host]
  split
  · rfl
  · split <;> rfl

/-- System calls do not depend on the engine. -/
lemma execute_withEngine (c : ExecutionContext σ) (g) :
    TISyscallEmulator.execute (c.withEngine g) =
      Outcome.withEngine (TISyscallEmulator.execute c) g := by
  rw [execute_eq, execute_eq]
  rw [← withEngine_reg c g Reg.r8]
  generalize (c.withEngine g).reg Reg.r8 = number
  split_ifs
  · exact readCall_withEngine c g
  · exact writeCall_withEngine c g
  · rfl
  · rfl
  · rfl

/-- What an instruction does to the guest does not depend on the engine. -/
theorem Instr.effect_withEngine (i : Instr) (c : ExecutionContext σ) (g) :
    i.effect (c.withEngine g) =
      (i.effect c).withEngine (g.after i c.memory.dirtyCodeRanges) := by
  cases i with
  | compute op =>
    unfold effect
    simp only [Compute.value_withEngine]
    cases op.value c <;> rfl
  | st => exact storing_withEngine c g _
  | stp => exact storing_withEngine c g _
  | syscall => exact execute_withEngine c g
  | flush => rfl
  | beq => rfl
  | j => rfl
  | invalid => rfl

/-- What an instruction does to the guest does not depend on the engine. -/
lemma Instr.exec_withEngine (i : Instr) (c : ExecutionContext σ) (g) :
    i.exec (c.withEngine g) = (i.exec c).withEngine (g.after i c.memory.dirtyCodeRanges) := by
  unfold exec
  rw [effect_withEngine]
  cases i.effect c with
  | error e d => rfl
  | ok u d =>
    simp only [Outcome.withEngine, nextPc_withEngine]
    rfl

end ToyIsa
