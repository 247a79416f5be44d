import ToyIsa.Block.Boundary
import ToyIsa.Cache.Lookup
import ToyIsa.Isa.Changes

/-!
# Entering a block

What happens to a fetched block whose instructions are typed: an interpreting engine executes them
one after the other, the JIT compiles the block (`compileAndPublish_toTI`) or has done so before,
and native code does what `nativeRun` says (`callEntry_of_hasNative`). None of this breaks the
invariant of the block cache.
-/

namespace ToyIsa

open ExecutionContext TIBasicBlockCache

variable {σ : Type}

/-- The context with another block cache. -/
@[simps] def ExecutionContext.withCache (c : ExecutionContext σ) (cache : TIBasicBlockCache) :
    ExecutionContext σ := { c with blockCache := cache }

/-- A look-up that returns a block. -/
lemma fetchBlock_ok {c d : ExecutionContext σ} {block} (h : fetchBlock c = some (.ok block d)) :
    ∃ cache, c.blockCache.getBlock c.cpu.pc c.memory = some (.ok block cache) ∧
      d = c.withCache cache := by
  unfold fetchBlock at h
  split at h
  case h_1 => cases h
  case h_2 => cases h
  case h_3 block' cache get =>
    cases h
    exact ⟨cache, get, rfl⟩

/-- A look-up that fails. -/
lemma fetchBlock_failed {c d : ExecutionContext σ} {e} (h : fetchBlock c = some (.error e d)) :
    ∃ cache, c.blockCache.getBlock c.cpu.pc c.memory = some (.error e cache) ∧
      d = c.withCache cache := by
  unfold fetchBlock at h
  split at h
  case h_1 => cases h
  case h_2 e' cache get =>
    cases h
    exact ⟨cache, get, rfl⟩
  case h_3 => cases h

/-! Slots. -/

/-- Creating slots keeps the blocks. -/
@[simp] lemma withSlots_blocks (cache addresses) :
    (withSlots cache addresses).blocks = cache.blocks := by
  induction addresses generalizing cache with
  | nil => rfl
  | cons a addresses ih => exact (ih _).trans (Consistent.jitEntrySlot_blocks a)

/-- Creating slots keeps the slots that exist. -/
lemma withSlots_of_some {cache : TIBasicBlockCache} {a e} (h : cache.jitEntries a = some e)
    (addresses) : (withSlots cache addresses).jitEntries a = some e := by
  induction addresses generalizing cache with
  | nil => exact h
  | cons b addresses ih => exact ih (Consistent.jitEntrySlot_of_some h)

/-- The slot that was created exists. -/
lemma jitEntrySlot_self (cache : TIBasicBlockCache) (a) :
    ∃ e, (cache.jitEntrySlot a).jitEntries a = some e := by
  cases h : cache.jitEntries a with
  | some e => exact ⟨e, Consistent.jitEntrySlot_of_some h⟩
  | none =>
    refine ⟨0, ?_⟩
    unfold TIBasicBlockCache.jitEntrySlot
    simp only [h, Function.update_self]

/-- The slots that were created exist. -/
lemma hasSlots_withSlots (cache addresses) : HasSlots (withSlots cache addresses) addresses := by
  induction addresses generalizing cache with
  | nil =>
    intro a mem
    cases mem
  | cons b addresses ih =>
    intro a mem
    cases mem with
    | head =>
      obtain ⟨e, he⟩ := jitEntrySlot_self cache b
      exact ⟨e, withSlots_of_some he addresses⟩
    | tail _ mem => exact ih (cache.jitEntrySlot b) a mem

/-! Compiling. -/

/-- The slots of the block of `is` under `k` and its native code. -/
def slotsFor (cache : TIBasicBlockCache) (k : Word) (is : List Instr) (last : Instr) :
    TIBasicBlockCache :=
  withSlots cache (last.successors (wordAt k (is.length - 1)))

/-- Creating the slots of a block keeps the blocks. -/
@[simp] lemma slotsFor_blocks (cache k is last) :
    (slotsFor cache k is last).blocks = cache.blocks := withSlots_blocks _ _

/-- The cache after a compilation that was refused. -/
def TIBasicBlockCache.compilationRefused (cache : TIBasicBlockCache) : TIBasicBlockCache :=
  { cache with compilations := cache.compilations + 1 }

/-- A refused compilation changes nothing that an interpreting engine sees. -/
lemma compilationRefused_view (cache : TIBasicBlockCache) :
    cache.compilationRefused.view = cache.view := view_of_blocks rfl

variable {k : Word} {is : List Instr} {last : Instr}

/-- Compiling a typed block maps its code under a new entry point, or is refused. -/
lemma compileBlock_toTI {ir : IrLibrary} {block : TIBasicBlock} (start : block.startAddress = k)
    (h : block.instructions = is.map Instr.toTI) (hl : is.getLast? = some last) (level cache) :
    compileBlock ir block level cache =
      let slots := slotsFor cache k is last
      if ir.jitCompile slots.compilations level (blockCode k is last) then
        .ok { entryPoint := slots.compilations + 1 } { slots with
          compilations := slots.compilations + 1
          nativeCode := Function.update slots.nativeCode (slots.compilations + 1)
            (some { code := blockCode k is last, level := level }) }
      else .ok {} slots.compilationRefused := by
  subst start
  unfold compileBlock
  rw [emitBlock_toTI h hl]
  rfl

/-- Compiling a typed block and storing the result. -/
lemma compileAndPublish_toTI {ir : IrLibrary} {block : TIBasicBlock}
    (start : block.startAddress = k) (h : block.instructions = is.map Instr.toTI)
    (hl : is.getLast? = some last) (c : ExecutionContext σ) :
    compileAndPublish ir k block c =
      let slots := slotsFor c.blockCache k is last
      if ir.jitCompile slots.compilations c.jitOptimizationLevel (blockCode k is last) then
        .ok (slots.compilations + 1)
          (c.withCache (slots.publish k (blockCode k is last) c.jitOptimizationLevel))
      else .error (.runtime "IR failed to compile a basic block")
        (c.withCache slots.compilationRefused) := by
  unfold compileAndPublish
  rw [compileBlock_toTI start h hl]
  subst start
  dsimp only
  cases ir.jitCompile _ c.jitOptimizationLevel (blockCode block.startAddress is last) with
  | true => rfl
  | false => rfl

/-- Publishing changes nothing that an interpreting engine sees. -/
lemma view_publish (cache : TIBasicBlockCache) (k code level) :
    (cache.publish k code level).view = cache.view := by
  unfold publish
  exact view_modifyBlock k fun b => ⟨rfl, rfl, rfl⟩

/-! Counting. -/

/-- The cache after a block has been fetched and, by the JIT, counted. -/
def ExecutionContext.counted (c : ExecutionContext σ) (k : Word) : ExecutionContext σ :=
  match c.mode with
  | .jit => c.withCache (c.blockCache.modifyBlock k (·.recordExecution))
  | _ => c

/-- The engine interprets the block. -/
def ExecutionContext.Interprets (c : ExecutionContext σ) (block : TIBasicBlock) : Prop :=
  c.mode = .jit → block.hasCompiledBlock = false ∧ block.executionCount < c.jitThreshold

instance (c : ExecutionContext σ) (block) : Decidable (c.Interprets block) :=
  inferInstanceAs (Decidable (_ → _))

/-- Counting changes the block cache only. -/
lemma counted_eq (c : ExecutionContext σ) (k) :
    ∃ cache, c.counted k = c.withCache cache ∧ cache.view = c.blockCache.view ∧
      (Consistent c.blockCache → Consistent cache) := by
  unfold counted
  cases c.mode with
  | jit =>
    exact ⟨_, rfl, view_modifyBlock k fun b => ⟨rfl, rfl, rfl⟩,
      fun h => h.modifyBlock k fun b => ⟨rfl, rfl, rfl, rfl⟩⟩
  | switch => exact ⟨c.blockCache, rfl, rfl, id⟩
  | threaded => exact ⟨c.blockCache, rfl, rfl, id⟩

section interpreted

variable [Host σ] {ir : IrLibrary} {block : TIBasicBlock}

/-- Interpreting a typed block. -/
lemma enterBlock_of_interprets (st : Straight is) (h : block.instructions = is.map Instr.toTI)
    {c : ExecutionContext σ} (hi : c.Interprets block) :
    enterBlock ir k block c =
      match execAll is (c.counted k) with
      | .ok () d => .ok 0 d
      | .error e d => .error e d := by
  unfold enterBlock counted
  cases mode : c.mode with
  | switch =>
    simp only [EState.bind_apply, executeSwitchBlock, h, executeInstructions_toTI]
    cases execAll is c <;> rfl
  | threaded =>
    simp only [EState.bind_apply, executeThreadedBlock, h, callThreadedHandler_toTI st]
    cases execAll is c <;> rfl
  | jit =>
    obtain ⟨compiled, count⟩ := hi mode
    simp only [enterJitBlock, compiled, Bool.not_false, count, decide_true, Bool.and_self, if_true,
      EState.bind_apply, EState.modify_apply, executeThreadedBlock, h, callThreadedHandler_toTI st]
    unfold withCache
    generalize execAll (σ := σ) is _ = r
    cases r <;> rfl

/-- A block that is not interpreted is compiled now or has been before. -/
lemma enterBlock_of_not_interprets {c : ExecutionContext σ} (hi : ¬ c.Interprets block) :
    enterBlock ir k block c =
      if block.hasCompiledBlock then .ok block.compiledBlock.entryPoint c
      else compileAndPublish ir k block c := by
  have mode : c.mode = .jit := by
    by_contra ne
    exact hi fun mode => absurd mode ne
  have both : ¬ (block.hasCompiledBlock = false ∧ block.executionCount < c.jitThreshold) :=
    fun h => hi fun _ => h
  unfold enterBlock enterJitBlock
  simp only [mode]
  cases compiled : block.hasCompiledBlock with
  | true => rfl
  | false =>
    have count : ¬ block.executionCount < c.jitThreshold := fun h => both ⟨compiled, h⟩
    simp only [Bool.not_false, Bool.true_and, count, decide_false]
    rfl

/-- Calling the native code of a block at its address. -/
lemma callEntry_of_hasNative (doc : ir.Documented) {c : ExecutionContext σ}
    (run : c.state.status = .running) {b : TIBasicBlock} (h : HasNative c.blockCache c.cpu.pc b) :
    ∃ is last, Straight is ∧ b.instructions = is.map Instr.toTI ∧ is.getLast? = some last ∧
      callEntry ir b.compiledBlock.entryPoint c =
        match nativeRun c.cpu.pc is c with
        | .ok d => .ok (chainEntry last d) d
        | .error d => .ok 0 d := by
  obtain ⟨is, last, level, st, hi, hl, code, slots⟩ := h
  refine ⟨is, last, st, hi, hl, ?_⟩
  unfold callEntry
  rw [code]
  exact eval_blockCode doc st hl run slots

end interpreted

/-! The invariant of the block cache. -/

namespace Consistent

/-- A refused compilation keeps the invariant, since the next entry point is still new. -/
lemma compilationRefused {cache} (h : Consistent cache) : Consistent cache.compilationRefused where
  key := h.key
  shape := h.shape
  chained := h.chained
  published := h.published
  native := h.native
  distinct := h.distinct
  bound hb := (h.bound hb).trans (Nat.le_succ _)

/-- Every change keeps the invariant. -/
lemma changes {a} {c d : ExecutionContext σ} (h : Consistent c.blockCache) (ch : Changes a c d) :
    Consistent d.blockCache := by
  cases ch with
  | nothing _ _ cache => exact cache ▸ h
  | stored _ cache => exact cache ▸ h
  | called _ _ _ cache => exact cache ▸ h
  | flushed _ cache =>
    rw [cache]
    generalize c.memory.dirtyCodeRanges = ranges
    generalize c.blockCache = start at h
    induction ranges generalizing start with
    | nil => exact h
    | cons range ranges ih => exact ih _ (h.invalidateRange range.address range.size)

variable [Host σ] {c d : ExecutionContext σ}

/-- An instruction keeps the invariant. -/
lemma exec (h : Consistent c.blockCache) {i : Instr} (e : i.exec c = .ok () d) :
    Consistent d.blockCache := h.changes (Instr.exec_changes (.inl e))

/-- A failing instruction keeps the invariant. -/
lemma exec_error (h : Consistent c.blockCache) {i : Instr} {e} (x : i.exec c = .error e d) :
    Consistent d.blockCache := h.changes (Instr.exec_changes (.inr ⟨e, x⟩))

/-- A block keeps the invariant, whether it fails or not. -/
lemma execAll (h : Consistent c.blockCache) (r : execAll is c = .ok () d ∨
    ∃ e, execAll is c = .error e d) : Consistent d.blockCache := by
  have kept : Consistent (ToyIsa.execAll is c).context.blockCache :=
    execAll_preserves (P := fun c => Consistent c.blockCache)
      (fun i c h => Consistent.changes h (i.changes c)) is h
  obtain r | ⟨e, r⟩ := r
  · rwa [r] at kept
  · rwa [r] at kept

/-- Native code keeps the invariant, whether it returns early or not. -/
lemma nativeRun (h : Consistent c.blockCache) {pc} (r : nativeRun pc is c = .ok d ∨
    nativeRun pc is c = .error d) : Consistent d.blockCache := by
  induction is generalizing c with
  | nil =>
    obtain r | r := r <;> cases r
    exact h
  | cons i is ih =>
    unfold ToyIsa.nativeRun at r
    cases x : i.exec c with
    | ok u c' =>
      rw [x] at r
      simp only at r
      split at r
      case isTrue => exact ih (h.exec x) r
      case isFalse =>
        obtain r | r := r <;> cases r
        exact h.exec x
    | error e' c' =>
      rw [x] at r
      simp only at r
      obtain r | r := r
      · cases r
      · have cache : d.blockCache = c'.blockCache := by
          obtain rfl := Except.error.inj r
          split <;> rfl
        rw [cache]
        exact h.exec_error x

end Consistent

end ToyIsa
