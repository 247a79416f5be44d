import ToyIsa.Block.Chaining
import ToyIsa.Step.Changes

/-!
# Who owns native code

A compiled block owns the native code at its entry point and frees it when it is destroyed. `Owned`
says that all native code that is mapped has an owner in the cache; `Consistent` says that it has no
other one. A point of a run is in the code of a block that is still stored (`Point.Held`), although
the instructions it executes may invalidate that block. `native_code_owned` is about all points that
calls of `loadBinary` and `step` reach, inside of blocks too.
-/

namespace ToyIsa

open ExecutionContext TIBasicBlockCache Machine

/-- All native code belongs to a block. -/
def Owned (cache : TIBasicBlockCache) : Prop :=
  ∀ e native, cache.nativeCode e = some native →
    e ≠ 0 ∧ ∃ a block, cache.blocks a = some block ∧ block.compiledBlock.entryPoint = e

/-- `cache'` still stores the blocks of `cache`, with their code, and maps the same native code. -/
structure KeepsBlocks (cache cache' : TIBasicBlockCache) : Prop where
  block : ∀ {a b}, cache.blocks a = some b → ∃ b', cache'.blocks a = some b' ∧
    b'.instructions = b.instructions ∧ b'.compiledBlock = b.compiledBlock
  nativeCode : cache'.nativeCode = cache.nativeCode

namespace KeepsBlocks

variable {cache cache' cache'' : TIBasicBlockCache}

/-- Nothing has changed. -/
lemma refl (cache) : KeepsBlocks cache cache := ⟨fun hb => ⟨_, hb, rfl, rfl⟩, rfl⟩

/-- One change after the other. -/
lemma trans (h : KeepsBlocks cache cache') (h' : KeepsBlocks cache' cache'') :
    KeepsBlocks cache cache'' where
  block hb := by
    obtain ⟨b', hb', instructions', compiled'⟩ := h.block hb
    obtain ⟨b'', hb'', instructions'', compiled''⟩ := h'.block hb'
    exact ⟨b'', hb'', instructions''.trans instructions', compiled''.trans compiled'⟩
  nativeCode := h'.nativeCode.trans h.nativeCode

/-- A change of one block that keeps its code. -/
lemma modifyBlock (cache : TIBasicBlockCache) (k) {f : TIBasicBlock → TIBasicBlock}
    (hf : ∀ b, (f b).instructions = b.instructions ∧ (f b).compiledBlock = b.compiledBlock) :
    KeepsBlocks cache (cache.modifyBlock k f) where
  block {a b} hb := by
    unfold TIBasicBlockCache.modifyBlock
    by_cases ne : a = k
    · subst ne
      exact ⟨f b, by simp [hb], hf b⟩
    · exact ⟨b, by simp [Function.update_of_ne ne, hb], rfl, rfl⟩
  nativeCode := rfl

/-- Creating slots. -/
lemma withSlots (cache addresses) : KeepsBlocks cache (withSlots cache addresses) := by
  induction addresses generalizing cache with
  | nil => exact refl cache
  | cons a addresses ih =>
    have first : KeepsBlocks cache (cache.jitEntrySlot a) :=
      ⟨fun {_ b} hb => ⟨b, by rw [Consistent.jitEntrySlot_blocks]; exact hb, rfl, rfl⟩,
        Consistent.jitEntrySlot_nativeCode a⟩
    exact first.trans (ih _)

/-- Invalidated blocks are not destroyed. -/
lemma invalidateRange (cache : TIBasicBlockCache) (address n) :
    KeepsBlocks cache (cache.invalidateRange address n) where
  block {a b} hb := by
    simp only [TIBasicBlockCache.invalidateRange, hb, Option.any_some, Option.map_some]
    split
    · exact ⟨b.invalidate, rfl, rfl, rfl⟩
    · exact ⟨b, rfl, rfl, rfl⟩
  nativeCode := rfl

/-- No instruction destroys a block. -/
lemma of_changes {σ : Type} {a} {c d : ExecutionContext σ} (h : Changes a c d) :
    KeepsBlocks c.blockCache d.blockCache := by
  cases h with
  | nothing _ _ cache => exact cache ▸ refl c.blockCache
  | stored _ cache => exact cache ▸ refl c.blockCache
  | called _ _ _ cache => exact cache ▸ refl c.blockCache
  | flushed _ cache =>
    rw [cache]
    generalize c.memory.dirtyCodeRanges = ranges
    generalize c.blockCache = start
    induction ranges generalizing start with
    | nil => exact refl start
    | cons range ranges ih =>
      exact (invalidateRange start range.address range.size).trans (ih _)

end KeepsBlocks

namespace Owned

variable {cache cache' : TIBasicBlockCache} {k : Word} {bk : TIBasicBlock}

/-- A cache that was never used. -/
lemma unused (h : cache = { compilations := cache.compilations }) : Owned cache := by
  intro e native mapped
  rw [h] at mapped
  cases mapped

/-- Clearing the cache destroys the owner of all native code. -/
lemma clear (h : Owned cache) : Owned cache.clear := by
  intro e native mapped
  obtain ⟨mapped, unowned⟩ := clear_nativeCode mapped
  obtain ⟨ne, a, block, hb, rfl⟩ := h _ _ mapped
  have owned : block.owns block.compiledBlock.entryPoint = true := by
    rw [TIBasicBlock.owns, (hasCompiledBlock_iff block).mpr ne, Bool.true_and, beq_self_eq_true]
  rw [unowned a block hb] at owned
  cases owned

/-- Native code keeps its owners where these are still stored. -/
lemma of_keepsBlocks (h : Owned cache) (keeps : KeepsBlocks cache cache') : Owned cache' := by
  intro e native mapped
  rw [keeps.nativeCode] at mapped
  obtain ⟨ne, a, block, hb, rfl⟩ := h _ _ mapped
  obtain ⟨block', hb', _, compiled⟩ := keeps.block hb
  exact ⟨ne, a, block', hb', by rw [compiled]⟩

/-- Destroying a block frees its native code. -/
lemma erase (h : Owned cache) (hk : cache.blocks k = some bk) : Owned (cache.erase k bk) := by
  intro e native mapped
  have kept : cache.nativeCode e = some native ∧ e ≠ bk.compiledBlock.entryPoint := by
    simp only [TIBasicBlockCache.erase] at mapped
    split at mapped
    case isTrue compiled =>
      obtain ⟨ne, mapped⟩ := PartialMap.remove_eq_some mapped
      exact ⟨mapped, ne⟩
    case isFalse compiled =>
      refine ⟨mapped, fun eq => (h _ _ mapped).1 ?_⟩
      rw [hasCompiledBlock_iff, not_not] at compiled
      exact eq.trans compiled
  obtain ⟨mapped, freed⟩ := kept
  obtain ⟨ne, a, block, hb, rfl⟩ := h _ _ mapped
  have other : a ≠ k := by
    rintro rfl
    rw [hk] at hb
    cases hb
    exact freed rfl
  exact ⟨ne, a, block, (Function.update_of_ne other _ _).trans hb, rfl⟩

/-- Dropping a block frees its native code. -/
lemma dropped (h : Owned cache) (a) : Owned (cache.dropped a) := by
  unfold TIBasicBlockCache.dropped
  split
  case h_1 block hb => exact h.erase hb
  case h_2 => exact h

/-- A new block where there is none. -/
lemma insertBlock (h : Owned cache) (hk : cache.blocks k = none) (instructions) :
    Owned (cache.insertBlock k instructions) := by
  intro e native mapped
  obtain ⟨ne, a, block, hb, rfl⟩ := h _ _ mapped
  have other : a ≠ k := by
    rintro rfl
    rw [hk] at hb
    cases hb
  exact ⟨ne, a, block, (Function.update_of_ne other _ _).trans hb, rfl⟩

/-- The code of a block that is compiled for the first time. -/
lemma publish (h : Owned cache) (hk : cache.blocks k = some bk)
    (first : bk.hasCompiledBlock = false) (code level) :
    Owned (cache.publish k code level) := by
  intro e native mapped
  obtain ⟨rfl, _⟩ | ⟨_, mapped⟩ := PartialMap.insert_eq_some mapped
  · exact ⟨Nat.succ_ne_zero _, k, _, publish_blocks_self hk code level, rfl⟩
  · obtain ⟨ne, a, block, hb, rfl⟩ := h _ _ mapped
    have other : a ≠ k := by
      rintro rfl
      rw [hk] at hb
      cases hb
      rw [(hasCompiledBlock_iff bk).mpr ne] at first
      cases first
    refine ⟨ne, a, block, ?_, rfl⟩
    rw [publish_blocks hk]
    exact (Function.update_of_ne other _ _).trans hb

/-- Looking a block up frees the native code of the block it replaces. -/
lemma getBlock_ok {a memory b} (h : Owned cache)
    (e : cache.getBlock a memory = some (.ok b cache')) : Owned cache' := by
  have f := getBlock_cases cache a memory
  rw [e] at f
  cases f with
  | hit => exact h
  | decoded => exact (h.dropped a).insertBlock dropped_blocks_self _

/-- A look-up that fails keeps the owners. -/
lemma getBlock_error {a memory e} (h : Owned cache)
    (failed : cache.getBlock a memory = some (.error e cache')) : Owned cache' := by
  have f := getBlock_cases cache a memory
  rw [failed] at f
  cases f with
  | fault => exact h.dropped a

end Owned

variable {σ : Type}

/-- The code that is left at a point is the end of the code of a block that is stored, and if it is
native code then it is still mapped. -/
def Point.Held : Point σ → Prop
  | .switch rest c | .threaded rest c =>
    ∃ a block, c.blockCache.blocks a = some block ∧ rest <:+ block.instructions
  | .native rest level _ c =>
    ∃ a block mapping, c.blockCache.blocks a = some block ∧
      c.blockCache.nativeCode block.compiledBlock.entryPoint = some mapping ∧
      mapping.level = level ∧ rest <:+ mapping.code
  | _ => True

/-- The point is inside of a block. -/
def Point.Inside : Point σ → Prop
  | .boundary _ | .stopped _ => False
  | _ => True

structure Point.Kept (p : Point σ) : Prop extends Point.Good p where
  owned : Owned p.context.blockCache
  held : p.Held

/-- An interpreted block is held where its instructions are those of a block that is stored. -/
lemma held_rest {c d : ExecutionContext σ} (keeps : KeepsBlocks c.blockCache d.blockCache) {i rest}
    (held : ∃ a block, c.blockCache.blocks a = some block ∧ i :: rest <:+ block.instructions) :
    ∃ a block, d.blockCache.blocks a = some block ∧ rest <:+ block.instructions := by
  obtain ⟨a, block, hb, suffix⟩ := held
  obtain ⟨block', hb', instructions, _⟩ := keeps.block hb
  refine ⟨a, block', hb', ?_⟩
  rw [instructions]
  exact (List.suffix_cons i rest).trans suffix

/-- Going on in a block, unless it has failed. -/
lemma held_after {c : ExecutionContext σ} {o : Outcome σ} {go : ExecutionContext σ → Point σ}
    (keeps : KeepsBlocks c.blockCache o.context.blockCache)
    (held : ∀ d, KeepsBlocks c.blockCache d.blockCache → (go d).Held) :
    (Point.after go o).Held := by
  cases o with
  | ok u d => exact held d keeps
  | error e d => trivial

/-- Native code stays in its code or leaves it. -/
lemma held_ofIr {c : ExecutionContext σ} {insn rest level} {r : IrStep σ}
    (keeps : KeepsBlocks c.blockCache r.context.blockCache) {f}
    (held : (Point.native (insn :: rest) level f c).Held) : (Point.ofIr rest level r).Held := by
  cases r with
  | returned e d => trivial
  | undefined d => trivial
  | next f' d =>
    obtain ⟨a, block, mapping, hb, mapped, sameLevel, suffix⟩ := held
    obtain ⟨block', hb', _, compiled⟩ := keeps.block hb
    refine ⟨a, block', mapping, hb', ?_, sameLevel, (List.suffix_cons insn rest).trans suffix⟩
    rw [compiled, ← mapped]
    exact congrFun keeps.nativeCode _

/-- The context after a turn, whether it stops or not. -/
lemma ofTurn_after_context (r : EStateM.Result Failure (ExecutionContext σ) Entry) :
    (Point.ofTurn (Boundary.after r)).context = (Boundary.left r).context := by
  cases r <;> rfl

/-- Nothing is held after a turn. -/
lemma held_ofTurn (r : Boundary σ ⊕ Outcome σ) : (Point.ofTurn r).Held := by
  cases r <;> trivial

/-- Counting an execution. -/
lemma keepsBlocks_counted (c : ExecutionContext σ) (k) :
    KeepsBlocks c.blockCache (c.counted k).blockCache := by
  unfold counted
  cases c.mode with
  | jit => exact KeepsBlocks.modifyBlock _ k fun b => ⟨rfl, rfl⟩
  | switch => exact .refl _
  | threaded => exact .refl _

/-- The first point in native code that is mapped. -/
lemma native_kept {c : ExecutionContext σ} {e native} (h : Consistent c.blockCache)
    (owned : Owned c.blockCache) (mapped : c.blockCache.nativeCode e = some native) :
    (Point.native native.code native.level {} c).Kept := by
  refine ⟨⟨h, trivial⟩, owned, ?_⟩
  obtain ⟨_, a, block, hb, rfl⟩ := owned _ _ mapped
  exact ⟨a, block, native, hb, mapped, rfl, List.suffix_refl _⟩

variable [Host σ] {ir : IrLibrary}

/-- Compiling a block, or finding it compiled. -/
lemma owned_enterBlock {c : ExecutionContext σ} {a block} (h : Consistent c.blockCache)
    (owned : Owned c.blockCache) (hb : c.blockCache.blocks a = some block)
    (hi : ¬ c.Interprets block) :
    Owned (Boundary.left (enterBlock ir a block c)).context.blockCache := by
  rw [enterBlock_of_not_interprets hi]
  cases compiled : block.hasCompiledBlock with
  | true => exact owned
  | false =>
    obtain ⟨is, st, _, instructions⟩ := h.shape hb
    obtain ⟨last, hl⟩ := st.exists_last
    rw [if_neg Bool.false_ne_true, compileAndPublish_toTI (h.key hb) instructions hl]
    have slots : Owned (slotsFor c.blockCache a is last) := owned.of_keepsBlocks (.withSlots _ _)
    have hb' : (slotsFor c.blockCache a is last).blocks a = some block := by
      rw [slotsFor_blocks, hb]
    dsimp only
    split
    case isTrue => exact slots.publish hb' compiled _ _
    case isFalse => exact slots.of_keepsBlocks ⟨fun hb => ⟨_, hb, rfl, rfl⟩, rfl⟩

/-- The first point in a block. -/
lemma enterPoint_kept {c : ExecutionContext σ} {a block} (h : Consistent c.blockCache)
    (owned : Owned c.blockCache) (hb : c.blockCache.blocks a = some block)
    (valid : block.valid = true) : (enterPoint ir a block c).Kept := by
  obtain ⟨hi, entered⟩ | ⟨hi, entered⟩ := enterPoint_cases ir a block c
  case inl =>
    obtain ⟨is, isBlock⟩ := h.isBlock hb
    have typed : ∃ is : List Instr, block.instructions = is.map Instr.toTI :=
      ⟨is, isBlock.instructions⟩
    have keeps := keepsBlocks_counted c a
    have consistent : Consistent (c.counted a).blockCache := by
      obtain ⟨cache, e, _, keep⟩ := counted_eq c a
      rw [e]
      exact keep h
    obtain ⟨block', hb', instructions, _⟩ := keeps.block hb
    have held : ∃ a' block', (c.counted a).blockCache.blocks a' = some block' ∧
        block.instructions <:+ block'.instructions :=
      ⟨a, block', hb', instructions ▸ List.suffix_refl _⟩
    obtain entered | entered := entered
    · rw [entered]
      exact ⟨⟨consistent, typed⟩, owned.of_keepsBlocks keeps, held⟩
    · rw [entered]
      exact ⟨⟨consistent, typed⟩, owned.of_keepsBlocks keeps, held⟩
  case inr =>
    rw [entered]
    have context := ofTurn_after_context (enterBlock ir a block c)
    refine ⟨⟨?_, ?_⟩, ?_, held_ofTurn _⟩
    · rw [context]
      exact (linked_enterBlock h hb valid).cache
    · cases Boundary.after (enterBlock ir a block c) <;> trivial
    · rw [context]
      exact owned_enterBlock h owned hb hi

/-- The step from a boundary. -/
lemma boundaryNext_kept {b : Boundary σ} (kept : (Point.boundary b).Kept) :
    (boundaryNext ir b).Kept := by
  have h : Consistent b.context.blockCache := kept.cache
  have owned : Owned b.context.blockCache := kept.owned
  unfold boundaryNext
  dsimp only
  split
  case isTrue =>
    split
    case isFalse => exact ⟨.stopped h, owned, trivial⟩
    case isTrue =>
      cases fetched : fetchBlock b.context with
      | none => exact kept
      | some r =>
        cases r with
        | error e d =>
          obtain ⟨cache, get, rfl⟩ := fetchBlock_failed fetched
          exact ⟨.stopped (h.getBlock_error get), owned.getBlock_error get, trivial⟩
        | ok block d =>
          obtain ⟨cache, get, rfl⟩ := fetchBlock_ok fetched
          obtain ⟨hc, hb, valid⟩ := h.getBlock_ok get
          exact enterPoint_kept (c := b.context.withCache cache) hc (owned.getBlock_ok get) hb valid
  case isFalse =>
    cases mapped : b.context.blockCache.nativeCode b.entry with
    | some native => exact native_kept h owned mapped
    | none => exact ⟨.stopped h, owned, trivial⟩

/-- No step inside of a block destroys one. -/
lemma pointStep_keepsBlocks {p q : Point σ} (good : p.Good) (inside : p.Inside)
    (step : pointStep ir p = .inl q) : KeepsBlocks p.context.blockCache q.context.blockCache := by
  cases pointStep_cases good.typed step with
  | boundary b => exact inside.elim
  | ended _ follows =>
    rw [follows.context]
    exact .refl _
  | stuck => exact .refl _
  | @interpreted _ i go _ follows =>
    rw [(Point.after_memory follows (i.exec p.context)).2]
    exact .of_changes (i.changes p.context)
  | native insn rest level f c =>
    rw [Point.ofIr_context]
    exact .of_changes (IrInsn.exec_changes ir level f c insn)

/-- A step inside of a block stays in its code or leaves it. -/
lemma pointStep_held {p q : Point σ} (kept : p.Kept) (inside : p.Inside)
    (step : pointStep ir p = .inl q) : q.Held := by
  cases p with
  | boundary b => exact inside.elim
  | stopped o => exact inside.elim
  | switch rest c =>
    obtain ⟨is, rfl⟩ : ∃ is : List Instr, rest = is.map Instr.toTI := kept.typed
    cases is with
    | nil =>
      cases step
      trivial
    | cons i is =>
      cases step
      rw [executeInstructionSwitch_toTI]
      exact held_after (.of_changes (i.changes c)) fun d keeps => held_rest keeps kept.held
  | threaded rest c =>
    obtain ⟨is, rfl⟩ : ∃ is : List Instr, rest = is.map Instr.toTI := kept.typed
    cases is with
    | nil =>
      cases step
      trivial
    | cons i is =>
      cases step
      rw [threadedHandler_execute]
      refine held_after (.of_changes (i.changes c)) fun d keeps => ?_
      -- a handler either dispatches the next instruction or ends the block
      split
      · exact held_rest keeps kept.held
      · trivial
  | native rest level f c =>
    cases rest with
    | nil =>
      cases step
      trivial
    | cons insn rest =>
      cases step
      exact held_ofIr (.of_changes (IrInsn.exec_changes ir level f c insn)) kept.held

/-- Every step keeps native code owned. -/
lemma pointStep_kept {p q : Point σ} (kept : p.Kept) (step : pointStep ir p = .inl q) :
    q.Kept := by
  cases p with
  | boundary b =>
    cases step
    exact boundaryNext_kept kept
  | stopped o => cases step
  | _ =>
    have keeps := pointStep_keepsBlocks kept.toGood trivial step
    exact ⟨(pointStep_changes kept.toGood step).1, kept.owned.of_keepsBlocks keeps,
      pointStep_held kept trivial step⟩

/-- Every point of a run is kept. -/
lemma Point.Kept.reach {p q : Point σ} (kept : p.Kept) (st : Reach (pointStep ir) p q) : q.Kept :=
  Reach.invariant (fun _ _ kept step => pointStep_kept kept step) kept st

/-- What a turn leaves behind. -/
lemma owned_left {p : Point σ} {r : EStateM.Result Failure (ExecutionContext σ) Entry}
    (kept : p.Kept) (st : Reach (pointStep ir) p (.ofTurn (Boundary.after r))) :
    Owned (Boundary.left r).context.blockCache := by
  rw [← ofTurn_after_context]
  exact (kept.reach st).owned

/-- Every point between two blocks that is reached has owners for all native code. -/
lemma Driven.owned {start : ExecutionContext σ} {b}
    (unused : start.blockCache = { compilations := start.blockCache.compilations })
    (h : Driven ir start b) : Owned b.context.blockCache := by
  have fresh := clear_of_unused unused
  induction h with
  | start => exact .unused unused
  | @load c filename file loadAddress _ ih =>
    obtain ⟨_, _, same | clear⟩ := loadBinary_changes filename file loadAddress c
    · exact same ▸ ih
    · exact clear ▸ Owned.clear ih
  | @fault c e d _ fetched ih =>
    obtain ⟨cache, get, rfl⟩ := fetchBlock_failed fetched
    exact Owned.getBlock_error ih get
  | @enter c block d driven fetched ih =>
    obtain ⟨cache, get, rfl⟩ := fetchBlock_ok fetched
    obtain ⟨hc, hb, valid⟩ := (driven.linked fresh).cache.getBlock_ok get
    have kept : (enterPoint ir c.cpu.pc block (c.withCache cache)).Kept :=
      enterPoint_kept hc (Owned.getBlock_ok ih get) hb valid
    exact owned_left kept (reach_enterPoint _ _ _)
  | @chain c entry driven e0 ih =>
    unfold callEntry
    cases mapped : c.blockCache.nativeCode entry with
    | none => exact ih
    | some native =>
      have kept := native_kept (driven.linked fresh).cache ih mapped
      exact owned_left kept (reach_native _ _ _ _)

/-- Native code is neither leaked nor freed too early or twice. At every point that calls of
`loadBinary` and `step` reach, the entry points that are mapped are those of the compiled blocks,
each of which belongs to one block; the code that is being executed belongs to a block that is
stored; and no step inside of a block maps or frees native code. -/
theorem native_code_owned {start : ExecutionContext σ} {b p}
    (unused : start.blockCache = { compilations := start.blockCache.compilations })
    (h : Driven ir start b) (st : Reach (pointStep ir) (.boundary b) p) :
    let cache := p.context.blockCache
    (∀ e, (∃ native, cache.nativeCode e = some native) ↔
      e ≠ 0 ∧ ∃! a, ∃ block, cache.blocks a = some block ∧ block.compiledBlock.entryPoint = e) ∧
    p.Held ∧
    (p.Inside → ∀ q, pointStep ir p = .inl q →
      q.context.blockCache.nativeCode = cache.nativeCode) := by
  intro cache
  have first : (Point.boundary b).Kept :=
    ⟨.boundary (h.linked (clear_of_unused unused)).cache, h.owned unused, trivial⟩
  have kept := first.reach st
  have hc : Consistent cache := kept.cache
  refine ⟨fun e => ⟨?_, ?_⟩, kept.held, fun inside q step => ?_⟩
  · rintro ⟨native, mapped⟩
    obtain ⟨ne, a, block, hb, rfl⟩ := kept.owned _ _ mapped
    refine ⟨ne, a, ⟨block, hb, rfl⟩, ?_⟩
    rintro a' ⟨block', hb', he⟩
    exact hc.distinct hb' hb (he ▸ ne) he
  · rintro ⟨ne, a, ⟨block, hb, rfl⟩, _⟩
    obtain ⟨is, last, level, _, _, _, mapped, _⟩ := hc.native hb ne
    exact ⟨_, mapped⟩
  · exact (pointStep_keepsBlocks kept.toGood inside step).nativeCode

/-- The native code of a block that jumps to itself, before its first instruction. -/
theorem native_code_owned_loop :
    let start := { ExecutionContext.ofMemory (.ofWords [0xFC000000] 0) with mode := .jit }
    ∃ p, (∃ b, Driven .reference start b ∧ Reach (pointStep .reference) (.boundary b) p) ∧
      p.Inside ∧ p.Held ∧
      ∃! a, ∃ block, p.context.blockCache.blocks a = some block ∧
        block.compiledBlock.entryPoint = 1 := by
  intro start
  have fresh : Driven .reference start ⟨start, 0⟩ := .start
  have entered := fresh.enter rfl
  have called (b : Boundary Script) :
      Reach (pointStep .reference) (.boundary b) (boundaryNext .reference b) := .single rfl
  have owned := native_code_owned rfl entered (called _)
  exact ⟨_, ⟨_, entered, called _⟩, trivial, owned.2.1, ((owned.1 1).mp ⟨_, rfl⟩).2⟩

end ToyIsa
