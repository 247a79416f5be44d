import ToyIsa.Block.Enter
import ToyIsa.Jit.Entries
import ToyIsa.Toy.Loader
import ToyIsa.Toy.Scripted

/-!
# The chaining table

A program that embeds the interpreter loads binaries and takes steps in any order and in any
execution status. `Driven` lists the points between two blocks that it can reach. At each of them
the block cache is consistent and the entry point that native code asks for next is in the chaining
table (`Boundary.Linked`).
-/

namespace ToyIsa

open ExecutionContext TIBasicBlockCache

variable {σ : Type}

/-- A consistent cache whose table holds the entry point asked for. -/
structure Boundary.Linked (b : Boundary σ) : Prop where
  cache : Consistent b.context.blockCache
  entry : InTable b.context.blockCache b.entry

/-- The boundary that a call leaves behind, after an exception too. -/
def Boundary.left : EStateM.Result Failure (ExecutionContext σ) Entry → Boundary σ
  | .ok entry c => ⟨c, entry⟩
  | .error e c => ⟨Outcome.context (catchSimulation (.error e c)), 0⟩

/-- A fault does not touch the cache. -/
lemma catchSimulation_blockCache (e) (c : ExecutionContext σ) :
    (Outcome.context (catchSimulation (.error e c))).blockCache = c.blockCache := by
  cases e <;> rfl

/-- What a call leaves is linked if the entry point it returns is in the table. -/
lemma Boundary.linked_left {r : EStateM.Result Failure (ExecutionContext σ) Entry}
    (cache : Consistent (resultContext r).blockCache)
    (entry : ∀ e d, r = .ok e d → InTable d.blockCache e) : (Boundary.left r).Linked := by
  cases r with
  | ok e d => exact ⟨cache, entry e d rfl⟩
  | error e d =>
    refine ⟨?_, .inl rfl⟩
    have same := catchSimulation_blockCache e d
    exact same ▸ cache

/-- Loading a binary clears the cache or leaves it alone, and it leaves the engine alone. -/
lemma loadBinary_changes (filename file loadAddress) (c : ExecutionContext σ) :
    let d := resultContext (loadBinary filename file loadAddress c)
    d.mode = c.mode ∧ d.jitThreshold = c.jitThreshold ∧
      (d.blockCache = c.blockCache ∨ d.blockCache = c.blockCache.clear) := by
  unfold loadBinary
  split
  case isTrue => exact ⟨rfl, rfl, .inl rfl⟩
  case isFalse =>
    cases file with
    | none => exact ⟨rfl, rfl, .inl rfl⟩
    | some reader =>
      dsimp only
      split
      case isTrue => exact ⟨rfl, rfl, .inl rfl⟩
      case isFalse =>
        rw [EState.bind_apply, onMemory_apply]
        cases loadSegments reader.segments false c.memory with
        | error e m => exact ⟨rfl, rfl, .inl rfl⟩
        | ok found m =>
          cases found with
          | false => exact ⟨rfl, rfl, .inl rfl⟩
          | true => exact ⟨rfl, rfl, .inr rfl⟩

variable [Host σ] {ir : IrLibrary}

/-- The points between two blocks that any sequence of calls of `loadBinary` and `step` reaches. An
exception ends the call it happens in and the next one may follow. -/
inductive Driven (ir : IrLibrary) (start : ExecutionContext σ) : Boundary σ → Prop where
  | start : Driven ir start ⟨start, 0⟩
  | load {c} (filename file loadAddress) :
    Driven ir start ⟨c, 0⟩ →
    Driven ir start ⟨resultContext (loadBinary filename file loadAddress c), 0⟩
  | fault {c e d} :
    Driven ir start ⟨c, 0⟩ →
    fetchBlock c = some (.error e d) →
    Driven ir start ⟨d, 0⟩
  | enter {c block d} :
    Driven ir start ⟨c, 0⟩ →
    fetchBlock c = some (.ok block d) →
    Driven ir start (.left (enterBlock ir c.cpu.pc block d))
  | chain {c entry} :
    Driven ir start ⟨c, entry⟩ →
    entry ≠ 0 →
    Driven ir start (.left (callEntry ir entry c))

/-- Following a chain of entry points. -/
lemma Driven.chainLoop {start : ExecutionContext σ} {n entry c o} (h : Driven ir start ⟨c, entry⟩)
    (e : chainLoop ir n entry c = some o) :
    Driven ir start ⟨Outcome.context (catchSimulation o), 0⟩ := by
  induction n generalizing entry c with
  | zero => cases e
  | succ n ih =>
    unfold ToyIsa.chainLoop at e
    by_cases e0 : entry = 0
    · subst e0
      cases e
      exact h
    · rw [if_neg e0] at e
      have next := h.chain e0
      cases x : callEntry ir entry c with
      | error f d =>
        rw [x] at e next
        cases e
        exact next
      | ok entry' d =>
        rw [x] at e next
        exact ih next e

/-- A call of `step` leads from one of the points to another. -/
theorem Driven.step {start : ExecutionContext σ} {n c o} (h : Driven ir start ⟨c, 0⟩)
    (e : step ir n c = some o) : Driven ir start ⟨o.context, 0⟩ := by
  unfold ToyIsa.step at e
  cases f : fetchBlock c with
  | none => rw [f] at e; cases e
  | some r =>
    rw [f] at e
    cases r with
    | error failure d =>
      cases e
      exact h.fault f
    | ok block d =>
      have e' := executeBlock_mono e (Nat.le_succ n)
      have next := h.enter f
      rw [executeBlock_eq] at e'
      cases x : enterBlock ir c.cpu.pc block d with
      | error failure d' =>
        rw [x] at e' next
        cases e'
        exact next
      | ok entry d' =>
        rw [x] at e' next
        obtain ⟨r', hr', rfl⟩ := Option.map_eq_some_iff.mp e'
        exact next.chainLoop hr'

/-- Native code that is in the table keeps the table. -/
lemma linked_callEntry {c : ExecutionContext σ} {entry : Entry}
    (h : Boundary.Linked ⟨c, entry⟩) (e0 : entry ≠ 0) :
    (Boundary.left (callEntry ir entry c)).Linked := by
  obtain e0' | ⟨a, slot⟩ := h.entry
  · exact absurd e0' e0
  obtain ⟨block, hb, _, he⟩ := h.cache.chained slot e0
  obtain ⟨is, last, level, _, _, _, code, _⟩ := h.cache.native hb (he ▸ e0)
  rw [he] at code
  have mapped : c.blockCache.nativeCode entry =
      some { code := blockCode a is last, level := level } := code
  have result : callEntry ir entry c = evalIr ir level (blockCode a is last) {} c := by
    unfold callEntry
    rw [mapped]
  rw [result]
  refine Boundary.linked_left ?_ fun e d r => blockCode_entry r
  exact evalIr_preserves (P := fun c => Consistent c.blockCache)
    (fun insn f c h => h.changes (insn.exec_changes ir level f c)) _ _ h.cache

/-- Entering a block keeps the table. -/
lemma linked_enterBlock {c : ExecutionContext σ} {a block} (h : Consistent c.blockCache)
    (hb : c.blockCache.blocks a = some block) (valid : block.valid = true) :
    (Boundary.left (enterBlock ir a block c)).Linked := by
  obtain ⟨is, st, _, instructions⟩ := h.shape hb
  by_cases hi : c.Interprets block
  case pos =>
    rw [enterBlock_of_interprets st instructions hi]
    obtain ⟨cache, e, _, keep⟩ := counted_eq c a
    have start : Consistent (c.counted a).blockCache := by
      rw [e]
      exact keep h
    cases x : execAll is (c.counted a) with
    | ok u d =>
      refine Boundary.linked_left (start.execAll (.inl x)) fun e d r => .inl ?_
      cases r
      rfl
    | error e d => exact Boundary.linked_left (start.execAll (.inr ⟨e, x⟩)) nofun
  case neg =>
    rw [enterBlock_of_not_interprets hi]
    split
    case isTrue compiled =>
      -- a compiled block that is valid is published under its own address
      refine Boundary.linked_left h fun e d r => .inr ⟨a, ?_⟩
      cases r
      exact h.published hb valid ((hasCompiledBlock_iff block).mp compiled)
    case isFalse =>
      obtain ⟨last, hl⟩ := st.exists_last
      rw [compileAndPublish_toTI (h.key hb) instructions hl]
      -- compilation may fail after it has created the slots of the successors
      have slots : Consistent (slotsFor c.blockCache a is last) := h.withSlots _
      have hb' : (slotsFor c.blockCache a is last).blocks a = some block := by
        rw [slotsFor_blocks, hb]
      simp only
      split
      case isFalse => exact Boundary.linked_left slots.compilationRefused nofun
      case isTrue =>
        refine Boundary.linked_left
          (slots.publish hb' valid st instructions hl (hasSlots_withSlots _ _)) fun e d r => ?_
        cases r
        exact .inr ⟨a, Function.update_self _ _ _⟩

/-- Every point that is reached is linked. -/
theorem Driven.linked {start : ExecutionContext σ} {b}
    (fresh : start.blockCache = start.blockCache.clear) (h : Driven ir start b) : b.Linked := by
  induction h with
  | start => exact ⟨fresh ▸ Consistent.clear start.blockCache, .inl rfl⟩
  | @load c filename file loadAddress _ ih =>
    -- a load either keeps the cache or clears it
    refine ⟨?_, .inl rfl⟩
    obtain ⟨_, _, same | clear⟩ := loadBinary_changes filename file loadAddress c
    · exact same ▸ ih.cache
    · exact clear ▸ Consistent.clear c.blockCache
  | @fault c e d _ fetched ih =>
    obtain ⟨cache, get, rfl⟩ := fetchBlock_failed fetched
    exact ⟨ih.cache.getBlock_error get, .inl rfl⟩
  | @enter c block d _ fetched ih =>
    obtain ⟨cache, get, rfl⟩ := fetchBlock_ok fetched
    obtain ⟨hc, hb, valid⟩ := ih.cache.getBlock_ok get
    exact linked_enterBlock hc hb valid
  | chain _ e0 ih => exact linked_callEntry ih e0

/-- At every point between two blocks that calls of `loadBinary` and `step` reach, the chaining
table holds the entry points of the valid compiled blocks, each under the address of its block, and
an entry point that is about to be called is one of them. -/
theorem chaining_table {start : ExecutionContext σ} {b}
    (fresh : start.blockCache = start.blockCache.clear) (h : Driven ir start b) :
    let cache := b.context.blockCache
    (∀ a, (∃ e, e ≠ 0 ∧ cache.jitEntries a = some e) ↔
      ∃ block, cache.blocks a = some block ∧ block.valid = true ∧ block.hasCompiledBlock = true) ∧
    (∀ a e, e ≠ 0 → cache.jitEntries a = some e →
      ∃ block, cache.blocks a = some block ∧ block.valid = true ∧
        block.compiledBlock.entryPoint = e ∧ block.startAddress = a) ∧
    (b.entry ≠ 0 → ∃ a block, cache.blocks a = some block ∧ block.valid = true ∧
      block.compiledBlock.entryPoint = b.entry ∧ HasNative cache a block) := by
  intro cache
  have linked := h.linked fresh
  have hc : Consistent cache := linked.cache
  refine ⟨fun a => ⟨?_, ?_⟩, fun a e ne slot => ?_, fun ne => ?_⟩
  · rintro ⟨e, ne, slot⟩
    obtain ⟨block, hb, valid, rfl⟩ := hc.chained slot ne
    exact ⟨block, hb, valid, (hasCompiledBlock_iff block).mpr ne⟩
  · rintro ⟨block, hb, valid, compiled⟩
    have ne := (hasCompiledBlock_iff block).mp compiled
    exact ⟨_, ne, hc.published hb valid ne⟩
  · obtain ⟨block, hb, valid, he⟩ := hc.chained slot ne
    exact ⟨block, hb, valid, he, hc.key hb⟩
  · obtain e0 | ⟨a, slot⟩ := linked.entry
    · exact absurd e0 ne
    · obtain ⟨block, hb, valid, he⟩ := hc.chained slot ne
      exact ⟨a, block, hb, valid, he, hc.native hb (he ▸ ne)⟩

/-- A block that jumps to itself, entered for the first time. -/
theorem chaining_table_loop :
    let start := { ExecutionContext.ofMemory (.ofWords [0xFC000000] 0) with mode := .jit }
    ∃ b, Driven .reference start b ∧ b.entry = 1 ∧
      ∃ a block, b.context.blockCache.blocks a = some block ∧ block.valid = true ∧
        block.compiledBlock.entryPoint = b.entry ∧ HasNative b.context.blockCache a block := by
  intro start
  have fresh : Driven .reference start ⟨start, 0⟩ := .start
  have entered := fresh.enter rfl
  exact ⟨_, entered, rfl, (chaining_table empty_clear entered).2.2 (by decide)⟩

end ToyIsa
