import ToyIsa.Faults.Status
import ToyIsa.Jit.Aligned
import ToyIsa.Step.Changes
import ToyIsa.Toy.Scripted

/-!
# The PC of a run is aligned

`Point.OnWords` is the invariant: the PC is a multiple of the size of an instruction, and so are the
keys of both tables of the block cache and the addresses that compiled code stores in the PC. Every
step keeps it (`Point.OnWords.step`), so a look-up at the PC fails only where the first word of the
block is out of bounds (`pc_aligned`).
-/

namespace ToyIsa

open Machine ExecutionContext TIBasicBlockCache

variable {σ : Type}

/-- The keys of a cache of a memory of `size` bytes. -/
structure KeysAligned (size : Nat) (cache : TIBasicBlockCache) : Prop where
  block : ∀ {a b}, cache.blocks a = some b → Aligned a ∧ a.toNat + 4 ≤ size
  slot : ∀ {a e}, cache.jitEntries a = some e → Aligned a
  code : ∀ {e native}, cache.nativeCode e = some native → CodeAligned native.code

namespace KeysAligned

variable {size : Nat} {cache cache' : TIBasicBlockCache} {a : Word}

/-- A cache that was never used has no keys. -/
lemma unused (h : cache = { compilations := cache.compilations }) : KeysAligned size cache where
  block hb := by rw [h] at hb; cases hb
  slot he := by rw [h] at he; cases he
  code hn := by rw [h] at hn; cases hn

/-- A cache without new keys. -/
lemma mono (h : KeysAligned size cache)
    (blocks : ∀ {a}, cache.blocks a = none → cache'.blocks a = none)
    (slots : ∀ {a}, cache.jitEntries a = none → cache'.jitEntries a = none)
    (code : ∀ {e native}, cache'.nativeCode e = some native → cache.nativeCode e = some native) :
    KeysAligned size cache' where
  block {a b} hb := by
    cases old : cache.blocks a with
    | none => rw [blocks old] at hb; cases hb
    | some b' => exact h.block old
  slot {a e} he := by
    cases old : cache.jitEntries a with
    | none => rw [slots old] at he; cases he
    | some e' => exact h.slot old
  code hn := h.code (code hn)

/-- A change of a block adds no key. -/
lemma modifyBlock (h : KeysAligned size cache) (k f) :
    KeysAligned size (cache.modifyBlock k f) := by
  refine h.mono (fun {a} none => ?_) id id
  unfold TIBasicBlockCache.modifyBlock
  by_cases ne : a = k
  · subst ne
    simp only [Function.update_self, none, Option.map_none]
  · simp only [Function.update_of_ne ne, none]

/-- An invalidation adds no key. -/
lemma invalidateRange (h : KeysAligned size cache) (address n) :
    KeysAligned size (cache.invalidateRange address n) := by
  refine h.mono (fun {a} none => ?_) (fun {a} none => ?_) id
  · simp only [TIBasicBlockCache.invalidateRange, none, Option.map_none, ite_self]
  · simp only [TIBasicBlockCache.invalidateRange, none, Option.map_none, ite_self]

/-- Several invalidations add no key. -/
lemma invalidateAll (h : KeysAligned size cache) (ranges) :
    KeysAligned size (cache.invalidateAll ranges) := by
  induction ranges generalizing cache with
  | nil => exact h
  | cons range ranges ih => exact ih (h.invalidateRange range.address range.size)

/-- A destroyed block leaves no key behind. -/
lemma dropped (h : KeysAligned size cache) (a) : KeysAligned size (cache.dropped a) := by
  unfold TIBasicBlockCache.dropped
  split
  case h_2 => exact h
  case h_1 b _ =>
    refine h.mono (fun {a'} none => ?_) id fun {e native} mapped => ?_
    · by_cases ne : a' = a
      · subst ne
        exact Function.update_self _ _ _
      · exact (Function.update_of_ne ne _ _).trans none
    -- the native code of the block is unmapped, the other code stays
    · simp only [TIBasicBlockCache.erase] at mapped
      split at mapped
      case isFalse => exact mapped
      case isTrue =>
        exact (PartialMap.remove_eq_some mapped).2

/-- A new block at an aligned address in memory. -/
lemma insertBlock (h : KeysAligned size cache) (ha : Aligned a) (fits : a.toNat + 4 ≤ size) (l) :
    KeysAligned size (cache.insertBlock a l) where
  block {a' b} hb := by
    obtain ⟨rfl, _⟩ | ⟨_, hb⟩ := PartialMap.insert_eq_some hb
    · exact ⟨ha, fits⟩
    · exact h.block hb
  slot := h.slot
  code := h.code

/-- A new slot of an aligned address. -/
lemma jitEntrySlot (h : KeysAligned size cache) (ha : Aligned a) :
    KeysAligned size (cache.jitEntrySlot a) where
  block hb := h.block (by simpa using hb)
  slot {a' e} he := by
    unfold TIBasicBlockCache.jitEntrySlot at he
    split at he
    case h_1 => exact h.slot he
    case h_2 =>
      obtain ⟨rfl, _⟩ | ⟨_, he⟩ := PartialMap.insert_eq_some he
      · exact ha
      · exact h.slot he
  code hn := h.code (by simpa using hn)

/-- New slots of aligned addresses. -/
lemma withSlots (h : KeysAligned size cache) {addresses} (ha : ∀ a ∈ addresses, Aligned a) :
    KeysAligned size (withSlots cache addresses) := by
  induction addresses generalizing cache with
  | nil => exact h
  | cons a addresses ih =>
    obtain ⟨head, tail⟩ := List.forall_mem_cons.mp ha
    exact ih (h.jitEntrySlot head) tail

/-- A block that is compiled has an aligned address. -/
lemma publish (h : KeysAligned size cache) {code} (ha : Aligned a) (hc : CodeAligned code)
    (level) : KeysAligned size (cache.publish a code level) := by
  have mapped : KeysAligned size { cache with
      compilations := cache.compilations + 1
      nativeCode := Function.update cache.nativeCode (cache.compilations + 1)
        (some { code := code, level := level }) } := by
    refine ⟨h.block, h.slot, fun {e native} hn => ?_⟩
    obtain ⟨_, rfl⟩ | ⟨_, hn⟩ := PartialMap.insert_eq_some hn
    · exact hc
    · exact h.code hn
  have stored := mapped.modifyBlock a (·.setCompiledBlock { entryPoint := cache.compilations + 1 })
  refine ⟨stored.block, fun {a' e} he => ?_, stored.code⟩
  obtain ⟨rfl, _⟩ | ⟨_, he⟩ := PartialMap.insert_eq_some he
  · exact ha
  · exact stored.slot he

/-- No change of a run adds keys. -/
lemma changes {act} {c d : ExecutionContext σ} (h : KeysAligned size c.blockCache)
    (ch : Changes act c d) : KeysAligned size d.blockCache := by
  cases ch with
  | nothing _ _ cache => exact cache ▸ h
  | stored _ cache => exact cache ▸ h
  | called _ _ _ cache => exact cache ▸ h
  | flushed _ cache => exact cache ▸ h.invalidateAll _

end KeysAligned

/-- The native code that is left at a point. -/
def Point.nativeRest : Point σ → List IrInsn
  | .native rest _ _ _ => rest
  | _ => []

/-- PC, cache and native code of a run in a memory of `size` bytes. -/
structure Point.OnWords (size : Nat) (p : Point σ) : Prop where
  memory : p.context.memory.size = size
  pc : Aligned p.context.cpu.pc
  keys : KeysAligned size p.context.blockCache
  code : CodeAligned p.nativeRest

/-- A word at an aligned address is read if it fits in memory. -/
lemma Aligned.read32 {memory : TIMemory} {a : Word} (h : Aligned a) :
    (Fits memory a ∧ ∃ w, memory.read32 a = .ok w) ∨
      (¬ Fits memory a ∧ memory.read32 a = .error (TIMemory.outOfBounds a)) := by
  by_cases fits : Fits memory a
  · obtain ⟨i, w, read, _⟩ := holds_of_fits h fits
    exact .inl ⟨fits, w, read⟩
  · refine .inr ⟨fits, ?_⟩
    rw [TIMemory.read32_eq, if_neg fun bounds => fits bounds.1]

/-- A block that is decoded starts inside of the memory. -/
lemma Decodes.fits {memory : TIMemory} {a : Word} {is} (h : Decodes memory a is) :
    Fits memory a := by
  cases h with
  | last first _ => exact first.inBounds.1.1
  | cons first _ _ _ => exact first.inBounds.1.1

variable [Host σ] {ir : IrLibrary} {size : Nat}

namespace Point.OnWords

omit [Host σ] in
/-- A point in front of a block. -/
lemma boundary {c : ExecutionContext σ} {entry} (memory : c.memory.size = size)
    (pc : Aligned c.cpu.pc) (keys : KeysAligned size c.blockCache) :
    OnWords size (.boundary ⟨c, entry⟩) := ⟨memory, pc, keys, codeAligned_nil⟩

omit [Host σ] in
/-- A point in interpreted code runs no native code. -/
lemma follows {d : ExecutionContext σ} {q : Point σ} (memory : d.memory.size = size)
    (pc : Aligned d.cpu.pc) (keys : KeysAligned size d.blockCache) (h : q.Follows d) :
    OnWords size q := by
  cases h with
  | boundary => exact .boundary memory pc keys
  | switch is => exact ⟨memory, pc, keys, codeAligned_nil⟩
  | threaded is => exact ⟨memory, pc, keys, codeAligned_nil⟩

omit [Host σ] in
/-- A call that ends with an exception leaves PC and cache alone. -/
lemma ofTurn {r : EStateM.Result Failure (ExecutionContext σ) Entry}
    (memory : (resultContext r).memory.size = size) (pc : Aligned (resultContext r).cpu.pc)
    (keys : KeysAligned size (resultContext r).blockCache) :
    OnWords size (.ofTurn (Boundary.after r)) := by
  cases r with
  | ok entry d => exact .boundary memory pc keys
  | error e d => cases e <;> exact ⟨memory, pc, keys, codeAligned_nil⟩

/-- The first point in a block that was fetched. -/
lemma enter {c : ExecutionContext σ} {block} (cached : Consistent c.blockCache)
    (hb : c.blockCache.blocks c.cpu.pc = some block) (memory : c.memory.size = size)
    (pc : Aligned c.cpu.pc) (keys : KeysAligned size c.blockCache) :
    OnWords size (enterPoint ir c.cpu.pc block c) := by
  obtain ⟨_, entered⟩ | ⟨hi, entered⟩ := enterPoint_cases ir c.cpu.pc block c
  · obtain ⟨cache, e, keys'⟩ : ∃ cache, c.counted c.cpu.pc = c.withCache cache ∧
        KeysAligned size cache := by
      unfold counted
      cases c.mode with
      | jit => exact ⟨_, rfl, keys.modifyBlock _ _⟩
      | switch => exact ⟨c.blockCache, rfl, keys⟩
      | threaded => exact ⟨c.blockCache, rfl, keys⟩
    rw [e] at entered
    obtain entered | entered := entered
    · rw [entered]
      exact ⟨memory, pc, keys', codeAligned_nil⟩
    · rw [entered]
      exact ⟨memory, pc, keys', codeAligned_nil⟩
  · rw [entered, enterBlock_of_not_interprets hi]
    split
    case isTrue => exact .boundary memory pc keys
    case isFalse =>
      obtain ⟨is, isBlock⟩ := cached.isBlock hb
      obtain ⟨last, hl⟩ := isBlock.straight.exists_last
      rw [compileAndPublish_toTI (cached.key hb) isBlock.instructions hl]
      -- the slots of the successors are created before the compilation can fail
      have slots : KeysAligned size (slotsFor c.blockCache c.cpu.pc is last) :=
        keys.withSlots (last.successors_aligned (aligned_wordAt pc _))
      dsimp only
      split
      case isTrue => exact ofTurn memory pc (slots.publish pc (blockCode_aligned pc is last) _)
      case isFalse => exact ofTurn memory pc ⟨slots.block, slots.slot, slots.code⟩

/-- The step from a boundary. -/
lemma boundaryNext {b : Boundary σ} (cached : Consistent b.context.blockCache)
    (h : OnWords size (.boundary b)) : OnWords size (ToyIsa.boundaryNext ir b) := by
  have stays : OnWords size (.stopped (.ok () b.context)) := ⟨h.memory, h.pc, h.keys, h.code⟩
  unfold ToyIsa.boundaryNext
  dsimp only
  split
  case isFalse =>
    cases mapped : b.context.blockCache.nativeCode b.entry with
    | some native => exact ⟨h.memory, h.pc, h.keys, h.keys.code mapped⟩
    | none => exact ⟨h.memory, h.pc, h.keys, codeAligned_nil⟩
  case isTrue =>
    split
    case isFalse => exact stays
    case isTrue =>
      unfold fetchBlock
      have fetch := getBlock_cases b.context.blockCache b.context.cpu.pc b.context.memory
      cases fetched : b.context.blockCache.getBlock b.context.cpu.pc b.context.memory with
      | none => exact h
      | some r =>
        rw [fetched] at fetch
        cases r with
        | error e cache =>
          cases fetch with
          | fault => exact ⟨h.memory, h.pc, KeysAligned.dropped h.keys _, codeAligned_nil⟩
        | ok block cache =>
          obtain ⟨cached', hb, _⟩ := cached.getBlock_ok fetched
          refine enter (c := b.context.withCache cache) cached' hb h.memory h.pc ?_
          cases fetch with
          | hit => exact h.keys
          | decoded _ decodes _ =>
            have fits : b.context.cpu.pc.toNat + 4 ≤ b.context.memory.size := decodes.fits
            exact (KeysAligned.dropped h.keys _).insertBlock h.pc (h.memory ▸ fits) _

/-- The step that executes an interpreted instruction. -/
lemma after {p : Point σ} {i : Instr} {go : ExecutionContext σ → Point σ} (h : OnWords size p)
    (follows : ∀ d, (go d).Follows d) : OnWords size (Point.after go (i.exec p.context)) := by
  have changes := i.changes p.context
  have memory := changes.layout.2.trans h.memory
  have keys := KeysAligned.changes h.keys changes
  have pc : Aligned (i.exec p.context).context.cpu.pc := by
    obtain same | ⟨d, at_pc, e⟩ := Instr.exec_pc (i := i) (c := p.context)
    · rw [same]
      exact h.pc
    · rw [e]
      exact i.nextPc_aligned (at_pc ▸ h.pc)
  cases x : i.exec p.context with
  | ok u d =>
    rw [x] at memory keys pc
    exact .follows memory pc keys (follows d)
  | error e d =>
    rw [x] at memory keys pc
    cases e <;> exact ⟨memory, pc, keys, codeAligned_nil⟩

/-- The step that executes an instruction of native code. -/
lemma ofIr {insn : IrInsn} {rest : List IrInsn} {level f} {c : ExecutionContext σ}
    (h : OnWords size (.native (insn :: rest) level f c)) :
    OnWords size (.ofIr rest level (insn.exec ir level f c)) := by
  obtain ⟨aligned, code⟩ := codeAligned_cons.mp h.code
  have memory := (IrInsn.exec_setup ir level f c insn).size.trans h.memory
  have keys := KeysAligned.changes h.keys (IrInsn.exec_changes ir level f c insn)
  have pc : Aligned (insn.exec ir level f c).context.cpu.pc := by
    have leaves := IrInsn.exec_cases ir level f c insn
    generalize (insn.exec ir level f c).context = d at leaves
    have here : Aligned c.cpu.pc := h.pc
    cases leaves with
    | same => exact here
    | register => exact here
    | pc value =>
      -- the address was known when the block was compiled
      obtain ⟨w, rfl, hw⟩ := aligned
      cases value
      exact hw
    | @called callee args values _ =>
      obtain pc | pc := (callHelper_frame f c callee values).pc
      · rw [pc]
        exact here
      · rw [pc]
        exact here.next
  cases x : insn.exec ir level f c with
  | next f' d => rw [x] at memory keys pc; exact ⟨memory, pc, keys, code⟩
  | returned entry d => rw [x] at memory keys pc; exact ⟨memory, pc, keys, codeAligned_nil⟩
  | undefined d => rw [x] at memory keys pc; exact ⟨memory, pc, keys, codeAligned_nil⟩

/-- Every step of a run keeps the PC aligned. -/
theorem step {p q : Point σ} (good : p.Good) (h : OnWords size p)
    (e : pointStep ir p = .inl q) : OnWords size q := by
  cases pointStep_cases good.typed e with
  | boundary b => exact boundaryNext good.cache h
  | ended _ next => exact follows h.memory h.pc h.keys next
  | stuck _ => exact ⟨h.memory, h.pc, h.keys, codeAligned_nil⟩
  | interpreted _ next => exact after h next
  | native => exact ofIr h

end Point.OnWords

omit [Host σ] in
/-- A look-up fails only where the first word of the block is out of bounds. -/
lemma fetchBlock_outOfBounds {c d : ExecutionContext σ} {e} (aligned : Aligned c.cpu.pc)
    (h : fetchBlock c = some (.error e d)) :
    e = TIMemory.outOfBounds c.cpu.pc ∧ c.memory.size < c.cpu.pc.toNat + 4 := by
  obtain ⟨cache, get, _⟩ := fetchBlock_failed h
  have fetch := getBlock_cases c.blockCache c.cpu.pc c.memory
  rw [get] at fetch
  cases fetch with
  | fault _ failed =>
    obtain ⟨_, w, read⟩ | ⟨out, failed'⟩ := aligned.read32
    · cases read.symm.trans failed
    · exact ⟨Except.error.inj (failed.symm.trans failed'), Nat.lt_of_not_le out⟩

omit [Host σ] in
/-- No block is stored, and none is decoded, where the first word is out of bounds. -/
lemma fetchBlock_of_out {c : ExecutionContext σ} (aligned : Aligned c.cpu.pc)
    (keys : KeysAligned c.memory.size c.blockCache) (out : c.memory.size < c.cpu.pc.toNat + 4) :
    ∃ e d, fetchBlock c = some (.error e d) := by
  have unread : c.memory.read32 c.cpu.pc = .error (TIMemory.outOfBounds c.cpu.pc) := by
    obtain ⟨fits, _⟩ | ⟨_, failed⟩ := aligned.read32
    · exact absurd fits (Nat.not_le_of_lt out)
    · exact failed
  have missing : NoValid c.blockCache c.cpu.pc := fun b hb =>
    absurd (keys.block hb).2 (Nat.not_le_of_lt out)
  obtain ⟨code, message, d, fails, _⟩ := fetchBlock_of_fails ⟨missing, _, unread⟩
  exact ⟨_, d, fails⟩

/-- In a run of any engine that starts with an aligned PC, every PC is aligned, and so are the
addresses of all cached blocks and chaining slots. A block is looked up without an exception exactly
if the word at the PC is in memory, and the exception says that it is not. -/
theorem pc_aligned {start : ExecutionContext σ} {p}
    (unused : start.blockCache = { compilations := start.blockCache.compilations })
    (aligned : Aligned start.cpu.pc) (st : Reach (pointStep ir) (.boundary ⟨start, 0⟩) p) :
    let c := p.context
    Aligned c.cpu.pc ∧
    (∀ a b, c.blockCache.blocks a = some b → Aligned a) ∧
    (∀ a e, c.blockCache.jitEntries a = some e → Aligned a) ∧
    (∀ e d, fetchBlock c = some (.error e d) → e = TIMemory.outOfBounds c.cpu.pc) ∧
    ((∃ e d, fetchBlock c = some (.error e d)) ↔ c.memory.size < c.cpu.pc.toNat + 4) := by
  intro c
  have first : Point.OnWords start.memory.size (.boundary ⟨start, 0⟩) :=
    .boundary rfl aligned (.unused unused)
  have good : Point.Good (.boundary ⟨start, 0⟩) :=
    .boundary (clear_of_unused unused ▸ Consistent.clear start.blockCache)
  have words : p.Good ∧ p.OnWords start.memory.size :=
    Reach.invariant (P := fun p => p.Good ∧ p.OnWords start.memory.size)
      (fun p q h e => ⟨(pointStep_changes h.1 e).1, h.2.step h.1 e⟩) ⟨good, first⟩ st
  have pc : Aligned c.cpu.pc := words.2.pc
  have keys : KeysAligned c.memory.size c.blockCache := words.2.memory.symm ▸ words.2.keys
  refine ⟨pc, fun a b hb => (keys.block hb).1, fun a e he => keys.slot he, fun e d h => ?_, ?_, ?_⟩
  · exact (fetchBlock_outOfBounds pc h).1
  · rintro ⟨e, d, h⟩
    exact (fetchBlock_outOfBounds pc h).2
  · exact fetchBlock_of_out pc keys

/-- A program of one word that jumps behind the end of the memory. -/
theorem pc_aligned_jump :
    let start := { ExecutionContext.ofMemory (.ofWords [0xFC000001] 0) with
      mode := .jit, jitThreshold := 1 }
    ∃ p, Reach (pointStep .reference) (.boundary ⟨start, 0⟩) p ∧ p.context.cpu.pc = 4 ∧
      ∃ e d, fetchBlock p.context = some (.error e d) := by
  intro start
  have jumped : Reach (pointStep .reference) (.boundary ⟨start, 0⟩) _ := .head rfl (.single rfl)
  have fails := (pc_aligned rfl (by decide) jumped).2.2.2.2.mpr (by decide)
  exact ⟨_, jumped, by decide, fails⟩

end ToyIsa
