import ToyIsa.Engine.Run
import ToyIsa.Jit.Native
import ToyIsa.Lib.PartialMap

/-!
# The invariant of the block cache

`Consistent` ties the three maps of a cache together. A block is stored under its own address. The
chaining slot of an address is not null exactly if a valid compiled block is stored there, and then
it is the entry point of that block. A compiled block owns the native code at its entry point, which
is the code of its instructions. Every operation of the cache keeps the invariant.
-/

namespace ToyIsa

open TIBasicBlockCache

/-- The native code of a block stored under `a`. -/
def HasNative (cache : TIBasicBlockCache) (a : Word) (b : TIBasicBlock) : Prop :=
  ∃ is last level, Straight is ∧ b.instructions = is.map Instr.toTI ∧ is.getLast? = some last ∧
    cache.nativeCode b.compiledBlock.entryPoint =
      some { code := blockCode a is last, level := level } ∧
    HasSlots cache (last.successors (wordAt a (is.length - 1)))

structure Consistent (cache : TIBasicBlockCache) : Prop where
  key : ∀ {a b}, cache.blocks a = some b → b.startAddress = a
  shape : ∀ {a b}, cache.blocks a = some b →
    ∃ is, Straight is ∧ is.length ≤ addressSpaceWords ∧ b.instructions = is.map Instr.toTI
  chained : ∀ {a e}, cache.jitEntries a = some e → e ≠ 0 →
    ∃ b, cache.blocks a = some b ∧ b.valid = true ∧ b.compiledBlock.entryPoint = e
  published : ∀ {a b}, cache.blocks a = some b → b.valid = true →
    b.compiledBlock.entryPoint ≠ 0 → cache.jitEntries a = some b.compiledBlock.entryPoint
  native : ∀ {a b}, cache.blocks a = some b → b.compiledBlock.entryPoint ≠ 0 →
    HasNative cache a b
  distinct : ∀ {a a' b b'}, cache.blocks a = some b → cache.blocks a' = some b' →
    b.compiledBlock.entryPoint ≠ 0 →
    b.compiledBlock.entryPoint = b'.compiledBlock.entryPoint → a = a'
  bound : ∀ {a b}, cache.blocks a = some b → b.compiledBlock.entryPoint ≤ cache.compilations

/-- A block is compiled if its entry point is not null. -/
lemma hasCompiledBlock_iff (b : TIBasicBlock) :
    b.hasCompiledBlock = true ↔ b.compiledBlock.entryPoint ≠ 0 := by
  simp [TIBasicBlock.hasCompiledBlock, TICompiledBlock.empty]

/-- The cache with a new block under `k`. -/
def TIBasicBlockCache.insertBlock (cache : TIBasicBlockCache) (k : Word)
    (instructions : List TIInstruction) : TIBasicBlockCache :=
  let block := { startAddress := k, instructions := instructions }
  { cache with blocks := Function.update cache.blocks k (some block) }

namespace TIBasicBlockCache

/-- A cache that has just been cleared has nothing left to destroy. -/
lemma clear_clear (cache : TIBasicBlockCache) : cache.clear.clear = cache.clear := by
  have none : ∀ e, ¬ ∃ key, (cache.clear.blocks key).any (·.owns e) := by
    rintro e ⟨_, owned⟩
    cases owned
  unfold clear
  simp only [mk.injEq, true_and, and_true]
  funext e
  exact if_neg (none e)

/-- A cache in which nothing is stored has nothing to destroy. -/
lemma clear_unused (n : Nat) :
    clear { compilations := n } = { compilations := n } := by
  unfold clear
  simp only [Option.any_none, Bool.false_eq_true, exists_false, if_false]

/-- The cache of a new context. -/
lemma empty_clear : ({} : TIBasicBlockCache) = clear {} := (clear_unused 0).symm

/-- Clearing a cache that was never used does nothing. -/
lemma clear_of_unused {cache : TIBasicBlockCache}
    (unused : cache = { compilations := cache.compilations }) : cache = cache.clear := by
  have same := clear_unused cache.compilations
  rw [← unused] at same
  exact same.symm

/-- Clearing unmaps the code that a block owns, and no other code. -/
lemma clear_nativeCode {cache : TIBasicBlockCache} {e native}
    (mapped : cache.clear.nativeCode e = some native) :
    cache.nativeCode e = some native ∧
      ∀ a b, cache.blocks a = some b → b.owns e = false := by
  simp only [clear] at mapped
  split at mapped
  case isTrue => cases mapped
  case isFalse kept =>
    refine ⟨mapped, fun a b hb => ?_⟩
    rw [Bool.eq_false_iff]
    exact fun owned => kept ⟨a, by rw [hb]; exact owned⟩

end TIBasicBlockCache

namespace Consistent

variable {cache : TIBasicBlockCache}

/-- A cache without blocks. -/
lemma clear (cache : TIBasicBlockCache) : Consistent cache.clear where
  key h := by cases h
  shape h := by cases h
  chained h := by cases h
  published h := by cases h
  native h := by cases h
  distinct h := by cases h
  bound h := by cases h

/-- A new cache is consistent. -/
lemma empty : Consistent {} := empty_clear ▸ clear {}

/-- Creating a slot keeps the slots that exist. -/
lemma jitEntrySlot_of_some {a b e} (h : cache.jitEntries a = some e) :
    (cache.jitEntrySlot b).jitEntries a = some e := by
  unfold jitEntrySlot
  split
  case h_1 => exact h
  case h_2 hb =>
    have ne : a ≠ b := by
      rintro rfl
      rw [h] at hb
      cases hb
    exact (Function.update_of_ne ne _ _).trans h

/-- A slot that is not null existed before. -/
lemma of_jitEntrySlot {a b e} (h : (cache.jitEntrySlot b).jitEntries a = some e) (he : e ≠ 0) :
    cache.jitEntries a = some e := by
  unfold jitEntrySlot at h
  split at h
  case h_1 => exact h
  case h_2 =>
    obtain ⟨_, null⟩ | ⟨_, h⟩ := PartialMap.insert_eq_some h
    · exact absurd null he
    · exact h

/-- Creating a slot keeps the blocks. -/
@[simp] lemma jitEntrySlot_blocks (a) : (cache.jitEntrySlot a).blocks = cache.blocks := by
  unfold jitEntrySlot
  split <;> rfl

/-- Creating a slot keeps the native code. -/
@[simp] lemma jitEntrySlot_nativeCode (a) :
    (cache.jitEntrySlot a).nativeCode = cache.nativeCode := by
  unfold jitEntrySlot
  split <;> rfl

/-- Creating a slot compiles nothing. -/
@[simp] lemma jitEntrySlot_compilations (a) :
    (cache.jitEntrySlot a).compilations = cache.compilations := by
  unfold jitEntrySlot
  split <;> rfl

/-- The native code of a block survives where native code and slots do. -/
lemma HasNative.mono {cache' : TIBasicBlockCache} {a b b'} (h : HasNative cache a b)
    (instructions : b'.instructions = b.instructions)
    (entry : b'.compiledBlock = b.compiledBlock)
    (code : cache'.nativeCode b.compiledBlock.entryPoint =
      cache.nativeCode b.compiledBlock.entryPoint)
    (slots : ∀ a e, cache.jitEntries a = some e → ∃ e', cache'.jitEntries a = some e') :
    HasNative cache' a b' := by
  obtain ⟨is, last, level, st, hi, hl, hc, hs⟩ := h
  refine ⟨is, last, level, st, instructions.trans hi, hl, ?_, fun s mem => ?_⟩
  · rw [entry, code, hc]
  · obtain ⟨e, he⟩ := hs s mem
    exact slots s e he

/-- Every block of `cache'` is a block of `cache` with the same code, which is still mapped, and no
slot has gone. -/
structure SameCode (cache cache' : TIBasicBlockCache) : Prop where
  block : ∀ {a b}, cache'.blocks a = some b → ∃ b', cache.blocks a = some b' ∧
    b.startAddress = b'.startAddress ∧ b.instructions = b'.instructions ∧
    b.compiledBlock = b'.compiledBlock
  nativeCode : ∀ {a b}, cache'.blocks a = some b → b.compiledBlock.entryPoint ≠ 0 →
    cache'.nativeCode b.compiledBlock.entryPoint = cache.nativeCode b.compiledBlock.entryPoint
  slot : ∀ a e, cache.jitEntries a = some e → ∃ e', cache'.jitEntries a = some e'
  compilations : cache'.compilations = cache.compilations

/-- Where the blocks keep their code, only the slots are left to check. -/
lemma of_sameCode {cache' : TIBasicBlockCache} (h : Consistent cache)
    (same : SameCode cache cache')
    (chained : ∀ {a e}, cache'.jitEntries a = some e → e ≠ 0 →
      ∃ b, cache'.blocks a = some b ∧ b.valid = true ∧ b.compiledBlock.entryPoint = e)
    (published : ∀ {a b}, cache'.blocks a = some b → b.valid = true →
      b.compiledBlock.entryPoint ≠ 0 → cache'.jitEntries a = some b.compiledBlock.entryPoint) :
    Consistent cache' where
  key hb := by
    obtain ⟨b', hb', start, _⟩ := same.block hb
    exact start.trans (h.key hb')
  shape hb := by
    obtain ⟨b', hb', _, instructions, _⟩ := same.block hb
    rw [instructions]
    exact h.shape hb'
  chained := chained
  published := published
  native hb ne := by
    obtain ⟨b', hb', _, instructions, compiled⟩ := same.block hb
    have mapped := same.nativeCode hb ne
    rw [compiled] at ne mapped
    exact HasNative.mono (h.native hb' ne) instructions compiled mapped same.slot
  distinct hb hb' ne eq := by
    obtain ⟨c, hc, _, _, compiled⟩ := same.block hb
    obtain ⟨c', hc', _, _, compiled'⟩ := same.block hb'
    rw [compiled] at ne eq
    rw [compiled'] at eq
    exact h.distinct hc hc' ne eq
  bound hb := by
    obtain ⟨b', hb', _, _, compiled⟩ := same.block hb
    rw [compiled, same.compilations]
    exact h.bound hb'

/-- Creating a slot. -/
lemma jitEntrySlot (h : Consistent cache) (s) : Consistent (cache.jitEntrySlot s) := by
  have blocks : (cache.jitEntrySlot s).blocks = cache.blocks := jitEntrySlot_blocks s
  have same : SameCode cache (cache.jitEntrySlot s) :=
    ⟨fun {a b} hb => ⟨b, blocks ▸ hb, rfl, rfl, rfl⟩, fun _ _ => by rw [jitEntrySlot_nativeCode],
      fun a e he => ⟨e, jitEntrySlot_of_some he⟩, jitEntrySlot_compilations s⟩
  refine h.of_sameCode same (fun {a e} he ne => ?_) fun {a b} hb hv ne => ?_
  · obtain ⟨b, hb⟩ := h.chained (of_jitEntrySlot he ne) ne
    exact ⟨b, blocks.symm ▸ hb⟩
  · exact jitEntrySlot_of_some (h.published (blocks ▸ hb) hv ne)

/-- Creating several slots. -/
lemma withSlots (h : Consistent cache) (addresses) : Consistent (withSlots cache addresses) := by
  induction addresses generalizing cache with
  | nil => exact h
  | cons a addresses ih => exact ih (h.jitEntrySlot a)

/-- A change of one block that keeps its address, instructions and native code. -/
lemma modifyBlock (h : Consistent cache) (k) {f : TIBasicBlock → TIBasicBlock}
    (hf : ∀ b, (f b).startAddress = b.startAddress ∧ (f b).instructions = b.instructions ∧
      (f b).valid = b.valid ∧ (f b).compiledBlock = b.compiledBlock) :
    Consistent (cache.modifyBlock k f) := by
  -- every block of the new cache is a block of the old one up to `f`
  have back {a b} (hb : (cache.modifyBlock k f).blocks a = some b) :
      ∃ b', cache.blocks a = some b' ∧ b.startAddress = b'.startAddress ∧
        b.instructions = b'.instructions ∧ b.valid = b'.valid ∧
        b.compiledBlock = b'.compiledBlock := by
    obtain ⟨b', hb', ⟨_, rfl⟩ | ⟨_, rfl⟩⟩ := PartialMap.modify_eq_some hb
    · exact ⟨b', hb', hf b'⟩
    · exact ⟨b, hb', rfl, rfl, rfl, rfl⟩
  have forth {a b} (hb : cache.blocks a = some b) :
      ∃ b', (cache.modifyBlock k f).blocks a = some b' ∧ b'.valid = b.valid ∧
        b'.compiledBlock = b.compiledBlock := by
    unfold TIBasicBlockCache.modifyBlock
    by_cases ne : a = k
    · subst ne
      exact ⟨f b, by simp [hb], (hf b).2.2⟩
    · exact ⟨b, by simp [Function.update_of_ne ne, hb], rfl, rfl⟩
  have same : SameCode cache (cache.modifyBlock k f) := by
    refine ⟨fun {a b} hb => ?_, fun _ _ => rfl, fun a e he => ⟨e, he⟩, rfl⟩
    obtain ⟨b', hb', start, instructions, _, compiled⟩ := back hb
    exact ⟨b', hb', start, instructions, compiled⟩
  refine h.of_sameCode same (fun {a e} he ne => ?_) fun {a b} hb hv ne => ?_
  · obtain ⟨b, hb, hv, rfl⟩ := h.chained he ne
    obtain ⟨b', hb', valid, compiled⟩ := forth hb
    exact ⟨b', hb', valid.trans hv, by rw [compiled]⟩
  · obtain ⟨b', hb', _, _, valid, compiled⟩ := back hb
    rw [compiled] at ne ⊢
    exact h.published hb' (valid.symm.trans hv) ne

/-- A block after an invalidation is a block from before, invalidated if the range touches it. -/
lemma of_invalidateRange {address n a b}
    (hb : (cache.invalidateRange address n).blocks a = some b) :
    ∃ b', cache.blocks a = some b' ∧ b = { b' with valid := b.valid } ∧
      (b.valid = true → touches b' address n = false ∧ b'.valid = true) := by
  simp only [TIBasicBlockCache.invalidateRange] at hb
  split at hb
  case isTrue hit =>
    obtain ⟨b', hb', rfl⟩ := Option.map_eq_some_iff.mp hb
    exact ⟨b', hb', rfl, fun hv => by cases hv⟩
  case isFalse hit =>
    rw [hb, Option.any_some, Bool.not_eq_true] at hit
    exact ⟨b, hb, rfl, fun hv => ⟨hit, hv⟩⟩

/-- Invalidating a range. -/
lemma invalidateRange (h : Consistent cache) (address n) :
    Consistent (cache.invalidateRange address n) := by
  have slot {a e} (he : (cache.invalidateRange address n).jitEntries a = some e) (ne : e ≠ 0) :
      cache.jitEntries a = some e ∧ (cache.blocks a).any (touches · address n) = false := by
    simp only [TIBasicBlockCache.invalidateRange] at he
    split at he
    case isTrue hit =>
      obtain ⟨e', _, rfl⟩ := Option.map_eq_some_iff.mp he
      exact absurd rfl ne
    case isFalse hit => exact ⟨he, by simpa using hit⟩
  have same : SameCode cache (cache.invalidateRange address n) := by
    refine ⟨fun {a b} hb => ?_, fun _ _ => rfl, fun s e he => ?_, rfl⟩
    · obtain ⟨b', hb', e, _⟩ := of_invalidateRange hb
      rw [e]
      exact ⟨b', hb', rfl, rfl, rfl⟩
    · simp only [TIBasicBlockCache.invalidateRange, he]
      split
      · exact ⟨0, rfl⟩
      · exact ⟨e, rfl⟩
  refine h.of_sameCode same (fun {a e} he ne => ?_) fun {a b} hb hv ne => ?_
  · obtain ⟨he, hit⟩ := slot he ne
    obtain ⟨b, hb, hv, he⟩ := h.chained he ne
    refine ⟨b, ?_, hv, he⟩
    simp only [TIBasicBlockCache.invalidateRange, hit]
    exact hb
  · obtain ⟨b', hb', e, valid⟩ := of_invalidateRange hb
    obtain ⟨hit, hv'⟩ := valid hv
    rw [e] at ne ⊢
    have := h.published hb' hv' ne
    simp only [TIBasicBlockCache.invalidateRange, hb', Option.any_some, hit]
    exact this

/-- Destroying an invalid block. -/
lemma erase (h : Consistent cache) {k bk} (hk : cache.blocks k = some bk)
    (invalid : bk.valid = false) : Consistent (cache.erase k bk) := by
  have back {a b} (hb : (cache.erase k bk).blocks a = some b) :
      a ≠ k ∧ cache.blocks a = some b := PartialMap.remove_eq_some hb
  have forth {a b} (ne : a ≠ k) (hb : cache.blocks a = some b) :
      (cache.erase k bk).blocks a = some b := by
    simp [TIBasicBlockCache.erase, Function.update_of_ne ne, hb]
  have same : SameCode cache (cache.erase k bk) := by
    refine ⟨fun {a b} hb => ⟨b, (back hb).2, rfl, rfl, rfl⟩, fun {a b} hb ne => ?_,
      fun s e he => ⟨e, he⟩, rfl⟩
    obtain ⟨nk, hb⟩ := back hb
    simp only [TIBasicBlockCache.erase]
    split
    case isTrue =>
      -- another block owns other native code
      refine Function.update_of_ne (fun eq => ?_) _ _
      exact nk (h.distinct hb hk ne eq)
    case isFalse => rfl
  refine h.of_sameCode same (fun {a e} he ne => ?_) fun hb hv ne => h.published (back hb).2 hv ne
  obtain ⟨b, hb, hv, he⟩ := h.chained he ne
  -- the block under `k` is invalid, so no slot leads to it
  have nk : a ≠ k := by
    rintro rfl
    rw [hk] at hb
    cases hb
    rw [invalid] at hv
    cases hv
  exact ⟨b, forth nk hb, hv, he⟩

/-- Storing a new block where there is none. -/
lemma insert (h : Consistent cache) {k is} (hk : cache.blocks k = none) (st : Straight is)
    (len : is.length ≤ addressSpaceWords) :
    Consistent (cache.insertBlock k (is.map Instr.toTI)) := by
  -- a block of the new cache is the new one or an old one
  have back {a b} (hb : (cache.insertBlock k (is.map Instr.toTI)).blocks a = some b) :
      (a = k ∧ b = { startAddress := k, instructions := is.map Instr.toTI }) ∨
        (a ≠ k ∧ cache.blocks a = some b) := PartialMap.insert_eq_some hb
  refine ⟨?_, ?_, ?_, ?_, ?_, ?_, ?_⟩
  · intro a b hb
    obtain ⟨rfl, rfl⟩ | ⟨_, hb⟩ := back hb
    · rfl
    · exact h.key hb
  · intro a b hb
    obtain ⟨_, rfl⟩ | ⟨_, hb⟩ := back hb
    · exact ⟨is, st, len, rfl⟩
    · exact h.shape hb
  · intro a e he ne
    obtain ⟨b, hb, hv, he⟩ := h.chained he ne
    have nk : a ≠ k := by
      rintro rfl
      rw [hk] at hb
      cases hb
    exact ⟨b, (Function.update_of_ne nk _ _).trans hb, hv, he⟩
  · intro a b hb hv ne
    obtain ⟨_, rfl⟩ | ⟨_, hb⟩ := back hb
    · exact absurd rfl ne
    · exact h.published hb hv ne
  · intro a b hb ne
    obtain ⟨_, rfl⟩ | ⟨_, hb⟩ := back hb
    · exact absurd rfl ne
    · exact HasNative.mono (h.native hb ne) rfl rfl rfl fun s e he => ⟨e, he⟩
  · intro a a' b b' hb hb' ne eq
    obtain ⟨_, rfl⟩ | ⟨_, hb⟩ := back hb
    · exact absurd rfl ne
    · obtain ⟨_, rfl⟩ | ⟨_, hb'⟩ := back hb'
      · exact absurd eq ne
      · exact h.distinct hb hb' ne eq
  · intro a b hb
    obtain ⟨_, rfl⟩ | ⟨_, hb⟩ := back hb
    · exact Nat.zero_le _
    · exact h.bound hb

end Consistent

/-- The cache after a block has been compiled: its code is mapped at a new entry point, which the
block and its chaining slot hold. -/
def TIBasicBlockCache.publish (cache : TIBasicBlockCache) (k : Word) (code : List IrInsn)
    (level : Byte) : TIBasicBlockCache :=
  let entryPoint := cache.compilations + 1
  ({ cache with
      compilations := entryPoint
      nativeCode := Function.update cache.nativeCode entryPoint
        (some { code := code, level := level }) }.modifyBlock k
    (·.setCompiledBlock { entryPoint := entryPoint })).setJitEntry k entryPoint

/-- The blocks after one has been compiled. -/
lemma publish_blocks {cache : TIBasicBlockCache} {k b} (h : cache.blocks k = some b) (code level) :
    (cache.publish k code level).blocks =
      Function.update cache.blocks k
        (some (b.setCompiledBlock { entryPoint := cache.compilations + 1 })) := by
  simp only [publish, modifyBlock, setJitEntry, h, Option.map_some]

/-- The block that was compiled. -/
lemma publish_blocks_self {cache : TIBasicBlockCache} {k b} (h : cache.blocks k = some b)
    (code level) : (cache.publish k code level).blocks k =
      some (b.setCompiledBlock { entryPoint := cache.compilations + 1 }) := by
  rw [publish_blocks h]
  exact Function.update_self _ _ _

namespace Consistent

variable {cache : TIBasicBlockCache}

/-- Compiling a valid block that is not compiled. -/
lemma publish (h : Consistent cache) {k bk is last level} (hk : cache.blocks k = some bk)
    (valid : bk.valid = true) (st : Straight is) (hi : bk.instructions = is.map Instr.toTI)
    (hl : is.getLast? = some last)
    (slots : HasSlots cache (last.successors (wordAt k (is.length - 1)))) :
    Consistent (cache.publish k (blockCode k is last) level) := by
  -- a block of the new cache is the compiled one or an old one
  have back {a b} (hb : (cache.publish k (blockCode k is last) level).blocks a = some b) :
      (a = k ∧ b = bk.setCompiledBlock { entryPoint := cache.compilations + 1 }) ∨
        (a ≠ k ∧ cache.blocks a = some b) := by
    rw [publish_blocks hk] at hb
    exact PartialMap.insert_eq_some hb
  have other {a b} (ne : a ≠ k) (hb : cache.blocks a = some b) :
      (cache.publish k (blockCode k is last) level).blocks a = some b := by
    rw [publish_blocks hk]
    exact (Function.update_of_ne ne _ _).trans hb
  have slot (a) : (cache.publish k (blockCode k is last) level).jitEntries a =
      if a = k then some (cache.compilations + 1) else cache.jitEntries a :=
    Function.update_apply _ _ _ _
  have keep (s e) (he : cache.jitEntries s = some e) :
      ∃ e', (cache.publish k (blockCode k is last) level).jitEntries s = some e' := by
    rw [slot]
    split
    · exact ⟨_, rfl⟩
    · exact ⟨e, he⟩
  refine ⟨?_, ?_, ?_, ?_, ?_, ?_, ?_⟩
  · intro a b hb
    obtain ⟨rfl, rfl⟩ | ⟨_, hb⟩ := back hb
    · exact (h.key hk : bk.startAddress = a)
    · exact h.key hb
  · intro a b hb
    obtain ⟨_, rfl⟩ | ⟨_, hb⟩ := back hb
    · have shape := h.shape hk
      exact shape
    · exact h.shape hb
  · intro a e he ne
    rw [slot] at he
    split at he
    case isTrue eq =>
      subst eq
      cases he
      exact ⟨_, publish_blocks_self hk _ _, valid, rfl⟩
    case isFalse nk =>
      obtain ⟨b, hb, hv, he⟩ := h.chained he ne
      exact ⟨b, other nk hb, hv, he⟩
  · intro a b hb hv ne
    rw [slot]
    obtain ⟨rfl, rfl⟩ | ⟨nk, hb⟩ := back hb
    · rw [if_pos rfl]
      rfl
    · rw [if_neg nk]
      exact h.published hb hv ne
  · intro a b hb ne
    obtain ⟨rfl, rfl⟩ | ⟨nk, hb⟩ := back hb
    · refine ⟨is, last, level, st, hi, hl, ?_, fun s mem => ?_⟩
      · exact Function.update_self _ _ _
      · obtain ⟨e, he⟩ := slots s mem
        exact keep s e he
    -- the new entry point is none of the old ones, which are bounded
    · refine HasNative.mono (h.native hb ne) rfl rfl ?_ keep
      exact Function.update_of_ne (Nat.ne_of_lt (Nat.lt_succ_of_le (h.bound hb))) _ _
  · intro a a' b b' hb hb' ne eq
    obtain ⟨ea, rfl⟩ | ⟨_, hb⟩ := back hb
    · obtain ⟨ea', rfl⟩ | ⟨_, hb'⟩ := back hb'
      · rw [ea, ea']
      · exact absurd eq.symm (Nat.ne_of_lt (Nat.lt_succ_of_le (h.bound hb')))
    · obtain ⟨_, rfl⟩ | ⟨_, hb'⟩ := back hb'
      · exact absurd eq (Nat.ne_of_lt (Nat.lt_succ_of_le (h.bound hb)))
      · exact h.distinct hb hb' ne eq
  · intro a b hb
    obtain ⟨_, rfl⟩ | ⟨_, hb⟩ := back hb
    · exact Nat.le_refl _
    · exact Nat.le_succ_of_le (h.bound hb)

end Consistent

end ToyIsa
