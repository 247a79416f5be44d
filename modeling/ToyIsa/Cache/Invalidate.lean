import Mathlib.Data.List.Perm.Basic
import ToyIsa.Cache.Session

/-!
# Invalidation

`invalidateRange` marks the blocks that share a byte with the range and clears their chaining slots
(`invalidatesExactly`). The end of the range is computed in `uint64_t`, so a range that ends past
`2 ^ 64` is cut: `wrapped_range_misses` is a range of that kind. Invalidations commute.
-/

namespace ToyIsa

open TIBasicBlockCache

/-- The block contains a byte of the `n` bytes at `a`. -/
def TIBasicBlock.Meets (b : TIBasicBlock) (a : Word) (n : Nat) : Prop :=
  Shares b.startAddress.toNat (4 * b.instructionCount) a.toNat n

instance (b a n) : Decidable (TIBasicBlock.Meets b a n) :=
  inferInstanceAs (Decidable (Shares _ _ _ _))

/-- `cache'` is `cache` with the blocks that meet the range marked and their slots cleared. -/
structure InvalidatesExactly (cache : TIBasicBlockCache) (a : Word) (n : Nat)
    (cache' : TIBasicBlockCache) : Prop where
  hit : ∀ k b, cache.blocks k = some b → b.Meets a n →
    cache'.blocks k = some { b with valid := false }
  missed : ∀ k b, cache.blocks k = some b → ¬ b.Meets a n → cache'.blocks k = some b
  absent : ∀ k, cache.blocks k = none → cache'.blocks k = none
  cleared : ∀ k b, cache.blocks k = some b → b.Meets a n →
    cache'.jitEntries b.startAddress = (cache.jitEntries b.startAddress).map fun _ => 0
  kept : ∀ s, (∀ k b, cache.blocks k = some b → b.Meets a n → b.startAddress ≠ s) →
    cache'.jitEntries s = cache.jitEntries s
  nativeCode : cache'.nativeCode = cache.nativeCode
  compilations : cache'.compilations = cache.compilations

/-- The blocks are stored under their addresses and do not wrap around. -/
structure BlocksFit (cache : TIBasicBlockCache) : Prop where
  key : ∀ {k b}, cache.blocks k = some b → b.startAddress = k
  nonempty : ∀ {k b}, cache.blocks k = some b → 1 ≤ b.instructionCount
  endAddress : ∀ {k b}, cache.blocks k = some b →
    b.endAddress.toNat = b.startAddress.toNat + 4 * b.instructionCount

/-- The blocks of a session fit. -/
lemma CacheSession.Ok.blocksFit {size s} (h : CacheSession.Ok size s) :
    BlocksFit s.cache where
  key hb := by
    obtain ⟨m, _, _, shape⟩ := h.decoded hb
    exact shape.start
  nonempty hb := by
    obtain ⟨m, _, _, shape⟩ := h.decoded hb
    exact shape.nonempty
  endAddress hb := by
    obtain ⟨m, _, _, shape⟩ := h.decoded hb
    rw [shape.start]
    exact shape.endAddress

section

variable {cache : TIBasicBlockCache} {a : Word} {n : Nat}

/-- The test of the source, for a range that ends before `2 ^ 64`. -/
lemma touches_iff (fit : BlocksFit cache) {k b} (hb : cache.blocks k = some b) (hn : 1 ≤ n)
    (ends : a.toNat + n < 2 ^ 64) : touches b a n = true ↔ b.Meets a n := by
  have count := fit.nonempty hb
  unfold TIBasicBlock.Meets
  rw [shares_iff (by omega) (by omega)]
  unfold touches u64
  dsimp only
  rw [fit.endAddress hb, Nat.mod_eq_of_lt ends]
  simp only [Bool.and_eq_true, decide_eq_true_eq]

/-- A block after an invalidation. -/
def TIBasicBlock.struck (b : TIBasicBlock) (a : Word) (n : Nat) : TIBasicBlock :=
  if touches b a n then b.invalidate else b

/-- What invalidation does to the blocks. -/
lemma invalidateRange_blocks (k) : (cache.invalidateRange a n).blocks k =
    (cache.blocks k).map (·.struck a n) := by
  unfold invalidateRange TIBasicBlock.struck
  cases h : cache.blocks k with
  | none => simp [h]
  | some b => cases hit : touches b a n <;> simp [h, hit]

/-- What invalidation does to the slots. -/
lemma invalidateRange_jitEntries (k) : (cache.invalidateRange a n).jitEntries k =
    if (cache.blocks k).any (touches · a n) then (cache.jitEntries k).map fun _ => 0
    else cache.jitEntries k := rfl

/-- Invalidation is exact. -/
lemma BlocksFit.invalidatesExactly (fit : BlocksFit cache) (hn : 1 ≤ n)
    (ends : a.toNat + n < 2 ^ 64) :
    InvalidatesExactly cache a n (cache.invalidateRange a n) where
  hit k b hb meets := by
    rw [invalidateRange_blocks, hb, Option.map_some, TIBasicBlock.struck,
      if_pos ((touches_iff fit hb hn ends).mpr meets)]
    rfl
  missed k b hb apart := by
    rw [invalidateRange_blocks, hb, Option.map_some, TIBasicBlock.struck,
      if_neg (mt (touches_iff fit hb hn ends).mp apart)]
  absent k hb := by
    rw [invalidateRange_blocks, hb]
    rfl
  cleared k b hb meets := by
    rw [fit.key hb, invalidateRange_jitEntries, hb, Option.any_some,
      if_pos ((touches_iff fit hb hn ends).mpr meets)]
  kept s h := by
    rw [invalidateRange_jitEntries]
    apply if_neg
    intro hit
    obtain ⟨b, hb, t⟩ := (Option.any_eq_true _ _).mp hit
    exact h s b hb ((touches_iff fit hb hn ends).mp t) (fit.key hb)
  nativeCode := rfl
  compilations := rfl

/-- Invalidation does not change which blocks a range hits. -/
lemma touches_struck (b : TIBasicBlock) (a n a' n') :
    touches (b.struck a n) a' n' = touches b a' n' := by
  unfold TIBasicBlock.struck
  split <;> rfl

/-- An invalidation moves no block. -/
lemma any_touches_invalidateRange (k a' n') :
    ((cache.invalidateRange a n).blocks k).any (touches · a' n') =
      (cache.blocks k).any (touches · a' n') := by
  rw [invalidateRange_blocks, Option.any_map]
  congr 1
  funext b
  exact touches_struck b a n a' n'

/-- A block is marked by two ranges in either order. -/
lemma struck_comm (b : TIBasicBlock) (a n a' n') :
    (b.struck a n).struck a' n' = (b.struck a' n').struck a n := by
  rw [TIBasicBlock.struck, touches_struck, TIBasicBlock.struck, TIBasicBlock.struck, touches_struck,
    TIBasicBlock.struck]
  split <;> split <;> rfl

/-- A cache is its maps and its counter. -/
lemma TIBasicBlockCache.eq_of_maps {cache cache' : TIBasicBlockCache}
    (blocks : ∀ k, cache.blocks k = cache'.blocks k)
    (jitEntries : ∀ k, cache.jitEntries k = cache'.jitEntries k)
    (nativeCode : cache.nativeCode = cache'.nativeCode)
    (compilations : cache.compilations = cache'.compilations) : cache = cache' := by
  cases cache
  cases cache'
  congr 1
  · exact funext blocks
  · exact funext jitEntries

variable (cache) in
/-- Two ranges, in either order. -/
lemma invalidateRange_comm (r r' : TICodeRange) :
    (cache.invalidateRange r.address r.size).invalidateRange r'.address r'.size =
      (cache.invalidateRange r'.address r'.size).invalidateRange r.address r.size := by
  apply TIBasicBlockCache.eq_of_maps
  case blocks =>
    intro k
    rw [invalidateRange_blocks, invalidateRange_blocks, invalidateRange_blocks,
      invalidateRange_blocks, Option.map_map, Option.map_map]
    congr 1
    funext b
    exact struck_comm b _ _ _ _
  case jitEntries =>
    intro k
    rw [invalidateRange_jitEntries, any_touches_invalidateRange, invalidateRange_jitEntries,
      invalidateRange_jitEntries, any_touches_invalidateRange, invalidateRange_jitEntries]
    split <;> split <;> rfl
  case nativeCode => rfl
  case compilations => rfl

end

/-- In any use of a cache over a memory smaller than the address space, invalidating a range that
ends before `2 ^ 64` is exact, and the order of several ranges does not matter. -/
theorem invalidateRange_exact (memory : TIMemory) (small : memory.size < 2 ^ 32)
    (ops : List CacheOp) (cache : TIBasicBlockCache)
    (reached : cache = (({ memory := memory } : CacheSession).run ops).cache) :
    (∀ a n, 1 ≤ n → a.toNat + n < 2 ^ 64 →
      InvalidatesExactly cache a n (cache.invalidateRange a n)) ∧
    ∀ ranges ranges' : List TICodeRange, ranges.Perm ranges' →
      ranges.foldl (fun cache range => cache.invalidateRange range.address range.size) cache =
        ranges'.foldl (fun cache range => cache.invalidateRange range.address range.size)
          cache := by
  have fit : BlocksFit cache := by
    rw [reached]
    exact ((CacheSession.Ok.start memory).run small ops).blocksFit
  refine ⟨fun a n hn ends => fit.invalidatesExactly hn ends, fun ranges ranges' perm => ?_⟩
  exact perm.foldl_eq' (fun r _ r' _ cache => invalidateRange_comm cache r r') cache

/-- The blocks at the first and at the second of three words, which overlap. -/
def twoBlocks : TIBasicBlockCache :=
  (({ memory := threeWords } : CacheSession).run [.getBlock 0, .getBlock 4]).cache

/-- A write to the first word invalidates one of them, a write to the last word both. -/
theorem invalidateRange_exact_twoBlocks : ∃ b b',
    twoBlocks.blocks 0 = some b ∧ twoBlocks.blocks 4 = some b' ∧
    (twoBlocks.invalidateRange 0 4).blocks 0 = some { b with valid := false } ∧
    (twoBlocks.invalidateRange 0 4).blocks 4 = some b' ∧
    (twoBlocks.invalidateRange 8 4).blocks 0 = some { b with valid := false } ∧
    (twoBlocks.invalidateRange 8 4).blocks 4 = some { b' with valid := false } := by
  have exact := (invalidateRange_exact threeWords (by decide) [.getBlock 0, .getBlock 4]
    twoBlocks rfl).1
  have first : twoBlocks.blocks 0 = some _ := rfl
  have second : twoBlocks.blocks 4 = some _ := rfl
  have front := exact 0 4 (by decide) (by decide)
  have back := exact 8 4 (by decide) (by decide)
  exact ⟨_, _, first, second, front.hit 0 _ first (by decide), front.missed 4 _ second (by decide),
    back.hit 0 _ first (by decide), back.hit 4 _ second (by decide)⟩

/-- A cache with one block, the word at 4 of eight zero bytes. -/
def oneBlock : TIBasicBlockCache :=
  (({ memory := .create 8 } : CacheSession).run [.getBlock 4]).cache

/-- The end of this range is 0 in `uint64_t`, and the block stays valid. -/
theorem wrapped_range_misses :
    ¬ InvalidatesExactly oneBlock 4 (2 ^ 64 - 4) (oneBlock.invalidateRange 4 (2 ^ 64 - 4)) := by
  intro exact
  have hit := exact.hit 4 { startAddress := 4, instructions := [TIDecoder.decode 0] } rfl
    (by decide)
  have stays : (oneBlock.invalidateRange 4 (2 ^ 64 - 4)).blocks 4 =
      some { startAddress := 4, instructions := [TIDecoder.decode 0] } := rfl
  rw [stays] at hit
  cases hit

end ToyIsa
