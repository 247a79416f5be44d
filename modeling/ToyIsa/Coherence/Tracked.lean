import ToyIsa.Cache.Invalidate
import ToyIsa.Step.Changes

/-!
# Coherence of the block cache with memory

`Coherent P D memory cache`: every valid block was decoded from a memory of this size, and each of
its words that satisfies `P` still holds the instruction in the block or is one of the stale words
`D`. Look-ups keep this, stores add the word they write to `D`, and a flush that invalidates every
stale word leaves none.
-/

namespace ToyIsa

open TIBasicBlockCache

/-- A store has put the word at `a`, or one that shares a byte with it, into the pending ranges. -/
def TIMemory.Pending (m : TIMemory) (a : Word) : Prop :=
  ∃ r ∈ m.dirtyCodeRanges, r.size = 4 ∧ Shares a.toNat 4 r.address.toNat r.size

/-- A store to the word at `a` is recorded. -/
def TIMemory.Tracked (m : TIMemory) (a : Word) : Prop :=
  m.executableRegions.any (·.overlaps a 4) = true

def Coherent (P D : Word → Prop) (memory : TIMemory) (cache : TIBasicBlockCache) : Prop :=
  ∀ a b, cache.blocks a = some b → b.valid = true →
    ∃ is source, Decodes source a is ∧ source.size = memory.size ∧ b.startAddress = a ∧
      b.instructions = is.map Instr.toTI ∧
      ∀ k i, is[k]? = some i → P (wordAt a k) → Holds memory (wordAt a k) i ∨ D (wordAt a k)

namespace Coherent

variable {P D : Word → Prop} {memory memory' : TIMemory} {cache cache' : TIBasicBlockCache}

/-- A cache without blocks is coherent. -/
lemma clear (cache : TIBasicBlockCache) : Coherent P D memory cache.clear := by
  intro a b hb
  cases hb

/-- Only start, instructions and validity of the blocks matter. -/
lemma of_view (h : Coherent P D memory cache) (view : cache'.view = cache.view) :
    Coherent P D memory cache' := by
  intro a b hb hv
  obtain ⟨b', hb', start, instructions, valid⟩ := view_some view hb
  obtain ⟨is, source, decodes, size, start', instructions', words⟩ := h a b' hb' (valid.trans hv)
  exact ⟨is, source, decodes, size, start.symm.trans start', instructions.symm.trans instructions',
    words⟩

/-- Another memory of the same size and other stale words. -/
lemma congr {D' : Word → Prop} (h : Coherent P D memory cache) (size : memory'.size = memory.size)
    (keeps : ∀ w i, P w → Holds memory w i ∨ D w → Holds memory' w i ∨ D' w) :
    Coherent P D' memory' cache := by
  intro a b hb hv
  obtain ⟨is, source, decodes, size', start, instructions, words⟩ := h a b hb hv
  refine ⟨is, source, decodes, size'.trans size.symm, start, instructions, fun k i hk hp => ?_⟩
  exact keeps _ i hp (words k i hk hp)

/-- More stale words. -/
lemma weaken {D' : Word → Prop} (h : Coherent P D memory cache)
    (stale : ∀ w, P w → D w → D' w) : Coherent P D' memory cache :=
  h.congr rfl fun w _ hp => Or.imp_right (stale w hp)

/-- Another memory of the same size. -/
lemma of_memory (h : Coherent P D memory cache) (size : memory'.size = memory.size)
    (keeps : ∀ w i, P w → Holds memory w i → Holds memory' w i ∨ D w) :
    Coherent P D memory' cache := by
  refine h.congr size fun w i hp now => ?_
  rcases now with held | stale
  · exact keeps w i hp held
  · exact .inr stale

/-- Dropping the block under an address. -/
lemma dropped (h : Coherent P D memory cache) (k) : Coherent P D memory (cache.dropped k) := by
  intro a b hb hv
  exact h a b (of_dropped hb).2 hv

/-- A look-up, which may decode a block. -/
lemma getBlock_ok (h : Coherent P D memory cache) {k b}
    (e : cache.getBlock k memory = some (.ok b cache')) : Coherent P D memory cache' := by
  have f := getBlock_cases cache k memory
  rw [e] at f
  cases f with
  | hit => exact h
  | @decoded is _ decodes _ =>
    intro a b hb hv
    obtain ⟨rfl, rfl⟩ | ⟨_, hb⟩ := PartialMap.insert_eq_some hb
    · exact ⟨is, memory, decodes, rfl, rfl, rfl, fun k i hk _ => .inl (decodes.holds hk)⟩
    · exact h.dropped k a b hb hv

/-- A look-up that fails. -/
lemma getBlock_error (h : Coherent P D memory cache) {k e}
    (eq : cache.getBlock k memory = some (.error e cache')) : Coherent P D memory cache' := by
  have f := getBlock_cases cache k memory
  rw [eq] at f
  cases f with
  | fault => exact h.dropped k

/-- A look-up in a step of a run. -/
lemma fetches {σ : Type} {c d : ExecutionContext σ} (f : Fetches c d)
    (h : Coherent P D c.memory c.blockCache) : Coherent P D d.memory d.blockCache := by
  cases f with
  | found fetched same view =>
    rw [same]
    exact (h.getBlock_ok fetched).of_view view
  | missed fetched same view =>
    rw [same]
    exact (h.getBlock_error fetched).of_view view

/-! Flushing. -/

/-- A block that is valid after some ranges have been invalidated is touched by none of them. -/
lemma valid_of_invalidateAll {ranges : List TICodeRange} {a b}
    (hb : (cache.invalidateAll ranges).blocks a = some b) (hv : b.valid = true) :
    cache.blocks a = some b ∧ ∀ r ∈ ranges, touches b r.address r.size = false := by
  induction ranges generalizing cache with
  | nil => exact ⟨hb, by simp⟩
  | cons r ranges ih =>
    obtain ⟨hb, rest⟩ := ih hb
    rw [invalidateRange_blocks] at hb
    obtain ⟨b', hb', e⟩ := Option.map_eq_some_iff.mp hb
    unfold TIBasicBlock.struck at e
    split at e
    case isTrue =>
      subst e
      cases hv
    case isFalse apart =>
      subst e
      refine ⟨hb', fun r' mem => ?_⟩
      rcases List.mem_cons.mp mem with rfl | mem
      · exact Bool.eq_false_iff.mpr apart
      · exact rest r' mem

/-- A range that shares a byte with a word of a block touches the block. -/
lemma touches_of_shares {source : TIMemory} {a : Word} {is : List Instr} {b : TIBasicBlock} {k}
    (decodes : Decodes source a is) (small : source.size < 2 ^ 32) (start : b.startAddress = a)
    (instructions : b.instructions = is.map Instr.toTI) (hk : k < is.length) {r : TICodeRange}
    (word : r.size = 4) (shares : Shares (wordAt a k).toNat 4 r.address.toNat r.size) :
    touches b r.address r.size = true := by
  have shape := decodes.shape small start instructions
  have count : b.instructionCount = is.length := by
    unfold TIBasicBlock.instructionCount
    rw [instructions, List.length_map]
  have fits := shape.inMemory
  have ends := shape.endAddress
  rw [count] at fits ends
  rw [toNat_wordAt (by omega), shares_iff (by omega) (by omega)] at shares
  have := r.address.isLt
  unfold touches u64
  dsimp only
  rw [ends, start, Bool.and_eq_true, decide_eq_true_eq, decide_eq_true_eq]
  omega

/-- A flush leaves no stale word, if every stale word is pending. -/
lemma invalidateAll (h : Coherent P D memory cache) (small : memory.size < 2 ^ 32)
    (pending : ∀ w, P w → D w → memory.Pending w) :
    Coherent P (fun _ => False) memory (cache.invalidateAll memory.dirtyCodeRanges) := by
  intro a b hb hv
  obtain ⟨hb, apart⟩ := valid_of_invalidateAll hb hv
  obtain ⟨is, source, decodes, size, start, instructions, words⟩ := h a b hb hv
  refine ⟨is, source, decodes, size, start, instructions, fun k i hk hp => .inl ?_⟩
  rcases words k i hk hp with held | stale
  · exact held
  · obtain ⟨r, mem, word, shares⟩ := pending _ hp stale
    obtain ⟨inside, -⟩ := List.getElem?_eq_some_iff.mp hk
    have hit := touches_of_shares decodes (size ▸ small) start instructions inside word shares
    rw [apart r mem] at hit
    cases hit

/-- The words of a valid block do not wrap around. -/
lemma toNat_word (h : Coherent P D memory cache) (small : memory.size < 2 ^ 32) {a b}
    (hb : cache.blocks a = some b) (hv : b.valid = true) {k} (hk : k < b.instructionCount) :
    (wordAt a k).toNat = a.toNat + 4 * k := by
  obtain ⟨is, source, decodes, size, start, instructions, -⟩ := h a b hb hv
  have inMemory := (decodes.shape (size ▸ small) start instructions).inMemory
  rw [toNat_wordAt (by omega)]
  omega

/-- With no stale word, a block all of whose words satisfy `P` is the decoding of memory. -/
lemma shape (h : Coherent P (fun _ => False) memory cache) (small : memory.size < 2 ^ 32) {a b}
    (hb : cache.blocks a = some b) (hv : b.valid = true)
    (all : ∀ k < b.instructionCount, P (wordAt a k)) : BlockShape memory a b := by
  obtain ⟨is, source, decodes, size, start, instructions, words⟩ := h a b hb hv
  have count : b.instructionCount = is.length := by
    unfold TIBasicBlock.instructionCount
    rw [instructions, List.length_map]
  have now : Decodes memory a is := by
    apply decodes.congr size.symm
    intro k i hk
    obtain ⟨inside, -⟩ := List.getElem?_eq_some_iff.mp hk
    exact (words k i hk (all k (by omega))).resolve_right id
  exact now.shape small start instructions

end Coherent

end ToyIsa
