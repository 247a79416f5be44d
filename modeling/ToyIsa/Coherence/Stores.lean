import ToyIsa.Coherence.Tracked
import ToyIsa.Toy.Scripted

/-!
# Stores and flushes

In a run in which only stores change memory, a word of a valid block that a store to it would
record either still holds the instruction of the block or is pending (`CoherentAt.reach`). A flush
makes the blocks that lie in the executable regions exact (`store_coherence`), and of every block
the part that meets them (`flush_resynchronises`).
-/

namespace ToyIsa

open Machine TIBasicBlockCache

variable {σ : Type}

/-- The byte at `x` lies in an executable region. -/
def TIMemory.Executable (m : TIMemory) (x : Nat) : Prop :=
  ∃ r ∈ m.executableRegions, r.address.toNat ≤ x ∧ x < r.address.toNat + r.size

/-- A byte of the word at `a` lies in an executable region. -/
def TIMemory.MeetsCode (m : TIMemory) (a : Word) : Prop := ∃ j < 4, m.Executable (a.toNat + j)

namespace TIMemory

variable {m m' : TIMemory} {a : Word}

/-- A store to a word that meets code is recorded. -/
lemma MeetsCode.tracked (h : m.MeetsCode a) : m.Tracked a := by
  obtain ⟨j, hj, r, mem, lower, upper⟩ := h
  apply List.any_eq_true.mpr
  refine ⟨r, mem, (overlaps_iff (m.regionsInSpace r mem) (by omega)).mpr ?_⟩
  exact ⟨a.toNat + j, by omega, by omega⟩

/-- The words that meet code depend on the regions only. -/
lemma meetsCode_congr (regions : m'.executableRegions = m.executableRegions) :
    m'.MeetsCode a ↔ m.MeetsCode a := by
  unfold MeetsCode Executable
  rw [regions]

/-- The same bytes hold the same instructions. -/
lemma holds_congr {i} (size : m'.size = m.size)
    (bytes : Store.slice m'.bytes a.toNat 4 = Store.slice m.bytes a.toNat 4) (h : Holds m a i) :
    Holds m' a i := by
  obtain ⟨w, read, decoded⟩ := h
  exact ⟨w, (read32_congr size bytes).trans read, decoded⟩

/-- A store keeps every word but its own. -/
lemma holds_written {A v i} (w : write32 A v m = .ok () m') (ne : a ≠ A) (h : Holds m a i) :
    Holds m' a i := by
  obtain ⟨bounds, aligned, rfl⟩ := write32_ok w
  have aligned' := h.inBounds.2
  have apart : a.toNat ≠ A.toNat := fun e => ne (BitVec.eq_of_toNat_eq e)
  unfold TI32.wordSize at aligned aligned'
  refine holds_congr (size_written bounds) ?_ h
  rw [written_bytes]
  apply Store.slice_splice_disjoint bounds.1
  show a.toNat + 4 ≤ A.toNat ∨ A.toNat + 4 ≤ a.toNat
  omega

/-- A store adds to the pending words. -/
lemma Pending.written {A v} (w : write32 A v m = .ok () m') (h : m.Pending a) : m'.Pending a := by
  obtain ⟨-, -, rfl⟩ := write32_ok w
  obtain ⟨r, mem, word, shares⟩ := h
  refine ⟨r, ?_, word, shares⟩
  rw [written_dirtyCodeRanges]
  exact List.mem_append_left _ mem

/-- A store to a tracked word makes it pending. -/
lemma Tracked.written {A v} (w : write32 A v m = .ok () m') (h : m.Tracked A) : m'.Pending A := by
  obtain ⟨-, -, rfl⟩ := write32_ok w
  have tracked : m.executableRegions.any (·.overlaps A TI32.wordSize) = true := h
  have whole : Shares A.toNat 4 A.toNat 4 := ⟨A.toNat, by omega, by omega⟩
  refine ⟨⟨A, 4⟩, ?_, rfl, whole⟩
  rw [written_dirtyCodeRanges, if_pos tracked]
  exact List.mem_append_right _ (List.mem_singleton.mpr rfl)

end TIMemory

open TIMemory

namespace Coherent

variable {P D : Word → Prop} {memory memory' : TIMemory} {cache cache' : TIBasicBlockCache}

/-- A store makes its word stale. -/
lemma written (h : Coherent P D memory cache) {A v} (w : write32 A v memory = .ok () memory') :
    Coherent P (fun a => D a ∨ a = A) memory' cache := by
  have size : memory'.size = memory.size := by
    obtain ⟨bounds, -, rfl⟩ := write32_ok w
    exact size_written bounds
  have wider : Coherent P (fun a => D a ∨ a = A) memory cache := h.weaken fun _ _ => .inl
  refine wider.of_memory size fun a i _ held => ?_
  by_cases same : a = A
  · exact .inr (.inr same)
  · exact .inl (holds_written w same held)

/-- Stores, if every word that matters is tracked. -/
lemma stored (w : Relation.ReflTransGen Written memory memory')
    (tracked : ∀ a, P a → memory.Tracked a) (h : Coherent P memory.Pending memory cache) :
    Coherent P memory'.Pending memory' cache := by
  induction w using Relation.ReflTransGen.head_induction_on with
  | refl => exact h
  | @head m m₁ w _ ih =>
    obtain ⟨A, v, w⟩ := w
    have regions : m₁.executableRegions = m.executableRegions := by
      obtain ⟨-, -, rfl⟩ := write32_ok w
      exact written_executableRegions m A v
    apply ih
    · intro a ha
      unfold Tracked
      rw [regions]
      exact tracked a ha
    · refine (h.written w).weaken fun a ha stale => ?_
      rcases stale with pending | rfl
      · exact pending.written w
      · exact (tracked a ha).written w

end Coherent

/-! ## Steps and runs -/

/-- A step keeps regions and size of the memory. -/
lemma StepChanges.layout {p q : Point σ} (h : StepChanges p q) :
    q.context.memory.executableRegions = p.context.memory.executableRegions ∧
      q.context.memory.size = p.context.memory.size := by
  cases h with
  | executed changes => exact changes.layout
  | fetched _ f =>
    rw [f.memory]
    exact ⟨rfl, rfl⟩

/-- A step keeps the coherence of the words that matter, if a system call keeps those that are not
pending. -/
lemma Coherent.step {P : Word → Prop} {p q : Point σ} (changes : StepChanges p q)
    (small : p.context.memory.size < 2 ^ 32) (tracked : ∀ a, P a → p.context.memory.Tracked a)
    (calls : p.action = .syscall → ∀ a i, P a → Holds p.context.memory a i →
      Holds q.context.memory a i ∨ p.context.memory.Pending a)
    (h : Coherent P p.context.memory.Pending p.context.memory p.context.blockCache) :
    Coherent P q.context.memory.Pending q.context.memory q.context.blockCache := by
  cases changes with
  | fetched _ f =>
    -- a look-up decodes the words as they are now
    have pending : q.context.memory.Pending = p.context.memory.Pending := by rw [f.memory]
    rw [pending]
    exact h.fetches f
  | executed changes =>
    generalize p.action = action at changes calls
    cases changes with
    | nothing _ memory cache =>
      rw [memory, cache]
      exact h
    | stored written cache =>
      rw [cache]
      exact h.stored written tracked
    | flushed memory cache =>
      rw [memory, cache]
      have flushed := h.invalidateAll small fun _ _ => id
      -- every stale word was pending, so its blocks are gone
      have same := @Coherent.of_memory _ _ _ { p.context.memory with dirtyCodeRanges := [] } _
        flushed rfl fun _ _ _ => .inl
      exact same.weaken fun _ _ => False.elim
    | called dirty _ size cache =>
      have pending : q.context.memory.Pending = p.context.memory.Pending := by
        unfold TIMemory.Pending
        rw [dirty]
      rw [pending, cache]
      exact h.of_memory size (calls rfl)

/-- The invariant of a run: its points are good, and the words that matter are coherent. -/
structure CoherentAt (P : Word → Prop) (m : TIMemory) (p : Point σ) : Prop where
  good : p.Good
  regions : p.context.memory.executableRegions = m.executableRegions
  size : p.context.memory.size = m.size
  coherent : Coherent P p.context.memory.Pending p.context.memory p.context.blockCache

namespace CoherentAt

variable {P : Word → Prop} {m : TIMemory} {p q : Point σ}

/-- A context with an empty cache is coherent. -/
lemma start {c : ExecutionContext σ} (fresh : c.blockCache = c.blockCache.clear) :
    CoherentAt P c.memory (.boundary ⟨c, 0⟩) where
  good := .boundary (fresh ▸ Consistent.clear c.blockCache)
  regions := rfl
  size := rfl
  coherent := by
    show Coherent P _ _ c.blockCache
    rw [fresh]
    exact Coherent.clear c.blockCache

variable [Host σ] {ir : IrLibrary}

/-- A step keeps the words that matter coherent. -/
lemma step (small : m.size < 2 ^ 32) (tracked : ∀ a, P a → m.Tracked a) (h : CoherentAt P m p)
    (e : pointStep ir p = .inl q)
    (calls : p.action = .syscall → ∀ a i, P a → Holds p.context.memory a i →
      Holds q.context.memory a i ∨ p.context.memory.Pending a) : CoherentAt P m q := by
  obtain ⟨good, changes⟩ := pointStep_changes h.good e
  obtain ⟨regions, size⟩ := changes.layout
  refine ⟨good, regions.trans h.regions, size.trans h.size, ?_⟩
  refine Coherent.step changes (h.size ▸ small) (fun a ha => ?_) calls h.coherent
  unfold Tracked
  rw [h.regions]
  exact tracked a ha

/-- A flush leaves no stale word among those that matter. -/
lemma flush (small : m.size < 2 ^ 32) (h : CoherentAt P m p) (e : pointStep ir p = .inl q)
    (flushes : p.action = .flush) :
    Coherent P (fun _ => False) q.context.memory q.context.blockCache := by
  obtain ⟨_, changes⟩ := pointStep_changes h.good e
  obtain ⟨memory, cache⟩ := changes.flush flushes
  rw [memory, cache]
  have flushed := h.coherent.invalidateAll (h.size ▸ small) fun _ _ => id
  exact flushed.of_memory rfl fun _ _ _ => .inl

end CoherentAt

/-- A step in which only stores change memory. -/
def OnlyStores (p q : Point σ) : Prop :=
  p.action = .syscall → q.context.memory.bytes = p.context.memory.bytes

/-- No system call comes next. -/
def Point.noCall (p : Point σ) : Bool := p.action != .syscall

/-- Without system calls only stores change memory. -/
lemma noCall_onlyStores [Host σ] (ir : IrLibrary) (p q : Point σ) (h : p.noCall = true)
    (_ : pointStep ir p = .inl q) : OnlyStores p q := by
  intro call
  unfold Point.noCall at h
  rw [call] at h
  cases h

/-- Every valid block lies in the executable regions. -/
def BlocksInside (c : ExecutionContext σ) : Prop :=
  ∀ a b, c.blockCache.blocks a = some b → b.valid = true →
    ∀ x, a.toNat ≤ x → x < a.toNat + 4 * b.instructionCount → c.memory.Executable x

section

variable {P D : Word → Prop} {memory : TIMemory} {cache : TIBasicBlockCache} {a : Word}
  {b : TIBasicBlock}

/-- The words of a block in the executable regions. -/
lemma Coherent.meetsCode (h : Coherent P D memory cache) (small : memory.size < 2 ^ 32)
    (hb : cache.blocks a = some b) (hv : b.valid = true)
    (inside : ∀ x, a.toNat ≤ x → x < a.toNat + 4 * b.instructionCount → memory.Executable x) {k}
    (hk : k < b.instructionCount) : memory.MeetsCode (wordAt a k) := by
  refine ⟨0, by omega, ?_⟩
  rw [h.toNat_word small hb hv hk]
  exact inside _ (by omega) (by omega)

/-- A word of a valid block that matters. -/
lemma Coherent.word (h : Coherent P D memory cache) (hb : cache.blocks a = some b)
    (hv : b.valid = true) {k ins} (hk : b.instructions[k]? = some ins) (hp : P (wordAt a k)) :
    (∃ w, memory.read32 (a + .ofNat 32 (4 * k)) = .ok w ∧ ins = TIDecoder.decode w) ∨
      D (wordAt a k) := by
  obtain ⟨is, source, decodes, size, start, instructions, words⟩ := h a b hb hv
  rw [instructions, List.getElem?_map] at hk
  obtain ⟨i, hi, rfl⟩ := Option.map_eq_some_iff.mp hk
  rcases words k i hi hp with ⟨w, read, decoded⟩ | stale
  · rw [wordAt, Nat.mul_comm] at read
    exact .inl ⟨w, read, decoded.symm⟩
  · exact .inr stale

end

variable [Host σ] {ir : IrLibrary} {start : ExecutionContext σ} {p q : Point σ}

/-- The invariant of a run in which only stores change memory. -/
lemma CoherentAt.reach (fresh : start.blockCache = start.blockCache.clear)
    (small : start.memory.size < 2 ^ 32)
    (run : ReachVia (pointStep ir) OnlyStores (.boundary ⟨start, 0⟩) p) :
    CoherentAt start.memory.MeetsCode start.memory p := by
  refine ReachVia.invariant (fun s t h e ok => ?_) (.start fresh) run
  refine h.step small (fun a => MeetsCode.tracked) e fun calls a i _ held => .inl ?_
  obtain ⟨_, changes⟩ := pointStep_changes h.good e
  exact holds_congr changes.layout.2 (by rw [ok calls]) held

omit [Host σ] in
/-- Where all of the memory is executable, no block leaves the regions. -/
lemma CoherentAt.blocksInside {P : Word → Prop} {m : TIMemory} (h : CoherentAt P m p)
    (small : m.size < 2 ^ 32) (whole : ∀ x < m.size, m.Executable x) :
    BlocksInside p.context := by
  intro a b hb hv x lower upper
  obtain ⟨is, source, decodes, size, -, instructions, -⟩ := h.coherent a b hb hv
  have sized : source.size = m.size := size.trans h.size
  have fits := decodes.fits_of_small (sized ▸ small)
  have length : b.instructionCount = is.length := by
    rw [TIBasicBlock.instructionCount, instructions, List.length_map]
  unfold TIMemory.Executable
  rw [h.regions]
  exact whole x (by omega)

/-- In every state of a run in which only stores change memory, and in which the valid blocks lie in
the executable regions, each word of a valid block is current or pending; after every `FLUSH` the
valid blocks and the published ones are the decoding of memory. -/
theorem store_coherence (fresh : start.blockCache = start.blockCache.clear)
    (small : start.memory.size < 2 ^ 32)
    (run : ReachVia (pointStep ir) OnlyStores (.boundary ⟨start, 0⟩) p) :
    (BlocksInside p.context → ∀ a b k ins, p.context.blockCache.blocks a = some b →
      b.valid = true → b.instructions[k]? = some ins →
      (∃ w, p.context.memory.read32 (a + .ofNat 32 (4 * k)) = .ok w ∧
        ins = TIDecoder.decode w) ∨
      ∃ r ∈ p.context.memory.dirtyCodeRanges,
        Shares (a + .ofNat 32 (4 * k)).toNat 4 r.address.toNat r.size) ∧
    ∀ q, pointStep ir p = .inl q → p.action = .flush → BlocksInside q.context →
      (∀ a b, q.context.blockCache.blocks a = some b → b.valid = true →
        BlockShape q.context.memory a b) ∧
      ∀ a e, q.context.blockCache.jitEntries a = some e → e ≠ 0 →
        ∃ b, q.context.blockCache.blocks a = some b ∧ b.valid = true ∧
          b.compiledBlock.entryPoint = e ∧ HasNative q.context.blockCache a b ∧
          BlockShape q.context.memory a b := by
  have at_p := CoherentAt.reach fresh small run
  constructor
  · intro inside a b k ins hb hv hk
    -- a word of a block in the regions meets them, so it is current or stale
    have small_p : p.context.memory.size < 2 ^ 32 := at_p.size ▸ small
    obtain ⟨hk', -⟩ := List.getElem?_eq_some_iff.mp hk
    have meets := at_p.coherent.meetsCode small_p hb hv (inside a b hb hv) hk'
    rcases at_p.coherent.word hb hv hk ((meetsCode_congr at_p.regions).mp meets) with now | stale
    · exact .inl now
    · obtain ⟨r, mem, -, shares⟩ := stale
      rw [wordAt, Nat.mul_comm] at shares
      exact .inr ⟨r, mem, shares⟩
  · intro q e flushes inside
    obtain ⟨good, changes⟩ := pointStep_changes at_p.good e
    obtain ⟨regions, size⟩ := changes.layout
    have small_q : q.context.memory.size < 2 ^ 32 := by
      rw [size, at_p.size]
      exact small
    have flushed := at_p.flush small e flushes
    have current a b (hb : q.context.blockCache.blocks a = some b) (hv : b.valid = true) :
        BlockShape q.context.memory a b := by
      apply flushed.shape small_q hb hv
      intro k hk
      rw [← meetsCode_congr (regions.trans at_p.regions)]
      exact flushed.meetsCode small_q hb hv (inside a b hb hv) hk
    refine ⟨current, fun a e he ne => ?_⟩
    obtain ⟨b, hb, hv, rfl⟩ := good.cache.chained he ne
    exact ⟨b, hb, hv, rfl, good.cache.native hb ne, current a b hb hv⟩

/-- `St x0, [x0, 8]` and `FLUSH` in front of a jump, which the store overwrites. -/
def overwritten : ExecutionContext Script :=
  { ExecutionContext.ofMemory (.ofWords [0x80000008, 0x98000000, 0xFC000000] 0) with
    mode := .switch }

/-- The `FLUSH` of that run. -/
lemma overwritten_flush : ∃ p q,
    runFor (pointStep .reference) Point.noCall 2 (.boundary ⟨overwritten, 0⟩) = some p ∧
    runFor (pointStep .reference) Point.noCall 3 (.boundary ⟨overwritten, 0⟩) = some q ∧
    pointStep .reference p = .inl q ∧ p.action = .flush := by
  obtain ⟨q, hq⟩ : ∃ q, runFor (pointStep .reference) Point.noCall 3
    (.boundary ⟨overwritten, 0⟩) = some q := ⟨_, rfl⟩
  obtain ⟨p, hp, e⟩ := runFor_succ hq
  have action : (runFor (pointStep .reference) Point.noCall 2
    (.boundary ⟨overwritten, 0⟩)).map Point.action = some .flush := by decide +kernel
  rw [hp] at action
  exact ⟨p, q, hp, hq, e, Option.some.inj action⟩

/-- All of that memory is executable. -/
lemma overwritten_executable (x) (hx : x < overwritten.memory.size) :
    overwritten.memory.Executable x :=
  ⟨⟨0, 12⟩, List.mem_singleton.mpr rfl, Nat.zero_le x, hx⟩

/-- The `FLUSH`, after which the block in front of the jump is still valid. -/
theorem store_coherence_overwritten : ∃ (p q : Point Script) (b : TIBasicBlock),
    pointStep .reference p = .inl q ∧ p.action = .flush ∧
    (∀ a b k ins, p.context.blockCache.blocks a = some b → b.valid = true →
      b.instructions[k]? = some ins →
      (∃ w, p.context.memory.read32 (a + .ofNat 32 (4 * k)) = .ok w ∧
        ins = TIDecoder.decode w) ∨
      ∃ r ∈ p.context.memory.dirtyCodeRanges,
        Shares (a + .ofNat 32 (4 * k)).toNat 4 r.address.toNat r.size) ∧
    q.context.blockCache.blocks 0 = some b ∧ b.valid = true ∧
      BlockShape q.context.memory 0 b := by
  obtain ⟨p, q, hp, hq, e, flushes⟩ := overwritten_flush
  have run := ReachVia.of_runFor (noCall_onlyStores .reference) hp
  have run' := ReachVia.of_runFor (noCall_onlyStores .reference) hq
  have small : overwritten.memory.size < 2 ^ 32 := by decide
  have valid : (runFor (pointStep .reference) Point.noCall 3 (.boundary ⟨overwritten, 0⟩)).map
      (fun q => (q.context.blockCache.blocks 0).map (·.valid)) = some (some true) := by
    decide +kernel
  rw [hq] at valid
  obtain ⟨b, hb, hv⟩ := Option.map_eq_some_iff.mp (Option.some.inj valid)
  obtain ⟨pending, flushed⟩ := store_coherence empty_clear small run
  -- the regions are the whole memory, so the blocks lie inside at both points
  have inside := (CoherentAt.reach empty_clear small run).blocksInside small overwritten_executable
  have inside' :=
    (CoherentAt.reach empty_clear small run').blocksInside small overwritten_executable
  exact ⟨p, q, b, e, flushes, pending inside, hb, hv, (flushed q e flushes inside').1 0 b hb hv⟩

end ToyIsa
