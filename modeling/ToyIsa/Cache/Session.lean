import ToyIsa.Cache.Lookup
import ToyIsa.Memory.Law
import ToyIsa.Toy.Scripted

/-!
# Using the cache

`BlockShape memory a b`: the block `b` is the maximal straight run of `memory` at `a`. A
`CacheSession` is a cache and its memory under any sequence of operations, with the memory each
block was decoded from; `Session` is its invariant, `session_run` carries it over a sequence.
-/

namespace ToyIsa

open TIBasicBlockCache

/-- The opcodes that end a block. -/
def terminators : List TIOpcode := [.beq, .j, .syscall, .flush, .invalid]

/-- The opcodes that end a block. -/
lemma endsBlock_iff (op : TIOpcode) : endsBlock op = true ↔ op ∈ terminators := by
  cases op <;> decide

/-- The block is the maximal straight run at `a`. -/
structure BlockShape (memory : TIMemory) (a : Word) (b : TIBasicBlock) : Prop where
  start : b.startAddress = a
  nonempty : 1 ≤ b.instructionCount
  words : ∀ i < b.instructionCount, ∃ w,
    memory.read32 (a + BitVec.ofNat 32 (4 * i)) = .ok w ∧
      b.instructions[i]? = some (TIDecoder.decode w)
  straight : ∀ i ins, i + 1 < b.instructionCount → b.instructions[i]? = some ins →
    ins.opCode ∉ terminators
  last : ∃ ins, b.instructions.getLast? = some ins ∧
    (ins.opCode ∈ terminators ∨ memory.size < a.toNat + 4 * b.instructionCount + 4)
  endAddress : b.endAddress.toNat = a.toNat + 4 * b.instructionCount
  inMemory : a.toNat + 4 * b.instructionCount ≤ memory.size

/-- The shape does not depend on what the JIT does with the block. -/
lemma BlockShape.congr {memory a b b'} (h : BlockShape memory a b)
    (start : b'.startAddress = b.startAddress) (instructions : b'.instructions = b.instructions) :
    BlockShape memory a b' := by
  have count : b'.instructionCount = b.instructionCount := congrArg List.length instructions
  have last : b'.endAddress = b.endAddress := by
    unfold TIBasicBlock.endAddress
    rw [start, instructions]
  exact {
    start := start.trans h.start
    nonempty := count ▸ h.nonempty
    words := by rw [count, instructions]; exact h.words
    straight := by rw [count, instructions]; exact h.straight
    last := by rw [count, instructions]; exact h.last
    endAddress := by rw [count, last]; exact h.endAddress
    inMemory := by rw [count]; exact h.inMemory }

section

variable {memory : TIMemory} {a : Word} {is : List Instr}

/-- The last instruction of a decoded block ends it, or no word follows. -/
lemma Decodes.last_of_small (h : Decodes memory a is) (small : memory.size < 2 ^ 32) :
    ∃ i, is.getLast? = some i ∧ (i.Ends ∨ memory.size < a.toNat + 4 * is.length + 4) := by
  induction h with
  | @last a i hi stop =>
    refine ⟨i, rfl, stop.imp_right fun out => ?_⟩
    unfold Fits at out
    rw [hi.toNat_next small] at out
    rw [List.length_singleton]
    omega
  | @cons a i is hi ne fits rest ih =>
    obtain ⟨last, e, stop⟩ := ih
    rw [hi.toNat_next small] at stop
    refine ⟨last, ?_, stop.imp_right fun out => ?_⟩
    · rw [List.getLast?_cons, e]
      rfl
    · rw [List.length_cons]
      omega

/-- No instruction of a decoded block before the last one ends it. -/
lemma Decodes.not_ends (h : Decodes memory a is) {k i} (hk : is[k]? = some i)
    (more : k + 1 < is.length) : ¬ i.Ends := by
  induction h generalizing k with
  | last => simp at more
  | @cons a j is hi ne fits rest ih =>
    cases k with
    | zero =>
      rw [List.getElem?_cons_zero] at hk
      cases hk
      exact ne
    | succ k =>
      rw [List.getElem?_cons_succ] at hk
      rw [List.length_cons] at more
      exact ih hk (by omega)

/-- A decoded block has the shape. -/
lemma Decodes.shape (h : Decodes memory a is) (small : memory.size < 2 ^ 32) {b : TIBasicBlock}
    (start : b.startAddress = a) (instructions : b.instructions = is.map Instr.toTI) :
    BlockShape memory a b := by
  have count : b.instructionCount = is.length := by
    unfold TIBasicBlock.instructionCount
    rw [instructions, List.length_map]
  have inMemory := h.fits_of_small small
  constructor
  case start => exact start
  case nonempty =>
    rw [count]
    exact List.length_pos_iff.mpr h.straight.ne_nil
  case words =>
    intro k hk
    rw [count] at hk
    have get := List.getElem?_eq_getElem hk
    obtain ⟨w, read, decoded⟩ := h.holds get
    refine ⟨w, ?_, ?_⟩
    · rw [Nat.mul_comm]
      exact read
    · rw [instructions, List.getElem?_map, get, decoded]
      rfl
  case straight =>
    intro k ins more hk
    rw [count] at more
    rw [instructions, List.getElem?_map] at hk
    obtain ⟨i, hi, rfl⟩ := Option.map_eq_some_iff.mp hk
    rw [← endsBlock_iff]
    exact h.not_ends hi more
  case last =>
    obtain ⟨i, hi, stop⟩ := h.last_of_small small
    refine ⟨i.toTI, ?_, ?_⟩
    · rw [instructions, List.getLast?_map, hi]
      rfl
    · rw [count, ← endsBlock_iff]
      exact stop
  case endAddress =>
    unfold TIBasicBlock.endAddress
    rw [start, count, instructions, List.length_map, BitVec.toNat_add, BitVec.toNat_ofNat]
    omega
  case inMemory =>
    rw [count]
    omega

end

/-! Decoding one block. -/

section

variable {memory : TIMemory} {cache : TIBasicBlockCache} {a : Word}

/-- Without a block under the address `decodeBlock` is `getBlock`. -/
lemma decodeBlock_eq_getBlock (missing : cache.blocks a = none) :
    cache.decodeBlock a memory = cache.getBlock a memory := by
  unfold getBlock
  rw [missing]

/-- The lookup ends in a small memory. -/
lemma getBlock_ne_none (small : memory.size < 2 ^ 32) : cache.getBlock a memory ≠ none := by
  intro h
  have f := getBlock_cases cache a memory
  rw [h] at f
  cases f with
  | diverges _ loops => exact decodeLoop_isSome small a loops

/-- A lookup throws what reading the first word throws. -/
lemma getBlock_error {e cache'} (h : cache.getBlock a memory = some (.error e cache')) :
    memory.read32 a = .error e := by
  have f := getBlock_cases cache a memory
  rw [h] at f
  cases f with
  | fault _ read => exact read

/-- A new block has the shape. -/
lemma getBlock_shape (small : memory.size < 2 ^ 32) (nv : NoValid cache a) {b cache'}
    (h : cache.getBlock a memory = some (.ok b cache')) : BlockShape memory a b := by
  have f := getBlock_cases cache a memory
  rw [h] at f
  cases f with
  | hit hb hv => exact absurd hv (by rw [nv b hb]; exact Bool.false_ne_true)
  | decoded _ decodes _ => exact decodes.shape small rfl rfl

/-- Where no valid block is stored, the lookup throws exactly where no word can be read. -/
lemma getBlock_error_iff (small : memory.size < 2 ^ 32) (nv : NoValid cache a) :
    (∃ e cache', cache.getBlock a memory = some (.error e cache')) ↔
      ¬ (a.toNat % 4 = 0 ∧ Within memory.size a 4) := by
  rw [← read32_ok_iff]
  constructor
  · rintro ⟨e, cache', h⟩ ⟨w, read⟩
    rw [getBlock_error h] at read
    cases read
  · intro unreadable
    have f := getBlock_cases cache a memory
    generalize h : cache.getBlock a memory = r at f
    cases f with
    | hit hb hv => exact absurd hv (by rw [nv _ hb]; exact Bool.false_ne_true)
    | diverges => exact absurd h (getBlock_ne_none small)
    | fault => exact ⟨_, _, rfl⟩
    | decoded _ decodes _ =>
      have shape := getBlock_shape small nv h
      obtain ⟨w, read, _⟩ := shape.words 0 shape.nonempty
      rw [Nat.mul_zero, BitVec.add_zero] at read
      exact absurd ⟨w, read⟩ unreadable

end

/-! Sequences of operations. -/

/-- An operation on a cache or on the memory it decodes from. Those on a block are made through the
reference that a lookup has returned; `mapCode` is a mapping of native code. -/
inductive CacheOp where
  | getBlock (address : Word)
  | invalidateRange (address : Word) (byteCount : Nat)
  | memory (op : MemoryOp)
  | recordExecution (address : Word)
  | setCompiledBlock (address : Word) (compiledBlock : TICompiledBlock)
  | mapCode (code : NativeCode)
  | jitEntrySlot (address : Word)
  | setJitEntry (address : Word) (entryPoint : Entry)
  | clear

/-- A cache in use. `decodedFrom` is the memory at the time the block of an address was decoded. -/
structure CacheSession where
  cache : TIBasicBlockCache := {}
  memory : TIMemory
  decodedFrom : Word → Option TIMemory := fun _ => none

/-- A valid block is stored under `a`. -/
def TIBasicBlockCache.hasValid (cache : TIBasicBlockCache) (a : Word) : Bool :=
  (cache.blocks a).any (·.valid)

/-- The session after a lookup, which decodes if no valid block is stored. -/
def CacheSession.lookedUp (s : CacheSession) (address : Word) :
    Option (EStateM.Result Failure TIBasicBlockCache TIBasicBlock) → CacheSession
  | none => s
  | some (.error _ cache) => { s with cache := cache }
  | some (.ok _ cache) => { s with
      cache := cache
      decodedFrom :=
        if s.cache.hasValid address then s.decodedFrom
        else Function.update s.decodedFrom address (some s.memory) }

/-- The session after an operation. -/
def CacheSession.next (s : CacheSession) : CacheOp → CacheSession
  | .getBlock address => s.lookedUp address (s.cache.getBlock address s.memory)
  | .invalidateRange address byteCount =>
    { s with cache := s.cache.invalidateRange address byteCount }
  | .memory op => { s with memory := op.next s.memory }
  | .recordExecution address =>
    { s with cache := s.cache.modifyBlock address (·.recordExecution) }
  | .setCompiledBlock address compiledBlock =>
    { s with cache := s.cache.modifyBlock address (·.setCompiledBlock compiledBlock) }
  | .mapCode code => { s with cache := { s.cache with
      compilations := s.cache.compilations + 1
      nativeCode := Function.update s.cache.nativeCode (s.cache.compilations + 1) (some code) } }
  | .jitEntrySlot address => { s with cache := s.cache.jitEntrySlot address }
  | .setJitEntry address entryPoint => { s with cache := s.cache.setJitEntry address entryPoint }
  | .clear => { s with cache := s.cache.clear }

def CacheSession.run (s : CacheSession) (ops : List CacheOp) : CacheSession :=
  ops.foldl CacheSession.next s

/-- Every block has the shape it had in the memory it was decoded from. -/
structure CacheSession.Ok (size : Nat) (s : CacheSession) : Prop where
  sized : s.memory.size = size
  decoded : ∀ {a b}, s.cache.blocks a = some b →
    ∃ m, s.decodedFrom a = some m ∧ m.size = size ∧ BlockShape m a b

/-- No valid block is stored. -/
lemma hasValid_eq_false {cache : TIBasicBlockCache} {a} :
    cache.hasValid a = false ↔ NoValid cache a := by
  unfold TIBasicBlockCache.hasValid NoValid
  cases cache.blocks a with
  | none => simp
  | some b => simp

/-- A valid block is stored. -/
lemma hasValid_of_valid {cache : TIBasicBlockCache} {a b} (hb : cache.blocks a = some b)
    (hv : b.valid = true) : cache.hasValid a = true := by
  unfold TIBasicBlockCache.hasValid
  rw [hb]
  exact hv

namespace CacheSession.Ok

variable {size : Nat} {s : CacheSession}

/-- An operation that keeps start and instructions of the blocks it keeps. -/
lemma of_blocks {cache : TIBasicBlockCache} (h : s.Ok size)
    (blocks : ∀ a b, cache.blocks a = some b → ∃ b', s.cache.blocks a = some b' ∧
      b.startAddress = b'.startAddress ∧ b.instructions = b'.instructions) :
    CacheSession.Ok size { s with cache := cache } where
  sized := h.sized
  decoded {a b} hb := by
    obtain ⟨b', hb', start, instructions⟩ := blocks a b hb
    obtain ⟨m, source, sized, shape⟩ := h.decoded hb'
    exact ⟨m, source, sized, shape.congr start instructions⟩

/-- So does a change of one block. -/
lemma modifyBlock (h : s.Ok size) (k) {f : TIBasicBlock → TIBasicBlock}
    (hf : ∀ b, (f b).startAddress = b.startAddress ∧ (f b).instructions = b.instructions) :
    CacheSession.Ok size { s with cache := s.cache.modifyBlock k f } := by
  apply h.of_blocks
  intro a b hb
  obtain ⟨b', hb', ⟨_, rfl⟩ | ⟨_, rfl⟩⟩ := PartialMap.modify_eq_some hb
  · exact ⟨b', hb', hf b'⟩
  · exact ⟨b, hb', rfl, rfl⟩

/-- A lookup, which decodes if no valid block is stored. -/
lemma getBlock (h : s.Ok size) (small : size < 2 ^ 32) (a) : (s.next (.getBlock a)).Ok size := by
  have small' : s.memory.size < 2 ^ 32 := h.sized ▸ small
  have f := getBlock_cases s.cache a s.memory
  rw [CacheSession.next]
  generalize found : s.cache.getBlock a s.memory = r at f
  cases f with
  | @hit b hb hv =>
    rw [CacheSession.lookedUp, hasValid_of_valid hb hv, if_pos rfl]
    exact h
  | diverges => exact h
  -- the invalid block is destroyed before decoding fails
  | fault nv _ =>
    apply h.of_blocks
    intro k b hb
    exact ⟨b, (of_dropped hb).2, rfl, rfl⟩
  | @decoded is nv decodes _ =>
    rw [CacheSession.lookedUp, hasValid_eq_false.mpr nv, if_neg Bool.false_ne_true]
    refine ⟨h.sized, fun {k b} hb => ?_⟩
    dsimp only
    obtain ⟨rfl, rfl⟩ | ⟨ne, hb⟩ := PartialMap.insert_eq_some hb
    · rw [Function.update_self]
      exact ⟨s.memory, rfl, h.sized, getBlock_shape small' nv found⟩
    · rw [Function.update_of_ne ne]
      exact h.decoded (of_dropped hb).2

/-- Every operation keeps the invariant. -/
lemma next (h : s.Ok size) (small : size < 2 ^ 32) (op) : (s.next op).Ok size := by
  cases op with
  | getBlock a => exact h.getBlock small a
  | invalidateRange a n =>
    apply h.of_blocks
    intro k b hb
    unfold TIBasicBlockCache.invalidateRange at hb
    dsimp only at hb
    split at hb
    · obtain ⟨b', hb', rfl⟩ := Option.map_eq_some_iff.mp hb
      exact ⟨b', hb', rfl, rfl⟩
    · exact ⟨b, hb, rfl, rfl⟩
  | memory op =>
    exact ⟨MemoryOp.next_size.trans h.sized, h.decoded⟩
  | recordExecution a => exact h.modifyBlock a fun b => ⟨rfl, rfl⟩
  | setCompiledBlock a c => exact h.modifyBlock a fun b => ⟨rfl, rfl⟩
  | mapCode code => exact h.of_blocks fun a b hb => ⟨b, hb, rfl, rfl⟩
  | jitEntrySlot a =>
    apply h.of_blocks
    intro k b hb
    rw [Consistent.jitEntrySlot_blocks] at hb
    exact ⟨b, hb, rfl, rfl⟩
  | setJitEntry a e => exact h.of_blocks fun a b hb => ⟨b, hb, rfl, rfl⟩
  | clear =>
    apply h.of_blocks
    intro k b hb
    cases hb

end CacheSession.Ok

/-- Every sequence of operations keeps the invariant. -/
lemma CacheSession.Ok.run {size s} (h : CacheSession.Ok size s) (small : size < 2 ^ 32) (ops) :
    (s.run ops).Ok size := by
  induction ops generalizing s with
  | nil => exact h
  | cons op ops ih => exact ih (h.next small op)

/-- A new session has no blocks. -/
lemma CacheSession.Ok.start (memory : TIMemory) :
    CacheSession.Ok memory.size { memory := memory } :=
  ⟨rfl, fun hb => by cases hb⟩

/-- Block decoding in a memory smaller than the address space: `decodeBlock` ends, throws exactly
where no word can be read, and otherwise returns the maximal straight run. In any use of the cache
a lookup returns a valid block with the shape it had in memory when it was decoded. -/
theorem block_decoding_exact (memory : TIMemory) (small : memory.size < 2 ^ 32) :
    (∀ (cache : TIBasicBlockCache) a, cache.blocks a = none →
      cache.decodeBlock a memory ≠ none ∧
      ((∃ e cache', cache.decodeBlock a memory = some (.error e cache')) ↔
        ¬ (a.toNat % 4 = 0 ∧ Within memory.size a 4)) ∧
      (∀ e cache', cache.decodeBlock a memory = some (.error e cache') →
        memory.read32 a = .error e) ∧
      (∀ b cache', cache.decodeBlock a memory = some (.ok b cache') →
        BlockShape memory a b)) ∧
    ∀ ops a (s : CacheSession), s = ({ memory := memory } : CacheSession).run ops →
      s.cache.getBlock a s.memory ≠ none ∧
      ∀ b cache', s.cache.getBlock a s.memory = some (.ok b cache') →
        b.valid = true ∧ cache'.blocks a = some b ∧
        ∃ m, (s.next (.getBlock a)).decodedFrom a = some m ∧ BlockShape m a b := by
  constructor
  · intro cache a missing
    have nv : NoValid cache a := fun b hb => by rw [missing] at hb; cases hb
    rw [decodeBlock_eq_getBlock missing]
    exact ⟨getBlock_ne_none small, getBlock_error_iff small nv, fun e cache' => getBlock_error,
      fun b cache' => getBlock_shape small nv⟩
  · rintro ops a s rfl
    have ok := (CacheSession.Ok.start memory).run small ops
    generalize ({ memory := memory } : CacheSession).run ops = s at ok
    have small' : s.memory.size < 2 ^ 32 := ok.sized ▸ small
    refine ⟨getBlock_ne_none small', fun b cache' h => ?_⟩
    rw [CacheSession.next]
    have f := getBlock_cases s.cache a s.memory
    generalize found : s.cache.getBlock a s.memory = r at f h
    cases f with
    -- decoded earlier, from the memory of that time
    | hit hb hv =>
      cases h
      obtain ⟨m, source, _, shape⟩ := ok.decoded hb
      refine ⟨hv, hb, m, ?_, shape⟩
      rw [CacheSession.lookedUp, hasValid_of_valid hb hv, if_pos rfl]
      exact source
    -- decoded now
    | decoded nv _ _ =>
      cases h
      refine ⟨rfl, Function.update_self _ _ _, s.memory, ?_, getBlock_shape small' nv found⟩
      rw [CacheSession.lookedUp, hasValid_eq_false.mpr nv, if_neg Bool.false_ne_true]
      exact Function.update_self _ _ _
    | diverges => cases h
    | fault => cases h

/-- Two `Li` and a jump. -/
def threeWords : TIMemory := .ofWords [0x2C08003C, 0x2C010004, 0xFC000000] 0

/-- The blocks at the first and at the second word, which overlap. -/
theorem block_decoding_exact_threeWords :
    (∃ b cache', ({} : TIBasicBlockCache).decodeBlock 0 threeWords = some (.ok b cache') ∧
      b.instructionCount = 3 ∧ BlockShape threeWords 0 b) ∧
    ∃ b cache', (({ memory := threeWords } : CacheSession).run [.getBlock 0]).cache.getBlock 4
        threeWords = some (.ok b cache') ∧
      b.instructionCount = 2 ∧ b.valid = true ∧ cache'.blocks 4 = some b := by
  obtain ⟨decoding, sessions⟩ := block_decoding_exact threeWords (by decide)
  have first : ({} : TIBasicBlockCache).decodeBlock 0 threeWords = some (.ok _ _) := rfl
  have second : (({ memory := threeWords } : CacheSession).run [.getBlock 0]).cache.getBlock 4
      threeWords = some (.ok _ _) := rfl
  have shape := (decoding {} 0 rfl).2.2.2 _ _ first
  obtain ⟨valid, stored, -⟩ := (sessions [.getBlock 0] 4 _ rfl).2 _ _ second
  exact ⟨⟨_, _, first, rfl, shape⟩, _, _, second, rfl, valid, stored⟩

end ToyIsa
