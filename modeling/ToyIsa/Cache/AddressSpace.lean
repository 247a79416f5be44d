import ToyIsa.Cache.Session

/-!
# Blocks at the end of the address space

`decodeBlock` and `invalidateRange` compare addresses in `uint64_t`, but the address of the next
word and the end of a block are computed in `uint32_t` before they are widened. In a memory of
`2 ^ 32` bytes, which `checkBounds` allows, a block that reaches the last word wraps around:
`block_addresses_iff` says that these are exactly the blocks whose addresses go wrong.
-/

namespace ToyIsa

open TIBasicBlockCache

/-- The addresses of the block at `a` do not wrap around. -/
structure AddressesHold (cache : TIBasicBlockCache) (memory : TIMemory) (a : Word) : Prop where
  /-- Decoding ends with a block. -/
  ends : ∃ b cache', cache.decodeBlock a memory = some (.ok b cache')
  /-- A word that the loop comes to, as it has not ended before, is not below the start. -/
  ascends : ∀ k, decodeLoop memory k a = none → a.toNat ≤ (wordAt a k).toNat
  /-- The instructions of the block are those words. -/
  words : ∀ b cache', cache.decodeBlock a memory = some (.ok b cache') →
    b.startAddress = a ∧ ∀ k < b.instructionCount, ∃ w,
      memory.read32 (wordAt a k) = .ok w ∧ b.instructions[k]? = some (TIDecoder.decode w)
  startsBeforeEnd : ∀ b cache', cache.decodeBlock a memory = some (.ok b cache') →
    b.startAddress < b.endAddress
  /-- The bytes of the block are those from its start to its end. -/
  bytes : ∀ b cache', cache.decodeBlock a memory = some (.ok b cache') → ∀ x,
    (∃ k < b.instructionCount, (wordAt a k).toNat ≤ x ∧ x < (wordAt a k).toNat + 4) ↔
      b.startAddress.toNat ≤ x ∧ x < b.endAddress.toNat
  /-- A write to any of its words invalidates the block. -/
  recognised : ∀ b cache', cache.decodeBlock a memory = some (.ok b cache') →
    ∀ k < b.instructionCount,
      (cache'.invalidateRange (wordAt a k) 4).blocks a = some b.invalidate

/-- A word from `a` on, but before the last word of the address space, ends a block. -/
def EndsBelow (memory : TIMemory) (a : Word) : Prop :=
  ∃ k w, a.toNat + 4 * k + 4 < 2 ^ 32 ∧ memory.read32 (wordAt a k) = .ok w ∧
    endsBlock (TIDecoder.decode w).opCode = true

variable {memory : TIMemory} {cache : TIBasicBlockCache} {a : Word} {is : List Instr}

/-! A block that does not reach the last word. -/

/-- The loop has not ended before the last word of the block. -/
lemma Decodes.decodeLoop_none (h : Decodes memory a is) {k} (more : k < is.length) :
    decodeLoop memory k a = none := by
  induction h generalizing k with
  | last =>
    obtain rfl : k = 0 := by simpa using more
    rfl
  | @cons a i is hi ne fits _ ih =>
    cases k with
    | zero => rfl
    | succ k =>
      have go : ¬ (i.Ends ∨ ¬ Fits memory (a + 4)) := not_or.mpr ⟨ne, not_not.mpr fits⟩
      rw [List.length_cons] at more
      rw [decodeLoop_succ hi, if_neg go, ih (Nat.lt_of_succ_lt_succ more)]
      rfl

/-- A loop that has not ended has not reached the last word of the block. -/
lemma Decodes.lt_of_decodeLoop_none (h : Decodes memory a is) {k}
    (running : decodeLoop memory k a = none) : k < is.length := by
  by_contra le
  have done := decodeLoop_ok_iff.mpr ⟨is, h, Nat.not_lt.mp le, rfl⟩
  rw [running] at done
  cases done

/-- What `decodeBlock` returns where no block is stored. -/
lemma Decodes.decodeBlock (h : Decodes memory a is) (len : is.length ≤ addressSpaceWords)
    (missing : cache.blocks a = none) : cache.decodeBlock a memory =
      some (.ok { startAddress := a, instructions := is.map Instr.toTI }
        (cache.insertBlock a (is.map Instr.toTI))) := by
  have loop := decodeLoop_ok_iff.mpr ⟨is, h, len, rfl⟩
  unfold TIBasicBlockCache.decodeBlock
  rw [loop]
  simp only [missing]
  rfl

/-- The addresses of a block that does not wrap around. -/
lemma Decodes.addressesHold (h : Decodes memory a is) (inSpace : a.toNat + 4 * is.length < 2 ^ 32)
    (missing : cache.blocks a = none) : AddressesHold cache memory a := by
  have nonempty : 0 < is.length := List.length_pos_iff.mpr h.straight.ne_nil
  have len : is.length ≤ addressSpaceWords := by
    unfold addressSpaceWords
    omega
  have decoded := h.decodeBlock len missing
  have address {k} (hk : k < is.length) : (wordAt a k).toNat = a.toNat + k * 4 :=
    toNat_wordAt (by omega)
  let block : TIBasicBlock := { startAddress := a, instructions := is.map Instr.toTI }
  have count : block.instructionCount = is.length := List.length_map _
  have endAddress : block.endAddress.toNat = a.toNat + 4 * is.length := by
    unfold TIBasicBlock.endAddress
    rw [List.length_map, BitVec.toNat_add, BitVec.toNat_ofNat]
    dsimp only [block]
    omega
  constructor
  case ends => exact ⟨_, _, decoded⟩
  case ascends =>
    intro k running
    rw [address (h.lt_of_decodeLoop_none running)]
    exact Nat.le_add_right _ _
  case words =>
    intro b cache' e
    rw [decoded] at e
    cases e
    refine ⟨rfl, fun k hk => ?_⟩
    rw [count] at hk
    have get := List.getElem?_eq_getElem hk
    obtain ⟨w, read, word⟩ := h.holds get
    refine ⟨w, read, ?_⟩
    rw [List.getElem?_map, get, word]
    rfl
  case startsBeforeEnd =>
    intro b cache' e
    rw [decoded] at e
    cases e
    rw [BitVec.lt_def, endAddress]
    exact Nat.lt_add_of_pos_right (Nat.mul_pos (by decide) nonempty)
  case bytes =>
    intro b cache' e x
    rw [decoded] at e
    cases e
    rw [endAddress, count]
    constructor
    · rintro ⟨k, hk, lo, hi⟩
      rw [address hk] at lo hi
      dsimp only
      omega
    · rintro ⟨lo, hi⟩
      have hk : (x - a.toNat) / 4 < is.length := by omega
      refine ⟨(x - a.toNat) / 4, hk, ?_⟩
      rw [address hk]
      dsimp only at lo
      omega
  case recognised =>
    intro b cache' e k hk
    rw [decoded] at e
    cases e
    rw [count] at hk
    have touched : touches block (wordAt a k) 4 = true := by
      unfold touches u64
      dsimp only
      rw [endAddress, address hk, Bool.and_eq_true, decide_eq_true_eq, decide_eq_true_eq]
      dsimp only [block]
      omega
    have stored : (cache.insertBlock a (is.map Instr.toTI)).blocks a = some block :=
      Function.update_self a _ _
    unfold TIBasicBlockCache.invalidateRange
    simp only [stored, Option.any_some, touched, if_true]
    rfl

/-- The next word fits if it is not the first word again. -/
lemma fits_next (ha : a.toNat % 4 = 0) (full : memory.size = 2 ^ 32)
    (next : a.toNat + 4 < 2 ^ 32) : (a + 4).toNat = a.toNat + 4 ∧ Fits memory (a + 4) := by
  have four : (4 : Word).toNat = 4 := rfl
  have toNat : (a + 4).toNat = a.toNat + 4 := by
    rw [BitVec.toNat_add, four]
    omega
  refine ⟨toNat, ?_⟩
  unfold Fits
  rw [toNat, full]
  omega

/-- A terminator before the last word keeps the block below the end of the address space. -/
lemma decodes_of_endsBelow (full : memory.size = 2 ^ 32) {k w} (ha : a.toNat % 4 = 0)
    (below : a.toNat + 4 * k + 4 < 2 ^ 32) (read : memory.read32 (wordAt a k) = .ok w)
    (stop : endsBlock (TIDecoder.decode w).opCode = true) :
    ∃ is, Decodes memory a is ∧ a.toNat + 4 * is.length < 2 ^ 32 := by
  induction k generalizing a with
  | zero =>
    rw [wordAt_zero] at read
    obtain ⟨i, hi, decoded⟩ := holds_of_read32 read
    have ends : i.Ends := by
      rw [decoded] at stop
      exact stop
    exact ⟨[i], .last hi (.inl ends), below⟩
  | succ k ih =>
    obtain ⟨toNat, fits⟩ := fits_next ha full (by omega)
    obtain ⟨i, hi⟩ : ∃ i, Holds memory a i := holds_of_fits ha (by unfold Fits; omega)
    by_cases ends : i.Ends
    · refine ⟨[i], .last hi (.inl ends), ?_⟩
      rw [List.length_singleton]
      omega
    · rw [wordAt_succ] at read
      obtain ⟨is, rest, inSpace⟩ := ih (aligned_add_four ha) (by omega) read
      refine ⟨i :: is, .cons hi ends fits rest, ?_⟩
      rw [List.length_cons]
      omega

/-! A block that reaches the last word. -/

/-- The last instruction of a block below the end of the address space ends it. -/
lemma Decodes.endsBelow (h : Decodes memory a is) (full : memory.size = 2 ^ 32)
    (inSpace : a.toNat + 4 * is.length < 2 ^ 32) : EndsBelow memory a := by
  induction h with
  | @last a i hi stop =>
    rw [List.length_singleton] at inSpace
    have fits := (fits_next hi.inBounds.2 full inSpace).2
    obtain ⟨w, read, decoded⟩ := hi
    refine ⟨0, w, inSpace, ?_, ?_⟩
    · rwa [wordAt_zero]
    · rw [decoded]
      exact stop.resolve_right (not_not.mpr fits)
  | @cons a i is hi ne fits _ ih =>
    rw [List.length_cons] at inSpace
    have toNat := (fits_next hi.inBounds.2 full (by omega)).1
    obtain ⟨k, w, below, read, ends⟩ := ih (by omega)
    refine ⟨k + 1, w, by omega, ?_, ends⟩
    rwa [wordAt_succ]

/-- A block of a memory as large as the address space that keeps its addresses does not reach the
last word. -/
lemma AddressesHold.endsBelow (hold : AddressesHold cache memory a) (full : memory.size = 2 ^ 32)
    (missing : cache.blocks a = none) : EndsBelow memory a := by
  obtain ⟨b, cache', decoded⟩ := hold.ends
  have before := hold.startsBeforeEnd b cache' decoded
  have f := getBlock_cases cache a memory
  rw [← decodeBlock_eq_getBlock missing, decoded] at f
  cases f with
  | hit hb => rw [missing] at hb; cases hb
  | @decoded is _ decodes len =>
    obtain inSpace | past := Nat.lt_or_ge (a.toNat + 4 * is.length) (2 ^ 32)
    · exact decodes.endsBelow full inSpace
    -- the end of the block, or the address of one of its words, is 0
    exfalso
    have hi : ∃ i, Holds memory a i := by
      cases decodes with
      | last hi => exact ⟨_, hi⟩
      | cons hi => exact ⟨_, hi⟩
    obtain ⟨i, holds⟩ := hi
    have aligned : a.toNat % 4 = 0 := holds.inBounds.2
    obtain last | beyond := Nat.eq_or_lt_of_le past
    · have zero : (TIBasicBlock.endAddress
          { startAddress := a, instructions := is.map Instr.toTI }).toNat = 0 := by
        unfold TIBasicBlock.endAddress
        rw [List.length_map, BitVec.toNat_add, BitVec.toNat_ofNat]
        dsimp only
        omega
      rw [BitVec.lt_def, zero] at before
      exact absurd before (Nat.not_lt_zero _)
    · have k : (2 ^ 32 - a.toNat) / 4 < is.length := by
        have := a.isLt
        omega
      have low := hold.ascends _ (decodes.decodeLoop_none k)
      have zero : (wordAt a ((2 ^ 32 - a.toNat) / 4)).toNat = 0 := by
        have := a.isLt
        unfold wordAt
        rw [BitVec.toNat_add, BitVec.toNat_ofNat]
        omega
      unfold addressSpaceWords at len
      omega

/-- In a memory no larger than the address space, the addresses of a block hold exactly if it does
not reach the last word of the address space. -/
lemma addressesHold_iff (size : memory.size ≤ 2 ^ 32) (missing : cache.blocks a = none)
    (ha : a.toNat % 4 = 0) (within : Within memory.size a 4) :
    AddressesHold cache memory a ↔ memory.size < 2 ^ 32 ∨ EndsBelow memory a := by
  constructor
  · intro hold
    obtain small | full := Nat.lt_or_eq_of_le size
    · exact .inl small
    · exact .inr (hold.endsBelow full missing)
  · intro condition
    obtain small | full := Nat.lt_or_eq_of_le size
    · have f := getBlock_cases cache a memory
      obtain ⟨w, read⟩ := (read32_ok_iff a).mpr ⟨ha, within⟩
      rw [← decodeBlock_eq_getBlock missing] at f
      generalize decoded : cache.decodeBlock a memory = r at f
      cases f with
      | hit hb => rw [missing] at hb; cases hb
      | diverges _ loops => exact absurd loops (decodeLoop_isSome small a)
      | fault _ failed => rw [read] at failed; cases failed
      | decoded _ decodes _ =>
        have inMemory := decodes.fits_of_small small
        exact decodes.addressesHold (by omega) missing
    · obtain small | ⟨k, w, below, read, stop⟩ := condition
      · exact absurd full (Nat.ne_of_lt small)
      · obtain ⟨is, decodes, inSpace⟩ := decodes_of_endsBelow full ha below read stop
        exact decodes.addressesHold inSpace missing

/-- The address arithmetic of the block at an aligned address of the memory is right exactly if the
memory is smaller than the address space or a word before the last one ends the block. -/
theorem block_addresses_iff (memory : TIMemory) (size : memory.size ≤ 2 ^ 32)
    (cache : TIBasicBlockCache) (a : Word) (missing : cache.blocks a = none)
    (aligned : a.toNat % 4 = 0) (inBounds : Within memory.size a 4) :
    AddressesHold cache memory a ↔ memory.size < 2 ^ 32 ∨ EndsBelow memory a :=
  addressesHold_iff size missing aligned inBounds

/-- The three words in front of zeros, in a memory as large as the address space. -/
def wideMemory : TIMemory :=
  { threeWords with bytes := threeWords.bytes ++ List.replicate (2 ^ 32 - 12) 0 }

/-- The memory fills the address space. -/
lemma wideMemory_size : wideMemory.size = 2 ^ 32 := by
  have three : threeWords.bytes.length = 12 := by decide
  unfold TIMemory.size wideMemory
  rw [List.length_append, List.length_replicate, three, Nat.add_sub_cancel' (by decide)]

/-- The first words can be read. -/
lemma wideMemory_read32 (a : Word) (low : a.toNat + 4 ≤ 12)
    (aligned : a.toNat % TI32.wordSize = 0) :
    wideMemory.read32 a =
      decodeLittleEndianWord (Store.slice wideMemory.bytes a.toNat TI32.wordSize) := by
  have within : wideMemory.InBounds a TI32.wordSize := by
    rw [TIMemory.inBounds_iff, wideMemory_size]
    unfold Within TI32.wordSize
    omega
  rw [TIMemory.read32_eq, if_pos within, if_pos aligned]

/-- The block of the three words. -/
lemma wideMemory_decodes :
    Decodes wideMemory 0 [.compute (.li 8 60), .compute (.li 1 4), .j 0] := by
  have fits (a : Word) (low : a.toNat + 4 ≤ 12) : Fits wideMemory a := by
    unfold Fits
    rw [wideMemory_size]
    omega
  have li : Holds wideMemory 0 (.compute (.li 8 60)) :=
    ⟨0x2C08003C, wideMemory_read32 0 (by decide) (by decide), by decide⟩
  have li' : Holds wideMemory 4 (.compute (.li 1 4)) :=
    ⟨0x2C010004, wideMemory_read32 4 (by decide) (by decide), by decide⟩
  have j : Holds wideMemory 8 (.j 0) :=
    ⟨0xFC000000, wideMemory_read32 8 (by decide) (by decide), by decide⟩
  exact .cons li (by decide) (fits _ (by decide))
    (.cons li' (by decide) (fits _ (by decide)) (.last j (.inl (by decide))))

/-- The addresses of that block hold. -/
theorem block_addresses_iff_wideMemory :
    ∃ b cache', ({} : TIBasicBlockCache).decodeBlock 0 wideMemory = some (.ok b cache') ∧
      b.instructionCount = 3 ∧ AddressesHold {} wideMemory 0 := by
  have within : Within wideMemory.size 0 4 := by
    rw [wideMemory_size]
    decide
  obtain ⟨w, read, decoded⟩ := wideMemory_decodes.holds (k := 2) rfl
  have jump : EndsBelow wideMemory 0 := ⟨2, w, by decide, read, by rw [decoded]; rfl⟩
  have hold := (block_addresses_iff wideMemory (Nat.le_of_eq wideMemory_size) {} 0 rfl rfl
    within).mpr (.inr jump)
  exact ⟨_, _, wideMemory_decodes.decodeBlock (by decide) rfl, rfl, hold⟩

/-- The end of the block at the last word of the address space is 0, whatever the word is. -/
theorem lastWord_wraps : ¬ AddressesHold {} (.create (2 ^ 32)) 0xFFFFFFFC := by
  intro hold
  have full : (TIMemory.create (2 ^ 32)).size = 2 ^ 32 := List.length_replicate
  obtain ⟨k, w, below, _⟩ := hold.endsBelow full rfl
  have start : (0xFFFFFFFC : Word).toNat = 4294967292 := rfl
  omega

end ToyIsa
