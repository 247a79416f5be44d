import ToyIsa.Isa.Block

/-!
# Decoding a block

`Decodes memory a is`: the block that starts at `a` is `is`. `decodeLoop_ok_iff` says that this is
what the loop of `decodeBlock` computes, `decodeLoop_error` that it fails at the first word or not
at all, and `decodeLoop_fuel` that a loop that has not ended after all words of the address space
never ends. In a memory smaller than the address space the loop always ends.
-/

namespace ToyIsa

open TIBasicBlockCache

/-- The address of word `k` of the block at `a`. -/
def wordAt (a : Word) (k : Nat) : Word := a + BitVec.ofNat 32 (k * 4)

/-- The word at `a` decodes to `i`. -/
def Holds (memory : TIMemory) (a : Word) (i : Instr) : Prop :=
  ∃ w, memory.read32 a = .ok w ∧ TIDecoder.decode w = i.toTI

/-- The word at `a` fits in memory. -/
def Fits (memory : TIMemory) (a : Word) : Prop := a.toNat + 4 ≤ memory.size

instance (memory a) : Decidable (Fits memory a) := inferInstanceAs (Decidable (_ ≤ _))

inductive Decodes (memory : TIMemory) : Word → List Instr → Prop where
  | last {a i} :
    Holds memory a i →
    (i.Ends ∨ ¬ Fits memory (a + 4)) →
    Decodes memory a [i]
  | cons {a i is} :
    Holds memory a i →
    ¬ i.Ends →
    Fits memory (a + 4) →
    Decodes memory (a + 4) is →
    Decodes memory a (i :: is)

/-- The first word of a block. -/
@[simp] lemma wordAt_zero (a) : wordAt a 0 = a := by simp [wordAt]

/-- The words behind the first one. -/
lemma wordAt_succ (a k) : wordAt a (k + 1) = wordAt (a + 4) k := by
  unfold wordAt
  rw [Nat.succ_mul, BitVec.add_assoc, Nat.add_comm, BitVec.ofNat_add]
  rfl

/-- The word behind a word. -/
lemma wordAt_add_four (a k) : wordAt a k + 4 = wordAt a (k + 1) := by
  unfold wordAt
  rw [Nat.succ_mul, BitVec.ofNat_add, ← BitVec.add_assoc]
  rfl

/-- Word addresses in natural numbers. -/
lemma toNat_wordAt {a : Word} {k} (h : a.toNat + k * 4 < 2 ^ 32) :
    (wordAt a k).toNat = a.toNat + k * 4 := by
  unfold wordAt
  rw [BitVec.toNat_add, BitVec.toNat_ofNat]
  omega

/-- The word at `a` can be read. -/
lemma Holds.inBounds {memory a i} (h : Holds memory a i) :
    memory.InBounds a TI32.wordSize ∧ a.toNat % TI32.wordSize = 0 := by
  obtain ⟨w, hw, _⟩ := h
  exact (memory.read32_isOk_iff a).mp ⟨w, hw⟩

/-- The instruction that a word in memory decodes to. -/
lemma Holds.eq_of_read {m : TIMemory} {a w} {i j : Instr} (h : Holds m a i)
    (read : (m.read32 a).toOption = some w) (decoded : TIDecoder.decode w = j.toTI) : i = j := by
  obtain ⟨w', read', decoded'⟩ := h
  rw [read'] at read
  obtain rfl : w' = w := Option.some.inj read
  exact Instr.toTI_injective (decoded'.symm.trans decoded)

/-- The word after one that holds an instruction does not wrap around. -/
lemma Holds.toNat_next {memory a i} (h : Holds memory a i) (small : memory.size < 2 ^ 32) :
    (a + 4).toNat = a.toNat + 4 := by
  have hb := h.inBounds.1.1
  unfold TI32.wordSize at hb
  rw [BitVec.toNat_add]
  have : (4 : Word).toNat = 4 := rfl
  omega

/-- Every word that can be read holds an instruction. -/
lemma holds_of_read32 {memory : TIMemory} {a w} (h : memory.read32 a = .ok w) :
    ∃ i, Holds memory a i ∧ TIDecoder.decode w = i.toTI := by
  obtain ⟨i, hi⟩ := decode_eq_toTI w
  exact ⟨i, ⟨w, h, hi⟩, hi⟩

/-- Every aligned word that fits holds an instruction. -/
lemma holds_of_fits {memory : TIMemory} {a} (ha : a.toNat % 4 = 0) (fits : Fits memory a) :
    ∃ i, Holds memory a i := by
  have hb : memory.InBounds a TI32.wordSize := by
    have := a.isLt
    unfold TIMemory.InBounds TI32.wordSize
    unfold Fits at fits
    omega
  obtain ⟨w, hw⟩ := (memory.read32_isOk_iff a).mpr ⟨hb, ha⟩
  obtain ⟨i, hi, _⟩ := holds_of_read32 hw
  exact ⟨i, hi⟩

/-- The next word address is aligned too. -/
lemma aligned_add_four {a : Word} (h : a.toNat % 4 = 0) : (a + 4).toNat % 4 = 0 := by
  rw [BitVec.toNat_add]
  have : (4 : Word).toNat = 4 := rfl
  omega

/-- One turn of the loop. -/
lemma decodeLoop_succ {memory : TIMemory} {a i} (h : Holds memory a i) (fuel) :
    decodeLoop memory (fuel + 1) a =
      if i.Ends ∨ ¬ Fits memory (a + 4) then some (.ok [i.toTI])
      else (decodeLoop memory fuel (a + 4)).map (·.map (i.toTI :: ·)) := by
  obtain ⟨w, hw, hi⟩ := h
  rw [decodeLoop]
  simp only [hw, hi, Instr.toTI_opCode]
  by_cases he : i.Ends
  · have he' : endsBlock i.opCode = true := he
    simp only [he', if_true, he, true_or]
  · have he' : endsBlock i.opCode = false := by simpa [Instr.Ends] using he
    by_cases hf : Fits memory (a + 4)
    · have : ¬ memory.size < (a + TI32.instructionSize).toNat + 4 := Nat.not_lt.mpr hf
      simp only [he', he, hf, gt_iff_lt, this]
      rfl
    · have : memory.size < (a + TI32.instructionSize).toNat + 4 := Nat.not_le.mp hf
      simp only [he', he, hf, gt_iff_lt, this]
      rfl

/-- The loop computes the block that starts at the address. -/
theorem decodeLoop_ok_iff {memory : TIMemory} {fuel a l} :
    decodeLoop memory fuel a = some (.ok l) ↔
      ∃ is, Decodes memory a is ∧ is.length ≤ fuel ∧ l = is.map Instr.toTI := by
  constructor
  · intro h
    induction fuel generalizing a l with
    | zero => cases h
    | succ fuel ih =>
      cases r : memory.read32 a with
      | error e => rw [decodeLoop, r] at h; cases h
      | ok w =>
        obtain ⟨i, hi, _⟩ := holds_of_read32 r
        rw [decodeLoop_succ hi] at h
        split at h
        case isTrue stop =>
          cases h
          exact ⟨[i], .last hi stop, by simp, rfl⟩
        case isFalse go =>
          simp only [not_or, not_not] at go
          cases r' : decodeLoop memory fuel (a + 4) with
          | none => rw [r'] at h; cases h
          | some res =>
            cases res with
            | error e => rw [r'] at h; cases h
            | ok l' =>
              rw [r'] at h
              cases h
              obtain ⟨is, his, hlen, rfl⟩ := ih r'
              exact ⟨i :: is, .cons hi go.1 go.2 his, by simpa using hlen, rfl⟩
  · rintro ⟨is, his, hlen, rfl⟩
    -- on the block: one turn of the loop for each of its words
    induction his generalizing fuel with
    | @last a i hi stop =>
      obtain ⟨fuel, rfl⟩ := Nat.exists_eq_add_of_le' (Nat.pos_of_ne_zero (by simp at hlen; omega) :
        1 ≤ fuel)
      rw [decodeLoop_succ hi, if_pos stop]
      rfl
    | @cons a i is hi ne fits _ ih =>
      simp only [List.length_cons] at hlen
      obtain ⟨fuel, rfl⟩ := Nat.exists_eq_add_of_le' (by omega : 1 ≤ fuel)
      rw [decodeLoop_succ hi, if_neg (not_or.mpr ⟨ne, not_not.mpr fits⟩), ih (by omega)]
      rfl

/-- The loop fails at its first word or not at all. -/
lemma decodeLoop_error {memory : TIMemory} {fuel a e}
    (h : decodeLoop memory fuel a = some (.error e)) : memory.read32 a = .error e := by
  induction fuel generalizing a with
  | zero => cases h
  | succ fuel ih =>
    cases r : memory.read32 a with
    | error e' => rw [decodeLoop, r] at h; cases h; rfl
    | ok w =>
      obtain ⟨i, hi, _⟩ := holds_of_read32 r
      rw [decodeLoop_succ hi] at h
      split at h
      case isTrue => cases h
      case isFalse go =>
        simp only [not_or, not_not] at go
        -- the next word fits, so reading it does not fail
        obtain ⟨j, w', hw', _⟩ := holds_of_fits (aligned_add_four hi.inBounds.2) go.2
        have err : decodeLoop memory fuel (a + 4) = some (.error e) := by
          cases r' : decodeLoop memory fuel (a + 4) with
          | none => rw [r'] at h; cases h
          | some res =>
            cases res with
            | error e' => rw [r'] at h; cases h; rfl
            | ok l' => rw [r'] at h; cases h
        rw [ih err] at hw'
        cases hw'

/-- A failing first word makes the loop fail. -/
lemma decodeLoop_of_error {memory : TIMemory} {a e} (h : memory.read32 a = .error e) (fuel) :
    decodeLoop memory (fuel + 1) a = some (.error e) := by
  rw [decodeLoop, h]

/-- The loop goes on after the word at `a`. -/
def GoesOn (memory : TIMemory) (a : Word) : Prop :=
  ∃ i, Holds memory a i ∧ ¬ i.Ends ∧ Fits memory (a + 4)

/-- The loop has not ended exactly if it goes on after every word so far. -/
lemma decodeLoop_none_iff {memory : TIMemory} {fuel a} :
    decodeLoop memory fuel a = none ↔ ∀ k < fuel, GoesOn memory (wordAt a k) := by
  induction fuel generalizing a with
  | zero => simp [decodeLoop]
  | succ fuel ih =>
    cases r : memory.read32 a with
    | error e =>
      rw [decodeLoop_of_error r]
      simp only [reduceCtorEq, false_iff, not_forall]
      refine ⟨0, Nat.succ_pos _, ?_⟩
      rintro ⟨i, ⟨w, hw, _⟩, _⟩
      rw [wordAt_zero, r] at hw
      cases hw
    | ok w =>
      obtain ⟨i, hi, _⟩ := holds_of_read32 r
      rw [decodeLoop_succ hi]
      split
      case isTrue stop =>
        simp only [reduceCtorEq, false_iff, not_forall]
        refine ⟨0, Nat.succ_pos _, ?_⟩
        rintro ⟨j, hj, ne, fits⟩
        rw [wordAt_zero] at hj fits
        -- the word cannot hold two instructions
        obtain ⟨w1, r1, d1⟩ := hi
        obtain ⟨w2, r2, d2⟩ := hj
        obtain rfl : w1 = w2 := by simpa using r1.symm.trans r2
        have ho : i.opCode = j.opCode := congrArg TIInstruction.opCode (d1.symm.trans d2)
        obtain stop | stop := stop
        · exact ne (by unfold Instr.Ends at *; rwa [← ho])
        · exact stop fits
      case isFalse go =>
        simp only [not_or, not_not] at go
        simp only [Option.map_eq_none_iff, ih]
        constructor
        · intro h k hk
          cases k with
          | zero => rw [wordAt_zero]; exact ⟨i, hi, go⟩
          | succ k => rw [wordAt_succ]; exact h k (by omega)
        · intro h k hk
          rw [← wordAt_succ]
          exact h (k + 1) (by omega)

/-- A loop that has not ended after all words of the address space never ends. -/
theorem decodeLoop_fuel {memory : TIMemory} {a}
    (h : decodeLoop memory addressSpaceWords a = none) (fuel) :
    decodeLoop memory fuel a = none := by
  rw [decodeLoop_none_iff] at h ⊢
  intro k _
  -- the addresses repeat, so the loop has seen every word it can come to
  have e : wordAt a k = wordAt a (k % addressSpaceWords) := by
    unfold wordAt addressSpaceWords
    congr 1
    apply BitVec.eq_of_toNat_eq
    rw [BitVec.toNat_ofNat, BitVec.toNat_ofNat]
    omega
  rw [e]
  exact h _ (Nat.mod_lt _ (by simp [addressSpaceWords]))

namespace Decodes

variable {memory : TIMemory} {a : Word} {is : List Instr}

/-- A decoded block is straight. -/
lemma straight (h : Decodes memory a is) : Straight is := by
  induction h with
  | last => exact .last _
  | cons _ ne _ _ ih => exact .cons ne ih

/-- Every instruction of a decoded block is in memory. -/
lemma holds (h : Decodes memory a is) {k i} (hk : is[k]? = some i) :
    Holds memory (wordAt a k) i := by
  induction h generalizing k with
  | last hi =>
    cases k with
    | zero => simp at hk; subst hk; rw [wordAt_zero]; exact hi
    | succ k => simp at hk
  | cons hi _ _ _ ih =>
    cases k with
    | zero => simp at hk; subst hk; rw [wordAt_zero]; exact hi
    | succ k => rw [wordAt_succ]; exact ih (by simpa using hk)

/-- A memory with the same size and the same instructions gives the same block. -/
lemma congr {memory' : TIMemory} (h : Decodes memory a is) (size : memory'.size = memory.size)
    (hs : ∀ k i, is[k]? = some i → Holds memory' (wordAt a k) i) : Decodes memory' a is := by
  induction h with
  | @last a i hi stop =>
    have h0 := hs 0 i rfl
    rw [wordAt_zero] at h0
    refine .last h0 ?_
    unfold Fits
    rw [size]
    exact stop
  | @cons a i is hi ne fits _ ih =>
    have h0 := hs 0 i rfl
    rw [wordAt_zero] at h0
    refine .cons h0 ne ?_ (ih fun k j hk => ?_)
    · unfold Fits
      rw [size]
      exact fits
    · rw [← wordAt_succ]
      exact hs (k + 1) j (by simpa using hk)

/-- In a memory smaller than the address space a block does not wrap around. -/
lemma fits_of_small (h : Decodes memory a is) (small : memory.size < 2 ^ 32) :
    a.toNat + is.length * 4 ≤ memory.size := by
  induction h with
  | @last a i hi _ =>
    have := hi.inBounds.1.1
    unfold TI32.wordSize at this
    simpa using this
  | @cons a i is hi ne fits _ ih =>
    rw [hi.toNat_next small] at ih
    simp only [List.length_cons]
    omega

end Decodes

/-- In a memory smaller than the address space the loop ends. -/
theorem decodeLoop_isSome {memory : TIMemory} (small : memory.size < 2 ^ 32) (a) :
    decodeLoop memory addressSpaceWords a ≠ none := by
  intro h
  rw [decodeLoop_none_iff] at h
  obtain ⟨i, hi, _⟩ := h 0 (by simp [addressSpaceWords])
  rw [wordAt_zero] at hi
  -- the loop would go on after the last word of memory
  have hb := hi.inBounds
  unfold TIMemory.InBounds TI32.wordSize at hb
  have hk : (memory.size - a.toNat) / 4 < addressSpaceWords := by
    unfold addressSpaceWords
    omega
  obtain ⟨j, _, _, fits⟩ := h ((memory.size - a.toNat) / 4 - 1) (by omega)
  have e : wordAt a ((memory.size - a.toNat) / 4 - 1) + 4 =
      wordAt a ((memory.size - a.toNat) / 4) := by
    rw [wordAt_add_four]
    congr 1
    omega
  rw [e] at fits
  unfold Fits at fits
  rw [toNat_wordAt (by omega)] at fits
  omega

end ToyIsa
