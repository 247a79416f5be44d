import ToyIsa.Toy.ExecutionState

/-!
# Bit utilities

Port of `bitutils.hpp`. The assertions of the source are proof arguments, so a call outside the
asserted range cannot be written. `extractBits_eq` and `signExtend_eq` identify the two extraction
functions with the operations of `BitVec`.
-/

namespace ToyIsa

def makeMask (width : Nat) (_h : width ≤ TI32.wordBitCount := by decide) : Word :=
  if width = TI32.wordBitCount then ~~~0
  else ((1 : Word) <<< width) - 1

def extractBits (word : Word) (offset width : Nat)
    (h : offset ≤ TI32.wordBitCount ∧ width ≤ TI32.wordBitCount - offset := by decide) : Word :=
  if offset = TI32.wordBitCount then 0
  else (word >>> offset) &&& makeMask width (Nat.le_trans h.2 (Nat.sub_le _ _))

def signExtend (value : Word) (width : Nat)
    (h : width ≠ 0 ∧ width ≤ TI32.wordBitCount := by decide) : Word :=
  let mask := makeMask width h.2
  let value := value &&& mask
  if width = TI32.wordBitCount then value
  else
    let signBit := (1 : Word) <<< (width - 1)
    if value &&& signBit ≠ 0 then value ||| ~~~mask else value

def decodeLittleEndianWord : List Byte → Except Failure Word
  | [b0, b1, b2, b3] => .ok (b3 ++ b2 ++ b1 ++ b0)
  | _ => .error .undefined

def encodeLittleEndianWord (value : Word) : List Byte :=
  [value.extractLsb' 0 8, value.extractLsb' 8 8, value.extractLsb' 16 8, value.extractLsb' 24 8]

/-- A word has four bytes. -/
@[simp] lemma length_encodeLittleEndianWord (value : Word) :
    (encodeLittleEndianWord value).length = TI32.wordSize := rfl

/-- Four bytes are one word. -/
lemma decodeLittleEndianWord_of_length {bs : List Byte} (h : bs.length = TI32.wordSize) :
    ∃ w, decodeLittleEndianWord bs = .ok w := by
  match bs, h with
  | [b0, b1, b2, b3], _ => exact ⟨_, rfl⟩

/-- A word survives the trip through its bytes. -/
lemma decode_encodeLittleEndianWord (value : Word) :
    decodeLittleEndianWord (encodeLittleEndianWord value) = .ok value := by
  simp only [encodeLittleEndianWord, decodeLittleEndianWord]
  congr 1
  ext i hi
  simp only [BitVec.getElem_append, BitVec.getElem_extractLsb']
  split_ifs <;> (rw [BitVec.getLsbD_eq_getElem (by omega)]; congr 1; omega)

/-- The bits of a mask. -/
lemma getLsbD_makeMask {width : Nat} (h : width ≤ TI32.wordBitCount) (i : Nat) :
    (makeMask width h).getLsbD i = decide (i < width) := by
  unfold makeMask
  split
  case isTrue e =>
    rw [e]
    exact BitVec.getLsbD_allOnes
  case isFalse e =>
    have hw : width < 32 := by unfold TI32.wordBitCount at *; omega
    have hp : (2 : Nat) ^ width < 2 ^ 32 := Nat.pow_lt_pow_right (by omega) hw
    have h1 : (1 : Word).toNat = 1 := rfl
    have hm : ((1 : Word) <<< width - 1).toNat = 2 ^ width - 1 := by
      have : 0 < 2 ^ width := Nat.two_pow_pos width
      simp only [BitVec.toNat_sub, BitVec.toNat_shiftLeft, Nat.shiftLeft_eq, h1]
      omega
    rw [BitVec.getLsbD, hm, Nat.testBit_two_pow_sub_one]

/-- `extractBits` takes a field of the word. -/
lemma extractBits_eq (word : Word) (offset width : Nat)
    (h : offset ≤ TI32.wordBitCount ∧ width ≤ TI32.wordBitCount - offset) :
    extractBits word offset width h = (word.extractLsb' offset width).setWidth 32 := by
  have hb := h
  unfold TI32.wordBitCount at hb
  apply BitVec.eq_of_getLsbD_eq
  intro i hi
  unfold extractBits
  split
  case isTrue e =>
    unfold TI32.wordBitCount at e
    simp
    omega
  case isFalse e =>
    rw [BitVec.getLsbD_and, getLsbD_makeMask, BitVec.getLsbD_ushiftRight, BitVec.getLsbD_setWidth,
      BitVec.getLsbD_extractLsb', decide_eq_true hi, Bool.true_and, Bool.and_comm]

/-- `signExtend` sign-extends a field. -/
lemma signExtend_eq {width : Nat} (value : BitVec width)
    (h : width ≠ 0 ∧ width ≤ TI32.wordBitCount) :
    signExtend (value.setWidth 32) width h = value.signExtend 32 := by
  have hb := h
  unfold TI32.wordBitCount at hb
  have hv : value.setWidth 32 &&& makeMask width h.2 = value.setWidth 32 := by
    apply BitVec.eq_of_getLsbD_eq
    intro i hi
    rw [BitVec.getLsbD_and, getLsbD_makeMask, BitVec.getLsbD_setWidth]
    by_cases hw : i < width
    · simp [hw]
    · simp [hw, BitVec.getLsbD_of_ge value i (by omega)]
  have hs : ∀ x : Word, x &&& (1 : Word) <<< (width - 1) ≠ 0 ↔ x.getLsbD (width - 1) = true := by
    intro x
    have e : (1 : Word) <<< (width - 1) = BitVec.twoPow 32 (width - 1) := rfl
    have hz : BitVec.twoPow 32 (width - 1) ≠ 0 := by
      intro hz
      have := congrArg (BitVec.getLsbD · (width - 1)) hz
      simp [BitVec.getLsbD_twoPow] at this
      omega
    rw [e, BitVec.and_twoPow]
    split <;> simp_all
  have hm : (value.setWidth 32).getLsbD (width - 1) = value.msb := by
    rw [BitVec.getLsbD_setWidth, BitVec.msb_eq_getLsbD_last]
    simp
    omega
  apply BitVec.eq_of_getLsbD_eq
  intro i hi
  rw [BitVec.getLsbD_signExtend]
  unfold signExtend
  simp only [hv]
  split
  case isTrue e =>
    unfold TI32.wordBitCount at e
    rw [BitVec.getLsbD_setWidth, if_pos (by omega)]
  case isFalse e =>
    split
    case isTrue hn =>
      rw [hs, hm] at hn
      rw [BitVec.getLsbD_or, BitVec.getLsbD_not, getLsbD_makeMask, BitVec.getLsbD_setWidth, hn]
      by_cases hw : i < width
      · simp [hw]
      · simp [hw, hi]
    case isFalse hn =>
      rw [hs, hm, Bool.not_eq_true] at hn
      rw [BitVec.getLsbD_setWidth, hn]
      by_cases hw : i < width
      · simp [hw]
      · simp [hw, BitVec.getLsbD_of_ge value i (by omega)]

end ToyIsa
