import Mathlib.Tactic.Ring
import ToyIsa.Isa.Exec

/-!
# The arithmetic of single instructions

The interpreting engines compute `CLZ`, `SSAT` and `RORI` with loops and shifts, compiled code with
operations of the IR library. Both are the operation of `BitVec` or, for `SSAT`, the clamp of the
signed value.
-/

namespace ToyIsa

open ExecutorDetail

/-- A mask with one bit is not 0. -/
lemma twoPow_ne_zero {n} (h : n < 32) : BitVec.twoPow 32 n ≠ 0 := by
  intro e
  have := congrArg (BitVec.getLsbD · n) e
  simp [h] at this

/-- A mask with one bit tests that bit. -/
lemma and_twoPow_eq_zero_iff (value : Word) {n} (h : n < 32) :
    value &&& BitVec.twoPow 32 n = 0 ↔ value.getLsbD n = false := by
  rw [BitVec.and_twoPow]
  cases value.getLsbD n with
  | true => simpa using twoPow_ne_zero h
  | false => exact ⟨fun _ => rfl, fun _ => rfl⟩

/-- One turn of the loop of `countLeadingZeros`. -/
lemma countLoop_succ (value count : Word) {n} (h : n < 32) (fuel) :
    countLoop value (fuel + 1) (BitVec.twoPow 32 n) count =
      if value.getLsbD n then count
      else countLoop value fuel (BitVec.twoPow 32 n >>> 1) (count + 1) := by
  conv_lhs => unfold countLoop
  simp only [ne_eq, twoPow_ne_zero h, not_false_eq_true, true_and, and_twoPow_eq_zero_iff value h]
  cases value.getLsbD n <;> rfl

/-- The loop of `countLeadingZeros` from bit `n` down. -/
lemma countLoop_eq (value : Word) {n} (h : n < 32) :
    countLoop value (n + 1) (BitVec.twoPow 32 n) (BitVec.ofNat 32 (31 - n)) =
      value.clzAuxRec n := by
  induction n with
  | zero =>
    rw [countLoop_succ value _ h, BitVec.clzAuxRec_zero]
    rfl
  | succ n ih =>
    have hs : BitVec.twoPow 32 (n + 1) >>> 1 = BitVec.twoPow 32 n := by
      apply BitVec.eq_of_getLsbD_eq
      intro i hi
      rw [BitVec.getLsbD_ushiftRight, BitVec.getLsbD_twoPow, BitVec.getLsbD_twoPow]
      simp only [h, decide_true, Bool.true_and, (by omega : n < 32)]
      congr 1
      exact propext ⟨fun e => by omega, fun e => by omega⟩
    have hc : BitVec.ofNat 32 (31 - (n + 1)) + 1 = BitVec.ofNat 32 (31 - n) := by
      rw [show 31 - n = 31 - (n + 1) + 1 by omega, BitVec.ofNat_add]
      rfl
    rw [countLoop_succ value _ h, hs, hc, ih (by omega), BitVec.clzAuxRec_succ]

/-- `countLeadingZeros` counts leading zeros. -/
theorem countLeadingZeros_eq (value : Word) : countLeadingZeros value = value.clz :=
  countLoop_eq value (by omega : 31 < 32)

/-- The count of 0 is the count of 1 plus 1, which is how compiled code avoids `CTLZ` of 0. -/
lemma clz_safe (value : Word) :
    (value ||| if value = 0 then 1 else 0).clz + (if value = 0 then 1 else 0) = value.clz := by
  by_cases h : value = 0
  · subst h
    decide
  · rw [if_neg h]
    simp

/-- The argument of `CTLZ` in compiled code is not 0. -/
lemma clz_safe_ne_zero (value : Word) : (value ||| if value = 0 then 1 else 0) ≠ 0 := by
  by_cases h : value = 0
  · subst h
    decide
  · rw [if_neg h]
    simpa using h

/-- `rotateRight` rotates. -/
theorem rotateRight_eq (value : Word) (shift : BitVec 5) :
    rotateRight value (shift.setWidth 32) = .ok (value.rotateRight shift.toNat) := by
  have hs := shift.isLt
  have e : (shift.setWidth 32).toNat = shift.toNat := by simp; omega
  unfold rotateRight TI32.wordBitCount
  rw [e, BitVec.rotateRight, BitVec.rotateRightAux, Nat.mod_eq_of_lt hs]
  split
  case isTrue h0 =>
    have : shift.toNat = 0 := by rw [← e, h0]; rfl
    rw [this]
    simp
  case isFalse => rfl

/-- The signed value clamped to the numbers of `width` bits. -/
def clampSigned (value : Word) (width : Nat) : Word :=
  BitVec.ofInt 32 (max (-2 ^ (width - 1)) (min value.toInt (2 ^ (width - 1) - 1)))

/-- The largest number of `width` bits. -/
lemma toNat_makeMask {width : Nat} (h : width < 32) :
    (makeMask width (Nat.le_of_lt h)).toNat = 2 ^ width - 1 := by
  have hp : (2 : Nat) ^ width < 2 ^ 32 := Nat.pow_lt_pow_right (by omega) h
  have h0 : 0 < 2 ^ width := Nat.two_pow_pos width
  have h1 : (1 : Word).toNat = 1 := rfl
  unfold makeMask TI32.wordBitCount
  rw [if_neg (by omega)]
  simp only [BitVec.toNat_sub, BitVec.toNat_shiftLeft, Nat.shiftLeft_eq, h1]
  omega

/-- The clamped value as a natural number, with `p` the size of the half range. -/
lemma toNat_clampSigned (value : Word) {width p : Nat} (hp : p = 2 ^ (width - 1))
    (hb : p ≤ 2 ^ 30) :
    (clampSigned value width).toNat =
      if value.toNat < 2 ^ 31 then min value.toNat (p - 1)
      else max value.toNat (2 ^ 32 - p) := by
  have hv := value.isLt
  have h0 : 0 < p := hp ▸ Nat.two_pow_pos (width - 1)
  have hc : ((2 : Int) ^ (width - 1)) = (p : Int) := by rw [hp]; push_cast; rfl
  unfold clampSigned
  rw [hc, BitVec.toNat_ofInt, BitVec.toInt_eq_toNat_cond]
  split <;> split <;> omega

/-- The half range of a saturation width. -/
lemma halfRange_le {width : Nat} (h : width < 32) : 2 ^ (width - 1) ≤ 2 ^ 30 :=
  Nat.pow_le_pow_right (by omega) (by omega)

/-- `saturateSigned` clamps. -/
theorem saturateSigned_eq (value : Word) {width : BitVec 5} (h : width ≠ 0) :
    saturateSigned value (width.setWidth 32) = .ok (clampSigned value width.toNat) := by
  have hw := width.isLt
  have e : (width.setWidth 32).toNat = width.toNat := by simp; omega
  have h0 : width.toNat ≠ 0 := fun h' => h (BitVec.eq_of_toNat_eq h')
  have hd : ¬ (width.setWidth 32 = 0 ∨ (width.setWidth 32).toNat ≥ TI32.wordBitCount) := by
    unfold TI32.wordBitCount
    rintro (h' | h')
    · exact h0 (by rw [← e, h']; rfl)
    · omega
  have hsign : value &&& (1 : Word) <<< (TI32.wordBitCount - 1) = 0 ↔ value.toNat < 2 ^ 31 := by
    have hm := BitVec.msb_eq_decide value
    rw [BitVec.msb_eq_getLsbD_last] at hm
    have e31 : (1 : Word) <<< (TI32.wordBitCount - 1) = BitVec.twoPow 32 31 := rfl
    rw [e31, and_twoPow_eq_zero_iff value (by omega), hm, decide_eq_false_iff_not, Nat.not_le]
  have hmax : (makeMask (width.toNat - 1) (by unfold TI32.wordBitCount; omega)).toNat =
      2 ^ (width.toNat - 1) - 1 := toNat_makeMask (by omega)
  have hb := halfRange_le hw
  have hp := Nat.two_pow_pos (width.toNat - 1)
  have hc := toNat_clampSigned value (rfl : 2 ^ (width.toNat - 1) = 2 ^ (width.toNat - 1)) hb
  unfold saturateSigned
  rw [dif_neg hd]
  simp only [e, hsign]
  generalize makeMask (width.toNat - 1) _ = maximum at *
  split
  case isTrue hv =>
    rw [if_pos hv] at hc
    congr 1
    apply BitVec.eq_of_toNat_eq
    rw [hc, apply_ite BitVec.toNat, hmax]
    simp only [gt_iff_lt, BitVec.lt_def, hmax]
    split <;> omega
  case isFalse hv =>
    rw [if_neg hv] at hc
    congr 1
    apply BitVec.eq_of_toNat_eq
    rw [hc, apply_ite BitVec.toNat]
    simp only [BitVec.lt_def, BitVec.toNat_not, hmax]
    split <;> omega

/-- The upper bound that compiled code uses. -/
lemma toNat_ssatMaximum {width : Nat} (h : width < 32) :
    ((1 : Word) <<< (width - 1) - 1).toNat = 2 ^ (width - 1) - 1 := by
  have hp := Nat.two_pow_pos (width - 1)
  have hb := halfRange_le h
  have h1 : (1 : Word).toNat = 1 := rfl
  simp only [BitVec.toNat_sub, BitVec.toNat_shiftLeft, Nat.shiftLeft_eq, h1]
  omega

/-- The signed `MAX` and `MIN` of compiled code clamp. -/
theorem minMax_eq (value : Word) {width : Nat} (h : width < 32) :
    let maximum := (1 : Word) <<< (width - 1) - 1
    let minimum := -maximum - 1
    let lowerBound := if value.slt minimum then minimum else value
    (if maximum.slt lowerBound then maximum else lowerBound) = clampSigned value width := by
  intro maximum minimum lowerBound
  have hp := Nat.two_pow_pos (width - 1)
  have hb := halfRange_le h
  have hv := value.isLt
  have hmax : maximum.toNat = 2 ^ (width - 1) - 1 := toNat_ssatMaximum h
  have hmin : minimum.toNat = 2 ^ 32 - 2 ^ (width - 1) := by
    have h1 : (1 : Word).toNat = 1 := rfl
    simp only [minimum, BitVec.toNat_sub, BitVec.toNat_neg, hmax, h1]
    omega
  have hc := toNat_clampSigned value (rfl : 2 ^ (width - 1) = 2 ^ (width - 1)) hb
  -- linear arithmetic in the half range `p`
  generalize 2 ^ (width - 1) = p at hp hb hmax hmin hc
  have imax : maximum.toInt = p - 1 := by
    rw [BitVec.toInt_eq_toNat_of_lt (by omega), hmax]
    omega
  have imin : minimum.toInt = -p := by
    rw [BitVec.toInt_eq_toNat_cond, if_neg (by omega), hmin]
    omega
  have ival := BitVec.toInt_eq_toNat_cond value
  apply BitVec.eq_of_toNat_eq
  simp only [lowerBound, BitVec.slt_eq_decide, decide_eq_true_eq]
  by_cases low : value.toInt < minimum.toInt
  · rw [if_pos low, if_neg (by omega), hmin, hc]
    split at ival <;> split <;> omega
  · rw [if_neg low]
    by_cases high : maximum.toInt < value.toInt
    · rw [if_pos high, hmax, hc]
      split at ival <;> split <;> omega
    · rw [if_neg high, hc]
      split at ival <;> split <;> omega

end ToyIsa
