import Mathlib.Logic.Basic

/-!
# Fields of a word

`place f o` is the field `f` at bit `o` of a word. A field is read back where it was placed, does
not show in a disjoint field, and does not disturb the bits a mask fixes elsewhere.
-/

namespace BitVec

variable {w k k' : Nat} {f : BitVec k} {o o' : Nat}

/-- The field `f` at bit `o` of a word of zeros. -/
def place (w : Nat) (f : BitVec k) (o : Nat) : BitVec w := f.setWidth w <<< o

/-- A bit of a field that was put in its place. -/
lemma getLsbD_place (i) :
    (place w f o).getLsbD i = (decide (i < w) && decide (o ≤ i) && f.getLsbD (i - o)) := by
  unfold place
  have behind : (!decide (i < o)) = decide (o ≤ i) := by
    rw [← decide_not]
    exact decide_eq_decide.mpr Nat.not_lt
  rw [getLsbD_shiftLeft, getLsbD_setWidth, behind]
  by_cases hi : i < w
  · have : i - o < w := by omega
    simp [hi, this]
  · simp [hi]

/-- A field is read back where it was placed. -/
lemma extractLsb'_place (h : o + k ≤ w) : (place w f o).extractLsb' o k = f := by
  apply eq_of_getLsbD_eq
  intro i hi
  have inside : o + i < w := by omega
  rw [getLsbD_extractLsb', getLsbD_place, Nat.add_sub_cancel_left]
  simp [hi, inside]

/-- A field does not show in a disjoint one. -/
lemma extractLsb'_place_disjoint (h : o + k ≤ o' ∨ o' + k' ≤ o) :
    (place w f o).extractLsb' o' k' = 0#(k') := by
  apply eq_of_getLsbD_eq
  intro i hi
  rw [getLsbD_extractLsb', getLsbD_place, getLsbD_zero]
  by_cases before : o ≤ o' + i
  · rw [getLsbD_of_ge f _ (by omega), Bool.and_false, Bool.and_false]
  · simp [before]

/-- A field does not meet a mask that leaves its bits free. -/
lemma place_and {mask : BitVec w} (free : ∀ i < k, mask.getLsbD (o + i) = false) :
    place w f o &&& mask = 0#w := by
  apply eq_of_getLsbD_eq
  intro i _
  rw [getLsbD_and, getLsbD_place, getLsbD_zero]
  by_cases before : o ≤ i
  · by_cases inside : i - o < k
    · have bit := free (i - o) inside
      rw [Nat.add_sub_cancel' before] at bit
      rw [bit, Bool.and_false]
    · rw [getLsbD_of_ge f _ (by omega), Bool.and_false, Bool.false_and]
  · simp [before]

/-- A field in a number. -/
lemma toNat_place (h : o + k ≤ w) : (place w f o).toNat = f.toNat <<< o := by
  have fits : f.toNat * 2 ^ o < 2 ^ w := by
    calc f.toNat * 2 ^ o < 2 ^ k * 2 ^ o := Nat.mul_lt_mul_of_pos_right f.isLt (Nat.two_pow_pos o)
      _ = 2 ^ (o + k) := by rw [Nat.add_comm, Nat.pow_add]
      _ ≤ 2 ^ w := Nat.pow_le_pow_right (by omega) h
  have wide : k ≤ w := by omega
  unfold place
  rw [toNat_shiftLeft, toNat_setWidth_of_le wide, Nat.shiftLeft_eq, Nat.mod_eq_of_lt fits]

end BitVec
