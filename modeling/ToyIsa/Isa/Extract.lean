import Mathlib.Data.List.Sort
import ToyIsa.Isa.Arith

/-!
# Bit extraction

The loop of `compressBits` moves two bit positions at different rates: one over the bits of the
mask, one over the bits of the result. After `n` turns the result holds the bits of the value at the
positions below `n` that the mask selects (`compressStep_extracts`).
-/

namespace ToyIsa

open ExecutorDetail

/-- The positions below `n` of the bits of a mask that are set, from the lowest up. -/
def setBitsBelow (mask : Word) (n : Nat) : List Nat := (List.range n).filter mask.getLsbD

/-- The positions of the bits of a mask that are set, from the lowest up. -/
def setBits (mask : Word) : List Nat := setBitsBelow mask TI32.wordBitCount

/-- The bits of the value at the positions, and zeros after them. -/
def Extracts (value : Word) (positions : List Nat) (result : Word) : Prop :=
  ∀ k, result.getLsbD k = positions[k]?.any value.getLsbD

/-- The set bits below the next bound. -/
lemma setBitsBelow_succ (mask : Word) (n) : setBitsBelow mask (n + 1) =
    setBitsBelow mask n ++ if mask.getLsbD n then [n] else [] := by
  unfold setBitsBelow
  rw [List.range_succ, List.filter_append, List.filter_cons, List.filter_nil]

/-- There are no more set bits than bits. -/
lemma length_setBitsBelow_le (mask : Word) (n) : (setBitsBelow mask n).length ≤ n := by
  have h := List.length_filter_le mask.getLsbD (List.range n)
  rwa [List.length_range] at h

/-- The set bits of a mask. -/
lemma mem_setBits (mask : Word) (i) : i ∈ setBits mask ↔ mask.getLsbD i = true := by
  unfold setBits setBitsBelow TI32.wordBitCount
  rw [List.mem_filter, List.mem_range]
  exact ⟨fun h => h.2, fun h => ⟨BitVec.lt_of_getLsbD h, h⟩⟩

/-- The set bits are in order. -/
lemma pairwise_setBits (mask : Word) : (setBits mask).Pairwise (· < ·) :=
  List.Pairwise.filter _ List.pairwise_lt_range

/-- The bit that a turn of the loop adds to the result. -/
lemma getLsbD_extractedBit (value : Word) (p : Nat) {k : Nat} (hk : k < 32) (i) :
    (((value >>> p) &&& 1) <<< k).getLsbD i = (decide (i = k) && value.getLsbD p) := by
  rw [BitVec.getLsbD_shiftLeft, BitVec.getLsbD_and, BitVec.getLsbD_ushiftRight]
  have one : (1 : Word).getLsbD (i - k) = decide (i - k = 0) := by
    simp [BitVec.getLsbD_one]
  rw [one]
  by_cases eq : i = k
  · subst eq
    simp [hk]
  · by_cases lt : i < k
    · simp [lt, eq]
    · have ne : ¬ i - k = 0 := by omega
      simp [ne, eq]

/-- A turn of the loop at a bit that the mask selects. -/
lemma Extracts.append {value result : Word} {positions} (h : Extracts value positions result) (p)
    (room : positions.length < 32) :
    Extracts value (positions ++ [p])
      (result ||| (((value >>> p) &&& 1) <<< positions.length)) := by
  intro k
  rw [BitVec.getLsbD_or, getLsbD_extractedBit value p room, h k]
  obtain lt | eq | gt := Nat.lt_trichotomy k positions.length
  · have ne : ¬ k = positions.length := Nat.ne_of_lt lt
    rw [List.getElem?_append_left lt]
    simp [ne]
  · subst eq
    simp
  · have ne : ¬ k = positions.length := Nat.ne_of_gt gt
    have out : (positions ++ [p])[k]? = none := by
      apply List.getElem?_eq_none
      rw [List.length_append, List.length_singleton]
      omega
    rw [List.getElem?_eq_none (Nat.le_of_lt gt), out]
    simp [ne]

/-- The loop of `compressBits` after `n` turns. -/
lemma compressStep_extracts (value mask : Word) {n} (h : n ≤ 32) :
    let state := (List.range n).foldl (compressStep value mask) (0, 0)
    Extracts value (setBitsBelow mask n) state.1 ∧ state.2 = (setBitsBelow mask n).length := by
  induction n with
  | zero => exact ⟨fun k => by simp [setBitsBelow], rfl⟩
  | succ n ih =>
    obtain ⟨bits, count⟩ := ih (Nat.le_of_succ_le h)
    have room : (setBitsBelow mask n).length < 32 :=
      Nat.lt_of_le_of_lt (length_setBitsBelow_le mask n) h
    have selected : mask &&& (1 : Word) <<< n ≠ 0 ↔ mask.getLsbD n = true := by
      have one : (1 : Word) <<< n = BitVec.twoPow 32 n := (BitVec.twoPow_eq 32 n).symm
      rw [one, ne_eq, and_twoPow_eq_zero_iff mask h, Bool.not_eq_false]
    rw [List.range_succ, List.foldl_append, List.foldl_cons, List.foldl_nil, setBitsBelow_succ]
    generalize (List.range n).foldl (compressStep value mask) (0, 0) = state at bits count
    obtain ⟨result, outputBit⟩ := state
    dsimp only at bits count
    subst count
    unfold compressStep
    by_cases set : mask.getLsbD n = true
    · rw [if_pos (selected.mpr set), if_pos set]
      exact ⟨bits.append n room, by rw [List.length_append, List.length_singleton]⟩
    · rw [if_neg (mt selected.mp set), if_neg set, List.append_nil]
      exact ⟨bits, rfl⟩

/-- `compressBits` extracts the bits that the mask selects. -/
lemma compressBits_extracts_setBits (value mask : Word) :
    Extracts value (setBits mask) (compressBits value mask) :=
  (compressStep_extracts value mask (Nat.le_refl 32)).1

/-- What is extracted is determined by the bits at the positions. -/
lemma Extracts.unique {value value' result result' : Word} {positions}
    (h : Extracts value positions result) (h' : Extracts value' positions result')
    (same : ∀ p ∈ positions, value.getLsbD p = value'.getLsbD p) : result = result' := by
  apply BitVec.eq_of_getLsbD_eq
  intro k _
  rw [h k, h' k]
  cases get : positions[k]? with
  | none => rfl
  | some p => exact same p (List.mem_of_getElem? get)

/-- As many bits are extracted as there are positions. -/
lemma Extracts.toNat_lt {value result : Word} {positions} (h : Extracts value positions result) :
    result.toNat < 2 ^ positions.length := by
  apply Nat.lt_pow_two_of_testBit
  intro i le
  rw [BitVec.testBit_toNat, h i, List.getElem?_eq_none le]
  rfl

/-- `compressBits` is bit extraction: bit `k` of the result is the bit of the value at position `k`
of the set bits of the mask, and the bits after these are zero. -/
theorem compressBits_extracts (value mask : Word) :
    (setBits mask).Pairwise (· < ·) ∧
    (∀ i, i ∈ setBits mask ↔ mask.getLsbD i = true) ∧
    (∀ k p, (setBits mask)[k]? = some p →
      (compressBits value mask).getLsbD k = value.getLsbD p) ∧
    (∀ k, (setBits mask).length ≤ k → (compressBits value mask).getLsbD k = false) ∧
    (∀ value', value' &&& mask = value &&& mask →
      compressBits value' mask = compressBits value mask) ∧
    (compressBits value mask).toNat < 2 ^ (setBits mask).length := by
  have bits := compressBits_extracts_setBits value mask
  refine ⟨pairwise_setBits mask, mem_setBits mask, fun k p get => ?_, fun k le => ?_,
    fun value' same => ?_, bits.toNat_lt⟩
  · rw [bits k, get, Option.any_some]
  · rw [bits k, List.getElem?_eq_none le, Option.any_none]
  · refine (compressBits_extracts_setBits value' mask).unique bits fun p mem => ?_
    have set := (mem_setBits mask p).mp mem
    have bit := congrArg (BitVec.getLsbD · p) same
    simpa [set] using bit

/-- The mask of the source's test. -/
example : compressBits 0x00D6 0x00AC = 9 := by decide

end ToyIsa
