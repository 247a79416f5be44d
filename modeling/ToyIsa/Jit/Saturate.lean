import ToyIsa.Jit.Native
import ToyIsa.Toy.Scripted

/-!
# Saturation

`SSAT` is computed by `saturateSigned` in the interpreting engines and by a sequence of `MAX` and
`MIN` in compiled code. Both are the clamp of the signed value (`ssat_clamps`), whose order facts
are proved here on integers.
-/

namespace ToyIsa

open ExecutorDetail ExecutionContext

/-! The clamp. -/

/-- The clamp as an integer. -/
lemma toInt_clampSigned (value : Word) {width : Nat} (h : width < 32) :
    (clampSigned value width).toInt =
      max (-2 ^ (width - 1)) (min value.toInt (2 ^ (width - 1) - 1)) := by
  have half : ((2 : Int) ^ (width - 1)) = ((2 ^ (width - 1) : Nat) : Int) := by
    push_cast
    rfl
  have le := halfRange_le h
  have pos := Nat.two_pow_pos (width - 1)
  unfold clampSigned
  rw [half]
  generalize 2 ^ (width - 1) = p at le pos
  apply BitVec.toInt_ofInt_eq_self (by decide)
  · omega
  · omega

/-- A value of `width` bits is a value of more bits. -/
lemma clampSigned_clampSigned (value : Word) {width width' : Nat} (le : width ≤ width')
    (h : width' < 32) : clampSigned (clampSigned value width) width' = clampSigned value width := by
  have small : width < 32 := Nat.lt_of_le_of_lt le h
  have half : (2 : Int) ^ (width - 1) ≤ 2 ^ (width' - 1) := by
    exact_mod_cast Nat.pow_le_pow_right (by decide : 0 < 2) (Nat.sub_le_sub_right le 1)
  have pos : (0 : Int) < 2 ^ (width - 1) := by
    exact_mod_cast Nat.two_pow_pos (width - 1)
  apply BitVec.eq_of_toInt_eq
  rw [toInt_clampSigned _ h, toInt_clampSigned value small]
  -- linear arithmetic in the two half ranges
  generalize (2 : Int) ^ (width - 1) = p at half pos
  generalize (2 : Int) ^ (width' - 1) = p' at half
  omega

/-- The clamp is monotone. -/
lemma clampSigned_mono {value value' : Word} (le : value.toInt ≤ value'.toInt) {width : Nat}
    (h : width < 32) : (clampSigned value width).toInt ≤ (clampSigned value' width).toInt := by
  rw [toInt_clampSigned value h, toInt_clampSigned value' h]
  exact max_le_max_left _ (min_le_min_right _ le)

/-! The two implementations. -/

/-- A width in range fits in the five bits of the field. -/
lemma setWidth_width {width : Word} (h : 1 ≤ width.toNat ∧ width.toNat ≤ 31) :
    (width.setWidth 5).setWidth 32 = width ∧ (width.setWidth 5).toNat = width.toNat ∧
      width.setWidth 5 ≠ 0 := by
  have toNat : (width.setWidth 5).toNat = width.toNat := by
    rw [BitVec.toNat_setWidth]
    exact Nat.mod_eq_of_lt (by omega)
  refine ⟨?_, toNat, fun zero => ?_⟩
  · apply BitVec.eq_of_toNat_eq
    rw [BitVec.toNat_setWidth, toNat]
    exact Nat.mod_eq_of_lt width.isLt
  · rw [zero] at toNat
    have : (0 : BitVec 5).toNat = 0 := rfl
    omega

/-- `saturateSigned` clamps at every width in range. -/
lemma saturateSigned_clamps (value : Word) {width : Word}
    (h : 1 ≤ width.toNat ∧ width.toNat ≤ 31) :
    saturateSigned value width = .ok (clampSigned value width.toNat) := by
  obtain ⟨field, toNat, ne⟩ := setWidth_width h
  have clamps := saturateSigned_eq value ne
  rw [field, toNat] at clamps
  exact clamps

variable {σ : Type} [Host σ]

/-- The code that `encodeSsat` emits clamps at every width in range. -/
lemma encodeSsat_clamps {ir : IrLibrary} (doc : ir.Documented) (level) (rd rs : Reg) {width : Word}
    (h : 1 ≤ width.toNat ∧ width.toNat ≤ 31) (cache) (c : ExecutionContext σ) :
    ∃ s, encodeSsat .param (Instr.compute (.ssat rd rs (width.setWidth 5))).toTI
        { cache := cache } = .ok () s ∧
      evalIr ir level (s.code ++ [.ret (.const (.entry 0))]) {} c =
        .ok 0 (c.setReg rd (clampSigned (c.reg rs) width.toNat)) := by
  obtain ⟨field, toNat, ne⟩ := setWidth_width h
  have emitted := encodeInstruction_compute (.ssat rd rs (width.setWidth 5)) 0 { cache := cache }
  refine ⟨_, emitted, ?_⟩
  obtain ⟨f, frame, run⟩ := eval_ssat (c := c) (f := {}) level doc rfl rd rs (width.setWidth 5)
    [.ret (.const (.entry 0))]
  have value := saturateSigned_eq (c.reg rs) ne
  rw [toNat] at value
  simp only [Compute.value, value] at run
  rw [List.nil_append]
  exact run.trans (evalIr_ret frame.live (IrFrame.lookup_const f _) [])

/-- `SSAT` is the clamp of the signed value in the interpreting engines and in compiled code. The
clamp is not changed by saturating to the same or a larger width, and it is monotone. -/
theorem ssat_clamps (value width : Word) (range : 1 ≤ width.toNat ∧ width.toNat ≤ 31) :
    saturateSigned value width = .ok (clampSigned value width.toNat) ∧
    (∀ (ir : IrLibrary) (level : Byte) (rd rs : Reg) (cache : TIBasicBlockCache)
        (c : ExecutionContext σ), ir.Documented → c.reg rs = value →
      ∃ s, encodeSsat .param (Instr.compute (.ssat rd rs (width.setWidth 5))).toTI
          { cache := cache } = .ok () s ∧
        evalIr ir level (s.code ++ [.ret (.const (.entry 0))]) {} c =
          .ok 0 (c.setReg rd (clampSigned value width.toNat))) ∧
    (∀ width' : Word, width.toNat ≤ width'.toNat → width'.toNat ≤ 31 →
      saturateSigned (clampSigned value width.toNat) width' =
        .ok (clampSigned value width.toNat)) ∧
    (∀ value' : Word, value.toInt ≤ value'.toInt →
      (clampSigned value width.toNat).toInt ≤ (clampSigned value' width.toNat).toInt) := by
  have small : width.toNat < 32 := Nat.lt_succ_of_le range.2
  refine ⟨saturateSigned_clamps value range, fun ir level rd rs cache c doc source => ?_,
    fun width' le le' => ?_, fun value' le => clampSigned_mono le small⟩
  · subst source
    exact encodeSsat_clamps doc level rd rs range cache c
  · rw [saturateSigned_clamps _ ⟨Nat.le_trans range.1 le, le'⟩,
      clampSigned_clampSigned value le (Nat.lt_succ_of_le le')]

/-- The width of the source's test. -/
theorem ssat_clamps_eight :
    saturateSigned (-200) 8 = .ok (-128) ∧
    ∀ width' : Word, 8 ≤ width'.toNat → width'.toNat ≤ 31 →
      saturateSigned (-128) width' = .ok (-128) :=
  have clamps := ssat_clamps (σ := Script) (-200) 8 (by decide)
  ⟨clamps.1, clamps.2.2.1⟩

end ToyIsa
