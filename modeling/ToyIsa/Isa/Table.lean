import Mathlib.Data.List.Nodup
import ToyIsa.Isa.Instr
import ToyIsa.Lib.Pattern

/-!
# The decode table

The rows of `DecodeVector` exclude each other, so the order of the table does not matter
(`decodeIn_perm`), and every bit a row does not fix is a bit of some operand (`fields_cover`,
`fields_carried`), so an instruction determines its word. `Flush` is the exception: it has no
operands and ignores the bits below its opcode.
-/

namespace ToyIsa

namespace TIDecoder

/-- `decode` with another order of the table. -/
def decodeIn (table : List DecodeInfo) (word : Word) : TIInstruction :=
  match table.find? (·.matches word) with
  | some info =>
    let instruction := info.handler word
    { instruction with threadedHandler := some (getThreadedHandler instruction.opCode) }
  | none => { opCode := .invalid, threadedHandler := some (getThreadedHandler .invalid) }

/-- The table of the source. -/
lemma decodeIn_decodeVector (word) : decodeIn decodeVector word = decode word := rfl

/-- Any two rows fix a bit differently. -/
lemma rows_clash : decodeVector.Pairwise fun a b =>
    a.mask &&& b.mask &&& (a.reference ^^^ b.reference) ≠ 0 := by
  decide

/-- At most one row matches a word. -/
lemma length_matching_le_one (word : Word) :
    (decodeVector.filter (·.matches word)).length ≤ 1 := by
  apply List.length_filter_le_one
  apply rows_clash.imp
  rintro a b clash ⟨ha, hb⟩
  exact BitVec.matches_disjoint clash (beq_iff_eq.mp ha) (beq_iff_eq.mp hb)

/-- The order of the table does not matter. -/
lemma decodeIn_perm {table : List DecodeInfo} (h : table.Perm decodeVector) (word) :
    decodeIn table word = decode word := by
  rw [← decodeIn_decodeVector, decodeIn, decodeIn,
    List.find?_eq_of_perm (length_matching_le_one word) h]

/-- A field of a format: `width` bits from `offset` on are the low bits of operand `index`. -/
structure Field where
  index : Nat
  offset : Nat
  width : Nat

/-- The handler puts the bits of the field into the operand. -/
def Carries (handler : Word → TIInstruction) (f : Field) : Prop :=
  ∀ word j, j < f.width →
    (handler word).operands[f.index]?.map (·.value.getLsbD j) = some (word.getLsbD (f.offset + j))

/-- The fields of the formats. -/
def fields : TIOpcode → List Field
  | .st | .ldImm => [⟨0, 16, 5⟩, ⟨1, 21, 5⟩, ⟨2, 0, 14⟩]
  | .addi => [⟨0, 16, 5⟩, ⟨1, 21, 5⟩, ⟨2, 0, 16⟩]
  | .or | .add => [⟨0, 11, 5⟩, ⟨1, 21, 5⟩, ⟨2, 16, 5⟩]
  | .ldReg => [⟨0, 16, 5⟩, ⟨1, 21, 5⟩, ⟨2, 0, 5⟩]
  | .j => [⟨0, 0, 26⟩]
  | .beq => [⟨0, 21, 5⟩, ⟨1, 16, 5⟩, ⟨2, 0, 16⟩]
  | .clz => [⟨0, 21, 5⟩, ⟨1, 16, 5⟩]
  | .ssat | .bext | .rori => [⟨0, 21, 5⟩, ⟨1, 16, 5⟩, ⟨2, 11, 5⟩]
  | .syscall => [⟨0, 6, 20⟩]
  | .li => [⟨0, 16, 5⟩, ⟨1, 0, 16⟩]
  | .stp => [⟨0, 16, 5⟩, ⟨1, 11, 5⟩, ⟨2, 21, 5⟩, ⟨3, 0, 11⟩]
  | .flush | .invalid => []

/-- Every bit is fixed by the row or lies in a field. -/
lemma fields_cover : ∀ info ∈ decodeVector, info.opCode ≠ .flush → ∀ i < 32,
    info.mask.getLsbD i = true ∨
      ∃ f ∈ fields info.opCode, f.offset ≤ i ∧ i < f.offset + f.width := by
  decide

/-- `extractBits` carries its field. -/
lemma carries_extractBits {handler : Word → TIInstruction} {index offset width h type}
    (e : ∀ word, (handler word).operands[index]? = some ⟨type, extractBits word offset width h⟩) :
    Carries handler ⟨index, offset, width⟩ := by
  intro word j hj
  have wide := h
  unfold TI32.wordBitCount at wide
  simp only at hj
  rw [e, Option.map_some, extractBits_eq, BitVec.getLsbD_setWidth, BitVec.getLsbD_extractLsb',
    decide_eq_true hj, decide_eq_true (by omega : j < 32), Bool.true_and, Bool.true_and]

/-- So does its sign extension. -/
lemma carries_signExtend {handler : Word → TIInstruction} {index offset width h h' type}
    (e : ∀ word, (handler word).operands[index]? =
      some ⟨type, signExtend (extractBits word offset width h) width h'⟩) :
    Carries handler ⟨index, offset, width⟩ := by
  intro word j hj
  have wide := h
  unfold TI32.wordBitCount at wide
  simp only at hj
  rw [e, Option.map_some, extractBits_eq, signExtend_eq, BitVec.getLsbD_signExtend,
    decide_eq_true (by omega : j < 32), if_pos hj, BitVec.getLsbD_extractLsb', decide_eq_true hj,
    Bool.true_and, Bool.true_and]

/-- Every handler carries the fields of its format. -/
lemma fields_carried : ∀ info ∈ decodeVector, ∀ f ∈ fields info.opCode, Carries info.handler f := by
  simp only [decodeVector, fields, List.forall_mem_cons, List.not_mem_nil, false_imp_iff,
    implies_true, and_true]
  refine ⟨?_, ?_, ?_, ?_, ?_, ?_, ?_, ?_, ?_, ?_, ?_, ?_, ?_, ?_, ?_⟩
  all_goals repeat' apply And.intro
  all_goals first
    | exact carries_extractBits fun _ => rfl
    | exact carries_signExtend fun _ => rfl

/-- A handler sets the opcode of its row. -/
lemma handler_opCode : ∀ info ∈ decodeVector, ∀ word, (info.handler word).opCode = info.opCode := by
  simp only [decodeVector, List.forall_mem_cons, List.not_mem_nil, false_imp_iff, implies_true,
    and_true]
  exact ⟨fun _ => rfl, fun _ => rfl, fun _ => rfl, fun _ => rfl, fun _ => rfl, fun _ => rfl,
    fun _ => rfl, fun _ => rfl, fun _ => rfl, fun _ => rfl, fun _ => rfl, fun _ => rfl,
    fun _ => rfl, fun _ => rfl, fun _ => rfl, fun _ => rfl⟩

/-- Every opcode has one row. -/
lemma opCodes_nodup : (decodeVector.map DecodeInfo.opCode).Nodup := by decide

/-- A word with a valid opcode matches the row of the opcode. -/
lemma exists_row {word} (valid : (decode word).opCode ≠ .invalid) :
    ∃ info ∈ decodeVector, word &&& info.mask = info.reference ∧
      (decode word).opCode = info.opCode ∧
      (decode word).operands = (info.handler word).operands := by
  cases e : decodeVector.find? (·.matches word) with
  | none =>
    unfold decode at valid
    rw [e] at valid
    exact absurd rfl valid
  | some info =>
    have mem := List.mem_of_find?_eq_some e
    have fixed := @List.find?_some _ (fun row : DecodeInfo => row.matches word) _ _ e
    refine ⟨info, mem, beq_iff_eq.mp fixed, ?_, ?_⟩
    · unfold decode
      rw [e]
      exact handler_opCode info mem word
    · unfold decode
      rw [e]

/-- Opcode and operands determine the word. -/
lemma word_eq_of_decode {word word'} (code : (decode word).opCode = (decode word').opCode)
    (valid : (decode word).opCode ≠ .invalid) (nf : (decode word).opCode ≠ .flush)
    (h : (decode word).operands = (decode word').operands) : word = word' := by
  obtain ⟨info, mem, fixed, code1, operands⟩ := exists_row valid
  obtain ⟨info', mem', fixed', code2, operands'⟩ := exists_row (code ▸ valid)
  obtain rfl : info = info' :=
    List.inj_on_of_nodup_map opCodes_nodup mem mem' (code1.symm.trans (code.trans code2))
  rw [operands, operands'] at h
  apply BitVec.eq_of_getLsbD_eq
  intro i hi
  obtain fix | ⟨f, hf, lower, upper⟩ := fields_cover info mem (code1 ▸ nf) i hi
  · rw [BitVec.getLsbD_of_matches fixed fix, BitVec.getLsbD_of_matches fixed' fix]
  · -- the bit is bit `i - offset` of the operand of its field
    have carried := fields_carried info mem f hf
    have bit := carried word (i - f.offset) (by omega)
    have bit' := carried word' (i - f.offset) (by omega)
    rw [Nat.add_sub_cancel' lower] at bit bit'
    rw [h, bit'] at bit
    exact (Option.some.inj bit).symm

end TIDecoder

open TIDecoder

/-- At most one row of the table matches, so its order does not matter, and no two words with the
same opcode have the same operands. -/
theorem decode_table_exact (word : Word) :
    (decodeVector.filter (·.matches word)).length ≤ 1 ∧
    (∀ table : List DecodeInfo, table.Perm decodeVector → decodeIn table word = decode word) ∧
    (∀ word', word ≠ word' → (decode word).opCode = (decode word').opCode →
      (decode word).opCode ≠ .invalid → (decode word).opCode ≠ .flush →
      (decode word).operands ≠ (decode word').operands) ∧
    (∀ info ∈ decodeVector, info.opCode ≠ .flush → ∀ i < 32, info.mask.getLsbD i = false →
      ∃ index j : Nat, ∀ w : Word,
        ((info.handler w).operands[index]?.map fun operand => operand.value.getLsbD j) =
          some (w.getLsbD i)) := by
  refine ⟨length_matching_le_one word, fun table h => decodeIn_perm h word, ?_, ?_⟩
  · intro word' ne code valid nf h
    exact ne (word_eq_of_decode code valid nf h)
  · intro info mem nf i hi free
    obtain fixed | ⟨f, hf, lower, upper⟩ := fields_cover info mem nf i hi
    · rw [free] at fixed
      cases fixed
    · refine ⟨f.index, i - f.offset, fun w => ?_⟩
      have bit := fields_carried info mem f hf w (i - f.offset) (by omega)
      rwa [Nat.add_sub_cancel' lower] at bit

end ToyIsa
