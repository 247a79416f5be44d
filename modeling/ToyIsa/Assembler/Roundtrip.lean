import ToyIsa.Assembler.Meaning

/-!
# The encoder and the decoder

`encoder_decoder_inverse`: a word that the encoder returns decodes to the meaning of its source, and
every word with operands is returned for the source of its operands. Only `Flush`, `Syscall` with a
code and `Ssat` of width 0 have words that no source gives.
-/

namespace ToyIsa.Asm

open BitVec TIDecoder Encoder

/-- The source of a decoded instruction. A jump goes to the label `target`. -/
def source (t : TIInstruction) : Option (Mnemonic × List RubyValue) :=
  let register (operand : Operand) : RubyValue := .register operand.value.toNat
  let signed (operand : Operand) : RubyValue := .integer operand.value.toInt
  let unsigned (operand : Operand) : RubyValue := .integer operand.value.toNat
  match t.opCode, t.operands with
  | .add, [rd, rs, rt] => some (.add, [register rd, register rs, register rt])
  | .addi, [rt, rs, value] => some (.addi, [register rt, register rs, signed value])
  | .or, [rd, rs, rt] => some (.or, [register rd, register rs, register rt])
  | .ldImm, [rt, base, offset] => some (.ld, [register rt, .array [register base, signed offset]])
  | .ldReg, [rt, base, rm] => some (.ld, [register rt, .array [register base, register rm]])
  | .st, [rt, base, offset] => some (.st, [register rt, .array [register base, signed offset]])
  | .beq, [rs, rt, offset] => some (.beq, [register rs, register rt, signed offset])
  | .j, [_] => some (.j, [.symbol "target"])
  | .clz, [rd, rs] => some (.clz, [register rd, register rs])
  | .ssat, [rd, rs, width] => some (.ssat, [register rd, register rs, unsigned width])
  | .bext, [rd, rs1, rs2] => some (.bext, [register rd, register rs1, register rs2])
  | .li, [rt, value] => some (.li, [register rt, signed value])
  | .rori, [rd, rs, shift] => some (.rori, [register rd, register rs, unsigned shift])
  | .stp, [rt1, rt2, base, offset] =>
    some (.stp, [register rt1, register rt2, .array [register base, signed offset]])
  | _, _ => none

/-- The label table defines the target of a jump. -/
def Targets (labels : Labels) (t : TIInstruction) : Prop :=
  ∀ index, t.opCode = .j → t.operands = [index] →
    labels "target" = some { sect := .text, offset := 4 * index.value.toNat }

/-- The instruction has a source. -/
def HasSource (t : TIInstruction) : Prop :=
  t.opCode ∉ [.invalid, .syscall, .flush] ∧
    ¬ (t.opCode = .ssat ∧ ∃ width, t.operands[2]? = some width ∧ width.value = 0)

section

variable {line : Nat}

/-- A register operand is encoded as its index. -/
lemma registerIndex_operand (r : Reg) :
    registerIndex (.register r.operand.value.toNat) line = .ok r.toNat := by
  have bound := r.isLt
  have value : r.operand.value.toNat = r.toNat := toNat_setWidth_of_le (by omega)
  unfold registerIndex
  dsimp only
  rw [value, if_pos (by omega), Int.toNat_natCast]

/-- A sign-extended field is encoded as the field. -/
lemma signedImmediate_field {width} (x : BitVec width) (hw : 1 ≤ width ∧ width ≤ 32) :
    signedImmediate (.integer (x.signExtend 32).toInt) width line = .ok x.toNat := by
  have value : (x.signExtend 32).toInt = x.toInt := toInt_signExtend_of_le hw.2
  have lower := le_toInt x
  have upper := toInt_lt (x := x)
  have low : (x.toInt % 2 ^ width).toNat = x.toNat := by
    have back := congrArg BitVec.toNat (ofInt_toInt (x := x))
    rw [toNat_ofInt] at back
    exact_mod_cast back
  unfold signedImmediate
  dsimp only
  rw [value, if_pos ⟨by exact_mod_cast lower, by omega⟩, low]

/-- A zero-extended field is encoded as the field. -/
lemma unsignedImmediate_field {width minimum} (x : BitVec width) (hw : width ≤ 32)
    (least : minimum ≤ x.toNat) :
    unsignedImmediate (.integer (x.setWidth 32).toNat) width line minimum = .ok x.toNat := by
  have value : (x.setWidth 32).toNat = x.toNat := toNat_setWidth_of_le hw
  have bound : ((x.toNat : Nat) : Int) < ((2 ^ width : Nat) : Int) := by exact_mod_cast x.isLt
  push_cast at bound
  unfold unsignedImmediate
  dsimp only
  rw [value, if_pos (by omega), Int.toNat_natCast]

/-- A memory operand is encoded as its base and its offset. -/
lemma memoryAddress_operands {width} (base : Reg) (x : BitVec width)
    (hw : 1 ≤ width ∧ width ≤ 32) :
    memoryAddress (.array [.register base.operand.value.toNat,
      .integer (x.signExtend 32).toInt]) width line = .ok (base.toNat, x.toNat) := by
  unfold memoryAddress addressParts
  rw [Except.ok_bind]
  dsimp only
  rw [registerIndex_operand, Except.ok_bind, signedImmediate_field x hw, Except.ok_bind]
  rfl

end

variable {labels : Labels} {pc : Int} {line : Nat}

/-- Every computing instruction with a source is encoded as its word. -/
lemma encode_source_compute {op : Compute} (has : HasSource (Instr.compute op).toTI) :
    ∃ name operands, source (Instr.compute op).toTI = some (name, operands) ∧
      encode labels ⟨name, operands, pc, line⟩ = .ok (Instr.compute op).word.toNat := by
  cases op with
  | li rt x =>
    refine ⟨_, _, rfl, ?_⟩
    simp (disch := omega) only [encode, encodeLi, registerIndex_operand, Except.ok_bind, Instr.word,
      Compute.word, toNat_or, toNat_place]
    rw [signedImmediate_field x (by omega)]
    rfl
  | add rd rs rt =>
    refine ⟨_, _, rfl, ?_⟩
    simp (disch := omega) only [encode, encodeAdd, registerIndex_operand, Except.ok_bind,
      Instr.word, Compute.word, toNat_or, toNat_place]
    rfl
  | addi rt rs x =>
    refine ⟨_, _, rfl, ?_⟩
    simp (disch := omega) only [encode, encodeAddi, registerIndex_operand, Except.ok_bind,
      Instr.word, Compute.word, toNat_or, toNat_place]
    rw [signedImmediate_field x (by omega)]
    rfl
  | or rd rs rt =>
    refine ⟨_, _, rfl, ?_⟩
    simp (disch := omega) only [encode, encodeOr, registerIndex_operand, Except.ok_bind, Instr.word,
      Compute.word, toNat_or, toNat_place]
    rfl
  | ldReg rt base rm =>
    refine ⟨_, _, rfl, ?_⟩
    simp (disch := omega) only [encode, encodeLd, addressParts, registerIndex_operand,
      Except.ok_bind, Instr.word, Compute.word, toNat_or, toNat_place]
    rfl
  | ldImm rt base x =>
    refine ⟨_, _, rfl, ?_⟩
    simp (disch := omega) only [encode, encodeLd, addressParts, registerIndex_operand,
      Except.ok_bind, Instr.word, Compute.word, toNat_or, toNat_place]
    rw [signedImmediate_field x (by omega)]
    rfl
  | clz rd rs =>
    refine ⟨_, _, rfl, ?_⟩
    simp (disch := omega) only [encode, encodeClz, registerIndex_operand, Except.ok_bind,
      Instr.word, Compute.word, toNat_or, toNat_place]
    rfl
  | ssat rd rs x =>
    -- the encoder accepts no width 0
    have positive : 1 ≤ x.toNat := by
      by_contra zero
      refine has.2 ⟨rfl, ⟨.immediate, x.setWidth 32⟩, rfl, ?_⟩
      apply eq_of_toNat_eq
      rw [toNat_setWidth_of_le (by omega)]
      exact Nat.lt_one_iff.mp (Nat.lt_of_not_le zero)
    refine ⟨_, _, rfl, ?_⟩
    simp (disch := omega) only [encode, encodeSsat, registerIndex_operand, Except.ok_bind,
      Instr.word, Compute.word, toNat_or, toNat_place]
    rw [unsignedImmediate_field x (by omega) positive]
    rfl
  | rori rd rs x =>
    refine ⟨_, _, rfl, ?_⟩
    simp (disch := omega) only [encode, encodeRori, registerIndex_operand, Except.ok_bind,
      Instr.word, Compute.word, toNat_or, toNat_place]
    rw [unsignedImmediate_field x (by omega) (Nat.zero_le _)]
    rfl
  | bext rd rs1 rs2 =>
    refine ⟨_, _, rfl, ?_⟩
    simp (disch := omega) only [encode, encodeBext, registerIndex_operand, Except.ok_bind,
      Instr.word, Compute.word, toNat_or, toNat_place]
    rfl

/-- Every instruction with a source is encoded as its word. -/
lemma encode_source {i : Instr} (has : HasSource i.toTI) (targets : Targets labels i.toTI) :
    ∃ name operands, source i.toTI = some (name, operands) ∧
      encode labels ⟨name, operands, pc, line⟩ = .ok i.word.toNat := by
  cases i with
  | compute op => exact encode_source_compute has
  | st rt base x =>
    refine ⟨_, _, rfl, ?_⟩
    simp (disch := omega) only [encode, encodeSt, registerIndex_operand, Except.ok_bind, Instr.word,
      toNat_or, toNat_place]
    rw [memoryAddress_operands base x (by omega)]
    rfl
  | stp rt1 rt2 base x =>
    refine ⟨_, _, rfl, ?_⟩
    simp (disch := omega) only [encode, encodeStp, registerIndex_operand, Except.ok_bind,
      Instr.word, toNat_or, toNat_place]
    rw [memoryAddress_operands base x (by omega)]
    rfl
  | beq rs rt x =>
    refine ⟨_, _, rfl, ?_⟩
    simp (disch := omega) only [encode, encodeBeq, branchOffset, registerIndex_operand,
      Except.ok_bind, Instr.word, toNat_or, toNat_place]
    rw [signedImmediate_field x (by omega)]
    rfl
  | j index =>
    have address : labelAddress labels (.symbol "target") line =
        .ok (4 * (index.setWidth 32).toNat) := by
      unfold labelAddress
      dsimp only
      rw [targets ⟨.immediate, index.setWidth 32⟩ rfl rfl]
      rfl
    have aligned : requireAlignment (4 * (index.setWidth 32).toNat) line = .ok () := by
      unfold requireAlignment
      rw [if_pos (by omega)]
    have shifted : (4 * ((index.setWidth 32).toNat : Int)) >>> (2 : Nat) =
        (index.setWidth 32).toNat := by
      rw [Int.shiftRight_eq_div_pow]
      omega
    refine ⟨_, _, rfl, ?_⟩
    simp (disch := omega) only [encode, encodeJ, address, aligned, Except.ok_bind, Instr.word,
      toNat_or, toNat_place]
    rw [shifted, unsignedImmediate_field index (by omega) (Nat.zero_le _)]
    rfl
  | syscall => exact absurd has.1 (by simp)
  | flush => exact absurd has.1 (by simp)
  | invalid => exact absurd has.1 (by simp)

/-- There is a label table for every jump. -/
lemma exists_targets (t : TIInstruction) : ∃ labels, Targets labels t := by
  by_cases jump : ∃ index, t.opCode = .j ∧ t.operands = [index]
  · obtain ⟨index, _, operands⟩ := jump
    refine ⟨fun _ => some { sect := .text, offset := 4 * index.value.toNat }, ?_⟩
    intro index' _ operands'
    rw [operands] at operands'
    cases operands'
    rfl
  · exact ⟨fun _ => none, fun index code operands => absurd ⟨index, code, operands⟩ jump⟩

/-- The mnemonic and the operands of an instruction that has a source. -/
lemma exists_source {i : Instr} (has : HasSource i.toTI) :
    ∃ name operands, source i.toTI = some (name, operands) := by
  cases i with
  | compute op => cases op <;> exact ⟨_, _, rfl⟩
  | syscall => exact absurd has.1 (by simp)
  | flush => exact absurd has.1 (by simp)
  | invalid => exact absurd has.1 (by simp)
  | _ => exact ⟨_, _, rfl⟩

/-- A word that the encoder returns decodes to the meaning of its source, and every word with a
source is returned for it. -/
theorem encoder_decoder_inverse :
    (∀ (labels : Labels) instruction w, encode labels instruction = .ok w → w < 2 ^ 32 ∧
      ∃ opCode operands, meaning labels instruction = some (opCode, operands) ∧
        (decode (.ofNat 32 w)).opCode = opCode ∧ (decode (.ofNat 32 w)).operands = operands) ∧
    ∀ word : Word, HasSource (decode word) → ∃ name operands,
      source (decode word) = some (name, operands) ∧ (∃ labels, Targets labels (decode word)) ∧
      ∀ labels pc line, Targets labels (decode word) →
        encode labels ⟨name, operands, pc, line⟩ = .ok word.toNat := by
  constructor
  · intro labels instruction w h
    obtain ⟨i, valid, rfl, means⟩ := encode_ok h
    refine ⟨i.word.isLt, i.opCode, i.operands, means, ?_⟩
    rw [ofNat_toNat, setWidth_eq, decode_word valid]
    exact ⟨rfl, rfl⟩
  · intro word has
    obtain ⟨i, decoded⟩ := decode_eq_toTI word
    rw [decoded] at has ⊢
    have valid : i.opCode ≠ .invalid := by
      intro e
      exact has.1 (by rw [Instr.toTI_opCode, e]; simp)
    -- `FLUSH` ignores bits of its word, so its word cannot be recovered
    have nf : i.opCode ≠ .flush := by
      intro e
      exact has.1 (by rw [Instr.toTI_opCode, e]; simp)
    rw [word_of_decode decoded valid nf]
    obtain ⟨name, operands, found⟩ := exists_source has
    refine ⟨name, operands, found, exists_targets _, fun labels pc line targets => ?_⟩
    obtain ⟨name', operands', found', encoded⟩ := @encode_source labels pc line i has targets
    rw [found] at found'
    cases found'
    exact encoded

/-- `St x2, [x1, -4]` and its word, and a jump to the third instruction. -/
theorem encoder_decoder_inverse_words :
    (∃ opCode operands, meaning (fun _ => none)
        ⟨.st, [.register 2, .array [.register 1, .integer (-4)]], 0, 1⟩ = some (opCode, operands) ∧
      (decode 0x80223FFC).opCode = opCode ∧ (decode 0x80223FFC).operands = operands) ∧
    ∃ labels name operands, source (decode 0xFC000002) = some (name, operands) ∧
      encode labels ⟨name, operands, 0, 1⟩ = .ok 0xFC000002 := by
  constructor
  · have encoded : encode (fun _ => none)
        ⟨.st, [.register 2, .array [.register 1, .integer (-4)]], 0, 1⟩ = .ok 0x80223FFC := by
      decide
    exact (encoder_decoder_inverse.1 _ _ _ encoded).2
  · have has : HasSource (decode 0xFC000002) := by
      refine ⟨by decide, fun saturates => ?_⟩
      cases saturates.1
    obtain ⟨name, operands, found, ⟨labels, targets⟩, encodes⟩ :=
      encoder_decoder_inverse.2 0xFC000002 has
    exact ⟨labels, name, operands, found, encodes labels 0 1 targets⟩

end ToyIsa.Asm
