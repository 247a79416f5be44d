import ToyIsa.Assembler.Encoder
import ToyIsa.Isa.Word

/-!
# What the encoder accepts

`meaning` reads an instruction of the source as an opcode with operands. `encode_cases` inverts the
encoder: a word it returns is the word of a typed instruction, which has this meaning. The lemmas on
the checks come first, and each says which field of the word its value fills.
-/

namespace ToyIsa.Asm

open BitVec

/-- A register as an operand of the interpreter. -/
def reg (index : Int) : Operand := ⟨.register, .ofInt 32 index⟩

/-- An integer as an operand of the interpreter. -/
def imm (value : Int) : Operand := ⟨.immediate, .ofInt 32 value⟩

/-- The opcode and the operands an instruction stands for. -/
def meaning (labels : Labels) (instruction : Instruction) : Option (TIOpcode × List Operand) :=
  match instruction.name, instruction.operands with
  | .add, [.register rd, .register rs, .register rt] => some (.add, [reg rd, reg rs, reg rt])
  | .addi, [.register rt, .register rs, .integer value] => some (.addi, [reg rt, reg rs, imm value])
  | .or, [.register rd, .register rs, .register rt] => some (.or, [reg rd, reg rs, reg rt])
  | .ld, [.register rt, .array [.register base, .integer offset]] =>
    some (.ldImm, [reg rt, reg base, imm offset])
  | .ld, [.register rt, .array [.register base, .register rm]] =>
    some (.ldReg, [reg rt, reg base, reg rm])
  | .st, [.register rt, .array [.register base, .integer offset]] =>
    some (.st, [reg rt, reg base, imm offset])
  | .beq, [.register rs, .register rt, .integer offset] => some (.beq, [reg rs, reg rt, imm offset])
  | .beq, [.register rs, .register rt, .symbol label] =>
    (labels label).map fun info =>
      (.beq, [reg rs, reg rt, imm ((info.offset - instruction.pc) / 4)])
  | .j, [.symbol label] => (labels label).map fun info => (.j, [imm (info.offset / 4)])
  | .clz, [.register rd, .register rs] => some (.clz, [reg rd, reg rs])
  | .ssat, [.register rd, .register rs, .integer width] => some (.ssat, [reg rd, reg rs, imm width])
  | .syscall, [] => some (.syscall, [imm 0])
  | .bext, [.register rd, .register rs1, .register rs2] => some (.bext, [reg rd, reg rs1, reg rs2])
  | .li, [.register rt, .integer value] => some (.li, [reg rt, imm value])
  | .rori, [.register rd, .register rs, .integer shift] => some (.rori, [reg rd, reg rs, imm shift])
  | .stp, [.register rt1, .register rt2, .array [.register base, .integer offset]] =>
    some (.stp, [reg rt1, reg rt2, reg base, imm offset])
  | .flush, [] => some (.flush, [])
  | _, _ => none

/-- A computation that returns has returned at each step. -/
lemma Except.bind_eq_ok {ε α β : Type} {x : Except ε α} {f : α → Except ε β} {b : β}
    (h : (x >>= f) = .ok b) : ∃ a, x = .ok a ∧ f a = .ok b := by
  cases x with
  | error e => cases h
  | ok a => exact ⟨a, rfl, h⟩

/-- A call that returned. -/
lemma Except.ok_bind {ε α β : Type} (a : α) (f : α → Except ε β) :
    ((Except.ok a : Except ε α) >>= f) = f a := rfl

namespace Encoder

variable {line n : Nat}

/-- A register that is accepted. -/
lemma registerIndex_ok {register} (h : registerIndex register line = .ok n) :
    ∃ index, ∃ r : Reg, register = .register index ∧ n = r.toNat ∧ reg index = r.operand := by
  unfold registerIndex at h
  split at h
  case h_2 => cases h
  case h_1 index =>
    split at h
    case isFalse => cases h
    case isTrue range =>
      cases h
      have bound : index.toNat < 2 ^ 5 := by omega
      refine ⟨index, .ofNat 5 index.toNat, rfl, ?_, ?_⟩
      · rw [toNat_ofNat, Nat.mod_eq_of_lt bound]
      · unfold reg Reg.operand
        congr 1
        apply eq_of_toNat_eq
        rw [toNat_setWidth, toNat_ofNat, toNat_ofInt]
        omega

/-- A signed immediate that is accepted. -/
lemma signedImmediate_ok {immediate} {width} (h : signedImmediate immediate width line = .ok n)
    (hw : 1 ≤ width ∧ width ≤ 32) :
    ∃ value, ∃ x : BitVec width, immediate = .integer value ∧ n = x.toNat ∧
      imm value = ⟨.immediate, x.signExtend 32⟩ := by
  unfold signedImmediate at h
  split at h
  case h_2 => cases h
  case h_1 value =>
    split at h
    case isFalse => cases h
    case isTrue range =>
      cases h
      refine ⟨value, .ofInt width value, rfl, ?_, ?_⟩
      · rw [toNat_ofInt]
        congr 2
      · have back : (BitVec.ofInt width value).toInt = value :=
          toInt_ofInt_eq_self (by omega) range.1 (by omega)
        unfold imm BitVec.signExtend
        rw [back]

/-- An unsigned immediate that is accepted. -/
lemma unsignedImmediate_ok {immediate} {width minimum}
    (h : unsignedImmediate immediate width line minimum = .ok n) (hw : width ≤ 32) :
    ∃ value, ∃ x : BitVec width, immediate = .integer value ∧ n = x.toNat ∧ minimum ≤ n ∧
      imm value = ⟨.immediate, x.setWidth 32⟩ := by
  unfold unsignedImmediate at h
  split at h
  case h_2 => cases h
  case h_1 value =>
    split at h
    case isFalse => cases h
    case isTrue range =>
      cases h
      have small : (2 : Int) ^ width ≤ 2 ^ 32 := by
        exact_mod_cast Nat.pow_le_pow_right (by omega) hw
      have fits : value.toNat < 2 ^ width := by
        have : ((value.toNat : Nat) : Int) < ((2 ^ width : Nat) : Int) := by
          push_cast
          omega
        exact_mod_cast this
      refine ⟨value, .ofNat width value.toNat, rfl, ?_, by omega, ?_⟩
      · rw [toNat_ofNat, Nat.mod_eq_of_lt fits]
      · unfold imm
        congr 1
        apply eq_of_toNat_eq
        rw [toNat_setWidth, toNat_ofNat, toNat_ofInt, Nat.mod_eq_of_lt fits]
        omega

/-- An address that is accepted. -/
lemma addressParts_ok {address parts} (h : addressParts address line = .ok parts) :
    address = .array [parts.1, parts.2] := by
  unfold addressParts at h
  split at h
  · cases h
    rfl
  · cases h
  · cases h

/-- A memory operand that is encoded is a register and an immediate that fits. -/
lemma memoryAddress_ok {address} {width} {parts : Nat × Nat}
    (h : memoryAddress address width line = .ok parts) (hw : 1 ≤ width ∧ width ≤ 32) :
    ∃ index value, ∃ r : Reg, ∃ x : BitVec width,
      address = .array [.register index, .integer value] ∧ parts = (r.toNat, x.toNat) ∧
      reg index = r.operand ∧ imm value = ⟨.immediate, x.signExtend 32⟩ := by
  unfold memoryAddress at h
  obtain ⟨elements, ha, h⟩ := Except.bind_eq_ok h
  obtain ⟨baseIndex, hb, h⟩ := Except.bind_eq_ok h
  obtain ⟨encoded, hi, h⟩ := Except.bind_eq_ok h
  obtain ⟨index, r, base, rfl, operand⟩ := registerIndex_ok hb
  obtain ⟨value, x, offset, rfl, immediate⟩ := signedImmediate_ok hi hw
  cases h
  have shape := addressParts_ok ha
  rw [base, offset] at shape
  exact ⟨index, value, r, x, shape, rfl, operand, immediate⟩

/-- A label that is accepted. -/
lemma labelAddress_ok {labels label} {address : Int}
    (h : labelAddress labels label line = .ok address) :
    ∃ name info, label = .symbol name ∧ labels name = some info ∧ info.sect = .text ∧
      info.offset = address := by
  unfold labelAddress at h
  split at h
  case h_2 => cases h
  case h_1 name =>
    split at h
    case h_1 => cases h
    case h_2 info found =>
      split at h
      case isFalse => cases h
      case isTrue text =>
        cases h
        exact ⟨name, info, rfl, found, text, rfl⟩

/-- The word `w` is that of a typed instruction with the meaning of the source. -/
def Encodes (labels : Labels) (instruction : Instruction) (w : Nat) : Prop :=
  ∃ i : Instr, i ≠ .invalid ∧ w = i.word.toNat ∧
    meaning labels instruction = some (i.opCode, i.operands)

section

variable {labels : Labels} {instruction : Instruction} {w : Nat}

/-- Two registers that are accepted, and what is done with them. -/
lemma twoRegisters_ok {x y : RubyValue} {k : Nat → Nat → Except String Nat}
    (h : (do
      let a ← registerIndex x line
      let b ← registerIndex y line
      k a b) = Except.ok w) :
    ∃ i j, ∃ r s : Reg, x = .register i ∧ y = .register j ∧ k r.toNat s.toNat = .ok w ∧
      reg i = r.operand ∧ reg j = s.operand := by
  obtain ⟨a, hx, h⟩ := Except.bind_eq_ok h
  obtain ⟨b, hy, h⟩ := Except.bind_eq_ok h
  obtain ⟨i, r, rfl, rfl, hr⟩ := registerIndex_ok hx
  obtain ⟨j, s, rfl, rfl, hs⟩ := registerIndex_ok hy
  exact ⟨i, j, r, s, rfl, rfl, h, hr, hs⟩

/-- Three registers that are accepted. -/
lemma threeRegisters_ok {x y z : RubyValue} {f : Nat → Nat → Nat → Nat}
    (h : (do
      let a ← registerIndex x line
      let b ← registerIndex y line
      let c ← registerIndex z line
      return f a b c) = Except.ok w) :
    ∃ i j k, ∃ r s t : Reg, x = .register i ∧ y = .register j ∧ z = .register k ∧
      w = f r.toNat s.toNat t.toNat ∧ reg i = r.operand ∧ reg j = s.operand ∧
      reg k = t.operand := by
  obtain ⟨i, j, r, s, rfl, rfl, h, hr, hs⟩ := twoRegisters_ok h
  obtain ⟨c, hz, h⟩ := Except.bind_eq_ok h
  obtain ⟨k, t, rfl, rfl, ht⟩ := registerIndex_ok hz
  cases h
  exact ⟨i, j, k, r, s, t, rfl, rfl, rfl, rfl, hr, hs, ht⟩

/-- The word of `Add`. -/
lemma encodeAdd_ok (name : instruction.name = .add) (h : encodeAdd instruction = .ok w) :
    Encodes labels instruction w := by
  unfold encodeAdd at h
  split at h
  case h_2 => cases h
  case h_1 rd rs rt operands =>
    obtain ⟨i, j, k, rd, rs, rt, rfl, rfl, rfl, rfl, hd, hs, ht⟩ :=
      @threeRegisters_ok _ _ rd rs rt
        (fun d s t => (s <<< 21) ||| (t <<< 16) ||| (d <<< 11) ||| 0x0C) h
    refine ⟨.compute (.add rd rs rt), by simp, ?_, ?_⟩
    · simp (disch := omega) only [Instr.word, Compute.word, toNat_or, toNat_place]
      rfl
    · unfold meaning
      rw [name, operands]
      simp only [hd, hs, ht, Instr.opCode, Instr.operands, Compute.opCode, Compute.operands]

/-- The word of `Or`. -/
lemma encodeOr_ok (name : instruction.name = .or) (h : encodeOr instruction = .ok w) :
    Encodes labels instruction w := by
  unfold encodeOr at h
  split at h
  case h_2 => cases h
  case h_1 rd rs rt operands =>
    obtain ⟨i, j, k, rd, rs, rt, rfl, rfl, rfl, rfl, hd, hs, ht⟩ :=
      @threeRegisters_ok _ _ rd rs rt
        (fun d s t => (s <<< 21) ||| (t <<< 16) ||| (d <<< 11) ||| 0x1A) h
    refine ⟨.compute (.or rd rs rt), by simp, ?_, ?_⟩
    · simp (disch := omega) only [Instr.word, Compute.word, toNat_or, toNat_place]
      rfl
    · unfold meaning
      rw [name, operands]
      simp only [hd, hs, ht, Instr.opCode, Instr.operands, Compute.opCode, Compute.operands]

/-- The word of `Bext`. -/
lemma encodeBext_ok (name : instruction.name = .bext) (h : encodeBext instruction = .ok w) :
    Encodes labels instruction w := by
  unfold encodeBext at h
  split at h
  case h_2 => cases h
  case h_1 rd rs1 rs2 operands =>
    obtain ⟨i, j, k, rd, rs1, rs2, rfl, rfl, rfl, rfl, hd, hs, ht⟩ :=
      @threeRegisters_ok _ _ rd rs1 rs2
        (fun d s t => (d <<< 21) ||| (s <<< 16) ||| (t <<< 11) ||| 0x34) h
    refine ⟨.compute (.bext rd rs1 rs2), by simp, ?_, ?_⟩
    · simp (disch := omega) only [Instr.word, Compute.word, toNat_or, toNat_place]
      rfl
    · unfold meaning
      rw [name, operands]
      simp only [hd, hs, ht, Instr.opCode, Instr.operands, Compute.opCode, Compute.operands]

/-- The word of `Addi`. -/
lemma encodeAddi_ok (name : instruction.name = .addi) (h : encodeAddi instruction = .ok w) :
    Encodes labels instruction w := by
  unfold encodeAddi at h
  split at h
  case h_2 => cases h
  case h_1 rt rs immediate operands =>
    obtain ⟨i, j, rt, rs, rfl, rfl, h, ht, hs⟩ := twoRegisters_ok h
    obtain ⟨n, hn, h⟩ := Except.bind_eq_ok h
    obtain ⟨value, x, rfl, rfl, hx⟩ := signedImmediate_ok hn (by omega)
    cases h
    refine ⟨.compute (.addi rt rs x), by simp, ?_, ?_⟩
    · simp (disch := omega) only [Instr.word, Compute.word, toNat_or, toNat_place]
      rfl
    · unfold meaning
      rw [name, operands]
      simp only [ht, hs, hx, Instr.opCode, Instr.operands, Compute.opCode, Compute.operands]

/-- The word of `Li`. -/
lemma encodeLi_ok (name : instruction.name = .li) (h : encodeLi instruction = .ok w) :
    Encodes labels instruction w := by
  unfold encodeLi at h
  split at h
  case h_2 => cases h
  case h_1 rt immediate operands =>
    obtain ⟨a, ha, h⟩ := Except.bind_eq_ok h
    obtain ⟨n, hn, h⟩ := Except.bind_eq_ok h
    obtain ⟨i, rt, rfl, rfl, ht⟩ := registerIndex_ok ha
    obtain ⟨value, x, rfl, rfl, hx⟩ := signedImmediate_ok hn (by omega)
    cases h
    refine ⟨.compute (.li rt x), by simp, ?_, ?_⟩
    · simp (disch := omega) only [Instr.word, Compute.word, toNat_or, toNat_place]
      rfl
    · unfold meaning
      rw [name, operands]
      simp only [ht, hx, Instr.opCode, Instr.operands, Compute.opCode, Compute.operands]

/-- The word of `Clz`. -/
lemma encodeClz_ok (name : instruction.name = .clz) (h : encodeClz instruction = .ok w) :
    Encodes labels instruction w := by
  unfold encodeClz at h
  split at h
  case h_2 => cases h
  case h_1 rd rs operands =>
    obtain ⟨i, j, rd, rs, rfl, rfl, h, hd, hs⟩ := twoRegisters_ok h
    cases h
    refine ⟨.compute (.clz rd rs), by simp, ?_, ?_⟩
    · simp (disch := omega) only [Instr.word, Compute.word, toNat_or, toNat_place]
      rfl
    · unfold meaning
      rw [name, operands]
      simp only [hd, hs, Instr.opCode, Instr.operands, Compute.opCode, Compute.operands]

/-- The word of `Ssat`. -/
lemma encodeSsat_ok (name : instruction.name = .ssat) (h : encodeSsat instruction = .ok w) :
    Encodes labels instruction w := by
  unfold encodeSsat at h
  split at h
  case h_2 => cases h
  case h_1 rd rs immediate operands =>
    obtain ⟨i, j, rd, rs, rfl, rfl, h, hd, hs⟩ := twoRegisters_ok h
    obtain ⟨n, hn, h⟩ := Except.bind_eq_ok h
    obtain ⟨value, x, rfl, rfl, _, hx⟩ := unsignedImmediate_ok hn (by omega)
    cases h
    refine ⟨.compute (.ssat rd rs x), by simp, ?_, ?_⟩
    · simp (disch := omega) only [Instr.word, Compute.word, toNat_or, toNat_place]
      rfl
    · unfold meaning
      rw [name, operands]
      simp only [hd, hs, hx, Instr.opCode, Instr.operands, Compute.opCode, Compute.operands]

/-- The word of `Rori`. -/
lemma encodeRori_ok (name : instruction.name = .rori) (h : encodeRori instruction = .ok w) :
    Encodes labels instruction w := by
  unfold encodeRori at h
  split at h
  case h_2 => cases h
  case h_1 rd rs immediate operands =>
    obtain ⟨i, j, rd, rs, rfl, rfl, h, hd, hs⟩ := twoRegisters_ok h
    obtain ⟨n, hn, h⟩ := Except.bind_eq_ok h
    obtain ⟨value, x, rfl, rfl, _, hx⟩ := unsignedImmediate_ok hn (by omega)
    cases h
    refine ⟨.compute (.rori rd rs x), by simp, ?_, ?_⟩
    · simp (disch := omega) only [Instr.word, Compute.word, toNat_or, toNat_place]
      rfl
    · unfold meaning
      rw [name, operands]
      simp only [hd, hs, hx, Instr.opCode, Instr.operands, Compute.opCode, Compute.operands]

/-- The word of `St`. -/
lemma encodeSt_ok (name : instruction.name = .st) (h : encodeSt instruction = .ok w) :
    Encodes labels instruction w := by
  unfold encodeSt at h
  split at h
  case h_2 => cases h
  case h_1 rt address operands =>
    obtain ⟨a, ha, h⟩ := Except.bind_eq_ok h
    obtain ⟨parts, hp, h⟩ := Except.bind_eq_ok h
    obtain ⟨i, rt, rfl, rfl, ht⟩ := registerIndex_ok ha
    obtain ⟨j, value, base, x, rfl, rfl, hb, hx⟩ := memoryAddress_ok hp (by omega)
    cases h
    refine ⟨.st rt base x, by simp, ?_, ?_⟩
    · simp (disch := omega) only [Instr.word, toNat_or, toNat_place]
      rfl
    · unfold meaning
      rw [name, operands]
      simp only [ht, hb, hx, Instr.opCode, Instr.operands]

/-- The word of `Stp`. -/
lemma encodeStp_ok (name : instruction.name = .stp) (h : encodeStp instruction = .ok w) :
    Encodes labels instruction w := by
  unfold encodeStp at h
  split at h
  case h_2 => cases h
  case h_1 rt1 rt2 address operands =>
    obtain ⟨i, k, rt1, rt2, rfl, rfl, h, h1, h2⟩ := twoRegisters_ok h
    obtain ⟨parts, hp, h⟩ := Except.bind_eq_ok h
    obtain ⟨j, value, base, x, rfl, rfl, hb, hx⟩ := memoryAddress_ok hp (by omega)
    cases h
    refine ⟨.stp rt1 rt2 base x, by simp, ?_, ?_⟩
    · simp (disch := omega) only [Instr.word, toNat_or, toNat_place]
      rfl
    · unfold meaning
      rw [name, operands]
      simp only [h1, h2, hb, hx, Instr.opCode, Instr.operands]

/-- The kind of the offset selects one of the two loads. -/
lemma encodeLd_ok (name : instruction.name = .ld) (h : encodeLd instruction = .ok w) :
    Encodes labels instruction w := by
  unfold encodeLd at h
  split at h
  case h_2 => cases h
  case h_1 rt address operands =>
    obtain ⟨a, ha, h⟩ := Except.bind_eq_ok h
    obtain ⟨⟨base, offset⟩, hp, h⟩ := Except.bind_eq_ok h
    obtain ⟨b, hb, h⟩ := Except.bind_eq_ok h
    obtain ⟨i, rt, rfl, rfl, ht⟩ := registerIndex_ok ha
    obtain rfl := addressParts_ok hp
    obtain ⟨j, base, rfl, rfl, hbase⟩ := registerIndex_ok hb
    cases offset with
    | integer value =>
      obtain ⟨n, hn, h⟩ := Except.bind_eq_ok h
      obtain ⟨value, x, e, rfl, hx⟩ := signedImmediate_ok hn (by omega)
      cases e
      cases h
      refine ⟨.compute (.ldImm rt base x), by simp, ?_, ?_⟩
      · simp (disch := omega) only [Instr.word, Compute.word, toNat_or, toNat_place]
        rfl
      · unfold meaning
        rw [name, operands]
        simp only [ht, hbase, hx, Instr.opCode, Instr.operands, Compute.opCode, Compute.operands]
    | register index =>
      obtain ⟨n, hn, h⟩ := Except.bind_eq_ok h
      obtain ⟨k, rm, e, rfl, hm⟩ := registerIndex_ok hn
      cases e
      cases h
      refine ⟨.compute (.ldReg rt base rm), by simp, ?_, ?_⟩
      · simp (disch := omega) only [Instr.word, Compute.word, toNat_or, toNat_place]
        rfl
      · unfold meaning
        rw [name, operands]
        simp only [ht, hbase, hm, Instr.opCode, Instr.operands, Compute.opCode, Compute.operands]
    | symbol => cases h
    | string => cases h
    | array => cases h
    | other => cases h

/-- A jump target is a label of the text section at a multiple of 4. -/
lemma encodeJ_ok (name : instruction.name = .j) (h : encodeJ labels instruction = .ok w) :
    Encodes labels instruction w := by
  unfold encodeJ at h
  split at h
  case h_2 => cases h
  case h_1 label operands =>
    obtain ⟨address, ha, h⟩ := Except.bind_eq_ok h
    obtain ⟨u, _, h⟩ := Except.bind_eq_ok h
    obtain ⟨n, hn, h⟩ := Except.bind_eq_ok h
    obtain ⟨target, info, rfl, found, _, rfl⟩ := labelAddress_ok ha
    obtain ⟨value, x, e, rfl, _, hx⟩ := unsignedImmediate_ok hn (by omega)
    cases e
    cases h
    refine ⟨.j x, by simp, ?_, ?_⟩
    · simp (disch := omega) only [Instr.word, toNat_or, toNat_place]
      rfl
    · have quarter : info.offset >>> (2 : Nat) = info.offset / 4 := Int.shiftRight_eq_div_pow _ _
      rw [quarter] at hx
      unfold meaning
      rw [name, operands]
      simp only [found, Option.map_some, hx, Instr.opCode, Instr.operands]

/-- A branch target is an offset in words, or a label. -/
lemma branchOffset_ok {target n} (h : branchOffset labels target instruction = .ok n) :
    ∃ x : BitVec 16, n = x.toNat ∧
      ((∃ value, target = .integer value ∧ imm value = ⟨.immediate, x.signExtend 32⟩) ∨
        ∃ label info, target = .symbol label ∧ labels label = some info ∧
          imm ((info.offset - instruction.pc) / 4) = ⟨.immediate, x.signExtend 32⟩) := by
  unfold branchOffset at h
  split at h
  case h_1 value =>
    obtain ⟨value, x, e, rfl, hx⟩ := signedImmediate_ok h (by omega)
    cases e
    exact ⟨x, rfl, .inl ⟨value, rfl, hx⟩⟩
  case h_2 =>
    obtain ⟨address, ha, h⟩ := Except.bind_eq_ok h
    obtain ⟨u, _, h⟩ := Except.bind_eq_ok h
    obtain ⟨label, info, rfl, found, _, rfl⟩ := labelAddress_ok ha
    obtain ⟨value, x, e, rfl, hx⟩ := signedImmediate_ok h (by omega)
    cases e
    exact ⟨x, rfl, .inr ⟨label, info, rfl, found, hx⟩⟩

/-- The word of `Beq`. -/
lemma encodeBeq_ok (name : instruction.name = .beq) (h : encodeBeq labels instruction = .ok w) :
    Encodes labels instruction w := by
  unfold encodeBeq at h
  split at h
  case h_2 => cases h
  case h_1 rs rt target operands =>
    obtain ⟨i, j, rs, rt, rfl, rfl, h, hs, ht⟩ := twoRegisters_ok h
    obtain ⟨n, hn, h⟩ := Except.bind_eq_ok h
    obtain ⟨x, rfl, targets⟩ := branchOffset_ok hn
    cases h
    refine ⟨.beq rs rt x, by simp, ?_, ?_⟩
    · simp (disch := omega) only [Instr.word, toNat_or, toNat_place]
      rfl
    · obtain ⟨value, rfl, hx⟩ | ⟨label, info, rfl, found, hx⟩ := targets
      · unfold meaning
        rw [name, operands]
        simp only [hs, ht, hx, Instr.opCode, Instr.operands]
      · unfold meaning
        rw [name, operands]
        simp only [found, Option.map_some, hs, ht, hx, Instr.opCode, Instr.operands]

/-- The word of `Syscall`. -/
lemma encodeSyscall_ok (name : instruction.name = .syscall)
    (h : encodeSyscall instruction = .ok w) : Encodes labels instruction w := by
  unfold encodeSyscall at h
  split at h
  case h_2 => cases h
  case h_1 operands =>
    cases h
    refine ⟨.syscall 0, by simp, by decide, ?_⟩
    unfold meaning
    rw [name, operands]
    rfl

/-- The word of `Flush`. -/
lemma encodeFlush_ok (name : instruction.name = .flush) (h : encodeFlush instruction = .ok w) :
    Encodes labels instruction w := by
  unfold encodeFlush at h
  split at h
  case h_2 => cases h
  case h_1 operands =>
    cases h
    refine ⟨.flush, by simp, by decide, ?_⟩
    unfold meaning
    rw [name, operands]
    rfl

/-- A word that the encoder returns is the word of an instruction with the meaning of the source. -/
theorem encode_ok (h : encode labels instruction = .ok w) : Encodes labels instruction w := by
  unfold encode at h
  cases name : instruction.name <;> rw [name] at h
  case add => exact encodeAdd_ok name h
  case addi => exact encodeAddi_ok name h
  case or => exact encodeOr_ok name h
  case ld => exact encodeLd_ok name h
  case st => exact encodeSt_ok name h
  case beq => exact encodeBeq_ok name h
  case j => exact encodeJ_ok name h
  case clz => exact encodeClz_ok name h
  case ssat => exact encodeSsat_ok name h
  case syscall => exact encodeSyscall_ok name h
  case bext => exact encodeBext_ok name h
  case li => exact encodeLi_ok name h
  case rori => exact encodeRori_ok name h
  case stp => exact encodeStp_ok name h
  case flush => exact encodeFlush_ok name h

end

end Encoder

end ToyIsa.Asm
