import ToyIsa.Isa.Table
import ToyIsa.Lib.Fields

/-!
# The word of an instruction

`Instr.word` puts the fields of an instruction at their places. `decode_word` says that the decoder
reads them back, and `word_of_decode` that a word with operands is the word of its instruction.
-/

namespace ToyIsa

open TIDecoder BitVec

def Compute.word : Compute → Word
  | .li rt imm => 0x2C000000 ||| place 32 rt 16 ||| place 32 imm 0
  | .add rd rs rt => place 32 rs 21 ||| place 32 rt 16 ||| place 32 rd 11 ||| 0x0000000C
  | .addi rt rs imm => 0x5C000000 ||| place 32 rs 21 ||| place 32 rt 16 ||| place 32 imm 0
  | .or rd rs rt => place 32 rs 21 ||| place 32 rt 16 ||| place 32 rd 11 ||| 0x0000001A
  | .ldReg rt base rm =>
    0x0C000000 ||| place 32 base 21 ||| place 32 rt 16 ||| 0x0000C000 ||| place 32 rm 0
  | .ldImm rt base imm => 0xCC000000 ||| place 32 base 21 ||| place 32 rt 16 ||| place 32 imm 0
  | .clz rd rs => place 32 rd 21 ||| place 32 rs 16 ||| 0x00000032
  | .ssat rd rs width => 0x20000000 ||| place 32 rd 21 ||| place 32 rs 16 ||| place 32 width 11
  | .rori rd rs shift => 0x74000000 ||| place 32 rd 21 ||| place 32 rs 16 ||| place 32 shift 11
  | .bext rd rs1 rs2 => place 32 rd 21 ||| place 32 rs1 16 ||| place 32 rs2 11 ||| 0x00000034

/-- The word of a valid instruction. -/
def Instr.word : Instr → Word
  | .compute op => op.word
  | .st rt base imm => 0x80000000 ||| place 32 base 21 ||| place 32 rt 16 ||| place 32 imm 0
  | .stp rt1 rt2 base offset =>
    0x54000000 ||| place 32 base 21 ||| place 32 rt1 16 ||| place 32 rt2 11 ||| place 32 offset 0
  | .flush => 0x98000000
  | .beq rs rt offset => 0x40000000 ||| place 32 rs 21 ||| place 32 rt 16 ||| place 32 offset 0
  | .j index => 0xFC000000 ||| place 32 index 0
  | .syscall code => 0x0000001E ||| place 32 code 6
  | .invalid => 0

/-- A word that matches a row is decoded by its handler. -/
lemma decode_of_row {info : DecodeInfo} {word} (mem : info ∈ decodeVector)
    (fixed : word &&& info.mask = info.reference) :
    decode word = withHandler (info.handler word) := by
  have found := List.find?_eq_some_of_unique (length_matching_le_one word) mem
    (beq_iff_eq.mpr fixed)
  unfold decode
  rw [found]
  rfl

/-- The row of the table for an instruction. -/
def Instr.row : Instr → DecodeInfo
  | .compute (.li ..) => ⟨.li, 0xFFE00000, 0x2C000000, decodeLi⟩
  | .compute (.add ..) => ⟨.add, 0xFC0007FF, 0x0000000C, decodeAdd⟩
  | .compute (.addi ..) => ⟨.addi, 0xFC000000, 0x5C000000, decodeAddi⟩
  | .compute (.or ..) => ⟨.or, 0xFC0007FF, 0x0000001A, decodeOr⟩
  | .compute (.ldReg ..) => ⟨.ldReg, 0xFC00FFE0, 0x0C00C000, decodeLdReg⟩
  | .compute (.ldImm ..) => ⟨.ldImm, 0xFC00C000, 0xCC000000, decodeLdImm⟩
  | .compute (.clz ..) => ⟨.clz, 0xFC00FFFF, 0x00000032, decodeClz⟩
  | .compute (.ssat ..) => ⟨.ssat, 0xFC0007FF, 0x20000000, decodeSsat⟩
  | .compute (.rori ..) => ⟨.rori, 0xFC0007FF, 0x74000000, decodeRori⟩
  | .compute (.bext ..) => ⟨.bext, 0xFC0007FF, 0x00000034, decodeBext⟩
  | .st .. => ⟨.st, 0xFC00C000, 0x80000000, decodeSt⟩
  | .stp .. => ⟨.stp, 0xFC000000, 0x54000000, decodeStp⟩
  | .flush | .invalid => ⟨.flush, 0xFC000000, 0x98000000, decodeFlush⟩
  | .beq .. => ⟨.beq, 0xFC000000, 0x40000000, decodeBeq⟩
  | .j .. => ⟨.j, 0xFC000000, 0xFC000000, decodeJ⟩
  | .syscall .. => ⟨.syscall, 0xFC00003F, 0x0000001E, decodeSyscall⟩

/-- The row of an instruction is in the table. -/
lemma Instr.row_mem (i : Instr) : i.row ∈ decodeVector := by
  cases i with
  | compute op => cases op <;> simp [row, decodeVector]
  | _ => simp [row, decodeVector]

/-- The word of an instruction matches its row. -/
lemma Instr.word_and_mask {i : Instr} (valid : i ≠ .invalid) :
    i.word &&& i.row.mask = i.row.reference := by
  cases i with
  | invalid => exact absurd rfl valid
  | compute op =>
    cases op <;> simp (disch := decide) [word, Compute.word, row, and_or_distrib_right, place_and]
  | _ => simp (disch := decide) [word, row, and_or_distrib_right, place_and]

/-- The handler reads the fields back. -/
lemma Instr.handler_word {i : Instr} (valid : i ≠ .invalid) :
    withHandler (i.row.handler i.word) = i.toTI := by
  cases i with
  | invalid => exact absurd rfl valid
  | compute op =>
    cases op <;> simp (disch := omega) [word, Compute.word, row, decodeLi_eq, decodeAdd_eq,
      decodeAddi_eq, decodeOr_eq, decodeLdReg_eq, decodeLdImm_eq, decodeClz_eq, decodeSsat_eq,
      decodeRori_eq, decodeBext_eq, extractLsb'_or, extractLsb'_place, extractLsb'_place_disjoint]
  | _ =>
    simp (disch := omega) [word, row, decodeSt_eq, decodeStp_eq, decodeFlush_eq, decodeBeq_eq,
      decodeJ_eq, decodeSyscall_eq, extractLsb'_or, extractLsb'_place, extractLsb'_place_disjoint]

/-- The decoder reads the fields of an instruction back from its word. -/
theorem decode_word {i : Instr} (valid : i ≠ .invalid) : decode i.word = i.toTI := by
  rw [decode_of_row i.row_mem (i.word_and_mask valid), i.handler_word valid]

/-- A word that decodes to an instruction with operands is the word of the instruction. -/
theorem word_of_decode {word} {i : Instr} (h : decode word = i.toTI) (valid : i.opCode ≠ .invalid)
    (nf : i.opCode ≠ .flush) : word = i.word := by
  have ne : i ≠ .invalid := by
    rintro rfl
    exact valid rfl
  have back := decode_word ne
  apply word_eq_of_decode
  · rw [h, back]
  · rw [h]
    exact valid
  · rw [h]
    exact nf
  · rw [h, back]

end ToyIsa
