import ToyIsa.Assembler.Meaning
import ToyIsa.Assembler.Program
import ToyIsa.Isa.Exec

/-!
# Labels and places

What the calls of a source file say about its labels and instructions, and that the assembler and
the two passes over the labels agree with it. `Assembled` is the invariant of the calls;
`label_resolution` follows a reference to a label from its call to the executed word.
-/

namespace ToyIsa.Asm

open BitVec TIDecoder

/-- The instruction of a call. -/
def Call.instruction? : Call → Option (Mnemonic × List RubyValue × Nat)
  | .instruction name operands line => some (name, operands, line)
  | _ => none

/-- The section a call opens. -/
def Call.section? : Call → Option Section
  | .sect name => sectionOf name
  | _ => none

def Call.bytes? : Call → List Byte
  | .bytes (.string content) => content
  | _ => []

/-- The instruction calls, in order. -/
def instructionCalls (calls : List Call) : List (Mnemonic × List RubyValue × Nat) :=
  calls.filterMap Call.instruction?

/-- The section that is open after some calls. -/
def sectionAfter (calls : List Call) : Option Section := (calls.filterMap Call.section?).getLast?

/-- What a label is bound to after some calls. -/
def labelAfter (calls : List Call) : Option LabelInfo :=
  (sectionAfter calls).map fun sect =>
    let offset :=
      if sect = .text then 4 * (instructionCalls calls).length
      else (calls.flatMap Call.bytes?).length
    { sect := sect, offset := offset }

/-- A `Label` call of the source binds `name` to `info`. -/
def Defines (source : List Call) (name : String) (info : LabelInfo) : Prop :=
  ∃ before after, source = before ++ .label (.symbol name) :: after ∧ labelAfter before = some info

/-- The instruction of call `i`, at its address. -/
def placed (i : Nat) (call : Mnemonic × List RubyValue × Nat) : Instruction :=
  ⟨call.1, call.2.1, 4 * i, call.2.2⟩

/-- The assembler after some calls. -/
structure Assembled (done : List Call) (a : Assembler) : Prop where
  currentSection : a.currentSection = sectionAfter done
  textOffset : a.textOffset = 4 * (instructionCalls done).length
  instructions : a.instructions = (instructionCalls done).mapIdx placed
  data : a.data = done.flatMap Call.bytes?
  labels : ∀ name info, a.labels name = some info ↔ Defines done name info

section

variable {done : List Call} {c : Call}

/-- The instruction calls after one more call. -/
@[simp] lemma instructionCalls_concat :
    instructionCalls (done ++ [c]) = instructionCalls done ++ c.instruction?.toList := by
  unfold instructionCalls
  cases h : c.instruction? <;> simp [h]

/-- The open section after one more call. -/
@[simp] lemma sectionAfter_concat :
    sectionAfter (done ++ [c]) = c.section?.or (sectionAfter done) := by
  unfold sectionAfter
  cases h : c.section? <;> simp [h]

/-- A call defines the labels of the calls before it and its own. -/
lemma defines_concat {name info} :
    Defines (done ++ [c]) name info ↔
      Defines done name info ∨ c = .label (.symbol name) ∧ labelAfter done = some info := by
  constructor
  · rintro ⟨before, after, split, found⟩
    rcases List.eq_nil_or_concat after with rfl | ⟨front, last, rfl⟩
    · obtain ⟨rfl, e⟩ := List.append_inj' split rfl
      cases e
      exact .inr ⟨rfl, found⟩
    · rw [List.concat_eq_append, ← List.cons_append, ← List.append_assoc] at split
      obtain ⟨rfl, -⟩ := List.append_inj' split rfl
      exact .inl ⟨before, front, rfl, found⟩
  · rintro (⟨before, after, rfl, found⟩ | ⟨rfl, found⟩)
    · exact ⟨before, after ++ [c], by simp, found⟩
    · exact ⟨done, [], rfl, found⟩

/-- Other calls than `Label` bind nothing. -/
lemma defines_concat_of_ne {name info} (ne : ∀ name, c ≠ .label (.symbol name)) :
    Defines (done ++ [c]) name info ↔ Defines done name info := by
  rw [defines_concat]
  constructor
  · rintro (h | ⟨e, -⟩)
    · exact h
    · exact absurd e (ne name)
  · exact .inl

/-- Nothing is assembled at the start. -/
lemma assembled_nil : Assembled [] {} where
  currentSection := rfl
  textOffset := rfl
  instructions := rfl
  data := rfl
  labels name info := by
    constructor
    · intro h
      cases h
    · rintro ⟨before, after, h, -⟩
      cases before <;> cases h

namespace Assembled

variable {a a' : Assembler}

/-- A call without an instruction keeps the places of the instructions. -/
lemma places (inv : Assembled done a) (other : c.instruction? = none) :
    a.textOffset = 4 * (instructionCalls (done ++ [c])).length ∧
      a.instructions = (instructionCalls (done ++ [c])).mapIdx placed := by
  rw [instructionCalls_concat, other, Option.toList_none, List.append_nil]
  exact ⟨inv.textOffset, inv.instructions⟩

/-- The invariant after a `Section` call. -/
lemma openSection {name} (inv : Assembled done a) (h : a.openSection name = .ok a') :
    Assembled (done ++ [.sect name]) a' := by
  unfold Assembler.openSection at h
  cases known : sectionOf name with
  | none =>
    rw [known] at h
    cases h
  | some sect =>
    rw [known] at h
    dsimp only at h
    split at h
    case isTrue => cases h
    case isFalse =>
      cases h
      have opened : Call.section? (.sect name) = some sect := known
      exact {
        currentSection := by rw [sectionAfter_concat, opened]; rfl
        textOffset := (inv.places rfl).1
        instructions := (inv.places rfl).2
        data := by simpa [Call.bytes?] using inv.data
        labels := fun l info => by
          rw [defines_concat_of_ne (by simp)]
          exact inv.labels l info }

/-- The invariant after a `Label` call. -/
lemma defineLabel {name} (inv : Assembled done a) (h : a.defineLabel name = .ok a') :
    Assembled (done ++ [.label (.symbol name)]) a' := by
  unfold Assembler.defineLabel at h
  split at h
  case h_1 => cases h
  case h_2 sect current =>
    split at h
    case h_1 => cases h
    case h_2 fresh =>
      cases h
      have here : labelAfter done =
          some ⟨sect, (if sect = .text then a.textOffset else a.data.length : Nat)⟩ := by
        unfold labelAfter
        rw [← inv.currentSection, current, inv.textOffset, inv.data]
        rfl
      exact {
        currentSection := by
          rw [sectionAfter_concat]
          exact inv.currentSection
        textOffset := (inv.places rfl).1
        instructions := (inv.places rfl).2
        data := by simpa [Call.bytes?] using inv.data
        labels := fun l info => by
          rw [defines_concat, here]
          -- only the new label is affected, and it was not defined before
          by_cases e : l = name
          · subst e
            have undefined : ¬ Defines done l info := by
              rw [← inv.labels, fresh]
              simp
            simp [undefined]
          · have ne : Call.label (.symbol name) ≠ .label (.symbol l) := by
              simpa using Ne.symm e
            simp [e, ne, inv.labels] }

/-- The invariant after a `Bytes` call. -/
lemma bytes {value} (inv : Assembled done a) (h : a.call (.bytes value) = .ok a') :
    Assembled (done ++ [.bytes value]) a' := by
  obtain ⟨u, -, h⟩ := Except.bind_eq_ok h
  cases value with
  | string bytes =>
    cases h
    exact {
      currentSection := by
        rw [sectionAfter_concat]
        exact inv.currentSection
      textOffset := (inv.places rfl).1
      instructions := (inv.places rfl).2
      data := by simp [Call.bytes?, inv.data]
      labels := fun l info => by
        rw [defines_concat_of_ne (by simp)]
        exact inv.labels l info }
  | _ => cases h

/-- The invariant after an instruction call. -/
lemma instruction {name operands line} (inv : Assembled done a)
    (h : a.call (.instruction name operands line) = .ok a') :
    Assembled (done ++ [.instruction name operands line]) a' := by
  obtain ⟨u, -, h⟩ := Except.bind_eq_ok h
  cases h
  exact {
    currentSection := by
      rw [sectionAfter_concat]
      exact inv.currentSection
    textOffset := by
      have := inv.textOffset
      simp [Call.instruction?, Assembler.makeInstruction, Assembler.instructionSize]
      omega
    instructions := by
      simp [Call.instruction?, Assembler.makeInstruction, List.mapIdx_append, placed,
        inv.instructions, inv.textOffset]
    data := by simpa [Call.bytes?, Assembler.makeInstruction] using inv.data
    labels := fun l info => by
      rw [defines_concat_of_ne (by simp)]
      exact inv.labels l info }

/-- The invariant after any call. -/
lemma call (inv : Assembled done a) (h : a.call c = .ok a') : Assembled (done ++ [c]) a' := by
  cases c with
  | sect name => exact inv.openSection h
  | label name =>
    cases name with
    | symbol name => exact inv.defineLabel h
    | _ => cases h
  | bytes value => exact inv.bytes h
  | instruction name operands line => exact inv.instruction h

/-- The invariant after all calls. -/
lemma calls {rest : List Call} : ∀ {done a}, Assembled done a → a.calls rest = .ok a' →
    Assembled (done ++ rest) a' := by
  induction rest with
  | nil =>
    intro done a inv h
    cases h
    rwa [List.append_nil]
  | cons c rest ih =>
    intro done a inv h
    obtain ⟨b, hb, h⟩ := Except.bind_eq_ok h
    rw [List.append_cons]
    exact ih (inv.call hb) h

end Assembled

end

/-- The assembler of a source file that assembles. -/
lemma assemble_ok {source a words} (h : assemble source = .ok (a, words)) :
    Assembled source a ∧ encodeAll a.labels a.instructions = .ok words := by
  obtain ⟨a', called, h⟩ := Except.bind_eq_ok h
  obtain ⟨words', encoded, h⟩ := Except.bind_eq_ok h
  cases h
  exact ⟨assembled_nil.calls called, encoded⟩

/-- Each word is that of the instruction at its place. -/
lemma encodeAll_ok {labels is words} (h : encodeAll labels is = .ok words) :
    List.Forall₂ (fun i w => Encoder.encode labels i = .ok w) is words := by
  induction is generalizing words with
  | nil =>
    cases h
    exact .nil
  | cons i is ih =>
    obtain ⟨w, hw, h⟩ := Except.bind_eq_ok h
    obtain ⟨ws, hws, h⟩ := Except.bind_eq_ok h
    cases h
    exact .cons hw (ih hws)

/-- The word of each instruction call. -/
lemma word_of_call {source a words} (h : assemble source = .ok (a, words)) :
    words.length = (instructionCalls source).length ∧
      ∀ i call, (instructionCalls source)[i]? = some call →
        ∃ w, words[i]? = some w ∧ Encoder.encode a.labels (placed i call) = .ok w := by
  obtain ⟨inv, encoded⟩ := assemble_ok h
  have each := encodeAll_ok encoded
  rw [inv.instructions] at each
  have count : words.length = (instructionCalls source).length := by
    rw [← each.length_eq, List.length_mapIdx]
  refine ⟨count, fun i call found => ?_⟩
  obtain ⟨hi, rfl⟩ := List.getElem?_eq_some_iff.mp found
  have hw : i < words.length := by omega
  have one := each.get (by simpa using hi) hw
  rw [List.get_eq_getElem, List.getElem_mapIdx] at one
  exact ⟨words[i], List.getElem?_eq_getElem hw, one⟩

/-! ## References -/

/-- A jump or a branch to a label. -/
def RefersTo (call : Mnemonic × List RubyValue × Nat) (name : String) : Prop :=
  call.1 = .j ∧ call.2.1 = [.symbol name] ∨
    call.1 = .beq ∧ ∃ rs rt, call.2.1 = [rs, rt, .symbol name]

/-- The distance of a branch from `pc`, in words. -/
def InRange (info : LabelInfo) (pc : Int) : Prop :=
  -2 ^ 15 ≤ (info.offset - pc) / 4 ∧ (info.offset - pc) / 4 < 2 ^ 15

section

variable {labels : Labels} {call : Mnemonic × List RubyValue × Nat} {name : String} {i w : Nat}

/-- A label that a branch refers to is bound, in text and in range. -/
lemma branchOffset_label {instruction n}
    (h : Encoder.branchOffset labels (.symbol name) instruction = .ok n) :
    ∃ info, labels name = some info ∧ info.sect = .text ∧ InRange info instruction.pc := by
  obtain ⟨address, ha, h⟩ := Except.bind_eq_ok h
  obtain ⟨u, _, h⟩ := Except.bind_eq_ok h
  obtain ⟨_, info, e, found, text, rfl⟩ := Encoder.labelAddress_ok ha
  cases e
  unfold Encoder.signedImmediate at h
  dsimp only at h
  split at h
  case isFalse => cases h
  case isTrue fits =>
    have : (2 : Int) ^ (16 - 1) = 2 ^ 15 := rfl
    exact ⟨info, found, text, by omega, by omega⟩

/-- A reference that is encoded is to a label of the text section, and not too far. -/
lemma reference_ok (refers : RefersTo call name)
    (h : Encoder.encode labels (placed i call) = .ok w) :
    ∃ info, labels name = some info ∧ info.sect = .text ∧
      (call.1 = .beq → InRange info (4 * i)) := by
  obtain ⟨mnemonic, operands, line⟩ := call
  obtain ⟨rfl, rfl⟩ | ⟨rfl, rs, rt, rfl⟩ : mnemonic = .j ∧ operands = [.symbol name] ∨
    mnemonic = .beq ∧ ∃ rs rt, operands = [rs, rt, .symbol name] := refers
  · obtain ⟨address, ha, -⟩ := Except.bind_eq_ok h
    obtain ⟨_, info, e, found, text, -⟩ := Encoder.labelAddress_ok ha
    cases e
    exact ⟨info, found, text, by simp⟩
  · obtain ⟨_, _, h⟩ := Except.bind_eq_ok h
    obtain ⟨_, _, h⟩ := Except.bind_eq_ok h
    obtain ⟨_, offset, -⟩ := Except.bind_eq_ok h
    obtain ⟨info, found, text, range⟩ := branchOffset_label offset
    exact ⟨info, found, text, fun _ => range⟩

end

/-- A text label lies at an instruction of the source, or at its end. -/
lemma Defines.text {source name info} (h : Defines source name info) (text : info.sect = .text) :
    ∃ n ≤ (instructionCalls source).length, info.offset = 4 * (n : Nat) := by
  obtain ⟨before, after, rfl, found⟩ := h
  obtain ⟨sect, _, rfl⟩ := Option.map_eq_some_iff.mp found
  subst text
  refine ⟨(instructionCalls before).length, ?_, ?_⟩
  · unfold instructionCalls
    rw [List.filterMap_append, List.length_append]
    omega
  · push_cast
    rfl

/-! ## Execution -/

section

variable {σ : Type} [Host σ] {c : ExecutionContext σ} {labels : Labels} {name : String}
variable {line i w : Nat} {info : LabelInfo}

/-- The high bits of a low address. -/
lemma and_high_of_lt {pc : Word} (h : pc.toNat < 2 ^ 28) : pc &&& 0xF0000000 = 0 := by
  apply eq_of_toNat_eq
  rw [toNat_and]
  apply Nat.eq_of_testBit_eq
  intro k
  have mask : (0xF0000000 : Word).toNat = 15 <<< 28 := by decide
  rw [Nat.testBit_and, mask, Nat.testBit_shiftLeft]
  by_cases hk : 28 ≤ k
  · have low : pc.toNat < 2 ^ k := Nat.lt_of_lt_of_le h (Nat.pow_le_pow_right (by omega) hk)
    rw [Nat.testBit_lt_two_pow low]
    simp
  · simp [hk]

/-- The decoded word of a jump to a label. -/
lemma decode_jump (h : Encoder.encode labels (placed i (.j, [.symbol name], line)) = .ok w)
    (found : labels name = some info) :
    ∃ index : BitVec 26, decode (.ofNat 32 w) = (Instr.j index).toTI ∧
      BitVec.ofInt 32 (info.offset / 4) = index.setWidth 32 := by
  obtain ⟨instr, valid, rfl, means⟩ := Encoder.encode_ok h
  have here : meaning labels (placed i (.j, [.symbol name], line)) =
      some (.j, [imm (info.offset / 4)]) := by
    simp only [meaning, placed, found, Option.map_some]
  rw [here] at means
  rw [ofNat_toNat, setWidth_eq, decode_word valid]
  cases instr with
  | j index =>
    simp [Instr.opCode, Instr.operands, imm] at means
    exact ⟨index, rfl, means⟩
  | compute op => cases op <;> simp [Instr.opCode, Compute.opCode] at means
  | _ => simp [Instr.opCode] at means

/-- The decoded word of a branch to a label. -/
lemma decode_branch {rs rt : Int}
    (h : Encoder.encode labels
      (placed i (.beq, [.register rs, .register rt, .symbol name], line)) = .ok w)
    (found : labels name = some info) :
    ∃ offset : BitVec 16,
      decode (.ofNat 32 w) = (Instr.beq (.ofInt 5 rs) (.ofInt 5 rt) offset).toTI ∧
      BitVec.ofInt 32 ((info.offset - 4 * i) / 4) = offset.signExtend 32 := by
  obtain ⟨instr, valid, rfl, means⟩ := Encoder.encode_ok h
  have here : meaning labels (placed i (.beq, [.register rs, .register rt, .symbol name], line)) =
      some (.beq, [reg rs, reg rt, imm ((info.offset - 4 * i) / 4)]) := by
    simp only [meaning, placed, found, Option.map_some]
  rw [here] at means
  rw [ofNat_toNat, setWidth_eq, decode_word valid]
  have low {r : Reg} {n : Int} (e : BitVec.ofInt 32 n = r.setWidth 32) : r = .ofInt 5 n := by
    apply eq_of_toNat_eq
    have := congrArg BitVec.toNat e
    rw [toNat_ofInt, toNat_setWidth] at this
    have := r.isLt
    rw [toNat_ofInt]
    omega
  cases instr with
  | beq r s offset =>
    simp [Instr.opCode, Instr.operands, imm, reg, Reg.operand] at means
    obtain ⟨hr, hs, offset⟩ := means
    rw [← low hr, ← low hs]
    exact ⟨_, rfl, offset⟩
  | compute op => cases op <;> simp [Instr.opCode, Compute.opCode] at means
  | _ => simp [Instr.opCode] at means

/-- A jump to a label goes to it. -/
lemma execute_jump {n : Nat}
    (h : Encoder.encode labels (placed i (.j, [.symbol name], line)) = .ok w)
    (found : labels name = some info) (offset : info.offset = 4 * n) (hn : 4 * n < 2 ^ 28)
    (hi : 4 * i < 2 ^ 28) (pc : c.cpu.pc = .ofNat 32 (4 * i)) :
    ∃ d, executeInstructionSwitch (decode (.ofNat 32 w)) c = .ok () d ∧ d.cpu.pc.toNat = 4 * n := by
  obtain ⟨index, decoded, e⟩ := decode_jump h found
  have quarter : info.offset / 4 = n := by omega
  have same : (index.setWidth 32).toNat = n := by
    rw [← e, quarter, toNat_ofInt]
    omega
  have high : c.cpu.pc &&& 0xF0000000 = 0#32 := by
    apply and_high_of_lt
    rw [pc, toNat_ofNat]
    omega
  rw [decoded, executeInstructionSwitch_toTI]
  refine ⟨_, rfl, ?_⟩
  show ((c.cpu.pc &&& 0xF0000000) ||| (index.setWidth 32 * TI32.instructionSize)).toNat = 4 * n
  rw [high, BitVec.zero_or, toNat_mul, same]
  show n * 4 % 2 ^ 32 = 4 * n
  omega

/-- A taken branch to a label goes to it. -/
lemma execute_branch {n : Nat} {rs rt : Int}
    (h : Encoder.encode labels
      (placed i (.beq, [.register rs, .register rt, .symbol name], line)) = .ok w)
    (found : labels name = some info) (offset : info.offset = 4 * n) (hn : 4 * n < 2 ^ 32)
    (pc : c.cpu.pc = .ofNat 32 (4 * i)) (eq : c.reg (.ofInt 5 rs) = c.reg (.ofInt 5 rt)) :
    ∃ d, executeInstructionSwitch (decode (.ofNat 32 w)) c = .ok () d ∧ d.cpu.pc.toNat = 4 * n := by
  obtain ⟨distance, decoded, e⟩ := decode_branch h found
  have quarter : (info.offset - 4 * i) / 4 = (n : Int) - i := by omega
  rw [decoded, executeInstructionSwitch_toTI]
  refine ⟨_, rfl, ?_⟩
  show (if c.reg (.ofInt 5 rs) = c.reg (.ofInt 5 rt) then
    c.cpu.pc + distance.signExtend 32 * TI32.instructionSize
    else c.cpu.pc + TI32.instructionSize).toNat = 4 * n
  rw [if_pos eq, ← e, quarter, pc]
  have target : BitVec.ofNat 32 (4 * i) + BitVec.ofInt 32 (n - i) * TI32.instructionSize =
      BitVec.ofNat 32 (4 * n) := by
    have size : TI32.instructionSize = BitVec.ofInt 32 4 := rfl
    rw [size, ← ofInt_natCast, ← ofInt_natCast, ← ofInt_mul, ← ofInt_add]
    congr 1
    push_cast
    omega
  rw [target, toNat_ofNat, Nat.mod_eq_of_lt hn]

end

/-! ## The text section -/

/-- Each word is four bytes. -/
@[simp] lemma length_pack (words : List Nat) : (pack words).length = 4 * words.length := by
  induction words with
  | nil => rfl
  | cons w words ih =>
    show (encodeLittleEndianWord (.ofNat 32 w) ++ pack words).length = 4 * (words.length + 1)
    rw [List.length_append, ih]
    show 4 + 4 * words.length = 4 * (words.length + 1)
    omega

/-- The four bytes of word `i`. -/
lemma slice_pack {words : List Nat} {i w} (h : words[i]? = some w) :
    Store.slice (pack words) (4 * i) 4 = encodeLittleEndianWord (.ofNat 32 w) := by
  induction words generalizing i with
  | nil => simp at h
  | cons v words ih =>
    have split : pack (v :: words) = encodeLittleEndianWord (.ofNat 32 v) ++ pack words := rfl
    unfold Store.slice
    cases i with
    | zero =>
      cases h
      rw [split]
      rfl
    | succ i =>
      rw [split, Nat.mul_succ, Nat.add_comm, ← List.drop_drop]
      exact ih h

/-- A machine that has the text section at address 0 fetches word `i` at `4 * i`. -/
lemma fetch_word {words : List Nat} {i w} {m : TIMemory} (h : words[i]? = some w)
    (text : Store.slice m.bytes 0 (pack words).length = pack words)
    (fits : 4 * words.length ≤ 2 ^ 32) : m.read32 (.ofNat 32 (4 * i)) = .ok (.ofNat 32 w) := by
  obtain ⟨hi, -⟩ := List.getElem?_eq_some_iff.mp h
  have inside : 4 * words.length ≤ m.size := by
    have := congrArg List.length text
    rw [Store.slice, List.length_take, List.drop_zero, length_pack] at this
    unfold TIMemory.size
    omega
  have address : (BitVec.ofNat 32 (4 * i)).toNat = 4 * i := by
    rw [toNat_ofNat]
    omega
  have bytes : Store.slice m.bytes (4 * i) TI32.wordSize =
      encodeLittleEndianWord (.ofNat 32 w) := by
    rw [← slice_pack h]
    apply Store.slice_congr
    intro j _ hj
    -- byte by byte, the section is the packed words
    have cell : (Store.slice m.bytes 0 (pack words).length)[j]? = (pack words)[j]? := by rw [text]
    rw [Store.getElem?_slice, length_pack, Nat.zero_add] at cell
    unfold TI32.wordSize at hj
    rw [← cell, if_pos (by omega)]
  rw [TIMemory.read32_eq, address, bytes, decode_encodeLittleEndianWord]
  have bounds : m.InBounds (.ofNat 32 (4 * i)) TI32.wordSize := by
    unfold TIMemory.InBounds TI32.wordSize
    omega
  have aligned : 4 * i % TI32.wordSize = 0 := Nat.mul_mod_right 4 i
  rw [if_pos bounds, if_pos aligned]

/-- Every instruction call gives the word at its place, every text label the place of its call, and
every reference to a label takes the machine there. A reference that cannot be resolved raises. -/
theorem label_resolution :
    (∀ source a words, assemble source = .ok (a, words) →
      4 * (instructionCalls source).length ≤ 64 * 1024 * 1024 →
      words.length = (instructionCalls source).length ∧
      (∀ name info, a.labels name = some info ↔ Defines source name info) ∧
      (∀ before after name, source = before ++ .label (.symbol name) :: after →
        sectionAfter before = some .text →
        a.labels name = some ⟨.text, 4 * (instructionCalls before).length⟩) ∧
      ∀ i call, (instructionCalls source)[i]? = some call →
        ∃ w, words[i]? = some w ∧ Encoder.encode a.labels (placed i call) = .ok w ∧
        (∀ m : TIMemory, Store.slice m.bytes 0 (pack words).length = pack words →
          m.read32 (.ofNat 32 (4 * i)) = .ok (.ofNat 32 w)) ∧
        ∀ name info, a.labels name = some info →
          ∀ (σ : Type) [Host σ] (c : ExecutionContext σ), c.cpu.pc = .ofNat 32 (4 * i) →
          (∀ line, call = (.j, [.symbol name], line) →
            ∃ d, executeInstructionSwitch (decode (.ofNat 32 w)) c = .ok () d ∧
              d.cpu.pc.toNat = info.offset) ∧
          ∀ rs rt line, call = (.beq, [.register rs, .register rt, .symbol name], line) →
            c.reg (.ofInt 5 rs) = c.reg (.ofInt 5 rt) →
            ∃ d, executeInstructionSwitch (decode (.ofNat 32 w)) c = .ok () d ∧
              d.cpu.pc.toNat = info.offset) ∧
    ∀ source (i : Nat) call name, (instructionCalls source)[i]? = some call → RefersTo call name →
      (∀ info, Defines source name info → info.sect = .text →
        call.1 = .beq ∧ ¬ InRange info (4 * i)) →
      (∀ a, ({} : Assembler).calls source = .ok a →
        ∃ message, Encoder.encode a.labels (placed i call) = .error message) ∧
      ∃ message, assemble source = .error message := by
  constructor
  · intro source a words h fits
    obtain ⟨inv, -⟩ := assemble_ok h
    obtain ⟨count, each⟩ := word_of_call h
    refine ⟨count, inv.labels, fun before after name split text => ?_, fun i call found => ?_⟩
    · rw [inv.labels]
      refine ⟨before, after, split, ?_⟩
      unfold labelAfter
      rw [text]
      rfl
    · obtain ⟨w, word, encoded⟩ := each i call found
      obtain ⟨hi, -⟩ := List.getElem?_eq_some_iff.mp found
      refine ⟨w, word, encoded, fun m text => fetch_word word text (by omega), ?_⟩
      intro name info bound σ _ c pc
      -- a label that a call refers to is the place of an instruction
      have place (refers : RefersTo call name) :
          ∃ n ≤ (instructionCalls source).length, info.offset = 4 * (n : Nat) := by
        obtain ⟨info', bound', text, -⟩ := reference_ok refers encoded
        rw [bound] at bound'
        cases bound'
        exact ((inv.labels name info).mp bound).text text
      constructor
      · rintro line rfl
        obtain ⟨n, hn, offset⟩ := place (.inl ⟨rfl, rfl⟩)
        obtain ⟨d, hd, pc'⟩ := execute_jump encoded bound offset (by omega) (by omega) pc
        exact ⟨d, hd, by omega⟩
      · rintro rs rt line rfl eq
        obtain ⟨n, hn, offset⟩ := place (.inr ⟨rfl, _, _, rfl⟩)
        obtain ⟨d, hd, pc'⟩ := execute_branch encoded bound offset (by omega) pc eq
        exact ⟨d, hd, by omega⟩
  · intro source i call name found refers bad
    -- whatever the other words are, this one is not encoded
    have raises a (inv : Assembled source a) w :
        Encoder.encode a.labels (placed i call) ≠ .ok w := by
      intro encoded
      obtain ⟨info, bound, text, range⟩ := reference_ok refers encoded
      obtain ⟨branch, far⟩ := bad info ((inv.labels name info).mp bound) text
      exact far (range branch)
    constructor
    · intro a called
      cases encoded : Encoder.encode a.labels (placed i call) with
      | error message => exact ⟨message, rfl⟩
      | ok w => exact absurd encoded (raises a (assembled_nil.calls called) w)
    · cases h : assemble source with
      | error message => exact ⟨message, rfl⟩
      | ok result =>
        obtain ⟨a, words⟩ := result
        obtain ⟨inv, -⟩ := assemble_ok h
        obtain ⟨w, -, encoded⟩ := (word_of_call h).2 i call found
        exact absurd encoded (raises a inv w)

/-- `Li x0, 1`, and a branch and a jump back to the label behind it. -/
def loopSource : List Call := [
  .sect (.symbol "text"),
  .instruction .li [.register 0, .integer 1] 2,
  .label (.symbol "Loop"),
  .instruction .beq [.register 0, .register 0, .symbol "Loop"] 4,
  .instruction .j [.symbol "Loop"] 5]

/-- Both references go to the second word, and a jump to a label that is not defined raises. -/
theorem label_resolution_loop :
    (∃ a words, assemble loopSource = .ok (a, words) ∧ a.labels "Loop" = some ⟨.text, 4⟩ ∧
      (∃ w, words[1]? = some w ∧ ∀ (σ : Type) [Host σ] (c : ExecutionContext σ), c.cpu.pc = 4 →
        ∃ d, executeInstructionSwitch (decode (.ofNat 32 w)) c = .ok () d ∧
          d.cpu.pc.toNat = (4 : Int)) ∧
      ∃ w, words[2]? = some w ∧ ∀ (σ : Type) [Host σ] (c : ExecutionContext σ), c.cpu.pc = 8 →
        ∃ d, executeInstructionSwitch (decode (.ofNat 32 w)) c = .ok () d ∧
          d.cpu.pc.toNat = (4 : Int)) ∧
    ∃ message, assemble [.sect (.symbol "text"), .instruction .j [.symbol "Loop"] 2] =
      .error message := by
  obtain ⟨resolves, raises⟩ := label_resolution
  constructor
  · have assembled : assemble loopSource = .ok (_, _) := rfl
    obtain ⟨-, -, labels, references⟩ := resolves loopSource _ _ assembled (by decide)
    have bound := labels (loopSource.take 2) (loopSource.drop 3) "Loop" rfl rfl
    obtain ⟨w, word, -, -, branch⟩ := references 1 _ rfl
    obtain ⟨w', word', -, -, jump⟩ := references 2 _ rfl
    exact ⟨_, _, assembled, bound,
      ⟨w, word, fun σ _ c pc => (branch "Loop" _ bound σ c pc).2 0 0 4 rfl rfl⟩,
      w', word', fun σ _ c pc => (jump "Loop" _ bound σ c pc).1 5 rfl⟩
  · refine (raises [.sect (.symbol "text"), .instruction .j [.symbol "Loop"] 2] 0 _ "Loop" rfl
      (.inl ⟨rfl, rfl⟩) fun info defined => ?_).2
    obtain ⟨before, after, split, -⟩ := defined
    have mem : Call.label (.symbol "Loop") ∈
        [.sect (.symbol "text"), .instruction .j [.symbol "Loop"] 2] := by
      rw [split]
      exact List.mem_append_right _ List.mem_cons_self
    simp at mem

end ToyIsa.Asm
