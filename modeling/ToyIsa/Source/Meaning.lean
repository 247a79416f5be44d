import ToyIsa.Refine.Reference
import ToyIsa.Source.Machine

/-!
# Source instructions and their words

`Denotes` lists the instructions of the source with the typed instructions that the encoder chooses
for them (`denotes_of_meaning`). A typed instruction does to registers and memory what the source
says (`sourceEffect_of_denotes`) and goes where the source goes (`sourceNext_of_denotes`), from the
address of one position to that of the next. `placeOf_of_calls` connects the labels of the assembler
with the places of the source.
-/

namespace ToyIsa.Asm

open ExecutionContext BitVec

variable {σ : Type} {labels : Labels} {name : Mnemonic} {operands : List RubyValue}
variable {pc : Int} {line : Nat} {i : Instr}

/-- A register operand is that of the source. -/
lemma regOf_of_operand {r : Reg} {index : Int} (h : reg index = r.operand) : r = regOf index := by
  have value : BitVec.ofInt 32 index = r.setWidth 32 := congrArg Operand.value h
  apply eq_of_toNat_eq
  have bound := r.isLt
  have same := congrArg BitVec.toNat value
  rw [toNat_ofInt, toNat_setWidth] at same
  rw [regOf, toNat_ofInt]
  omega

/-- An immediate operand is that of the source. -/
lemma wordOf_of_operand {w : Word} {value : Int} (h : imm value = ⟨.immediate, w⟩) :
    w = wordOf value := (congrArg Operand.value h).symm

/-- The typed instructions of an instruction of the source. -/
inductive Denotes (labels : Labels) (pc : Int) : Mnemonic → List RubyValue → Instr → Prop where
  | add (rd rs rt) :
    Denotes labels pc .add [.register rd, .register rs, .register rt]
      (.compute (.add (regOf rd) (regOf rs) (regOf rt)))
  | addi (rt rs) {n x} :
    wordOf n = x.signExtend 32 →
    Denotes labels pc .addi [.register rt, .register rs, .integer n]
      (.compute (.addi (regOf rt) (regOf rs) x))
  | or (rd rs rt) :
    Denotes labels pc .or [.register rd, .register rs, .register rt]
      (.compute (.or (regOf rd) (regOf rs) (regOf rt)))
  | ldImm (rt base) {n x} :
    wordOf n = x.signExtend 32 →
    Denotes labels pc .ld [.register rt, .array [.register base, .integer n]]
      (.compute (.ldImm (regOf rt) (regOf base) x))
  | ldReg (rt base rm) :
    Denotes labels pc .ld [.register rt, .array [.register base, .register rm]]
      (.compute (.ldReg (regOf rt) (regOf base) (regOf rm)))
  | st (rt base) {n x} :
    wordOf n = x.signExtend 32 →
    Denotes labels pc .st [.register rt, .array [.register base, .integer n]]
      (.st (regOf rt) (regOf base) x)
  | stp (rt1 rt2 base) {n x} :
    wordOf n = x.signExtend 32 →
    Denotes labels pc .stp [.register rt1, .register rt2, .array [.register base, .integer n]]
      (.stp (regOf rt1) (regOf rt2) (regOf base) x)
  | clz (rd rs) :
    Denotes labels pc .clz [.register rd, .register rs] (.compute (.clz (regOf rd) (regOf rs)))
  | ssat (rd rs) {n width} :
    wordOf n = width.setWidth 32 →
    Denotes labels pc .ssat [.register rd, .register rs, .integer n]
      (.compute (.ssat (regOf rd) (regOf rs) width))
  | rori (rd rs) {n shift} :
    wordOf n = shift.setWidth 32 →
    Denotes labels pc .rori [.register rd, .register rs, .integer n]
      (.compute (.rori (regOf rd) (regOf rs) shift))
  | bext (rd rs1 rs2) :
    Denotes labels pc .bext [.register rd, .register rs1, .register rs2]
      (.compute (.bext (regOf rd) (regOf rs1) (regOf rs2)))
  | li (rt) {n x} :
    wordOf n = x.signExtend 32 →
    Denotes labels pc .li [.register rt, .integer n] (.compute (.li (regOf rt) x))
  | syscall (code) : Denotes labels pc .syscall [] (.syscall code)
  | flush : Denotes labels pc .flush [] .flush
  | branchBy (rs rt) {n x} :
    wordOf n = x.signExtend 32 →
    Denotes labels pc .beq [.register rs, .register rt, .integer n]
      (.beq (regOf rs) (regOf rt) x)
  | branchTo (rs rt) {l info x} :
    labels l = some info →
    wordOf ((info.offset - pc) / 4) = x.signExtend 32 →
    Denotes labels pc .beq [.register rs, .register rt, .symbol l]
      (.beq (regOf rs) (regOf rt) x)
  | jump {l info index} :
    labels l = some info →
    wordOf (info.offset / 4) = index.setWidth 32 →
    Denotes labels pc .j [.symbol l] (.j index)

/-- A computing instruction that the encoder chooses is denoted by its source. -/
lemma denotes_compute {op : Compute}
    (means : meaning labels ⟨name, operands, pc, line⟩ = some (op.opCode, op.operands)) :
    Denotes labels pc name operands (.compute op) := by
  unfold meaning at means
  dsimp only at means
  cases op with
  | li rt x =>
    split at means <;> simp at means
    obtain ⟨ht, hx⟩ := means
    obtain rfl := regOf_of_operand ht
    exact .li _ (wordOf_of_operand hx).symm
  | add rd rs rt =>
    split at means <;> simp at means
    obtain ⟨hd, hs, ht⟩ := means
    obtain rfl := regOf_of_operand hd
    obtain rfl := regOf_of_operand hs
    obtain rfl := regOf_of_operand ht
    exact .add _ _ _
  | addi rt rs x =>
    split at means <;> simp at means
    obtain ⟨ht, hs, hx⟩ := means
    obtain rfl := regOf_of_operand ht
    obtain rfl := regOf_of_operand hs
    exact .addi _ _ (wordOf_of_operand hx).symm
  | or rd rs rt =>
    split at means <;> simp at means
    obtain ⟨hd, hs, ht⟩ := means
    obtain rfl := regOf_of_operand hd
    obtain rfl := regOf_of_operand hs
    obtain rfl := regOf_of_operand ht
    exact .or _ _ _
  | ldReg rt base rm =>
    split at means <;> simp at means
    obtain ⟨ht, hb, hm⟩ := means
    obtain rfl := regOf_of_operand ht
    obtain rfl := regOf_of_operand hb
    obtain rfl := regOf_of_operand hm
    exact .ldReg _ _ _
  | ldImm rt base x =>
    split at means <;> simp at means
    obtain ⟨ht, hb, hx⟩ := means
    obtain rfl := regOf_of_operand ht
    obtain rfl := regOf_of_operand hb
    exact .ldImm _ _ (wordOf_of_operand hx).symm
  | clz rd rs =>
    split at means <;> simp at means
    obtain ⟨hd, hs⟩ := means
    obtain rfl := regOf_of_operand hd
    obtain rfl := regOf_of_operand hs
    exact .clz _ _
  | ssat rd rs width =>
    split at means <;> simp at means
    obtain ⟨hd, hs, hw⟩ := means
    obtain rfl := regOf_of_operand hd
    obtain rfl := regOf_of_operand hs
    exact .ssat _ _ (wordOf_of_operand hw).symm
  | rori rd rs shift =>
    split at means <;> simp at means
    obtain ⟨hd, hs, hx⟩ := means
    obtain rfl := regOf_of_operand hd
    obtain rfl := regOf_of_operand hs
    exact .rori _ _ (wordOf_of_operand hx).symm
  | bext rd rs1 rs2 =>
    split at means <;> simp at means
    obtain ⟨hd, h1, h2⟩ := means
    obtain rfl := regOf_of_operand hd
    obtain rfl := regOf_of_operand h1
    obtain rfl := regOf_of_operand h2
    exact .bext _ _ _

/-- What the encoder chooses is denoted by the source. -/
lemma denotes_of_meaning (valid : i ≠ .invalid)
    (means : meaning labels ⟨name, operands, pc, line⟩ = some (i.opCode, i.operands)) :
    Denotes labels pc name operands i := by
  cases i with
  | compute op => exact denotes_compute means
  | invalid => exact absurd rfl valid
  | st rt base x =>
    unfold meaning at means
    dsimp only at means
    split at means <;> simp at means
    obtain ⟨ht, hb, hx⟩ := means
    obtain rfl := regOf_of_operand ht
    obtain rfl := regOf_of_operand hb
    exact .st _ _ (wordOf_of_operand hx).symm
  | stp rt1 rt2 base x =>
    unfold meaning at means
    dsimp only at means
    split at means <;> simp at means
    obtain ⟨h1, h2, hb, hx⟩ := means
    obtain rfl := regOf_of_operand h1
    obtain rfl := regOf_of_operand h2
    obtain rfl := regOf_of_operand hb
    exact .stp _ _ _ (wordOf_of_operand hx).symm
  | beq rs rt x =>
    unfold meaning at means
    dsimp only at means
    split at means <;> simp at means
    · obtain ⟨hs, ht, hx⟩ := means
      obtain rfl := regOf_of_operand hs
      obtain rfl := regOf_of_operand ht
      exact .branchBy _ _ (wordOf_of_operand hx).symm
    · obtain ⟨info, found, hs, ht, hx⟩ := means
      obtain rfl := regOf_of_operand hs
      obtain rfl := regOf_of_operand ht
      exact .branchTo _ _ found (wordOf_of_operand hx).symm
  | j index =>
    unfold meaning at means
    dsimp only at means
    split at means <;> simp at means
    obtain ⟨info, found, hx⟩ := means
    exact .jump found (wordOf_of_operand hx).symm
  | syscall code =>
    unfold meaning at means
    dsimp only at means
    split at means <;> simp at means
    exact .syscall code
  | flush =>
    unfold meaning at means
    dsimp only at means
    split at means <;> simp at means
    exact .flush

/-- What an instruction does to registers and memory is what its source says. -/
lemma sourceEffect_of_denotes [Host σ] (h : Denotes labels pc name operands i)
    (c : ExecutionContext σ) : sourceEffect name operands c = some (i.effect c) := by
  cases h with
  | add | or | ldReg | clz | bext | syscall | flush | branchBy | branchTo | jump => rfl
  | addi rt rs hx | ldImm rt base hx | st rt base hx | stp rt1 rt2 base hx | ssat rd rs hx
  | rori rd rs hx | li rt hx =>
    simp only [sourceEffect, hx]
    rfl

/-- An instruction stores where its source says. -/
lemma storeTargets_of_denotes (h : Denotes labels pc name operands i) (c : ExecutionContext σ) :
    storeTargets name operands c = (i.stores c).map Prod.fst := by
  cases h with
  | st rt base hx | stp rt1 rt2 base hx =>
    simp only [storeTargets, hx]
    rfl
  | _ => rfl

/-! Labels. -/

section

variable {a a' : Assembler} {done rest : List Call} {l : String} {info : LabelInfo}

/-- A label stays where it is bound. -/
lemma Assembled.binds (inv : Assembled done a) (inv' : Assembled (done ++ rest) a')
    (found : a.labels l = some info) : a'.labels l = some info := by
  obtain ⟨before, after, split, bound⟩ := (inv.labels l info).mp found
  refine (inv'.labels l info).mpr ⟨before, after ++ rest, ?_, bound⟩
  rw [split, List.append_assoc, List.cons_append]

/-- A call other than that of the label does not bind it. -/
lemma Assembled.unbound {c} (inv : Assembled done a) (inv' : Assembled (done ++ [c]) a')
    (ne : c ≠ .label (.symbol l)) (free : a.labels l = none) : a'.labels l = none := by
  cases found : a'.labels l with
  | none => rfl
  | some info =>
    obtain defined | ⟨e, _⟩ := defines_concat.mp ((inv'.labels l info).mp found)
    · rw [(inv.labels l info).mpr defined] at free
      cases free
    · exact absurd e ne

/-- A text label lies at its place among the calls that are left. -/
lemma placeOf_of_calls (inv : Assembled done a) (h : a.calls rest = .ok a')
    (free : a.labels l = none) (found : a'.labels l = some info) (text : info.sect = .text) :
    ∃ k, placeOf l rest = some k ∧
      info.offset = 4 * ((instructionCalls done).length + k : Nat) := by
  induction rest generalizing done a with
  | nil =>
    cases h
    rw [free] at found
    cases found
  | cons c rest ih =>
    obtain ⟨b, hb, after⟩ := Except.bind_eq_ok h
    have inv1 := inv.call hb
    have count : (instructionCalls (done ++ [c])).length =
        (instructionCalls done).length + c.instruction?.toList.length := by
      rw [instructionCalls_concat, List.length_append]
    by_cases here : c = .label (.symbol l)
    case pos =>
      -- the label is bound to the offset of the text section and stays there
      subst here
      have bound : ∃ sect, b.labels l =
          some ⟨sect, (if sect = .text then a.textOffset else a.data.length : Nat)⟩ := by
        change a.defineLabel l = .ok b at hb
        unfold Assembler.defineLabel at hb
        rw [free] at hb
        cases current : a.currentSection with
        | none => rw [current] at hb; cases hb
        | some sect =>
          rw [current] at hb
          cases hb
          exact ⟨sect, Function.update_self _ _ _⟩
      obtain ⟨sect, bound⟩ := bound
      have final := inv1.binds (inv1.calls after) bound
      rw [found] at final
      cases final
      obtain rfl : sect = .text := text
      refine ⟨0, if_pos rfl, ?_⟩
      show ((a.textOffset : Nat) : Int) = _
      rw [inv.textOffset]
      push_cast
      omega
    case neg =>
      obtain ⟨k, place, offset⟩ := ih inv1 after (inv.unbound inv1 here free)
      rw [count] at offset
      cases c with
      | instruction name operands line =>
        refine ⟨k + 1, congrArg (Option.map (· + 1)) place, offset.trans ?_⟩
        show _ * (((instructionCalls done).length + 1 + k : Nat) : Int) = _
        congr 2
        omega
      | label name =>
        refine ⟨k, ?_, offset⟩
        cases name with
        | symbol l' => exact (if_neg fun e => here (by rw [e])).trans place
        | _ => exact place
      | sect | bytes => exact ⟨k, place, offset⟩

end

/-- The place of every text label is known. -/
def Places (source : List Call) (labels : Labels) : Prop :=
  ∀ l info, labels l = some info → info.sect = .text →
    ∃ k, placeOf l source = some k ∧ info.offset = 4 * (k : Nat)

/-- The labels of a source that assembles are at their places. -/
lemma places_of_assemble {source a words} (h : assemble source = .ok (a, words)) :
    Places source a.labels := by
  intro l info found text
  obtain ⟨a', called, h⟩ := Except.bind_eq_ok h
  obtain ⟨words', _, h⟩ := Except.bind_eq_ok h
  cases h
  obtain ⟨k, place, offset⟩ := placeOf_of_calls assembled_nil called rfl found text
  refine ⟨k, place, offset.trans ?_⟩
  rw [show (instructionCalls []).length = 0 from rfl, Nat.zero_add]

/-! Control. -/

/-- The address of a position. -/
def addressOf (position : Int) : Word := .ofInt 32 (4 * position)

/-- The address of a later instruction. -/
lemma addressOf_add (p n : Int) : addressOf p + wordOf n * 4 = addressOf (p + n) := by
  have four : (4 : Word) = BitVec.ofInt 32 4 := rfl
  unfold addressOf wordOf
  rw [four, ← ofInt_mul, ← ofInt_add]
  congr 1
  omega

/-- The address of the next instruction. -/
lemma addressOf_succ (p : Int) : addressOf p + 4 = addressOf (p + 1) := addressOf_add p 1

/-- The place of a label that is referred to. -/
lemma placeOf_of_reference {source : List Call} {p w : Nat} {l info} (places : Places source labels)
    (encoded : Encoder.encode labels (placed p (name, operands, line)) = .ok w)
    (refers : RefersTo (name, operands, line) l) (found : labels l = some info) :
    ∃ k, placeOf l source = some k ∧ info.offset = 4 * (k : Nat) := by
  obtain ⟨info', found', text, _⟩ := reference_ok refers encoded
  rw [found] at found'
  cases found'
  exact places l info found text

/-- Where an instruction goes on, its source goes on. -/
lemma sourceNext_of_denotes {source : List Call} {p : Nat} {w : Nat} (places : Places source labels)
    (encoded : Encoder.encode labels (placed p (name, operands, line)) = .ok w)
    (h : Denotes labels (4 * p) name operands i) (fits : 4 * p < 2 ^ 28) {c : ExecutionContext σ}
    (here : c.cpu.pc = addressOf p) :
    ∃ q, sourceNext source p name operands c = some q ∧ i.nextPc c = addressOf q := by
  have size : TI32.instructionSize = 4 := rfl
  have next : c.cpu.pc + TI32.instructionSize = addressOf (p + 1) := by
    rw [here, size, addressOf_succ]
  cases h with
  | branchBy rs rt hx =>
    refine ⟨_, rfl, ?_⟩
    simp only [Instr.nextPc, next]
    split
    · rw [here, size, ← hx, addressOf_add]
    · rfl
  | @branchTo rs rt l info x found hx =>
    obtain ⟨k, place, offset⟩ := placeOf_of_reference places encoded (.inr ⟨rfl, _, _, rfl⟩) found
    simp only [sourceNext, place, Instr.nextPc, next]
    split
    · have distance : (info.offset - 4 * p) / 4 = k - p := by omega
      refine ⟨_, rfl, ?_⟩
      rw [here, size, ← hx, addressOf_add, distance]
      congr 1
      show _ = (k : Int)
      omega
    · exact ⟨_, rfl, rfl⟩
  | @jump l info index found hx =>
    obtain ⟨k, place, offset⟩ := placeOf_of_reference places encoded (.inl ⟨rfl, rfl⟩) found
    have quarter : info.offset / 4 = k := by omega
    have low : c.cpu.pc.toNat < 2 ^ 28 := by
      rw [here, addressOf, toNat_ofInt]
      omega
    have high : c.cpu.pc &&& 0xF0000000 = 0#32 := and_high_of_lt low
    refine ⟨k, ?_, ?_⟩
    · simp only [sourceNext, place]
      rfl
    · show (c.cpu.pc &&& 0xF0000000) ||| (index.setWidth 32 * TI32.instructionSize) = _
      rw [high, BitVec.zero_or, size, ← hx, quarter]
      have target := addressOf_add 0 k
      rw [Int.zero_add] at target
      exact (BitVec.zero_add _).symm.trans target
  | syscall code =>
    refine ⟨_, rfl, ?_⟩
    show (if c.state.status = .running then c.cpu.pc + TI32.instructionSize else c.cpu.pc) = _
    split
    · exact next
    · exact here
  | _ => exact ⟨_, rfl, next⟩

end ToyIsa.Asm
