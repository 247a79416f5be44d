import ToyIsa.Assembler.Labels

/-!
# What the assembler accepts

The operands of each instruction have the shapes of a table, and each call has to stand where it is
allowed. `assembler_accepts` says that these are all the checks there are: every source that passes
them is assembled, and every other one raises.
-/

namespace ToyIsa.Asm

open Encoder

/-! ## Operands -/

/-- What an operand has to be. -/
inductive Shape where
  | register
  | signed (width : Nat)
  | unsigned (minimum width : Nat)
  | address (width : Nat)
  | loadAddress
  | jumpTarget
  | branchTarget

def Mnemonic.shapes : Mnemonic → List Shape
  | .add | .or | .bext => [.register, .register, .register]
  | .addi => [.register, .register, .signed 16]
  | .ld => [.register, .loadAddress]
  | .st => [.register, .address 14]
  | .beq => [.register, .register, .branchTarget]
  | .j => [.jumpTarget]
  | .clz => [.register, .register]
  | .ssat => [.register, .register, .unsigned 1 5]
  | .syscall | .flush => []
  | .li => [.register, .signed 16]
  | .rori => [.register, .register, .unsigned 0 5]
  | .stp => [.register, .register, .address 11]

def IsRegister (value : RubyValue) : Prop :=
  ∃ index, value = .register index ∧ 0 ≤ index ∧ index < 32

def IsSigned (width : Nat) (value : RubyValue) : Prop :=
  ∃ n, value = .integer n ∧ -2 ^ (width - 1) ≤ n ∧ n ≤ 2 ^ (width - 1) - 1

def IsUnsigned (minimum width : Nat) (value : RubyValue) : Prop :=
  ∃ n : Int, value = .integer n ∧ minimum ≤ n ∧ n ≤ 2 ^ width - 1

def IsAddress (width : Nat) (value : RubyValue) : Prop :=
  ∃ base offset, value = .array [base, offset] ∧ IsRegister base ∧ IsSigned width offset

def IsLoadAddress (value : RubyValue) : Prop :=
  ∃ base offset, value = .array [base, offset] ∧ IsRegister base ∧
    (IsSigned 14 offset ∨ IsRegister offset)

section

variable (binds : String → LabelInfo → Prop) (pc : Int)

def IsJumpTarget (value : RubyValue) : Prop :=
  ∃ name info, value = .symbol name ∧ binds name info ∧ info.sect = .text ∧
    info.offset % 4 = 0 ∧ 0 ≤ info.offset / 4 ∧ info.offset / 4 < 2 ^ 26

def IsBranchTarget (value : RubyValue) : Prop :=
  IsSigned 16 value ∨
    ∃ name info, value = .symbol name ∧ binds name info ∧ info.sect = .text ∧
      (info.offset - pc) % 4 = 0 ∧ InRange info pc

/-- The operand has the shape, in an instruction at `pc` and with labels bound by `binds`. -/
def Fits : Shape → RubyValue → Prop
  | .register => IsRegister
  | .signed width => IsSigned width
  | .unsigned minimum width => IsUnsigned minimum width
  | .address width => IsAddress width
  | .loadAddress => IsLoadAddress
  | .jumpTarget => IsJumpTarget binds
  | .branchTarget => IsBranchTarget binds pc

end

/-- The instruction has the operands of its shapes. -/
def Encodable (binds : String → LabelInfo → Prop) (instruction : Instruction) : Prop :=
  List.Forall₂ (Fits binds instruction.pc) instruction.name.shapes instruction.operands

/-- The computation returns. -/
def Returns {α : Type} (x : Except String α) : Prop := ∃ a, x = .ok a

section

variable {α β : Type} {x : Except String α} {f : α → Except String β} {P : Prop}

/-- A result returns. -/
@[simp] lemma returns_ok (a : α) : Returns (.ok a : Except String α) := ⟨a, rfl⟩

/-- `pure` returns. -/
@[simp] lemma returns_pure (a : α) : Returns (pure a : Except String α) := ⟨a, rfl⟩

/-- An error does not return. -/
@[simp] lemma not_returns_error (message : String) :
    ¬ Returns (.error message : Except String α) := by
  rintro ⟨a, h⟩
  cases h

/-- A check. -/
lemma returns_ite {p : Prop} [Decidable p] {a : α} {message : String} :
    Returns (if p then .ok a else .error message : Except String α) ↔ p := by
  split
  case isTrue h => exact iff_of_true (returns_ok a) h
  case isFalse h => exact iff_of_false (not_returns_error message) h

/-- A sequence returns if its first part does and the rest does after it. -/
lemma returns_bind_iff (rest : ∀ a, x = .ok a → (Returns (f a) ↔ P)) :
    Returns (x >>= f) ↔ Returns x ∧ P := by
  constructor
  · rintro ⟨b, h⟩
    obtain ⟨a, ha, h⟩ := Except.bind_eq_ok h
    exact ⟨⟨a, ha⟩, (rest a ha).mp ⟨b, h⟩⟩
  · rintro ⟨⟨a, rfl⟩, p⟩
    exact (rest a rfl).mpr p

end

section

variable {line : Nat} {value : RubyValue}

/-- Exactly the registers have an index. -/
lemma returns_registerIndex : Returns (registerIndex value line) ↔ IsRegister value := by
  unfold registerIndex IsRegister
  cases value with
  | register index => simp [returns_ite]
  | _ => exact iff_of_false (not_returns_error _) (by simp)

/-- Exactly the integers that fit are encoded as signed immediates. -/
lemma returns_signedImmediate {width} :
    Returns (signedImmediate value width line) ↔ IsSigned width value := by
  unfold signedImmediate IsSigned
  cases value with
  | integer n => simp [returns_ite]
  | _ => exact iff_of_false (not_returns_error _) (by simp)

/-- Exactly the integers that fit are encoded as unsigned immediates. -/
lemma returns_unsignedImmediate {minimum width : Nat} :
    Returns (unsignedImmediate value width line minimum) ↔ IsUnsigned minimum width value := by
  unfold unsignedImmediate IsUnsigned
  cases value with
  | integer n => simp [returns_ite]
  | _ => exact iff_of_false (not_returns_error _) (by simp)

/-- A computation on the two elements of an address. -/
lemma returns_bind_addressParts {α : Type} {f : RubyValue × RubyValue → Except String α}
    {P : RubyValue → RubyValue → Prop}
    (rest : ∀ base offset, Returns (f (base, offset)) ↔ P base offset) :
    Returns (addressParts value line >>= f) ↔
      ∃ base offset, value = .array [base, offset] ∧ P base offset := by
  constructor
  · rintro ⟨a, h⟩
    obtain ⟨⟨base, offset⟩, parts, h⟩ := Except.bind_eq_ok h
    exact ⟨base, offset, addressParts_ok parts, (rest base offset).mp ⟨a, h⟩⟩
  · rintro ⟨base, offset, rfl, p⟩
    exact (rest base offset).mpr p

/-- Exactly the arrays of a register and an integer that fits are encoded as addresses. -/
lemma returns_memoryAddress {width} :
    Returns (memoryAddress value width line) ↔ IsAddress width value := by
  unfold memoryAddress
  apply returns_bind_addressParts
  intro base offset
  rw [returns_bind_iff fun _ _ => returns_bind_iff fun _ _ => iff_of_true (returns_pure _) trivial,
    returns_registerIndex, returns_signedImmediate, and_true]

section

variable {labels : Labels} {pc : Int}

/-- What the table of labels binds. -/
def Binds (labels : Labels) (name : String) (info : LabelInfo) : Prop := labels name = some info

/-- A computation on the address of a label. -/
lemma returns_bind_labelAddress {α : Type} {f : Int → Except String α} {P : Int → Prop}
    (rest : ∀ address, Returns (f address) ↔ P address) :
    Returns (labelAddress labels value line >>= f) ↔
      ∃ name info, value = .symbol name ∧ Binds labels name info ∧ info.sect = .text ∧
        P info.offset := by
  constructor
  · rintro ⟨a, h⟩
    obtain ⟨address, found, h⟩ := Except.bind_eq_ok h
    obtain ⟨name, info, rfl, bound, text, rfl⟩ := labelAddress_ok found
    exact ⟨name, info, rfl, bound, text, (rest _).mp ⟨a, h⟩⟩
  · rintro ⟨name, info, rfl, bound, text, p⟩
    have found : labelAddress labels (.symbol name) line = .ok info.offset := by
      unfold labelAddress
      dsimp only
      rw [show labels name = some info from bound]
      exact if_pos text
    rw [found]
    exact (rest _).mpr p

/-- The alignment is checked. -/
lemma returns_requireAlignment {address : Int} :
    Returns (requireAlignment address line) ↔ address % 4 = 0 := returns_ite

/-- A distance fits exactly if the label is in range. -/
lemma inRange_iff {info : LabelInfo} :
    IsSigned 16 (.integer ((info.offset - pc) / 4)) ↔ InRange info pc := by
  unfold IsSigned InRange
  constructor
  · rintro ⟨_, ⟨⟩, low, high⟩
    exact ⟨low, Int.lt_of_le_sub_one high⟩
  · rintro ⟨low, high⟩
    exact ⟨_, rfl, low, Int.le_sub_one_of_lt high⟩

/-- Exactly the branch targets have an offset. -/
lemma returns_branchOffset {instruction : Instruction} :
    Returns (branchOffset labels value instruction) ↔
      IsBranchTarget (Binds labels) instruction.pc value := by
  unfold branchOffset IsBranchTarget
  split
  case h_1 n =>
    rw [returns_signedImmediate]
    exact (or_iff_left (by simp)).symm
  case h_2 other =>
    have label : ¬ IsSigned 16 value := by
      rintro ⟨n, rfl, _⟩
      exact other n rfl
    rw [or_iff_right label]
    have distance (address : Int) : Returns (do
        requireAlignment (address - instruction.pc) instruction.line
        signedImmediate (.integer ((address - instruction.pc) / 4)) 16 instruction.line) ↔
        (address - instruction.pc) % 4 = 0 ∧
          IsSigned 16 (.integer ((address - instruction.pc) / 4)) := by
      rw [returns_bind_iff fun _ _ => returns_signedImmediate, returns_requireAlignment]
    rw [returns_bind_labelAddress distance]
    simp only [inRange_iff]

/-- A computation on one register. -/
lemma returns_register {k : Nat → Except String Nat} {P : Prop}
    (rest : ∀ a, Returns (k a) ↔ P) :
    Returns (registerIndex value line >>= k) ↔ IsRegister value ∧ P := by
  rw [returns_bind_iff fun a _ => rest a, returns_registerIndex]

/-- A computation on two registers. -/
lemma returns_twoRegisters {x y : RubyValue} {k : Nat → Nat → Except String Nat} {P : Prop}
    (rest : ∀ a b, Returns (k a b) ↔ P) :
    Returns (do
      let a ← registerIndex x line
      let b ← registerIndex y line
      k a b) ↔ IsRegister x ∧ IsRegister y ∧ P :=
  returns_register fun a => returns_register (rest a)

/-- A computation that returns in the end. -/
lemma returns_last {α : Type} {x : Except String α} {f : α → Nat} :
    Returns (x >>= fun a => return f a) ↔ Returns x := by
  rw [returns_bind_iff fun _ _ => iff_of_true (returns_pure _) trivial, and_true]

/-- An instruction on three registers. -/
lemma returns_threeRegisters {x y z : RubyValue} {f : Nat → Nat → Nat → Nat} :
    Returns (do
      let a ← registerIndex x line
      let b ← registerIndex y line
      let c ← registerIndex z line
      return f a b c) ↔ IsRegister x ∧ IsRegister y ∧ IsRegister z := by
  rw [returns_twoRegisters fun a b => returns_last, returns_registerIndex]

variable {name : Mnemonic} {operands : List RubyValue}

/-- Each mnemonic has a number of operands. -/
lemma encode_wrong_count (ne : operands.length ≠ name.shapes.length) :
    ¬ Returns (encode labels ⟨name, operands, pc, line⟩) := by
  obtain ⟨message, e⟩ : ∃ message, encode labels ⟨name, operands, pc, line⟩ = .error message := by
    rcases operands with _ | ⟨x, _ | ⟨y, _ | ⟨z, _ | ⟨_, _⟩⟩⟩⟩ <;> cases name <;>
      first
      | exact absurd rfl ne
      | exact ⟨_, rfl⟩
  rw [e]
  exact not_returns_error message

/-- Exactly the loads from an address are encoded. -/
lemma returns_encodeLd {rt address : RubyValue} :
    Returns (Encoder.encodeLd ⟨.ld, [rt, address], pc, line⟩) ↔
      IsRegister rt ∧ IsLoadAddress address := by
  apply returns_register
  intro rtIndex
  apply returns_bind_addressParts
  intro base offset
  apply returns_register
  intro baseIndex
  dsimp only
  split
  case h_1 n =>
    rw [returns_last, returns_signedImmediate]
    exact (or_iff_left (by simp [IsRegister])).symm
  case h_2 index =>
    rw [returns_last, returns_registerIndex]
    exact (or_iff_right (by simp [IsSigned])).symm
  case h_3 integer register =>
    refine iff_of_false (not_returns_error _) ?_
    rintro (⟨n, rfl, _⟩ | ⟨index, rfl, _⟩)
    · exact integer n rfl
    · exact register index rfl

/-- Exactly the jumps to a target are encoded. -/
lemma returns_encodeJ {target : RubyValue} :
    Returns (Encoder.encodeJ labels ⟨.j, [target], pc, line⟩) ↔
      IsJumpTarget (Binds labels) target := by
  have index (address : Int) : Returns (do
      requireAlignment address line
      let instructionIndex ← unsignedImmediate (.integer (address >>> (2 : Nat))) 26 line
      return (0x3F <<< 26) ||| instructionIndex) ↔
      address % 4 = 0 ∧ 0 ≤ address / 4 ∧ address / 4 < 2 ^ 26 := by
    have quarter : address >>> (2 : Nat) = address / 4 := Int.shiftRight_eq_div_pow address 2
    rw [returns_bind_iff fun _ _ => returns_last, returns_requireAlignment,
      returns_unsignedImmediate, quarter]
    refine and_congr_right fun _ => ⟨?_, fun ⟨low, high⟩ => ⟨_, rfl, by omega, by omega⟩⟩
    rintro ⟨_, ⟨⟩, low, high⟩
    exact ⟨by omega, by omega⟩
  exact returns_bind_labelAddress index

/-- The encoder returns a word exactly for operands of the right shapes. -/
theorem returns_encode : Returns (encode labels ⟨name, operands, pc, line⟩) ↔
    Encodable (Binds labels) ⟨name, operands, pc, line⟩ := by
  by_cases count : operands.length = name.shapes.length
  case neg =>
    exact iff_of_false (encode_wrong_count count) fun fits => count fits.length_eq.symm
  case pos =>
    unfold Encodable
    cases name with
    | add =>
      obtain ⟨rd, rs, rt, rfl⟩ := List.length_eq_three.mp count
      refine returns_threeRegisters.trans ?_
      simp [Mnemonic.shapes, Fits]
    | or =>
      obtain ⟨rd, rs, rt, rfl⟩ := List.length_eq_three.mp count
      refine returns_threeRegisters.trans ?_
      simp [Mnemonic.shapes, Fits]
    | bext =>
      obtain ⟨rd, rs1, rs2, rfl⟩ := List.length_eq_three.mp count
      refine returns_threeRegisters.trans ?_
      simp [Mnemonic.shapes, Fits]
    | addi =>
      obtain ⟨rt, rs, immediate, rfl⟩ := List.length_eq_three.mp count
      refine (returns_twoRegisters fun _ _ => returns_last).trans ?_
      simp [Mnemonic.shapes, Fits, returns_signedImmediate]
    | ssat =>
      obtain ⟨rd, rs, width, rfl⟩ := List.length_eq_three.mp count
      refine (returns_twoRegisters fun _ _ => returns_last).trans ?_
      simp [Mnemonic.shapes, Fits, returns_unsignedImmediate]
    | rori =>
      obtain ⟨rd, rs, shift, rfl⟩ := List.length_eq_three.mp count
      refine (returns_twoRegisters fun _ _ => returns_last).trans ?_
      simp [Mnemonic.shapes, Fits, returns_unsignedImmediate]
    | beq =>
      obtain ⟨rs, rt, target, rfl⟩ := List.length_eq_three.mp count
      refine (returns_twoRegisters fun _ _ => returns_last).trans ?_
      simp [Mnemonic.shapes, Fits, returns_branchOffset]
    | stp =>
      obtain ⟨rt1, rt2, address, rfl⟩ := List.length_eq_three.mp count
      refine (returns_twoRegisters fun _ _ => returns_last).trans ?_
      simp [Mnemonic.shapes, Fits, returns_memoryAddress]
    | clz =>
      obtain ⟨rd, rs, rfl⟩ := List.length_eq_two.mp count
      refine (returns_register fun _ => returns_last).trans ?_
      simp [Mnemonic.shapes, Fits, returns_registerIndex]
    | li =>
      obtain ⟨rt, immediate, rfl⟩ := List.length_eq_two.mp count
      refine (returns_register fun _ => returns_last).trans ?_
      simp [Mnemonic.shapes, Fits, returns_signedImmediate]
    | st =>
      obtain ⟨rt, address, rfl⟩ := List.length_eq_two.mp count
      refine (returns_register fun _ => returns_last).trans ?_
      simp [Mnemonic.shapes, Fits, returns_memoryAddress]
    | ld =>
      obtain ⟨rt, address, rfl⟩ := List.length_eq_two.mp count
      refine returns_encodeLd.trans ?_
      simp [Mnemonic.shapes, Fits]
    | j =>
      obtain ⟨target, rfl⟩ := List.length_eq_one_iff.mp count
      refine returns_encodeJ.trans ?_
      simp [Mnemonic.shapes, Fits]
    | syscall | flush =>
      obtain rfl := List.length_eq_zero_iff.mp count
      exact iff_of_true (returns_ok _) .nil

end

end

/-! ## Calls -/

/-- The call is allowed after the calls `done`. -/
def Allowed (done : List Call) : Call → Prop
  | .sect name => ∃ sect, sectionOf name = some sect ∧ ∀ c ∈ done, c.section? ≠ some sect
  | .label (.symbol name) => sectionAfter done ≠ none ∧ .label (.symbol name) ∉ done
  | .bytes (.string _) => sectionAfter done = some .data
  | .instruction _ _ _ => sectionAfter done = some .text
  | _ => False

/-- Each of the calls is allowed after `done` and the calls before it. -/
def AllAllowed : (done : List Call) → List Call → Prop
  | _, [] => True
  | done, c :: rest => Allowed done c ∧ AllAllowed (done ++ [c]) rest

/-- What the assembler has to know of the calls so far. -/
structure Records (done : List Call) (a : Assembler) : Prop where
  assembled : Assembled done a
  sections : ∀ sect, sect ∈ a.openedSections ↔ ∃ c ∈ done, c.section? = some sect
  labels : ∀ name, a.labels name = none ↔ .label (.symbol name) ∉ done

/-- Nothing is recorded at the start. -/
lemma records_nil : Records [] {} :=
  ⟨assembled_nil, fun _ => iff_of_false nofun (by simp), fun _ => iff_of_true rfl nofun⟩

namespace Records

variable {done rest : List Call} {a a' : Assembler} {c : Call}

/-- The assembler accepts a call exactly if it is allowed. -/
lemma returns_call (records : Records done a) : Returns (a.call c) ↔ Allowed done c := by
  have current := records.assembled.currentSection
  cases c with
  | sect name =>
    show Returns (a.openSection name) ↔ ∃ sect, sectionOf name = some sect ∧ _
    unfold Assembler.openSection
    cases known : sectionOf name with
    | none => simp
    | some sect =>
      have opened := records.sections sect
      dsimp only
      split
      case isTrue again =>
        obtain ⟨c, mem, opens⟩ := opened.mp again
        refine iff_of_false (not_returns_error _) ?_
        rintro ⟨_, ⟨⟩, fresh⟩
        exact fresh c mem opens
      case isFalse first =>
        refine iff_of_true (returns_ok _) ⟨sect, rfl, fun c mem opens => ?_⟩
        exact first (opened.mpr ⟨c, mem, opens⟩)
  | label name =>
    cases name with
    | symbol name =>
      show Returns (a.defineLabel name) ↔ sectionAfter done ≠ none ∧ .label (.symbol name) ∉ done
      rw [← current, ← records.labels]
      unfold Assembler.defineLabel
      cases a.currentSection with
      | none => simp
      | some sect => cases a.labels name <;> simp
    | _ => exact iff_of_false (not_returns_error _) id
  | bytes value =>
    have required : Returns (a.requireSection .data "Bytes") ↔ sectionAfter done = some .data := by
      rw [← current]
      exact returns_ite
    cases value with
    | string bytes =>
      refine (returns_bind_iff fun _ _ => iff_of_true (returns_pure _) trivial).trans ?_
      rw [required, and_true]
      rfl
    | _ =>
      refine (returns_bind_iff fun _ _ => iff_of_false (not_returns_error _) not_false).trans ?_
      exact iff_of_false (fun h => h.2) id
  | instruction name operands line =>
    refine (returns_bind_iff fun _ _ => iff_of_true (returns_pure _) trivial).trans ?_
    rw [and_true]
    show Returns (if a.currentSection = some .text then _ else _) ↔ _
    rw [returns_ite, current]
    rfl

/-- A call that is accepted opens its section. -/
lemma openedSections_call (h : a.call c = .ok a') (sect) :
    sect ∈ a'.openedSections ↔ sect ∈ a.openedSections ∨ c.section? = some sect := by
  cases c with
  | sect name =>
    change a.openSection name = .ok a' at h
    show _ ↔ _ ∨ sectionOf name = some sect
    unfold Assembler.openSection at h
    cases known : sectionOf name with
    | none =>
      rw [known] at h
      cases h
    | some opened =>
      rw [known] at h
      dsimp only at h
      split at h
      case isTrue => cases h
      case isFalse =>
        cases h
        rw [List.mem_cons, Option.some_inj, or_comm, eq_comm]
  | label name =>
    cases name with
    | symbol name =>
      change a.defineLabel name = .ok a' at h
      unfold Assembler.defineLabel at h
      split at h
      case h_1 => cases h
      case h_2 =>
        split at h
        case h_1 => cases h
        case h_2 =>
          cases h
          exact (or_iff_left nofun).symm
    | _ => cases h
  | bytes value =>
    obtain ⟨_, _, h⟩ := Except.bind_eq_ok h
    cases value with
    | string bytes =>
      cases h
      exact (or_iff_left nofun).symm
    | _ => cases h
  | instruction name operands line =>
    obtain ⟨_, _, h⟩ := Except.bind_eq_ok h
    cases h
    exact (or_iff_left nofun).symm

/-- A label is unbound as long as nothing defines it. -/
lemma labels_eq_none_iff (assembled : Assembled done a) {name} :
    a.labels name = none ↔ ∀ info, ¬ Defines done name info := by
  rw [Option.eq_none_iff_forall_not_mem]
  exact forall_congr' fun info => not_congr (assembled.labels name info)

/-- A call that is accepted is recorded. -/
lemma call (records : Records done a) (h : a.call c = .ok a') : Records (done ++ [c]) a' := by
  have assembled := records.assembled.call h
  have allowed := records.returns_call.mp ⟨a', h⟩
  refine ⟨assembled, fun sect => ?_, fun name => ?_⟩
  · rw [openedSections_call h, records.sections]
    simp [or_and_right, exists_or]
  · have before := records.labels name
    rw [labels_eq_none_iff records.assembled] at before
    rw [labels_eq_none_iff assembled, List.mem_append, List.mem_singleton, not_or, ← before]
    simp only [defines_concat, not_or, forall_and]
    refine and_congr_right fun _ => ?_
    constructor
    · rintro other rfl
      -- an allowed label is defined in a section
      obtain ⟨info, here⟩ : ∃ info, labelAfter done = some info := by
        obtain ⟨sect, opened⟩ := Option.ne_none_iff_exists'.mp allowed.1
        exact ⟨_, congrArg _ opened⟩
      exact other info ⟨rfl, here⟩
    · rintro other info ⟨rfl, _⟩
      exact other rfl

/-- The assembler accepts calls exactly if each of them is allowed. -/
lemma returns_calls (records : Records done a) : Returns (a.calls rest) ↔ AllAllowed done rest := by
  induction rest generalizing done a with
  | nil => exact iff_of_true (returns_ok a) trivial
  | cons c rest ih =>
    show Returns (a.call c >>= fun a => a.calls rest) ↔ _
    rw [returns_bind_iff fun b called => ih (records.call called), records.returns_call]
    rfl

end Records

/-! ## Sources -/

section

variable {labels : Labels} {binds : String → LabelInfo → Prop} {instruction : Instruction}

/-- What is encoded depends on the bindings of the labels only. -/
lemma encodable_congr (same : ∀ name info, Binds labels name info ↔ binds name info) :
    Encodable (Binds labels) instruction ↔ Encodable binds instruction := by
  obtain rfl : Binds labels = binds := by
    funext name info
    exact propext (same name info)
  rfl

/-- Exactly the lists of encodable instructions are encoded. -/
lemma returns_encodeAll {instructions : List Instruction} :
    Returns (encodeAll labels instructions) ↔
      ∀ instruction ∈ instructions, Encodable (Binds labels) instruction := by
  induction instructions with
  | nil => exact iff_of_true (returns_ok _) nofun
  | cons instruction rest ih =>
    show Returns (encode labels instruction >>= _) ↔ _
    rw [returns_bind_iff fun word _ => returns_bind_iff fun words _ =>
      iff_of_true (returns_pure _) trivial, returns_encode, ih, and_true, List.forall_mem_cons]

end

/-- Every call is allowed where it stands, and the operands of every instruction have their shapes,
with the labels that the source defines. -/
structure WellFormed (source : List Call) : Prop where
  allowed : AllAllowed [] source
  encodable : ∀ i call, (instructionCalls source)[i]? = some call →
    Encodable (Defines source) (placed i call)

/-- The instructions of the source are encoded with the labels of the source. -/
lemma returns_encodeAll_iff {source a} (assembled : Assembled source a) :
    Returns (encodeAll a.labels a.instructions) ↔
      ∀ i call, (instructionCalls source)[i]? = some call →
        Encodable (Defines source) (placed i call) := by
  rw [returns_encodeAll, assembled.instructions]
  constructor
  · intro each i call found
    obtain ⟨hi, rfl⟩ := List.getElem?_eq_some_iff.mp found
    exact (encodable_congr assembled.labels).mp (each _ (List.mem_mapIdx.mpr ⟨i, hi, rfl⟩))
  · intro each instruction mem
    obtain ⟨i, hi, rfl⟩ := List.mem_mapIdx.mp mem
    exact (encodable_congr assembled.labels).mpr (each i _ (List.getElem?_eq_getElem hi))

/-- Exactly the well-formed sources are assembled. -/
lemma returns_assemble {source : List Call} : Returns (assemble source) ↔ WellFormed source := by
  have encoded (a) (called : ({} : Assembler).calls source = .ok a) :=
    returns_encodeAll_iff (assembled_nil.calls called)
  unfold assemble
  rw [returns_bind_iff fun a called => ?_, records_nil.returns_calls]
  · exact ⟨fun h => ⟨h.1, h.2⟩, fun h => ⟨h.allowed, h.encodable⟩⟩
  · rw [returns_bind_iff fun _ _ => iff_of_true (returns_pure _) trivial, and_true]
    exact encoded a called

/-- The assembler makes words of a source, one for each instruction, exactly if the source is well
formed. Every other source raises. -/
theorem assembler_accepts (source : List Call) :
    ((∃ a words, assemble source = .ok (a, words) ∧
        words.length = (instructionCalls source).length) ↔ WellFormed source) ∧
    ((∃ message, assemble source = .error message) ↔ ¬ WellFormed source) := by
  rw [← returns_assemble]
  cases h : assemble source with
  | error message =>
    refine ⟨iff_of_false ?_ (not_returns_error message),
      iff_of_true ⟨message, rfl⟩ (not_returns_error message)⟩
    rintro ⟨_, _, ⟨⟩, _⟩
  | ok result =>
    obtain ⟨a, words⟩ := result
    refine ⟨iff_of_true ⟨a, words, rfl, (word_of_call h).1⟩ (returns_ok _),
      iff_of_false ?_ (not_not.mpr (returns_ok _))⟩
    rintro ⟨_, ⟨⟩⟩

end ToyIsa.Asm
