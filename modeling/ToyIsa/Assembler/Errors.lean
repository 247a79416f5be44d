import ToyIsa.Assembler.Accepts

/-!
# What the assembler reports

A source that is not well formed is answered with its first mistake. `objection` is what is wrong
with a call that is not allowed, in the terms of the source. A message of the encoder names the line
of the first instruction that cannot be encoded (`blames_encode`). `first_mistake_reported` puts the
two together.
-/

namespace ToyIsa.Asm

open Encoder

/-- A computation that raises has raised at one of its steps. -/
lemma Except.bind_eq_error {ε α β : Type} {x : Except ε α} {f : α → Except ε β} {e : ε}
    (h : (x >>= f) = .error e) : x = .error e ∨ ∃ a, x = .ok a ∧ f a = .error e := by
  cases x with
  | error e' =>
    cases h
    exact .inl rfl
  | ok a => exact .inr ⟨a, rfl, h⟩

/-! ## Instructions -/

/-- The message ends with the line, or goes on behind a colon. -/
def NamesLine (line : Nat) (message : String) : Prop :=
  ∃ before after, message = before ++ " at line " ++ toString line ++ after ∧
    (after = "" ∨ ∃ rest, after = ": " ++ rest)

/-- If the computation raises then the message names the line. -/
def Blames {α : Type} (line : Nat) (x : Except String α) : Prop :=
  ∀ message, x = .error message → NamesLine line message

section

variable {α β : Type} {line : Nat}

/-- A message that ends with the line. -/
lemma namesLine_end {text : String} (before : String) (h : text = before ++ " at line ") :
    NamesLine line (text ++ toString line) :=
  ⟨before, "", by rw [h, String.append_empty], .inl rfl⟩

/-- A result blames no line. -/
lemma blames_ok (a : α) : Blames line (.ok a : Except String α) := nofun

/-- An error that names the line blames it. -/
lemma blames_error {message : String} (h : NamesLine line message) :
    Blames line (.error message : Except String α) := by
  rintro _ ⟨⟩
  exact h

/-- A check. -/
lemma blames_ite {p : Prop} [Decidable p] {a : α} {message : String}
    (h : NamesLine line message) :
    Blames line (if p then .ok a else .error message : Except String α) := by
  split
  · exact blames_ok a
  · exact blames_error h

/-- One computation after another. -/
lemma blames_bind {x : Except String α} {f : α → Except String β} (first : Blames line x)
    (rest : ∀ a, Blames line (f a)) : Blames line (x >>= f) := by
  cases x with
  | error message => exact blames_error (first message rfl)
  | ok a => exact rest a

/-- A computation and what is made of its result. -/
lemma blames_map {x : Except String α} {f : α → β} (first : Blames line x) :
    Blames line (x >>= fun a => return f a) := blames_bind first fun a => blames_ok (f a)

end

section

variable {line : Nat} {value : RubyValue}

/-- The error of a wrong type names its line. -/
lemma namesLine_incorrectType (type) : NamesLine line (incorrectType value type line) := by
  refine ⟨"Incorrect operand type", ": expected " ++ type ++ ", got " ++ value.className, ?_,
    .inr ⟨"expected " ++ type ++ ", got " ++ value.className, ?_⟩⟩
  · unfold incorrectType
    simp only [String.append_assoc]
    rfl
  · simp only [String.append_assoc]
    rfl

/-- The error of a wrong operand count names its line. -/
lemma blames_incorrectCount {α : Type} (instruction : Instruction) (count) :
    Blames instruction.line (.error (incorrectCount instruction count) : Except String α) := by
  apply blames_error
  refine ⟨"Incorrect operand count for " ++ instruction.name.name, ": expected " ++
    toString count ++ ", got " ++ toString instruction.operands.length, ?_,
    .inr ⟨"expected " ++ toString count ++ ", got " ++ toString instruction.operands.length, ?_⟩⟩
  · unfold incorrectCount
    simp only [String.append_assoc]
  · simp only [String.append_assoc]
    rfl

/-- The error of a register names its line. -/
lemma blames_registerIndex : Blames line (registerIndex value line) := by
  unfold registerIndex
  split
  · exact blames_ite (namesLine_end "Register index must be in range 0..31" rfl)
  · exact blames_error (namesLine_incorrectType _)

/-- The error of a signed immediate names its line. -/
lemma blames_signedImmediate {width} : Blames line (signedImmediate value width line) := by
  unfold signedImmediate
  split
  · refine blames_ite
      (namesLine_end ("Immediate must fit in signed " ++ toString width ++ " bits") ?_)
    rw [String.append_assoc, String.append_assoc, String.append_assoc]
    rfl
  · exact blames_error (namesLine_incorrectType _)

/-- The error of an unsigned immediate names its line. -/
lemma blames_unsignedImmediate {minimum width : Nat} :
    Blames line (unsignedImmediate value width line minimum) := by
  unfold unsignedImmediate
  split
  · exact blames_ite (namesLine_end _ rfl)
  · exact blames_error (namesLine_incorrectType _)

/-- The error of an address names its line. -/
lemma blames_addressParts : Blames line (addressParts value line) := by
  unfold addressParts
  split
  · exact blames_ok _
  · exact blames_error (namesLine_end "Memory address must contain base and offset" rfl)
  · exact blames_error (namesLine_incorrectType _)

/-- The error of a memory operand names its line. -/
lemma blames_memoryAddress {width} : Blames line (memoryAddress value width line) :=
  blames_bind blames_addressParts fun _ => blames_bind blames_registerIndex fun _ =>
    blames_map blames_signedImmediate

variable {labels : Labels}

/-- The error of a label names its line. -/
lemma blames_labelAddress : Blames line (labelAddress labels value line) := by
  unfold labelAddress
  split
  case h_1 name =>
    split
    · exact blames_error (namesLine_end _ rfl)
    · refine blames_ite (namesLine_end ("Jump target " ++ name ++ " must belong to .text") ?_)
      rw [String.append_assoc, String.append_assoc, String.append_assoc]
      rfl
  case h_2 => exact blames_error (namesLine_incorrectType _)

/-- The error of a misaligned address names its line. -/
lemma blames_requireAlignment {address} : Blames line (requireAlignment address line) :=
  blames_ite (namesLine_end "Jump target must be aligned" rfl)

/-- The error of a branch offset names its line. -/
lemma blames_branchOffset {instruction : Instruction} :
    Blames instruction.line (branchOffset labels value instruction) := by
  unfold branchOffset
  split
  · exact blames_signedImmediate
  · exact blames_bind blames_labelAddress fun _ => blames_bind blames_requireAlignment fun _ =>
      blames_signedImmediate

/-- Two registers and something else. -/
lemma blames_twoRegisters {x y : RubyValue} {k : Nat → Nat → Except String Nat}
    (rest : ∀ a b, Blames line (k a b)) :
    Blames line (do
      let a ← registerIndex x line
      let b ← registerIndex y line
      k a b) :=
  blames_bind blames_registerIndex fun a => blames_bind blames_registerIndex (rest a)

/-- A message of the encoder names the line of the instruction. -/
theorem blames_encode (instruction : Instruction) :
    Blames instruction.line (encode labels instruction) := by
  have wrong (count) := @blames_incorrectCount Nat instruction count
  unfold encode
  cases instruction.name with
  | add | or | bext =>
    dsimp only [Encoder.encodeAdd, Encoder.encodeOr, Encoder.encodeBext]
    split
    · exact blames_twoRegisters fun _ _ => blames_map blames_registerIndex
    · exact wrong 3
  | addi =>
    dsimp only [Encoder.encodeAddi]
    split
    · exact blames_twoRegisters fun _ _ => blames_map blames_signedImmediate
    · exact wrong 3
  | ssat | rori =>
    dsimp only [Encoder.encodeSsat, Encoder.encodeRori]
    split
    · exact blames_twoRegisters fun _ _ => blames_map blames_unsignedImmediate
    · exact wrong 3
  | beq =>
    dsimp only [Encoder.encodeBeq]
    split
    · exact blames_twoRegisters fun _ _ => blames_map blames_branchOffset
    · exact wrong 3
  | stp =>
    dsimp only [Encoder.encodeStp]
    split
    · exact blames_twoRegisters fun _ _ => blames_map blames_memoryAddress
    · exact wrong 3
  | clz =>
    dsimp only [Encoder.encodeClz]
    split
    · exact blames_bind blames_registerIndex fun _ => blames_map blames_registerIndex
    · exact wrong 2
  | li =>
    dsimp only [Encoder.encodeLi]
    split
    · exact blames_bind blames_registerIndex fun _ => blames_map blames_signedImmediate
    · exact wrong 2
  | st =>
    dsimp only [Encoder.encodeSt]
    split
    · exact blames_bind blames_registerIndex fun _ => blames_map blames_memoryAddress
    · exact wrong 2
  | ld =>
    dsimp only [Encoder.encodeLd]
    split
    · refine blames_bind blames_registerIndex fun _ => blames_bind blames_addressParts fun parts =>
        blames_bind blames_registerIndex fun _ => ?_
      split
      · exact blames_map blames_signedImmediate
      · exact blames_map blames_registerIndex
      · exact blames_error (namesLine_end "LD offset must be Integer or Register" rfl)
    · exact wrong 2
  | j =>
    dsimp only [Encoder.encodeJ]
    split
    · exact blames_bind blames_labelAddress fun _ => blames_bind blames_requireAlignment fun _ =>
        blames_map blames_unsignedImmediate
    · exact wrong 1
  | syscall | flush =>
    dsimp only [Encoder.encodeSyscall, Encoder.encodeFlush]
    split
    · exact blames_ok _
    · exact wrong 0

end

/-- The first instruction that cannot be encoded is the one the encoder raises for. -/
lemma encodeAll_error {labels : Labels} {instructions : List Instruction} {message}
    (h : encodeAll labels instructions = .error message) :
    ∃ (i : Nat) (instruction : Instruction), instructions[i]? = some instruction ∧
      encode labels instruction = .error message ∧
      ∀ j < i, ∀ earlier, instructions[j]? = some earlier → Returns (encode labels earlier) := by
  induction instructions with
  | nil => cases h
  | cons instruction rest ih =>
    obtain first | ⟨word, first, h⟩ := Except.bind_eq_error h
    · exact ⟨0, instruction, rfl, first, nofun⟩
    · obtain later | ⟨_, _, ⟨⟩⟩ := Except.bind_eq_error h
      obtain ⟨i, bad, found, raises, before⟩ := ih later
      refine ⟨i + 1, bad, found, raises, fun j lt earlier found' => ?_⟩
      cases j with
      | zero =>
        cases found'
        exact ⟨word, first⟩
      | succ j => exact before j (Nat.lt_of_succ_lt_succ lt) earlier found'

/-! ## Calls -/

/-- What is wrong with a call that is not allowed after the calls `done`. -/
def objection (done : List Call) : Call → String
  | .sect name =>
    if (sectionOf name).isNone then "Unknown section " ++ name.toS
    else "Section " ++ name.toS ++ " is already defined"
  | .label (.symbol name) =>
    if sectionAfter done = none then "Label " ++ name ++ " is defined outside of a section"
    else "Multiple definition of label " ++ name
  | .label name => "Label name must be a Symbol, got " ++ name.className
  | .bytes value =>
    if sectionAfter done = some .data then "Bytes value must be a String, got " ++ value.className
    else "Bytes must be defined in .data section"
  | .instruction name _ _ => "Instruction " ++ name.name ++ " must be defined in .text section"

namespace Records

variable {done rest : List Call} {a : Assembler} {c : Call} {message : String}

/-- A call that raises says what is wrong with it. -/
lemma objects (records : Records done a) (h : a.call c = .error message) :
    message = objection done c := by
  have current := records.assembled.currentSection
  cases c with
  | sect name =>
    change a.openSection name = .error message at h
    unfold Assembler.openSection at h
    dsimp only [objection]
    cases known : sectionOf name with
    | none =>
      rw [known] at h
      cases h
      rfl
    | some sect =>
      rw [known] at h
      dsimp only at h
      split at h
      case isTrue =>
        cases h
        rfl
      case isFalse => cases h
  | label name =>
    cases name with
    | symbol name =>
      change a.defineLabel name = .error message at h
      unfold Assembler.defineLabel at h
      dsimp only [objection]
      rw [current] at h
      cases opened : sectionAfter done with
      | none =>
        rw [opened] at h
        cases h
        rfl
      | some sect =>
        rw [opened] at h
        dsimp only at h
        split at h
        case h_1 =>
          cases h
          rfl
        case h_2 => cases h
    | _ =>
      cases h
      rfl
  | bytes value =>
    dsimp only [objection]
    obtain refused | ⟨_, required, h⟩ := Except.bind_eq_error h
    · unfold Assembler.requireSection at refused
      split at refused
      case isTrue => cases refused
      case isFalse other =>
        cases refused
        rw [if_neg (current ▸ other)]
        rfl
    · unfold Assembler.requireSection at required
      split at required
      case isFalse => cases required
      case isTrue data =>
        rw [if_pos (current ▸ data)]
        cases value with
        | string bytes => cases h
        | _ =>
          cases h
          rfl
  | instruction name operands line =>
    obtain refused | ⟨_, _, ⟨⟩⟩ := Except.bind_eq_error h
    unfold Assembler.requireSection at refused
    split at refused
    case isTrue => cases refused
    case isFalse =>
      cases refused
      dsimp only [objection]
      rw [String.append_assoc, String.append_assoc]
      rfl

/-- The first call that is not allowed is the one the assembler raises for. -/
lemma calls_error (records : Records done a) (h : a.calls rest = .error message) :
    ∃ before c after, rest = before ++ c :: after ∧ AllAllowed done before ∧
      ¬ Allowed (done ++ before) c ∧ message = objection (done ++ before) c := by
  induction rest generalizing done a with
  | nil => cases h
  | cons c rest ih =>
    obtain raised | ⟨b, called, h⟩ := Except.bind_eq_error h
    · refine ⟨[], c, rest, rfl, trivial, ?_, ?_⟩
      · rw [List.append_nil, ← records.returns_call, raised]
        exact not_returns_error message
      · rw [List.append_nil]
        exact records.objects raised
    · obtain ⟨before, bad, after, rfl, allowed, refused, reason⟩ := ih (records.call called) h
      rw [List.append_assoc] at refused reason
      exact ⟨c :: before, bad, after, rfl, ⟨records.returns_call.mp ⟨b, called⟩, allowed⟩, refused,
        reason⟩

end Records

/-! ## Sources -/

/-- The message is about the first mistake of the source: a call that is not allowed, or else the
first instruction that cannot be encoded. -/
inductive Mistake (source : List Call) (message : String) : Prop where
  | call {before c after} :
    source = before ++ c :: after →
    AllAllowed [] before →
    ¬ Allowed before c →
    message = objection before c →
    Mistake source message
  | instruction {i name operands line} :
    AllAllowed [] source →
    (instructionCalls source)[i]? = some (name, operands, line) →
    (∀ j < i, ∀ call, (instructionCalls source)[j]? = some call →
      Encodable (Defines source) (placed j call)) →
    ¬ Encodable (Defines source) (placed i (name, operands, line)) →
    NamesLine line message →
    Mistake source message

/-- The assembler reports the first mistake of a source: it raises for the first call that is not
allowed, with what is wrong with it, and if all calls are allowed then for the first instruction
that cannot be encoded, with a message that names its line. -/
theorem first_mistake_reported {source message} (h : assemble source = .error message) :
    Mistake source message := by
  obtain raised | ⟨a, called, h⟩ := Except.bind_eq_error h
  · obtain ⟨before, c, after, split, allowed, refused, reason⟩ := records_nil.calls_error raised
    exact .call split allowed refused reason
  · have assembled : Assembled source a := assembled_nil.calls called
    obtain raised | ⟨_, _, ⟨⟩⟩ := Except.bind_eq_error h
    obtain ⟨i, bad, found, raises, before⟩ := encodeAll_error raised
    have placed_iff (j call) :
        Returns (encode a.labels (placed j call)) ↔ Encodable (Defines source) (placed j call) :=
      returns_encode.trans (encodable_congr assembled.labels)
    rw [assembled.instructions, List.getElem?_mapIdx] at found
    obtain ⟨⟨name, operands, line⟩, here, rfl⟩ := Option.map_eq_some_iff.mp found
    have allowed : AllAllowed [] source := records_nil.returns_calls.mp ⟨a, called⟩
    have named : NamesLine line message :=
      blames_encode (placed i (name, operands, line)) message raises
    refine .instruction allowed here (fun j lt call earlier => ?_) ?_ named
    · refine (placed_iff j call).mp (before j lt _ ?_)
      rw [assembled.instructions, List.getElem?_mapIdx, earlier]
      rfl
    · rw [← placed_iff, raises]
      exact not_returns_error message

/-- A jump to a label that is nowhere. -/
theorem first_mistake_reported_unknown :
    Mistake [.sect (.symbol "text"), .instruction .j [.symbol "Unknown"] 7]
      "Unknown label Unknown at line 7" := first_mistake_reported rfl

/-- A string is no name of a section, and the message shows its text. -/
example : assemble [.sect (.other "text")] = .error "Unknown section text" := rfl

end ToyIsa.Asm
