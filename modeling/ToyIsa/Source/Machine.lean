import ToyIsa.Assembler.Labels

/-!
# Programs of the assembly language

The meaning of a source file, without addresses or encodings. The machine stands at an instruction
call, a label stands for the call that follows it, and an operand is what is written. Only the
memory of the machine is that of the interpreter. A program is `stuck` where control has left the
instruction calls.
-/

namespace ToyIsa.Asm

open ExecutionContext

variable {σ : Type}

/-- The number of instruction calls before the call of a label. -/
def placeOf (name : String) : List Call → Option Nat
  | [] => none
  | .label (.symbol l) :: rest => if l = name then some 0 else placeOf name rest
  | .instruction .. :: rest => (placeOf name rest).map (· + 1)
  | _ :: rest => placeOf name rest

/-- The instruction call at a position. -/
def callAt (source : List Call) (position : Int) : Option (Mnemonic × List RubyValue × Nat) :=
  if position < 0 then none else (instructionCalls source)[position.toNat]?

/-- A register of the source. -/
def regOf (index : Int) : Reg := .ofInt 5 index

/-- An integer of the source. -/
def wordOf (value : Int) : Word := .ofInt 32 value

/-- Assign a computed value to a register. -/
def assign (c : ExecutionContext σ) (index : Int) : Except Failure Word → Outcome σ
  | .ok w => .ok () (c.setReg (regOf index) w)
  | .error e => .error e c

/-- What an instruction does to registers and memory. -/
def sourceEffect [Host σ] (name : Mnemonic) (operands : List RubyValue) (c : ExecutionContext σ) :
    Option (Outcome σ) :=
  let reg (index : Int) : Word := c.reg (regOf index)
  match name, operands with
  | .add, [.register rd, .register rs, .register rt] => some (assign c rd (.ok (reg rs + reg rt)))
  | .addi, [.register rt, .register rs, .integer value] =>
    some (assign c rt (.ok (reg rs + wordOf value)))
  | .or, [.register rd, .register rs, .register rt] => some (assign c rd (.ok (reg rs ||| reg rt)))
  | .ld, [.register rt, .array [.register base, .integer offset]] =>
    some (assign c rt (c.memory.read32 (reg base + wordOf offset)))
  | .ld, [.register rt, .array [.register base, .register rm]] =>
    some (assign c rt (c.memory.read32 (reg base + reg rm)))
  | .st, [.register rt, .array [.register base, .integer offset]] =>
    some (c.storing [(reg base + wordOf offset, reg rt)])
  | .stp, [.register rt1, .register rt2, .array [.register base, .integer offset]] =>
    some (c.storing [(reg base + wordOf offset, reg rt1), (reg base + wordOf offset + 4, reg rt2)])
  | .clz, [.register rd, .register rs] =>
    some (assign c rd (.ok (ExecutorDetail.countLeadingZeros (reg rs))))
  | .ssat, [.register rd, .register rs, .integer width] =>
    some (assign c rd (ExecutorDetail.saturateSigned (reg rs) (wordOf width)))
  | .rori, [.register rd, .register rs, .integer shift] =>
    some (assign c rd (ExecutorDetail.rotateRight (reg rs) (wordOf shift)))
  | .bext, [.register rd, .register rs1, .register rs2] =>
    some (assign c rd (.ok (ExecutorDetail.compressBits (reg rs1) (reg rs2))))
  | .li, [.register rt, .integer value] => some (assign c rt (.ok (wordOf value)))
  | .syscall, [] => some (TISyscallEmulator.execute c)
  | .flush, [] => some (.ok () c.flushed)
  | .j, [.symbol _] | .beq, [.register _, .register _, .symbol _]
  | .beq, [.register _, .register _, .integer _] => some (.ok () c)
  | _, _ => none

/-- The addresses an instruction stores to. -/
def storeTargets (name : Mnemonic) (operands : List RubyValue) (c : ExecutionContext σ) :
    List Word :=
  match name, operands with
  | .st, [.register _, .array [.register base, .integer offset]] =>
    [c.reg (regOf base) + wordOf offset]
  | .stp, [.register _, .register _, .array [.register base, .integer offset]] =>
    [c.reg (regOf base) + wordOf offset, c.reg (regOf base) + wordOf offset + 4]
  | _, _ => []

/-- Where control goes, in the context that the instruction leaves. -/
def sourceNext (source : List Call) (position : Int) (name : Mnemonic)
    (operands : List RubyValue) (c : ExecutionContext σ) : Option Int :=
  match name, operands with
  | .j, [.symbol label] => (placeOf label source).map Int.ofNat
  | .beq, [.register rs, .register rt, .symbol label] =>
    if c.reg (regOf rs) = c.reg (regOf rt) then (placeOf label source).map Int.ofNat
    else some (position + 1)
  | .beq, [.register rs, .register rt, .integer offset] =>
    some (if c.reg (regOf rs) = c.reg (regOf rt) then position + offset else position + 1)
  | .syscall, _ => some (if c.state.status = .running then position + 1 else position)
  | _, _ => some (position + 1)

structure SourceState (σ : Type) where
  position : Int
  context : ExecutionContext σ

inductive SourceEnd (σ : Type) where
  | stopped (position : Int) (o : Outcome σ)
  | stuck (s : SourceState σ)

/-- One instruction of a source program. -/
def sourceStep [Host σ] (source : List Call) (s : SourceState σ) : SourceState σ ⊕ SourceEnd σ :=
  if s.context.state.status = .running then
    match callAt source s.position with
    | none => .inr (.stuck s)
    | some (name, operands, _) =>
      match sourceEffect name operands s.context with
      | none => .inr (.stuck s)
      | some (.error e d) => .inr (.stopped s.position (.error e d))
      | some (.ok () d) =>
        match sourceNext source s.position name operands d with
        | none => .inr (.stuck s)
        | some position => .inl ⟨position, d⟩
  else .inr (.stopped s.position (.ok () s.context))

end ToyIsa.Asm
