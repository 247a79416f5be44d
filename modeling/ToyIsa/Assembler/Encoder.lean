import Mathlib.Algebra.Group.Int.Defs
import ToyIsa.Toy.ExecutionState

/-!
# The encoder of the assembler

Port of `encoder.rb` and of the classes `Instruction`, `LabelInfo` and `Register` of `assembler.rb`.
A Ruby object that can stand as an operand is a `RubyValue`, an exception is its message. Indices
and encoded immediates are natural numbers, because the checks of the source leave nothing else; `&`
with `2 ** width - 1` keeps the low bits, also of a negative integer.
-/

namespace ToyIsa.Asm

inductive RubyValue where
  | register (index : Int)
  | integer (value : Int)
  | symbol (name : String)
  | string (bytes : List Byte)
  | array (elements : List RubyValue)
  | other (className : String)

def RubyValue.className : RubyValue → String
  | .register _ => "Register"
  | .integer _ => "Integer"
  | .symbol _ => "Symbol"
  | .string _ => "String"
  | .array _ => "Array"
  | .other className => className

/-- The names in `INSTRUCTIONS`. -/
inductive Mnemonic where
  | add | addi | or | ld | st | beq | j | clz | ssat | syscall | bext | li | rori | stp | flush
  deriving DecidableEq, Repr

def Mnemonic.name : Mnemonic → String
  | .add => "Add"
  | .addi => "Addi"
  | .or => "Or"
  | .ld => "Ld"
  | .st => "St"
  | .beq => "Beq"
  | .j => "J"
  | .clz => "Clz"
  | .ssat => "Ssat"
  | .syscall => "syscall"
  | .bext => "Bext"
  | .li => "Li"
  | .rori => "Rori"
  | .stp => "Stp"
  | .flush => "flush"

inductive Section where
  | text
  | data
  deriving DecidableEq, Repr

structure LabelInfo where
  sect : Section
  offset : Int
  deriving DecidableEq, Repr

abbrev Labels := String → Option LabelInfo

structure Instruction where
  name : Mnemonic
  operands : List RubyValue
  pc : Int
  line : Nat

namespace Encoder

/-- The exception of `required`. -/
def incorrectType (value : RubyValue) (type : String) (line : Nat) : String :=
  "Incorrect operand type at line " ++ toString line ++ ": expected " ++ type ++ ", got " ++
    value.className

def incorrectCount (instruction : Instruction) (count : Nat) : String :=
  "Incorrect operand count for " ++ instruction.name.name ++ " at line " ++
    toString instruction.line ++ ": expected " ++ toString count ++ ", got " ++
    toString instruction.operands.length

def registerIndex (register : RubyValue) (line : Nat) : Except String Nat :=
  match register with
  | .register index =>
    if 0 ≤ index ∧ index < 32 then .ok index.toNat
    else .error ("Register index must be in range 0..31 at line " ++ toString line)
  | _ => .error (incorrectType register "Register" line)

def signedImmediate (immediate : RubyValue) (width line : Nat) : Except String Nat :=
  match immediate with
  | .integer value =>
    if -2 ^ (width - 1) ≤ value ∧ value ≤ 2 ^ (width - 1) - 1 then
      .ok (value % 2 ^ width).toNat
    else
      .error ("Immediate must fit in signed " ++ toString width ++ " bits at line " ++
        toString line)
  | _ => .error (incorrectType immediate "Integer" line)

def unsignedImmediate (immediate : RubyValue) (width line : Nat) (minimum : Nat := 0) :
    Except String Nat :=
  match immediate with
  | .integer value =>
    if minimum ≤ value ∧ value ≤ 2 ^ width - 1 then .ok value.toNat
    else
      .error ("Immediate must be in range " ++ toString minimum ++ ".." ++
        toString (2 ^ width - 1) ++ " at line " ++ toString line)
  | _ => .error (incorrectType immediate "Integer" line)

/-- The two elements of a memory address. -/
def addressParts (address : RubyValue) (line : Nat) : Except String (RubyValue × RubyValue) :=
  match address with
  | .array [base, offset] => .ok (base, offset)
  | .array _ =>
    .error ("Memory address must contain base and offset at line " ++ toString line)
  | _ => .error (incorrectType address "Array" line)

def memoryAddress (address : RubyValue) (immediateWidth line : Nat) :
    Except String (Nat × Nat) := do
  let (base, immediate) ← addressParts address line
  let baseIndex ← registerIndex base line
  let encoded ← signedImmediate immediate immediateWidth line
  return (baseIndex, encoded)

def labelAddress (labels : Labels) (label : RubyValue) (line : Nat) : Except String Int :=
  match label with
  | .symbol name =>
    match labels name with
    | none => .error ("Unknown label " ++ name ++ " at line " ++ toString line)
    | some labelInfo =>
      if labelInfo.sect = .text then .ok labelInfo.offset
      else
        .error ("Jump target " ++ name ++ " must belong to .text at line " ++ toString line)
  | _ => .error (incorrectType label "Symbol" line)

def requireAlignment (address : Int) (line : Nat) : Except String Unit :=
  if address % 4 = 0 then .ok ()
  else .error ("Jump target must be aligned at line " ++ toString line)

def branchOffset (labels : Labels) (target : RubyValue) (instruction : Instruction) :
    Except String Nat :=
  match target with
  | .integer _ => signedImmediate target 16 instruction.line
  | _ => do
    let targetAddress ← labelAddress labels target instruction.line
    let byteOffset := targetAddress - instruction.pc
    requireAlignment byteOffset instruction.line
    signedImmediate (.integer (byteOffset / 4)) 16 instruction.line

def encodeSt (instruction : Instruction) : Except String Nat :=
  match instruction.operands with
  | [rt, address] => do
    let rtIndex ← registerIndex rt instruction.line
    let (baseIndex, immediate) ← memoryAddress address 14 instruction.line
    return (0x20 <<< 26) ||| (baseIndex <<< 21) ||| (rtIndex <<< 16) ||| immediate
  | _ => .error (incorrectCount instruction 2)

def encodeAddi (instruction : Instruction) : Except String Nat :=
  match instruction.operands with
  | [rt, rs, immediate] => do
    let rtIndex ← registerIndex rt instruction.line
    let rsIndex ← registerIndex rs instruction.line
    let encodedImmediate ← signedImmediate immediate 16 instruction.line
    return (0x17 <<< 26) ||| (rsIndex <<< 21) ||| (rtIndex <<< 16) ||| encodedImmediate
  | _ => .error (incorrectCount instruction 3)

def encodeOr (instruction : Instruction) : Except String Nat :=
  match instruction.operands with
  | [rd, rs, rt] => do
    let rdIndex ← registerIndex rd instruction.line
    let rsIndex ← registerIndex rs instruction.line
    let rtIndex ← registerIndex rt instruction.line
    return (rsIndex <<< 21) ||| (rtIndex <<< 16) ||| (rdIndex <<< 11) ||| 0x1A
  | _ => .error (incorrectCount instruction 3)

def encodeLd (instruction : Instruction) : Except String Nat :=
  match instruction.operands with
  | [rt, address] => do
    let rtIndex ← registerIndex rt instruction.line
    let (base, offset) ← addressParts address instruction.line
    let baseIndex ← registerIndex base instruction.line
    match offset with
    | .integer _ =>
      let immediate ← signedImmediate offset 14 instruction.line
      return (0x33 <<< 26) ||| (baseIndex <<< 21) ||| (rtIndex <<< 16) ||| immediate
    | .register _ =>
      let offsetIndex ← registerIndex offset instruction.line
      return (0x03 <<< 26) ||| (baseIndex <<< 21) ||| (rtIndex <<< 16) ||| (0x03 <<< 14) |||
        offsetIndex
    | _ =>
      throw ("LD offset must be Integer or Register at line " ++ toString instruction.line)
  | _ => .error (incorrectCount instruction 2)

def encodeJ (labels : Labels) (instruction : Instruction) : Except String Nat :=
  match instruction.operands with
  | [label] => do
    let target ← labelAddress labels label instruction.line
    requireAlignment target instruction.line
    let instructionIndex ← unsignedImmediate (.integer (target >>> (2 : Nat))) 26 instruction.line
    return (0x3F <<< 26) ||| instructionIndex
  | _ => .error (incorrectCount instruction 1)

def encodeBeq (labels : Labels) (instruction : Instruction) : Except String Nat :=
  match instruction.operands with
  | [rs, rt, target] => do
    let rsIndex ← registerIndex rs instruction.line
    let rtIndex ← registerIndex rt instruction.line
    let offset ← branchOffset labels target instruction
    return (0x10 <<< 26) ||| (rsIndex <<< 21) ||| (rtIndex <<< 16) ||| offset
  | _ => .error (incorrectCount instruction 3)

def encodeClz (instruction : Instruction) : Except String Nat :=
  match instruction.operands with
  | [rd, rs] => do
    let rdIndex ← registerIndex rd instruction.line
    let rsIndex ← registerIndex rs instruction.line
    return (rdIndex <<< 21) ||| (rsIndex <<< 16) ||| 0x32
  | _ => .error (incorrectCount instruction 2)

def encodeSsat (instruction : Instruction) : Except String Nat :=
  match instruction.operands with
  | [rd, rs, immediate] => do
    let rdIndex ← registerIndex rd instruction.line
    let rsIndex ← registerIndex rs instruction.line
    let encodedImmediate ← unsignedImmediate immediate 5 instruction.line 1
    return (0x08 <<< 26) ||| (rdIndex <<< 21) ||| (rsIndex <<< 16) ||| (encodedImmediate <<< 11)
  | _ => .error (incorrectCount instruction 3)

def encodeAdd (instruction : Instruction) : Except String Nat :=
  match instruction.operands with
  | [rd, rs, rt] => do
    let rdIndex ← registerIndex rd instruction.line
    let rsIndex ← registerIndex rs instruction.line
    let rtIndex ← registerIndex rt instruction.line
    return (rsIndex <<< 21) ||| (rtIndex <<< 16) ||| (rdIndex <<< 11) ||| 0x0C
  | _ => .error (incorrectCount instruction 3)

def encodeSyscall (instruction : Instruction) : Except String Nat :=
  match instruction.operands with
  | [] => .ok 0x1E
  | _ => .error (incorrectCount instruction 0)

def encodeFlush (instruction : Instruction) : Except String Nat :=
  match instruction.operands with
  | [] => .ok (0x26 <<< 26)
  | _ => .error (incorrectCount instruction 0)

def encodeBext (instruction : Instruction) : Except String Nat :=
  match instruction.operands with
  | [rd, rs1, rs2] => do
    let rdIndex ← registerIndex rd instruction.line
    let rs1Index ← registerIndex rs1 instruction.line
    let rs2Index ← registerIndex rs2 instruction.line
    return (rdIndex <<< 21) ||| (rs1Index <<< 16) ||| (rs2Index <<< 11) ||| 0x34
  | _ => .error (incorrectCount instruction 3)

def encodeLi (instruction : Instruction) : Except String Nat :=
  match instruction.operands with
  | [rt, immediate] => do
    let rtIndex ← registerIndex rt instruction.line
    let encodedImmediate ← signedImmediate immediate 16 instruction.line
    return (0x0B <<< 26) ||| (rtIndex <<< 16) ||| encodedImmediate
  | _ => .error (incorrectCount instruction 2)

def encodeRori (instruction : Instruction) : Except String Nat :=
  match instruction.operands with
  | [rd, rs, immediate] => do
    let rdIndex ← registerIndex rd instruction.line
    let rsIndex ← registerIndex rs instruction.line
    let encodedImmediate ← unsignedImmediate immediate 5 instruction.line
    return (0x1D <<< 26) ||| (rdIndex <<< 21) ||| (rsIndex <<< 16) ||| (encodedImmediate <<< 11)
  | _ => .error (incorrectCount instruction 3)

def encodeStp (instruction : Instruction) : Except String Nat :=
  match instruction.operands with
  | [rt1, rt2, address] => do
    let rt1Index ← registerIndex rt1 instruction.line
    let rt2Index ← registerIndex rt2 instruction.line
    let (baseIndex, offset) ← memoryAddress address 11 instruction.line
    return (0x15 <<< 26) ||| (baseIndex <<< 21) ||| (rt1Index <<< 16) ||| (rt2Index <<< 11) |||
      offset
  | _ => .error (incorrectCount instruction 3)

/-- `public_send("encode_…", instruction)`. -/
def encode (labels : Labels) (instruction : Instruction) : Except String Nat :=
  match instruction.name with
  | .add => encodeAdd instruction
  | .addi => encodeAddi instruction
  | .or => encodeOr instruction
  | .ld => encodeLd instruction
  | .st => encodeSt instruction
  | .beq => encodeBeq labels instruction
  | .j => encodeJ labels instruction
  | .clz => encodeClz instruction
  | .ssat => encodeSsat instruction
  | .syscall => encodeSyscall instruction
  | .bext => encodeBext instruction
  | .li => encodeLi instruction
  | .rori => encodeRori instruction
  | .stp => encodeStp instruction
  | .flush => encodeFlush instruction

end Encoder

end ToyIsa.Asm
