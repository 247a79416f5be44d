import ToyIsa.Toy.BitUtils

/-!
# Instructions and the decoder

Port of `instruction.hpp`, of `getThreadedHandler` of `threaded_executor.cpp` and of `decoder.cpp`.
A threaded handler is a function pointer in the source; here it is the name of the function, which
the threaded engine interprets.
-/

namespace ToyIsa

inductive TIOpcode where
  | invalid | li | add | addi | or | ldReg | st | stp | beq | j | clz | ssat | rori | bext
  | syscall | ldImm | flush
  deriving DecidableEq, Repr

inductive OperandType where
  | register
  | immediate
  deriving DecidableEq, Repr

structure Operand where
  type : OperandType := .immediate
  value : Word := 0
  deriving DecidableEq, Repr

inductive TIThreadedHandler where
  | threadedInvalid | threadedLi | threadedAdd | threadedAddi | threadedOr | threadedLdReg
  | threadedSt | threadedStp | threadedBeq | threadedJ | threadedClz | threadedSsat | threadedRori
  | threadedBext | threadedSyscall | threadedLdImm | threadedFlush
  deriving DecidableEq, Repr

structure TIInstruction where
  opCode : TIOpcode := .invalid
  operands : List Operand := []
  threadedHandler : Option TIThreadedHandler := none
  deriving DecidableEq, Repr

/-- `Operands[Index].Value`, undefined behaviour past the end of the vector. -/
def TIInstruction.operand (instruction : TIInstruction) (index : Nat) : Except Failure Word :=
  match instruction.operands[index]? with
  | some operand => .ok operand.value
  | none => .error .undefined

def getThreadedHandler : TIOpcode → TIThreadedHandler
  | .li => .threadedLi
  | .add => .threadedAdd
  | .addi => .threadedAddi
  | .or => .threadedOr
  | .ldReg => .threadedLdReg
  | .st => .threadedSt
  | .stp => .threadedStp
  | .flush => .threadedFlush
  | .beq => .threadedBeq
  | .j => .threadedJ
  | .clz => .threadedClz
  | .ssat => .threadedSsat
  | .rori => .threadedRori
  | .bext => .threadedBext
  | .syscall => .threadedSyscall
  | .ldImm => .threadedLdImm
  | .invalid => .threadedInvalid

namespace TIDecoder

def decodeSt (word : Word) : TIInstruction :=
  let base := extractBits word 21 5
  let rt := extractBits word 16 5
  let immediate := signExtend (extractBits word 0 14) 14
  { opCode := .st
    operands := [⟨.register, rt⟩, ⟨.register, base⟩, ⟨.immediate, immediate⟩] }

def decodeAddi (word : Word) : TIInstruction :=
  let rs := extractBits word 21 5
  let rt := extractBits word 16 5
  let immediate := signExtend (extractBits word 0 16) 16
  { opCode := .addi
    operands := [⟨.register, rt⟩, ⟨.register, rs⟩, ⟨.immediate, immediate⟩] }

def decodeOr (word : Word) : TIInstruction :=
  let rs := extractBits word 21 5
  let rt := extractBits word 16 5
  let rd := extractBits word 11 5
  { opCode := .or
    operands := [⟨.register, rd⟩, ⟨.register, rs⟩, ⟨.register, rt⟩] }

def decodeLdReg (word : Word) : TIInstruction :=
  let base := extractBits word 21 5
  let rt := extractBits word 16 5
  let rm := extractBits word 0 5
  { opCode := .ldReg
    operands := [⟨.register, rt⟩, ⟨.register, base⟩, ⟨.register, rm⟩] }

def decodeJ (word : Word) : TIInstruction :=
  { opCode := .j
    operands := [⟨.immediate, extractBits word 0 26⟩] }

def decodeBeq (word : Word) : TIInstruction :=
  let rs := extractBits word 21 5
  let rt := extractBits word 16 5
  let offset := signExtend (extractBits word 0 16) 16
  { opCode := .beq
    operands := [⟨.register, rs⟩, ⟨.register, rt⟩, ⟨.immediate, offset⟩] }

def decodeClz (word : Word) : TIInstruction :=
  { opCode := .clz
    operands := [⟨.register, extractBits word 21 5⟩, ⟨.register, extractBits word 16 5⟩] }

def decodeSsat (word : Word) : TIInstruction :=
  { opCode := .ssat
    operands := [⟨.register, extractBits word 21 5⟩, ⟨.register, extractBits word 16 5⟩,
      ⟨.immediate, extractBits word 11 5⟩] }

def decodeLdImm (word : Word) : TIInstruction :=
  let base := extractBits word 21 5
  let rt := extractBits word 16 5
  let immediate := signExtend (extractBits word 0 14) 14
  { opCode := .ldImm
    operands := [⟨.register, rt⟩, ⟨.register, base⟩, ⟨.immediate, immediate⟩] }

def decodeAdd (word : Word) : TIInstruction :=
  { opCode := .add
    operands := [⟨.register, extractBits word 11 5⟩, ⟨.register, extractBits word 21 5⟩,
      ⟨.register, extractBits word 16 5⟩] }

def decodeSyscall (word : Word) : TIInstruction :=
  { opCode := .syscall
    operands := [⟨.immediate, extractBits word 6 20⟩] }

def decodeBext (word : Word) : TIInstruction :=
  { opCode := .bext
    operands := [⟨.register, extractBits word 21 5⟩, ⟨.register, extractBits word 16 5⟩,
      ⟨.register, extractBits word 11 5⟩] }

def decodeLi (word : Word) : TIInstruction :=
  { opCode := .li
    operands := [⟨.register, extractBits word 16 5⟩,
      ⟨.immediate, signExtend (extractBits word 0 16) 16⟩] }

def decodeRori (word : Word) : TIInstruction :=
  { opCode := .rori
    operands := [⟨.register, extractBits word 21 5⟩, ⟨.register, extractBits word 16 5⟩,
      ⟨.immediate, extractBits word 11 5⟩] }

def decodeStp (word : Word) : TIInstruction :=
  { opCode := .stp
    operands := [⟨.register, extractBits word 16 5⟩, ⟨.register, extractBits word 11 5⟩,
      ⟨.register, extractBits word 21 5⟩,
      ⟨.immediate, signExtend (extractBits word 0 11) 11⟩] }

def decodeFlush (_ : Word) : TIInstruction :=
  { opCode := .flush }

structure DecodeInfo where
  opCode : TIOpcode := .invalid
  mask : Word := 0
  reference : Word := 0
  handler : Word → TIInstruction

/-- A word matches a row if its fixed bits are those of the row. -/
def DecodeInfo.matches (info : DecodeInfo) (word : Word) : Bool :=
  word &&& info.mask == info.reference

def decodeVector : List DecodeInfo :=
  [⟨.st, 0xFC00C000, 0x80000000, decodeSt⟩,
   ⟨.addi, 0xFC000000, 0x5C000000, decodeAddi⟩,
   ⟨.or, 0xFC0007FF, 0x0000001A, decodeOr⟩,
   ⟨.ldReg, 0xFC00FFE0, 0x0C00C000, decodeLdReg⟩,
   ⟨.j, 0xFC000000, 0xFC000000, decodeJ⟩,
   ⟨.beq, 0xFC000000, 0x40000000, decodeBeq⟩,
   ⟨.clz, 0xFC00FFFF, 0x00000032, decodeClz⟩,
   ⟨.ssat, 0xFC0007FF, 0x20000000, decodeSsat⟩,
   ⟨.ldImm, 0xFC00C000, 0xCC000000, decodeLdImm⟩,
   ⟨.add, 0xFC0007FF, 0x0000000C, decodeAdd⟩,
   ⟨.syscall, 0xFC00003F, 0x0000001E, decodeSyscall⟩,
   ⟨.bext, 0xFC0007FF, 0x00000034, decodeBext⟩,
   ⟨.li, 0xFFE00000, 0x2C000000, decodeLi⟩,
   ⟨.rori, 0xFC0007FF, 0x74000000, decodeRori⟩,
   ⟨.stp, 0xFC000000, 0x54000000, decodeStp⟩,
   ⟨.flush, 0xFC000000, 0x98000000, decodeFlush⟩]

def decode (word : Word) : TIInstruction :=
  match decodeVector.find? (·.matches word) with
  | some info =>
    let instruction := info.handler word
    { instruction with threadedHandler := some (getThreadedHandler instruction.opCode) }
  | none => { opCode := .invalid, threadedHandler := some (getThreadedHandler .invalid) }

end TIDecoder

end ToyIsa
