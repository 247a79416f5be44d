import ToyIsa.Toy.Context

/-!
# The loader

Port of `loadSegment` and `ExecutionContext::loadBinary`. The ELF reader is a library: what it
delivers for a file, or that it cannot read the file, is an argument.
-/

namespace ToyIsa

/-- A segment as the reader delivers it, with the bytes of the file that belong to it. -/
structure ElfSegment where
  type : Word
  flags : Word
  virtualAddress : Nat
  memorySize : Nat
  data : List Byte
  deriving DecidableEq, Repr

def ElfSegment.fileSize (segment : ElfSegment) : Nat := segment.data.length

structure ElfFile where
  type : BitVec 16
  elfClass : Byte
  encoding : Byte
  machine : BitVec 16
  entry : Nat
  segments : List ElfSegment
  deriving DecidableEq, Repr

namespace ElfFile

def etExec : BitVec 16 := 2
def elfClass32 : Byte := 1
def elfData2Lsb : Byte := 1
def ptLoad : Word := 1
def pfX : Word := 1

end ElfFile

/-- An error of the loader. -/
def loaderError (message : String) : Failure :=
  .simulation .incorrectBinaryFile ("[LOADER] " ++ message)

def loadSegment (segment : ElfSegment) : EStateM Failure TIMemory Unit := do
  if segment.fileSize > segment.memorySize then
    throw (loaderError "ELF segment file size exceeds memory size")
  let range ← check ((← get).writableRange (BitVec.ofNat 32 segment.virtualAddress)
    segment.memorySize)
  if segment.fileSize ≠ 0 then
    TIMemory.store range segment.data
  if segment.memorySize > segment.fileSize then
    let rest := segment.memorySize - segment.fileSize
    TIMemory.store ⟨range.data + segment.fileSize, rest⟩ (List.replicate rest 0)

/-- The loop over the segments, with whether an executable one has been found. -/
def loadSegments : List ElfSegment → Bool → EStateM Failure TIMemory Bool
  | [], hasExecutableSegment => pure hasExecutableSegment
  | segment :: segments, hasExecutableSegment => do
    if segment.type ≠ ElfFile.ptLoad then
      loadSegments segments hasExecutableSegment
    else if segment.flags &&& ElfFile.pfX ≠ 0 ∧ segment.memorySize ≠ 0 then
      if segment.memorySize % TI32.instructionSize.toNat ≠ 0 ∨
          segment.virtualAddress % TI32.instructionSize.toNat ≠ 0 then
        throw (loaderError "Executable ELF segment is not instruction-aligned")
      TIMemory.addExecutableRegion (BitVec.ofNat 32 segment.virtualAddress) segment.memorySize
      loadSegment segment
      loadSegments segments true
    else
      loadSegment segment
      loadSegments segments hasExecutableSegment

namespace ExecutionContext

variable {σ : Type}

/-- `file` is what the reader delivers for `filename`. -/
def loadBinary (filename : String) (file : Option ElfFile) (loadAddress : Word := 0) :
    Exec σ Unit :=
  if loadAddress ≠ 0 then
    throw (.simulation .misalignedAccess
      ("[LOADER] ELF does not support a load address: " ++ toString loadAddress.toNat))
  else
    match file with
    | none => throw (loaderError ("Cannot read ELF file: " ++ filename))
    | some reader =>
      if reader.type ≠ ElfFile.etExec ∨ reader.elfClass ≠ ElfFile.elfClass32 ∨
          reader.encoding ≠ ElfFile.elfData2Lsb ∨ reader.machine ≠ TI32.elfMachine then
        throw (loaderError "Expected a 32-bit little-endian Toy ISA ELF")
      else do
        let hasExecutableSegment ← onMemory (loadSegments reader.segments false)
        if hasExecutableSegment then
          setPc (BitVec.ofNat 32 reader.entry)
          setState (·.reset)
          modify fun c => { c with blockCache := c.blockCache.clear }
        else throw (loaderError "ELF must contain a nonempty executable load segment")

end ExecutionContext

end ToyIsa
