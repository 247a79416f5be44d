import ToyIsa.Assembler.Program
import ToyIsa.Toy.Loader

/-!
# The ELF writer

Port of `elf_writer.cpp` and of `write_elf` and `main` of `toy_as.rb`. The ELF library is a
parameter: what `save` makes of a `Writer`, and what a reader delivers for the file. The file system
is a function from names to contents; the two temporary files of `write_elf` have the names that
they get their own from.
-/

namespace ToyIsa.Asm

/-- What a section of `Writer` has been given. -/
structure ElfSection where
  name : String
  type : Word
  flags : Word
  address : Word
  addrAlign : Word
  data : List Byte
  deriving DecidableEq, Repr

/-- What a segment of `Writer` has been given. -/
structure ElfWriterSegment where
  type : Word
  virtualAddress : Word
  physicalAddress : Word
  flags : Word
  align : Word
  sect : ElfSection
  deriving DecidableEq, Repr

structure ElfWriter where
  elfClass : Byte
  encoding : Byte
  osAbi : Byte
  type : BitVec 16
  machine : BitVec 16
  entry : Word
  segments : List ElfWriterSegment
  deriving DecidableEq, Repr

/-- The part of a file that the loader reads. -/
def ElfWriterSegment.delivered (s : ElfWriterSegment) : ElfSegment where
  type := s.type
  flags := s.flags
  virtualAddress := s.virtualAddress.toNat
  memorySize := s.sect.data.length
  data := s.sect.data

def ElfWriter.delivered (w : ElfWriter) : ElfFile where
  type := w.type
  elfClass := w.elfClass
  encoding := w.encoding
  machine := w.machine
  entry := w.entry.toNat
  segments := w.segments.map ElfWriterSegment.delivered

/-- Each segment starts with its section, at an address that is aligned, and the length of the
section fits in a header of class 32. -/
def ElfWriter.Placed (w : ElfWriter) : Prop :=
  ∀ s ∈ w.segments, s.sect.address = s.virtualAddress ∧
    s.virtualAddress.toNat % s.align.toNat = 0 ∧ s.sect.addrAlign = s.align ∧
    s.sect.data.length < 2 ^ 32

/-- The ELF library with files `φ`. -/
structure ElfLibrary (φ : Type) where
  save : ElfWriter → Option φ
  load : φ → Option ElfFile

/-- A file that was saved is read back. -/
def ElfLibrary.Documented {φ : Type} (elf : ElfLibrary φ) : Prop :=
  ∀ w f, w.Placed → elf.save w = some f → elf.load f = some w.delivered

/-- A library whose files are what the loader reads of them. -/
def ElfLibrary.reference : ElfLibrary ElfFile where
  save w := some w.delivered
  load := some

/-- The reference library reads back what it saved. -/
lemma ElfLibrary.reference_documented : ElfLibrary.reference.Documented := by
  intro w f _ h
  cases h
  rfl

namespace ElfWriter

def textAddress : Word := 0
def sectionAlignment : Word := 4

def elfOsAbiLinux : Byte := 3
def shtProgBits : Word := 1
def shfWrite : Word := 1
def shfAlloc : Word := 2
def shfExecInstr : Word := 4
def pfW : Word := 2
def pfR : Word := 4

abbrev FileSystem := String → Option (List Byte)

def readBinary (files : FileSystem) (filename : String) : Except String (List Byte) :=
  match files filename with
  | none => .error ("Cannot open section file: " ++ filename)
  | some data => .ok data

/-- A section of its own segment. -/
def segment (name : String) (sectionFlags address flags : Word) (data : List Byte) :
    ElfWriterSegment where
  type := ElfFile.ptLoad
  virtualAddress := address
  physicalAddress := address
  flags := flags
  align := sectionAlignment
  sect := {
    name := name
    type := shtProgBits
    flags := sectionFlags
    address := address
    addrAlign := sectionAlignment
    data := data }

/-- What `writeElf` makes of `Writer`. -/
def ofSections (text data : List Byte) : ElfWriter where
  elfClass := ElfFile.elfClass32
  encoding := ElfFile.elfData2Lsb
  osAbi := elfOsAbiLinux
  type := ElfFile.etExec
  machine := TI32.elfMachine
  entry := textAddress
  segments :=
    let dataAddress : Word := .ofNat 32 text.length
    [segment ".text" (shfAlloc ||| shfExecInstr) textAddress (pfR ||| ElfFile.pfX) text,
      segment ".data" (shfAlloc ||| shfWrite) dataAddress (pfR ||| pfW) data]

section

variable {φ : Type} (elf : ElfLibrary φ)

def writeElf (files : FileSystem) (outputFilename textFilename dataFilename : String) :
    Except String φ := do
  let text ← readBinary files textFilename
  let data ← readBinary files dataFilename
  if text.isEmpty ∨ text.length % sectionAlignment.toNat ≠ 0 then
    throw "Incorrect test section format"
  match elf.save (ofSections text data) with
  | some file => return file
  | none => throw ("Cannot write ELF file: " ++ outputFilename)

/-- What the process `toy_elf_writer` leaves behind. -/
structure WriterEnd (φ : Type) where
  file : Option φ
  errors : String
  exitStatus : Nat

/-- `main` of `elf_writer.cpp`. The arguments include the name of the program. -/
def main (files : FileSystem) (arguments : List String) : WriterEnd φ :=
  match arguments with
  | [_, output, text, data] =>
    match writeElf elf files output text data with
    | .ok file => ⟨some file, "", 0⟩
    | .error message => ⟨none, "[ELF WRITER] " ++ message ++ "\n", 1⟩
  | _ =>
    ⟨none, "Usage: " ++ arguments.headD "" ++ " <output.elf> <text.bin> <data.bin>\n", 1⟩

end

end ElfWriter

namespace ToyAs

/-- The names of the temporary files. -/
def textFile : String := "toy_text"
def dataFile : String := "toy_data"

section

variable {φ : Type} (elf : ElfLibrary φ)

/-- `write_elf`, where the ELF writer has been built. -/
def writeElf (outputPath : String) (text data : List Byte) : Except String φ :=
  let files (name : String) : Option (List Byte) :=
    if name = textFile then some text else if name = dataFile then some data else none
  match ElfWriter.main elf files ["toy_elf_writer", outputPath, textFile, dataFile] with
  | ⟨some file, _, 0⟩ => .ok file
  | _ => .error "ELF writer failed"

/-- `main` of `toy_as.rb` for a source file with these calls. -/
def assembleFile (outputPath : String) (source : List Call) : Except String φ := do
  let (assembler, words) ← assemble source
  writeElf elf outputPath (pack words) assembler.data

end

end ToyAs

end ToyIsa.Asm
