import ToyIsa.Assembler.Encoder
import ToyIsa.Toy.BitUtils

/-!
# The assembler

Port of the class `Assembler` of `assembler.rb` and of the assembling in `toy_as.rb`. A source file
is the sequence of the calls it makes; an instruction call knows its line.
-/

namespace ToyIsa.Asm

/-- An argument of `Section`: a symbol, or another object, of which only the text that `to_s` gives
is read. -/
inductive SectionName where
  | symbol (name : String)
  | other (text : String)

def SectionName.toS : SectionName → String
  | .symbol name => name
  | .other text => text

/-- A call of the language. -/
inductive Call where
  | sect (name : SectionName)
  | label (name : RubyValue)
  | bytes (value : RubyValue)
  | instruction (name : Mnemonic) (operands : List RubyValue) (line : Nat)

structure Assembler where
  currentSection : Option Section := none
  openedSections : List Section := []
  textOffset : Nat := 0
  labels : Labels := fun _ => none
  instructions : List Instruction := []
  data : List Byte := []

def Section.name : Section → String
  | .text => "text"
  | .data => "data"

/-- The section of a name in `SECTIONS`. -/
def sectionOf : SectionName → Option Section
  | .symbol name => [Section.text, .data].find? (·.name == name)
  | .other _ => none

namespace Assembler

def openSection (a : Assembler) (name : SectionName) : Except String Assembler :=
  match sectionOf name with
  | none => .error ("Unknown section " ++ name.toS)
  | some sect =>
    if sect ∈ a.openedSections then .error ("Section " ++ name.toS ++ " is already defined")
    else .ok { a with openedSections := sect :: a.openedSections, currentSection := some sect }

def defineLabel (a : Assembler) (name : String) : Except String Assembler :=
  match a.currentSection with
  | none => .error ("Label " ++ name ++ " is defined outside of a section")
  | some sect =>
    match a.labels name with
    | some _ => .error ("Multiple definition of label " ++ name)
    | none =>
      let offset := if sect = .text then a.textOffset else a.data.length
      .ok { a with
        labels := Function.update a.labels name (some { sect := sect, offset := offset }) }

def requireSection (a : Assembler) (expected : Section) (entity : String) : Except String Unit :=
  if a.currentSection = some expected then .ok ()
  else .error (entity ++ " must be defined in ." ++ expected.name ++ " section")

def makeInstruction (a : Assembler) (name : Mnemonic) (operands : List RubyValue) (line : Nat) :
    Assembler :=
  { a with instructions := a.instructions ++ [⟨name, operands, a.textOffset, line⟩] }

def instructionSize : Nat := 4

/-- The effect of one call. -/
def call (a : Assembler) : Call → Except String Assembler
  | .sect name => a.openSection name
  | .label (.symbol name) => a.defineLabel name
  | .label name => .error ("Label name must be a Symbol, got " ++ name.className)
  | .bytes value => do
    a.requireSection .data "Bytes"
    match value with
    | .string bytes => return { a with data := a.data ++ bytes }
    | _ => throw ("Bytes value must be a String, got " ++ value.className)
  | .instruction name operands line => do
    a.requireSection .text ("Instruction " ++ name.name)
    let a := a.makeInstruction name operands line
    return { a with textOffset := a.textOffset + instructionSize }

/-- The calls of a source file. -/
def calls (a : Assembler) : List Call → Except String Assembler
  | [] => .ok a
  | call :: rest => do
    let a ← a.call call
    a.calls rest

end Assembler

/-- Encode the instructions, in order. -/
def encodeAll (labels : Labels) : List Instruction → Except String (List Nat)
  | [] => .ok []
  | instruction :: rest => do
    let word ← Encoder.encode labels instruction
    let words ← encodeAll labels rest
    return word :: words

/-- The bytes of the text section, `pack("V*")`. -/
def pack (words : List Nat) : List Byte :=
  words.flatMap fun word => encodeLittleEndianWord (.ofNat 32 word)

/-- The assembler and the words of a source file. -/
def assemble (source : List Call) : Except String (Assembler × List Nat) := do
  let a ← ({} : Assembler).calls source
  let words ← encodeAll a.labels a.instructions
  return (a, words)

end ToyIsa.Asm
