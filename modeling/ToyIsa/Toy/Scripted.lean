import ToyIsa.Toy.SyscallEmulator

/-!
# Scripted runs

A host whose standard input is given in advance, and contexts with a program in memory. The
concrete runs of the development start from these.
-/

namespace ToyIsa

/-- Standard input as the bytes that `read(2)` delivers and the numbers that `std::cin` extracts. -/
structure Script where
  bytes : List Byte := []
  numbers : List Word := []
  deriving DecidableEq, Repr

/-- Reads deliver as much as there is, and writes are complete. -/
instance : Host Script where
  read count s := (.ok (s.bytes.take count), { s with bytes := s.bytes.drop count })
  write _ bytes s := (.ok (BitVec.ofNat 32 bytes.length), s)
  extract s :=
    match s.numbers with
    | [] => (none, s)
    | value :: numbers => (some value, { s with numbers := numbers })
  eof s := s.numbers.isEmpty
  read_length := by
    intro count s bytes s' h
    cases h
    exact List.length_take_le count s.bytes

/-- The memory with a program at address 0 in an executable region of its own, and zeros after
it. -/
def TIMemory.ofWords (code : List Word) (padding : Nat)
    (h : 4 * code.length ≤ 2 ^ 32 := by decide) : TIMemory where
  bytes := code.flatMap encodeLittleEndianWord ++ List.replicate padding 0
  executableRegions := [⟨0, 4 * code.length⟩]
  regionsInSpace := by simpa using h

/-- A context that is about to run the program at address 0. -/
def ExecutionContext.ofMemory (memory : TIMemory) (script : Script := {}) :
    ExecutionContext Script := { memory := memory, host := script }

/-- `J 0`, a block that jumps to itself. -/
def selfLoop : ExecutionContext Script := .ofMemory (.ofWords [0xFC000000] 0)

/-- `Li x8, 60`, `Li x1, 4`, a loop of `Addi x0, x0, 1`, `Beq x0, x1, 2` and `J` back to the `Addi`,
and `Syscall`: the guest exits with code 4. -/
def countLoop : ExecutionContext Script :=
  .ofMemory (.ofWords [0x2C08003C, 0x2C010004, 0x5C000001, 0x40010002, 0xFC000002, 0x0000001E] 0)

end ToyIsa
