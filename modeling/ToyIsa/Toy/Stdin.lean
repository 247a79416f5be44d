import Mathlib.Algebra.Ring.Int.Defs
import ToyIsa.Toy.SyscallEmulator

/-!
# Standard input

A host whose standard input is given byte by byte. `read(2)` takes bytes from descriptor 0, and
`std::cin` reads ahead from it into a buffer of its own. How many bytes the descriptor delivers at
once is up to the outside world, so it is a parameter. Reads do not fail.
-/

namespace ToyIsa

/-- A byte of standard input and its position. -/
abbrev InputByte := Byte × Nat

structure Stdin where
  /-- The bytes that descriptor 0 still has. -/
  unread : List InputByte
  /-- The most bytes, less one, that each read of the descriptor delivers. -/
  supply : Nat → Nat
  reads : Nat := 0
  /-- The bytes that `std::cin` has read ahead. -/
  buffer : List InputByte := []
  /-- `failbit` of `std::cin`. -/
  failed : Bool := false
  /-- `eofbit` of `std::cin`. -/
  atEnd : Bool := false
  /-- The bytes that the system calls have consumed, in order. The program does not read them. -/
  consumed : List InputByte := []

namespace Stdin

/-- Standard input of a process that is about to start. -/
def ofBytes (bytes : List Byte) (supply : Nat → Nat) : Stdin :=
  { unread := bytes.zipIdx, supply := supply }

/-- `read(2)` of at most `count` bytes, none only at the end of the input. -/
def deliver (s : Stdin) (count : Nat) : List InputByte × Stdin :=
  let size := min count (s.supply s.reads + 1)
  (s.unread.take size, { s with unread := s.unread.drop size, reads := s.reads + 1 })

/-- `std::cin` fills its buffer, which is empty. -/
def readAhead (s : Stdin) : Stdin :=
  let (bytes, s) := s.deliver s.unread.length
  { s with buffer := bytes }

/-- The next character of `std::cin`, which reads ahead if its buffer is empty. -/
def peek (s : Stdin) : Option Byte × Stdin :=
  match s.buffer with
  | b :: _ => (some b.1, s)
  | [] => (s.readAhead.buffer.head?.map Prod.fst, s.readAhead)

/-- Extract a character. -/
def bump (s : Stdin) : Stdin :=
  { s with buffer := s.buffer.tail, consumed := s.consumed ++ s.buffer.take 1 }

/-- Extract characters as long as they satisfy `p`, for at most `fuel` characters. -/
def scan (p : Byte → Bool) : Nat → Stdin → List Byte × Stdin
  | 0, s => ([], s)
  | fuel + 1, s =>
    match s.peek with
    | (none, s) => ([], { s with atEnd := true })
    | (some b, s) =>
      if p b then
        let (bytes, s) := scan p fuel s.bump
        (b :: bytes, s)
      else ([], s)

/-- Extract characters as long as they satisfy `p`. -/
def scanWhile (p : Byte → Bool) (s : Stdin) : List Byte × Stdin :=
  scan p (s.buffer.length + s.unread.length + 1) s

def isSpace (b : Byte) : Bool := b == 32 || 9 ≤ b && b ≤ 13

def isDigit (b : Byte) : Bool := 48 ≤ b && b ≤ 57

def isMinus (b : Byte) : Bool := b == 45

def isPlus (b : Byte) : Bool := b == 43

/-- Extract a sign if there is one. -/
def scanSign (s : Stdin) : Bool × Stdin :=
  match s.peek with
  | (none, s) => (false, s)
  | (some b, s) =>
    if isMinus b then (true, s.bump)
    else if isPlus b then (false, s.bump)
    else (false, s)

/-- The value of some decimal digits. -/
def decimal (digits : List Byte) : Nat := digits.foldl (fun n b => 10 * n + (b.toNat - 48)) 0

/-- The number of type `int32_t` with a sign and some digits. -/
def number (negative : Bool) (digits : List Byte) : Option Int :=
  let value : Int := if negative then -decimal digits else decimal digits
  if digits ≠ [] ∧ -2 ^ 31 ≤ value ∧ value < 2 ^ 31 then some value else none

/-- `std::cin >> Value`. -/
def extract (s : Stdin) : Option Word × Stdin :=
  if s.failed || s.atEnd then (none, { s with failed := true })
  else
    let (_, s) := s.scanWhile isSpace
    if s.atEnd then (none, { s with failed := true })
    else
      let (negative, s) := s.scanSign
      let (digits, s) := s.scanWhile isDigit
      match number negative digits with
      | some value => (some (BitVec.ofInt 32 value), s)
      | none => (none, { s with failed := true })

instance : Host Stdin where
  read count s :=
    let (bytes, s) := s.deliver count
    (.ok (bytes.map Prod.fst), { s with consumed := s.consumed ++ bytes })
  write _ bytes s := (.ok (BitVec.ofNat 32 bytes.length), s)
  extract := extract
  eof s := s.atEnd
  read_length := by
    intro count s bytes s' h
    cases h
    rw [List.length_map]
    exact Nat.le_trans (List.length_take_le _ _) (Nat.min_le_left _ _)

end Stdin

end ToyIsa
