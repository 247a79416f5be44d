import ToyIsa.Toy.Context

/-!
# System calls

Port of `syscall_emulator.cpp`.
-/

namespace ToyIsa.TISyscallEmulator

open ExecutionContext

variable {σ : Type} [Host σ]

def readNumberSyscall : Word := 337
def stdinFileno : Word := 0
def stdoutFileno : Word := 1
def stderrFileno : Word := 2

def ebadf : Word := 9
def einval : Word := 22
def enodata : Word := 61

/-- The result of a system call that failed with `errno`. -/
def syscallError (errno : Word) : Word := 0 - errno

def handleRead : Exec σ Unit := do
  let guestFileDescriptor ← readRegister 0
  let address ← readRegister 1
  let byteCount ← readRegister 2
  if guestFileDescriptor ≠ stdinFileno then
    writeRegister 0 (0 - ebadf)
    record (.badDescriptor 0 guestFileDescriptor)
  else
    let buffer ← check ((← get).memory.writableRange address byteCount.toNat)
    let result ← onHost (Host.read buffer.size)
    record (.read address result)
    match result with
    | .error errno => writeRegister 0 (syscallError errno)
    | .ok bytes =>
      onMemory (TIMemory.store buffer bytes)
      writeRegister 0 (BitVec.ofNat 32 bytes.length)

def handleReadNumber : Exec σ Unit := do
  let value ← onHost Host.extract
  record (.readNumber value)
  match value with
  | some value => writeRegister 0 value
  | none =>
    let errno := if Host.eof (← get).host then enodata else einval
    writeRegister 0 (syscallError errno)

def handleWrite : Exec σ Unit := do
  let guestFileDescriptor ← readRegister 0
  let address ← readRegister 1
  let byteCount ← readRegister 2
  if guestFileDescriptor ≠ stdoutFileno ∧ guestFileDescriptor ≠ stderrFileno then
    writeRegister 0 (0 - ebadf)
    record (.badDescriptor 1 guestFileDescriptor)
  else
    let memory := (← get).memory
    let buffer ← check (memory.readableRange address byteCount.toNat)
    let bytes := memory.load buffer
    let result ← onHost (Host.write guestFileDescriptor bytes)
    record (.write guestFileDescriptor bytes result)
    match result with
    | .error errno => writeRegister 0 (syscallError errno)
    | .ok count => writeRegister 0 count

def handleExit : Exec σ Unit := do
  let code ← readRegister 0
  setState (·.halt code)
  record (.exit code)

/-- The table `Handlers`. -/
def handlers (number : Word) : Option (Exec σ Unit) :=
  if number = 0 then some handleRead
  else if number = 1 then some handleWrite
  else if number = 60 then some handleExit
  else if number = readNumberSyscall then some handleReadNumber
  else none

def execute : Exec σ Unit := do
  let syscallNumber ← readRegister 8
  match handlers syscallNumber with
  | none =>
    throw (.simulation .unsupportedSyscall
      ("[SYSCALL] Unsupported syscall: " ++ toString syscallNumber.toNat))
  | some handler => handler

end ToyIsa.TISyscallEmulator
