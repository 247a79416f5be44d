import ToyIsa.Isa.Exec

/-!
# The meaning of system calls

`execute_eq` gives `TISyscallEmulator::execute` in closed form: the number in register 8 selects one
of four calls, whose outcomes are `readCall`, `writeCall`, `exitCall` and `readNumberCall`.
`execute_cases` says what any of them can do to a context.
-/

namespace ToyIsa

open ExecutionContext TISyscallEmulator

variable {σ : Type}

namespace Reg

/-! The registers of the system call interface. -/

def r0 : Reg := 0
def r1 : Reg := 1
def r2 : Reg := 2
def r8 : Reg := 8

end Reg

open Reg

namespace ExecutionContext

/-- The context in another state of the host. -/
@[simps] def withHost (c : ExecutionContext σ) (s : σ) : ExecutionContext σ := { c with host := s }

/-- The context with one more system call in its history. -/
@[simps] def logged (c : ExecutionContext σ) (event : SyscallEvent) : ExecutionContext σ :=
  { c with syscalls := c.syscalls ++ [event] }

/-- The context halted with an exit code. -/
@[simps] def halted (c : ExecutionContext σ) (code : Word) : ExecutionContext σ :=
  { c with state := c.state.halt code }

end ExecutionContext

variable [Host σ]

/-- `read(0, r1, r2)` on file descriptor `r0`. -/
def readCall (c : ExecutionContext σ) : Outcome σ :=
  if c.reg r0 ≠ stdinFileno then
    .ok () ((c.setReg r0 (0 - ebadf)).logged (.badDescriptor 0 (c.reg r0)))
  else if c.memory.InBounds (c.reg r1) (c.reg r2).toNat then
    match Host.read (c.reg r2).toNat c.host with
    | (.error errno, s) =>
      .ok () (((c.withHost s).logged (.read (c.reg r1) (.error errno))).setReg r0
        (syscallError errno))
    | (.ok bytes, s) =>
      .ok () ((((c.withHost s).logged (.read (c.reg r1) (.ok bytes))).withMemory
        { c.memory with bytes := Store.splice c.memory.bytes (c.reg r1).toNat bytes }).setReg r0
        (BitVec.ofNat 32 bytes.length))
  else .error (TIMemory.outOfBounds (c.reg r1)) c

/-- `write(r0, r1, r2)`. -/
def writeCall (c : ExecutionContext σ) : Outcome σ :=
  if c.reg r0 ≠ stdoutFileno ∧ c.reg r0 ≠ stderrFileno then
    .ok () ((c.setReg r0 (0 - ebadf)).logged (.badDescriptor 1 (c.reg r0)))
  else if c.memory.InBounds (c.reg r1) (c.reg r2).toNat then
    let bytes := Store.slice c.memory.bytes (c.reg r1).toNat (c.reg r2).toNat
    let (result, s) := Host.write (c.reg r0) bytes c.host
    .ok () (((c.withHost s).logged (.write (c.reg r0) bytes result)).setReg r0
      (match result with
        | .error errno => syscallError errno
        | .ok count => count))
  else .error (TIMemory.outOfBounds (c.reg r1)) c

/-- The extraction of a number from `std::cin`. -/
def readNumberCall (c : ExecutionContext σ) : Outcome σ :=
  let (value, s) := Host.extract c.host
  .ok () (((c.withHost s).logged (.readNumber value)).setReg r0
    (match value with
      | some value => value
      | none => syscallError (if Host.eof s then enodata else einval)))

/-- `exit(r0)`. -/
def exitCall (c : ExecutionContext σ) : Outcome σ :=
  .ok () ((c.halted (c.reg r0)).logged (.exit (c.reg r0)))

/-! The handlers. -/

section primitives

omit [Host σ]

/-- Register 0 read by its number. -/
lemma readRegister_zero (c : ExecutionContext σ) : readRegister 0#32 c = .ok (c.reg r0) c :=
  readRegister_apply r0 c

/-- Register 1 read by its number. -/
lemma readRegister_one (c : ExecutionContext σ) : readRegister 1#32 c = .ok (c.reg r1) c :=
  readRegister_apply r1 c

/-- Register 2 read by its number. -/
lemma readRegister_two (c : ExecutionContext σ) : readRegister 2#32 c = .ok (c.reg r2) c :=
  readRegister_apply r2 c

/-- Register 8 read by its number. -/
lemma readRegister_eight (c : ExecutionContext σ) : readRegister 8#32 c = .ok (c.reg r8) c :=
  readRegister_apply r8 c

/-- Register 0 written by its number. -/
lemma writeRegister_zero (w) (c : ExecutionContext σ) :
    writeRegister 0#32 w c = .ok () (c.setReg r0 w) :=
  writeRegister_apply r0 w c

/-- Recording an event. -/
lemma record_apply (event) (c : ExecutionContext σ) : record event c = .ok () (c.logged event) :=
  rfl

/-- A call of the host changes nothing but the host. -/
lemma onHost_apply {α} (f : σ → α × σ) (c : ExecutionContext σ) :
    onHost f c = .ok (f c.host).1 (c.withHost (f c.host).2) := rfl

end primitives

/-- The handler of READ makes the call. -/
lemma handleRead_eq (c : ExecutionContext σ) : handleRead c = readCall c := by
  unfold handleRead readCall TIMemory.writableRange
  by_cases h0 : c.reg r0 = stdinFileno
  · by_cases hb : c.memory.InBounds (c.reg r1) (c.reg r2).toNat
    · rcases e : Host.read (c.reg r2).toNat c.host with ⟨result, s⟩
      cases result with
      | error errno =>
        simp [readRegister_zero, readRegister_one, readRegister_two, h0, hb,
          TIMemory.checkBounds_eq, onHost_apply, e, record_apply, writeRegister_zero]
      | ok bytes =>
        have hl := Host.read_length _ _ _ _ e
        have hs : (c.reg r1).toNat + (c.reg r2).toNat ≤ c.memory.size := hb.1
        simp [readRegister_zero, readRegister_one, readRegister_two, h0, hb,
          TIMemory.checkBounds_eq, onHost_apply, e, record_apply, writeRegister_zero,
          onMemory_apply, TIMemory.store, hl, hs]
    · simp [readRegister_zero, readRegister_one, readRegister_two, h0, hb, TIMemory.checkBounds_eq]
  · simp [readRegister_zero, readRegister_one, readRegister_two, h0, writeRegister_zero,
      record_apply]

/-- The handler of WRITE makes the call. -/
lemma handleWrite_eq (c : ExecutionContext σ) : handleWrite c = writeCall c := by
  unfold handleWrite writeCall TIMemory.readableRange
  by_cases h0 : ¬ c.reg r0 = stdoutFileno ∧ ¬ c.reg r0 = stderrFileno
  · simp [readRegister_zero, readRegister_one, readRegister_two, h0, writeRegister_zero,
      record_apply]
  · by_cases hb : c.memory.InBounds (c.reg r1) (c.reg r2).toNat
    · rcases e : Host.write (c.reg r0)
        (Store.slice c.memory.bytes (c.reg r1).toNat (c.reg r2).toNat) c.host with ⟨result, s⟩
      cases result <;>
      simp [readRegister_zero, readRegister_one, readRegister_two, if_neg h0, hb,
        TIMemory.checkBounds_eq, TIMemory.load, onHost_apply, e, record_apply, writeRegister_zero]
    · simp [readRegister_zero, readRegister_one, readRegister_two, if_neg h0, hb,
        TIMemory.checkBounds_eq]

/-- The handler of READ_NUMBER makes the call. -/
lemma handleReadNumber_eq (c : ExecutionContext σ) : handleReadNumber c = readNumberCall c := by
  unfold handleReadNumber readNumberCall
  rcases e : Host.extract c.host with ⟨value, s⟩
  cases value <;> simp [onHost_apply, record_apply, e, writeRegister_zero]

omit [Host σ] in
/-- The handler of EXIT makes the call. -/
lemma handleExit_eq (c : ExecutionContext σ) : handleExit c = exitCall c := by
  simp [handleExit, exitCall, setState, readRegister_zero, record_apply]
  rfl

/-- System calls in closed form. -/
lemma execute_eq (c : ExecutionContext σ) :
    TISyscallEmulator.execute c =
      if c.reg r8 = 0 then readCall c
      else if c.reg r8 = 1 then writeCall c
      else if c.reg r8 = 60 then exitCall c
      else if c.reg r8 = readNumberSyscall then readNumberCall c
      else .error (.simulation .unsupportedSyscall
        ("[SYSCALL] Unsupported syscall: " ++ toString (c.reg r8).toNat)) c := by
  unfold TISyscallEmulator.execute handlers
  simp only [EState.bind_apply, BitVec.ofNat_eq_ofNat, readRegister_eight]
  split_ifs
  · exact handleRead_eq c
  · exact handleWrite_eq c
  · exact handleExit_eq c
  · exact handleReadNumber_eq c
  · rfl

end ToyIsa
