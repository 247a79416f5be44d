import ToyIsa.Engine.Interpreters

/-!
# Native code

What compiled code does when it is called. The code is the list of IR instructions of the block,
run from first to last. Control passes or does not pass through an instruction: `IF` splits it,
`RETURN` and `END` take it away, `IF_TRUE`, `IF_FALSE` and `MERGE` give it back. An instruction
without control has no effect and no value. Value operations are those of the library.

The C++ helpers that compiled code calls are `noexcept`: they turn an exception into the status
`FAULTED`.
-/

namespace ToyIsa

variable {σ : Type}

/-- The helpers catch every exception. Undefined behaviour is not one. -/
def executeHelper (action : Exec σ Unit) : Exec σ Unit := fun c =>
  match action c with
  | .ok () c => .ok () c
  | .error .undefined c => .error .undefined c
  | .error _ c => .ok () { c with state := c.state.fault }

/-- The function a handler names. -/
def instructionHandler [Host σ] (instruction : TIInstruction) :
    TIInstructionHandler → Exec σ Unit
  | .executeFlush => executeFlush instruction
  | .executeSsat => executeSsat instruction
  | .executeSyscall => executeSyscall instruction
  | .executeInvalid => executeInvalid instruction

def executeInstructionHelper [Host σ] (instruction : TIInstruction)
    (handler : TIInstructionHandler) : Exec σ Unit :=
  executeHelper (instructionHandler instruction handler)

/-- The value is 0 if the read fails. -/
def readMemory32 (address : Word) : Exec σ Word := fun c =>
  match c.memory.read32 address with
  | .ok value => .ok value c
  | .error .undefined => .error .undefined c
  | .error _ => .ok 0 { c with state := c.state.fault }

def writeMemory32 (address value : Word) : Exec σ Unit :=
  executeHelper (ExecutionContext.onMemory (TIMemory.write32 address value))

/-- The representation of a status in memory. -/
def ExecutionStatus.toByte : ExecutionStatus → Word
  | .running => 0
  | .halted => 1
  | .faulted => 2

/-- The state of a native function: the values of the instructions so far, whether control passes,
and whether it came to the last `MERGE` by its first branch. -/
structure IrFrame where
  values : List (Option IrVal) := []
  live : Bool := true
  merged : Bool := true
  deriving DecidableEq, Repr

namespace IrFrame

/-- The value of a reference, if control passed through the instruction. -/
def lookup (f : IrFrame) : IrRef → Option IrVal
  | .const v => some v
  | .param => some .context
  | .insn n => (f.values[n]?).join

/-- The frame after an instruction with value `v`. -/
def push (f : IrFrame) (v : Option IrVal) : IrFrame := { f with values := f.values ++ [v] }

end IrFrame

/-- What one IR instruction does. -/
inductive IrStep (σ : Type) where
  | next (f : IrFrame) (c : ExecutionContext σ)
  | returned (e : Entry) (c : ExecutionContext σ)
  | undefined (c : ExecutionContext σ)

/-- Go on with the value a C++ call returns. -/
def IrStep.ofCall {α} (f : IrFrame) (value : α → Option IrVal) :
    EStateM.Result Failure (ExecutionContext σ) α → IrStep σ
  | .ok a c => .next (f.push (value a)) c
  | .error _ c => .undefined c

/-- A call of a C++ function with the values of its arguments. -/
def callHelper [Host σ] (f : IrFrame) (c : ExecutionContext σ) :
    IrCallee → List IrVal → IrStep σ
  | .executeInstructionHelper, [.context, .instruction i, .handler h] =>
    .ofCall f (fun _ => none) (executeInstructionHelper i h c)
  | .readMemory32, [.context, .word address] =>
    .ofCall f (fun value => some (.word value)) (readMemory32 address c)
  | .writeMemory32, [.context, .word address, .word value] =>
    .ofCall f (fun _ => none) (writeMemory32 address value c)
  | .compressBits, [.word value, .word mask] =>
    .next (f.push (some (.word (ExecutorDetail.compressBits value mask)))) c
  | _, _ => .undefined c

/-- An instruction through which control passes. -/
def IrInsn.execLive [Host σ] (ir : IrLibrary) (level : Byte) (f : IrFrame)
    (c : ExecutionContext σ) : IrInsn → IrStep σ
  | .loadU8 .status => .next (f.push (some (.word c.state.status.toByte))) c
  | .loadU32 (.register i) => .next (f.push (some (.word c.cpu.registers[i]))) c
  | .loadA (.slot address) =>
    match c.blockCache.jitEntries address with
    | some entry => .next (f.push (some (.entry entry))) c
    | none => .undefined c
  | .store (.register i) v =>
    match f.lookup v with
    | some (.word w) =>
      .next (f.push none) { c with
        cpu := { c.cpu with registers := c.cpu.registers.set i w } }
    | _ => .undefined c
  | .store .pc v =>
    match f.lookup v with
    | some (.word w) => .next (f.push none) { c with cpu := { c.cpu with pc := w } }
    | _ => .undefined c
  | .unary op a =>
    match f.lookup a with
    | some (.word w) => .next (f.push (some (.word (ir.unary level op w)))) c
    | _ => .undefined c
  | .binary op a b =>
    match f.lookup a, f.lookup b with
    | some (.word w), some (.word w') =>
      .next (f.push (some (.word (ir.binary level op w w')))) c
    | _, _ => .undefined c
  | .call callee args =>
    match args.mapM f.lookup with
    | some values => callHelper f c callee values
    | none => .undefined c
  | .ifNode condition => .next (f.push (f.lookup condition)) c
  | .endNode => .next { f.push (some (.word 1)) with live := false } c
  | .phi2 a b => .next (f.push (f.lookup (if f.merged then a else b))) c
  | .ret v =>
    match f.lookup v with
    | some (.entry e) => .returned e c
    | _ => .undefined c
  | _ => .undefined c

/-- One IR instruction. The instructions that give control back look at the earlier control
instruction they refer to. -/
def IrInsn.exec [Host σ] (ir : IrLibrary) (level : Byte) (f : IrFrame)
    (c : ExecutionContext σ) (insn : IrInsn) : IrStep σ :=
  match insn with
  | .ifTrue n =>
    match f.lookup n with
    | some (.word w) => .next { f.push none with live := w != 0 } c
    | none => .next { f.push none with live := false } c
    | _ => .undefined c
  | .ifFalse n =>
    match f.lookup n with
    | some (.word w) => .next { f.push none with live := w == 0 } c
    | none => .next { f.push none with live := false } c
    | _ => .undefined c
  | .merge2 a b =>
    let first := (f.lookup a).isSome
    .next { f.push none with live := first || (f.lookup b).isSome, merged := first } c
  | insn => if f.live then insn.execLive ir level f c else .next (f.push none) c

/-- Run native code from a frame on. -/
def evalIr [Host σ] (ir : IrLibrary) (level : Byte) :
    List IrInsn → IrFrame → ExecutionContext σ →
      EStateM.Result Failure (ExecutionContext σ) Entry
  | [], _, c => .error .undefined c
  | insn :: rest, f, c =>
    match insn.exec ir level f c with
    | .next f c => evalIr ir level rest f c
    | .returned e c => .ok e c
    | .undefined c => .error .undefined c

/-- Call a native entry point. Code that is not mapped cannot be called. -/
def callEntry [Host σ] (ir : IrLibrary) (entry : Entry) : Exec σ Entry := fun c =>
  match c.blockCache.nativeCode entry with
  | some native => evalIr ir native.level native.code {} c
  | none => .error .undefined c

end ToyIsa
