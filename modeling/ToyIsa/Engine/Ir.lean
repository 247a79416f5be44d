import ToyIsa.Toy.Decoder

/-!
# The intermediate representation of compiled blocks

The instructions `jit_executor.cpp` emits through the IR builder, as data. A reference is a
constant, the parameter of the function, or the value of an earlier instruction by its position.
The builder is not part of the repository: what its value operations compute is the parameter
`IrLibrary`, and `IrLibrary.Documented` says what their documentation promises.
-/

namespace ToyIsa

/-- A native entry point (`TIJitFunction`): the number of the compilation that produced it, and 0
for a null pointer. -/
abbrev Entry := Nat

/-- The functions passed to `executeInstructionHelper`. -/
inductive TIInstructionHandler where
  | executeFlush | executeSsat | executeSyscall | executeInvalid
  deriving DecidableEq, Repr

/-- A value of an IR reference. Integers of every width are words. -/
inductive IrVal where
  | word (w : Word)
  | entry (e : Entry)
  | context
  | instruction (i : TIInstruction)
  | handler (h : TIInstructionHandler)
  deriving DecidableEq, Repr

/-- A constant address of the context: a register, the PC, the status, or a chaining slot. -/
inductive IrPtr where
  | register (i : Fin TI32.registerCount)
  | pc
  | status
  | slot (address : Word)
  deriving DecidableEq, Repr

inductive IrRef where
  | const (v : IrVal)
  | param
  | insn (n : Nat)
  deriving DecidableEq, Repr

inductive IrUnary where
  | zextU32 | ctlzU32 | bitcastI32 | bitcastU32
  deriving DecidableEq, Repr

inductive IrBinary where
  | addU32 | orU32 | eq | ne | rorU32 | maxI32 | minI32
  deriving DecidableEq, Repr

/-- The C++ functions compiled code calls. -/
inductive IrCallee where
  | executeInstructionHelper | readMemory32 | writeMemory32 | compressBits
  deriving DecidableEq, Repr

inductive IrInsn where
  | loadU8 (p : IrPtr)
  | loadU32 (p : IrPtr)
  | loadA (p : IrPtr)
  | store (p : IrPtr) (v : IrRef)
  | unary (op : IrUnary) (a : IrRef)
  | binary (op : IrBinary) (a b : IrRef)
  | call (f : IrCallee) (args : List IrRef)
  | ifNode (c : IrRef)
  | ifTrue (n : IrRef)
  | ifFalse (n : IrRef)
  | endNode
  | merge2 (a b : IrRef)
  | phi2 (a b : IrRef)
  | ret (v : IrRef)
  deriving DecidableEq, Repr

/-- The external IR library: what its value operations compute at an optimisation level, and
whether `ir_jit_compile` returns an entry point, which it may decide anew for each compilation. -/
structure IrLibrary where
  unary : (level : Byte) → IrUnary → Word → Word
  binary : (level : Byte) → IrBinary → Word → Word → Word
  jitCompile : (compilation : Nat) → (level : Byte) → List IrInsn → Bool

/-- The value operations behave as documented, at every optimisation level. `CTLZ` of 0 is left
open. -/
structure IrLibrary.Documented (ir : IrLibrary) : Prop where
  zextU32 : ∀ level a, ir.unary level .zextU32 a = a
  ctlzU32 : ∀ level a, a ≠ 0 → ir.unary level .ctlzU32 a = a.clz
  bitcastI32 : ∀ level a, ir.unary level .bitcastI32 a = a
  bitcastU32 : ∀ level a, ir.unary level .bitcastU32 a = a
  addU32 : ∀ level a b, ir.binary level .addU32 a b = a + b
  orU32 : ∀ level a b, ir.binary level .orU32 a b = a ||| b
  eq : ∀ level a b, ir.binary level .eq a b = if a = b then 1 else 0
  ne : ∀ level a b, ir.binary level .ne a b = if a = b then 0 else 1
  rorU32 : ∀ level a b, ir.binary level .rorU32 a b = a.rotateRight b.toNat
  maxI32 : ∀ level a b, ir.binary level .maxI32 a b = if a.slt b then b else a
  minI32 : ∀ level a b, ir.binary level .minI32 a b = if b.slt a then b else a

/-- Every compilation returns an entry point. -/
def IrLibrary.Compiles (ir : IrLibrary) : Prop := ∀ n level code, ir.jitCompile n level code = true

/-- A library that computes what the documentation says. -/
def IrLibrary.reference : IrLibrary where
  unary _
    | .zextU32, a | .bitcastI32, a | .bitcastU32, a => a
    | .ctlzU32, a => a.clz
  binary _
    | .addU32, a, b => a + b
    | .orU32, a, b => a ||| b
    | .eq, a, b => if a = b then 1 else 0
    | .ne, a, b => if a = b then 0 else 1
    | .rorU32, a, b => a.rotateRight b.toNat
    | .maxI32, a, b => if a.slt b then b else a
    | .minI32, a, b => if b.slt a then b else a
  jitCompile _ _ _ := true

/-- The reference library is documented behaviour. -/
lemma IrLibrary.reference_documented : IrLibrary.reference.Documented where
  zextU32 _ _ := rfl
  ctlzU32 _ _ _ := rfl
  bitcastI32 _ _ := rfl
  bitcastU32 _ _ := rfl
  addU32 _ _ _ := rfl
  orU32 _ _ _ := rfl
  eq _ _ _ := rfl
  ne _ _ _ := rfl
  rorU32 _ _ _ := rfl
  maxI32 _ _ _ := rfl
  minI32 _ _ _ := rfl

/-- The reference library always compiles. -/
lemma IrLibrary.reference_compiles : IrLibrary.reference.Compiles := fun _ _ _ => rfl

end ToyIsa
