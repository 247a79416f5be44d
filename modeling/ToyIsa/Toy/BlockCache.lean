import Mathlib.Logic.Function.Basic
import ToyIsa.Engine.Ir
import ToyIsa.Toy.Memory

/-!
# The basic block cache

Port of `basic_block_cache.hpp` and `basic_block_cache.cpp`. Both maps of the cache are functions
from the key. A compiled block owns its native code: the code is mapped when the block is compiled
and unmapped when the block is destroyed, so a call through an entry point that is no longer mapped
is undefined behaviour.

The decoding loop of `decodeBlock` runs on an address that wraps around after `2 ^ 30` words. In a
memory of `2 ^ 32` bytes or more it may run forever; `decodeLoop_fuel` says that if it has not ended
after `2 ^ 30` words then it never does.
-/

namespace ToyIsa

/-- A translated entry point, null if the block is not compiled. -/
structure TICompiledBlock where
  entryPoint : Entry := 0
  deriving DecidableEq, Repr

def TICompiledBlock.empty (c : TICompiledBlock) : Bool := c.entryPoint == 0

/-- The native code at an entry point: the IR it was compiled from and the optimisation level. -/
structure NativeCode where
  code : List IrInsn
  level : Byte
  deriving DecidableEq, Repr

structure TIBasicBlock where
  startAddress : Word
  instructions : List TIInstruction
  executionCount : Nat := 0
  valid : Bool := true
  compiledBlock : TICompiledBlock := {}
  deriving DecidableEq, Repr

namespace TIBasicBlock

def endAddress (b : TIBasicBlock) : Word :=
  b.startAddress + BitVec.ofNat 32 (b.instructions.length * 4)

def instructionCount (b : TIBasicBlock) : Nat := b.instructions.length

def invalidate (b : TIBasicBlock) : TIBasicBlock := { b with valid := false }

def recordExecution (b : TIBasicBlock) : TIBasicBlock :=
  { b with executionCount := b.executionCount + 1 }

def hasCompiledBlock (b : TIBasicBlock) : Bool := !b.compiledBlock.empty

def setCompiledBlock (b : TIBasicBlock) (c : TICompiledBlock) : TIBasicBlock :=
  { b with compiledBlock := c }

/-- The compiled block of `b` has the native code at `entryPoint`. -/
def owns (b : TIBasicBlock) (entryPoint : Entry) : Bool :=
  b.hasCompiledBlock && b.compiledBlock.entryPoint == entryPoint

end TIBasicBlock

structure TIBasicBlockCache where
  blocks : Word → Option TIBasicBlock := fun _ => none
  jitEntries : Word → Option Entry := fun _ => none
  nativeCode : Entry → Option NativeCode := fun _ => none
  /-- How many compilations have been tried, which names the next entry point. -/
  compilations : Nat := 0

namespace TIBasicBlockCache

def endsBlock : TIOpcode → Bool
  | .beq | .j | .syscall | .invalid | .flush => true
  | _ => false

/-- The loop of `decodeBlock`, for at most `fuel` words: `none` if it has not ended by then. -/
def decodeLoop (memory : TIMemory) : Nat → Word → Option (Except Failure (List TIInstruction))
  | 0, _ => none
  | fuel + 1, currentAddress =>
    match memory.read32 currentAddress with
    | .error e => some (.error e)
    | .ok encoding =>
      let instruction := TIDecoder.decode encoding
      if endsBlock instruction.opCode then some (.ok [instruction])
      else
        let next := currentAddress + TI32.instructionSize
        if next.toNat + 4 > memory.size then some (.ok [instruction])
        else (decodeLoop memory fuel next).map (·.map (instruction :: ·))

/-- The number of words in the address space. -/
def addressSpaceWords : Nat := 2 ^ 30

/-- `none` if the loop never ends. -/
def decodeBlock (cache : TIBasicBlockCache) (address : Word) (memory : TIMemory) :
    Option (EStateM.Result Failure TIBasicBlockCache TIBasicBlock) :=
  match decodeLoop memory addressSpaceWords address with
  | none => none
  | some (.error e) => some (.error e cache)
  | some (.ok instructions) =>
    match cache.blocks address with
    | some block => some (.ok block cache)
    | none =>
      let block := { startAddress := address, instructions := instructions }
      some (.ok block { cache with blocks := Function.update cache.blocks address (some block) })

/-- Destroy a block, which unmaps its native code. -/
def erase (cache : TIBasicBlockCache) (address : Word) (block : TIBasicBlock) :
    TIBasicBlockCache :=
  { cache with
    blocks := Function.update cache.blocks address none
    nativeCode :=
      if block.hasCompiledBlock then
        Function.update cache.nativeCode block.compiledBlock.entryPoint none
      else cache.nativeCode }

def getBlock (cache : TIBasicBlockCache) (address : Word) (memory : TIMemory) :
    Option (EStateM.Result Failure TIBasicBlockCache TIBasicBlock) :=
  match cache.blocks address with
  | some block =>
    if block.valid then some (.ok block cache)
    else (cache.erase address block).decodeBlock address memory
  | none => cache.decodeBlock address memory

/-- Create the slot of `address`, null, unless it exists. -/
def jitEntrySlot (cache : TIBasicBlockCache) (address : Word) : TIBasicBlockCache :=
  match cache.jitEntries address with
  | some _ => cache
  | none => { cache with jitEntries := Function.update cache.jitEntries address (some 0) }

def setJitEntry (cache : TIBasicBlockCache) (address : Word) (entryPoint : Entry) :
    TIBasicBlockCache :=
  { cache with jitEntries := Function.update cache.jitEntries address (some entryPoint) }

/-- Destroy all blocks, which unmaps their native code. -/
def clear (cache : TIBasicBlockCache) : TIBasicBlockCache :=
  { nativeCode := fun entryPoint =>
      if ∃ key, (cache.blocks key).any (·.owns entryPoint) then none
      else cache.nativeCode entryPoint
    compilations := cache.compilations }

/-- Change the block stored under `address`. -/
def modifyBlock (cache : TIBasicBlockCache) (address : Word)
    (f : TIBasicBlock → TIBasicBlock) : TIBasicBlockCache :=
  { cache with blocks := Function.update cache.blocks address ((cache.blocks address).map f) }

/-- The block shares a byte with `[address, address + byteCount)`. -/
def touches (block : TIBasicBlock) (address : Word) (byteCount : Nat) : Bool :=
  let writeBegin := address.toNat
  let writeEnd := u64 (writeBegin + byteCount)
  let blockBegin := block.startAddress.toNat
  let blockEnd := block.endAddress.toNat
  blockBegin < writeEnd && writeBegin < blockEnd

def invalidateRange (cache : TIBasicBlockCache) (address : Word) (byteCount : Nat) :
    TIBasicBlockCache :=
  let hit (key : Word) : Bool := (cache.blocks key).any (touches · address byteCount)
  { cache with
    blocks := fun key => if hit key then (cache.blocks key).map (·.invalidate) else cache.blocks key
    jitEntries := fun key =>
      if hit key then (cache.jitEntries key).map (fun _ => 0) else cache.jitEntries key }

end TIBasicBlockCache

end ToyIsa
