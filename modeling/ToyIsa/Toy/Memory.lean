import ToyIsa.Lib.EState
import ToyIsa.Lib.Store
import ToyIsa.Toy.BitUtils

/-!
# Guest memory

Port of `memory.hpp`. A memory keeps its bytes, the executable regions of the program and the code
ranges written since the last flush. Sums the source computes in `uint64_t` are taken modulo
`2 ^ 64`. A registered region ends inside the 32-bit address space, because `addExecutableRegion`
checks it, so the invariant is a field.

`read32_eq` and `write32_eq` give the accesses in closed form.
-/

namespace ToyIsa

/-- A sum in `uint64_t`. -/
def u64 (n : Nat) : Nat := n % 2 ^ 64

/-- A checked range of guest memory: `size` bytes at `data`. -/
structure TIMemoryRange where
  data : Nat
  size : Nat
  deriving DecidableEq, Repr

structure TICodeRange where
  address : Word
  size : Nat
  deriving DecidableEq, Repr

structure TIMemory where
  bytes : List Byte
  executableRegions : List TICodeRange := []
  dirtyCodeRanges : List TICodeRange := []
  regionsInSpace : ∀ r ∈ executableRegions, r.address.toNat + r.size ≤ 2 ^ 32 := by simp

/-- `Region` and the write `[address, address + byteCount)` share a byte. -/
def TICodeRange.overlaps (region : TICodeRange) (address : Word) (byteCount : Nat) : Bool :=
  let writeBegin := address.toNat
  let writeEnd := u64 (writeBegin + byteCount)
  let regionBegin := region.address.toNat
  let regionEnd := u64 (regionBegin + region.size)
  regionBegin < writeEnd && writeBegin < regionEnd

namespace TIMemory

/-- A memory of `sizeBytes` zero bytes. -/
def create (sizeBytes : Nat) : TIMemory := { bytes := List.replicate sizeBytes 0 }

def size (m : TIMemory) : Nat := m.bytes.length

def checkBounds (m : TIMemory) (address : Word) (byteCount : Nat) : Except Failure Unit :=
  let addressSpaceSize := 2 ^ TI32.wordBitCount
  if address.toNat > m.size ∨ byteCount > m.size - address.toNat ∨
      byteCount > addressSpaceSize - address.toNat then
    .error (.simulation .memoryOutOfBounds
      ("[MEMORY] Error: nemory out of bounds at address " ++ toString address.toNat))
  else .ok ()

def checkAlignment (address : Word) : Except Failure Unit :=
  if address.toNat % TI32.wordSize ≠ 0 then
    .error (.simulation .misalignedAccess
      ("[MEMORY] Error: misaligned access at " ++ toString address.toNat))
  else .ok ()

/-- The bytes of a range. -/
def load (m : TIMemory) (range : TIMemoryRange) : List Byte :=
  Store.slice m.bytes range.data range.size

/-- A raw write through a range, which the source does with `memcpy`, `memset` or `read(2)`. -/
def store (range : TIMemoryRange) (data : List Byte) : EStateM Failure TIMemory Unit := fun m =>
  if data.length ≤ range.size ∧ range.data + range.size ≤ m.size then
    .ok () { m with bytes := Store.splice m.bytes range.data data }
  else .error .undefined m

def readableRange (m : TIMemory) (address : Word) (byteCount : Nat) :
    Except Failure TIMemoryRange := do
  m.checkBounds address byteCount
  return ⟨address.toNat, byteCount⟩

def writableRange (m : TIMemory) (address : Word) (byteCount : Nat) :
    Except Failure TIMemoryRange := do
  m.checkBounds address byteCount
  return ⟨address.toNat, byteCount⟩

def markCodeDirty (m : TIMemory) (address : Word) (byteCount : Nat) : TIMemory :=
  if m.executableRegions.any (·.overlaps address byteCount) then
    { m with dirtyCodeRanges := m.dirtyCodeRanges ++ [⟨address, byteCount⟩] }
  else m

def read32 (m : TIMemory) (address : Word) : Except Failure Word := do
  let range ← m.readableRange address TI32.wordSize
  checkAlignment address
  decodeLittleEndianWord (m.load range)

def write32 (address value : Word) : EStateM Failure TIMemory Unit := do
  let range ← check ((← get).writableRange address TI32.wordSize)
  check (checkAlignment address)
  store range (encodeLittleEndianWord value)
  modify (·.markCodeDirty address TI32.wordSize)

/-- The pending ranges, which are dropped from the memory. -/
def takeDirtyCodeRanges (m : TIMemory) : List TICodeRange × TIMemory :=
  (m.dirtyCodeRanges, { m with dirtyCodeRanges := [] })

/-- A range of memory that a guest access of `byteCount` bytes may touch. -/
def InBounds (m : TIMemory) (address : Word) (byteCount : Nat) : Prop :=
  address.toNat + byteCount ≤ m.size ∧ address.toNat + byteCount ≤ 2 ^ 32

instance (m : TIMemory) (address byteCount) : Decidable (m.InBounds address byteCount) :=
  inferInstanceAs (Decidable (_ ∧ _))

/-- The failure of an access out of bounds. -/
def outOfBounds (address : Word) : Failure :=
  .simulation .memoryOutOfBounds
    ("[MEMORY] Error: nemory out of bounds at address " ++ toString address.toNat)

/-- The failure of a misaligned access. -/
def misaligned (address : Word) : Failure :=
  .simulation .misalignedAccess
    ("[MEMORY] Error: misaligned access at " ++ toString address.toNat)

/-- The bounds check in unbounded arithmetic. -/
lemma checkBounds_eq (m : TIMemory) (address byteCount) :
    m.checkBounds address byteCount =
      if m.InBounds address byteCount then .ok () else .error (outOfBounds address) := by
  have := address.isLt
  have hb : (address.toNat > m.size ∨ byteCount > m.size - address.toNat ∨
      byteCount > 2 ^ TI32.wordBitCount - address.toNat) ↔ ¬ m.InBounds address byteCount := by
    unfold InBounds TI32.wordBitCount
    omega
  unfold checkBounds
  simp only [hb, ite_not]
  rfl

/-- A region that passes the check lies in the address space. -/
lemma addExecutableRegion_inSpace {m : TIMemory} {address byteCount u}
    (h : m.checkBounds address byteCount = .ok u) :
    ∀ r ∈ m.executableRegions ++ [⟨address, byteCount⟩], r.address.toNat + r.size ≤ 2 ^ 32 := by
  rw [checkBounds_eq] at h
  split at h
  case isFalse => cases h
  case isTrue hb =>
    intro r hr
    rcases List.mem_append.mp hr with hr | hr
    · exact m.regionsInSpace r hr
    · rw [List.mem_singleton.mp hr]
      exact hb.2

def addExecutableRegion (address : Word) (byteCount : Nat) : EStateM Failure TIMemory Unit :=
  fun m =>
    match h : m.checkBounds address byteCount with
    | .error e => .error e m
    | .ok _ =>
      .ok () { m with
        executableRegions := m.executableRegions ++ [⟨address, byteCount⟩]
        regionsInSpace := addExecutableRegion_inSpace h }

/-- Word reads in closed form. -/
lemma read32_eq (m : TIMemory) (address) :
    m.read32 address =
      if m.InBounds address TI32.wordSize then
        if address.toNat % TI32.wordSize = 0 then
          decodeLittleEndianWord (Store.slice m.bytes address.toNat TI32.wordSize)
        else .error (misaligned address)
      else .error (outOfBounds address) := by
  unfold read32 readableRange checkAlignment load
  rw [checkBounds_eq]
  by_cases hb : m.InBounds address TI32.wordSize
  · by_cases ha : address.toNat % TI32.wordSize = 0
    · simp [hb, ha, bind, Except.bind, pure, Except.pure]
    · simp [hb, ha, bind, Except.bind, pure, Except.pure, misaligned]
  · simp [hb, bind, Except.bind]

/-- The memory after a successful word store. -/
def written (m : TIMemory) (address value : Word) : TIMemory :=
  markCodeDirty { m with
    bytes := Store.splice m.bytes address.toNat (encodeLittleEndianWord value) }
    address TI32.wordSize

/-- Word stores in closed form. -/
lemma write32_eq (m : TIMemory) (address value) :
    write32 address value m =
      if m.InBounds address TI32.wordSize then
        if address.toNat % TI32.wordSize = 0 then .ok () (m.written address value)
        else .error (misaligned address) m
      else .error (outOfBounds address) m := by
  unfold write32 writableRange checkAlignment
  simp only [EState.bind_apply, EState.get_apply]
  rw [checkBounds_eq]
  by_cases hb : m.InBounds address TI32.wordSize
  · by_cases ha : address.toNat % TI32.wordSize = 0
    · have hs : address.toNat + TI32.wordSize ≤ m.size := hb.1
      simp [hb, ha, bind, Except.bind, pure, Except.pure, store, hs, written]
    · simp [hb, ha, bind, Except.bind, pure, Except.pure, misaligned]
  · simp [hb, bind, Except.bind]

/-- A word can be read exactly where the access is in bounds and aligned. -/
lemma read32_isOk_iff (m : TIMemory) (address) :
    (∃ w, m.read32 address = .ok w) ↔
      m.InBounds address TI32.wordSize ∧ address.toNat % TI32.wordSize = 0 := by
  rw [read32_eq]
  split
  case isTrue hb =>
    split
    case isTrue ha =>
      exact ⟨fun _ => ⟨hb, ha⟩, fun _ => decodeLittleEndianWord_of_length (Store.length_slice hb.1)⟩
    case isFalse ha => simp [ha]
  case isFalse hb => simp [hb]

end TIMemory

end ToyIsa
