import Mathlib.Logic.Relation
import ToyIsa.Isa.Frame

/-!
# What an instruction changes

The block cache has to keep up with guest memory, so what matters about an instruction is what it
does to these two. `Changes` lists the possibilities by the `Action` of the instruction: stores
write words, `FLUSH` invalidates the pending ranges, a system call may change bytes and nothing
else, and the other instructions leave memory and cache alone (`Instr.exec_changes`).
-/

namespace ToyIsa

open ExecutionContext

variable {σ : Type}

inductive Action where
  | compute
  | store
  | flush
  | syscall
  deriving DecidableEq, Repr

/-- The action of an opcode. -/
def TIOpcode.action : TIOpcode → Action
  | .st | .stp => .store
  | .flush => .flush
  | .syscall => .syscall
  | _ => .compute

/-- A word store takes one memory to the other. -/
def Written (m m' : TIMemory) : Prop :=
  ∃ address value, TIMemory.write32 address value m = .ok () m'

/-- The cache after some ranges have been invalidated. -/
def TIBasicBlockCache.invalidateAll (cache : TIBasicBlockCache) (ranges : List TICodeRange) :
    TIBasicBlockCache :=
  ranges.foldl (fun cache range => cache.invalidateRange range.address range.size) cache

inductive Changes : Action → ExecutionContext σ → ExecutionContext σ → Prop where
  | nothing {a c d} :
    a ≠ .flush →
    d.memory = c.memory →
    d.blockCache = c.blockCache →
    Changes a c d
  | stored {c d} :
    Relation.ReflTransGen Written c.memory d.memory →
    d.blockCache = c.blockCache →
    Changes .store c d
  | flushed {c d} :
    d.memory = { c.memory with dirtyCodeRanges := [] } →
    d.blockCache = c.blockCache.invalidateAll c.memory.dirtyCodeRanges →
    Changes .flush c d
  | called {c d} :
    d.memory.dirtyCodeRanges = c.memory.dirtyCodeRanges →
    d.memory.executableRegions = c.memory.executableRegions →
    d.memory.size = c.memory.size →
    d.blockCache = c.blockCache →
    Changes .syscall c d

/-- A list of stores writes words, also when one of them fails. -/
lemma written_storeAll {stores m m'}
    (h : storeAll stores m = .ok () m' ∨ ∃ e, storeAll stores m = .error e m') :
    Relation.ReflTransGen Written m m' := by
  induction stores generalizing m with
  | nil =>
    obtain h | ⟨e, h⟩ := h <;> cases h
    exact .refl
  | cons store stores ih =>
    obtain ⟨address, value⟩ := store
    simp only [storeAll, EState.bind_apply] at h
    cases w : TIMemory.write32 address value m with
    | error e m1 =>
      obtain ⟨rfl, _⟩ := TIMemory.write32_error w
      rw [w] at h
      obtain h | ⟨e', h⟩ := h <;> cases h
      exact .refl
    | ok u m1 =>
      rw [w] at h
      exact .head ⟨address, value, w⟩ (ih h)

/-- Stores change memory as they should. -/
lemma changes_storing {c d : ExecutionContext σ} {stores}
    (h : c.storing stores = .ok () d ∨ ∃ e, c.storing stores = .error e d) :
    Changes .store c d := by
  unfold storing at h
  rw [onMemory_apply] at h
  cases s : storeAll stores c.memory with
  | ok u m =>
    rw [s] at h
    obtain h | ⟨e, h⟩ := h <;> cases h
    exact .stored (written_storeAll (.inl s)) rfl
  | error e m =>
    rw [s] at h
    obtain h | ⟨e', h⟩ := h <;> cases h
    exact .stored (written_storeAll (.inr ⟨e, s⟩)) rfl

/-- What a change does is not affected by a change of the CPU and the status. -/
lemma Changes.congr {a} {c d d' : ExecutionContext σ} (h : Changes a c d)
    (memory : d'.memory = d.memory) (cache : d'.blockCache = d.blockCache) : Changes a c d' := by
  cases h with
  | nothing ne m b => exact .nothing ne (memory.trans m) (cache.trans b)
  | stored w b => exact .stored (memory ▸ w) (cache.trans b)
  | flushed m b => exact .flushed (memory.trans m) (cache.trans b)
  | called dirty regions size b =>
    exact .called (memory ▸ dirty) (memory ▸ regions) (memory ▸ size) (cache.trans b)

/-- Every change keeps regions and size of the memory. -/
lemma Changes.layout {a} {c d : ExecutionContext σ} (h : Changes a c d) :
    d.memory.executableRegions = c.memory.executableRegions ∧ d.memory.size = c.memory.size := by
  cases h with
  | nothing _ m _ => rw [m]; exact ⟨rfl, rfl⟩
  | stored w _ =>
    generalize d.memory = m at w
    induction w with
    | refl => exact ⟨rfl, rfl⟩
    | tail _ w ih =>
      obtain ⟨address, value, w⟩ := w
      obtain ⟨hb, _, rfl⟩ := TIMemory.write32_ok w
      rw [TIMemory.written_executableRegions, TIMemory.size_written hb]
      exact ih
  | flushed m _ => rw [m]; exact ⟨rfl, rfl⟩
  | called _ regions size _ => exact ⟨regions, size⟩

/-- A system call leaves the pending ranges alone. -/
lemma Changes.syscall_dirty {c d : ExecutionContext σ} (h : Changes .syscall c d) :
    d.memory.dirtyCodeRanges = c.memory.dirtyCodeRanges := by
  cases h with
  | nothing _ memory _ => rw [memory]
  | called dirty => exact dirty

/-- What a flush changes. -/
lemma Changes.flush {c d : ExecutionContext σ} (h : Changes .flush c d) :
    d.memory = { c.memory with dirtyCodeRanges := [] } ∧
      d.blockCache = c.blockCache.invalidateAll c.memory.dirtyCodeRanges := by
  cases h with
  | nothing ne => exact absurd rfl ne
  | flushed memory cache => exact ⟨memory, cache⟩

variable [Host σ]

/-- System calls change bytes at most. -/
lemma changes_execute {c d : ExecutionContext σ}
    (h : TISyscallEmulator.execute c = .ok () d ∨
      ∃ e, TISyscallEmulator.execute c = .error e d) : Changes .syscall c d := by
  obtain ⟨d', h', frame, _⟩ | ⟨e', h', _⟩ := execute_cases c
  · rw [h'] at h
    obtain h | ⟨e, h⟩ := h <;> cases h
    exact .called frame.dirty frame.regions frame.size frame.blockCache
  · rw [h'] at h
    obtain h | ⟨e, h⟩ := h <;> cases h
    exact .nothing (by decide) rfl rfl

/-- Every instruction changes memory and cache as its action says. -/
theorem Instr.effect_changes {i : Instr} {c d : ExecutionContext σ}
    (h : i.effect c = .ok () d ∨ ∃ e, i.effect c = .error e d) : Changes i.opCode.action c d := by
  cases i with
  | compute op =>
    have action : (Instr.compute op).opCode.action = .compute := by cases op <;> rfl
    rw [action]
    cases v : op.value c with
    | ok w =>
      simp only [effect, v] at h
      obtain h | ⟨e, h⟩ := h <;> cases h
      exact .nothing (by decide) rfl rfl
    | error e' =>
      simp only [effect, v] at h
      obtain h | ⟨e, h⟩ := h <;> cases h
      exact .nothing (by decide) rfl rfl
  | st => exact changes_storing h
  | stp => exact changes_storing h
  | flush =>
    obtain h | ⟨e, h⟩ := h <;> cases h
    exact .flushed rfl rfl
  | beq =>
    obtain h | ⟨e, h⟩ := h <;> cases h
    exact .nothing Action.noConfusion rfl rfl
  | j =>
    obtain h | ⟨e, h⟩ := h <;> cases h
    exact .nothing Action.noConfusion rfl rfl
  | syscall => exact changes_execute h
  | invalid =>
    obtain h | ⟨e, h⟩ := h <;> cases h
    exact .nothing (by decide) rfl rfl

/-- Every instruction changes memory and cache as its action says. -/
theorem Instr.exec_changes {i : Instr} {c d : ExecutionContext σ}
    (h : i.exec c = .ok () d ∨ ∃ e, i.exec c = .error e d) : Changes i.opCode.action c d := by
  obtain h | ⟨e, h⟩ := h
  · obtain ⟨d', h', rfl⟩ := exec_ok_iff.mp h
    exact (effect_changes (.inl h')).congr rfl rfl
  · exact effect_changes (.inr ⟨e, exec_error_iff.mp h⟩)

/-- Every instruction changes memory and cache as its action says, also when it fails. -/
lemma Instr.changes (i : Instr) (c : ExecutionContext σ) :
    Changes i.opCode.action c (i.exec c).context := by
  cases x : i.exec c with
  | ok u d => exact exec_changes (.inl x)
  | error e d => exact exec_changes (.inr ⟨e, x⟩)

end ToyIsa
