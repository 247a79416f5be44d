import ToyIsa.Isa.Syscall

/-!
# What an instruction leaves alone

A system call either fails and changes nothing, or leaves the PC, the block cache and the pending
code ranges alone (`execute_cases`). An instruction that fails raises a `SimulationException` and
has changed memory at most (`Instr.effect_error`). One that does not fail keeps the engine, the
memory layout and the PC (`Instr.effect_frame`). Only the exit call changes the status
(`Instr.effect_state`) and only `FLUSH` changes the block cache (`Instr.effect_blockCache`).
-/

namespace ToyIsa

open ExecutionContext TISyscallEmulator Reg

variable {σ : Type}

/-- Two contexts with the same engine and the same memory layout. -/
structure SameSetup (c d : ExecutionContext σ) : Prop where
  mode : d.mode = c.mode
  threshold : d.jitThreshold = c.jitThreshold
  level : d.jitOptimizationLevel = c.jitOptimizationLevel
  regions : d.memory.executableRegions = c.memory.executableRegions
  size : d.memory.size = c.memory.size

/-- A context has its own setup. -/
@[refl] lemma SameSetup.refl (c : ExecutionContext σ) : SameSetup c c := ⟨rfl, rfl, rfl, rfl, rfl⟩

/-- The setup stays over two steps. -/
lemma SameSetup.trans {c d e : ExecutionContext σ} (h : SameSetup c d) (h' : SameSetup d e) :
    SameSetup c e :=
  ⟨h'.mode.trans h.mode, h'.threshold.trans h.threshold, h'.level.trans h.level,
    h'.regions.trans h.regions, h'.size.trans h.size⟩

/-- What a system call leaves alone. -/
structure SyscallFrame (c d : ExecutionContext σ) : Prop extends SameSetup c d where
  pc : d.cpu.pc = c.cpu.pc
  blockCache : d.blockCache = c.blockCache
  dirty : d.memory.dirtyCodeRanges = c.memory.dirtyCodeRanges

/-- The exit call takes `c` to `d`. -/
def Exits (c d : ExecutionContext σ) : Prop := d = (c.halted (c.reg r0)).logged (.exit (c.reg r0))

/-- A failure that is a `SimulationException`. -/
def Failure.IsSimulation : Failure → Prop
  | .simulation .. => True
  | _ => False

/-- The memory after a word store that does not fail. -/
lemma TIMemory.write32_ok {m m' : TIMemory} {address value}
    (h : TIMemory.write32 address value m = .ok () m') :
    m.InBounds address TI32.wordSize ∧ address.toNat % TI32.wordSize = 0 ∧
      m' = m.written address value := by
  rw [write32_eq] at h
  split at h
  case isFalse => cases h
  case isTrue hb =>
    split at h
    case isFalse => cases h
    case isTrue ha =>
      injection h with _ h
      exact ⟨hb, ha, h.symm⟩

/-- A word store that fails changes nothing. -/
lemma TIMemory.write32_error {m m' : TIMemory} {address value e}
    (h : TIMemory.write32 address value m = .error e m') : m' = m ∧ e.IsSimulation := by
  rw [write32_eq] at h
  split at h
  case isTrue =>
    split at h
    case isTrue => cases h
    case isFalse => injection h with h1 h2; subst h1 h2; exact ⟨rfl, trivial⟩
  case isFalse => injection h with h1 h2; subst h1 h2; exact ⟨rfl, trivial⟩

/-- A word read fails with a `SimulationException` only. -/
lemma TIMemory.read32_error {m : TIMemory} {address e} (h : m.read32 address = .error e) :
    e.IsSimulation := by
  rw [read32_eq] at h
  split at h
  case isTrue hb =>
    split at h
    case isTrue ha =>
      have length : (Store.slice m.bytes address.toNat TI32.wordSize).length = TI32.wordSize :=
        Store.length_slice hb.1
      obtain ⟨w, hw⟩ := decodeLittleEndianWord_of_length length
      rw [hw] at h
      cases h
    case isFalse => injection h with h; subst h; trivial
  case isFalse => injection h with h; subst h; trivial

/-- A store keeps the regions. -/
@[simp] lemma TIMemory.written_executableRegions (m : TIMemory) (address value) :
    (m.written address value).executableRegions = m.executableRegions := by
  unfold written markCodeDirty
  split <;> rfl

/-- A store splices the bytes of the word. -/
@[simp] lemma TIMemory.written_bytes (m : TIMemory) (address value) :
    (m.written address value).bytes =
      Store.splice m.bytes address.toNat (encodeLittleEndianWord value) := by
  unfold written markCodeDirty
  split <;> rfl

/-- A word store adds its range to the pending ones if it hits a region. -/
lemma TIMemory.written_dirtyCodeRanges (m : TIMemory) (address value) :
    (m.written address value).dirtyCodeRanges = m.dirtyCodeRanges ++
      if m.executableRegions.any (·.overlaps address TI32.wordSize) then
        [⟨address, TI32.wordSize⟩]
      else [] := by
  unfold written markCodeDirty
  split <;> simp only [List.append_nil]

/-- A word store in bounds keeps the size of the memory. -/
lemma TIMemory.size_written {m : TIMemory} {address value}
    (h : m.InBounds address TI32.wordSize) : (m.written address value).size = m.size := by
  unfold size
  rw [written_bytes, Store.length_splice]
  exact h.1

/-- Word stores keep regions and size, also when one of them fails. -/
lemma storeAll_layout {stores m} {r : EStateM.Result Failure TIMemory Unit} {m'}
    (h : storeAll stores m = r) (hm : r = .ok () m' ∨ ∃ e, r = .error e m') :
    m'.executableRegions = m.executableRegions ∧ m'.size = m.size := by
  induction stores generalizing m with
  | nil =>
    subst h
    obtain h | ⟨e, h⟩ := hm <;> cases h
    exact ⟨rfl, rfl⟩
  | cons store stores ih =>
    obtain ⟨address, value⟩ := store
    cases w : TIMemory.write32 address value m with
    | error e m1 =>
      obtain ⟨rfl, _⟩ := TIMemory.write32_error w
      simp only [storeAll, EState.bind_apply, w] at h
      subst h
      obtain h | ⟨e', h⟩ := hm <;> cases h
      exact ⟨rfl, rfl⟩
    | ok u m1 =>
      obtain ⟨hb, _, rfl⟩ := TIMemory.write32_ok w
      simp only [storeAll, EState.bind_apply, w] at h
      obtain ⟨regions, size⟩ := ih h
      exact ⟨regions.trans (TIMemory.written_executableRegions m address value),
        size.trans (TIMemory.size_written hb)⟩

/-- Word stores fail with a `SimulationException` only. -/
lemma storeAll_error {stores m m' e} (h : storeAll stores m = .error e m') : e.IsSimulation := by
  induction stores generalizing m with
  | nil => cases h
  | cons store stores ih =>
    obtain ⟨address, value⟩ := store
    cases w : TIMemory.write32 address value m with
    | error e1 m1 =>
      simp only [storeAll, EState.bind_apply, w] at h
      cases h
      exact (TIMemory.write32_error w).2
    | ok u m1 =>
      simp only [storeAll, EState.bind_apply, w] at h
      exact ih h

section calls

variable [Host σ]

/-- READ succeeds in its frame or throws. -/
lemma readCall_cases (c : ExecutionContext σ) :
    (∃ d, readCall c = .ok () d ∧ SyscallFrame c d ∧ d.state = c.state) ∨
      ∃ e, readCall c = .error e c ∧ e.IsSimulation := by
  unfold readCall
  split
  · exact .inl ⟨_, rfl, ⟨⟨rfl, rfl, rfl, rfl, rfl⟩, rfl, rfl, rfl⟩, rfl⟩
  · split
    case isFalse => exact .inr ⟨_, rfl, trivial⟩
    case isTrue hb =>
      rcases e : Host.read (c.reg r2).toNat c.host with ⟨_ | bytes, s⟩
      · exact .inl ⟨_, rfl, ⟨⟨rfl, rfl, rfl, rfl, rfl⟩, rfl, rfl, rfl⟩, rfl⟩
      · refine .inl ⟨_, rfl, ⟨⟨rfl, rfl, rfl, rfl, ?_⟩, rfl, rfl, rfl⟩, rfl⟩
        have hl := Host.read_length _ _ _ _ e
        have hs : (c.reg r1).toNat + (c.reg r2).toNat ≤ c.memory.bytes.length := hb.1
        exact Store.length_splice (by omega)

/-- WRITE succeeds in its frame or throws. -/
lemma writeCall_cases (c : ExecutionContext σ) :
    (∃ d, writeCall c = .ok () d ∧ SyscallFrame c d ∧ d.state = c.state) ∨
      ∃ e, writeCall c = .error e c ∧ e.IsSimulation := by
  unfold writeCall
  split
  · exact .inl ⟨_, rfl, ⟨⟨rfl, rfl, rfl, rfl, rfl⟩, rfl, rfl, rfl⟩, rfl⟩
  · split
    case isFalse => exact .inr ⟨_, rfl, trivial⟩
    case isTrue => exact .inl ⟨_, rfl, ⟨⟨rfl, rfl, rfl, rfl, rfl⟩, rfl, rfl, rfl⟩, rfl⟩

/-- What a system call can do. -/
theorem execute_cases (c : ExecutionContext σ) :
    (∃ d, TISyscallEmulator.execute c = .ok () d ∧ SyscallFrame c d ∧
      (d.state = c.state ∨ Exits c d)) ∨
      ∃ e, TISyscallEmulator.execute c = .error e c ∧ e.IsSimulation := by
  rw [execute_eq]
  split_ifs
  · obtain ⟨d, h, frame, state⟩ | h := readCall_cases c
    · exact .inl ⟨d, h, frame, .inl state⟩
    · exact .inr h
  · obtain ⟨d, h, frame, state⟩ | h := writeCall_cases c
    · exact .inl ⟨d, h, frame, .inl state⟩
    · exact .inr h
  · exact .inl ⟨_, rfl, ⟨⟨rfl, rfl, rfl, rfl, rfl⟩, rfl, rfl, rfl⟩, .inr rfl⟩
  · exact .inl ⟨_, rfl, ⟨⟨rfl, rfl, rfl, rfl, rfl⟩, rfl, rfl, rfl⟩, .inl rfl⟩
  · exact .inr ⟨_, rfl, trivial⟩

end calls

/-- A computing instruction fails with a `SimulationException` only. -/
lemma Compute.value_error {op : Compute} {c : ExecutionContext σ} {e}
    (h : op.value c = .error e) : e.IsSimulation := by
  cases op with
  | ldReg | ldImm => exact TIMemory.read32_error h
  | ssat rd rs width =>
    simp only [Compute.value, ExecutorDetail.saturateSigned] at h
    split at h
    case isTrue => injection h with h; subst h; trivial
    case isFalse => split at h <;> cases h
  | rori rd rs shift =>
    simp only [Compute.value, ExecutorDetail.rotateRight] at h
    have := shift.isLt
    have hs : (shift.setWidth 32).toNat < TI32.wordBitCount := by
      unfold TI32.wordBitCount
      simp
      omega
    simp only [hs, if_true] at h
    split at h <;> cases h
  | _ => cases h

/-- Computing does not look at the PC. -/
lemma Compute.value_atPc (op : Compute) (c : ExecutionContext σ) (pc) :
    op.value (c.atPc pc) = op.value c := by
  cases op <;> rfl

/-- What every instruction leaves alone while it has its effect: the setup and the PC. -/
structure EffectFrame (c d : ExecutionContext σ) : Prop extends SameSetup c d where
  pc : d.cpu.pc = c.cpu.pc

/-- A list of stores changes memory only. -/
lemma storing_cases (c : ExecutionContext σ) (stores) :
    ∃ m, (c.storing stores = .ok () (c.withMemory m) ∨
        ∃ e, c.storing stores = .error e (c.withMemory m) ∧ e.IsSimulation) ∧
      m.executableRegions = c.memory.executableRegions ∧ m.size = c.memory.size := by
  cases h : storeAll stores c.memory with
  | ok u m =>
    refine ⟨m, .inl ?_, storeAll_layout h (.inl rfl)⟩
    rw [storing, onMemory_apply, h]
  | error e m =>
    refine ⟨m, .inr ⟨e, ?_, storeAll_error h⟩, storeAll_layout h (.inr ⟨e, rfl⟩)⟩
    rw [storing, onMemory_apply, h]

variable [Host σ]

/-- An instruction fails if its effect does. -/
lemma Instr.exec_error_iff {i : Instr} {c d : ExecutionContext σ} {e} :
    i.exec c = .error e d ↔ i.effect c = .error e d := by
  unfold exec
  cases i.effect c <;> simp

/-- An instruction that does not fail has its effect and moves the PC. -/
lemma Instr.exec_ok_iff {i : Instr} {c d : ExecutionContext σ} :
    i.exec c = .ok () d ↔ ∃ d', i.effect c = .ok () d' ∧ d = d'.atPc (i.nextPc d') := by
  unfold exec
  cases i.effect c with
  | ok u d' => simp [eq_comm]
  | error e d' => simp

/-- A failing instruction raises a `SimulationException` and has changed memory at most. -/
theorem Instr.effect_error {i : Instr} {c d : ExecutionContext σ} {e}
    (h : i.effect c = .error e d) :
    e.IsSimulation ∧ ∃ m, d = c.withMemory m ∧
      m.executableRegions = c.memory.executableRegions ∧ m.size = c.memory.size := by
  have stores {stores} (h : c.storing stores = .error e d) :
      e.IsSimulation ∧ ∃ m, d = c.withMemory m ∧
        m.executableRegions = c.memory.executableRegions ∧ m.size = c.memory.size := by
    obtain ⟨m, h' | ⟨e', h', sim⟩, layout⟩ := storing_cases c stores
    · rw [h'] at h; cases h
    · rw [h'] at h; cases h; exact ⟨sim, m, rfl, layout⟩
  cases i with
  | compute op =>
    cases v : op.value c with
    | ok w => simp only [effect, v] at h; cases h
    | error e' =>
      simp only [effect, v] at h
      cases h
      exact ⟨Compute.value_error v, _, rfl, rfl, rfl⟩
  | st => exact stores h
  | stp => exact stores h
  | flush => cases h
  | beq => cases h
  | j => cases h
  | syscall code =>
    obtain ⟨d', h', _⟩ | ⟨e', h', sim⟩ := execute_cases c
    · rw [effect, h'] at h; cases h
    · rw [effect, h'] at h
      cases h
      exact ⟨sim, _, rfl, rfl, rfl⟩
  | invalid =>
    cases h
    exact ⟨trivial, _, rfl, rfl, rfl⟩

/-- What the effect of an instruction can be that does not fail. -/
inductive Instr.Effect (c : ExecutionContext σ) : Instr → ExecutionContext σ → Prop where
  | computed {op w} :
    Effect c (.compute op) (c.setReg op.dest w)
  | stored {i m} :
    m.executableRegions = c.memory.executableRegions →
    m.size = c.memory.size →
    Effect c i (c.withMemory m)
  | flushed :
    Effect c .flush c.flushed
  | called {code d} :
    SyscallFrame c d →
    (d.state = c.state ∨ Exits c d) →
    Effect c (.syscall code) d

/-- Branches and jumps are among the instructions that store nothing. -/
lemma Instr.effect_cases {i : Instr} {c d : ExecutionContext σ} (h : i.effect c = .ok () d) :
    Effect c i d := by
  have stores {i stores} (h : c.storing stores = .ok () d) : Effect c i d := by
    obtain ⟨m, h' | ⟨e', h', _⟩, regions, size⟩ := storing_cases c stores
    · rw [h'] at h
      cases h
      exact .stored regions size
    · rw [h'] at h
      cases h
  cases i with
  | compute op =>
    cases v : op.value c with
    | error e' => simp only [effect, v] at h; cases h
    | ok w => simp only [effect, v] at h; cases h; exact .computed
  | st => exact stores h
  | stp => exact stores h
  | flush => cases h; exact .flushed
  | beq => cases h; exact .stored (m := c.memory) rfl rfl
  | j => cases h; exact .stored (m := c.memory) rfl rfl
  | syscall code =>
    obtain ⟨d', h', frame, state⟩ | ⟨e', h', _⟩ := execute_cases c
    · rw [effect, h'] at h
      cases h
      exact .called frame state
    · rw [effect, h'] at h
      cases h
  | invalid => cases h

/-- What an instruction leaves alone that does not fail. -/
theorem Instr.effect_frame {i : Instr} {c d : ExecutionContext σ} (h : i.effect c = .ok () d) :
    EffectFrame c d := by
  cases effect_cases h with
  | computed => exact ⟨⟨rfl, rfl, rfl, rfl, rfl⟩, rfl⟩
  | stored regions size => exact ⟨⟨rfl, rfl, rfl, regions, size⟩, rfl⟩
  | flushed => exact ⟨⟨rfl, rfl, rfl, rfl, rfl⟩, rfl⟩
  | called frame _ => exact ⟨frame.toSameSetup, frame.pc⟩

/-- Every instruction leaves the setup alone, also when it fails. -/
lemma Instr.exec_setup {i : Instr} {c : ExecutionContext σ} : SameSetup c (i.exec c).context := by
  cases x : i.exec c with
  | ok u d =>
    obtain ⟨d', h, rfl⟩ := exec_ok_iff.mp x
    exact (effect_frame h).toSameSetup.trans ⟨rfl, rfl, rfl, rfl, rfl⟩
  | error e d =>
    obtain ⟨_, m, rfl, regions, size⟩ := effect_error (exec_error_iff.mp x)
    exact ⟨rfl, rfl, rfl, regions, size⟩

/-- The PC after an instruction, which a failing one does not move. -/
lemma Instr.exec_pc {i : Instr} {c : ExecutionContext σ} :
    (i.exec c).context.cpu.pc = c.cpu.pc ∨
      ∃ d : ExecutionContext σ, d.cpu.pc = c.cpu.pc ∧ (i.exec c).context.cpu.pc = i.nextPc d := by
  cases x : i.exec c with
  | ok u d =>
    obtain ⟨d', h, rfl⟩ := exec_ok_iff.mp x
    exact .inr ⟨d', (effect_frame h).pc, rfl⟩
  | error e d =>
    obtain ⟨_, m, rfl, _⟩ := effect_error (exec_error_iff.mp x)
    exact .inl rfl

/-- Only the exit call changes the status. -/
theorem Instr.effect_state {i : Instr} {c d : ExecutionContext σ} (h : i.effect c = .ok () d) :
    d.state = c.state ∨ (∃ code, i = .syscall code) ∧ Exits c d := by
  cases effect_cases h with
  | computed => exact .inl rfl
  | stored => exact .inl rfl
  | flushed => exact .inl rfl
  | @called code _ _ state => exact state.imp id fun exits => ⟨⟨code, rfl⟩, exits⟩

/-- Only `FLUSH` changes the block cache. -/
theorem Instr.effect_blockCache {i : Instr} {c d : ExecutionContext σ}
    (h : i.effect c = .ok () d) (hf : i ≠ .flush) : d.blockCache = c.blockCache := by
  cases effect_cases h with
  | computed => rfl
  | stored => rfl
  | flushed => exact absurd rfl hf
  | called frame _ => exact frame.blockCache

end ToyIsa
