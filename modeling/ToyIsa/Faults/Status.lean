import ToyIsa.Block.Turn
import ToyIsa.Toy.Scripted

/-!
# The status when an exception propagates

`executeBlock` catches a `SimulationException`, sets the status `FAULTED` and throws it again. The
fetch of the block stands outside of that handler: an exception of `getBlock` leaves the status as
it was. `simulation_errors_fault_iff` says that this is the only such exception.
-/

namespace ToyIsa

open ExecutionContext TIBasicBlockCache Machine

variable {σ : Type}

/-- There is no valid block at the PC, and no word can be read there. -/
def FetchFails (c : ExecutionContext σ) : Prop :=
  NoValid c.blockCache c.cpu.pc ∧ ∃ e, c.memory.read32 c.cpu.pc = .error e

variable [Host σ]

/-- If `step` throws a `SimulationException` then the status is `FAULTED`. -/
def StepFaults (ir : IrLibrary) (c : ExecutionContext σ) : Prop :=
  ∀ fuel code message d, step ir fuel c = some (.error (.simulation code message) d) →
    d.state.status = .faulted

/-- If `run` throws a `SimulationException` then the status is `FAULTED`. -/
def RunFaults (ir : IrLibrary) (c : ExecutionContext σ) : Prop :=
  ∀ code message d, Runs ir c (.error (.simulation code message) d) → d.state.status = .faulted

variable {ir : IrLibrary} {c d : ExecutionContext σ}

omit [Host σ] in
/-- The handler of `executeBlock` sets the status. -/
lemma catchSimulation_status {o : Outcome σ} {code message}
    (h : catchSimulation o = .error (.simulation code message) d) :
    d.state.status = .faulted := by
  cases o with
  | ok u c => cases h
  | error e c =>
    cases e with
    | simulation code' message' =>
      cases h
      rfl
    | runtime => cases h
    | undefined => cases h

omit [Host σ] in
/-- A fetch that throws has failed at the PC and leaves the status alone. -/
lemma fetchBlock_error {e} (h : fetchBlock c = some (.error e d)) :
    FetchFails c ∧ d.state = c.state := by
  obtain ⟨cache, get, rfl⟩ := fetchBlock_failed h
  have fetch := getBlock_cases c.blockCache c.cpu.pc c.memory
  rw [get] at fetch
  cases fetch with
  | fault nv failed => exact ⟨⟨nv, e, failed⟩, rfl⟩

omit [Host σ] in
/-- A fetch that fails throws. -/
lemma fetchBlock_of_fails (h : FetchFails c) : ∃ code message d,
    fetchBlock c = some (.error (.simulation code message) d) ∧ d.state = c.state := by
  obtain ⟨nv, e, failed⟩ := h
  have sim := TIMemory.read32_error failed
  have loop : decodeLoop c.memory addressSpaceWords c.cpu.pc = some (.error e) :=
    decodeLoop_of_error failed (addressSpaceWords - 1)
  unfold fetchBlock
  rw [getBlock_of_noValid nv, loop]
  cases e with
  | simulation code message => exact ⟨code, message, _, rfl, rfl⟩
  | runtime => cases sim
  | undefined => cases sim

/-- `step` faults the context unless the fetch fails. -/
lemma stepFaults_iff (running : c.state.status = .running) :
    StepFaults ir c ↔ ¬ FetchFails c := by
  constructor
  · intro faults fails
    obtain ⟨code, message, d, fetch, state⟩ := fetchBlock_of_fails fails
    have thrown : step ir 0 c = some (.error (.simulation code message) d) := by
      unfold step
      rw [fetch]
    have faulted := faults 0 code message d thrown
    rw [state, running] at faulted
    cases faulted
  · intro fetches fuel code message d thrown
    unfold step at thrown
    cases fetch : fetchBlock c with
    | none => rw [fetch] at thrown; cases thrown
    | some r =>
      rw [fetch] at thrown
      cases r with
      | error e d' => exact absurd (fetchBlock_error fetch).1 fetches
      | ok block c' =>
        simp only [executeBlock] at thrown
        obtain ⟨o, _, caught⟩ := Option.map_eq_some_iff.mp thrown
        exact catchSimulation_status caught

/-- A turn that throws has caught the exception or failed to fetch. -/
lemma blockStep_thrown {b : Boundary σ} {code message}
    (h : blockStep ir b = .inr (.error (.simulation code message) d)) :
    d.state.status = .faulted ∨
      b.entry = 0 ∧ b.context.state.status = .running ∧ FetchFails b.context := by
  have after {r} (h : Boundary.after r = .inr (.error (.simulation code message) d)) :
      d.state.status = .faulted := by
    cases r with
    | ok entry c' => cases h
    | error e c' => exact catchSimulation_status (Sum.inr.inj h)
  obtain ⟨c, entry⟩ := b
  by_cases e0 : entry = 0
  case neg =>
    rw [blockStep_entry ir c e0] at h
    exact .inl (after h)
  case pos =>
    subst e0
    by_cases running : c.state.status = .running
    case neg =>
      rw [blockStep_stopped running] at h
      cases h
    case pos =>
      rw [blockStep_running ir running] at h
      cases fetch : fetchBlock c with
      | none => rw [fetch] at h; cases h
      | some r =>
        rw [fetch] at h
        cases r with
        | error e d' => exact .inr ⟨rfl, running, (fetchBlock_error fetch).1⟩
        | ok block c' => exact .inl (after h)

/-- `run` faults the context unless a fetch of the run fails. -/
lemma runFaults_iff :
    RunFaults ir c ↔ ∀ b, Reach (blockStep ir) ⟨c, 0⟩ b → b.entry = 0 →
      b.context.state.status = .running → ¬ FetchFails b.context := by
  constructor
  · rintro faults ⟨c', entry⟩ st rfl running fails
    obtain ⟨code, message, d, fetch, state⟩ := fetchBlock_of_fails fails
    have stop : blockStep ir ⟨c', 0⟩ = .inr (.error (.simulation code message) d) := by
      rw [blockStep_running ir running, fetch]
    have faulted := faults code message d (runs_iff_halts.mpr ((Halts.stop stop).of_reach st))
    rw [state, running] at faulted
    cases faulted
  · intro fetches code message d runs
    obtain ⟨b, st, stop⟩ := (runs_iff_halts.mp runs).last
    obtain faulted | ⟨e0, running, fails⟩ := blockStep_thrown stop
    · exact faulted
    · exact absurd fails (fetches b st e0 running)

/-- A `SimulationException` that propagates has faulted the context exactly if it was not thrown by
the fetch of a block. -/
theorem simulation_errors_fault_iff (ir : IrLibrary) (c : ExecutionContext σ)
    (running : c.state.status = .running) :
    (StepFaults ir c ↔ ¬ FetchFails c) ∧
    (RunFaults ir c ↔ ∀ b, Reach (blockStep ir) ⟨c, 0⟩ b → b.entry = 0 →
      b.context.state.status = .running → ¬ FetchFails b.context) :=
  ⟨stepFaults_iff running, runFaults_iff⟩

/-- A jump to the address `0x4000000`, past the end of the memory. -/
def jumpOut : ExecutionContext Script := .ofMemory (.ofWords [0xFD000000] 0)

/-- The fetch at the target of the jump throws, and the status is still `RUNNING`. -/
theorem jumpOut_not_faulted : ¬ RunFaults .reference jumpOut := by
  intro faults
  have runs : Runs .reference jumpOut (.error (.simulation .memoryOutOfBounds _) _) := ⟨5, rfl⟩
  have faulted := faults _ _ _ runs
  cases faulted

/-- The first block of the jump can be fetched. -/
theorem simulation_errors_fault_iff_jumpOut :
    (StepFaults .reference jumpOut ↔ ¬ FetchFails jumpOut) ∧
    (RunFaults .reference jumpOut ↔ ∀ b, Reach (blockStep .reference) ⟨jumpOut, 0⟩ b →
      b.entry = 0 → b.context.state.status = .running → ¬ FetchFails b.context) :=
  simulation_errors_fault_iff .reference jumpOut rfl

end ToyIsa
