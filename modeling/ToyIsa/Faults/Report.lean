import ToyIsa.Faults.Blocks
import ToyIsa.Toy.Scripted

/-!
# What the process reports

`mainEnd` is the end of `main`. A fault of an interpreted instruction is thrown through `run` and
reported by `main`. A fault of a compiled one is not: the `noexcept` helpers only set the status, so
`run` returns normally and `main` prints an exit code. `reports_faults_iff` says that this is the
only way in which a run that did not end in a guest exit is reported as a success.
-/

namespace ToyIsa

open ExecutionContext Machine

variable {σ : Type}

/-- What the process leaves behind. -/
structure ProcessEnd where
  output : String
  errors : String
  exitStatus : Nat
  deriving DecidableEq, Repr

/-- The end of `main`, after `run`. Undefined behaviour has no end. -/
def mainEnd : Outcome σ → Option ProcessEnd
  | .ok () c =>
    some ⟨"Process ended with exit code: " ++ toString c.state.exitCode.toNat ++ "\n", "", 0⟩
  | .error (.simulation _ message) _ => some ⟨"", message ++ "\n", 1⟩
  | .error (.runtime message) _ => some ⟨"", message ++ "\n", 1⟩
  | .error .undefined _ => none

/-- The guest has exited: the last system call is the exit call with the exit code. -/
structure Exited (c : ExecutionContext σ) : Prop where
  status : c.state.status = .halted
  last : ∃ earlier, c.syscalls = earlier ++ [.exit c.state.exitCode]

/-- The run is never reported as a success unless the guest exits, and every fault is thrown. -/
structure ReportsFaults [Host σ] (ir : IrLibrary) (c : ExecutionContext σ) : Prop where
  success : ∀ d, Runs ir c (.ok () d) → Exited d
  fault : ∀ b native k i e, Reach (blockStep ir) ⟨c, 0⟩ b → FaultsAt b native k i e →
    e.IsSimulation ∧ ∃ d, Runs ir c (.error e d)
  main : ∀ o, Runs ir c o → ¬ Exited o.context → ∃ message, mainEnd o = some ⟨"", message, 1⟩

/-- The context after the exit call. -/
lemma Exits.exited {c d : ExecutionContext σ} (h : Exits c d) : Exited d := by
  subst h
  exact ⟨rfl, c.syscalls, rfl⟩

/-- The PC is not part of how the guest exited. -/
lemma Exited.atPc {c : ExecutionContext σ} (h : Exited c) (pc) : Exited (c.atPc pc) :=
  ⟨h.status, h.last⟩

/-- `main` reports an exception. -/
lemma mainEnd_error {e} (thrown : e ≠ .undefined) (d : ExecutionContext σ) :
    ∃ message, mainEnd (.error e d) = some ⟨"", message, 1⟩ := by
  cases e with
  | simulation code message => exact ⟨_, rfl⟩
  | runtime message => exact ⟨_, rfl⟩
  | undefined => exact absurd rfl thrown

variable [Host σ]

/-- A block leaves the guest running or exited. -/
lemma execAll_exited {is : List Instr} (st : Straight is) {c d : ExecutionContext σ}
    (running : c.state.status = .running) (h : execAll is c = .ok () d) :
    d.state.status = .running ∨ Exited d := by
  induction st generalizing c with
  | last i =>
    unfold execAll at h
    cases x : i.exec c with
    | error e c' => rw [x] at h; cases h
    | ok u c' =>
      rw [x] at h
      cases h
      obtain ⟨c'', x', rfl⟩ := Instr.exec_ok_iff.mp x
      obtain same | ⟨_, exits⟩ := Instr.effect_state x'
      · left
        rw [atPc_state, same, running]
      · exact .inr (exits.exited.atPc _)
  | @cons i is ne _ ih =>
    unfold execAll at h
    cases x : i.exec c with
    | error e c' => rw [x] at h; cases h
    | ok u c' =>
      rw [x] at h
      obtain ⟨c'', x', rfl⟩ := Instr.exec_ok_iff.mp x
      refine ih ?_ h
      rw [atPc_state, Instr.effect_state_of_not_ends ne x', running]

/-- Native code that does not fault leaves the guest running or exited. -/
lemma nativeRun_exited {is : List Instr} (st : Straight is) {c d : ExecutionContext σ}
    (running : c.state.status = .running) (h : execAll is c = .ok () d) (last) (pc) :
    (afterNative last (nativeRun pc is c)).context.state.status = .running ∨
      Exited (afterNative last (nativeRun pc is c)).context := by
  have left := execAll_exited st running h
  rw [nativeRun_of_ok st running h pc]
  split <;> exact left

variable {ir : IrLibrary} {b b' : Boundary σ}

/-- The guest is running or has exited at a boundary. -/
def Boundary.Live (b : Boundary σ) : Prop := b.context.state.status = .running ∨ Exited b.context

/-- A turn in which no compiled instruction faults keeps the guest running or exits. -/
lemma Turn.live {r} (turn : Turn ir b r) (good : b.Good) (live : b.Live)
    (calm : ∀ k i e, ¬ FaultsAt b true k i e) (h : r = .inl b') : b'.Live := by
  cases turn with
  | stopped | fault | failed => cases h
  | diverges =>
    cases h
    exact live
  | prepared running _ _ _ _ _ =>
    cases h
    exact .inl running
  | @interpreted c block cache is running _ _ isBlock =>
    have running' : ((c.withCache cache).counted c.cpu.pc).state.status = .running := by
      obtain ⟨cache', e, _⟩ := counted_eq (c.withCache cache) c.cpu.pc
      rw [e]
      exact running
    cases x : execAll is ((c.withCache cache).counted c.cpu.pc) with
    | error e d => rw [x] at h; cases h
    | ok u d =>
      rw [x] at h
      cases h
      exact execAll_exited isBlock.straight running' x
  | @native c entry block is last ne running hb _ isBlock _ =>
    cases h
    cases x : execAll is c with
    | ok u d => exact nativeRun_exited isBlock.straight running x last c.cpu.pc
    | error e d =>
      obtain ⟨block', hb', _, entry⟩ := good.entry ne
      rw [hb] at hb'
      cases hb'
      obtain ⟨k, i, faults⟩ := faultsAt_of_execAll (.native ne hb entry isBlock) x
      exact absurd faults (calm k i e)

/-- Every boundary of a run without compiled faults is good, with the guest running or exited. -/
lemma Boundary.Live.reach (doc : ir.Documented) (good : b.Good) (live : b.Live)
    (calm : ∀ b' k i e, Reach (blockStep ir) b b' → ¬ FaultsAt b' true k i e)
    (st : Reach (blockStep ir) b b') : b'.Live := by
  induction st with
  | refl => exact live
  | @tail t t' st next ih =>
    have good' := good.reach doc st
    exact (turn_of_good doc good').live good' ih (fun k i e => calm t k i e st) next

/-- A turn that ends the run normally is the one that finds the guest stopped. -/
lemma Turn.ended {d} (turn : Turn ir b (.inr (.ok () d))) :
    b.context = d ∧ b.context.state.status ≠ .running := by
  generalize er : (Sum.inr (.ok () d) : Boundary σ ⊕ Outcome σ) = r at turn
  cases turn with
  | fault | diverges | prepared | failed | native => cases er
  | stopped ne =>
    cases er
    exact ⟨rfl, ne⟩
  | @interpreted c _ cache is =>
    cases x : execAll is ((c.withCache cache).counted c.cpu.pc) <;> (rw [x] at er; cases er)

/-- A run without compiled faults that ends normally ends in a guest exit. -/
lemma exited_of_runs (doc : ir.Documented) {c d : ExecutionContext σ}
    (running : c.state.status = .running) (hc : Consistent c.blockCache)
    (calm : ∀ b k i e, Reach (blockStep ir) ⟨c, 0⟩ b → ¬ FaultsAt b true k i e)
    (runs : Runs ir c (.ok () d)) : Exited d := by
  obtain ⟨t, st, stop⟩ := (runs_iff_halts.mp runs).last
  have good := (Boundary.Good.zero hc).reach doc st
  have turn := turn_of_good doc good
  rw [stop] at turn
  obtain ⟨rfl, stopped⟩ := turn.ended
  obtain run | exited := Boundary.Live.reach doc (.zero hc) (.inl running) calm st
  · exact absurd run stopped
  · exact exited

/-- A turn that ends the run with a failure throws an exception. -/
lemma Turn.thrown {e d} (turn : Turn ir b (.inr (.error e d))) : e ≠ .undefined := by
  have ne {e : Failure} (sim : e.IsSimulation) : e ≠ .undefined := by
    rintro rfl
    cases sim
  generalize er : (Sum.inr (.error e d) : Boundary σ ⊕ Outcome σ) = r at turn
  cases turn with
  | stopped | diverges | prepared | native => cases er
  | failed =>
    cases er
    exact nofun
  | @fault c _ _ _ fetched =>
    cases er
    have f := getBlock_cases c.blockCache c.cpu.pc c.memory
    rw [fetched] at f
    cases f with
    | fault _ failed => exact ne (TIMemory.read32_error failed)
  | @interpreted c _ cache is =>
    cases x : execAll is ((c.withCache cache).counted c.cpu.pc) with
    | ok u c' => rw [x] at er; cases er
    | error e' c' =>
      rw [x] at er
      cases er
      exact ne (execAll_isSimulation x)

/-- A run never passes a fault off as a success exactly if no compiled instruction faults. -/
theorem reports_faults_iff (doc : ir.Documented) (c : ExecutionContext σ)
    (running : c.state.status = .running) (empty : c.blockCache = c.blockCache.clear) :
    ReportsFaults ir c ↔
      ∀ b k i e, Reach (blockStep ir) ⟨c, 0⟩ b → ¬ FaultsAt b true k i e := by
  have hc : Consistent c.blockCache := empty ▸ Consistent.clear c.blockCache
  have good {b} (st : Reach (blockStep ir) ⟨c, 0⟩ b) := (Boundary.Good.zero hc).reach doc st
  constructor
  · intro reports b k i e st faults
    obtain ⟨d, halts, faulted, _⟩ := faults.halts doc (good st)
    have exited := reports.success d (runs_iff_halts.mpr (halts.of_reach st))
    rw [exited.status] at faulted
    cases faulted
  · intro calm
    refine ⟨fun d runs => exited_of_runs doc running hc calm runs, ?_, ?_⟩
    · intro b native k i e st faults
      cases native with
      | true => exact absurd faults (calm b k i e st)
      | false =>
        obtain ⟨d, next, sim, _⟩ := faults.interpreted_step doc (good st)
        exact ⟨sim, d, runs_iff_halts.mpr ((Halts.stop next).of_reach st)⟩
    · intro o runs ne
      cases o with
      | ok u d => exact absurd (exited_of_runs doc running hc calm runs) ne
      | error e d =>
        obtain ⟨t, st, stop⟩ := (runs_iff_halts.mp runs).last
        have turn := turn_of_good doc (good st)
        rw [stop] at turn
        exact mainEnd_error turn.thrown d

/-- `Li x17, 3` and a load from the last word of the address space, in the JIT with threshold 0. -/
def faultyLoad : ExecutionContext Script :=
  { ExecutionContext.ofMemory (.ofWords [0x2C110003, 0xCC013FFC] 0) with mode := .jit }

/-- The faulting load ends the run normally, and `main` prints the exit code 0. -/
theorem faultyLoad_reported_as_exit :
    ¬ ReportsFaults .reference faultyLoad ∧
      ∃ o, Runs .reference faultyLoad o ∧ o.context.state.status = .faulted ∧
        mainEnd o = some ⟨"Process ended with exit code: 0\n", "", 0⟩ := by
  have runs : Runs .reference faultyLoad (.ok () _) := ⟨10, rfl⟩
  have faulted : ExecutionStatus.faulted ≠ .halted := nofun
  exact ⟨fun reports => faulted (reports.success _ runs).status, _, runs, rfl, rfl⟩

/-- In that run some compiled instruction faults. -/
theorem reports_faults_iff_faultyLoad :
    ∃ b k i e, Reach (blockStep .reference) ⟨faultyLoad, 0⟩ b ∧ FaultsAt b true k i e := by
  by_contra calm
  have runs : Runs .reference faultyLoad (.ok () _) := ⟨10, rfl⟩
  have reports : ReportsFaults .reference faultyLoad :=
    (reports_faults_iff IrLibrary.reference_documented faultyLoad rfl
      TIBasicBlockCache.empty_clear).mpr
      fun b k i e st faults => calm ⟨b, k, i, e, st, faults⟩
  -- but the run returns normally with the status FAULTED
  have exited := reports.success _ runs
  cases exited.status

end ToyIsa
