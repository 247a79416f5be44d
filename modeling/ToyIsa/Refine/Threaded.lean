import ToyIsa.Block.Chaining
import ToyIsa.Refine.JitSwitch

/-!
# The threaded engine agrees with the switch engine

Both engines interpret a block of typed instructions with the same `execute` functions, and no
instruction looks at the mode. So a step of one is a step of the other, with the same block cache
and the same exception, and so are whole runs.
-/

namespace ToyIsa

open ExecutionContext TIBasicBlockCache

variable {σ : Type}

/-- The context in another engine. -/
@[simps] def ExecutionContext.inMode (c : ExecutionContext σ) (mode : TIExecutionMode) :
    ExecutionContext σ :=
  { c with mode := mode }

/-- An outcome in another engine. -/
def Outcome.inMode (o : Outcome σ) (mode : TIExecutionMode) : Outcome σ :=
  match o with
  | .ok u c => .ok u (c.inMode mode)
  | .error e c => .error e (c.inMode mode)

/-- The last engine counts. -/
@[simp] lemma inMode_inMode (c : ExecutionContext σ) (m m') :
    (c.inMode m).inMode m' = c.inMode m' := rfl

/-- The last engine of an outcome counts. -/
@[simp] lemma Outcome.inMode_inMode (o : Outcome σ) (m m') :
    (o.inMode m).inMode m' = o.inMode m' := by
  cases o <;> rfl

/-- The handler of `executeBlock` does not look at the mode. -/
lemma catchSimulation_inMode (o : Outcome σ) (m) :
    catchSimulation (o.inMode m) = (catchSimulation o).inMode m := by
  cases o with
  | ok u c => rfl
  | error e c => cases e <;> rfl

/-- A context in another engine is in the same state of the guest. -/
lemma inMode_eq_withEngine (c : ExecutionContext σ) (m) :
    c.inMode m = c.withEngine { c.engine with mode := m } := rfl

variable [Host σ]

/-- No instruction but `FLUSH` changes the engine. -/
lemma Instr.exec_engine {i : Instr} (ne : i ≠ .flush) {c d : ExecutionContext σ}
    (h : i.exec c = .ok () d) : d.engine = c.engine := by
  obtain ⟨d', h', rfl⟩ := exec_ok_iff.mp h
  have frame := effect_frame h'
  have cache := effect_blockCache h' ne
  unfold ExecutionContext.engine
  simp only [atPc_mode, atPc_jitThreshold, atPc_jitOptimizationLevel, atPc_blockCache, frame.mode,
    frame.threshold, frame.level, cache]

/-- No instruction looks at the mode. -/
lemma Instr.exec_inMode (i : Instr) (c : ExecutionContext σ) (m) :
    i.exec (c.inMode m) = (i.exec c).inMode m := by
  by_cases hf : i = .flush
  case pos =>
    subst hf
    rfl
  case neg =>
    rw [inMode_eq_withEngine, exec_withEngine, EngineState.after, if_neg hf]
    cases x : i.exec c with
    | ok u d =>
      rw [← exec_engine hf x]
      rfl
    | error e d =>
      obtain ⟨_, m', rfl, _⟩ := effect_error (exec_error_iff.mp x)
      rfl

/-- No block looks at the mode. -/
lemma execAll_inMode (is : List Instr) (c : ExecutionContext σ) (m) :
    execAll is (c.inMode m) = (execAll is c).inMode m := by
  induction is generalizing c with
  | nil => rfl
  | cons i is ih =>
    unfold execAll
    rw [Instr.exec_inMode]
    cases i.exec c with
    | ok u d => exact ih d
    | error e d => rfl

variable {ir : IrLibrary} {c : ExecutionContext σ}

variable (ir) in
/-- A block in an interpreting engine. -/
lemma executeBlock_inMode {m} (hm : m ≠ .jit) {block is} (isBlock : IsBlock block is) (fuel key) :
    executeBlock ir fuel key block (c.inMode m) =
      some ((catchSimulation (execAll is c)).inMode m) := by
  have instructions := isBlock.instructions
  have interpreted : execAll is (c.inMode m) = (execAll is c).inMode m := execAll_inMode is c m
  cases m with
  | jit => exact absurd rfl hm
  | switch =>
    have run : executeSwitchBlock block (c.inMode .switch) = (execAll is c).inMode .switch := by
      rw [executeSwitchBlock, instructions, executeInstructions_toTI, interpreted]
    simp only [executeBlock, inMode_mode, run, Option.map_some, catchSimulation_inMode]
  | threaded =>
    have run : executeThreadedBlock block (c.inMode .threaded) =
        (execAll is c).inMode .threaded := by
      rw [executeThreadedBlock, instructions, callThreadedHandler_toTI isBlock.straight,
        interpreted]
    simp only [executeBlock, inMode_mode, run, Option.map_some, catchSimulation_inMode]

/-- A step of the threaded engine is a step of the switch engine. -/
lemma step_inMode (hc : Consistent c.blockCache) (fuel) :
    step ir fuel (c.inMode .threaded) =
      (step ir fuel (c.inMode .switch)).map (·.inMode .threaded) := by
  unfold step fetchBlock
  simp only [inMode_blockCache, inMode_cpu, inMode_memory]
  cases get : c.blockCache.getBlock c.cpu.pc c.memory with
  | none => rfl
  | some r =>
    cases r with
    | error e cache => rfl
    | ok block cache =>
      obtain ⟨hc', hb, _⟩ := hc.getBlock_ok get
      obtain ⟨is, isBlock⟩ := hc'.isBlock hb
      have block (m) (hm : m ≠ .jit) : executeBlock ir fuel c.cpu.pc block
          ((c.withCache cache).inMode m) =
          some ((catchSimulation (execAll is (c.withCache cache))).inMode m) :=
        executeBlock_inMode ir hm isBlock fuel c.cpu.pc
      have switch := congrArg (Option.map (Outcome.inMode · .threaded)) (block .switch (by decide))
      rw [Option.map_some, Outcome.inMode_inMode] at switch
      exact (block .threaded (by decide)).trans switch.symm

/-- A step of the switch engine keeps the cache consistent. -/
lemma step_switch_ok (hc : Consistent c.blockCache) {fuel d}
    (h : step ir fuel (c.inMode .switch) = some (.ok () d)) :
    Consistent d.blockCache ∧ d.inMode .switch = d := by
  unfold step fetchBlock at h
  simp only [inMode_blockCache, inMode_cpu, inMode_memory] at h
  cases get : c.blockCache.getBlock c.cpu.pc c.memory with
  | none => rw [get] at h; cases h
  | some r =>
    rw [get] at h
    cases r with
    | error e cache => cases h
    | ok block cache =>
      obtain ⟨hc', hb, _⟩ := hc.getBlock_ok get
      obtain ⟨is, isBlock⟩ := hc'.isBlock hb
      have run : executeBlock ir fuel c.cpu.pc block ((c.withCache cache).inMode .switch) =
          some ((catchSimulation (execAll is (c.withCache cache))).inMode .switch) :=
        executeBlock_inMode ir (by decide) isBlock fuel c.cpu.pc
      have h' := run.symm.trans h
      cases x : execAll is (c.withCache cache) with
      | error e d' =>
        rw [x] at h'
        cases e <;> cases h'
      | ok u d' =>
        rw [x] at h'
        cases h'
        have hd : Consistent d'.blockCache :=
          Consistent.execAll (c := c.withCache cache) hc' (.inl x)
        exact ⟨hd, rfl⟩

/-- A run of the threaded engine is a run of the switch engine. -/
lemma run_inMode (hc : Consistent c.blockCache) (fuel) :
    run ir fuel (c.inMode .threaded) =
      (run ir fuel (c.inMode .switch)).map (·.inMode .threaded) := by
  induction fuel generalizing c with
  | zero => rfl
  | succ fuel ih =>
    unfold run
    rw [inMode_state, inMode_state]
    split
    case isFalse => rfl
    case isTrue =>
      rw [step_inMode hc]
      cases x : step ir fuel (c.inMode .switch) with
      | none => rfl
      | some o =>
        cases o with
        | error e d => rfl
        | ok u d =>
          obtain ⟨hd, switch⟩ := step_switch_ok hc x
          have rest := ih hd
          rw [switch] at rest
          exact rest

/-- From every state that calls of `loadBinary` and `step` reach, a step and a whole run of the
threaded engine are those of the switch engine. -/
theorem threaded_agrees_with_switch {start : ExecutionContext σ} {c}
    (fresh : start.blockCache = start.blockCache.clear) (h : Driven ir start ⟨c, 0⟩) (fuel) :
    step ir fuel (c.inMode .threaded) =
        (step ir fuel (c.inMode .switch)).map (·.inMode .threaded) ∧
      run ir fuel (c.inMode .threaded) =
        (run ir fuel (c.inMode .switch)).map (·.inMode .threaded) := by
  have hc : Consistent c.blockCache := (h.linked fresh).cache
  exact ⟨step_inMode hc fuel, run_inMode hc fuel⟩

/-- A loop after its first block. -/
theorem threaded_agrees_with_switch_loop : ∃ c, Driven .reference countLoop ⟨c, 0⟩ ∧
    c.cpu.pc = 16 ∧ ∃ o, run .reference 20 (c.inMode .switch) = some o ∧
      o.context.state.exitCode = 4 ∧
      run .reference 20 (c.inMode .threaded) = some (o.inMode .threaded) := by
  have ends : (step .reference 1 countLoop).map (fun o => (o.context.cpu.pc,
      (run .reference 20 (o.context.inMode .switch)).map (·.context.state.exitCode))) =
      some (16, some 4) := by
    decide +kernel
  obtain ⟨first, stepped, facts⟩ := Option.map_eq_some_iff.mp ends
  obtain ⟨pc, exits⟩ := Prod.mk.inj facts
  obtain ⟨o, runs, exited⟩ := Option.map_eq_some_iff.mp exits
  have driven := Driven.start.step stepped
  have same := (threaded_agrees_with_switch empty_clear driven 20).2
  rw [runs] at same
  exact ⟨_, driven, pc, o, runs, exited, same⟩

end ToyIsa
