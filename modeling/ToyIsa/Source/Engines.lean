import ToyIsa.Faults.Report
import ToyIsa.Refine.Threaded
import ToyIsa.Source.Refine

/-!
# Source programs in the engines

A source program that stays inside its text and leaves it alone means the same in all three engines:
each stops exactly if the source does, with the registers, the memory, the exit code and the system
calls of the source (`source_in_engine`).
-/

namespace ToyIsa.Asm

open ExecutionContext Machine

variable {σ : Type}

/-- What an engine keeps of the end of a source program. The JIT reports a fault by the status only,
and at the address of the block. -/
structure SameResult (mode : TIExecutionMode) (position : Int) (o o' : Outcome σ) : Prop where
  registers : o'.context.cpu.registers = o.context.cpu.registers
  memory : o'.context.memory = o.context.memory
  exitCode : o'.context.state.exitCode = o.context.state.exitCode
  syscalls : o'.context.syscalls = o.context.syscalls
  exits : ∀ c, o = .ok () c → ∃ d, o' = .ok () d ∧ d.cpu.pc = addressOf position
  faults : mode ≠ .jit →
    Outcome.failure? o' = Outcome.failure? o ∧ o'.context.cpu.pc = addressOf position

variable [Host σ] {ir : IrLibrary} {c d : ExecutionContext σ}

/-- The switch engine returns from `run` with an exited guest only. -/
lemma halted_of_switch (doc : ir.Documented) (hc : Consistent c.blockCache)
    (switch : c.mode = .switch) (running : c.state.status = .running)
    (h : Runs ir c (.ok () d)) : d.state.status = .halted := by
  obtain ⟨b, run, last⟩ := (runs_iff_halts.mp h).last
  have inv : b.Good ∧ b.entry = 0 ∧ b.context.mode = .switch ∧ b.Live := by
    refine Reach.invariant (P := fun b => b.Good ∧ b.entry = 0 ∧ b.context.mode = .switch ∧ b.Live)
      (fun s t hs next => ?_) ⟨.zero hc, rfl, switch, .inl running⟩ run
    obtain ⟨good, entry, switch, live⟩ := hs
    have turn := turn_of_good doc good
    rw [next] at turn
    have good' := (turn.good good).1 t rfl
    generalize er : (Sum.inl t : Boundary σ ⊕ Outcome σ) = r at turn
    cases turn with
    | stopped | fault | failed => cases er
    | native e0 => exact absurd entry e0
    | prepared _ _ hi => exact absurd (interprets_of_switch switch _) hi
    | diverges =>
      cases er
      exact ⟨good, rfl, switch, live⟩
    | @interpreted c block cache is running _ _ isBlock =>
      rw [counted_of_switch (c := c.withCache cache) switch] at er
      cases x : execAll is (c.withCache cache) with
      | error e c' => rw [x] at er; cases er
      | ok u c' =>
        rw [x] at er
        cases er
        exact ⟨good', rfl, (execAll_mode x).trans switch,
          execAll_exited (c := c.withCache cache) isBlock.straight running x⟩
  obtain ⟨good, entry, switch, live⟩ := inv
  have turn := turn_of_good doc good
  rw [last] at turn
  generalize er : (Sum.inr (.ok () d) : Boundary σ ⊕ Outcome σ) = r at turn
  cases turn with
  | diverges | prepared | native | fault | failed => cases er
  | stopped ne =>
    cases er
    obtain running | exited := live
    · exact absurd running ne
    · exact exited.status
  | @interpreted c block cache is =>
    cases x : execAll is ((c.withCache cache).counted c.cpu.pc) with
    | ok u c' => rw [x] at er; cases er
    | error e c' => rw [x] at er; cases er

/-- A guest that has exited is never reported by an exception. -/
lemma ok_of_halted (doc : ir.Documented) (hc : Consistent c.blockCache) {o : Outcome σ}
    (h : Runs ir c o) (halted : o.context.state.status = .halted) : ∃ d, o = .ok () d := by
  obtain ⟨b, run, last⟩ := (runs_iff_halts.mp h).last
  have turn := turn_of_good doc ((Boundary.Good.zero hc).reach doc run)
  rw [last] at turn
  generalize er : (Sum.inr o : Boundary σ ⊕ Outcome σ) = r at turn
  cases turn with
  | diverges | prepared | native => cases er
  | stopped ne =>
    cases er
    exact ⟨_, rfl⟩
  | fault running =>
    cases er
    cases running.symm.trans halted
  | failed running =>
    cases er
    cases running.symm.trans halted
  | @interpreted c block cache is =>
    cases x : execAll is ((c.withCache cache).counted c.cpu.pc) with
    | ok u c' => rw [x] at er; cases er
    | error e c' =>
      rw [x] at er
      cases er
      cases halted

/-- The switch engine simulates the machine without a cache. -/
lemma switch_simulates {start : ExecutionContext σ} (disciplined : Disciplined start)
    (small : start.memory.size < 2 ^ 32) :
    Simulates oneStep (pointStep ir) (Matches start) SameEnd := by
  constructor
  case step =>
    intro c p d rel e
    obtain ⟨q, run, rel'⟩ := switch_simulates_step ir disciplined small rel e
    obtain ⟨u, first, rest⟩ := Relation.TransGen.head'_iff.mp run
    exact ⟨u, q, first, rest, rel'⟩
  case stop => exact fun c p o rel e => switch_simulates_stop ir disciplined small rel e

section

variable {source : List Call} {a : Assembler} {words : List Nat} {start : ExecutionContext σ}

omit [Host σ] in
variable (words) in
/-- A context that is about to run a program of `words` from address 0. -/
structure Fresh (start : ExecutionContext σ) : Prop where
  pc : start.cpu.pc = 0
  running : start.state.status = .running
  cache : start.blockCache = start.blockCache.clear
  small : start.memory.size < 2 ^ 32
  regions : start.memory.executableRegions = [⟨0, 4 * words.length⟩]
  fits : 4 * words.length < 2 ^ 28

omit [Host σ] in
/-- The machine starts where the source does. -/
lemma Fresh.toContext (fresh : Fresh words start) : SourceState.toContext ⟨0, start⟩ = start := by
  show start.atPc 0 = start
  rw [← fresh.pc]
  rfl

omit [Host σ] in
/-- An outcome without a failure is a success. -/
lemma Outcome.failure?_none {o : Outcome σ} (h : Outcome.failure? o = none) :
    ∃ d, o = .ok () d := by
  cases o with
  | ok u d => exact ⟨d, rfl⟩
  | error e d => cases h

omit [Host σ] in
/-- The end of the machine is that of the source. -/
lemma sameResult_of_sameEnd {position mode} {o o' : Outcome σ}
    (same : SameEnd (Outcome.atPc o (addressOf position)) o') : SameResult mode position o o' := by
  have pc : o'.context.cpu.pc = addressOf position := by
    rw [same.pc]
    cases o <;> rfl
  have failure : Outcome.failure? o' = Outcome.failure? o := by
    rw [same.failure]
    cases o <;> rfl
  refine ⟨?_, ?_, ?_, ?_, ?_, fun _ => ⟨failure, pc⟩⟩
  · rw [same.registers]
    cases o <;> rfl
  · rw [same.memory]
    cases o <;> rfl
  · rw [same.exitCode]
    cases o <;> rfl
  · rw [same.syscalls]
    cases o <;> rfl
  · rintro c rfl
    obtain ⟨d, rfl⟩ := Outcome.failure?_none failure
    exact ⟨d, rfl, pc⟩

/-- The switch engine runs the program. -/
lemma source_in_switch (h : assemble source = .ok (a, words)) (fresh : Fresh words start)
    (switch : start.mode = .switch) (contained : Contained source words start) :
    (∀ r, Halts (sourceStep source) ⟨0, start⟩ r → ∃ p o o', r = .stopped p o ∧
      Runs ir start o' ∧ SameResult .switch p o o') ∧
    ∀ o', Runs ir start o' → ∃ r, Halts (sourceStep source) ⟨0, start⟩ r := by
  have disciplined := contained.disciplined h fresh.fits fresh.regions
  have lockstep := contained.lockstep h fresh.fits
  rw [fresh.toContext] at disciplined
  have sim := @switch_simulates _ _ ir _ disciplined fresh.small
  have rel : Matches start start (.boundary ⟨start, 0⟩) := .boundary (.fresh fresh.cache switch)
  have level : Reach (sourceStep source) ⟨0, start⟩ (⟨0, start⟩ : SourceState σ) ∧
      start = SourceState.toContext ⟨0, start⟩ := ⟨.refl, fresh.toContext.symm⟩
  refine ⟨fun r halts => ?_, fun o' runs => ?_⟩
  · obtain ⟨o₁, halts₁, ends⟩ := lockstep.halts level halts
    obtain ⟨o', halts', same⟩ := sim.halts rel halts₁
    cases ends with
    | @stopped p o =>
      exact ⟨p, o, o', rfl, runs_iff_halts_points.mpr halts', sameResult_of_sameEnd same⟩
  · obtain ⟨o₁, halts₁, _⟩ := sim.halted rel (runs_iff_halts_points.mp runs)
    obtain ⟨r, halts, _⟩ := lockstep.halted level halts₁
    exact ⟨r, halts⟩

omit [Host σ] in
/-- The engine does not matter for a fresh context. -/
lemma Fresh.inSwitch {d : ExecutionContext σ} (fresh : Fresh words d) : Fresh words d.inSwitch :=
  ⟨fresh.pc, fresh.running, fresh.cache, fresh.small, fresh.regions, fresh.fits⟩

/-- What the JIT makes of a result of the switch engine. -/
lemma SameResult.jit (doc : ir.Documented) (fresh : Fresh words d) {position} {o o₁ o' : Outcome σ}
    (runs₁ : Runs ir d.inSwitch o₁) (runs : Runs ir d o')
    (agree : Agree o₁.context o'.context) (same : SameResult .switch position o o₁) :
    SameResult .jit position o o' := by
  have hc : Consistent d.blockCache := fresh.cache ▸ Consistent.clear d.blockCache
  refine ⟨agree.registers.trans same.registers, agree.memory.trans same.memory,
    agree.exitCode.trans same.exitCode, agree.syscalls.trans same.syscalls, ?_,
    fun ne => absurd rfl ne⟩
  rintro c rfl
  obtain ⟨d₁, rfl, pc⟩ := same.exits c rfl
  have halted := halted_of_switch (c := d.inSwitch) doc hc rfl fresh.running runs₁
  obtain ⟨d', rfl⟩ := ok_of_halted doc hc runs (agree.status.trans halted)
  refine ⟨d', rfl, (agree.pc ?_).trans pc⟩
  show d₁.state.status ≠ .faulted
  rw [halted]
  exact nofun

omit [Host σ] in
/-- The mode is not part of a result. -/
lemma SameResult.inMode {position mode} {o o₁ : Outcome σ}
    (same : SameResult .switch position o o₁) :
    SameResult mode position o (o₁.inMode mode) := by
  obtain ⟨failure, pc⟩ := same.faults nofun
  have context : (o₁.inMode mode).context = o₁.context.inMode mode := by
    cases o₁ <;> rfl
  refine ⟨?_, ?_, ?_, ?_, ?_, fun _ => ⟨?_, ?_⟩⟩
  · rw [context]; exact same.registers
  · rw [context]; exact same.memory
  · rw [context]; exact same.exitCode
  · rw [context]; exact same.syscalls
  · rintro c rfl
    obtain ⟨d₁, rfl, pc⟩ := same.exits c rfl
    exact ⟨_, rfl, pc⟩
  · rw [← failure]
    cases o₁ <;> rfl
  · rw [context]; exact pc

/-- Every engine stops as the switch engine does. -/
lemma engine_of_switch (doc : ir.Documented) (compiles : ir.Compiles) (fresh : Fresh words d) :
    ((∃ o₁, Runs ir d.inSwitch o₁) ↔ ∃ o', Runs ir d o') ∧
    ∀ p o o₁ o', Runs ir d.inSwitch o₁ → Runs ir d o' → SameResult .switch p o o₁ →
      SameResult d.mode p o o' := by
  have hc : Consistent d.blockCache := fresh.cache ▸ Consistent.clear d.blockCache
  cases mode : d.mode with
  | switch =>
    have same : d.inSwitch = d := by
      unfold inSwitch
      rw [← mode]
    rw [same]
    refine ⟨Iff.rfl, fun p o o₁ o' runs₁ runs result => ?_⟩
    rwa [(runs_iff_halts.mp runs).unique (runs_iff_halts.mp runs₁)]
  | threaded =>
    have same : d.inMode .threaded = d := by
      unfold ExecutionContext.inMode
      rw [← mode]
    have step fuel := @run_inMode _ _ ir _ hc fuel
    rw [same] at step
    have runs_iff o' : Runs ir d o' ↔ ∃ o₁, Runs ir d.inSwitch o₁ ∧ o₁.inMode .threaded = o' := by
      constructor
      · rintro ⟨fuel, run⟩
        rw [step] at run
        obtain ⟨o₁, run₁, e⟩ := Option.map_eq_some_iff.mp run
        exact ⟨o₁, ⟨fuel, run₁⟩, e⟩
      · rintro ⟨o₁, ⟨fuel, run₁⟩, e⟩
        exact ⟨fuel, (step fuel).trans (Option.map_eq_some_iff.mpr ⟨o₁, run₁, e⟩)⟩
    refine ⟨⟨fun ⟨o₁, runs₁⟩ => ⟨_, (runs_iff _).mpr ⟨o₁, runs₁, rfl⟩⟩, fun ⟨o', runs⟩ => ?_⟩,
      fun p o o₁ o' runs₁ runs result => ?_⟩
    · obtain ⟨o₁, runs₁, _⟩ := (runs_iff o').mp runs
      exact ⟨o₁, runs₁⟩
    · obtain ⟨o₂, runs₂, rfl⟩ := (runs_iff o').mp runs
      obtain rfl := (runs_iff_halts.mp runs₁).unique (runs_iff_halts.mp runs₂)
      exact result.inMode
  | jit =>
    have rel : JitRel ⟨d.inSwitch, 0⟩ ⟨d, 0⟩ := ⟨.zero hc, rfl, rfl, .zero hc, d.engine, rfl, rfl⟩
    have sim := jit_simulates_switch (σ := σ) doc compiles
    refine ⟨⟨?_, ?_⟩, fun p o o₁ o' runs₁ runs result => ?_⟩
    · rintro ⟨o₁, runs₁⟩
      obtain ⟨o', halts, _⟩ := sim.halts rel (runs_iff_halts.mp runs₁)
      exact ⟨o', runs_iff_halts.mpr halts⟩
    · rintro ⟨o', runs⟩
      obtain ⟨o₁, halts, _⟩ := sim.halted rel (runs_iff_halts.mp runs)
      exact ⟨o₁, runs_iff_halts.mpr halts⟩
    · obtain ⟨o₂, halts, agree⟩ := sim.halts rel (runs_iff_halts.mp runs₁)
      rw [halts.unique (runs_iff_halts.mp runs)] at agree
      exact result.jit doc fresh runs₁ runs agree

/-- A source program that assembles, stays inside its text and leaves its text alone is run by every
engine as the source says, with every JIT threshold and optimisation level: the engine stops if and
only if the source does, and then with the same registers, memory, exit code and system calls. It
returns normally if the guest exits, at the address of the exit call, and the interpreting engines
raise the exception of a fault at the address of its instruction. -/
theorem source_in_engine (doc : ir.Documented) (compiles : ir.Compiles)
    (h : assemble source = .ok (a, words)) {d : ExecutionContext σ} (fresh : Fresh words d)
    (contained : Contained source words d.inSwitch) :
    (∀ r, Halts (sourceStep source) ⟨0, d.inSwitch⟩ r → ∃ p o o', r = .stopped p o ∧
      Runs ir d o' ∧ SameResult d.mode p o o') ∧
    ∀ o', Runs ir d o' → ∃ r, Halts (sourceStep source) ⟨0, d.inSwitch⟩ r := by
  obtain ⟨forward, backward⟩ := @source_in_switch _ _ ir _ _ _ _ h fresh.inSwitch rfl contained
  obtain ⟨both, same⟩ := engine_of_switch doc compiles fresh
  refine ⟨fun r halts => ?_, fun o' runs => ?_⟩
  · obtain ⟨p, o, o₁, rfl, runs₁, result⟩ := forward r halts
    obtain ⟨o', runs⟩ := both.mp ⟨o₁, runs₁⟩
    exact ⟨p, o, o', rfl, runs, same p o o₁ o' runs₁ runs result⟩
  · obtain ⟨o₁, runs₁⟩ := both.mpr ⟨o', runs⟩
    exact backward o₁ runs₁

end

end ToyIsa.Asm
