import ToyIsa.Faults.Report

/-!
# Where the PC is after a fault

An interpreted fault leaves the PC at the instruction that faulted. Compiled code writes the PC at
instructions that end a block only, so a fault before the end of a compiled block leaves the PC at
the entry of the block. `precise_faults_iff` says when that is the address of the instruction.
-/

namespace ToyIsa

open ExecutionContext TIBasicBlockCache Machine

variable {σ : Type} [Host σ]

/-- A run that ends with status `FAULTED` ends with the PC at the instruction that faulted. -/
structure PreciseFaults (ir : IrLibrary) (c : ExecutionContext σ) : Prop where
  found : ∀ o, Runs ir c o → o.context.state.status = .faulted →
    ∃ b native k i e, Reach (blockStep ir) ⟨c, 0⟩ b ∧ FaultsAt b native k i e
  address : ∀ o b native k i e, Runs ir c o → o.context.state.status = .faulted →
    Reach (blockStep ir) ⟨c, 0⟩ b → FaultsAt b native k i e →
    o.context.cpu.pc = wordAt b.context.cpu.pc k

variable {b : Boundary σ} {ir : IrLibrary}

/-- A block is shorter than the address space. -/
lemma FaultsAt.index_lt {native k i e} (h : FaultsAt b native k i e) : k < addressSpaceWords := by
  cases h with
  | @intro is start _ _ _ d d' executes hk hp hx =>
    obtain ⟨lt, _⟩ := List.getElem?_eq_some_iff.mp hk
    exact Nat.lt_of_lt_of_le lt executes.length

/-- A faulting instruction that ends its block is invalid or a system call. -/
lemma FaultsAt.of_ends {native k i e} (h : FaultsAt b native k i e) (he : i.Ends) :
    i = .invalid ∨ ∃ code, i = .syscall code := by
  cases h with
  | intro _ _ _ hx => exact ends_of_exec_error he hx

/-- The words of a block have different addresses. -/
lemma wordAt_eq_self {a : Word} {k} (h : k < addressSpaceWords) (e : a = wordAt a k) : k = 0 := by
  have zero : BitVec.ofNat 32 (k * 4) = 0 := by
    unfold wordAt at e
    exact BitVec.self_eq_add_right.mp e
  have toNat : (k * 4) % 2 ^ 32 = 0 := congrArg BitVec.toNat zero
  unfold addressSpaceWords at h
  omega

/-- A run that ends with status `FAULTED` has a fault. -/
lemma found_of_runs (doc : ir.Documented) {c : ExecutionContext σ}
    (running : c.state.status = .running) (hc : Consistent c.blockCache) {o} (runs : Runs ir c o)
    (faulted : o.context.state.status = .faulted) :
    ∃ b native k i e, Reach (blockStep ir) ⟨c, 0⟩ b ∧ FaultsAt b native k i e := by
  by_contra none
  -- if no block faults then no turn sets the status
  have calm b k i e (st : Reach (blockStep ir) ⟨c, 0⟩ b) : ¬ FaultsAt b true k i e :=
    fun faults => none ⟨b, true, k, i, e, st, faults⟩
  obtain ⟨t, st, stop⟩ := (runs_iff_halts.mp runs).last
  have turn := turn_of_good doc ((Boundary.Good.zero hc).reach doc st)
  have live := Boundary.Live.reach doc (.zero hc) (.inl running) calm st
  rw [stop] at turn
  generalize er : (Sum.inr o : Boundary σ ⊕ Outcome σ) = r at turn
  have ne {d : ExecutionContext σ} (run : d.state.status = .running) :
      ¬ d.state.status = .faulted := by
    rw [run]
    exact nofun
  cases turn with
  | diverges | prepared | native => cases er
  | stopped stopped =>
    cases er
    obtain run | exited := live
    · exact stopped run
    · cases exited.status.symm.trans faulted
  | fault run =>
    cases er
    exact ne run faulted
  | failed run =>
    cases er
    exact ne run faulted
  | @interpreted c' block cache is run fetched hi isBlock =>
    cases x : execAll is ((c'.withCache cache).counted c'.cpu.pc) with
    | ok u d => rw [x] at er; cases er
    | error e d =>
      obtain ⟨k, i, faults⟩ := faultsAt_of_execAll (.interpreted run fetched hi isBlock) x
      exact none ⟨_, _, k, i, e, st, faults⟩

/-- The PC is at the instruction that faulted exactly if every compiled instruction that faults is
the first of its block or ends it. -/
theorem precise_faults_iff (doc : ir.Documented) (c : ExecutionContext σ)
    (running : c.state.status = .running) (empty : c.blockCache = c.blockCache.clear) :
    PreciseFaults ir c ↔
      ∀ b k i e, Reach (blockStep ir) ⟨c, 0⟩ b → FaultsAt b true k i e →
        k = 0 ∨ i = .invalid ∨ ∃ code, i = .syscall code := by
  have hc : Consistent c.blockCache := empty ▸ Consistent.clear c.blockCache
  have good {b} (st : Reach (blockStep ir) ⟨c, 0⟩ b) := (Boundary.Good.zero hc).reach doc st
  constructor
  · intro precise b k i e st faults
    obtain ⟨d, halts, faulted, pc⟩ := faults.halts doc (good st)
    have runs := runs_iff_halts.mpr (halts.of_reach st)
    have address := precise.address _ b true k i e runs faulted st faults
    by_cases he : i.Ends
    · exact .inr (faults.of_ends he)
    · rw [if_neg he] at pc
      exact .inl (wordAt_eq_self faults.index_lt (pc.symm.trans address))
  · intro first
    refine ⟨fun o runs faulted => found_of_runs doc running hc runs faulted, ?_⟩
    intro o b native k i e runs faulted st faults
    have halts := runs_iff_halts.mp runs
    cases native with
    | false =>
      obtain ⟨d, next, _, _, pc⟩ := faults.interpreted_step doc (good st)
      rw [halts.unique ((Halts.stop next).of_reach st)]
      exact pc
    | true =>
      obtain ⟨d, halts', _, pc⟩ := faults.halts doc (good st)
      rw [halts.unique (halts'.of_reach st)]
      refine pc.trans ?_
      -- native code stores the PC at the start of the block or before an instruction that ends it
      obtain rfl | rfl | ⟨code, rfl⟩ := first b k i e st faults
      · rw [wordAt_zero, ite_self]
      · rfl
      · rfl

/-- The point at which the block of `faultyLoad` has been compiled. -/
def faultyLoadCompiled : Boundary Script :=
  (blockStep .reference ⟨faultyLoad, 0⟩).elim id fun o => ⟨o.context, 0⟩

/-- The second instruction of the compiled block faults. -/
lemma faultyLoad_faultsAt : Reach (blockStep .reference) ⟨faultyLoad, 0⟩ faultyLoadCompiled ∧
    ∃ e, FaultsAt faultyLoadCompiled true 1 (.compute (.ldImm 1 0 0x3FFC)) e := by
  have compiled : blockStep .reference ⟨faultyLoad, 0⟩ = .inl faultyLoadCompiled := rfl
  have executes : Executes faultyLoadCompiled true
      [.compute (.li 17 3), .compute (.ldImm 1 0 0x3FFC)] faultyLoadCompiled.context :=
    .native Nat.one_ne_zero rfl rfl ⟨.cons (by decide) (.last _), by decide, rfl⟩
  exact ⟨.single compiled, _, .intro executes rfl rfl rfl⟩

/-- The fault of the second instruction of the compiled block leaves the PC at the first. -/
theorem faultyLoad_imprecise : ¬ PreciseFaults .reference faultyLoad := by
  intro precise
  have runs : Runs .reference faultyLoad (.ok () _) := ⟨10, rfl⟩
  obtain ⟨st, e, faults⟩ := faultyLoad_faultsAt
  have address := precise.address _ _ _ _ _ _ runs rfl st faults
  cases address

/-- The fault comes behind the first instruction, so the PC does not show it. -/
theorem precise_faults_iff_faultyLoad :
    ∃ b i e, Reach (blockStep .reference) ⟨faultyLoad, 0⟩ b ∧ FaultsAt b true 1 i e ∧
      ¬ PreciseFaults .reference faultyLoad := by
  obtain ⟨st, e, faults⟩ := faultyLoad_faultsAt
  refine ⟨_, _, e, st, faults, fun precise => ?_⟩
  have first := (precise_faults_iff IrLibrary.reference_documented faultyLoad rfl
    empty_clear).mp precise _ 1 _ e st faults
  obtain one | invalid | ⟨code, call⟩ := first
  · cases one
  · cases invalid
  · cases call

end ToyIsa
