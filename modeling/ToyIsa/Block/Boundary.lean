import ToyIsa.Engine.Run
import ToyIsa.Lib.Machine

/-!
# Runs as a machine of blocks

`run` and `executeJitBlock` are two nested loops with fuel. `blockStep` is one turn of either as a
machine: its states are the points between two blocks, with the entry point that native code asks
for next, and 0 if it asks for none. `runs_iff_halts` says that `run` stops exactly as the machine
halts.
-/

namespace ToyIsa

open Machine

variable {σ : Type}

/-- A point of a run between two blocks. -/
structure Boundary (σ : Type) where
  context : ExecutionContext σ
  entry : Entry

/-- Go on with the entry point that a block leaves behind. -/
def Boundary.after : EStateM.Result Failure (ExecutionContext σ) Entry → Boundary σ ⊕ Outcome σ
  | .ok entry c => .inl ⟨c, entry⟩
  | .error e c => .inr (catchSimulation (.error e c))

variable [Host σ]

/-- Execute a block that was fetched, or have the entry point to call for it. -/
def enterBlock (ir : IrLibrary) (key : Word) (block : TIBasicBlock) : Exec σ Entry := fun c =>
  match c.mode with
  | .switch => (do executeSwitchBlock block; return 0) c
  | .jit => enterJitBlock ir key block c.jitThreshold c
  | .threaded => (do executeThreadedBlock block; return 0) c

/-- One turn of `run` or of the loop of `executeJitBlock`. A turn that never ends goes nowhere. -/
def blockStep (ir : IrLibrary) (b : Boundary σ) : Boundary σ ⊕ Outcome σ :=
  let c := b.context
  if b.entry = 0 then
    if c.state.status = .running then
      match fetchBlock c with
      | none => .inl b
      | some (.error e c') => .inr (.error e c')
      | some (.ok block c') => Boundary.after (enterBlock ir c.cpu.pc block c')
    else .inr (.ok () c)
  else Boundary.after (callEntry ir b.entry c)

variable {ir : IrLibrary}

/-! Fuel. -/

/-- More fuel does not change what the loop over entries gives. -/
lemma chainLoop_mono {n m entry} {c : ExecutionContext σ} {o}
    (h : chainLoop ir n entry c = some o) (le : n ≤ m) : chainLoop ir m entry c = some o := by
  induction n generalizing m entry c with
  | zero => cases h
  | succ n ih =>
    obtain ⟨m, rfl⟩ := Nat.exists_eq_add_of_le' (Nat.le_trans (Nat.succ_le_succ n.zero_le) le)
    unfold chainLoop at h ⊢
    by_cases e0 : entry = 0
    · rw [if_pos e0] at h ⊢
      exact h
    · rw [if_neg e0] at h ⊢
      cases x : callEntry ir entry c with
      | error e d => rw [x] at h; exact h
      | ok entry' d =>
        rw [x] at h
        exact ih h (by omega)

/-- More fuel does not change what a block gives. -/
lemma executeBlock_mono {n m key block} {c : ExecutionContext σ} {o}
    (h : executeBlock ir n key block c = some o) (le : n ≤ m) :
    executeBlock ir m key block c = some o := by
  unfold executeBlock at h ⊢
  cases mode : c.mode with
  | switch => rw [mode] at h; exact h
  | threaded => rw [mode] at h; exact h
  | jit =>
    rw [mode] at h
    obtain ⟨o', h', rfl⟩ := Option.map_eq_some_iff.mp h
    refine Option.map_eq_some_iff.mpr ⟨o', ?_, rfl⟩
    unfold executeJitBlock at h' ⊢
    cases x : enterJitBlock ir key block c.jitThreshold c with
    | error e d => rw [x] at h'; exact h'
    | ok entry d =>
      rw [x] at h'
      exact chainLoop_mono h' le

/-- More fuel does not change what a run gives. -/
lemma run_mono {n m} {c : ExecutionContext σ} {o} (h : run ir n c = some o) (le : n ≤ m) :
    run ir m c = some o := by
  induction n generalizing m c with
  | zero => cases h
  | succ n ih =>
    obtain ⟨m, rfl⟩ := Nat.exists_eq_add_of_le' (Nat.le_trans (Nat.succ_le_succ n.zero_le) le)
    unfold run at h ⊢
    split at h
    case isFalse stopped =>
      rw [if_neg stopped]
      exact h
    case isTrue running =>
      rw [if_pos running]
      -- the loops inside of a step get no less fuel either
      have hs {r} (hr : step ir n c = some r) : step ir m c = some r := by
        unfold step at hr ⊢
        cases f : fetchBlock c with
        | none => rw [f] at hr; cases hr
        | some r' =>
          cases r' with
          | error e d => rw [f] at hr; exact hr
          | ok block d =>
            rw [f] at hr
            exact executeBlock_mono hr (by omega)
      cases x : step ir n c with
      | none => rw [x] at h; cases h
      | some r =>
        rw [hs x]
        cases r with
        | error e d => rw [x] at h; exact h
        | ok u d =>
          rw [x] at h
          exact ih h (by omega)

/-! The run from a boundary on. -/

/-- Finish the loop over entries and go on running. -/
def resume (ir : IrLibrary) (fuel : Nat) (b : Boundary σ) : Option (Outcome σ) :=
  match chainLoop ir fuel b.entry b.context with
  | none => none
  | some (.ok () c) => run ir fuel c
  | some (.error e c) => some (catchSimulation (.error e c))

/-- More fuel keeps the outcome. -/
lemma resume_mono {n m} {b : Boundary σ} {o} (h : resume ir n b = some o) (le : n ≤ m) :
    resume ir m b = some o := by
  unfold resume at h ⊢
  cases x : chainLoop ir n b.entry b.context with
  | none => rw [x] at h; cases h
  | some r =>
    rw [x] at h
    rw [chainLoop_mono x le]
    cases r with
    | ok u c => exact run_mono h le
    | error e c => exact h

/-- Without an entry point the run goes on with `step`. -/
lemma resume_zero (n) (c : ExecutionContext σ) :
    resume ir (n + 1) ⟨c, 0⟩ = run ir (n + 1) c := by
  unfold resume chainLoop
  rw [if_pos rfl]

/-- A block, entered and followed to the end of its chain, and then the rest of the run. -/
lemma run_succ {n} {c : ExecutionContext σ} (running : c.state.status = .running) :
    run ir (n + 1) c =
      match fetchBlock c with
      | none => none
      | some (.error e d) => some (.error e d)
      | some (.ok block d) =>
        match executeBlock ir n c.cpu.pc block d with
        | none => none
        | some (.ok () d) => run ir n d
        | some (.error e d) => some (.error e d) := by
  rw [run, if_pos running, step]
  cases fetchBlock c with
  | none => rfl
  | some r => cases r <;> rfl

/-- A block from the point where it has been entered. -/
lemma executeBlock_eq (n key block) (c : ExecutionContext σ) :
    executeBlock ir (n + 1) key block c =
      match enterBlock ir key block c with
      | .ok entry d => (chainLoop ir (n + 1) entry d).map catchSimulation
      | .error e d => some (catchSimulation (.error e d)) := by
  have zero (d : ExecutionContext σ) :
      (chainLoop ir (n + 1) 0 d).map catchSimulation = some (.ok () d) := rfl
  unfold executeBlock enterBlock
  cases mode : c.mode with
  | switch =>
    simp only [bind, EStateM.bind]
    cases executeSwitchBlock block c with
    | ok u d => exact (zero d).symm
    | error e d => rfl
  | threaded =>
    simp only [bind, EStateM.bind]
    cases executeThreadedBlock block c with
    | ok u d => exact (zero d).symm
    | error e d => rfl
  | jit =>
    simp only [executeJitBlock]
    cases enterJitBlock ir key block c.jitThreshold c <;> rfl

/-! The cases of a turn. -/

/-- The turn of a context that has stopped. -/
lemma blockStep_stopped {c : ExecutionContext σ} (stopped : ¬ c.state.status = .running) :
    blockStep ir ⟨c, 0⟩ = .inr (.ok () c) := if_neg stopped

variable (ir) in
/-- The turn of a context that runs. -/
lemma blockStep_running {c : ExecutionContext σ} (running : c.state.status = .running) :
    blockStep ir ⟨c, 0⟩ =
      match fetchBlock c with
      | none => .inl ⟨c, 0⟩
      | some (.error e c') => .inr (.error e c')
      | some (.ok block c') => Boundary.after (enterBlock ir c.cpu.pc block c') := if_pos running

variable (ir) in
/-- The turn that calls native code. -/
lemma blockStep_entry (c : ExecutionContext σ) {entry : Entry} (e0 : ¬ entry = 0) :
    blockStep ir ⟨c, entry⟩ = Boundary.after (callEntry ir entry c) := if_neg e0

/-- The loop over entries followed by the rest of the run. -/
lemma halts_of_chainLoop {n entry} {c : ExecutionContext σ} {r o}
    (h : chainLoop ir n entry c = some r)
    (ok : ∀ d, r = .ok () d → Halts (blockStep ir) ⟨d, 0⟩ o)
    (error : ∀ e d, r = .error e d → o = catchSimulation (.error e d)) :
    Halts (blockStep ir) ⟨c, entry⟩ o := by
  -- each turn of the loop is one turn of the machine
  induction n generalizing entry c with
  | zero => cases h
  | succ n ih =>
    unfold chainLoop at h
    by_cases e0 : entry = 0
    · subst e0
      cases h
      exact ok c rfl
    · rw [if_neg e0] at h
      have turn := blockStep_entry ir c e0
      cases x : callEntry ir entry c with
      | error e d =>
        rw [x] at h turn
        cases h
        rw [error e d rfl]
        exact .stop turn
      | ok entry' d =>
        rw [x] at h turn
        exact Halts.head turn (ih h)

/-- If `run` stops then the machine halts. -/
lemma halts_of_run {n} {c : ExecutionContext σ} {o} (h : run ir n c = some o) :
    Halts (blockStep ir) ⟨c, 0⟩ o := by
  induction n generalizing c with
  | zero => cases h
  | succ n ih =>
    by_cases running : c.state.status = .running
    case neg =>
      rw [run, if_neg running] at h
      cases h
      exact .stop (blockStep_stopped running)
    case pos =>
      rw [run_succ running] at h
      have turn := blockStep_running ir running
      cases f : fetchBlock c with
      | none => rw [f] at h; cases h
      | some r =>
        rw [f] at h turn
        cases r with
        | error e d =>
          cases h
          exact .stop turn
        | ok block d =>
          simp only at h turn
          cases x : executeBlock ir n c.cpu.pc block d with
          | none => rw [x] at h; cases h
          | some r =>
            rw [x] at h
            -- one more unit of fuel, so that the block is entered and the loop has `n` turns left
            have x' := executeBlock_mono x (Nat.le_succ n)
            rw [executeBlock_eq] at x'
            cases y : enterBlock ir c.cpu.pc block d with
            | error e d' =>
              rw [y] at x' turn
              obtain rfl := Option.some.inj x'
              refine .stop (turn.trans (congrArg Sum.inr ?_))
              cases e <;> exact Option.some.inj h
            | ok entry d' =>
              rw [y] at x' turn
              obtain ⟨r', hr', rfl⟩ := Option.map_eq_some_iff.mp x'
              refine Halts.head turn (halts_of_chainLoop hr' ?_ ?_)
              · rintro d'' rfl
                exact ih h
              · rintro e d'' rfl
                cases e <;> exact (Option.some.inj h).symm

/-- A turn that stops. -/
lemma resume_of_stop {b : Boundary σ} {o} (turn : blockStep ir b = .inr o) :
    resume ir 2 b = some o := by
  obtain ⟨c, entry⟩ := b
  by_cases e0 : entry = 0
  case neg =>
    rw [blockStep_entry _ _ e0] at turn
    unfold resume chainLoop
    simp only [if_neg e0]
    cases x : callEntry ir entry c with
    | ok entry' d => rw [x] at turn; cases turn
    | error e d => rw [x] at turn; cases turn; rfl
  case pos =>
    subst e0
    rw [resume_zero]
    by_cases running : c.state.status = .running
    case neg =>
      rw [blockStep_stopped running] at turn
      rw [run, if_neg running, Sum.inr.inj turn]
    case pos =>
      rw [blockStep_running _ running] at turn
      rw [run_succ running]
      cases f : fetchBlock c with
      | none => rw [f] at turn; cases turn
      | some r =>
        rw [f] at turn
        cases r with
        | error e d => cases turn; rfl
        | ok block d =>
          simp only at turn ⊢
          rw [executeBlock_eq]
          cases y : enterBlock ir c.cpu.pc block d with
          | ok entry d' => rw [y] at turn; cases turn
          | error e d' =>
            rw [y] at turn
            cases turn
            cases e <;> rfl

/-- A turn that goes on. -/
lemma resume_of_step {n} {b b' : Boundary σ} {o} (turn : blockStep ir b = .inl b')
    (h : resume ir n b' = some o) : resume ir (n + 2) b = some o := by
  obtain ⟨c, entry⟩ := b
  by_cases e0 : entry = 0
  case neg =>
    rw [blockStep_entry _ _ e0] at turn
    have h' := resume_mono h (Nat.le_succ n)
    unfold resume at h' ⊢
    rw [chainLoop]
    simp only [if_neg e0]
    cases x : callEntry ir entry c with
    | error e d => rw [x] at turn; cases turn
    | ok entry' d =>
      rw [x] at turn
      cases turn
      simp only
      cases y : chainLoop ir (n + 1) entry' d with
      | none => simp only [y] at h'; cases h'
      | some r =>
        simp only [y] at h' ⊢
        cases r with
        | ok u d' => exact run_mono h' (Nat.le_succ (n + 1))
        | error e d' => exact h'
  case pos =>
    subst e0
    rw [resume_zero]
    by_cases running : c.state.status = .running
    case neg =>
      rw [blockStep_stopped running] at turn
      cases turn
    case pos =>
      rw [blockStep_running _ running] at turn
      have h' := resume_mono h (Nat.le_succ n)
      rw [run_succ running]
      cases f : fetchBlock c with
      | none =>
        -- a turn that never ends has no rest of the run
        rw [f] at turn
        cases turn
        rw [resume_zero, run_succ running, f] at h'
        cases h'
      | some r =>
        rw [f] at turn
        cases r with
        | error e d => cases turn
        | ok block d =>
          simp only at turn ⊢
          rw [executeBlock_eq]
          cases y : enterBlock ir c.cpu.pc block d with
          | error e d' => rw [y] at turn; cases turn
          | ok entry d' =>
            rw [y] at turn
            cases turn
            unfold resume at h'
            simp only at h' ⊢
            cases x : chainLoop ir (n + 1) entry d' with
            | none => rw [x] at h'; cases h'
            | some r =>
              rw [x] at h'
              cases r with
              | ok u d'' => exact h'
              | error e d'' => cases e <;> exact h'

/-- If the machine halts then `resume` stops. -/
lemma resume_of_halts {b : Boundary σ} {o} (h : Halts (blockStep ir) b o) :
    ∃ n, resume ir n b = some o := by
  obtain ⟨k, h⟩ := h
  induction h with
  | stop turn => exact ⟨2, resume_of_stop turn⟩
  | step turn _ ih =>
    obtain ⟨n, ih⟩ := ih
    exact ⟨n + 2, resume_of_step turn ih⟩

/-- `run` stops exactly as the machine halts. -/
theorem runs_iff_halts {c : ExecutionContext σ} {o} :
    Runs ir c o ↔ Halts (blockStep ir) ⟨c, 0⟩ o := by
  constructor
  · rintro ⟨n, h⟩
    exact halts_of_run h
  · intro h
    obtain ⟨n, h⟩ := resume_of_halts h
    refine ⟨n + 1, ?_⟩
    rw [← resume_zero]
    exact resume_mono h (Nat.le_succ n)

end ToyIsa
