import ToyIsa.Block.Turn
import ToyIsa.Jit.Changes

/-!
# Runs as a machine of instructions

`blockStep` runs a block in one turn. `pointStep` takes the same code one instruction at a time: a
`Point` is a boundary between blocks, a place in a block that is interpreted, a place in native
code, or the end of the run. `runs_iff_halts_points` says that `run` stops exactly as this machine
halts, so its points are the states of a run, also those inside a block.
-/

namespace ToyIsa

open Machine ExecutionContext

variable {σ : Type}

inductive Point (σ : Type) where
  | boundary (b : Boundary σ)
  | switch (rest : List TIInstruction) (c : ExecutionContext σ)
  | threaded (rest : List TIInstruction) (c : ExecutionContext σ)
  | native (rest : List IrInsn) (level : Byte) (f : IrFrame) (c : ExecutionContext σ)
  | stopped (outcome : Outcome σ)

namespace Point

def context : Point σ → ExecutionContext σ
  | .boundary b => b.context
  | .switch _ c => c
  | .threaded _ c => c
  | .native _ _ _ c => c
  | .stopped outcome => outcome.context

/-- Go on at a point, unless the block has failed. -/
def after (go : ExecutionContext σ → Point σ) : Outcome σ → Point σ
  | .ok () c => go c
  | .error e c => .stopped (catchSimulation (.error e c))

/-- The point after a turn of the block machine. -/
def ofTurn : Boundary σ ⊕ Outcome σ → Point σ
  | .inl b => .boundary b
  | .inr outcome => .stopped outcome

/-- The point after a step of native code. -/
def ofIr (rest : List IrInsn) (level : Byte) : IrStep σ → Point σ
  | .next f c => .native rest level f c
  | .returned entry c => .boundary ⟨c, entry⟩
  | .undefined c => .stopped (.error .undefined c)

/-- What the next step executes. -/
def action : Point σ → Action
  | .switch (i :: _) _ => i.opCode.action
  | .threaded (i :: _) _ => i.opCode.action
  | .native (insn :: _) _ f _ => insn.action f
  | _ => .compute

end Point

variable [Host σ]

/-- The first point in a block that was fetched. -/
def enterPoint (ir : IrLibrary) (key : Word) (block : TIBasicBlock) (c : ExecutionContext σ) :
    Point σ :=
  match c.mode with
  | .switch => .switch block.instructions c
  | .threaded => .threaded block.instructions c
  | .jit =>
    if !block.hasCompiledBlock && block.executionCount < c.jitThreshold then
      .threaded block.instructions
        (c.withCache (c.blockCache.modifyBlock key (·.recordExecution)))
    else .ofTurn (Boundary.after (enterJitBlock ir key block c.jitThreshold c))

/-- The first point in a block is in its code, unless the JIT calls native code. -/
lemma enterPoint_cases (ir : IrLibrary) (key block) (c : ExecutionContext σ) :
    (c.Interprets block ∧
      (enterPoint ir key block c = .switch block.instructions (c.counted key) ∨
        enterPoint ir key block c = .threaded block.instructions (c.counted key))) ∨
    (¬ c.Interprets block ∧
      enterPoint ir key block c = .ofTurn (Boundary.after (enterBlock ir key block c))) := by
  unfold enterPoint enterBlock counted Interprets
  cases c.mode with
  | switch => exact .inl ⟨nofun, .inl rfl⟩
  | threaded => exact .inl ⟨nofun, .inr rfl⟩
  | jit =>
    dsimp only
    split
    case isTrue interpreted =>
      simp only [Bool.and_eq_true, Bool.not_eq_true', decide_eq_true_eq] at interpreted
      exact .inl ⟨fun _ => interpreted, .inr rfl⟩
    case isFalse compiles =>
      simp only [Bool.and_eq_true, Bool.not_eq_true', decide_eq_true_eq] at compiles
      exact .inr ⟨fun interprets => compiles (interprets rfl), rfl⟩

/-- The first point after a boundary. -/
def boundaryNext (ir : IrLibrary) (b : Boundary σ) : Point σ :=
  let c := b.context
  if b.entry = 0 then
    if c.state.status = .running then
      match fetchBlock c with
      | none => .boundary b
      | some (.error e c') => .stopped (.error e c')
      | some (.ok block c') => enterPoint ir c.cpu.pc block c'
    else .stopped (.ok () c)
  else
    match c.blockCache.nativeCode b.entry with
    | some native => .native native.code native.level {} c
    | none => .stopped (.error .undefined c)

def pointStep (ir : IrLibrary) : Point σ → Point σ ⊕ Outcome σ
  | .boundary b => .inl (boundaryNext ir b)
  | .switch [] c => .inl (.boundary ⟨c, 0⟩)
  | .switch (i :: rest) c => .inl (.after (.switch rest) (executeInstructionSwitch i c))
  | .threaded [] c => .inl (.stopped (.error .undefined c))
  | .threaded (i :: rest) c =>
    match i.threadedHandler with
    | none => .inl (.stopped (.error .undefined c))
    | some handler =>
      let next (d : ExecutionContext σ) : Point σ :=
        if handler.dispatchesNext && !rest.isEmpty then .threaded rest d else .boundary ⟨d, 0⟩
      .inl (.after next (handler.execute i c))
  | .native [] _ _ c => .inl (.stopped (.error .undefined c))
  | .native (insn :: rest) level f c => .inl (.ofIr rest level (insn.exec ir level f c))
  | .stopped outcome => .inr outcome

variable {ir : IrLibrary}

/-! A block, from its first point to its end. -/

/-- The loop of `executeSwitchBlock`. -/
lemma reach_switch (rest) (c : ExecutionContext σ) :
    Reach (pointStep ir) (.switch rest c)
      (.after (fun d => .boundary ⟨d, 0⟩) (executeInstructions rest c)) := by
  induction rest generalizing c with
  | nil => exact .single rfl
  | cons i rest ih =>
    rw [executeInstructions, EState.bind_apply]
    have first : Step (pointStep ir) (.switch (i :: rest) c)
        (.after (.switch rest) (executeInstructionSwitch i c)) := rfl
    cases x : executeInstructionSwitch i c with
    | ok u d =>
      rw [x] at first
      exact .head first (ih d)
    | error e d =>
      rw [x] at first
      exact .single first

/-- A chain of threaded handlers. -/
lemma reach_threaded (rest) (c : ExecutionContext σ) :
    Reach (pointStep ir) (.threaded rest c)
      (.after (fun d => .boundary ⟨d, 0⟩) (callThreadedHandler rest c)) := by
  induction rest generalizing c with
  | nil => exact .single rfl
  | cons i rest ih =>
    cases h : i.threadedHandler with
    | none =>
      have first : pointStep ir (.threaded (i :: rest) c) =
          .inl (.stopped (.error .undefined c)) := by
        rw [pointStep, h]
      rw [callThreadedHandler, h]
      exact .single first
    | some handler =>
      have first : pointStep ir (.threaded (i :: rest) c) = .inl (.after
          (fun d => if handler.dispatchesNext && !rest.isEmpty then .threaded rest d
            else .boundary ⟨d, 0⟩) (handler.execute i c)) := by
        rw [pointStep, h]
      rw [callThreadedHandler, h]
      dsimp only
      rw [EState.bind_apply]
      cases x : handler.execute i c with
      | error e d =>
        rw [x] at first
        exact .single first
      | ok u d =>
        rw [x, Point.after] at first
        dsimp only
        -- the handler calls the next one, or the block ends
        split
        case isTrue more =>
          rw [if_pos more] at first
          exact .head first (ih d)
        case isFalse done =>
          rw [if_neg done] at first
          exact .single first

/-- A native function. -/
lemma reach_native (code level f) (c : ExecutionContext σ) :
    Reach (pointStep ir) (.native code level f c)
      (.ofTurn (Boundary.after (evalIr ir level code f c))) := by
  induction code generalizing f c with
  | nil => exact .single rfl
  | cons insn rest ih =>
    have first : pointStep ir (.native (insn :: rest) level f c) =
        .inl (.ofIr rest level (insn.exec ir level f c)) := rfl
    rw [evalIr]
    cases x : insn.exec ir level f c with
    | next f' d =>
      rw [x] at first
      exact .head first (ih f' d)
    | returned entry d =>
      rw [x] at first
      exact .single first
    | undefined d =>
      rw [x] at first
      exact .single first

/-- A block that was fetched. -/
lemma reach_enterPoint (key block) (c : ExecutionContext σ) :
    Reach (pointStep ir) (enterPoint ir key block c)
      (.ofTurn (Boundary.after (enterBlock ir key block c))) := by
  -- an interpreted block leaves no entry point
  have done (x : Exec σ Unit) (d : ExecutionContext σ) :
      Point.after (fun d => .boundary ⟨d, 0⟩) (x d) =
        .ofTurn (Boundary.after ((do x; return 0 : Exec σ Entry) d)) := by
    rw [EState.bind_apply]
    cases x d <;> rfl
  unfold enterPoint enterBlock
  cases c.mode with
  | switch =>
    dsimp only
    rw [← done]
    exact reach_switch _ _
  | threaded =>
    dsimp only
    rw [← done]
    exact reach_threaded _ _
  | jit =>
    dsimp only
    split
    case isTrue interpreted =>
      rw [enterJitBlock, if_pos interpreted, EState.bind_apply, EState.modify_apply]
      dsimp only
      rw [← done]
      exact reach_threaded _ _
    case isFalse => exact .refl

/-- A turn of the block machine, from its first point on. -/
lemma reach_turn (ir : IrLibrary) (b : Boundary σ) :
    Reach (pointStep ir) (boundaryNext ir b) (.ofTurn (blockStep ir b)) := by
  unfold boundaryNext blockStep
  dsimp only
  split
  case isTrue =>
    split
    case isTrue =>
      cases fetchBlock b.context with
      | none => exact .refl
      | some r =>
        cases r with
        | error e d => exact .refl
        | ok block d => exact reach_enterPoint _ _ _
    case isFalse => exact .refl
  case isFalse =>
    unfold callEntry
    cases b.context.blockCache.nativeCode b.entry with
    | some native => exact reach_native _ _ _ _
    | none => exact .refl

/-- A turn of the block machine is one or more steps of the point machine. -/
theorem points_simulate (ir : IrLibrary) :
    Simulates (@blockStep σ _ ir) (pointStep ir) (fun b p => p = .boundary b) Eq where
  step := by
    rintro b _ b' rfl turn
    have rest := reach_turn ir b
    rw [turn] at rest
    exact ⟨_, _, rfl, rest, rfl⟩
  stop := by
    rintro b _ o rfl turn
    have rest := reach_turn ir b
    rw [turn] at rest
    exact ⟨o, Halts.head rfl (Halts.of_reach rest (.stop rfl)), rfl⟩

/-- `run` stops exactly as the point machine halts. -/
theorem runs_iff_halts_points {c : ExecutionContext σ} {o} :
    Runs ir c o ↔ Halts (pointStep ir) (.boundary ⟨c, 0⟩) o := by
  rw [runs_iff_halts]
  constructor
  · intro h
    obtain ⟨o', h', rfl⟩ := (points_simulate ir).halts rfl h
    exact h'
  · intro h
    obtain ⟨o', h', rfl⟩ := (points_simulate ir).halted rfl h
    exact h'

end ToyIsa
