import ToyIsa.Isa.Frame

/-!
# Straight-line blocks

A block that the decoder builds is a `Straight` list of typed instructions: the last one may end the
block and the others do not. On such a list the threaded engine runs what the switch engine runs,
namely `execAll`. `Decodes` says which list `decodeBlock` reads from a memory.
-/

namespace ToyIsa

open ExecutionContext

variable {σ : Type}

namespace Instr

/-- The instruction ends a block. -/
def Ends (i : Instr) : Prop := TIBasicBlockCache.endsBlock i.opCode = true

instance (i : Instr) : Decidable i.Ends := inferInstanceAs (Decidable (_ = true))

end Instr

/-- Non-empty, and only the last instruction may end the block. -/
inductive Straight : List Instr → Prop where
  | last (i) : Straight [i]
  | cons {i is} :
    ¬ i.Ends →
    Straight is →
    Straight (i :: is)

/-- The instructions of a block, one after the other. -/
def execAll [Host σ] : List Instr → ExecutionContext σ → Outcome σ
  | [], c => .ok () c
  | i :: is, c =>
    match i.exec c with
    | .ok () d => execAll is d
    | .error e d => .error e d

/-- A straight block has an instruction. -/
lemma Straight.ne_nil {is} (st : Straight is) : is ≠ [] := by
  cases st <;> simp

/-- A straight block has a last instruction. -/
lemma Straight.exists_last {is} (st : Straight is) : ∃ last, is.getLast? = some last :=
  Option.isSome_iff_exists.mp (List.getLast?_isSome.mpr st.ne_nil)

/-- An instruction that is not the last one does not end the block. -/
lemma Straight.not_ends (is : List Instr) {is' i} (st : Straight (is ++ i :: is'))
    (ne : is' ≠ []) : ¬ i.Ends := by
  induction is with
  | nil =>
    cases st with
    | last => exact absurd rfl ne
    | cons h _ => exact h
  | cons j is ih =>
    generalize e : j :: is ++ i :: is' = js at st
    cases st with
    | last k => simp at e
    | cons _ st =>
      simp only [List.cons_append, List.cons.injEq] at e
      exact ih (e.2 ▸ st)

variable [Host σ]

/-- The switch engine runs the instructions of a block one after the other. -/
lemma executeInstructions_toTI (is : List Instr) (c : ExecutionContext σ) :
    executeInstructions (is.map Instr.toTI) c = execAll is c := by
  induction is generalizing c with
  | nil => rfl
  | cons i is ih =>
    simp only [List.map_cons, executeInstructions, EState.bind_apply, executeInstructionSwitch_toTI,
      execAll]
    cases i.exec c with
    | ok u d => exact ih d
    | error e d => rfl

/-- A threaded handler executes its instruction. -/
lemma threadedHandler_execute (i : Instr) (c : ExecutionContext σ) :
    (getThreadedHandler i.opCode).execute i.toTI c = i.exec c := by
  rw [← executeInstructionSwitch_toTI]
  cases i with
  | compute op => cases op <;> rfl
  | _ => rfl

/-- A threaded handler dispatches to the next instruction unless it ends the block. -/
lemma threadedHandler_dispatchesNext (i : Instr) :
    (getThreadedHandler i.opCode).dispatchesNext = !decide i.Ends := by
  cases i with
  | compute op => cases op <;> rfl
  | _ => rfl

/-- The threaded engine runs the instructions of a straight block one after the other. -/
lemma callThreadedHandler_toTI {is} (st : Straight is) (c : ExecutionContext σ) :
    callThreadedHandler (is.map Instr.toTI) c = execAll is c := by
  induction st generalizing c with
  | last i =>
    have e : (Instr.toTI i).threadedHandler = some (getThreadedHandler i.opCode) := rfl
    simp only [List.map_cons, List.map_nil, callThreadedHandler, e, EState.bind_apply,
      threadedHandler_execute, execAll]
    cases i.exec c <;> simp
  | @cons i is ne st ih =>
    have e : (Instr.toTI i).threadedHandler = some (getThreadedHandler i.opCode) := rfl
    have hn : (is.map Instr.toTI).isEmpty = false := by
      simpa [List.isEmpty_iff] using st.ne_nil
    simp only [List.map_cons, callThreadedHandler, e, EState.bind_apply, threadedHandler_execute,
      threadedHandler_dispatchesNext, ne, decide_false, Bool.not_false, hn, Bool.and_self, if_true,
      execAll]
    cases i.exec c with
    | ok u d => exact ih d
    | error e d => rfl

/-- A failing block ran up to the instruction that fails. -/
lemma execAll_error {is} {c d : ExecutionContext σ} {e} (h : execAll is c = .error e d) :
    ∃ pre i post d', is = pre ++ i :: post ∧ execAll pre c = .ok () d' ∧
      i.effect d' = .error e d := by
  induction is generalizing c with
  | nil => cases h
  | cons i is ih =>
    unfold execAll at h
    cases x : i.effect c with
    | error e' d' =>
      simp only [Instr.exec, x] at h
      cases h
      exact ⟨[], i, is, c, rfl, rfl, x⟩
    | ok u d' =>
      simp only [Instr.exec, x] at h
      obtain ⟨pre, j, post, d'', rfl, h', hj⟩ := ih h
      refine ⟨i :: pre, j, post, d'', rfl, ?_, hj⟩
      simp only [execAll, Instr.exec, x]
      exact h'

/-- What every instruction preserves, a block preserves, whether it fails or not. -/
lemma execAll_preserves {P : ExecutionContext σ → Prop}
    (step : ∀ (i : Instr) c, P c → P (i.exec c).context) (is) {c : ExecutionContext σ} (h : P c) :
    P (execAll is c).context := by
  induction is generalizing c with
  | nil => exact h
  | cons i is ih =>
    have h' := step i c h
    unfold execAll
    cases x : i.exec c with
    | ok u d => rw [x] at h'; exact ih h'
    | error e d => rw [x] at h'; exact h'

/-- A block run in two parts. -/
lemma execAll_append (is is') (c : ExecutionContext σ) :
    execAll (is ++ is') c = match execAll is c with
      | .ok () d => execAll is' d
      | .error e d => .error e d := by
  induction is generalizing c with
  | nil => rfl
  | cons i is ih =>
    simp only [List.cons_append, execAll]
    cases i.exec c with
    | ok u d => exact ih d
    | error e d => rfl

end ToyIsa
