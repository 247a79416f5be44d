import ToyIsa.Block.Turn

/-!
# Faulting blocks

`Executes` names the block that a turn of a run executes, interpreted or as native code, and
`FaultsAt` the guest instruction of the block that faults. The two ways of executing part there
(`FaultsAt.interpreted_step`, `FaultsAt.native_step`): an interpreted fault stops the run with an
exception and the PC at the instruction, a native one goes on in a faulted context whose PC may be
the entry of the block.
-/

namespace ToyIsa

open ExecutionContext TIBasicBlockCache Machine

variable {σ : Type}

/-- What a block is made of. -/
lemma IsBlock.unique {block is is'} (h : IsBlock block is) (h' : IsBlock block is') : is = is' :=
  List.map_injective_iff.mpr Instr.toTI_injective (h.instructions.symm.trans h'.instructions)

/-- The block that the turn from a boundary executes, whether as native code, and the context in
which its first instruction is executed. -/
inductive Executes : Boundary σ → Bool → List Instr → ExecutionContext σ → Prop where
  | interpreted {c block cache is} :
    c.state.status = .running →
    c.blockCache.getBlock c.cpu.pc c.memory = some (.ok block cache) →
    c.Interprets block →
    IsBlock block is →
    Executes ⟨c, 0⟩ false is ((c.withCache cache).counted c.cpu.pc)
  | native {c entry block is} :
    entry ≠ 0 →
    c.blockCache.blocks c.cpu.pc = some block →
    block.compiledBlock.entryPoint = entry →
    IsBlock block is →
    Executes ⟨c, entry⟩ true is c

variable {b : Boundary σ} {native : Bool} {is : List Instr} {start : ExecutionContext σ}

/-- The instructions that are executed are straight. -/
lemma Executes.straight (h : Executes b native is start) : Straight is := by
  cases h with
  | interpreted _ _ _ isBlock => exact isBlock.straight
  | native _ _ _ isBlock => exact isBlock.straight

/-- A block has no more words than the address space. -/
lemma Executes.length (h : Executes b native is start) : is.length ≤ addressSpaceWords := by
  cases h with
  | interpreted _ _ _ isBlock => exact isBlock.length
  | native _ _ _ isBlock => exact isBlock.length

/-- The block starts at the PC. -/
lemma Executes.pc (h : Executes b native is start) : start.cpu.pc = b.context.cpu.pc := by
  cases h with
  | @interpreted c _ cache =>
    obtain ⟨cache', e, _⟩ := counted_eq (c.withCache cache) c.cpu.pc
    rw [e]
    rfl
  | native => rfl

variable [Host σ] {ir : IrLibrary}

/-- A block that is interpreted. -/
lemma Executes.interpreted_step (doc : ir.Documented) (good : b.Good)
    (h : Executes b false is start) : blockStep ir b = afterInterpreted (execAll is start) := by
  have turn := turn_of_good doc good
  generalize blockStep ir b = r at turn
  cases h with
  | @interpreted c block cache is running fetched hi isBlock =>
    cases turn with
    | stopped ne => exact absurd running ne
    | diverges _ f => rw [fetched] at f; cases f
    | fault _ f => rw [fetched] at f; cases f
    | prepared _ f ne => rw [fetched] at f; cases f; exact absurd hi ne
    | failed _ f ne => rw [fetched] at f; cases f; exact absurd hi ne
    | native ne => exact absurd rfl ne
    | interpreted _ f _ isBlock' =>
      rw [fetched] at f
      cases f
      rw [isBlock.unique isBlock']

/-- A block that is executed as native code. -/
lemma Executes.native_step (doc : ir.Documented) (good : b.Good) (h : Executes b true is start) :
    start.state.status = .running ∧
      ∃ last, blockStep ir b = .inl (afterNative last (nativeRun b.context.cpu.pc is start)) := by
  have turn := turn_of_good doc good
  generalize blockStep ir b = r at turn
  cases h with
  | native ne hb _ isBlock =>
    cases turn with
    | native _ running hb' _ isBlock' =>
      rw [hb] at hb'
      cases hb'
      rw [isBlock.unique isBlock']
      exact ⟨running, _, rfl⟩
    | _ => exact absurd rfl ne

/-- Instruction `k` of the block that the turn executes is `i`, and it fails with `e`. -/
inductive FaultsAt : Boundary σ → Bool → Nat → Instr → Failure → Prop where
  | intro {b native is start k i e d d'} :
    Executes b native is start →
    is[k]? = some i →
    execAll (is.take k) start = .ok () d →
    i.exec d = .error e d' →
    FaultsAt b native k i e

/-- The instructions before another one move the PC from word to word and keep the status. -/
lemma execAll_prefix {pre : List Instr} {i post} (st : Straight (pre ++ i :: post))
    {c d : ExecutionContext σ} (h : execAll pre c = .ok () d) :
    d.cpu.pc = wordAt c.cpu.pc pre.length ∧ d.state = c.state := by
  induction pre generalizing c with
  | nil =>
    cases h
    exact ⟨(wordAt_zero _).symm, rfl⟩
  | cons j pre ih =>
    have ne : ¬ j.Ends := Straight.not_ends [] st (by simp)
    have st' : Straight (pre ++ i :: post) := by
      cases pre <;> (cases st; assumption)
    unfold execAll at h
    cases x : j.exec c with
    | error e d' => rw [x] at h; cases h
    | ok u c' =>
      rw [x] at h
      obtain ⟨c'', x', rfl⟩ := Instr.exec_ok_iff.mp x
      obtain ⟨pc, state⟩ := ih st' h
      have next : (c''.atPc (j.nextPc c'')).cpu.pc = c.cpu.pc + 4 := by
        rw [atPc_cpu_pc, Instr.nextPc_of_not_ends ne, (Instr.effect_frame x').pc]
        rfl
      rw [pc, next, List.length_cons, wordAt_succ]
      have same : c''.state = c.state := Instr.effect_state_of_not_ends ne x'
      exact ⟨rfl, state.trans same⟩

/-- A list around one of its elements. -/
lemma split_at {k i} (hk : is[k]? = some i) :
    is = is.take k ++ i :: is.drop (k + 1) ∧ (is.take k).length = k := by
  obtain ⟨lt, e⟩ := List.getElem?_eq_some_iff.mp hk
  refine ⟨?_, List.length_take_of_le (Nat.le_of_lt lt)⟩
  rw [← e, ← List.drop_eq_getElem_cons lt, List.take_append_drop]

/-- A failing block has a failing instruction. -/
lemma faultsAt_of_execAll {e d} (h : Executes b native is start)
    (x : execAll is start = .error e d) : ∃ k i, FaultsAt b native k i e := by
  obtain ⟨pre, i, post, d', rfl, hp, hx⟩ := execAll_error x
  refine ⟨pre.length, i, .intro h (by simp) ?_ (Instr.exec_error_iff.mpr hx)⟩
  rw [List.take_left]
  exact hp

/-- A fault in an interpreted block. -/
lemma FaultsAt.interpreted_step (doc : ir.Documented) (good : b.Good) {k i e}
    (h : FaultsAt b false k i e) :
    ∃ d, blockStep ir b = .inr (.error e d) ∧ e.IsSimulation ∧ d.state.status = .faulted ∧
      d.cpu.pc = wordAt b.context.cpu.pc k := by
  cases h with
  | @intro is start _ _ _ d d' executes hk hp hx =>
    obtain ⟨split, len⟩ := split_at hk
    have st := executes.straight
    rw [split] at st
    obtain ⟨pc, _⟩ := execAll_prefix st hp
    have fails : execAll is start = .error e d' := by
      rw [split, execAll_append, hp]
      simp only [execAll, hx]
    obtain ⟨sim, m, rfl, _⟩ := Instr.effect_error (Instr.exec_error_iff.mp hx)
    refine ⟨(d.withMemory m).fault, ?_, sim, rfl, ?_⟩
    · rw [executes.interpreted_step doc good, fails]
      rfl
    · rw [← executes.pc, ← len]
      exact pc

/-- A fault in native code. -/
lemma FaultsAt.native_step (doc : ir.Documented) (good : b.Good) {k i e}
    (h : FaultsAt b true k i e) :
    ∃ d, blockStep ir b = .inl ⟨d, 0⟩ ∧ e.IsSimulation ∧ d.state.status = .faulted ∧
      d.cpu.pc = if i.Ends then wordAt b.context.cpu.pc k else b.context.cpu.pc := by
  cases h with
  | @intro is start _ _ _ d d' executes hk hp hx =>
    obtain ⟨split, len⟩ := split_at hk
    have st := executes.straight
    rw [split] at st
    obtain ⟨pc, _⟩ := execAll_prefix st hp
    obtain ⟨running, last, next⟩ := executes.native_step doc good
    have native := nativeRun_of_error st running hp (Instr.exec_error_iff.mp hx) b.context.cpu.pc
    rw [← split] at native
    obtain ⟨sim, m, rfl, _⟩ := Instr.effect_error (Instr.exec_error_iff.mp hx)
    rw [native] at next
    refine ⟨_, next, sim, ?_, ?_⟩
    · split <;> rfl
    · split
      · rw [← executes.pc, ← len]
        exact pc
      · rfl

/-- The instructions of a block that end it and can fail. -/
lemma ends_of_exec_error {i : Instr} {c d : ExecutionContext σ} {e} (he : i.Ends)
    (h : i.exec c = .error e d) : i = .invalid ∨ ∃ code, i = .syscall code := by
  cases i with
  | compute op => cases op <;> cases he
  | st | stp => cases he
  | flush | beq | j => cases h
  | syscall code => exact .inr ⟨code, rfl⟩
  | invalid => exact .inl rfl

/-- A run stops in the state that a native fault leaves. -/
lemma FaultsAt.halts (doc : ir.Documented) (good : b.Good) {k i e} (h : FaultsAt b true k i e) :
    ∃ d, Halts (blockStep ir) b (.ok () d) ∧ d.state.status = .faulted ∧
      d.cpu.pc = if i.Ends then wordAt b.context.cpu.pc k else b.context.cpu.pc := by
  obtain ⟨d, next, _, faulted, pc⟩ := h.native_step doc good
  have stopped : ¬ d.state.status = .running := by
    rw [faulted]
    exact nofun
  exact ⟨d, Halts.head next (.stop (blockStep_stopped stopped)), faulted, pc⟩

end ToyIsa
