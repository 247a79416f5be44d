import ToyIsa.Jit.Eval

/-!
# What the code of a block does

`nativeRun` is what the native code of a block does to a context: it runs the instructions one after
the other and stops at the first that faults or halts. A fault leaves the PC at the entry of the
block, unless the faulting instruction ends the block. `eval_blockCode` says that the IR of the
block does just that and returns the chaining slot of the new PC.
-/

namespace ToyIsa

open ExecutionContext

variable {σ : Type} [Host σ]

/-- Native code for instructions of a block that was entered at `pc`: the context after the last of
them, or the context in which an earlier one returns. -/
def nativeRun (pc : Word) : List Instr → ExecutionContext σ →
    Except (ExecutionContext σ) (ExecutionContext σ)
  | [], c => .ok c
  | i :: is, c =>
    match i.exec c with
    | .ok () d => if d.state.status = .running then nativeRun pc is d else .error d
    | .error _ d => .error (if i.Ends then d.fault else d.fault.atPc pc)

/-- The entry point that a block with last instruction `last` returns in a running context. -/
def chainEntry (last : Instr) (c : ExecutionContext σ) : Entry :=
  match last with
  | .flush | .invalid => 0
  | _ => (c.blockCache.jitEntries c.cpu.pc).getD 0

/-- The effect of an instruction that does not end a block does not depend on the PC. -/
lemma Instr.effect_atPc {i : Instr} (ne : ¬ i.Ends) (c : ExecutionContext σ) (pc) :
    i.effect (c.atPc pc) =
      match i.effect c with
      | .ok () d => .ok () (d.atPc pc)
      | .error e d => .error e (d.atPc pc) := by
  have stores (stores) : (c.atPc pc).storing stores =
      match c.storing stores with
      | .ok () d => .ok () (d.atPc pc)
      | .error e d => .error e (d.atPc pc) := by
    simp only [storing, onMemory_apply, atPc_memory]
    cases storeAll stores c.memory <;> rfl
  cases i with
  | compute op =>
    simp only [effect, Compute.value_atPc]
    cases op.value c <;> rfl
  | st => exact stores _
  | stp => exact stores _
  | _ => exact absurd rfl ne

omit [Host σ] in
/-- An instruction that does not end a block goes on with the next. -/
lemma Instr.nextPc_of_not_ends {i : Instr} (ne : ¬ i.Ends) (c : ExecutionContext σ) :
    i.nextPc c = c.cpu.pc + TI32.instructionSize := by
  cases i with
  | compute | st | stp => rfl
  | _ => exact absurd rfl ne

/-- An instruction that does not end a block, run at another PC. -/
lemma Instr.exec_atPc {i : Instr} (ne : ¬ i.Ends) (c : ExecutionContext σ) (pc) :
    i.exec (c.atPc pc) =
      match i.effect c with
      | .ok () d => .ok () (d.atPc (pc + TI32.instructionSize))
      | .error e d => .error e (d.atPc pc) := by
  rw [exec, effect_atPc ne]
  cases h : i.effect c with
  | ok u d => simp only [nextPc_of_not_ends ne, atPc_cpu_pc, atPc_atPc]
  | error e d => rfl

/-- An instruction that does not end a block keeps the status. -/
lemma Instr.effect_state_of_not_ends {i : Instr} {c d : ExecutionContext σ} (ne : ¬ i.Ends)
    (h : i.effect c = .ok () d) : d.state = c.state := by
  obtain state | ⟨⟨code, rfl⟩, _⟩ := effect_state h
  · exact state
  · exact absurd rfl ne

/-- Native code does what the interpreting engines do, as long as nothing fails. -/
lemma nativeRun_of_ok {is : List Instr} (st : Straight is) {c d : ExecutionContext σ}
    (run : c.state.status = .running) (h : execAll is c = .ok () d) (pc) :
    nativeRun pc is c = if d.state.status = .running then .ok d else .error d := by
  induction st generalizing c with
  | last i =>
    unfold execAll at h
    unfold nativeRun
    cases x : i.exec c with
    | error e d' => rw [x] at h; cases h
    | ok u d' =>
      rw [x] at h
      cases h
      rfl
  | @cons i is ne st ih =>
    unfold execAll at h
    unfold nativeRun
    cases x : i.exec c with
    | error e d' => rw [x] at h; cases h
    | ok u d' =>
      rw [x] at h
      have run' : d'.state.status = .running := by
        obtain ⟨d'', x', rfl⟩ := Instr.exec_ok_iff.mp x
        rw [← run, ← Instr.effect_state_of_not_ends ne x']
        rfl
      simp only [if_pos run']
      exact ih run' h

/-- Native code runs up to the instruction that fails. -/
lemma nativeRun_of_error {pre : List Instr} {i post} (st : Straight (pre ++ i :: post))
    {c d' d : ExecutionContext σ} {e} (run : c.state.status = .running)
    (h : execAll pre c = .ok () d') (x : i.effect d' = .error e d) (pc) :
    nativeRun pc (pre ++ i :: post) c =
      .error (if i.Ends then d.fault else d.fault.atPc pc) := by
  induction pre generalizing c with
  | nil =>
    cases h
    rw [List.nil_append, nativeRun, Instr.exec_error_iff.mpr x]
  | cons j pre ih =>
    have ne : ¬ j.Ends := Straight.not_ends [] st (by simp)
    have st' : Straight (pre ++ i :: post) := by
      cases pre <;> (cases st; assumption)
    unfold execAll at h
    rw [List.cons_append, nativeRun]
    cases y : j.exec c with
    | error e d' => rw [y] at h; cases h
    | ok u c' =>
      rw [y] at h
      have run' : c'.state.status = .running := by
        obtain ⟨c'', y', rfl⟩ := Instr.exec_ok_iff.mp y
        rw [← run, ← Instr.effect_state_of_not_ends ne y']
        rfl
      simp only [if_pos run']
      exact ih st' run' h

/-! Branches. The frame inside a branch keeps the values before it and has control of its own. -/

/-- The frame with values `vs` added, and with or without control. -/
def IrFrame.within (f : IrFrame) (vs : List (Option IrVal)) (live merged : Bool) : IrFrame :=
  ⟨f.values ++ vs, live, merged⟩

/-- A result is found at its place. -/
lemma IrFrame.lookup_within (f : IrFrame) (vs live merged k) :
    (f.within vs live merged).lookup (.insn (f.values.length + k)) = (vs[k]?).join :=
  IrFrame.lookup_app f vs k

/-- Results after results. -/
lemma IrFrame.app_within (f : IrFrame) (vs ws live merged) :
    (f.within vs live merged).app ws = f.within (vs ++ ws) live merged := by
  simp [within, app]

section control

variable {ir : IrLibrary} {level : Byte} (f : IrFrame) {c : ExecutionContext σ}
  (vs : List (Option IrVal)) (rest : List IrInsn)

/-- The true branch is live if the condition holds. -/
lemma within_ifTrue {k live merged} (b : Bool)
    (h : (vs[k]?).join = some (.word (if b then 1 else 0))) :
    evalIr ir level (.ifTrue (.insn (f.values.length + k)) :: rest) (f.within vs live merged) c =
      evalIr ir level rest (f.within (vs ++ [none]) b merged) c := by
  rw [evalIr_next (exec_ifTrue ((IrFrame.lookup_within f vs _ _ k).trans h)), IrFrame.app_within]
  cases b <;> rfl

/-- The false branch is live if the condition fails. -/
lemma within_ifFalse {k live merged} (b : Bool)
    (h : (vs[k]?).join = some (.word (if b then 1 else 0))) :
    evalIr ir level (.ifFalse (.insn (f.values.length + k)) :: rest) (f.within vs live merged) c =
      evalIr ir level rest (f.within (vs ++ [none]) (!b) merged) c := by
  rw [evalIr_next (exec_ifFalse ((IrFrame.lookup_within f vs _ _ k).trans h)), IrFrame.app_within]
  cases b <;> rfl

/-- A load of a chaining slot. -/
lemma within_loadA {a e merged} (h : c.blockCache.jitEntries a = some e) :
    evalIr ir level (.loadA (.slot a) :: rest) (f.within vs true merged) c =
      evalIr ir level rest (f.within (vs ++ [some (.entry e)]) true merged) c := by
  rw [← IrFrame.app_within]
  refine evalIr_next ((exec_live rfl (by simp)).trans ?_) rest
  delta IrInsn.execLive
  dsimp only
  rw [h]
  rfl

/-- A store to the PC in a live branch. -/
lemma within_storePc {w merged} :
    evalIr ir level (.store .pc (.const (.word w)) :: rest) (f.within vs true merged) c =
      evalIr ir level rest (f.within (vs ++ [none]) true merged) (c.atPc w) := by
  rw [← IrFrame.app_within]
  exact evalIr_next (exec_live rfl (by simp)) rest

/-- The end of a branch. -/
lemma within_endNode {merged} :
    evalIr ir level (.endNode :: rest) (f.within vs true merged) c =
      evalIr ir level rest (f.within (vs ++ [some (.word 1)]) false merged) c := by
  have e : IrInsn.exec ir level (f.within vs true merged) c .endNode =
      .next { (f.within vs true merged).app [some (.word 1)] with live := false } c :=
    exec_live rfl (by simp)
  rw [evalIr_next e, IrFrame.app_within]
  rfl

/-- The three instructions of a branch that is not taken. -/
lemma within_dead {a w merged} :
    evalIr ir level (.loadA a :: .store .pc w :: .endNode :: rest) (f.within vs false merged) c =
      evalIr ir level rest (f.within (vs ++ [none, none, none]) false merged) c := by
  rw [evalIr_next (exec_dead rfl (by simp)), evalIr_next (exec_dead rfl (by simp)),
    evalIr_next (exec_dead rfl (by simp)), IrFrame.app_within, IrFrame.app_within,
    IrFrame.app_within]
  simp

/-- A merge of two branches and a return of the value of the one taken. -/
lemma within_merge {i j k l e live merged}
    (hi : ((vs[i]?).join.isSome || (vs[j]?).join.isSome) = true)
    (he : ((if (vs[i]?).join.isSome then vs[k]? else vs[l]?)).join = some (.entry e))
    (hk : k < vs.length) (hl : l < vs.length) :
    evalIr ir level [.merge2 (.insn (f.values.length + i)) (.insn (f.values.length + j)),
        .phi2 (.insn (f.values.length + k)) (.insn (f.values.length + l)),
        .ret (.insn (f.values.length + (vs.length + 1)))] (f.within vs live merged) c =
      .ok e c := by
  have merge : IrInsn.exec ir level (f.within vs live merged) c
      (.merge2 (.insn (f.values.length + i)) (.insn (f.values.length + j))) =
      .next (f.within (vs ++ [none]) true (vs[i]?).join.isSome) c := by
    show IrStep.next { (f.within vs live merged).push none with live := _, merged := _ } c = _
    rw [IrFrame.lookup_within, IrFrame.lookup_within, hi, IrFrame.push_eq, IrFrame.app_within]
    rfl
  have phi : IrInsn.exec ir level (f.within (vs ++ [none]) true (vs[i]?).join.isSome) c
      (.phi2 (.insn (f.values.length + k)) (.insn (f.values.length + l))) =
      .next (f.within (vs ++ [none, some (.entry e)]) true (vs[i]?).join.isSome) c := by
    refine (exec_live rfl (by simp)).trans ?_
    show IrStep.next ((f.within _ _ _).push ((f.within _ _ _).lookup (if _ then _ else _))) c = _
    have hv : (f.within (vs ++ [none]) true (vs[i]?).join.isSome).lookup
        (if (vs[i]?).join.isSome then .insn (f.values.length + k)
          else .insn (f.values.length + l)) = some (.entry e) := by
      -- the value is that of the branch that was taken
      split
      case isTrue h =>
        rw [if_pos h] at he
        rw [IrFrame.lookup_within, List.getElem?_append_left hk, he]
      case isFalse h =>
        rw [if_neg h] at he
        rw [IrFrame.lookup_within, List.getElem?_append_left hl, he]
    rw [IrFrame.push_eq, IrFrame.app_within, List.append_assoc]
    exact congrArg (fun v => IrStep.next (f.within (vs ++ ([none] ++ [v])) true _) c) hv
  rw [evalIr_next merge, evalIr_next phi]
  refine evalIr_ret rfl ?_ _
  rw [IrFrame.lookup_within, List.getElem?_append_right (Nat.le_succ _)]
  simp

/-- The code of a terminal `BEQ`. -/
lemma eval_branchCode (doc : ir.Documented) (live : f.live = true) {rs rt : Reg}
    {taken fallthrough eT eF} (hT : c.blockCache.jitEntries taken = some eT)
    (hF : c.blockCache.jitEntries fallthrough = some eF) :
    evalIr ir level (branchCode rs rt taken fallthrough f.values.length) f c =
      if c.reg rs = c.reg rt then .ok eT (c.atPc taken) else .ok eF (c.atPc fallthrough) := by
  have test (rest) : evalIr ir level
      (.loadU32 (.register rs.index) :: .loadU32 (.register rt.index) ::
        .binary .eq (.insn f.values.length) (.insn (f.values.length + 1)) ::
        .ifNode (.insn (f.values.length + 2)) :: rest) f c =
      evalIr ir level rest (f.within [some (.word (c.reg rs)), some (.word (c.reg rt)),
        some (.word (if c.reg rs = c.reg rt then 1 else 0)),
        some (.word (if c.reg rs = c.reg rt then 1 else 0))] true f.merged) c := by
    rw [evalIr_app_nil]
    simp only [evalIr_load live, evalIr_binary live, evalIr_ifNode live, IrFrame.lookup_app,
      IrFrame.lookup_app_zero, List.getElem?_cons_zero, List.getElem?_cons_succ, Option.join_some,
      List.cons_append, List.nil_append, doc.eq]
    rw [← live]
    rfl
  -- one of the two branches is dead code, the other loads the slot of its target
  rw [branchCode, test]
  by_cases h : c.reg rs = c.reg rt
  · simp only [if_pos h]
    rw [within_ifTrue f _ _ true rfl, within_loadA _ _ _ hT, within_storePc, within_endNode,
      within_ifFalse f _ _ true rfl, Bool.not_true, within_dead]
    exact within_merge f _ rfl rfl (by simp) (by simp)
  · simp only [if_neg h]
    rw [within_ifTrue f _ _ false rfl, within_dead, within_ifFalse f _ _ false rfl, Bool.not_false,
      within_loadA _ _ _ hF, within_storePc, within_endNode]
    exact within_merge f _ rfl rfl (by simp) (by simp)

end control

section block

variable {ir : IrLibrary} {level : Byte} {f : IrFrame} {c : ExecutionContext σ}

/-- The slots that a block loads exist. -/
def HasSlots (cache : TIBasicBlockCache) (addresses : List Word) : Prop :=
  ∀ a ∈ addresses, ∃ e, cache.jitEntries a = some e

variable (ir level) in
/-- The slot of the new PC is returned after it has been loaded. -/
lemma evalIr_loadA_ret (live : f.live = true) {a e} (h : c.blockCache.jitEntries a = some e) :
    evalIr ir level [.loadA (.slot a), .ret (.insn f.values.length)] f c = .ok e c := by
  have load : IrInsn.exec ir level f c (.loadA (.slot a)) = .next (f.app [some (.entry e)]) c := by
    refine (exec_live live (by simp)).trans ?_
    delta IrInsn.execLive
    dsimp only
    rw [h]
    rfl
  rw [evalIr_next load]
  exact evalIr_ret (f := f.app [some (.entry e)]) live (IrFrame.lookup_app_zero f _) _

/-- The end of a block whose last instruction does not end it. -/
lemma eval_exitCode_default (live : f.live = true) {i : Instr} (ne : ¬ i.Ends) {a : Word}
    (slots : HasSlots c.blockCache (i.successors a)) :
    evalIr ir level (i.exitCode a f.values.length) f c =
      .ok (chainEntry i (c.atPc (a + TI32.instructionSize)))
        (c.atPc (a + TI32.instructionSize)) := by
  have code : i.exitCode a f.values.length =
      [.store .pc (.const (.word (a + TI32.instructionSize))),
        .loadA (.slot (a + TI32.instructionSize)), .ret (.insn (f.values.length + 1))] := by
    cases i with
    | compute | st | stp => rfl
    | _ => exact absurd rfl ne
  have succ : i.successors a = [a + TI32.instructionSize] := by
    cases i with
    | compute | st | stp => rfl
    | _ => exact absurd rfl ne
  obtain ⟨e, he⟩ := slots (a + TI32.instructionSize) (by rw [succ]; exact List.mem_singleton_self _)
  have entry : chainEntry i (c.atPc (a + TI32.instructionSize)) = e := by
    have : (c.blockCache.jitEntries (a + TI32.instructionSize)).getD 0 = e := by rw [he]; rfl
    cases i with
    | compute | st | stp => exact this
    | _ => exact absurd rfl ne
  rw [code, entry, evalIr_app_nil, evalIr_storePc live]
  have h := evalIr_loadA_ret ir level (f := f.app [none])
    (c := c.atPc (a + TI32.instructionSize)) live he
  simpa using h

/-- The end of a block by an instruction other than `BEQ`, in the context that it leaves. -/
lemma eval_exitCode_ends (live : f.live = true) {i : Instr} (he : i.Ends) (hb : i.opCode ≠ .beq)
    {a : Word} {d : ExecutionContext σ} (h : i.exec (c.atPc a) = .ok () d)
    (run : d.state.status = .running) (slots : HasSlots d.blockCache (i.successors a)) :
    evalIr ir level (i.exitCode a f.values.length) f d = .ok (chainEntry i d) d := by
  cases i with
  | compute op => cases op <;> cases he
  | st | stp => cases he
  | beq => exact absurd rfl hb
  | j index =>
    obtain ⟨e, hs⟩ := slots _ (List.mem_singleton_self _)
    have pc : d.cpu.pc = (a &&& 0xF0000000) ||| (index.setWidth 32 * TI32.instructionSize) := by
      cases h
      rfl
    have entry : chainEntry (.j index) d = e := by
      show (d.blockCache.jitEntries d.cpu.pc).getD 0 = e
      rw [pc, hs]
      rfl
    rw [entry]
    exact evalIr_loadA_ret _ _ live hs
  | syscall code =>
    obtain ⟨e, hs⟩ := slots _ (List.mem_singleton_self _)
    obtain ⟨d', h', rfl⟩ := Instr.exec_ok_iff.mp h
    have run' : d'.state.status = .running := run
    have pc : (Instr.syscall code).nextPc d' = a + TI32.instructionSize := by
      show (if d'.state.status = .running then _ else _) = _
      rw [if_pos run', (Instr.effect_frame h').pc]
      rfl
    have entry : chainEntry (.syscall code) (d'.atPc ((Instr.syscall code).nextPc d')) = e := by
      show (d'.blockCache.jitEntries ((Instr.syscall code).nextPc d')).getD 0 = e
      rw [pc]
      exact congrArg (Option.getD · 0) hs
    rw [entry]
    exact evalIr_loadA_ret _ _ live hs
  -- a flush may have emptied the slot, so the code returns null
  | flush => exact evalIr_ret live rfl _
  | invalid => cases h

/-- The slots of a block are still there after its last instruction. -/
lemma HasSlots.exec {i : Instr} {a : Word} {d : ExecutionContext σ}
    (h : i.exec (c.atPc a) = .ok () d) (slots : HasSlots c.blockCache (i.successors a)) :
    HasSlots d.blockCache (i.successors a) := by
  obtain ⟨d', h', rfl⟩ := Instr.exec_ok_iff.mp h
  by_cases hf : i = .flush
  · subst hf
    intro b hb
    cases hb
  · have e : d'.blockCache = (c.atPc a).blockCache := Instr.effect_blockCache h' hf
    show HasSlots d'.blockCache _
    rw [e]
    exact slots

variable (level) in
/-- The code of the last instruction of a block and of the end of the block. -/
lemma eval_last (doc : ir.Documented) (live : f.live = true) (run : c.state.status = .running)
    (i : Instr) {a : Word} (slots : HasSlots c.blockCache (i.successors a)) :
    let code := if i.opCode == .beq then [] else i.nativeCode a f.values.length
    evalIr ir level (code ++ i.exitCode a (f.values.length + code.length)) f c =
      match nativeRun c.cpu.pc [i] (c.atPc a) with
      | .ok d => .ok (chainEntry i d) d
      | .error d => .ok 0 d := by
  intro code
  by_cases hb : i.opCode = .beq
  · have hc : code = [] := by simp only [code, hb]; rfl
    rw [hc]
    cases i with
    | beq rs rt offset =>
      obtain ⟨eT, hT⟩ := slots _ List.mem_cons_self
      obtain ⟨eF, hF⟩ := slots _ (List.mem_cons_of_mem _ List.mem_cons_self)
      -- a `BEQ` has no code of its own, its end does everything
      refine (eval_branchCode f doc live hT hF).trans ?_
      have x : (Instr.beq rs rt offset).exec (c.atPc a) =
          .ok () (c.atPc (if c.reg rs = c.reg rt then
            a + offset.signExtend 32 * TI32.instructionSize else a + TI32.instructionSize)) := rfl
      have run' (pc) : (c.atPc pc).state.status = .running := run
      simp only [nativeRun, x, if_pos (run' _)]
      split
      · simp only [chainEntry, atPc_blockCache, atPc_cpu_pc, hT]
        rfl
      · simp only [chainEntry, atPc_blockCache, atPc_cpu_pc, hF]
        rfl
    | compute op => cases op <;> cases hb
    | _ => cases hb
  · have hc : code = i.nativeCode a f.values.length := by
      simp only [code, beq_iff_eq, if_neg hb]
    rw [hc]
    -- an instruction that ends the block has moved the PC, any other leaves that to the end
    by_cases he : i.Ends
    · obtain ⟨f', hf, e⟩ := eval_endCode level doc live run he hb a
        (i.exitCode a (f.values.length + (i.nativeCode a f.values.length).length))
      rw [e, ← hf.length]
      unfold nativeRun
      cases x : i.exec (c.atPc a) with
      | error e d => simp only [if_pos he]
      | ok u d =>
        simp only
        split
        case isTrue run' =>
          exact eval_exitCode_ends hf.live he hb x run' (slots.exec x)
        case isFalse => rfl
    · obtain ⟨f', hf, e⟩ := eval_nativeCode level doc live run he a
        (i.exitCode a (f.values.length + (i.nativeCode a f.values.length).length))
      rw [e, ← hf.length]
      unfold nativeRun
      rw [Instr.exec_atPc he]
      cases x : i.effect c with
      | error e d =>
        obtain ⟨_, m, rfl, _⟩ := Instr.effect_error x
        simp only [if_neg he]
        rfl
      | ok u d =>
        have run' (pc) : (d.atPc pc).state.status = .running := by
          show d.state.status = .running
          rw [Instr.effect_state_of_not_ends he x]
          exact run
        have cache : d.blockCache = c.blockCache := Instr.effect_blockCache x (by
          rintro rfl
          exact he rfl)
        simp only
        rw [if_pos (run' _)]
        exact eval_exitCode_default hf.live he (cache ▸ slots)

variable (level) in
/-- The code of the instructions of a block from index `k` on and of the end of the block. -/
theorem eval_instructionsCode (doc : ir.Documented) {is : List Instr} (st : Straight is)
    (start : Word) (k) (live : f.live = true) (run : c.state.status = .running)
    {last} (hl : is.getLast? = some last)
    (slots : HasSlots c.blockCache (last.successors (wordAt start (k + (is.length - 1))))) :
    let code := instructionsCode start k is f.values.length
    evalIr ir level
        (code ++ last.exitCode (wordAt start (k + (is.length - 1))) (f.values.length + code.length))
        f c =
      match nativeRun c.cpu.pc is (c.atPc (wordAt start k)) with
      | .ok d => .ok (chainEntry last d) d
      | .error d => .ok 0 d := by
  -- on the block; the frame grows by the values of each instruction
  induction st generalizing k f c with
  | last i =>
    obtain rfl : i = last := by simpa using hl
    have h := eval_last level doc live run i (a := wordAt start k) slots
    simp only [instructionsCode, List.isEmpty_nil, Bool.true_and, List.append_nil]
    exact h
  | @cons i is ne st ih =>
    have hne : is.isEmpty = false := by simpa [List.isEmpty_iff] using st.ne_nil
    have hlen : is.length = is.length - 1 + 1 := by
      have := List.length_pos_iff.mpr st.ne_nil
      omega
    have hl' : is.getLast? = some last := by
      cases is with
      | nil => exact absurd rfl st.ne_nil
      | cons j js => simpa [List.getLast?_cons_cons] using hl
    have hidx : k + ((i :: is).length - 1) = k + 1 + (is.length - 1) := by
      simp only [List.length_cons]
      omega
    rw [hidx] at slots ⊢
    have hcode : instructionsCode start k (i :: is) f.values.length =
        i.nativeCode (wordAt start k) f.values.length ++
          instructionsCode start (k + 1) is
            (f.values.length + (i.nativeCode (wordAt start k) f.values.length).length) := by
      simp only [instructionsCode, hne, Bool.false_and]
      rfl
    simp only [hcode, List.append_assoc, List.length_append]
    generalize hrest : instructionsCode start (k + 1) is _ ++ _ = rest
    obtain ⟨f', hf, e⟩ := eval_nativeCode level doc live run ne (wordAt start k) rest
    rw [e, ← hrest, ← Nat.add_assoc, ← hf.length]
    unfold nativeRun
    rw [Instr.exec_atPc ne]
    cases x : i.effect c with
    | error e d =>
      obtain ⟨_, m, rfl, _⟩ := Instr.effect_error x
      simp only [if_neg ne]
      rfl
    | ok u d =>
      -- the block goes on: the status, the slots and the PC at entry are the same
      have run' : d.state.status = .running := by
        rw [Instr.effect_state_of_not_ends ne x]
        exact run
      have cache : d.blockCache = c.blockCache := Instr.effect_blockCache x (by
        rintro rfl
        exact ne rfl)
      have pc : d.cpu.pc = c.cpu.pc := (Instr.effect_frame x).pc
      have next : wordAt start k + TI32.instructionSize = wordAt start (k + 1) :=
        wordAt_add_four start k
      simp only
      rw [if_pos (show (d.atPc (wordAt start k + TI32.instructionSize)).state.status = .running
        from run'), next, ← pc]
      exact ih (k + 1) hf.live run' hl' (cache ▸ slots)

/-- Native code of a block entered at its start. -/
theorem eval_blockCode (doc : ir.Documented) {is : List Instr} (st : Straight is) {last}
    (hl : is.getLast? = some last) (run : c.state.status = .running)
    (slots : HasSlots c.blockCache (last.successors (wordAt c.cpu.pc (is.length - 1)))) :
    evalIr ir level (blockCode c.cpu.pc is last) {} c =
      match nativeRun c.cpu.pc is c with
      | .ok d => .ok (chainEntry last d) d
      | .error d => .ok 0 d := by
  have h := eval_instructionsCode level doc st c.cpu.pc 0 (f := {}) rfl run hl
    (by rwa [Nat.zero_add])
  simp only [Nat.zero_add, wordAt_zero] at h
  have e : ({} : IrFrame).values.length = 0 := rfl
  rw [e, Nat.zero_add] at h
  exact h

end block

end ToyIsa
