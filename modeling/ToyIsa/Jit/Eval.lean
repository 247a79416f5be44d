import ToyIsa.Isa.Arith
import ToyIsa.Jit.Changes
import ToyIsa.Jit.Emit

/-!
# What the code of an instruction does

`eval_nativeCode` runs the code of an instruction that does not end a block: it has the effect of
the instruction and goes on, or it returns 0 in a faulted context. The PC stays where it was.
`eval_endCode` is the same for the instructions that end a block, which write the PC.
-/

namespace ToyIsa

variable {σ : Type}

namespace IrFrame

/-- The frame after instructions with values `vs`. -/
def app (f : IrFrame) (vs : List (Option IrVal)) : IrFrame := { f with values := f.values ++ vs }

/-- Results do not change the branch. -/
@[simp] lemma app_live (f : IrFrame) (vs) : (f.app vs).live = f.live := rfl

/-- Results do not change what has been merged. -/
@[simp] lemma app_merged (f : IrFrame) (vs) : (f.app vs).merged = f.merged := rfl

/-- Results are counted. -/
@[simp] lemma length_app (f : IrFrame) (vs) :
    (f.app vs).values.length = f.values.length + vs.length := by
  simp [app]

/-- One result. -/
@[simp] lemma push_eq (f : IrFrame) (v) : f.push v = f.app [v] := rfl

/-- Results after results. -/
@[simp] lemma app_app (f : IrFrame) (vs ws) : (f.app vs).app ws = f.app (vs ++ ws) := by
  simp [app]

/-- A constant is itself. -/
@[simp] lemma lookup_const (f : IrFrame) (v) : f.lookup (.const v) = some v := rfl

/-- The parameter is the context. -/
@[simp] lemma lookup_param (f : IrFrame) : f.lookup .param = some .context := rfl

/-- A result is found at its place. -/
@[simp] lemma lookup_app (f : IrFrame) (vs k) :
    (f.app vs).lookup (.insn (f.values.length + k)) = (vs[k]?).join := by
  simp only [lookup, app]
  rw [List.getElem?_append_right (Nat.le_add_right _ _), Nat.add_sub_cancel_left]

/-- The first result is found at its place. -/
@[simp] lemma lookup_app_zero (f : IrFrame) (vs) :
    (f.app vs).lookup (.insn f.values.length) = (vs[0]?).join :=
  lookup_app f vs 0

end IrFrame

variable [Host σ] {ir : IrLibrary} {level : Byte} {f : IrFrame} {c : ExecutionContext σ}

/-- An instruction after which control goes to the next. -/
lemma evalIr_next {insn f' c'} (h : IrInsn.exec ir level f c insn = .next f' c') (rest) :
    evalIr ir level (insn :: rest) f c = evalIr ir level rest f' c' := by
  simp only [evalIr, h]

/-- An instruction through which control passes. -/
lemma exec_live (live : f.live = true) {insn : IrInsn}
    (hc : ∀ n m, insn ≠ .ifTrue n ∧ insn ≠ .ifFalse n ∧ insn ≠ .merge2 n m) :
    insn.exec ir level f c = insn.execLive ir level f c := by
  cases insn with
  | ifTrue n => exact absurd rfl (hc n n).1
  | ifFalse n => exact absurd rfl (hc n n).2.1
  | merge2 n m => exact absurd rfl (hc n m).2.2
  | _ => exact if_pos live

/-- An instruction through which control does not pass. -/
lemma exec_dead (dead : f.live = false) {insn : IrInsn}
    (hc : ∀ n m, insn ≠ .ifTrue n ∧ insn ≠ .ifFalse n ∧ insn ≠ .merge2 n m) :
    insn.exec ir level f c = .next (f.app [none]) c := by
  have h : ¬ f.live = true := by simp [dead]
  cases insn with
  | ifTrue n => exact absurd rfl (hc n n).1
  | ifFalse n => exact absurd rfl (hc n n).2.1
  | merge2 n m => exact absurd rfl (hc n m).2.2
  | _ => exact if_neg h

/-! Each kind of instruction, from a frame to which values `vs` have been added. -/

section steps

variable (live : f.live = true) (vs : List (Option IrVal)) (rest : List IrInsn)

include live

/-- A load of a register. -/
lemma evalIr_load (r : Reg) :
    evalIr ir level (.loadU32 (.register r.index) :: rest) (f.app vs) c =
      evalIr ir level rest (f.app (vs ++ [some (.word (c.reg r))])) c := by
  rw [← IrFrame.app_app]
  exact evalIr_next (exec_live (f := f.app vs) live (by simp)) rest

/-- A load of the status. -/
lemma evalIr_loadStatus :
    evalIr ir level (.loadU8 .status :: rest) (f.app vs) c =
      evalIr ir level rest (f.app (vs ++ [some (.word c.state.status.toByte)])) c := by
  rw [← IrFrame.app_app]
  exact evalIr_next (exec_live (f := f.app vs) live (by simp)) rest

/-- A store to a register. -/
lemma evalIr_store (v) (r : Reg) :
    evalIr ir level (.store (.register r.index) v :: rest) (f.app vs) c =
      match (f.app vs).lookup v with
      | some (.word w) => evalIr ir level rest (f.app (vs ++ [none])) (c.setReg r w)
      | _ => .error .undefined c := by
  have e : IrInsn.exec ir level (f.app vs) c (.store (.register r.index) v) =
      match (f.app vs).lookup v with
      | some (.word w) => .next ((f.app vs).app [none]) (c.setReg r w)
      | _ => .undefined c := exec_live (f := f.app vs) live (by simp)
  simp only [evalIr, e, ← IrFrame.app_app]
  rcases (f.app vs).lookup v with _ | _ | _ | _ | _ | _ <;> rfl

/-- A store to the PC. -/
lemma evalIr_storePc (w) :
    evalIr ir level (.store .pc (.const (.word w)) :: rest) (f.app vs) c =
      evalIr ir level rest (f.app (vs ++ [none])) (c.atPc w) := by
  rw [← IrFrame.app_app]
  exact evalIr_next (exec_live (f := f.app vs) live (by simp)) rest

/-- A value operation with one operand. -/
lemma evalIr_unary (a op) :
    evalIr ir level (.unary op a :: rest) (f.app vs) c =
      match (f.app vs).lookup a with
      | some (.word w) =>
        evalIr ir level rest (f.app (vs ++ [some (.word (ir.unary level op w))])) c
      | _ => .error .undefined c := by
  have e : IrInsn.exec ir level (f.app vs) c (.unary op a) =
      match (f.app vs).lookup a with
      | some (.word w) => .next ((f.app vs).app [some (.word (ir.unary level op w))]) c
      | _ => .undefined c := exec_live (f := f.app vs) live (by simp)
  simp only [evalIr, e, ← IrFrame.app_app]
  rcases (f.app vs).lookup a with _ | _ | _ | _ | _ | _ <;> rfl

/-- A value operation with two operands. -/
lemma evalIr_binary (a b op) :
    evalIr ir level (.binary op a b :: rest) (f.app vs) c =
      match (f.app vs).lookup a, (f.app vs).lookup b with
      | some (.word w), some (.word w') =>
        evalIr ir level rest (f.app (vs ++ [some (.word (ir.binary level op w w'))])) c
      | _, _ => .error .undefined c := by
  have e : IrInsn.exec ir level (f.app vs) c (.binary op a b) =
      match (f.app vs).lookup a, (f.app vs).lookup b with
      | some (.word w), some (.word w') =>
        .next ((f.app vs).app [some (.word (ir.binary level op w w'))]) c
      | _, _ => .undefined c := exec_live (f := f.app vs) live (by simp)
  simp only [evalIr, e, ← IrFrame.app_app]
  rcases (f.app vs).lookup a with _ | _ | _ | _ | _ | _ <;>
  rcases (f.app vs).lookup b with _ | _ | _ | _ | _ | _ <;> rfl

/-- A call of a C++ function. -/
lemma exec_call {callee args values} (h : args.mapM (f.app vs).lookup = some values) :
    IrInsn.exec ir level (f.app vs) c (.call callee args) =
      callHelper (f.app vs) c callee values := by
  refine (exec_live (f := f.app vs) live (by simp)).trans ?_
  delta IrInsn.execLive
  dsimp only
  rw [h]

/-- A call of `readMemory32`. -/
lemma evalIr_readMemory {a address} (ha : (f.app vs).lookup a = some (.word address)) :
    evalIr ir level (.call .readMemory32 [.param, a] :: rest) (f.app vs) c =
      match c.memory.read32 address with
      | .ok value => evalIr ir level rest (f.app (vs ++ [some (.word value)])) c
      | .error _ => evalIr ir level rest (f.app (vs ++ [some (.word 0)])) c.fault := by
  have args : [IrRef.param, a].mapM (f.app vs).lookup = some [.context, .word address] := by
    simp [ha]
  simp only [evalIr, exec_call live vs args, callHelper, readMemory32, ← IrFrame.app_app]
  cases r : c.memory.read32 address with
  | ok value => rfl
  | error e =>
    cases e with
    | undefined => exact absurd (TIMemory.read32_error r) id
    | _ => rfl

/-- A call of `writeMemory32`. -/
lemma evalIr_writeMemory {a b address value}
    (ha : (f.app vs).lookup a = some (.word address))
    (hb : (f.app vs).lookup b = some (.word value)) :
    evalIr ir level (.call .writeMemory32 [.param, a, b] :: rest) (f.app vs) c =
      match TIMemory.write32 address value c.memory with
      | .ok () m => evalIr ir level rest (f.app (vs ++ [none])) (c.withMemory m)
      | .error _ m => evalIr ir level rest (f.app (vs ++ [none])) (c.withMemory m).fault := by
  have args : [IrRef.param, a, b].mapM (f.app vs).lookup =
      some [.context, .word address, .word value] := by
    simp [ha, hb]
  simp only [evalIr, exec_call live vs args, callHelper, writeMemory32, executeHelper,
    onMemory_apply, ← IrFrame.app_app]
  cases w : TIMemory.write32 address value c.memory with
  | ok u m => rfl
  | error e m =>
    cases e with
    | undefined => exact absurd (TIMemory.write32_error w).2 id
    | _ => rfl

/-- A call of `executeInstructionHelper`. -/
lemma evalIr_helper (i h) :
    evalIr ir level
        (.call .executeInstructionHelper [.param, .const (.instruction i), .const (.handler h)] ::
          rest) (f.app vs) c =
      match instructionHandler i h c with
      | .ok () d => evalIr ir level rest (f.app (vs ++ [none])) d
      | .error .undefined d => .error .undefined d
      | .error _ d => evalIr ir level rest (f.app (vs ++ [none])) d.fault := by
  have args : [IrRef.param, .const (.instruction i), .const (.handler h)].mapM
      (f.app vs).lookup = some [.context, .instruction i, .handler h] := by
    simp
  simp only [evalIr, exec_call live vs args, callHelper, executeInstructionHelper, executeHelper,
    ← IrFrame.app_app]
  cases instructionHandler i h c with
  | ok u d => rfl
  | error e d => cases e <;> rfl

/-- A call of `compressBits`. -/
lemma evalIr_compressBits {a b value mask} (ha : (f.app vs).lookup a = some (.word value))
    (hb : (f.app vs).lookup b = some (.word mask)) :
    evalIr ir level (.call .compressBits [a, b] :: rest) (f.app vs) c =
      evalIr ir level rest
        (f.app (vs ++ [some (.word (ExecutorDetail.compressBits value mask))])) c := by
  have args : [a, b].mapM (f.app vs).lookup = some [.word value, .word mask] := by
    simp [ha, hb]
  simp only [evalIr, exec_call live vs args, callHelper, IrFrame.push_eq, IrFrame.app_app]

/-- A conditional branch. -/
lemma evalIr_ifNode (n) :
    evalIr ir level (.ifNode n :: rest) (f.app vs) c =
      evalIr ir level rest (f.app (vs ++ [(f.app vs).lookup n])) c := by
  rw [← IrFrame.app_app]
  exact evalIr_next (exec_live (f := f.app vs) live (by simp)) rest

end steps

/-- A return. -/
lemma evalIr_ret (live : f.live = true) {v e} (h : f.lookup v = some (.entry e)) (rest) :
    evalIr ir level (.ret v :: rest) f c = .ok e c := by
  have he : IrInsn.exec ir level f c (.ret v) = .returned e c := by
    refine (exec_live live (by simp)).trans ?_
    delta IrInsn.execLive
    dsimp only
    rw [h]
  simp only [evalIr, he]

/-- Control passes to the true branch of a condition that holds. -/
lemma exec_ifTrue {n w} (h : f.lookup n = some (.word w)) :
    IrInsn.exec ir level f c (.ifTrue n) =
      .next { f.app [none] with live := w != 0 } c := by
  delta IrInsn.exec
  dsimp only
  rw [h]
  rfl

/-- Control passes to the false branch of a condition that does not hold. -/
lemma exec_ifFalse {n w} (h : f.lookup n = some (.word w)) :
    IrInsn.exec ir level f c (.ifFalse n) =
      .next { f.app [none] with live := w == 0 } c := by
  delta IrInsn.exec
  dsimp only
  rw [h]
  rfl

/-- The status is 0 exactly in a running context. -/
lemma ExecutionStatus.toByte_eq_zero_iff (s : ExecutionStatus) :
    s.toByte = 0#32 ↔ s = .running := by
  cases s <;> simp [toByte]

/-- A frame to which no values have been added. -/
lemma evalIr_app_nil (code) :
    evalIr ir level code f c = evalIr ir level code (f.app []) c := by
  simp [IrFrame.app]

/-- The values of the exit check when the context is running. -/
def exitIfStoppedValues : List (Option IrVal) :=
  [some (.word 0), some (.word 0), some (.word 0), none, none, none]

variable (level) in
/-- The exit check goes on in a running context and returns 0 in any other. -/
lemma eval_exitIfStopped (doc : ir.Documented) (live : f.live = true) (rest) :
    evalIr ir level (exitIfStoppedCode f.values.length ++ rest) f c =
      if c.state.status = .running then evalIr ir level rest (f.app exitIfStoppedValues) c
      else .ok 0 c := by
  have test : evalIr ir level (exitIfStoppedCode f.values.length ++ rest) f c =
      evalIr ir level ([.ifTrue (.insn (f.values.length + 2)), .ret (.const (.entry 0)),
        .ifFalse (.insn (f.values.length + 2))] ++ rest)
        (f.app [some (.word c.state.status.toByte),
          some (.word (if c.state.status = .running then 0 else 1)),
          some (.word (if c.state.status = .running then 0 else 1))]) c := by
    rw [evalIr_app_nil]
    simp [exitIfStoppedCode, evalIr_loadStatus live, evalIr_binary live, evalIr_ifNode live,
      doc.ne, ExecutionStatus.toByte_eq_zero_iff]
  rw [test]
  by_cases run : c.state.status = .running
  · have hb : c.state.status.toByte = 0 := (ExecutionStatus.toByte_eq_zero_iff _).mpr run
    simp only [if_pos run, hb, List.cons_append, List.nil_append]
    -- the true branch is dead: nothing happens until `IF_FALSE`
    rw [evalIr_next (exec_ifTrue (w := 0) (IrFrame.lookup_app _ _ 2)),
      evalIr_next (exec_dead rfl (by simp)),
      evalIr_next (exec_ifFalse (w := 0) (by simp [IrFrame.lookup, IrFrame.app]))]
    congr 1
    simp [IrFrame.app, exitIfStoppedValues, live]
  · simp only [if_neg run, List.cons_append, List.nil_append]
    rw [evalIr_next (exec_ifTrue (w := 1) (IrFrame.lookup_app _ _ 2))]
    exact evalIr_ret rfl rfl _

/-- The exit check at a position after `f`. -/
lemma eval_exitIfStopped_app (doc : ir.Documented) (live : f.live = true) {vs n}
    (hn : n = f.values.length + vs.length) (rest) (c : ExecutionContext σ) :
    evalIr ir level (exitIfStoppedCode n ++ rest) (f.app vs) c =
      if c.state.status = .running then
        evalIr ir level rest (f.app (vs ++ exitIfStoppedValues)) c
      else .ok 0 c := by
  subst hn
  have h := eval_exitIfStopped level (c := c) doc (f := f.app vs) live rest
  rwa [IrFrame.length_app, IrFrame.app_app] at h

/-- The values of the instructions emitted for an instruction, where control has passed through
all of them to the end. -/
structure IrFrame.Extends (f f' : IrFrame) (code : List IrInsn) : Prop where
  live : f'.live = true
  length : f'.values.length = f.values.length + code.length

/-- A frame with a result for each instruction extends the old one. -/
lemma IrFrame.extends_app (live : f.live = true) {vs : List (Option IrVal)} {code}
    (h : vs.length = code.length) : f.Extends (f.app vs) code :=
  ⟨live, by rw [length_app, h]⟩

variable (level) in
/-- The code of a load from memory, from the call of `readMemory32` on. -/
lemma eval_readMemory (doc : ir.Documented) (live : f.live = true)
    (run : c.state.status = .running) (vs : List (Option IrVal)) {a address n}
    (ha : (f.app vs).lookup a = some (.word address)) (hn : n = f.values.length + vs.length)
    (rt : Reg) (rest) :
    ∃ ws : List (Option IrVal), ws.length = 8 ∧
      evalIr ir level (.call .readMemory32 [.param, a] :: (exitIfStoppedCode (n + 1) ++
          .store (.register rt.index) (.insn n) :: rest)) (f.app vs) c =
        match c.memory.read32 address with
        | .ok w => evalIr ir level rest (f.app (vs ++ ws)) (c.setReg rt w)
        | .error _ => .ok 0 c.fault := by
  rw [evalIr_readMemory live vs _ ha]
  cases c.memory.read32 address with
  | error e =>
    refine ⟨List.replicate 8 none, rfl, ?_⟩
    have stopped : ¬ c.fault.state.status = .running := by
      simp [TIExecutionState.fault]
    simp only
    rw [eval_exitIfStopped_app doc live (by simp [hn]; omega), if_neg stopped]
  | ok w =>
    refine ⟨some (.word w) :: exitIfStoppedValues ++ [none], rfl, ?_⟩
    simp only
    rw [eval_exitIfStopped_app doc live (by simp [hn]; omega), if_pos run, hn,
      evalIr_store live, IrFrame.lookup_app]
    simp

/-- The code of a call of an instruction function. -/
lemma eval_callCode (doc : ir.Documented) (live : f.live = true) (vs : List (Option IrVal)) (n)
    (hn : n = f.values.length + vs.length) (i : Instr) (h rest) (c : ExecutionContext σ) :
    evalIr ir level (callCode i h n ++ rest) (f.app vs) c =
      match instructionHandler i.toTI h c with
      | .ok () d =>
        if d.state.status = .running then
          evalIr ir level rest (f.app (vs ++ none :: exitIfStoppedValues)) d
        else .ok 0 d
      | .error .undefined d => .error .undefined d
      | .error _ d => .ok 0 d.fault := by
  have hn' : n + 1 = f.values.length + (vs ++ [none]).length := by simp [hn]; omega
  simp only [callCode, List.cons_append, evalIr_helper live]
  cases instructionHandler i.toTI h c with
  | ok u d =>
    simp only
    rw [eval_exitIfStopped_app doc live hn', List.append_assoc]
    rfl
  | error e d =>
    -- every failure that is an exception faults the context, and then the check returns
    have stopped : ¬ d.fault.state.status = .running := by simp [TIExecutionState.fault]
    cases e with
    | undefined => rfl
    | _ =>
      simp only
      rw [eval_exitIfStopped_app doc live hn', if_neg stopped]

variable (level) in
/-- The code of `CLZ`, which sets the lowest bit of 0 before it counts and adds 1 afterwards. -/
lemma eval_clz (doc : ir.Documented) (live : f.live = true) (rd rs : Reg) (rest) :
    ∃ f', f.Extends f' ((Compute.clz rd rs).nativeCode f.values.length) ∧
      evalIr ir level ((Compute.clz rd rs).nativeCode f.values.length ++ rest) f c =
        evalIr ir level rest f'
          (c.setReg rd (ExecutorDetail.countLeadingZeros (c.reg rs))) := by
  have hc := clz_safe (c.reg rs)
  have h0 := clz_safe_ne_zero (c.reg rs)
  refine ⟨f.app [some (.word (c.reg rs)), some (.word (if c.reg rs = 0 then 1 else 0)),
    some (.word (if c.reg rs = 0 then 1 else 0)),
    some (.word (c.reg rs ||| if c.reg rs = 0 then 1 else 0)),
    some (.word (c.reg rs ||| if c.reg rs = 0 then 1 else 0).clz),
    some (.word (c.reg rs).clz), none], IrFrame.extends_app live rfl, ?_⟩
  rw [evalIr_app_nil]
  simp only [Compute.nativeCode, List.cons_append, List.nil_append, evalIr_load live,
    evalIr_binary live, evalIr_unary live, evalIr_store live, IrFrame.lookup_const,
    IrFrame.lookup_app, IrFrame.lookup_app_zero, List.getElem?_cons_zero,
    List.getElem?_cons_succ, Option.join_some, doc.eq, doc.zextU32, doc.orU32, doc.addU32,
    doc.ctlzU32 _ _ h0, hc, countLeadingZeros_eq]

variable (level) in
/-- The code of `SSAT`. Width 0 has no bounds to compute, so the code calls `executeSsat`, which
throws. -/
lemma eval_ssat (doc : ir.Documented) (live : f.live = true) (rd rs : Reg) (width : BitVec 5)
    (rest) :
    ∃ f', f.Extends f' ((Compute.ssat rd rs width).nativeCode f.values.length) ∧
      evalIr ir level ((Compute.ssat rd rs width).nativeCode f.values.length ++ rest) f c =
        match (Compute.ssat rd rs width).value c with
        | .ok w => evalIr ir level rest f' (c.setReg rd w)
        | .error _ => .ok 0 c.fault := by
  by_cases hw : width = 0
  -- the immediate 0 is the only width outside of 1..31 that five bits can hold
  · subst hw
    have e : instructionHandler (Instr.compute (.ssat rd rs 0)).toTI .executeSsat c =
        .error (.simulation .invalidInstruction "[EXECUTE] SSAT width must be in range 1..31")
          c := executeInstructionSwitch_toTI (Instr.compute (.ssat rd rs 0)) c
    refine ⟨f.app (none :: exitIfStoppedValues), IrFrame.extends_app live rfl, ?_⟩
    rw [evalIr_app_nil, Compute.nativeCode, if_pos rfl,
      eval_callCode doc live [] f.values.length rfl, e]
    rfl
  · refine ⟨f.app [some (.word (c.reg rs)), some (.word (c.reg rs)),
      some (.word (if (c.reg rs).slt (-((1 : Word) <<< (width.toNat - 1) - 1) - 1)
        then -((1 : Word) <<< (width.toNat - 1) - 1) - 1 else c.reg rs)),
      some (.word (clampSigned (c.reg rs) width.toNat)),
      some (.word (clampSigned (c.reg rs) width.toNat)), none],
      IrFrame.extends_app live (by rw [Compute.nativeCode, if_neg hw]; rfl), ?_⟩
    rw [evalIr_app_nil]
    simp only [Compute.nativeCode, if_neg hw, List.cons_append, List.nil_append,
      evalIr_load live, evalIr_binary live, evalIr_unary live, evalIr_store live,
      IrFrame.lookup_const, IrFrame.lookup_app, IrFrame.lookup_app_zero,
      List.getElem?_cons_zero, List.getElem?_cons_succ, Option.join_some, doc.bitcastI32,
      doc.bitcastU32, doc.maxI32, doc.minI32, Compute.value,
      saturateSigned_eq (c.reg rs) hw]
    rw [minMax_eq (c.reg rs) width.isLt]

variable (level) in
/-- The code of a computing instruction. -/
lemma eval_compute (doc : ir.Documented) (live : f.live = true)
    (run : c.state.status = .running) (op : Compute) (rest) :
    ∃ f', f.Extends f' (op.nativeCode f.values.length) ∧
      evalIr ir level (op.nativeCode f.values.length ++ rest) f c =
        match op.value c with
        | .ok w => evalIr ir level rest f' (c.setReg op.dest w)
        | .error _ => .ok 0 c.fault := by
  cases op with
  | li rt imm =>
    refine ⟨f.app [none], IrFrame.extends_app live rfl, ?_⟩
    rw [evalIr_app_nil]
    simp [Compute.nativeCode, evalIr_store live]
  | add rd rs rt =>
    refine ⟨f.app [some (.word (c.reg rs)), some (.word (c.reg rt)),
      some (.word (c.reg rs + c.reg rt)), none], IrFrame.extends_app live rfl, ?_⟩
    rw [evalIr_app_nil]
    simp [Compute.nativeCode, evalIr_load live, evalIr_binary live, evalIr_store live, doc.addU32]
  | addi rt rs imm =>
    refine ⟨f.app [some (.word (c.reg rs)), some (.word (c.reg rs + imm.signExtend 32)), none],
      IrFrame.extends_app live rfl, ?_⟩
    rw [evalIr_app_nil]
    simp [Compute.nativeCode, evalIr_load live, evalIr_binary live, evalIr_store live, doc.addU32]
  | or rd rs rt =>
    refine ⟨f.app [some (.word (c.reg rs)), some (.word (c.reg rt)),
      some (.word (c.reg rs ||| c.reg rt)), none], IrFrame.extends_app live rfl, ?_⟩
    rw [evalIr_app_nil]
    simp [Compute.nativeCode, evalIr_load live, evalIr_binary live, evalIr_store live, doc.orU32]
  | rori rd rs shift =>
    refine ⟨f.app [some (.word (c.reg rs)), some (.word ((c.reg rs).rotateRight shift.toNat)),
      none], IrFrame.extends_app live rfl, ?_⟩
    have hw : shift.toNat % 4294967296 = shift.toNat := by have := shift.isLt; omega
    rw [evalIr_app_nil]
    simp [Compute.nativeCode, evalIr_load live, evalIr_binary live, evalIr_store live, doc.rorU32,
      rotateRight_eq, hw]
  | bext rd rs1 rs2 =>
    refine ⟨f.app [some (.word (c.reg rs1)), some (.word (c.reg rs2)),
      some (.word (ExecutorDetail.compressBits (c.reg rs1) (c.reg rs2))), none],
      IrFrame.extends_app live rfl, ?_⟩
    rw [evalIr_app_nil]
    simp only [Compute.nativeCode, List.cons_append, List.nil_append, evalIr_load live]
    rw [evalIr_compressBits live _ _ (IrFrame.lookup_app_zero f _) (IrFrame.lookup_app f _ 1)]
    simp [evalIr_store live]
  | clz rd rs => exact eval_clz level doc live rd rs rest
  | ssat rd rs width => exact eval_ssat level doc live rd rs width rest
  | ldReg rt base rm =>
    obtain ⟨ws, hws, e⟩ := eval_readMemory level doc live run
      ([some (.word (c.reg base)), some (.word (c.reg rm)),
        some (.word (c.reg base + c.reg rm))]) (IrFrame.lookup_app f _ 2) rfl rt rest
    refine ⟨f.app ([some (.word (c.reg base)), some (.word (c.reg rm)),
        some (.word (c.reg base + c.reg rm))] ++ ws), IrFrame.extends_app live ?_, ?_⟩
    · simp [hws, Compute.nativeCode, exitIfStoppedCode]
    · rw [evalIr_app_nil]
      simp only [Compute.nativeCode, List.cons_append, List.nil_append, List.append_assoc,
        evalIr_load live, evalIr_binary live, IrFrame.lookup_app, IrFrame.lookup_app_zero,
        List.getElem?_cons_zero, List.getElem?_cons_succ, Option.join_some, doc.addU32]
      exact e
  | ldImm rt base imm =>
    obtain ⟨ws, hws, e⟩ := eval_readMemory level doc live run
      ([some (.word (c.reg base)), some (.word (c.reg base + imm.signExtend 32))])
      (IrFrame.lookup_app f _ 1) rfl rt rest
    refine ⟨f.app ([some (.word (c.reg base)), some (.word (c.reg base + imm.signExtend 32))]
        ++ ws), IrFrame.extends_app live ?_, ?_⟩
    · simp [hws, Compute.nativeCode, exitIfStoppedCode]
    · rw [evalIr_app_nil]
      simp only [Compute.nativeCode, List.cons_append, List.nil_append, List.append_assoc,
        evalIr_load live, evalIr_binary live, IrFrame.lookup_const, IrFrame.lookup_app_zero,
        List.getElem?_cons_zero, Option.join_some, doc.addU32]
      exact e

variable (level) in
/-- The code of a word store, from the call of `writeMemory32` on. -/
lemma eval_writeMemory (doc : ir.Documented) (live : f.live = true)
    (run : c.state.status = .running) (vs : List (Option IrVal)) {a b address value n}
    (ha : (f.app vs).lookup a = some (.word address))
    (hb : (f.app vs).lookup b = some (.word value)) (hn : n = f.values.length + vs.length) (rest) :
    evalIr ir level (.call .writeMemory32 [.param, a, b] :: (exitIfStoppedCode (n + 1) ++ rest))
        (f.app vs) c =
      match TIMemory.write32 address value c.memory with
      | .ok () m =>
        evalIr ir level rest (f.app (vs ++ none :: exitIfStoppedValues)) (c.withMemory m)
      | .error _ m => .ok 0 (c.withMemory m).fault := by
  rw [evalIr_writeMemory live vs _ ha hb]
  cases TIMemory.write32 address value c.memory with
  | error e m =>
    have stopped : ¬ (c.withMemory m).fault.state.status = .running := by
      simp [TIExecutionState.fault]
    simp only
    rw [eval_exitIfStopped_app doc live (by simp [hn]; omega), if_neg stopped]
  | ok u m =>
    have run' : (c.withMemory m).state.status = .running := run
    simp only
    rw [eval_exitIfStopped_app doc live (by simp [hn]; omega), if_pos run']
    simp

variable (level) in
/-- The code of an instruction that does not end a block. -/
theorem eval_nativeCode (doc : ir.Documented) (live : f.live = true)
    (run : c.state.status = .running) {i : Instr} (ne : ¬ i.Ends) (a rest) :
    ∃ f', f.Extends f' (i.nativeCode a f.values.length) ∧
      evalIr ir level (i.nativeCode a f.values.length ++ rest) f c =
        match i.effect c with
        | .ok () d => evalIr ir level rest f' d
        | .error _ d => .ok 0 d.fault := by
  cases i with
  | compute op =>
    obtain ⟨f', hf, e⟩ := eval_compute level doc live run op rest
    refine ⟨f', hf, e.trans ?_⟩
    cases v : op.value c with
    | ok w => simp only [Instr.effect, v]
    | error e => simp only [Instr.effect, v]
  | st rt base imm =>
    have e := eval_writeMemory (c := c) level doc live run
      ([some (.word (c.reg base)), some (.word (c.reg base + imm.signExtend 32)),
        some (.word (c.reg rt))]) (IrFrame.lookup_app f _ 1) (IrFrame.lookup_app f _ 2) rfl rest
    refine ⟨f.app ([some (.word (c.reg base)), some (.word (c.reg base + imm.signExtend 32)),
        some (.word (c.reg rt))] ++ none :: exitIfStoppedValues),
      IrFrame.extends_app live rfl, ?_⟩
    rw [evalIr_app_nil]
    simp only [Instr.nativeCode, List.cons_append, List.nil_append, evalIr_load live,
      evalIr_binary live, IrFrame.lookup_const, IrFrame.lookup_app_zero,
      List.getElem?_cons_zero, Option.join_some, doc.addU32]
    refine e.trans ?_
    simp only [Instr.effect, ExecutionContext.storing, onMemory_apply, storeAll,
      EState.bind_apply]
    cases TIMemory.write32 (c.reg base + imm.signExtend 32) (c.reg rt) c.memory <;> rfl
  | stp rt1 rt2 base offset =>
    -- two stores, each followed by the check of the status
    have first (rest) := eval_writeMemory (c := c) level doc live run
      ([some (.word (c.reg base)), some (.word (c.reg base + offset.signExtend 32)),
        some (.word (c.reg base + offset.signExtend 32 + TI32.instructionSize)),
        some (.word (c.reg rt1)), some (.word (c.reg rt2))])
      (IrFrame.lookup_app f _ 1) (IrFrame.lookup_app f _ 3) rfl rest
    have second (m) := eval_writeMemory (c := c.withMemory m) level doc live
      run ([some (.word (c.reg base)), some (.word (c.reg base + offset.signExtend 32)),
        some (.word (c.reg base + offset.signExtend 32 + TI32.instructionSize)),
        some (.word (c.reg rt1)), some (.word (c.reg rt2))] ++ none :: exitIfStoppedValues)
      (IrFrame.lookup_app f _ 2) (IrFrame.lookup_app f _ 4) rfl rest
    refine ⟨f.app ([some (.word (c.reg base)), some (.word (c.reg base + offset.signExtend 32)),
        some (.word (c.reg base + offset.signExtend 32 + TI32.instructionSize)),
        some (.word (c.reg rt1)), some (.word (c.reg rt2))] ++ none :: exitIfStoppedValues ++
        none :: exitIfStoppedValues), IrFrame.extends_app live rfl, ?_⟩
    rw [evalIr_app_nil]
    simp only [Instr.nativeCode, List.cons_append, List.nil_append, List.append_assoc,
      evalIr_load live, evalIr_binary live, IrFrame.lookup_const, IrFrame.lookup_app_zero,
      IrFrame.lookup_app, List.getElem?_cons_zero, List.getElem?_cons_succ, Option.join_some,
      doc.addU32]
    refine (first _).trans ?_
    simp only [Instr.effect, ExecutionContext.storing, onMemory_apply, storeAll,
      EState.bind_apply]
    cases TIMemory.write32 (c.reg base + offset.signExtend 32) (c.reg rt1) c.memory with
    -- the code returns before the second store
    | error e m => rfl
    | ok u m =>
      refine (second m).trans ?_
      have e4 : TI32.instructionSize = 4 := rfl
      simp only [ExecutionContext.withMemory_memory, e4]
      cases TIMemory.write32 (c.reg base + offset.signExtend 32 + 4) (c.reg rt2) m <;> rfl
  | _ => exact absurd rfl ne

variable (level) in
/-- The code of an instruction that ends a block. A `BEQ` has none. -/
theorem eval_endCode (doc : ir.Documented) (live : f.live = true)
    (run : c.state.status = .running) {i : Instr} (he : i.Ends) (hb : i.opCode ≠ .beq) (a rest) :
    ∃ f', f.Extends f' (i.nativeCode a f.values.length) ∧
      evalIr ir level (i.nativeCode a f.values.length ++ rest) f c =
        match i.exec (c.atPc a) with
        | .ok () d => if d.state.status = .running then evalIr ir level rest f' d else .ok 0 d
        | .error _ d => .ok 0 d.fault := by
  cases i with
  | compute op => cases op <;> cases he
  | st | stp => cases he
  | beq => exact absurd rfl hb
  | j index =>
    refine ⟨f.app [none], IrFrame.extends_app live rfl, ?_⟩
    have e : (Instr.j index).exec (c.atPc a) =
        .ok () (c.atPc ((a &&& 0xF0000000) ||| (index.setWidth 32 * TI32.instructionSize))) := rfl
    rw [evalIr_app_nil, e]
    simp only [Instr.nativeCode, List.cons_append, List.nil_append, evalIr_storePc live]
    exact (if_pos run).symm
  -- the called function advances the PC it finds, the code then stores the right one
  | flush =>
    refine ⟨f.app (none :: exitIfStoppedValues ++ [none]), IrFrame.extends_app live rfl, ?_⟩
    have e : (Instr.flush).exec (c.atPc a) =
        .ok () (c.flushed.atPc (a + TI32.instructionSize)) := rfl
    have h : instructionHandler (Instr.flush).toTI .executeFlush c =
        .ok () (c.flushed.atPc (c.cpu.pc + TI32.instructionSize)) := rfl
    have run' : (c.flushed.atPc (c.cpu.pc + TI32.instructionSize)).state.status = .running := run
    rw [evalIr_app_nil, e, Instr.nativeCode, List.append_assoc,
      eval_callCode doc live [] f.values.length rfl, h]
    simp only
    rw [if_pos run', List.nil_append, List.cons_append, evalIr_storePc live, if_pos]
    · rfl
    · exact run
  -- the code stores the PC before the call, so the function works at the address of the call
  | syscall code =>
    refine ⟨f.app (none :: none :: exitIfStoppedValues), IrFrame.extends_app live rfl, ?_⟩
    have h : instructionHandler (Instr.syscall code).toTI .executeSyscall (c.atPc a) =
        (Instr.syscall code).exec (c.atPc a) := executeInstructionSwitch_toTI (.syscall code) _
    rw [evalIr_app_nil, Instr.nativeCode, List.cons_append, evalIr_storePc live,
      List.nil_append, eval_callCode doc live [none] (f.values.length + 1) rfl, h]
    cases x : (Instr.syscall code).exec (c.atPc a) with
    | ok u d => rfl
    | error e d =>
      have sim := (Instr.effect_error (Instr.exec_error_iff.mp x)).1
      cases e with
      | undefined => exact absurd sim id
      | _ => rfl
  | invalid =>
    refine ⟨f.app (none :: none :: exitIfStoppedValues), IrFrame.extends_app live rfl, ?_⟩
    have h : instructionHandler (Instr.invalid).toTI .executeInvalid (c.atPc a) =
        (Instr.invalid).exec (c.atPc a) := executeInstructionSwitch_toTI .invalid _
    rw [evalIr_app_nil, Instr.nativeCode, List.cons_append, evalIr_storePc live,
      List.nil_append, eval_callCode doc live [none] (f.values.length + 1) rfl, h]
    rfl

end ToyIsa
