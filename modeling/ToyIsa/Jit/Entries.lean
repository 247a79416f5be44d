import ToyIsa.Jit.Changes
import ToyIsa.Jit.Native

/-!
# What native code returns

The code of a block loads chaining slots only after its last call, and no call but `FLUSH` changes
the chaining table. So the entry point that the code of a block returns, in whatever status it was
called, is null or still in the table (`blockCode_entry`).
-/

namespace ToyIsa

variable {σ : Type}

/-- The references whose values an instruction passes on. -/
def IrInsn.passes : IrInsn → List IrRef
  | .ifNode v | .ret v => [v]
  | .phi2 a b => [a, b]
  | _ => []

/-- No entry point, or the null one. -/
def IrRef.isNull : IrRef → Bool
  | .const (.entry e) => e == 0
  | _ => true

def IrInsn.isLoad : IrInsn → Bool
  | .loadA _ => true
  | _ => false

def IrInsn.isCall : IrInsn → Bool
  | .call .. => true
  | _ => false

/-- An instruction that passes on no entry point of its own. -/
def IrInsn.passesNull (insn : IrInsn) : Bool := insn.passes.all (·.isNull)

/-- The entry points among the values of a frame satisfy `P`. -/
def IrFrame.Entries (P : Entry → Prop) (f : IrFrame) : Prop :=
  ∀ e, some (.entry e) ∈ f.values → P e

/-- One more value, which is no other entry point. -/
lemma IrFrame.Entries.push {P : Entry → Prop} {f : IrFrame} (h : f.Entries P) {v : Option IrVal}
    (hv : ∀ e, v = some (.entry e) → P e) : (f.push v).Entries P := by
  intro e mem
  obtain mem | mem := List.mem_append.mp mem
  · exact h e mem
  · exact hv e (List.mem_singleton.mp mem).symm

/-- An entry point that is looked up. -/
lemma IrFrame.Entries.lookup {P : Entry → Prop} {f : IrFrame} (h : f.Entries P) (null : P 0)
    {r : IrRef} (hr : r.isNull = true) {e} (he : f.lookup r = some (.entry e)) : P e := by
  cases r with
  | const v =>
    cases he
    have e0 : e = 0 := by simpa [IrRef.isNull] using hr
    exact e0 ▸ null
  | param => cases he
  | insn n => exact h e (List.mem_of_getElem? (Option.join_eq_some_iff.mp he))

/-- The entry points that an instruction produces satisfy `P`. -/
def IrStep.Entries (P : Entry → Prop) : IrStep σ → Prop
  | .next f _ => f.Entries P
  | .returned e _ => P e
  | .undefined _ => True

variable [Host σ] {ir : IrLibrary} {level : Byte}

/-- A call produces no entry point. -/
lemma callHelper_entries {P : Entry → Prop} {f : IrFrame} (h : f.Entries P)
    (c : ExecutionContext σ) (callee args) : (callHelper f c callee args).Entries P := by
  have ofCall {α} (value : α → Option IrVal) (hv : ∀ a e, value a ≠ some (.entry e))
      (r : EStateM.Result Failure (ExecutionContext σ) α) :
      (IrStep.ofCall f value r).Entries P := by
    cases r with
    | ok a d => exact h.push fun e he => absurd he (hv a e)
    | error e d => trivial
  unfold callHelper
  split
  · exact ofCall _ (fun _ _ e => by cases e) _
  · exact ofCall _ (fun _ _ e => by cases e) _
  · exact ofCall _ (fun _ _ e => by cases e) _
  · exact h.push nofun
  · trivial

variable (ir level) in
/-- An instruction produces entry points that it passes on or loads. -/
lemma IrInsn.exec_entries (P : Entry → Prop) (null : P 0) {insn : IrInsn}
    (passes : insn.passesNull = true) {f : IrFrame} (h : f.Entries P) {c : ExecutionContext σ}
    (load : ∀ a, insn = .loadA (.slot a) → ∀ e, c.blockCache.jitEntries a = some e → P e) :
    (insn.exec ir level f c).Entries P := by
  -- a value that is no entry point says nothing about entry points
  have none' : (f.push none).Entries P := h.push nofun
  have word (w) : (f.push (some (.word w))).Entries P := h.push nofun
  have dead (r : IrStep σ) (hr : r.Entries P) :
      IrStep.Entries P (if f.live then r else .next (f.push none) c : IrStep σ) := by
    split
    · exact hr
    · exact none'
  cases insn with
  | ifTrue n =>
    delta exec
    dsimp only
    rcases f.lookup n with _ | _ | _ | _ | _ | _ <;> first | exact none' | trivial
  | ifFalse n =>
    delta exec
    dsimp only
    rcases f.lookup n with _ | _ | _ | _ | _ | _ <;> first | exact none' | trivial
  | merge2 a b => exact none'
  | loadU8 p =>
    refine dead _ ?_
    cases p <;> first | exact word _ | trivial
  | loadU32 p =>
    refine dead _ ?_
    cases p <;> first | exact word _ | trivial
  | loadA p =>
    refine dead _ ?_
    cases p with
    | slot a =>
      delta execLive
      dsimp only
      -- the one place where an entry point comes from the table
      cases slot : c.blockCache.jitEntries a with
      | none => trivial
      | some entry =>
        refine h.push fun e he => ?_
        cases he
        exact load a rfl entry slot
    | _ => trivial
  | store p v =>
    refine dead _ ?_
    delta execLive
    dsimp only
    cases p with
    | register i =>
      dsimp only
      rcases f.lookup v with _ | _ | _ | _ | _ | _ <;> first | exact none' | trivial
    | pc =>
      dsimp only
      rcases f.lookup v with _ | _ | _ | _ | _ | _ <;> first | exact none' | trivial
    | _ => trivial
  | unary op a =>
    refine dead _ ?_
    delta execLive
    dsimp only
    rcases f.lookup a with _ | _ | _ | _ | _ | _ <;> first | exact word _ | trivial
  | binary op a b =>
    refine dead _ ?_
    delta execLive
    dsimp only
    rcases f.lookup a with _ | _ | _ | _ | _ | _ <;>
    rcases f.lookup b with _ | _ | _ | _ | _ | _ <;> first | exact word _ | trivial
  | ifNode n =>
    have hn : n.isNull = true := by simpa [passesNull, IrInsn.passes] using passes
    exact dead _ (h.push fun e he => h.lookup null hn he)
  | endNode => exact dead _ (word _)
  | phi2 a b =>
    have hab : a.isNull = true ∧ b.isNull = true := by
      simpa [passesNull, IrInsn.passes] using passes
    refine dead _ (h.push fun e he => h.lookup null ?_ he)
    split
    · exact hab.1
    · exact hab.2
  | ret v =>
    have hv : v.isNull = true := by simpa [passesNull, IrInsn.passes] using passes
    refine dead _ ?_
    delta execLive
    dsimp only
    rcases value : f.lookup v with _ | _ | e | _ | _ | _ <;>
    first | exact h.lookup null hv value | trivial
  | call callee args =>
    show IrStep.Entries P
      (if f.live then execLive ir level f c (.call callee args) else _ : IrStep σ)
    split
    case isFalse => exact none'
    case isTrue =>
      delta execLive
      dsimp only
      cases args.mapM f.lookup with
      | none => trivial
      | some values => exact callHelper_entries h c callee values

/-- An entry point that is null or in the chaining table. -/
def InTable (cache : TIBasicBlockCache) (e : Entry) : Prop :=
  e = 0 ∨ ∃ a, cache.jitEntries a = some e

variable (ir level) in
/-- An instruction that is not a call keeps the block cache. -/
lemma IrInsn.exec_blockCache {insn : IrInsn} (noCall : insn.isCall = false) (f)
    (c : ExecutionContext σ) : (insn.exec ir level f c).context.blockCache = c.blockCache := by
  have h := exec_changes ir level f c insn
  have action : insn.action f = .compute := by
    cases insn with
    | call => cases noCall
    | _ => rfl
  rw [action] at h
  generalize (insn.exec ir level f c).context = d at h
  cases h with
  | nothing _ _ cache => exact cache

/-- Code that does not call returns what is in the table. -/
lemma evalIr_entry_of_noCall {post : List IrInsn}
    (hpost : ∀ insn ∈ post, insn.passesNull = true ∧ insn.isCall = false) {f : IrFrame}
    {c : ExecutionContext σ} (h : f.Entries (InTable c.blockCache)) {e d}
    (r : evalIr ir level post f c = .ok e d) : InTable d.blockCache e := by
  -- without a call the table stays as it is, so what was loaded earlier is still in it
  induction post generalizing f c with
  | nil => cases r
  | cons insn post ih =>
    obtain ⟨passes, noCall⟩ := hpost insn List.mem_cons_self
    have entries := IrInsn.exec_entries ir level (InTable c.blockCache) (.inl rfl) passes h
      fun a _ e slot => .inr ⟨a, slot⟩
    have cache := IrInsn.exec_blockCache ir level noCall f c
    unfold evalIr at r
    cases x : insn.exec ir level f c with
    | undefined d => rw [x] at r; cases r
    | returned e' d' =>
      rw [x] at r entries cache
      cases r
      change d.blockCache = c.blockCache at cache
      rw [cache]
      exact entries
    | next f' c' =>
      rw [x] at r entries cache
      change c'.blockCache = c.blockCache at cache
      have h' : f'.Entries (InTable c'.blockCache) := by
        rw [cache]
        exact entries
      exact ih (fun i mem => hpost i (List.mem_cons_of_mem _ mem)) h' r

/-- Code that loads chaining slots only after its last call returns what is in the table. -/
lemma evalIr_entry {pre post : List IrInsn}
    (hpre : ∀ insn ∈ pre, insn.passesNull = true ∧ insn.isLoad = false)
    (hpost : ∀ insn ∈ post, insn.passesNull = true ∧ insn.isCall = false) {f : IrFrame}
    {c : ExecutionContext σ} (h : f.Entries (· = 0)) {e d}
    (r : evalIr ir level (pre ++ post) f c = .ok e d) : InTable d.blockCache e := by
  induction pre generalizing f c with
  | nil => exact evalIr_entry_of_noCall hpost (fun e mem => .inl (h e mem)) r
  | cons insn pre ih =>
    obtain ⟨passes, noLoad⟩ := hpre insn List.mem_cons_self
    have entries := IrInsn.exec_entries ir level (· = 0) rfl passes h (c := c)
      fun a eq => by subst eq; cases noLoad
    rw [List.cons_append] at r
    unfold evalIr at r
    cases x : insn.exec ir level f c with
    | undefined d => rw [x] at r; cases r
    | returned e' d' =>
      rw [x] at r entries
      cases r
      exact .inl entries
    | next f' c' =>
      rw [x] at r entries
      exact ih (fun i mem => hpre i (List.mem_cons_of_mem _ mem)) entries r

/-! The code of a block. -/

/-- The code of an instruction loads no chaining slot. -/
lemma nativeCode_noLoad (i : Instr) (a n) :
    ∀ insn ∈ i.nativeCode a n, insn.passesNull = true ∧ insn.isLoad = false := by
  have all : (i.nativeCode a n).all (fun insn => insn.passesNull && !insn.isLoad) = true := by
    cases i with
    | compute op =>
      cases op with
      | ssat rd rs width =>
        show ((Compute.ssat rd rs width).nativeCode n).all _ = true
        unfold Compute.nativeCode
        dsimp only
        split <;> rfl
      | _ => rfl
    | _ => rfl
  simpa using all

/-- The code of the instructions of a block loads no chaining slot. -/
lemma instructionsCode_noLoad (start : Word) (k is n) :
    ∀ insn ∈ instructionsCode start k is n, insn.passesNull = true ∧ insn.isLoad = false := by
  induction is generalizing k n with
  | nil =>
    intro insn mem
    cases mem
  | cons i is ih =>
    intro insn mem
    unfold instructionsCode at mem
    obtain mem | mem := List.mem_append.mp mem
    · split at mem
      · cases mem
      · exact nativeCode_noLoad i _ _ insn mem
    · exact ih _ _ insn mem

/-- The end of a block does not call. -/
lemma exitCode_noCall (i : Instr) (a n) :
    ∀ insn ∈ i.exitCode a n, insn.passesNull = true ∧ insn.isCall = false := by
  have all : (i.exitCode a n).all (fun insn => insn.passesNull && !insn.isCall) = true := by
    cases i <;> rfl
  simpa using all

/-- A block returns what is in the table. -/
lemma blockCode_entry {start is last} {c : ExecutionContext σ} {e d}
    (r : evalIr ir level (blockCode start is last) {} c = .ok e d) : InTable d.blockCache e :=
  evalIr_entry (instructionsCode_noLoad start 0 is 0) (exitCode_noCall last _ _)
    (fun _ mem => by cases mem) r

end ToyIsa
