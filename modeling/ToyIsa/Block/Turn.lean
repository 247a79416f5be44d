import ToyIsa.Block.Enter

/-!
# The turns of a run

`Turn` lists what one turn of the block machine can do, guards included, and `Boundary.Good` is the
invariant of the boundaries of a run. `turn_of_good` says that a turn from a good boundary is in the
list, `Turn.good` that it leads to a good boundary again. Proofs about whole runs are case analyses
of `Turn`.
-/

namespace ToyIsa

open ExecutionContext TIBasicBlockCache Machine

variable {σ : Type}

/-- An entry point is that of the valid block at the PC of a running context. -/
structure Boundary.Good (b : Boundary σ) : Prop where
  cache : Consistent b.context.blockCache
  running : b.entry ≠ 0 → b.context.state.status = .running
  entry : b.entry ≠ 0 → ∃ block, b.context.blockCache.blocks b.context.cpu.pc = some block ∧
    block.valid = true ∧ block.compiledBlock.entryPoint = b.entry

/-- A boundary without an entry point. -/
lemma Boundary.Good.zero {c : ExecutionContext σ} (h : Consistent c.blockCache) :
    Boundary.Good ⟨c, 0⟩ := ⟨h, fun ne => absurd rfl ne, fun ne => absurd rfl ne⟩

/-- The boundary after a block has been interpreted. -/
def afterInterpreted : Outcome σ → Boundary σ ⊕ Outcome σ
  | .ok () d => .inl ⟨d, 0⟩
  | .error e d => .inr (.error e d.fault)

/-- The boundary after the native code of a block with last instruction `last`. -/
def afterNative (last : Instr) : Except (ExecutionContext σ) (ExecutionContext σ) → Boundary σ
  | .ok d => ⟨d, chainEntry last d⟩
  | .error d => ⟨d, 0⟩

/-- The handler of `executeBlock` faults the context. -/
lemma catchSimulation_of_isSimulation {e} (h : Failure.IsSimulation e) (d : ExecutionContext σ) :
    catchSimulation (.error e d) = .error e d.fault := by
  cases e with
  | simulation code message => rfl
  | _ => cases h

/-- The instructions of a block. -/
structure IsBlock (block : TIBasicBlock) (is : List Instr) : Prop where
  straight : Straight is
  length : is.length ≤ addressSpaceWords
  instructions : block.instructions = is.map Instr.toTI

variable [Host σ]

inductive Turn (ir : IrLibrary) : Boundary σ → Boundary σ ⊕ Outcome σ → Prop where
  | stopped {c} :
    c.state.status ≠ .running →
    Turn ir ⟨c, 0⟩ (.inr (.ok () c))
  | diverges {c} :
    c.state.status = .running →
    c.blockCache.getBlock c.cpu.pc c.memory = none →
    Turn ir ⟨c, 0⟩ (.inl ⟨c, 0⟩)
  | fault {c e cache} :
    c.state.status = .running →
    c.blockCache.getBlock c.cpu.pc c.memory = some (.error e cache) →
    Turn ir ⟨c, 0⟩ (.inr (.error e (c.withCache cache)))
  | interpreted {c block cache is} :
    c.state.status = .running →
    c.blockCache.getBlock c.cpu.pc c.memory = some (.ok block cache) →
    c.Interprets block →
    IsBlock block is →
    Turn ir ⟨c, 0⟩ (afterInterpreted (execAll is ((c.withCache cache).counted c.cpu.pc)))
  | prepared {c block cache cache' entry} :
    c.state.status = .running →
    c.blockCache.getBlock c.cpu.pc c.memory = some (.ok block cache) →
    ¬ c.Interprets block →
    cache'.view = cache.view →
    entry ≠ 0 →
    Boundary.Good ⟨c.withCache cache', entry⟩ →
    Turn ir ⟨c, 0⟩ (.inl ⟨c.withCache cache', entry⟩)
  | failed {c block cache cache' n level code} :
    c.state.status = .running →
    c.blockCache.getBlock c.cpu.pc c.memory = some (.ok block cache) →
    ¬ c.Interprets block →
    cache'.view = cache.view →
    Consistent cache' →
    ir.jitCompile n level code = false →
    Turn ir ⟨c, 0⟩
      (.inr (.error (.runtime "IR failed to compile a basic block") (c.withCache cache')))
  | native {c entry block is last} :
    entry ≠ 0 →
    c.state.status = .running →
    c.blockCache.blocks c.cpu.pc = some block →
    block.valid = true →
    IsBlock block is →
    is.getLast? = some last →
    Turn ir ⟨c, entry⟩ (.inl (afterNative last (nativeRun c.cpu.pc is c)))

variable {ir : IrLibrary} {b : Boundary σ}

/-- A block of a consistent cache has typed instructions. -/
lemma Consistent.isBlock {cache : TIBasicBlockCache} (h : Consistent cache) {a block}
    (hb : cache.blocks a = some block) : ∃ is, IsBlock block is := by
  obtain ⟨is, st, len, hi⟩ := h.shape hb
  exact ⟨is, st, len, hi⟩

/-- A failing block is reported as a `SimulationException`. -/
lemma execAll_isSimulation {is : List Instr} {c d : ExecutionContext σ} {e}
    (h : execAll is c = .error e d) : e.IsSimulation := by
  obtain ⟨_, _, _, _, _, _, x⟩ := execAll_error h
  exact (Instr.effect_error x).1

/-- A turn that compiles a block or finds it compiled. -/
lemma turn_prepared {c : ExecutionContext σ} {block cache}
    (running : c.state.status = .running)
    (fetched : c.blockCache.getBlock c.cpu.pc c.memory = some (.ok block cache))
    (hi : ¬ c.Interprets block) (h : Consistent c.blockCache) :
    Turn ir ⟨c, 0⟩ (Boundary.after (enterBlock ir c.cpu.pc block (c.withCache cache))) := by
  obtain ⟨hc, hb, hv⟩ := h.getBlock_ok fetched
  have good {cache' b'} (hc' : Consistent cache') (hb' : cache'.blocks c.cpu.pc = some b')
      (hv' : b'.valid = true) {entry} (he : b'.compiledBlock.entryPoint = entry) :
      Boundary.Good ⟨c.withCache cache', entry⟩ :=
    ⟨hc', fun _ => running, fun _ => ⟨b', hb', hv', he⟩⟩
  rw [enterBlock_of_not_interprets (c := c.withCache cache) hi]
  -- compiled code is called, other code is compiled first
  cases compiled : block.hasCompiledBlock with
  | true =>
    exact .prepared running fetched hi rfl ((hasCompiledBlock_iff block).mp compiled)
      (good hc hb hv rfl)
  | false =>
    obtain ⟨is, st, len, instructions⟩ := hc.isBlock hb
    obtain ⟨last, hl⟩ := st.exists_last
    rw [if_neg Bool.false_ne_true, compileAndPublish_toTI (hc.key hb) instructions hl]
    -- compiling creates the slots before it can fail
    have hs : Consistent (slotsFor cache c.cpu.pc is last) := hc.withSlots _
    have hsb : (slotsFor cache c.cpu.pc is last).blocks c.cpu.pc = some block := by
      rw [slotsFor_blocks, hb]
    have view : (slotsFor cache c.cpu.pc is last).view = cache.view :=
      view_of_blocks (slotsFor_blocks _ _ _ _)
    simp only [withCache_blockCache, withCache_jitOptimizationLevel]
    cases compiles : ir.jitCompile (slotsFor cache c.cpu.pc is last).compilations
      c.jitOptimizationLevel (blockCode c.cpu.pc is last) with
    | false =>
      exact .failed running fetched hi ((compilationRefused_view _).trans view)
        hs.compilationRefused compiles
    | true =>
      exact .prepared running fetched hi ((view_publish _ _ _ _).trans view) (Nat.succ_ne_zero _)
        (good (hs.publish hsb hv st instructions hl (hasSlots_withSlots _ _))
          (publish_blocks_self hsb _ _) hv rfl)

/-- A turn from a good boundary is one of the list. -/
theorem turn_of_good (doc : ir.Documented) (good : b.Good) : Turn ir b (blockStep ir b) := by
  obtain ⟨c, entry⟩ := b
  have hc : Consistent c.blockCache := good.cache
  by_cases e0 : entry = 0
  case neg =>
    have running : c.state.status = .running := good.running e0
    -- the entry point belongs to a valid block under the PC
    obtain ⟨block, hb, hv, he⟩ := good.entry e0
    simp only at hb he
    obtain ⟨is, last, st, instructions, hl, code⟩ :=
      callEntry_of_hasNative doc running (hc.native hb (he ▸ e0))
    obtain ⟨is', _, len, instructions'⟩ := hc.isBlock hb
    have hlen : is.length ≤ addressSpaceWords := by
      have := congrArg List.length (instructions.symm.trans instructions')
      simp only [List.length_map] at this
      omega
    have result : blockStep ir ⟨c, entry⟩ =
        .inl (afterNative last (nativeRun c.cpu.pc is c)) := by
      rw [blockStep_entry _ _ e0, ← he, code]
      cases nativeRun c.cpu.pc is c <;> rfl
    rw [result]
    exact .native e0 running hb hv ⟨st, hlen, instructions⟩ hl
  case pos =>
    subst e0
    by_cases running : c.state.status = .running
    case neg =>
      rw [blockStep_stopped running]
      exact .stopped running
    case pos =>
      rw [blockStep_running _ running]
      unfold fetchBlock
      cases fetched : c.blockCache.getBlock c.cpu.pc c.memory with
      | none => exact .diverges running fetched
      | some r =>
        cases r with
        | error e cache => exact .fault running fetched
        | ok block cache =>
          by_cases hi : c.Interprets block
          case neg => exact turn_prepared running fetched hi hc
          case pos =>
            obtain ⟨hc', hb, _⟩ := hc.getBlock_ok fetched
            obtain ⟨is, isBlock⟩ := hc'.isBlock hb
            -- an interpreted block leaves no entry point
            have result : Boundary.after
                (enterBlock ir c.cpu.pc block (c.withCache cache)) =
                afterInterpreted (execAll is ((c.withCache cache).counted c.cpu.pc)) := by
              rw [enterBlock_of_interprets (c := c.withCache cache) isBlock.straight
                isBlock.instructions hi]
              cases x : execAll is ((c.withCache cache).counted c.cpu.pc) with
              | ok u d => rfl
              | error e d =>
                exact congrArg Sum.inr
                  (catchSimulation_of_isSimulation (execAll_isSimulation x) d)
            have turn : Turn ir ⟨c, 0⟩ _ := .interpreted running fetched hi isBlock
            rw [← result] at turn
            exact turn

/-- Native code that runs to its end leaves the context running. -/
lemma nativeRun_running {is : List Instr} {c d : ExecutionContext σ} {pc}
    (run : c.state.status = .running) (h : nativeRun pc is c = .ok d) :
    d.state.status = .running := by
  induction is generalizing c with
  | nil =>
    cases h
    exact run
  | cons i is ih =>
    unfold nativeRun at h
    cases x : i.exec c with
    | error e c' => rw [x] at h; cases h
    | ok u c' =>
      rw [x] at h
      simp only at h
      split at h
      case isTrue run' => exact ih run' h
      case isFalse => cases h

/-- The entry point that a block returns is that of the block at the PC. -/
lemma good_afterNative {is : List Instr} {c : ExecutionContext σ} (h : Consistent c.blockCache)
    (run : c.state.status = .running) (last) :
    (afterNative last (nativeRun c.cpu.pc is c)).Good := by
  cases x : nativeRun c.cpu.pc is c with
  | error d => exact .zero (h.nativeRun (.inr x))
  | ok d =>
    have hd : Consistent d.blockCache := h.nativeRun (.inl x)
    refine ⟨hd, fun _ => nativeRun_running run x, fun ne => ?_⟩
    have slot : chainEntry last d = 0 ∨
        chainEntry last d = (d.blockCache.jitEntries d.cpu.pc).getD 0 := by
      cases last <;> simp [chainEntry]
    change chainEntry last d ≠ 0 at ne
    cases e : d.blockCache.jitEntries d.cpu.pc with
    | none =>
      rw [e, Option.getD_none, or_self] at slot
      exact absurd slot ne
    | some entry =>
      rw [e, Option.getD_some] at slot
      obtain slot | slot := slot
      · exact absurd slot ne
      · rw [slot] at ne
        obtain ⟨b, hb, hv, he⟩ := hd.chained e ne
        exact ⟨b, hb, hv, he.trans slot.symm⟩

/-- A turn leads from a good boundary to a good one, or stops with a consistent cache. -/
theorem Turn.good {r} (turn : Turn ir b r) (good : b.Good) :
    (∀ b', r = .inl b' → b'.Good) ∧ (∀ o, r = .inr o → Consistent o.context.blockCache) := by
  cases turn with
  | stopped => exact ⟨nofun, fun o e => Sum.inr.inj e ▸ good.cache⟩
  | diverges => exact ⟨fun b' e => Sum.inl.inj e ▸ good, nofun⟩
  | fault _ fetched =>
    exact ⟨nofun, fun o e => Sum.inr.inj e ▸ Consistent.getBlock_error good.cache fetched⟩
  | @interpreted c block cache is _ fetched _ _ =>
    obtain ⟨hc, _, _⟩ := good.cache.getBlock_ok fetched
    obtain ⟨cache', e', _, keep⟩ := counted_eq (c.withCache cache) c.cpu.pc
    have start : Consistent ((c.withCache cache).counted c.cpu.pc).blockCache := by
      rw [e']
      exact keep hc
    cases x : execAll is ((c.withCache cache).counted c.cpu.pc) with
    | ok u d => exact ⟨fun b' e => Sum.inl.inj e ▸ .zero (start.execAll (.inl x)), nofun⟩
    | error e d =>
      have hd : Consistent d.blockCache := start.execAll (.inr ⟨e, x⟩)
      exact ⟨nofun, fun o eo => Sum.inr.inj eo ▸ hd⟩
  | prepared _ _ _ _ _ good' => exact ⟨fun b' e => Sum.inl.inj e ▸ good', nofun⟩
  | failed _ _ _ _ hc => exact ⟨nofun, fun o e => Sum.inr.inj e ▸ hc⟩
  | native _ run _ _ _ _ =>
    exact ⟨fun b' e => Sum.inl.inj e ▸ good_afterNative good.cache run _, nofun⟩

/-- Every boundary of a run from a good one is good. -/
theorem Boundary.Good.reach (doc : ir.Documented) {b'} (good : b.Good)
    (st : Reach (blockStep ir) b b') : b'.Good := by
  refine Reach.invariant (fun s t hs e => ?_) good st
  have turn := turn_of_good doc hs
  rw [e] at turn
  exact (turn.good hs).1 t rfl

end ToyIsa
