import ToyIsa.Block.Chaining

/-!
# The JIT threshold

`executeJitBlock` interprets a block until it has been executed as often as the threshold says, and
then compiles it. Native code that chains to a compiled block does not come back to
`executeJitBlock`, so the count of a block is not how often it has been entered. `Accounted` runs a
`Tally` for each cached block beside a session of the JIT, and `threshold_accounting` says what the
count and the compiled code of a block tell about it.
-/

namespace ToyIsa

open ExecutionContext TIBasicBlockCache

variable {σ : Type}

/-- How often a block has been entered, interpreted and compiled since it was decoded. -/
@[ext] structure Tally where
  entered : Nat := 0
  interpreted : Nat := 0
  compiled : Nat := 0
  deriving DecidableEq, Repr

namespace Tally

/-- Native code of the block is called. -/
def enter (t : Tally) : Tally := { t with entered := t.entered + 1 }

/-- The instructions of the block are interpreted. -/
def interpret (t : Tally) : Tally := { t.enter with interpreted := t.interpreted + 1 }

/-- The block is compiled, and its native code is called. -/
def compile (t : Tally) : Tally := { t.enter with compiled := t.compiled + 1 }

end Tally

/-- The tallies after a look-up at `a`, which decodes a block where no valid one is stored. -/
def talliesFetched (cache : TIBasicBlockCache) (a : Word) (t : Word → Tally) : Word → Tally :=
  if (cache.blocks a).any (·.valid) then t else Function.update t a {}

variable [Host σ]

/-- The points between two blocks of a session, with the tallies of the cached blocks. A block is
entered where `step` interprets it or calls its native code, and where other native code returns
its entry point. A block that the library refuses to compile is not entered. -/
inductive Accounted (ir : IrLibrary) (start : ExecutionContext σ) :
    Boundary σ → (Word → Tally) → Prop where
  | start : Accounted ir start ⟨start, 0⟩ fun _ => {}
  | load {c t} (filename file loadAddress) :
    Accounted ir start ⟨c, 0⟩ t →
    Accounted ir start ⟨resultContext (loadBinary filename file loadAddress c), 0⟩ t
  | fault {c t e d} :
    Accounted ir start ⟨c, 0⟩ t →
    fetchBlock c = some (.error e d) →
    Accounted ir start ⟨d, 0⟩ t
  | interpreted {c t t' block d} :
    Accounted ir start ⟨c, 0⟩ t →
    fetchBlock c = some (.ok block d) →
    t' = talliesFetched c.blockCache c.cpu.pc t →
    d.Interprets block →
    Accounted ir start (.left (enterBlock ir c.cpu.pc block d))
      (Function.update t' c.cpu.pc (t' c.cpu.pc).interpret)
  | compiled {c t t' block d entry d'} :
    Accounted ir start ⟨c, 0⟩ t →
    fetchBlock c = some (.ok block d) →
    t' = talliesFetched c.blockCache c.cpu.pc t →
    ¬ d.Interprets block →
    block.hasCompiledBlock = false →
    enterBlock ir c.cpu.pc block d = .ok entry d' →
    Accounted ir start ⟨d', entry⟩ (Function.update t' c.cpu.pc (t' c.cpu.pc).compile)
  | refused {c t t' block d e d'} :
    Accounted ir start ⟨c, 0⟩ t →
    fetchBlock c = some (.ok block d) →
    t' = talliesFetched c.blockCache c.cpu.pc t →
    ¬ d.Interprets block →
    enterBlock ir c.cpu.pc block d = .error e d' →
    Accounted ir start (.left (.error e d')) t'
  | native {c t t' block d} :
    Accounted ir start ⟨c, 0⟩ t →
    fetchBlock c = some (.ok block d) →
    t' = talliesFetched c.blockCache c.cpu.pc t →
    block.hasCompiledBlock = true →
    ¬ d.Interprets block →
    Accounted ir start (.left (enterBlock ir c.cpu.pc block d))
      (Function.update t' c.cpu.pc (t' c.cpu.pc).enter)
  | chained {c t entry b a block} :
    Accounted ir start ⟨c, entry⟩ t →
    entry ≠ 0 →
    b = .left (callEntry ir entry c) →
    b.entry ≠ 0 →
    b.context.blockCache.blocks a = some block →
    block.compiledBlock.entryPoint = b.entry →
    Accounted ir start b (Function.update t a (t a).enter)
  | returned {c t entry b} :
    Accounted ir start ⟨c, entry⟩ t →
    entry ≠ 0 →
    b = .left (callEntry ir entry c) →
    b.entry = 0 →
    Accounted ir start b t

variable {ir : IrLibrary} {start : ExecutionContext σ}

/-- The tallies run beside a session. -/
lemma Accounted.driven {b t} (h : Accounted ir start b t) : Driven ir start b := by
  induction h with
  | start => exact .start
  | load filename file loadAddress _ ih => exact ih.load filename file loadAddress
  | fault _ fetched ih => exact ih.fault fetched
  | interpreted _ fetched _ _ ih => exact ih.enter fetched
  | compiled _ fetched _ _ _ entered ih =>
    have next := ih.enter fetched
    rwa [entered] at next
  | refused _ fetched _ _ entered ih =>
    have next := ih.enter fetched
    rwa [entered] at next
  | native _ fetched _ _ _ ih => exact ih.enter fetched
  | chained _ e0 called _ _ _ ih => exact called ▸ ih.chain e0
  | returned _ e0 called _ ih => exact called ▸ ih.chain e0

/-- Every session has tallies. -/
lemma Driven.accounted {b} (fresh : start.blockCache = start.blockCache.clear)
    (h : Driven ir start b) : ∃ t, Accounted ir start b t := by
  induction h with
  | start => exact ⟨_, .start⟩
  | load filename file loadAddress _ ih =>
    obtain ⟨t, ih⟩ := ih
    exact ⟨t, ih.load filename file loadAddress⟩
  | fault _ fetched ih =>
    obtain ⟨t, ih⟩ := ih
    exact ⟨t, ih.fault fetched⟩
  | @enter c block d _ fetched ih =>
    obtain ⟨t, ih⟩ := ih
    by_cases hi : d.Interprets block
    · exact ⟨_, ih.interpreted fetched rfl hi⟩
    · cases compiled : block.hasCompiledBlock with
      | true => exact ⟨_, ih.native fetched rfl compiled hi⟩
      | false =>
        cases entered : enterBlock ir c.cpu.pc block d with
        | ok entry d' => exact ⟨_, ih.compiled fetched rfl hi compiled entered⟩
        | error e d' => exact ⟨_, ih.refused fetched rfl hi entered⟩
  | @chain c entry reached e0 ih =>
    obtain ⟨t, ih⟩ := ih
    by_cases none : (Boundary.left (callEntry ir entry c)).entry = 0
    · exact ⟨t, ih.returned e0 rfl none⟩
    -- the entry point returned is in the table, so a cached block owns it
    · have linked := (reached.chain e0).linked fresh
      obtain zero | ⟨a, slot⟩ := linked.entry
      · exact absurd zero none
      · obtain ⟨block, hb, _, he⟩ := linked.cache.chained slot none
        exact ⟨_, ih.chained e0 rfl none hb he⟩

/-! What the tallies tell. -/

/-- The tally of a block that is compiled after `threshold` executions. -/
structure Tally.Of (threshold : Nat) (t : Tally) (block : TIBasicBlock) : Prop where
  executionCount : block.executionCount = min t.entered threshold
  hasCompiledBlock : block.hasCompiledBlock = true ↔ threshold < t.entered
  interpreted : t.interpreted = min t.entered threshold
  compiled : t.compiled = if threshold < t.entered then 1 else 0

namespace Tally.Of

variable {threshold : Nat} {t : Tally} {block block' : TIBasicBlock}

/-- A block that has just been decoded. -/
lemma decoded (a l) : Of threshold {} { startAddress := a, instructions := l } where
  executionCount := (Nat.zero_min threshold).symm
  hasCompiledBlock := ⟨nofun, fun lt => absurd lt (Nat.not_lt_zero _)⟩
  interpreted := (Nat.zero_min threshold).symm
  compiled := (if_neg (Nat.not_lt_zero _)).symm

/-- A block with the same count and the same native code. -/
lemma congr (h : Of threshold t block) (count : block'.executionCount = block.executionCount)
    (compiled : block'.compiledBlock = block.compiledBlock) : Of threshold t block' where
  executionCount := count.trans h.executionCount
  hasCompiledBlock := by
    rw [← h.hasCompiledBlock, TIBasicBlock.hasCompiledBlock, compiled]
    rfl
  interpreted := h.interpreted
  compiled := h.compiled

/-- A block that is not compiled has not been entered more often than the threshold. -/
lemma le (h : Of threshold t block) (uncompiled : block.hasCompiledBlock = false) :
    t.entered ≤ threshold := by
  have iff := h.hasCompiledBlock
  rw [uncompiled] at iff
  exact Nat.le_of_not_lt fun lt => Bool.false_ne_true (iff.mpr lt)

/-- Native code is called beyond the threshold only. -/
lemma enter (h : Of threshold t block) (compiled : block.hasCompiledBlock = true) :
    Of threshold t.enter block := by
  have lt := h.hasCompiledBlock.mp compiled
  have lt' : threshold < t.entered + 1 := Nat.lt_succ_of_lt lt
  have min_eq : min (t.entered + 1) threshold = min t.entered threshold := by omega
  refine ⟨?_, ⟨fun _ => lt', fun _ => compiled⟩, ?_, ?_⟩
  · exact h.executionCount.trans min_eq.symm
  · exact h.interpreted.trans min_eq.symm
  · exact h.compiled.trans ((if_pos lt).trans (if_pos lt').symm)

/-- Below the threshold the count is how often the block has been entered. -/
lemma interpret (h : Of threshold t block) (uncompiled : block.hasCompiledBlock = false)
    (count : block.executionCount < threshold) :
    Of threshold t.interpret block.recordExecution := by
  have lt : t.entered < threshold := by
    have := h.executionCount
    omega
  have le : ¬ threshold < t.entered + 1 := Nat.not_lt_of_le lt
  have min_eq : min (t.entered + 1) threshold = min t.entered threshold + 1 := by omega
  refine ⟨?_, ⟨fun compiled => ?_, fun lt' => absurd lt' le⟩, ?_, ?_⟩
  · exact (congrArg (· + 1) h.executionCount).trans min_eq.symm
  · exact absurd (uncompiled.symm.trans compiled) Bool.false_ne_true
  · exact (congrArg (· + 1) h.interpreted).trans min_eq.symm
  · exact h.compiled.trans ((if_neg (Nat.lt_asymm lt)).trans (if_neg le).symm)

/-- A block is compiled when it has been entered as often as the threshold says. -/
lemma compile (h : Of threshold t block) (uncompiled : block.hasCompiledBlock = false)
    (count : ¬ block.executionCount < threshold) (entry : Nat) :
    Of threshold t.compile (block.setCompiledBlock { entryPoint := entry + 1 }) := by
  have eq : t.entered = threshold := by
    have := h.executionCount
    have := h.le uncompiled
    omega
  have lt : threshold < t.entered + 1 := by omega
  have min_eq : min (t.entered + 1) threshold = min t.entered threshold := by omega
  have none : t.compiled = 0 := h.compiled.trans (if_neg (by omega))
  refine ⟨?_, ⟨fun _ => lt, fun _ => rfl⟩, ?_, ?_⟩
  · exact h.executionCount.trans min_eq.symm
  · exact h.interpreted.trans min_eq.symm
  · exact (congrArg (· + 1) none).trans (if_pos lt).symm

end Tally.Of

/-- A block after some invalidations is a block from before, invalidated at most. -/
lemma of_invalidateAll {cache : TIBasicBlockCache} {ranges a b}
    (hb : (cache.invalidateAll ranges).blocks a = some b) :
    ∃ b', cache.blocks a = some b' ∧ b = { b' with valid := b.valid } := by
  induction ranges generalizing cache with
  | nil => exact ⟨b, hb, rfl⟩
  | cons range ranges ih =>
    obtain ⟨b₁, hb₁, e₁⟩ := ih hb
    obtain ⟨b₂, hb₂, e₂, _⟩ := Consistent.of_invalidateRange hb₁
    exact ⟨b₂, hb₂, by rw [e₁, e₂]⟩

/-- The tallies of the cached blocks of a JIT. -/
structure Accounting (threshold : Nat) (t : Word → Tally) (c : ExecutionContext σ) : Prop where
  mode : c.mode = .jit
  jitThreshold : c.jitThreshold = threshold
  blocks : ∀ {a block}, c.blockCache.blocks a = some block → (t a).Of threshold block

namespace Accounting

variable {threshold : Nat} {t : Word → Tally} {c d : ExecutionContext σ}

omit [Host σ] in
/-- A cache whose blocks have the same counts and the same native code. -/
lemma congr (h : Accounting threshold t c) (mode : d.mode = c.mode)
    (jitThreshold : d.jitThreshold = c.jitThreshold)
    (back : ∀ {a b}, d.blockCache.blocks a = some b → ∃ b', c.blockCache.blocks a = some b' ∧
      b.executionCount = b'.executionCount ∧ b.compiledBlock = b'.compiledBlock) :
    Accounting threshold t d where
  mode := mode.trans h.mode
  jitThreshold := jitThreshold.trans h.jitThreshold
  blocks hb := by
    obtain ⟨b', hb', count, compiled⟩ := back hb
    exact (h.blocks hb').congr count compiled

omit [Host σ] in
/-- The tallies depend on the engine and the blocks only. -/
lemma of_blocks (h : Accounting threshold t c) (mode : d.mode = c.mode)
    (jitThreshold : d.jitThreshold = c.jitThreshold)
    (blocks : d.blockCache.blocks = c.blockCache.blocks) : Accounting threshold t d :=
  h.congr mode jitThreshold fun {_ b} hb => ⟨b, blocks ▸ hb, rfl, rfl⟩

omit [Host σ] in
/-- Executing instructions invalidates blocks at most. -/
lemma changes {act} (h : Accounting threshold t c) (same : SameSetup c d) (ch : Changes act c d) :
    Accounting threshold t d := by
  have kept (cache : d.blockCache = c.blockCache) : Accounting threshold t d :=
    h.of_blocks same.mode same.threshold (congrArg _ cache)
  cases ch with
  | nothing _ _ cache => exact kept cache
  | stored _ cache => exact kept cache
  | called _ _ _ cache => exact kept cache
  | flushed _ cache =>
    refine h.congr same.mode same.threshold fun {a b} hb => ?_
    rw [cache] at hb
    obtain ⟨b', hb', e⟩ := of_invalidateAll hb
    rw [e]
    exact ⟨b', hb', rfl, rfl⟩

omit [Host σ] in
/-- A load changes neither the engine nor a count. -/
lemma load (h : Accounting threshold t c) (filename file loadAddress) :
    Accounting threshold t (resultContext (loadBinary filename file loadAddress c)) := by
  obtain ⟨mode, jitThreshold, same | clear⟩ := loadBinary_changes filename file loadAddress c
  · exact h.of_blocks mode jitThreshold (congrArg _ same)
  · refine h.congr mode jitThreshold fun {a b} hb => ?_
    rw [clear] at hb
    cases hb

omit [Host σ] in
/-- A look-up destroys a block at most before it decodes. -/
lemma dropped (h : Accounting threshold t c) (a) :
    Accounting threshold t (c.withCache (c.blockCache.dropped a)) := by
  exact h.congr rfl rfl fun {a' b} hb => ⟨b, (of_dropped hb).2, rfl, rfl⟩

omit [Host σ] in
/-- A change of the block at `a` and of its tally. -/
lemma update {a block} {tally : Tally} (h : Accounting threshold t c) (mode : d.mode = c.mode)
    (jitThreshold : d.jitThreshold = c.jitThreshold)
    (blocks : d.blockCache.blocks = Function.update c.blockCache.blocks a (some block))
    (of : tally.Of threshold block) : Accounting threshold (Function.update t a tally) d := by
  refine ⟨mode.trans h.mode, jitThreshold.trans h.jitThreshold, fun {a' b} hb => ?_⟩
  rw [blocks] at hb
  obtain ⟨rfl, rfl⟩ | ⟨ne, hb⟩ := PartialMap.insert_eq_some hb
  · rw [Function.update_self]
    exact of
  · rw [Function.update_of_ne ne]
    exact h.blocks hb

omit [Host σ] in
/-- A look-up that fails. -/
lemma failed {e} (h : Accounting threshold t c) (fetched : fetchBlock c = some (.error e d)) :
    Accounting threshold t d := by
  obtain ⟨cache, get, rfl⟩ := fetchBlock_failed fetched
  have fetch := getBlock_cases c.blockCache c.cpu.pc c.memory
  rw [get] at fetch
  cases fetch with
  | fault => exact h.dropped _

omit [Host σ] in
/-- A look-up that returns a block. -/
lemma fetched {block} (h : Accounting threshold t c)
    (fetched : fetchBlock c = some (.ok block d)) :
    Accounting threshold (talliesFetched c.blockCache c.cpu.pc t) d ∧
      d.blockCache.blocks c.cpu.pc = some block := by
  obtain ⟨cache, get, rfl⟩ := fetchBlock_ok fetched
  have fetch := getBlock_cases c.blockCache c.cpu.pc c.memory
  refine ⟨?_, (getBlock_stored get).1⟩
  rw [get] at fetch
  unfold talliesFetched
  cases fetch with
  | hit hb hv =>
    rw [if_pos (by rw [hb, Option.any_some, hv])]
    exact ⟨h.mode, h.jitThreshold, h.blocks⟩
  | decoded missing _ _ =>
    have none : (c.blockCache.blocks c.cpu.pc).any (·.valid) = false := by
      cases hb : c.blockCache.blocks c.cpu.pc with
      | none => rfl
      | some b => exact missing b hb
    rw [none, if_neg Bool.false_ne_true]
    exact (h.dropped c.cpu.pc).update rfl rfl rfl (.decoded _ _)

omit [Host σ] in
/-- What a call leaves behind after an exception. -/
lemma left {r : EStateM.Result Failure (ExecutionContext σ) Entry}
    (h : Accounting threshold t (resultContext r)) :
    Accounting threshold t (Boundary.left r).context := by
  cases r with
  | ok entry d => exact h
  | error e d => cases e <;> exact h.of_blocks rfl rfl rfl

/-- Interpreting a block. -/
lemma interpret (h : Accounting threshold t c) (is : List Instr) :
    Accounting threshold t (execAll is c).context :=
  execAll_preserves (P := Accounting threshold t)
    (fun i _ h => h.changes i.exec_setup (i.changes _)) is h

/-- Calling native code. -/
lemma call {ir : IrLibrary} {entry} (h : Accounting threshold t c) :
    Accounting threshold t (resultContext (callEntry ir entry c)) := by
  unfold callEntry
  cases c.blockCache.nativeCode entry with
  | none => exact h
  | some native =>
    exact evalIr_preserves (P := Accounting threshold t)
      (fun insn f c h => h.changes (insn.exec_setup ir _ f c) (insn.exec_changes ir _ f c)) _ _ h

omit [Host σ] in
/-- Native code of a compiled block is called. -/
lemma enter {a block} (h : Accounting threshold t c) (hb : c.blockCache.blocks a = some block)
    (compiled : block.hasCompiledBlock = true) :
    Accounting threshold (Function.update t a (t a).enter) c := by
  have same : c.blockCache.blocks = Function.update c.blockCache.blocks a (some block) := by
    rw [← hb, Function.update_eq_self]
  exact h.update rfl rfl same ((h.blocks hb).enter compiled)

/-- A block that is interpreted. -/
lemma enterInterpreted {a block} (h : Accounting threshold t c) (cached : Consistent c.blockCache)
    (hb : c.blockCache.blocks a = some block) (hi : c.Interprets block) :
    Accounting threshold (Function.update t a (t a).interpret)
      (resultContext (enterBlock ir a block c)) := by
  obtain ⟨is, st, _, instructions⟩ := cached.shape hb
  obtain ⟨uncompiled, count⟩ := hi h.mode
  have of := (h.blocks hb).interpret uncompiled (h.jitThreshold ▸ count)
  have counted : Accounting threshold (Function.update t a (t a).interpret) (c.counted a) := by
    unfold ExecutionContext.counted
    rw [h.mode]
    refine h.update rfl rfl ?_ of
    simp only [withCache_blockCache, modifyBlock, hb, Option.map_some]
  have ran := counted.interpret is
  rw [enterBlock_of_interprets st instructions hi]
  cases x : execAll is (c.counted a) with
  | ok u d => rw [x] at ran; exact ran
  | error e d => rw [x] at ran; exact ran

variable (ir) in
/-- A block that is compiled, unless the library refuses to. -/
lemma enterCompiled {a block} (h : Accounting threshold t c) (cached : Consistent c.blockCache)
    (hb : c.blockCache.blocks a = some block) (hi : ¬ c.Interprets block)
    (uncompiled : block.hasCompiledBlock = false) :
    (∃ entry d, enterBlock ir a block c = .ok entry d ∧
        Accounting threshold (Function.update t a (t a).compile) d) ∨
      ∃ e d, enterBlock ir a block c = .error e d ∧ Accounting threshold t d := by
  obtain ⟨is, st, _, instructions⟩ := cached.shape hb
  obtain ⟨last, hl⟩ := st.exists_last
  have count : ¬ block.executionCount < threshold := fun lt =>
    hi fun _ => ⟨uncompiled, h.jitThreshold.symm ▸ lt⟩
  have slots : (slotsFor c.blockCache a is last).blocks a = some block := by
    rw [slotsFor_blocks, hb]
  rw [enterBlock_of_not_interprets hi, uncompiled, if_neg Bool.false_ne_true,
    compileAndPublish_toTI (cached.key hb) instructions hl]
  dsimp only
  split
  case isTrue =>
    have of := (h.blocks hb).compile uncompiled count (slotsFor c.blockCache a is last).compilations
    refine .inl ⟨_, _, rfl, h.update rfl rfl ?_ of⟩
    rw [withCache_blockCache, publish_blocks slots, slotsFor_blocks]
  case isFalse => exact .inr ⟨_, _, rfl, h.of_blocks rfl rfl (slotsFor_blocks _ _ _ _)⟩

end Accounting

/-- The tallies of a session of the JIT. -/
lemma Accounted.accounting {b t} (fresh : start.blockCache = start.blockCache.clear)
    (jit : start.mode = .jit) (h : Accounted ir start b t) :
    Accounting start.jitThreshold t b.context := by
  -- a block that was looked up is in a consistent cache
  have cached {c d : ExecutionContext σ} {t block} (reached : Accounted ir start ⟨c, 0⟩ t)
      (fetched : fetchBlock c = some (.ok block d)) : Consistent d.blockCache := by
    obtain ⟨cache, get, rfl⟩ := fetchBlock_ok fetched
    exact ((reached.driven.linked fresh).cache.getBlock_ok get).1
  induction h with
  | start =>
    refine ⟨jit, rfl, fun {a block} hb => ?_⟩
    rw [fresh] at hb
    cases hb
  | load filename file loadAddress _ ih => exact ih.load filename file loadAddress
  | fault _ fetched ih => exact ih.failed fetched
  | interpreted reached fetched et hi ih =>
    obtain ⟨h, hb⟩ := ih.fetched fetched
    subst et
    exact (h.enterInterpreted (cached reached fetched) hb hi).left
  | compiled reached fetched et hi uncompiled entered ih =>
    obtain ⟨h, hb⟩ := ih.fetched fetched
    subst et
    obtain ⟨_, _, entered', counted⟩ | ⟨_, _, refused, _⟩ :=
      h.enterCompiled ir (cached reached fetched) hb hi uncompiled
    · cases entered.symm.trans entered'
      exact counted
    · cases entered.symm.trans refused
  | @refused c t t' block d e d' reached fetched et hi refused ih =>
    obtain ⟨h, hb⟩ := ih.fetched fetched
    subst et
    refine Accounting.left (r := .error e d') ?_
    -- a compiled block is entered without compiling
    have uncompiled : block.hasCompiledBlock = false := by
      rw [Bool.eq_false_iff]
      intro compiled
      rw [enterBlock_of_not_interprets hi, if_pos compiled] at refused
      cases refused
    obtain ⟨_, _, entered, _⟩ | ⟨_, _, refused', counted⟩ :=
      h.enterCompiled ir (cached reached fetched) hb hi uncompiled
    · cases refused.symm.trans entered
    · cases refused.symm.trans refused'
      exact counted
  | native _ fetched et compiled hi ih =>
    obtain ⟨h, hb⟩ := ih.fetched fetched
    subst et
    rw [enterBlock_of_not_interprets hi, if_pos compiled]
    exact h.enter hb compiled
  | chained _ _ called ne hb owns ih =>
    subst called
    refine ih.call.left.enter hb ((hasCompiledBlock_iff _).mpr ?_)
    rw [owns]
    exact ne
  | returned _ _ called _ ih =>
    subst called
    exact ih.call.left

/-- In every session of a JIT with a threshold, a cached block that has been entered `k` times since
it was decoded has been counted, and interpreted, once for each of the first entries up to the
threshold. It is compiled exactly if it has been entered more often, and then it has been compiled
once. -/
theorem threshold_accounting {start : ExecutionContext σ}
    (fresh : start.blockCache = start.blockCache.clear) (jit : start.mode = .jit) :
    (∀ b, Driven ir start b ↔ ∃ t, Accounted ir start b t) ∧
    ∀ b t, Accounted ir start b t → ∀ a block, b.context.blockCache.blocks a = some block →
      let k := (t a).entered
      block.executionCount = min k start.jitThreshold ∧
      (block.hasCompiledBlock = true ↔ start.jitThreshold < k) ∧
      (t a).interpreted = min k start.jitThreshold ∧
      (t a).compiled = if start.jitThreshold < k then 1 else 0 := by
  refine ⟨fun b => ⟨fun h => h.accounted fresh, fun ⟨t, h⟩ => h.driven⟩, fun b t h a block hb => ?_⟩
  have of := (h.accounting fresh jit).blocks hb
  exact ⟨of.executionCount, of.hasCompiledBlock, of.interpreted, of.compiled⟩

/-- A block that jumps to itself, in the JIT with threshold 1. -/
def hotLoop : ExecutionContext Script := { selfLoop with mode := .jit, jitThreshold := 1 }

/-- The context after the first call of `step`, which interprets the block. -/
def hotLoopInterpreted : ExecutionContext Script :=
  (step .reference 1 hotLoop).elim hotLoop Outcome.context

/-- The block is interpreted once, compiled and entered again by its own code. -/
theorem threshold_accounting_loop :
    ∃ b t block, Accounted .reference hotLoop b t ∧
      b.context.blockCache.blocks 0 = some block ∧
      (t 0).entered = 3 ∧ block.executionCount = 1 ∧ (t 0).interpreted = 1 ∧
      block.hasCompiledBlock = true ∧ (t 0).compiled = 1 := by
  have first : Accounted .reference hotLoop ⟨hotLoop, 0⟩ fun _ => {} := .start
  have decoded : fetchBlock hotLoop = some (.ok _ _) := rfl
  have second : Accounted .reference hotLoop ⟨hotLoopInterpreted, 0⟩ _ :=
    first.interpreted decoded rfl (by decide)
  have again : fetchBlock hotLoopInterpreted = some (.ok _ _) := rfl
  have third := second.compiled again rfl (by decide) rfl rfl
  have fourth := third.chained (a := 0) (by decide) rfl (by decide) rfl rfl
  have told := (threshold_accounting empty_clear rfl).2 _ _ fourth 0 _ rfl
  exact ⟨_, _, _, fourth, rfl, rfl, told.1, told.2.2.1, told.2.1.mpr (by decide), told.2.2.2⟩

end ToyIsa
