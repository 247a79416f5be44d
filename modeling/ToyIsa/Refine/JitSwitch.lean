import ToyIsa.Block.Turn
import ToyIsa.Refine.Guest
import ToyIsa.Toy.Scripted

/-!
# The JIT agrees with the switch engine

The boundaries of a run of the switch engine and of a run of the JIT are related if the guest is in
the same state, the two caches show the same blocks and, for the JIT, the boundary is good. A block
of the switch engine is one turn of the JIT, or two where the JIT compiles the block first, and the
failure of a block is the turn of the JIT that faults and the one that stops
(`jit_simulates_switch`).
-/

namespace ToyIsa

open ExecutionContext TIBasicBlockCache Machine

variable {σ : Type}

/-- The guest is in the same state and the caches show the same blocks. -/
def SameView (c d : ExecutionContext σ) : Prop :=
  ∃ g, d = c.withEngine g ∧ g.blockCache.view = c.blockCache.view

/-- Two outcomes of one kind in related contexts. -/
inductive SameOutcome : Outcome σ → Outcome σ → Prop where
  | ok {c d} :
    SameView c d →
    SameOutcome (.ok () c) (.ok () d)
  | error {e c d} :
    SameView c d →
    SameOutcome (.error e c) (.error e d)

/-- What two engines agree on when a run stops. -/
structure Agree (c d : ExecutionContext σ) : Prop where
  status : d.state.status = c.state.status
  exitCode : d.state.exitCode = c.state.exitCode
  registers : d.cpu.registers = c.cpu.registers
  memory : d.memory = c.memory
  syscalls : d.syscalls = c.syscalls
  pc : c.state.status ≠ .faulted → d.cpu.pc = c.cpu.pc

/-- The context in the switch engine. -/
def ExecutionContext.inSwitch (c : ExecutionContext σ) : ExecutionContext σ :=
  { c with mode := .switch }

/-- The context in the JIT. -/
def ExecutionContext.inJit (c : ExecutionContext σ) (threshold : Nat) (level : Byte) :
    ExecutionContext σ :=
  { c with mode := .jit, jitThreshold := threshold, jitOptimizationLevel := level }

/-- The same state of the guest. -/
lemma SameView.agree {c d : ExecutionContext σ} (h : SameView c d) : Agree c d := by
  obtain ⟨g, rfl, _⟩ := h
  exact ⟨rfl, rfl, rfl, rfl, rfl, fun _ => rfl⟩

/-- A block cache changed on both sides. -/
lemma SameView.withCache {c d : ExecutionContext σ} (h : SameView c d) {cache cache'}
    (view : cache'.view = cache.view) : SameView (c.withCache cache) (d.withCache cache') := by
  obtain ⟨g, rfl, _⟩ := h
  exact ⟨{ g with blockCache := cache' }, rfl, view⟩

/-- The blocks of the two caches. -/
lemma SameView.view {c d : ExecutionContext σ} (h : SameView c d) :
    c.blockCache.view = d.blockCache.view := by
  obtain ⟨g, rfl, view⟩ := h
  exact view.symm

/-- The same blocks are fetched from two caches. -/
lemma SameView.fetched {c d : ExecutionContext σ} (same : SameView c d) :
    d.blockCache.getBlock d.cpu.pc d.memory = d.blockCache.getBlock c.cpu.pc c.memory := by
  obtain ⟨g, rfl, _⟩ := same
  rfl

/-- The status is part of the view. -/
lemma SameView.status {c d : ExecutionContext σ} (same : SameView c d) :
    d.state.status = c.state.status := by
  obtain ⟨g, rfl, _⟩ := same
  rfl

/-- The PC is part of the view. -/
lemma SameView.pc {c d : ExecutionContext σ} (same : SameView c d) : d.cpu.pc = c.cpu.pc := by
  obtain ⟨g, rfl, _⟩ := same
  rfl

/-- The entry point of a good boundary belongs to a valid block that is in both caches. -/
lemma SameView.of_entry {c : ExecutionContext σ} {t : Boundary σ} (same : SameView c t.context)
    (good : t.Good) (e0 : t.entry ≠ 0) :
    ∃ b, c.blockCache.blocks c.cpu.pc = some b ∧ b.valid = true := by
  obtain ⟨b', hb', hv', _⟩ := good.entry e0
  rw [same.pc] at hb'
  obtain ⟨b, hb, _, _, valid⟩ := view_some same.view.symm hb'
  exact ⟨b, hb, valid.trans hv'⟩

/-- Where no valid block is fetched there is no entry point. -/
lemma SameView.entry_eq_zero {c : ExecutionContext σ} {t : Boundary σ}
    (same : SameView c t.context) (good : t.Good)
    (fetched : ∀ b, c.blockCache.getBlock c.cpu.pc c.memory ≠ some (.ok b c.blockCache)) :
    t.entry = 0 := by
  by_contra e0
  obtain ⟨b, hb, hv⟩ := same.of_entry good e0
  exact fetched b (getBlock_of_valid hb hv)

/-- The switch engine interprets every block and does not count. -/
lemma interprets_of_switch {c : ExecutionContext σ} (switch : c.mode = .switch) (block) :
    c.Interprets block := fun jit => by
  rw [switch] at jit
  cases jit

/-- The switch engine does not count. -/
lemma counted_of_switch {c : ExecutionContext σ} (switch : c.mode = .switch) (k) :
    c.counted k = c := by
  unfold ExecutionContext.counted
  rw [switch]

/-- Invalidating the same ranges on both sides. -/
lemma view_foldl_invalidateRange {cache cache' : TIBasicBlockCache}
    (view : cache'.view = cache.view) (ranges : List TICodeRange) :
    (ranges.foldl (fun cache range => cache.invalidateRange range.address range.size)
      cache').view =
    (ranges.foldl (fun cache range => cache.invalidateRange range.address range.size)
      cache).view := by
  induction ranges generalizing cache cache' with
  | nil => exact view
  | cons range ranges ih =>
    refine ih ?_
    rw [view_invalidateRange, view_invalidateRange, view]

variable [Host σ]

/-- An instruction does the same on both sides. -/
lemma SameView.exec {c d : ExecutionContext σ} (h : SameView c d) (i : Instr) :
    SameOutcome (i.exec c) (i.exec d) := by
  obtain ⟨g, rfl, view⟩ := h
  rw [Instr.exec_withEngine]
  cases x : i.exec c with
  | error e c' =>
    obtain ⟨_, m, rfl, _⟩ := Instr.effect_error (Instr.exec_error_iff.mp x)
    refine .error ⟨_, rfl, ?_⟩
    by_cases hf : i = .flush
    · subst hf
      cases x
    · rw [EngineState.after, if_neg hf]
      exact view
  | ok u c' =>
    obtain ⟨c'', x', rfl⟩ := Instr.exec_ok_iff.mp x
    refine .ok ⟨_, rfl, ?_⟩
    by_cases hf : i = .flush
    · subst hf
      cases x'
      exact view_foldl_invalidateRange view c.memory.dirtyCodeRanges
    · rw [EngineState.after, if_neg hf, atPc_blockCache, Instr.effect_blockCache x' hf]
      exact view

/-- A block does the same on both sides. -/
lemma SameView.execAll {c d : ExecutionContext σ} (h : SameView c d) (is) :
    SameOutcome (execAll is c) (execAll is d) := by
  induction is generalizing c d with
  | nil => exact .ok h
  | cons i is ih =>
    have step := h.exec i
    unfold ToyIsa.execAll
    cases x : i.exec c with
    | error e c' =>
      rw [x] at step
      generalize i.exec d = r at step
      cases step with
      | error h' => exact .error h'
    | ok u c' =>
      rw [x] at step
      generalize i.exec d = r at step
      cases step with
      | ok h' => exact ih h'

/-- Instructions with the same representation run alike. -/
lemma execAll_congr {is is' : List Instr} (h : is.map Instr.toTI = is'.map Instr.toTI)
    (c : ExecutionContext σ) : execAll is c = execAll is' c := by
  rw [← executeInstructions_toTI, ← executeInstructions_toTI, h]

/-- A block keeps the engine. -/
lemma execAll_mode {is : List Instr} {c d : ExecutionContext σ} (h : execAll is c = .ok () d) :
    d.mode = c.mode := by
  induction is generalizing c with
  | nil => cases h; rfl
  | cons i is ih =>
    unfold execAll at h
    cases x : i.exec c with
    | error e c' => rw [x] at h; cases h
    | ok u c' =>
      rw [x] at h
      obtain ⟨c'', x', rfl⟩ := Instr.exec_ok_iff.mp x
      exact (ih h).trans (Instr.effect_frame x').mode

/-- The boundaries of a run of the switch engine and of a run of the JIT. -/
structure JitRel (s t : Boundary σ) : Prop where
  good : s.Good
  entry : s.entry = 0
  mode : s.context.mode = .switch
  jit : t.Good
  same : SameView s.context t.context

variable {ir : IrLibrary}

/-- What the switch engine does with a block, the native code of the block does too. -/
lemma native_matches (doc : ir.Documented) {c : ExecutionContext σ} {t : Boundary σ} {block is}
    (hb : c.blockCache.blocks c.cpu.pc = some block) (isBlock : IsBlock block is)
    (same : SameView c t.context) (good : t.Good) (e0 : t.entry ≠ 0) :
    (∀ c', execAll is c = .ok () c' →
      ∃ t', blockStep ir t = .inl t' ∧ t'.Good ∧ SameView c' t'.context) ∧
    (∀ e c', execAll is c = .error e c' →
      ∃ d, Halts (blockStep ir) t (.ok () d) ∧ Agree c'.fault d) := by
  have turn := turn_of_good doc good
  generalize next : blockStep ir t = r at turn
  have good' := (turn.good good).1
  cases turn with
  | @native d entry block' is' last _ running hb' valid isBlock' hl =>
    have guest := same
    obtain ⟨g, rfl, _⟩ := guest
    obtain ⟨b', hb'', _, instructions, _⟩ := view_some same.view hb
    have eb : b' = block' := Option.some.inj (hb''.symm.trans hb')
    subst eb
    -- the native code is that of the instructions of the block
    have run (x : ExecutionContext σ) : execAll is x = execAll is' x :=
      execAll_congr (isBlock.instructions.symm.trans
        (instructions.symm.trans isBlock'.instructions)) x
    have both := same.execAll is'
    rw [← run c] at both
    refine ⟨fun c' x => ?_, fun e c' x => ?_⟩
    · rw [x] at both
      cases y : execAll is' (c.withEngine g) with
      | error e d => simp only [y] at both; cases both
      | ok u d =>
        simp only [y] at both
        cases both with
        | ok same' =>
          have native := nativeRun_of_ok isBlock'.straight running y (c.withEngine g).cpu.pc
          refine ⟨_, rfl, good' _ rfl, ?_⟩
          rw [native]
          split <;> exact same'
    · rw [x] at both
      cases y : execAll is' (c.withEngine g) with
      | ok u d => simp only [y] at both; cases both
      | error e d =>
        simp only [y] at both
        cases both with
        | error same' =>
          obtain ⟨pre, i, post, d', rfl, hp, hx⟩ := execAll_error y
          have native := nativeRun_of_error isBlock'.straight running hp hx (c.withEngine g).cpu.pc
          rw [native] at next
          refine ⟨_, Halts.head next (.stop (blockStep_stopped ?_)), ?_⟩
          · split <;> exact nofun
          · obtain ⟨g', rfl, _⟩ := same'
            split <;> exact ⟨rfl, rfl, rfl, rfl, rfl, fun ne => absurd rfl ne⟩
  | _ => exact absurd rfl e0

/-- A block that the switch engine fetches and runs is matched by one or two turns of the JIT. -/
lemma block_matches (doc : ir.Documented) (compiles : ir.Compiles) {c : ExecutionContext σ}
    {t : Boundary σ} {block cache is} (hc : Consistent c.blockCache)
    (running : c.state.status = .running)
    (fetched : c.blockCache.getBlock c.cpu.pc c.memory = some (.ok block cache))
    (isBlock : IsBlock block is) (same : SameView c t.context) (good : t.Good) :
    (∀ c', execAll is (c.withCache cache) = .ok () c' →
      ∃ u' t', blockStep ir t = .inl u' ∧ Reach (blockStep ir) u' t' ∧ t'.Good ∧
        SameView c' t'.context) ∧
    (∀ e c', execAll is (c.withCache cache) = .error e c' →
      ∃ o, Halts (blockStep ir) t o ∧ Agree c'.fault o.context) := by
  obtain ⟨_, hb, _⟩ := hc.getBlock_ok fetched
  by_cases e0 : t.entry = 0
  case neg =>
    -- the JIT has the entry point of a valid block, so the switch engine has that block as well
    obtain ⟨b, hb0, hv0⟩ := same.of_entry good e0
    rw [getBlock_of_valid hb0 hv0] at fetched
    cases fetched
    obtain ⟨ok, error⟩ := native_matches doc hb0 isBlock same good e0
    refine ⟨fun c' x => ?_, fun e c' x => ?_⟩
    · obtain ⟨t', next, good', same'⟩ := ok c' x
      exact ⟨t', t', next, .refl, good', same'⟩
    · obtain ⟨d, halts, agree⟩ := error e c' x
      exact ⟨_, halts, agree⟩
  case pos =>
    obtain ⟨d, entry⟩ := t
    obtain rfl : entry = 0 := e0
    have turn := turn_of_good doc good
    generalize next : blockStep ir ⟨d, 0⟩ = r at turn
    have good' := (turn.good good).1
    -- the JIT fetches the same instructions
    have get := view_getBlock same.view c.cpu.pc c.memory
    rw [fetched, ← same.fetched] at get
    obtain ⟨get, _⟩ | ⟨_, _, _, get, _⟩ | ⟨b, b', cache1, cache', get, get', view,
      instructions⟩ := get
    · cases get
    · cases get
    obtain ⟨rfl, rfl⟩ : b = block ∧ cache1 = cache := by
      cases get
      exact ⟨rfl, rfl⟩
    cases turn with
    | stopped ne => exact absurd (same.status.trans running) ne
    | diverges _ f => rw [get'] at f; cases f
    | fault _ f => rw [get'] at f; cases f
    | native ne => exact absurd rfl ne
    | failed _ _ _ _ _ no => rw [compiles] at no; cases no
    | @interpreted _ b2 cache2 is' _ f _ isBlock' =>
      rw [get'] at f
      cases f
      have run (x : ExecutionContext σ) : execAll is x = execAll is' x :=
        execAll_congr (isBlock.instructions.symm.trans
          (instructions.symm.trans isBlock'.instructions)) x
      obtain ⟨cache3, e3, view3, _⟩ := counted_eq (d.withCache cache') d.cpu.pc
      have same' : SameView (c.withCache cache1) ((d.withCache cache').counted d.cpu.pc) := by
        rw [e3]
        exact same.withCache (view3.trans view.symm)
      have both := same'.execAll is'
      rw [← run (c.withCache cache1)] at both
      refine ⟨fun c' x => ?_, fun e c' x => ?_⟩
      · rw [x] at both
        generalize execAll (σ := σ) is' _ = r at both next good'
        cases both with
        | ok same2 => exact ⟨_, _, rfl, .refl, good' _ rfl, same2⟩
      · rw [x] at both
        generalize execAll (σ := σ) is' _ = r at both next
        cases both with
        | error same2 =>
          refine ⟨_, .stop next, ?_⟩
          obtain ⟨g', rfl, _⟩ := same2
          exact ⟨rfl, rfl, rfl, rfl, rfl, fun _ => rfl⟩
    | @prepared _ b2 cache2 cache3 entry _ f _ view3 e0 good3 =>
      rw [get'] at f
      cases f
      have same' : SameView (c.withCache cache1) (d.withCache cache3) :=
        same.withCache (view3.trans view.symm)
      obtain ⟨ok, error⟩ := native_matches (c := c.withCache cache1)
        (t := ⟨d.withCache cache3, entry⟩) doc hb isBlock same' good3 e0
      refine ⟨fun c' x => ?_, fun e c' x => ?_⟩
      · obtain ⟨t', next', good4, same4⟩ := ok c' x
        exact ⟨_, t', rfl, .single next', good4, same4⟩
      · obtain ⟨d', halts, agree⟩ := error e c' x
        exact ⟨_, halts.head next, agree⟩

/-- A block of the switch engine that does not fail. -/
lemma switch_step (doc : ir.Documented) (compiles : ir.Compiles) {s t s' : Boundary σ}
    (rel : JitRel s t) (next : blockStep ir s = .inl s') :
    ∃ u' t', blockStep ir t = .inl u' ∧ Reach (blockStep ir) u' t' ∧ JitRel s' t' := by
  obtain ⟨c, entry⟩ := s
  obtain rfl : entry = 0 := rel.entry
  have switch : c.mode = .switch := rel.mode
  have same : SameView c t.context := rel.same
  have turn := turn_of_good doc rel.good
  rw [next] at turn
  have good' := (turn.good rel.good).1 s' rfl
  generalize er : (Sum.inl s' : Boundary σ ⊕ Outcome σ) = r at turn
  cases turn with
  | stopped | fault | failed => cases er
  | native ne => exact absurd rfl ne
  | prepared _ _ ne => exact absurd (interprets_of_switch switch _) ne
  | diverges running none =>
    cases er
    -- the JIT has no valid block either, and decoding one never ends
    obtain ⟨d, entry⟩ := t
    obtain rfl : entry = 0 := same.entry_eq_zero rel.jit fun b => by rw [none]; exact nofun
    have none' : d.blockCache.getBlock d.cpu.pc d.memory = Option.none := by
      rw [same.fetched]
      obtain ⟨_, get⟩ | ⟨_, _, _, get, _⟩ | ⟨_, _, _, _, get, _⟩ :=
        view_getBlock same.view c.cpu.pc c.memory
      · exact get
      · rw [none] at get; cases get
      · rw [none] at get; cases get
    have next' : blockStep ir ⟨d, 0⟩ = .inl ⟨d, 0⟩ := by
      rw [blockStep_running _ (same.status.trans running), fetchBlock, none']
    exact ⟨_, _, next', .refl, rel⟩
  | @interpreted _ block cache is running fetched _ isBlock =>
    obtain ⟨ok, _⟩ := block_matches doc compiles rel.good.cache running fetched isBlock same rel.jit
    rw [counted_of_switch (c := c.withCache cache) switch] at er
    cases x : execAll is (c.withCache cache) with
    | error e d => rw [x] at er; cases er
    | ok u d =>
      rw [x] at er
      cases er
      obtain ⟨u', t', next', st, good4, same4⟩ := ok d x
      exact ⟨u', t', next', st, good', rfl, (execAll_mode x).trans switch, good4, same4⟩

/-- A turn that stops the switch engine. -/
lemma switch_stop (doc : ir.Documented) (compiles : ir.Compiles) {s t : Boundary σ} {o}
    (rel : JitRel s t) (next : blockStep ir s = .inr o) :
    ∃ o', Halts (blockStep ir) t o' ∧ Agree o.context o'.context := by
  obtain ⟨c, entry⟩ := s
  obtain rfl : entry = 0 := rel.entry
  have switch : c.mode = .switch := rel.mode
  have same : SameView c t.context := rel.same
  have turn := turn_of_good doc rel.good
  rw [next] at turn
  generalize er : (Sum.inr o : Boundary σ ⊕ Outcome σ) = r at turn
  cases turn with
  | diverges | prepared | native => cases er
  | failed _ _ ne => exact absurd (interprets_of_switch switch _) ne
  | stopped ne =>
    cases er
    -- an entry point is called in a running context only
    have e0 : t.entry = 0 := by
      by_contra e0
      exact ne (same.status.symm.trans (rel.jit.running e0))
    obtain ⟨d, entry⟩ := t
    obtain rfl : entry = 0 := e0
    exact ⟨_, .stop (blockStep_stopped fun run => ne (same.status.symm.trans run)), same.agree⟩
  | @fault _ e cache running fetched =>
    cases er
    obtain ⟨d, entry⟩ := t
    obtain rfl : entry = 0 := same.entry_eq_zero rel.jit fun b => by rw [fetched]; exact nofun
    -- the JIT sees the same blocks, so its look-up fails in the same way
    obtain ⟨get, _⟩ | ⟨e', cache1, cache', get, get', view⟩ | ⟨_, _, _, _, get, _⟩ :=
      view_getBlock same.view c.cpu.pc c.memory
    · rw [fetched] at get; cases get
    · rw [fetched] at get
      cases get
      have next' : blockStep ir ⟨d, 0⟩ = .inr (.error e (d.withCache cache')) := by
        rw [blockStep_running _ (same.status.trans running), fetchBlock, same.fetched, get']
        rfl
      exact ⟨_, .stop next', (same.withCache view.symm).agree⟩
    · rw [fetched] at get; cases get
  | @interpreted _ block cache is running fetched _ isBlock =>
    obtain ⟨_, error⟩ :=
      block_matches doc compiles rel.good.cache running fetched isBlock same rel.jit
    rw [counted_of_switch (c := c.withCache cache) switch] at er
    cases x : execAll is (c.withCache cache) with
    | ok u d => rw [x] at er; cases er
    | error e d =>
      rw [x] at er
      cases er
      exact error e d x

/-- The JIT simulates the switch engine. -/
theorem jit_simulates_switch (doc : ir.Documented) (compiles : ir.Compiles) :
    Simulates (blockStep (σ := σ) ir) (blockStep ir) JitRel
      (fun o o' => Agree o.context o'.context) where
  step _ _ _ rel next := switch_step doc compiles rel next
  stop _ _ _ rel next := switch_stop doc compiles rel next

/-- The JIT agrees with the switch engine on whole runs from an empty block cache, whatever its
threshold and optimisation level. -/
theorem jit_agrees_with_switch (doc : ir.Documented) (compiles : ir.Compiles)
    (c : ExecutionContext σ) (empty : c.blockCache = c.blockCache.clear) (threshold level) :
    ((∃ o, Runs ir c.inSwitch o) ↔ ∃ o, Runs ir (c.inJit threshold level) o) ∧
    ∀ o o', Runs ir c.inSwitch o → Runs ir (c.inJit threshold level) o' →
      Agree o.context o'.context := by
  have hc : Consistent c.blockCache := empty ▸ Consistent.clear c.blockCache
  have rel : JitRel ⟨c.inSwitch, 0⟩ ⟨c.inJit threshold level, 0⟩ :=
    ⟨.zero hc, rfl, rfl, .zero hc, (c.inJit threshold level).engine, rfl, rfl⟩
  have sim := jit_simulates_switch (σ := σ) doc compiles
  simp only [runs_iff_halts]
  refine ⟨⟨?_, ?_⟩, ?_⟩
  · rintro ⟨o, h⟩
    obtain ⟨o', h', _⟩ := sim.halts rel h
    exact ⟨o', h'⟩
  · rintro ⟨o', h'⟩
    obtain ⟨o, h, _⟩ := sim.halted rel h'
    exact ⟨o, h⟩
  · intro o o' h h'
    obtain ⟨o1, h1, agree⟩ := sim.halts rel h
    rw [h'.unique h1]
    exact agree

/-- With threshold 1 the JIT compiles both blocks of the loop. -/
theorem jit_agrees_with_switch_loop :
    ∃ o o', Runs .reference countLoop.inSwitch o ∧ Runs .reference (countLoop.inJit 1 2) o' ∧
      o'.context.blockCache.compilations = 2 ∧ o'.context.state.exitCode = 4 ∧
      Agree o.context o'.context := by
  have ends : (run .reference 20 (countLoop.inJit 1 2)).map (fun o' =>
      (o'.context.blockCache.compilations, o'.context.state.exitCode)) = some (2, 4) := by
    decide +kernel
  obtain ⟨o', runs', facts⟩ := Option.map_eq_some_iff.mp ends
  obtain ⟨compiled, exited⟩ := Prod.mk.inj facts
  obtain ⟨both, agree⟩ := jit_agrees_with_switch IrLibrary.reference_documented
    IrLibrary.reference_compiles countLoop empty_clear 1 2
  obtain ⟨o, runs⟩ := both.mpr ⟨o', 20, runs'⟩
  exact ⟨o, o', runs, ⟨20, runs'⟩, compiled, exited, agree o o' runs ⟨20, runs'⟩⟩

end ToyIsa
