import ToyIsa.Refine.JitSwitch

/-!
# What the JIT visits

The IR library may refuse to compile a block at any point of a run, and a run may go on for ever. So
`Behind` relates the boundaries of the two engines the other way round than `JitRel`: the JIT goes
first, and the switch engine follows with a block at a time. Whatever the library does, each state
of the guest that the JIT visits is one that the switch engine visits (`jit_visits_switch`), and if
the library compiles every block then the JIT also visits all of them
(`engines_visit_same`).
-/

namespace ToyIsa

open ExecutionContext TIBasicBlockCache Machine

variable {σ : Type}

/-- The same state of the guest, with the PC. -/
lemma Agree.trans {c d e : ExecutionContext σ} (h : Agree c d) (h' : Agree d e) : Agree c e where
  status := h'.status.trans h.status
  exitCode := h'.exitCode.trans h.exitCode
  registers := h'.registers.trans h.registers
  memory := h'.memory.trans h.memory
  syscalls := h'.syscalls.trans h.syscalls
  pc ne := (h'.pc (h.status ▸ ne)).trans (h.pc ne)

/-- Another block cache is no other state of the guest. -/
lemma agree_withCache (c : ExecutionContext σ) (cache) : Agree c (c.withCache cache) :=
  ⟨rfl, rfl, rfl, rfl, rfl, fun _ => rfl⟩

/-- Agreement does not depend on the cache. -/
lemma Agree.of_withCache {c d : ExecutionContext σ} {cache} (h : Agree (c.withCache cache) d) :
    Agree c d := (agree_withCache c cache).trans h

variable [Host σ] {ir : IrLibrary}

/-- A context between two blocks of a run, or at its end. -/
inductive Visited (ir : IrLibrary) (start : ExecutionContext σ) : ExecutionContext σ → Prop where
  | between {b} :
    Reach (blockStep ir) ⟨start, 0⟩ b →
    Visited ir start b.context
  | last {o} :
    Runs ir start o →
    Visited ir start o.context

/-- A boundary of the switch engine that the JIT is not behind: they are level, the JIT has fetched
and compiled the next block, or native code has taken the fault that stops the switch engine. -/
inductive Behind (ir : IrLibrary) (s t : Boundary σ) : Prop where
  | level :
    JitRel s t →
    Behind ir s t
  | fetched {block cache is} :
    s.Good →
    s.entry = 0 →
    s.context.mode = .switch →
    s.context.state.status = .running →
    s.context.blockCache.getBlock s.context.cpu.pc s.context.memory = some (.ok block cache) →
    IsBlock block is →
    t.Good →
    t.entry ≠ 0 →
    SameView (s.context.withCache cache) t.context →
    Behind ir s t
  | stopped {o} :
    blockStep ir s = .inr o →
    t.entry = 0 →
    t.context.state.status ≠ .running →
    Agree o.context t.context →
    Behind ir s t

/-- A compilation that the library has refused. -/
def Refused (ir : IrLibrary) (o : Outcome σ) : Prop :=
  ∃ n level code d, ir.jitCompile n level code = false ∧
    o = .error (.runtime "IR failed to compile a basic block") d

/-- A block that the switch engine fetches is interpreted. -/
lemma blockStep_switch {c : ExecutionContext σ} {block cache is} (switch : c.mode = .switch)
    (running : c.state.status = .running)
    (get : c.blockCache.getBlock c.cpu.pc c.memory = some (.ok block cache))
    (isBlock : IsBlock block is) :
    blockStep ir ⟨c, 0⟩ = afterInterpreted (execAll is (c.withCache cache)) := by
  have hi : (c.withCache cache).Interprets block := interprets_of_switch switch block
  rw [blockStep_running _ running, fetchBlock, get]
  show Boundary.after (enterBlock ir c.cpu.pc block (c.withCache cache)) = _
  rw [enterBlock_of_interprets isBlock.straight isBlock.instructions hi,
    counted_of_switch (c := c.withCache cache) switch]
  cases x : execAll is (c.withCache cache) with
  | ok u d => rfl
  | error e d =>
    exact congrArg Sum.inr (catchSimulation_of_isSimulation (execAll_isSimulation x) d)

/-- Native code whose block fails faults the context. -/
lemma nativeRun_fails {is : List Instr} (st : Straight is) {c d : ExecutionContext σ} {e}
    (running : c.state.status = .running) (x : execAll is c = .error e d) (pc) :
    ∃ d', nativeRun pc is c = .error d' ∧ d'.state.status = .faulted ∧ Agree d.fault d' := by
  obtain ⟨pre, i, post, d₀, rfl, hp, hx⟩ := execAll_error x
  rw [nativeRun_of_error st running hp hx]
  refine ⟨_, rfl, ?_⟩
  split
  · exact ⟨rfl, rfl, rfl, rfl, rfl, rfl, fun _ => rfl⟩
  · exact ⟨rfl, rfl, rfl, rfl, rfl, rfl, fun ne => absurd rfl ne⟩

/-- Native code does what the switch engine does with the block. -/
lemma native_covers (doc : ir.Documented) {c : ExecutionContext σ} {t t' : Boundary σ} {block is}
    (hb : c.blockCache.blocks c.cpu.pc = some block) (isBlock : IsBlock block is)
    (same : SameView c t.context) (good : t.Good) (e0 : t.entry ≠ 0)
    (next : blockStep ir t = .inl t') :
    (∃ c', execAll is c = .ok () c' ∧ t'.Good ∧ SameView c' t'.context) ∨
    ∃ e c', execAll is c = .error e c' ∧ t'.entry = 0 ∧ t'.context.state.status ≠ .running ∧
      Agree c'.fault t'.context := by
  cases x : execAll is c with
  | ok u c' =>
    obtain ⟨t'', next', good', same'⟩ := (native_matches doc hb isBlock same good e0).1 c' x
    rw [next] at next'
    cases next'
    exact .inl ⟨c', rfl, good', same'⟩
  | error e c' =>
    have turn := turn_of_good doc good
    rw [next] at turn
    generalize er : (Sum.inl t' : Boundary σ ⊕ Outcome σ) = r at turn
    cases turn with
    | @native d entry block' is' last _ running hb' valid isBlock' hl =>
      cases er
      obtain ⟨b, hb'', _, instructions, _⟩ := view_some same.view hb
      rw [← same.pc] at hb''
      obtain rfl : b = block' := Option.some.inj (hb''.symm.trans hb')
      -- the same block fails in the same way in the context of the JIT
      have both := same.execAll is
      rw [x, execAll_congr (isBlock.instructions.symm.trans
        (instructions.symm.trans isBlock'.instructions)) d] at both
      cases y : execAll is' d with
      | ok u d' => rw [y] at both; cases both
      | error e' d' =>
        rw [y] at both
        cases both with
        | error same' =>
          obtain ⟨d'', run, faulted, agree⟩ :=
            nativeRun_fails isBlock'.straight running y d.cpu.pc
          refine .inr ⟨e, c', rfl, ?_⟩
          rw [run]
          refine ⟨rfl, ?_, .trans ?_ agree⟩
          · show d''.state.status ≠ .running
            rw [faulted]
            exact nofun
          · obtain ⟨g, rfl, _⟩ := same'
            exact ⟨rfl, rfl, rfl, rfl, rfl, fun ne => absurd rfl ne⟩
    | _ => exact absurd rfl e0

/-- The switch engine follows native code. -/
lemma behind_native (doc : ir.Documented) {c : ExecutionContext σ} {t t' : Boundary σ}
    {block cache is} (hs : Boundary.Good ⟨c, 0⟩) (switch : c.mode = .switch)
    (running : c.state.status = .running)
    (get : c.blockCache.getBlock c.cpu.pc c.memory = some (.ok block cache))
    (isBlock : IsBlock block is) (good : t.Good) (e0 : t.entry ≠ 0)
    (same : SameView (c.withCache cache) t.context) (next : blockStep ir t = .inl t') :
    ∃ s', Reach (blockStep ir) ⟨c, 0⟩ s' ∧ Behind ir s' t' := by
  have step := @blockStep_switch _ _ ir _ _ _ _ switch running get isBlock
  obtain ⟨_, hb, _⟩ := hs.cache.getBlock_ok get
  obtain ⟨c', x, good', same'⟩ | ⟨e, c', x, entry, stopped, agree⟩ :=
    native_covers doc (c := c.withCache cache) hb isBlock same good e0 next
  · rw [x] at step
    refine ⟨⟨c', 0⟩, .single step, .level ⟨?_, rfl, (execAll_mode x).trans switch, good', same'⟩⟩
    exact hs.reach doc (.single step)
  · rw [x] at step
    exact ⟨_, .refl, .stopped step entry stopped agree⟩

omit [Host σ] in
/-- What the JIT fetches, the switch engine fetches. -/
lemma JitRel.fetches {c d : ExecutionContext σ} {block' cache'} (rel : JitRel ⟨c, 0⟩ ⟨d, 0⟩)
    (get' : d.blockCache.getBlock d.cpu.pc d.memory = some (.ok block' cache')) :
    ∃ block cache is, c.blockCache.getBlock c.cpu.pc c.memory = some (.ok block cache) ∧
      IsBlock block is ∧ cache'.view = cache.view ∧ block'.instructions = block.instructions := by
  have same : SameView c d := rel.same
  rw [same.fetched] at get'
  obtain ⟨_, none⟩ | ⟨_, _, _, _, error, _⟩ | ⟨b, b', cache, _, get, ok, view, instructions⟩ :=
    view_getBlock same.view c.cpu.pc c.memory
  · rw [none] at get'; cases get'
  · rw [error] at get'; cases get'
  · rw [ok] at get'
    cases get'
    obtain ⟨hc, hb, _⟩ := rel.good.cache.getBlock_ok get
    obtain ⟨is, isBlock⟩ := hc.isBlock hb
    exact ⟨b, cache, is, get, isBlock, view.symm, instructions⟩

/-- What the JIT interprets, the switch engine interprets. -/
lemma JitRel.interprets (ir : IrLibrary) {c d : ExecutionContext σ} {block' cache' is'}
    (rel : JitRel ⟨c, 0⟩ ⟨d, 0⟩) (running : d.state.status = .running)
    (get' : d.blockCache.getBlock d.cpu.pc d.memory = some (.ok block' cache'))
    (isBlock' : IsBlock block' is') :
    ∃ cache is, blockStep ir ⟨c, 0⟩ = afterInterpreted (execAll is (c.withCache cache)) ∧
      SameOutcome (execAll is (c.withCache cache))
        (execAll is' ((d.withCache cache').counted d.cpu.pc)) ∧
      ∀ c', execAll is (c.withCache cache) = .ok () c' → c'.mode = .switch := by
  have same : SameView c d := rel.same
  have switch : c.mode = .switch := rel.mode
  obtain ⟨block, cache, is, get, isBlock, view, instructions⟩ := rel.fetches get'
  refine ⟨cache, is, blockStep_switch switch (same.status.symm.trans running) get isBlock, ?_,
    fun c' x => (execAll_mode x).trans switch⟩
  obtain ⟨counted, e', view', _⟩ := counted_eq (d.withCache cache') d.cpu.pc
  have same' : SameView (c.withCache cache) ((d.withCache cache').counted d.cpu.pc) := by
    rw [e']
    exact same.withCache (view'.trans view)
  rw [← execAll_congr (isBlock.instructions.symm.trans
    (instructions.symm.trans isBlock'.instructions)) ((d.withCache cache').counted d.cpu.pc)]
  exact same'.execAll is

/-- The switch engine follows a turn of the JIT in front of the dispatch loop. -/
lemma behind_dispatch (doc : ir.Documented) {c d : ExecutionContext σ} {t' : Boundary σ}
    (rel : JitRel ⟨c, 0⟩ ⟨d, 0⟩) (next : blockStep ir ⟨d, 0⟩ = .inl t') :
    ∃ s', Reach (blockStep ir) ⟨c, 0⟩ s' ∧ Behind ir s' t' := by
  have turn := turn_of_good doc rel.jit
  rw [next] at turn
  have good' := (turn.good rel.jit).1 t' rfl
  generalize er : (Sum.inl t' : Boundary σ ⊕ Outcome σ) = r at turn
  cases turn with
  | stopped | fault | failed => cases er
  | native e0 => exact absurd rfl e0
  | diverges =>
    cases er
    exact ⟨_, .refl, .level rel⟩
  | interpreted running get' _ isBlock' =>
    obtain ⟨cache, is, step, both, switch⟩ := rel.interprets ir running get' isBlock'
    generalize x : execAll is (c.withCache cache) = o at step both switch
    generalize execAll (σ := σ) _ _ = o' at er both
    cases both with
    | error => cases er
    | @ok c' d' same' =>
      cases er
      refine ⟨⟨c', 0⟩, .single step, .level ⟨?_, rfl, switch c' rfl, good', same'⟩⟩
      exact rel.good.reach doc (.single step)
  | prepared running get' _ view' e0 good3 =>
    cases er
    have same : SameView c d := rel.same
    obtain ⟨block, cache, is, get, isBlock, view, _⟩ := rel.fetches get'
    exact ⟨_, .refl, .fetched rel.good rfl rel.mode (same.status.symm.trans running) get isBlock
      good3 e0 (same.withCache (view'.trans view))⟩

/-- The switch engine follows a turn of the JIT. -/
lemma behind_step (doc : ir.Documented) {s t t' : Boundary σ} (rel : Behind ir s t)
    (next : blockStep ir t = .inl t') : ∃ s', Reach (blockStep ir) s s' ∧ Behind ir s' t' := by
  obtain ⟨c, entry⟩ := s
  cases rel with
  | level rel =>
    obtain rfl : entry = 0 := rel.entry
    by_cases e0 : t.entry = 0
    case pos =>
      obtain ⟨d, entry⟩ := t
      obtain rfl : entry = 0 := e0
      exact behind_dispatch doc rel next
    case neg =>
      -- the entry point is that of a block which the switch engine has as well
      obtain ⟨b, hb, valid⟩ := rel.same.of_entry rel.jit e0
      obtain ⟨is, isBlock⟩ := rel.good.cache.isBlock hb
      exact behind_native doc rel.good rel.mode (rel.same.status.symm.trans (rel.jit.running e0))
        (getBlock_of_valid hb valid) isBlock rel.jit e0 rel.same next
  | fetched hs entry switch running get isBlock good e0 same =>
    subst entry
    exact behind_native doc hs switch running get isBlock good e0 same next
  | stopped _ entry stopped =>
    obtain ⟨d, entry⟩ := t
    subst entry
    rw [blockStep_stopped stopped] at next
    cases next

/-- Native code leaves the stop to the dispatch loop. -/
lemma entry_of_stop (doc : ir.Documented) {t : Boundary σ} (good : t.Good) {o'}
    (next : blockStep ir t = .inr o') : t.entry = 0 := by
  by_contra e0
  have turn := turn_of_good doc good
  rw [next] at turn
  generalize er : (Sum.inr o' : Boundary σ ⊕ Outcome σ) = r at turn
  cases turn with
  | native => cases er
  | _ => exact absurd rfl e0

/-- Where the dispatch loop of the JIT stops, the switch engine stops too unless a compilation was
refused. -/
lemma dispatch_stop (doc : ir.Documented) {c d : ExecutionContext σ}
    (rel : JitRel ⟨c, 0⟩ ⟨d, 0⟩) {o'} (next : blockStep ir ⟨d, 0⟩ = .inr o') :
    (∃ o, blockStep ir ⟨c, 0⟩ = .inr o ∧ Agree o.context o'.context) ∨
      Refused ir o' ∧ Agree c o'.context := by
  have same : SameView c d := rel.same
  have turn := turn_of_good doc rel.jit
  rw [next] at turn
  generalize er : (Sum.inr o' : Boundary σ ⊕ Outcome σ) = r at turn
  cases turn with
  | diverges | prepared | native => cases er
  | stopped ne =>
    cases er
    exact .inl ⟨_, blockStep_stopped fun run => ne (same.status.trans run), same.agree⟩
  | @failed _ _ _ cache' n level code _ _ _ _ _ refused =>
    cases er
    exact .inr ⟨⟨n, level, code, _, refused, rfl⟩, same.agree.trans (agree_withCache d cache')⟩
  | @fault _ e cache' running get' =>
    cases er
    rw [same.fetched] at get'
    obtain ⟨_, none⟩ | ⟨_, cache, _, get, error, view⟩ | ⟨_, _, _, _, _, ok, _⟩ :=
      view_getBlock same.view c.cpu.pc c.memory
    · rw [none] at get'; cases get'
    · rw [error] at get'
      cases get'
      refine .inl ⟨.error e (c.withCache cache), ?_, (same.withCache view.symm).agree⟩
      rw [blockStep_running _ (same.status.symm.trans running), fetchBlock, get]
      rfl
    · rw [ok] at get'; cases get'
  | interpreted running get' _ isBlock' =>
    obtain ⟨cache, is, step, both, _⟩ := rel.interprets ir running get' isBlock'
    generalize execAll is (c.withCache cache) = o at step both
    generalize execAll (σ := σ) _ _ = o' at er both
    cases both with
    | ok => cases er
    | @error e c' d' same' =>
      cases er
      refine .inl ⟨_, step, ?_⟩
      obtain ⟨g, rfl, _⟩ := same'
      exact ⟨rfl, rfl, rfl, rfl, rfl, fun _ => rfl⟩

/-- Where the JIT stops, the switch engine stops too unless a compilation was refused. -/
lemma behind_stop (doc : ir.Documented) {s t : Boundary σ} {o'} (rel : Behind ir s t)
    (next : blockStep ir t = .inr o') :
    (∃ o, blockStep ir s = .inr o ∧ Agree o.context o'.context) ∨
      Refused ir o' ∧ Agree s.context o'.context := by
  obtain ⟨c, entry⟩ := s
  obtain ⟨d, entry'⟩ := t
  cases rel with
  | fetched _ _ _ _ _ _ good e0 => exact absurd (entry_of_stop doc good next) e0
  | stopped stop entry stopped agree =>
    obtain rfl : entry' = 0 := entry
    rw [blockStep_stopped stopped] at next
    cases next
    exact .inl ⟨_, stop, agree⟩
  | level rel =>
    obtain rfl : entry = 0 := rel.entry
    obtain rfl : entry' = 0 := entry_of_stop doc rel.jit next
    exact dispatch_stop doc rel next

/-- The guest is in the same state, or will be when the switch engine stops. -/
lemma Behind.visited {c : ExecutionContext σ} {s t : Boundary σ}
    (run : Reach (blockStep ir) ⟨c, 0⟩ s) (rel : Behind ir s t) :
    ∃ d, Visited ir c d ∧ Agree d t.context := by
  cases rel with
  | level rel => exact ⟨_, .between run, rel.same.agree⟩
  | fetched _ _ _ _ _ _ _ _ same => exact ⟨_, .between run, same.agree.of_withCache⟩
  | stopped stop _ _ agree =>
    exact ⟨_, .last (runs_iff_halts.mpr (.of_reach run (.stop stop))), agree⟩

/-- The switch engine follows a run of the JIT. -/
lemma JitRel.follow (doc : ir.Documented) {s t t' : Boundary σ} (rel : JitRel s t)
    (run' : Reach (blockStep ir) t t') : ∃ s', Reach (blockStep ir) s s' ∧ Behind ir s' t' := by
  induction run' with
  | refl => exact ⟨s, .refl, .level rel⟩
  | tail _ e ih =>
    obtain ⟨s', run, rel'⟩ := ih
    obtain ⟨s'', more, rel''⟩ := behind_step doc rel' e
    exact ⟨s'', run.trans more, rel''⟩

/-- Where a run of the JIT stops, so does the switch engine unless a compilation was refused. -/
lemma JitRel.stops (doc : ir.Documented) {c d : ExecutionContext σ} (rel : JitRel ⟨c, 0⟩ ⟨d, 0⟩)
    {o'} (runs : Runs ir d o') : (∃ o, Runs ir c o ∧ Agree o.context o'.context) ∨
      Refused ir o' ∧ ∃ s, Visited ir c s ∧ Agree s o'.context := by
  obtain ⟨t, run', last⟩ := (runs_iff_halts.mp runs).last
  obtain ⟨s, run, rel'⟩ := rel.follow doc run'
  obtain ⟨o, stop, agree⟩ | ⟨refused, agree⟩ := behind_stop doc rel' last
  · exact .inl ⟨o, runs_iff_halts.mpr (.of_reach run (.stop stop)), agree⟩
  · exact .inr ⟨refused, _, .between run, agree⟩

/-- What the JIT visits, the switch engine visits. -/
lemma JitRel.visits (doc : ir.Documented) {c d e : ExecutionContext σ}
    (rel : JitRel ⟨c, 0⟩ ⟨d, 0⟩) (visited : Visited ir d e) :
    ∃ s, Visited ir c s ∧ Agree s e := by
  cases visited with
  | between run' =>
    obtain ⟨s, run, rel'⟩ := rel.follow doc run'
    exact rel'.visited run
  | last runs =>
    obtain ⟨o, runs', agree⟩ | ⟨_, visited⟩ := rel.stops doc runs
    · exact ⟨_, .last runs', agree⟩
    · exact visited

/-- What the switch engine visits, the JIT visits if every block compiles. -/
lemma JitRel.visited (doc : ir.Documented) (compiles : ir.Compiles) {c d s : ExecutionContext σ}
    (rel : JitRel ⟨c, 0⟩ ⟨d, 0⟩) (visited : Visited ir c s) :
    ∃ e, Visited ir d e ∧ Agree s e := by
  have sim := jit_simulates_switch (σ := σ) doc compiles
  cases visited with
  | between run =>
    obtain ⟨t, run', rel'⟩ := sim.visits rel run
    exact ⟨_, .between run', rel'.same.agree⟩
  | last runs =>
    obtain ⟨o', halts, agree⟩ := sim.halts rel (runs_iff_halts.mp runs)
    exact ⟨_, .last (runs_iff_halts.mpr halts), agree⟩

/-- From an empty block cache, with every threshold and optimisation level, and with every library
whose operations behave as documented, whichever compilations it refuses: each context that the JIT
visits agrees with one that the switch engine visits, and when the JIT stops then the switch engine
stops in agreement with it unless the library has refused to compile a block. -/
theorem jit_visits_switch (doc : ir.Documented) (c : ExecutionContext σ)
    (empty : c.blockCache = c.blockCache.clear) (threshold level) :
    (∀ d, Visited ir (c.inJit threshold level) d → ∃ s, Visited ir c.inSwitch s ∧ Agree s d) ∧
    ∀ o', Runs ir (c.inJit threshold level) o' →
      (∃ o, Runs ir c.inSwitch o ∧ Agree o.context o'.context) ∨ Refused ir o' := by
  have hc : Consistent c.blockCache := empty ▸ Consistent.clear c.blockCache
  have rel : JitRel ⟨c.inSwitch, 0⟩ ⟨c.inJit threshold level, 0⟩ :=
    ⟨.zero hc, rfl, rfl, .zero hc, (c.inJit threshold level).engine, rfl, rfl⟩
  exact ⟨fun d visited => rel.visits doc visited,
    fun o' runs => (rel.stops doc runs).imp_right And.left⟩

/-- A library that refuses every compilation but the first one. -/
def IrLibrary.refusing : IrLibrary :=
  { IrLibrary.reference with jitCompile := fun n _ _ => n == 0 }

/-- The native code of the first block runs, and the next block is refused. -/
theorem jit_visits_switch_refused :
    ∃ o', Runs .refusing (countLoop.inJit 0 0) o' ∧ o'.context.cpu.pc = 16 ∧
      (∃ s, Visited .refusing countLoop.inSwitch s ∧ Agree s o'.context) ∧
      ((∃ o, Runs .refusing countLoop.inSwitch o ∧ Agree o.context o'.context) ∨
        Refused .refusing o') := by
  have ends : (run .refusing 5 (countLoop.inJit 0 0)).map (·.context.cpu.pc) = some 16 := by
    decide +kernel
  obtain ⟨o', runs, pc⟩ := Option.map_eq_some_iff.mp ends
  have doc : IrLibrary.refusing.Documented := { IrLibrary.reference_documented with }
  obtain ⟨visits, stops⟩ := jit_visits_switch doc countLoop empty_clear 0 0
  exact ⟨o', ⟨5, runs⟩, pc, visits _ (.last ⟨5, runs⟩), stops o' ⟨5, runs⟩⟩

/-- If the library compiles every block then both engines visit the same states of the guest, also
in a run that never stops: each context that one of them visits agrees with one that the other
visits. -/
theorem engines_visit_same (doc : ir.Documented) (compiles : ir.Compiles) (c : ExecutionContext σ)
    (empty : c.blockCache = c.blockCache.clear) (threshold level) :
    (∀ s, Visited ir c.inSwitch s → ∃ d, Visited ir (c.inJit threshold level) d ∧ Agree s d) ∧
    ∀ d, Visited ir (c.inJit threshold level) d → ∃ s, Visited ir c.inSwitch s ∧ Agree s d := by
  have hc : Consistent c.blockCache := empty ▸ Consistent.clear c.blockCache
  have rel : JitRel ⟨c.inSwitch, 0⟩ ⟨c.inJit threshold level, 0⟩ :=
    ⟨.zero hc, rfl, rfl, .zero hc, (c.inJit threshold level).engine, rfl, rfl⟩
  exact ⟨fun s visited => rel.visited doc compiles visited, fun d visited => rel.visits doc visited⟩

/-- A block that jumps to itself. -/
theorem engines_visit_same_loop :
    let c := ExecutionContext.ofMemory (.ofWords [0xFC000000] 0)
    ∀ s, Visited .reference c.inSwitch s →
      ∃ d, Visited .reference (c.inJit 1 2) d ∧ Agree s d :=
  (engines_visit_same IrLibrary.reference_documented IrLibrary.reference_compiles
    (ExecutionContext.ofMemory (.ofWords [0xFC000000] 0)) empty_clear 1 2).1

end ToyIsa
