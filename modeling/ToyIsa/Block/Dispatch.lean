import ToyIsa.Block.Chaining
import ToyIsa.Block.Turn

/-!
# Chaining is transparent

`dispatchStep` is the machine of blocks without chaining: native code always goes back to `run`,
which looks the next block up. At a good boundary of the JIT the look-up finds the block whose entry
point native code asked for, compiled already, so it is not counted. A run with chaining and one
without visit the same contexts and end in the same one, block cache included
(`chaining_transparent`).
-/

namespace ToyIsa

open ExecutionContext TIBasicBlockCache Machine

variable {σ : Type}

/-- A boundary in front of the dispatch loop. -/
def Boundary.dispatched (b : Boundary σ) : Boundary σ := ⟨b.context, 0⟩

/-- A good boundary at which only the JIT asks for an entry point. -/
structure Boundary.Chained (b : Boundary σ) : Prop extends b.Good where
  jit : b.entry ≠ 0 → b.context.mode = .jit

/-- The boundary of a run with chaining and that of a run without, which may have dropped the entry
point. -/
inductive Undispatched (b : Boundary σ) : Boundary σ → Prop where
  | same :
    b.Chained →
    Undispatched b b
  | dropped :
    b.Chained →
    b.entry ≠ 0 →
    Undispatched b b.dispatched

/-- Without an entry point nothing has to be in the table. -/
lemma Boundary.Chained.zero {c : ExecutionContext σ} (h : Consistent c.blockCache) :
    Boundary.Chained ⟨c, 0⟩ := ⟨.zero h, fun ne => absurd rfl ne⟩

variable [Host σ]

/-- One turn of `run` if the entry point that native code returns is dropped. -/
def dispatchStep (ir : IrLibrary) (b : Boundary σ) : Boundary σ ⊕ Outcome σ :=
  if b.entry = 0 then blockStep ir b else (blockStep ir b).map Boundary.dispatched id

variable {ir : IrLibrary} {b : Boundary σ}

/-- Native code keeps the engine. -/
lemma nativeRun_setup {is : List Instr} {c d : ExecutionContext σ} {pc}
    (h : nativeRun pc is c = .ok d) : SameSetup c d := by
  induction is generalizing c with
  | nil =>
    cases h
    rfl
  | cons i is ih =>
    have setup := i.exec_setup (c := c)
    unfold nativeRun at h
    cases x : i.exec c with
    | error e c' => rw [x] at h; cases h
    | ok u c' =>
      rw [x] at h setup
      simp only at h
      split at h
      case isTrue => exact setup.trans (ih h)
      case isFalse => cases h

/-- A turn of the JIT leaves entry points to the JIT. -/
lemma Boundary.Chained.step (doc : ir.Documented) (chained : b.Chained) {b'}
    (next : blockStep ir b = .inl b') : b'.Chained := by
  have turn := turn_of_good doc chained.toGood
  rw [next] at turn
  refine ⟨(turn.good chained.toGood).1 b' rfl, ?_⟩
  generalize er : (Sum.inl b' : Boundary σ ⊕ Outcome σ) = r at turn
  cases turn with
  | stopped | fault | failed => cases er
  | diverges =>
    cases er
    exact fun ne => absurd rfl ne
  | @interpreted c block cache is =>
    intro ne
    cases x : execAll is ((c.withCache cache).counted c.cpu.pc) with
    | error e d => rw [x] at er; cases er
    | ok u d =>
      rw [x] at er
      cases er
      exact absurd rfl ne
  | @prepared c block _ _ _ _ _ hi =>
    cases er
    intro _
    by_contra other
    exact hi fun jit => absurd jit other
  | @native c entry _ is last e0 =>
    cases er
    intro ne
    cases x : nativeRun c.cpu.pc is c with
    | error d =>
      rw [x] at ne
      exact absurd rfl ne
    | ok d => exact (nativeRun_setup x).mode.trans (chained.jit e0)

/-- The look-up finds the entry point that native code asked for. -/
lemma blockStep_dispatched (chained : b.Chained) (e0 : b.entry ≠ 0) :
    blockStep ir b.dispatched = .inl b := by
  obtain ⟨c, entry⟩ := b
  obtain ⟨block, hb, hv, rfl⟩ := chained.entry e0
  have running : c.state.status = .running := chained.running e0
  have jit : c.mode = .jit := chained.jit e0
  have compiled : block.hasCompiledBlock = true := (hasCompiledBlock_iff block).mpr e0
  have native : ¬ c.Interprets block := fun hi => by
    rw [(hi jit).1] at compiled
    cases compiled
  have fetched : c.blockCache.getBlock c.cpu.pc c.memory = some (.ok block c.blockCache) :=
    getBlock_of_valid hb hv
  show blockStep ir ⟨c, 0⟩ = _
  rw [blockStep_running _ running, fetchBlock, fetched]
  show Boundary.after (enterBlock ir c.cpu.pc block c) = _
  rw [enterBlock_of_not_interprets native, if_pos compiled]
  rfl

/-- Native code never ends a run by itself. -/
lemma blockStep_native (doc : ir.Documented) (good : b.Good) (e0 : b.entry ≠ 0) :
    ∃ b', blockStep ir b = .inl b' := by
  have turn := turn_of_good doc good
  generalize blockStep ir b = r at turn
  cases turn with
  | native => exact ⟨_, rfl⟩
  | _ => exact absurd rfl e0

omit [Host σ] in
/-- A boundary with its entry point dropped. -/
lemma Boundary.Chained.drop (chained : b.Chained) : Undispatched b b.dispatched := by
  by_cases e0 : b.entry = 0
  case neg => exact .dropped chained e0
  case pos =>
    have same : b.dispatched = b := by
      rw [Boundary.dispatched, ← e0]
    rw [same]
    exact .same chained

/-- The same turn without chaining. -/
lemma dispatchStep_of_step (doc : ir.Documented) (chained : b.Chained) {t}
    (next : blockStep ir b = .inl t) :
    ∃ t', dispatchStep ir b = .inl t' ∧ Undispatched t t' := by
  have chained' := chained.step doc next
  by_cases e0 : b.entry = 0
  case pos => exact ⟨t, by rw [dispatchStep, if_pos e0, next], .same chained'⟩
  case neg => exact ⟨t.dispatched, by rw [dispatchStep, if_neg e0, next]; rfl, chained'.drop⟩

/-- Looking up the block whose entry point was dropped. -/
lemma dispatchStep_dropped (chained : b.Chained) (e0 : b.entry ≠ 0) :
    dispatchStep ir b.dispatched = .inl b := by
  rw [dispatchStep]
  exact (if_pos rfl).trans (blockStep_dispatched chained e0)

/-- A run stops in front of the dispatch loop. -/
lemma dispatchStep_of_stop (doc : ir.Documented) (chained : b.Chained) {o} :
    blockStep ir b = .inr o ↔ dispatchStep ir b = .inr o := by
  by_cases e0 : b.entry = 0
  case pos => rw [dispatchStep, if_pos e0]
  case neg =>
    obtain ⟨t, next⟩ := blockStep_native doc chained.toGood e0
    obtain ⟨t', next', _⟩ := dispatchStep_of_step doc chained next
    rw [next, next']
    exact ⟨nofun, nofun⟩

/-- A turn with chaining is one turn without, or two. -/
lemma dispatch_simulates (doc : ir.Documented) :
    Simulates (blockStep (σ := σ) ir) (dispatchStep ir) Undispatched Eq := by
  constructor
  case step =>
    intro b b' t rel next
    cases rel with
    | same chained =>
      obtain ⟨t', next', rel'⟩ := dispatchStep_of_step doc chained next
      exact ⟨t', t', next', .refl, rel'⟩
    | dropped chained e0 =>
      obtain ⟨t', next', rel'⟩ := dispatchStep_of_step doc chained next
      exact ⟨b, t', dispatchStep_dropped chained e0, .single next', rel'⟩
  case stop =>
    intro b b' o rel next
    cases rel with
    | same chained => exact ⟨o, .stop ((dispatchStep_of_stop doc chained).mp next), rfl⟩
    | dropped chained e0 =>
      obtain ⟨t, go⟩ := blockStep_native doc chained.toGood e0
      rw [next] at go
      cases go

/-- A turn without chaining is one turn with chaining, or none. -/
lemma dispatch_covers (doc : ir.Documented) :
    Covers (blockStep (σ := σ) ir) (dispatchStep ir) Undispatched Eq := by
  constructor
  case step =>
    intro b b' t' rel next
    cases rel with
    | same chained =>
      cases go : blockStep ir b with
      | inr o =>
        rw [(dispatchStep_of_stop doc chained).mp go] at next
        cases next
      | inl t =>
        obtain ⟨u, next', rel'⟩ := dispatchStep_of_step doc chained go
        rw [next] at next'
        cases next'
        exact ⟨t, .single go, rel'⟩
    | dropped chained e0 =>
      rw [dispatchStep_dropped chained e0] at next
      cases next
      exact ⟨b, .refl, .same chained⟩
  case stop =>
    intro b b' o rel next
    cases rel with
    | same chained => exact ⟨o, .stop ((dispatchStep_of_stop doc chained).mpr next), rfl⟩
    | dropped chained e0 =>
      rw [dispatchStep_dropped chained e0] at next
      cases next

omit [Host σ] in
/-- Both machines have the same context. -/
lemma Undispatched.context {b b' : Boundary σ} (rel : Undispatched b b') :
    b'.context = b.context := by
  cases rel <;> rfl

/-- From every state that calls of `loadBinary` and `step` reach, a run that follows the entry
points returned by native code and one that drops them and looks every block up visit the same
contexts between blocks, and one stops exactly if the other does, with the same outcome: guest,
block cache, counters, chaining table and native code. -/
theorem chaining_transparent (doc : ir.Documented) {start c : ExecutionContext σ}
    (fresh : start.blockCache = start.blockCache.clear) (h : Driven ir start ⟨c, 0⟩) :
    (∀ o, Runs ir c o ↔ Halts (dispatchStep ir) ⟨c, 0⟩ o) ∧
    ∀ d, (∃ entry, Reach (blockStep ir) ⟨c, 0⟩ ⟨d, entry⟩) ↔
      ∃ entry, Reach (dispatchStep ir) ⟨c, 0⟩ ⟨d, entry⟩ := by
  have rel : Undispatched ⟨c, 0⟩ ⟨c, 0⟩ := .same (.zero (h.linked fresh).cache)
  have sim := dispatch_simulates (σ := σ) doc
  have cov := dispatch_covers (σ := σ) doc
  refine ⟨fun o => ?_, fun d => ⟨?_, ?_⟩⟩
  · rw [runs_iff_halts]
    constructor
    · intro halts
      obtain ⟨o', halts', rfl⟩ := sim.halts rel halts
      exact halts'
    · intro halts
      obtain ⟨o', halts', rfl⟩ := cov.halts rel halts
      exact halts'
  · rintro ⟨entry, run⟩
    obtain ⟨b', run', rel'⟩ := sim.visits rel run
    obtain rfl : b'.context = d := rel'.context
    exact ⟨b'.entry, run'⟩
  · rintro ⟨entry, run⟩
    obtain ⟨b, run', rel'⟩ := cov.visits rel run
    obtain rfl : d = b.context := rel'.context
    exact ⟨b.entry, run'⟩

/-- A block that jumps to itself, compiled in the first turn and called in the second. -/
theorem chaining_transparent_loop :
    let start := { ExecutionContext.ofMemory (.ofWords [0xFC000000] 0) with mode := .jit }
    ∃ b b' : Boundary Script, blockStep .reference ⟨start, 0⟩ = .inl b ∧ b.entry = 1 ∧
      blockStep .reference b = .inl b' ∧
      ∃ entry, Reach (dispatchStep .reference) ⟨start, 0⟩ ⟨b'.context, entry⟩ := by
  intro start
  obtain ⟨b, compiled, e1⟩ : ∃ b, blockStep .reference (⟨start, 0⟩ : Boundary Script) = .inl b ∧
      b.entry = 1 := by
    rw [blockStep_running _ rfl]
    exact ⟨_, rfl, rfl⟩
  have chained : b.Chained := .step IrLibrary.reference_documented (.zero .empty) compiled
  obtain ⟨b', called⟩ := blockStep_native IrLibrary.reference_documented chained.toGood
    (by rw [e1]; decide)
  have transparent :=
    chaining_transparent IrLibrary.reference_documented (c := start) empty_clear .start
  have run : Reach (blockStep .reference) ⟨start, 0⟩ b' := .head compiled (.single called)
  exact ⟨b, b', compiled, e1, called, (transparent.2 b'.context).mp ⟨b'.entry, run⟩⟩

end ToyIsa
