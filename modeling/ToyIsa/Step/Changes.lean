import ToyIsa.Step.Points

/-!
# What a step of a run changes

A step either executes an instruction, and then memory and block cache change as its action says, or
looks a block up at the PC (`pointStep_changes`). `Point.Good` is the invariant of the points of a
run: the cache is consistent, and the instructions that are left are decoded ones.
-/

namespace ToyIsa

open Machine ExecutionContext

variable {σ : Type}

/-- A look-up of the block at the PC takes `c` to `d`, up to what only the JIT sees. -/
inductive Fetches (c d : ExecutionContext σ) : Prop where
  | found {block cache} :
    c.blockCache.getBlock c.cpu.pc c.memory = some (.ok block cache) →
    d.memory = c.memory →
    d.blockCache.view = cache.view →
    Fetches c d
  | missed {e cache} :
    c.blockCache.getBlock c.cpu.pc c.memory = some (.error e cache) →
    d.memory = c.memory →
    d.blockCache.view = cache.view →
    Fetches c d

/-- A look-up keeps the memory. -/
lemma Fetches.memory {c d : ExecutionContext σ} (h : Fetches c d) : d.memory = c.memory := by
  cases h with
  | found _ memory _ => exact memory
  | missed _ memory _ => exact memory

/-- What a step can change. -/
inductive StepChanges (p q : Point σ) : Prop where
  | executed :
    Changes p.action p.context q.context →
    StepChanges p q
  | fetched :
    p.action = .compute →
    Fetches p.context q.context →
    StepChanges p q

/-- A step that flushes. -/
lemma StepChanges.flush {p q : Point σ} (h : StepChanges p q) (flushes : p.action = .flush) :
    q.context.memory = { p.context.memory with dirtyCodeRanges := [] } ∧
      q.context.blockCache =
        p.context.blockCache.invalidateAll p.context.memory.dirtyCodeRanges := by
  cases h with
  | executed changes => exact (flushes ▸ changes).flush
  | fetched compute _ =>
    rw [flushes] at compute
    cases compute

/-- The instructions that are left are decoded ones. -/
def Point.Typed : Point σ → Prop
  | .switch rest _ => ∃ is : List Instr, rest = is.map Instr.toTI
  | .threaded rest _ => ∃ is : List Instr, rest = is.map Instr.toTI
  | _ => True

/-- Where an interpreted block goes on in the context `d`. -/
inductive Point.Follows (d : ExecutionContext σ) : Point σ → Prop where
  | boundary : Follows d (.boundary ⟨d, 0⟩)
  | switch (is : List Instr) : Follows d (.switch (is.map Instr.toTI) d)
  | threaded (is : List Instr) : Follows d (.threaded (is.map Instr.toTI) d)

namespace Point.Follows

variable {d : ExecutionContext σ} {q : Point σ}

/-- The context of the point that follows. -/
lemma context (h : Follows d q) : q.context = d := by
  cases h <;> rfl

/-- A point that follows is typed. -/
lemma typed (h : Follows d q) : q.Typed := by
  cases h with
  | boundary => trivial
  | switch is => exact ⟨is, rfl⟩
  | threaded is => exact ⟨is, rfl⟩

end Point.Follows

structure Point.Good (p : Point σ) : Prop where
  cache : Consistent p.context.blockCache
  typed : p.Typed

/-- A boundary is good if its cache is consistent. -/
lemma Point.Good.boundary {c : ExecutionContext σ} {entry} (h : Consistent c.blockCache) :
    Point.Good (.boundary ⟨c, entry⟩) := ⟨h, trivial⟩

/-- A stop is good if its cache is consistent. -/
lemma Point.Good.stopped {o : Outcome σ} (h : Consistent o.context.blockCache) :
    Point.Good (.stopped o) := ⟨h, trivial⟩

/-- The handler of `executeBlock` changes the status only. -/
lemma catchSimulation_memory (o : Outcome σ) :
    (catchSimulation o).context.memory = o.context.memory ∧
      (catchSimulation o).context.blockCache = o.context.blockCache := by
  cases o with
  | ok u d => exact ⟨rfl, rfl⟩
  | error e d => cases e <;> exact ⟨rfl, rfl⟩

/-- Going on changes the status at most. -/
lemma Point.after_memory {go : ExecutionContext σ → Point σ} (follows : ∀ d, (go d).Follows d)
    (o : Outcome σ) : (Point.after go o).context.memory = o.context.memory ∧
      (Point.after go o).context.blockCache = o.context.blockCache := by
  cases o with
  | ok u d =>
    show (go d).context.memory = d.memory ∧ (go d).context.blockCache = d.blockCache
    rw [(follows d).context]
    exact ⟨rfl, rfl⟩
  | error e d => exact catchSimulation_memory (.error e d)

/-- The context after an instruction of native code. -/
lemma Point.ofIr_context (rest level) (r : IrStep σ) :
    (Point.ofIr rest level r).context = r.context := by
  cases r <;> rfl

variable [Host σ] {ir : IrLibrary}

/-- The kinds of steps. -/
inductive PointStep (ir : IrLibrary) : Point σ → Point σ → Prop where
  | boundary (b) : PointStep ir (.boundary b) (boundaryNext ir b)
  | ended {p q} : p.action = .compute → q.Follows p.context → PointStep ir p q
  | stuck {p} : p.action = .compute → PointStep ir p (.stopped (.error .undefined p.context))
  | interpreted {p i go} :
    p.action = i.opCode.action →
    (∀ d, (go d).Follows d) →
    PointStep ir p (.after go (Instr.exec i p.context))
  | native (insn : IrInsn) (rest level f c) :
    PointStep ir (.native (insn :: rest) level f c) (.ofIr rest level (insn.exec ir level f c))

/-- Every step from a point of a decoded block is of one of the kinds. -/
lemma pointStep_cases {p q : Point σ} (typed : p.Typed) (e : pointStep ir p = .inl q) :
    PointStep ir p q := by
  cases p with
  | boundary b =>
    cases e
    exact .boundary b
  | stopped o => cases e
  | switch rest c =>
    obtain ⟨is, rfl⟩ : ∃ is : List Instr, rest = is.map Instr.toTI := typed
    cases is with
    | nil =>
      cases e
      exact .ended rfl .boundary
    | cons i is =>
      cases e
      rw [executeInstructionSwitch_toTI]
      exact .interpreted (p := .switch ((i :: is).map Instr.toTI) c) rfl fun d => .switch is
  | threaded rest c =>
    obtain ⟨is, rfl⟩ : ∃ is : List Instr, rest = is.map Instr.toTI := typed
    cases is with
    | nil =>
      cases e
      exact .stuck (p := .threaded [] c) rfl
    | cons i is =>
      cases e
      rw [threadedHandler_execute]
      refine .interpreted (p := .threaded ((i :: is).map Instr.toTI) c) rfl fun d => ?_
      -- a handler either dispatches the next instruction or ends the block
      split
      · exact .threaded is
      · exact .boundary
  | native rest level f c =>
    cases rest with
    | nil =>
      cases e
      exact .stuck (p := .native [] level f c) rfl
    | cons insn rest =>
      cases e
      exact .native insn rest level f c

/-- A turn that compiles the block that was fetched, or finds it compiled. -/
lemma good_ofTurn {c : ExecutionContext σ} {block cache r}
    (running : c.state.status = .running)
    (fetched : c.blockCache.getBlock c.cpu.pc c.memory = some (.ok block cache))
    (hi : ¬ c.Interprets block) (turn : Turn ir ⟨c, 0⟩ r) :
    (Point.ofTurn r).Good ∧ Fetches c (Point.ofTurn r).context := by
  cases turn with
  | stopped ne => exact absurd running ne
  | diverges _ loops => rw [fetched] at loops; cases loops
  | fault _ failed => rw [fetched] at failed; cases failed
  | interpreted _ fetched' hi' _ =>
    rw [fetched] at fetched'
    cases fetched'
    exact absurd hi' hi
  | prepared _ fetched' _ view _ good =>
    rw [fetched] at fetched'
    cases fetched'
    exact ⟨.boundary good.cache, .found fetched rfl view⟩
  | failed _ fetched' _ view consistent _ =>
    rw [fetched] at fetched'
    cases fetched'
    exact ⟨.stopped consistent, .found fetched rfl view⟩
  | native ne => exact absurd rfl ne

/-- The first point in a block that was fetched. -/
lemma enterPoint_good {c : ExecutionContext σ} {block cache} (hc : Consistent c.blockCache)
    (running : c.state.status = .running)
    (fetched : c.blockCache.getBlock c.cpu.pc c.memory = some (.ok block cache)) :
    (enterPoint ir c.cpu.pc block (c.withCache cache)).Good ∧
      Fetches c (enterPoint ir c.cpu.pc block (c.withCache cache)).context := by
  obtain ⟨cached, hb, _⟩ := hc.getBlock_ok fetched
  obtain ⟨is, isBlock⟩ := cached.isBlock hb
  have typed : ∃ is : List Instr, block.instructions = is.map Instr.toTI :=
    ⟨is, isBlock.instructions⟩
  obtain ⟨_, entered⟩ | ⟨hi, entered⟩ := enterPoint_cases ir c.cpu.pc block (c.withCache cache)
  · obtain ⟨counted, e, view, keep⟩ := counted_eq (c.withCache cache) c.cpu.pc
    have fetches : Fetches c ((c.withCache cache).counted c.cpu.pc) := by
      rw [e]
      exact .found fetched rfl view
    have consistent : Consistent ((c.withCache cache).counted c.cpu.pc).blockCache := by
      rw [e]
      exact keep cached
    obtain entered | entered := entered
    · rw [entered]
      exact ⟨⟨consistent, typed⟩, fetches⟩
    · rw [entered]
      exact ⟨⟨consistent, typed⟩, fetches⟩
  -- the JIT calls native code, so the turn of the block machine tells what the cache is
  · rw [entered]
    exact good_ofTurn running fetched hi (turn_prepared running fetched hi hc)

/-- The step from a boundary. -/
lemma boundaryNext_changes {b : Boundary σ} (hc : Consistent b.context.blockCache) :
    (boundaryNext ir b).Good ∧ StepChanges (.boundary b) (boundaryNext ir b) := by
  -- where nothing is looked up the context stays as it is
  have same (q : Point σ) (e : q.context = b.context) : StepChanges (.boundary b) q :=
    .executed (changes_compute (congrArg _ e) (congrArg _ e))
  unfold boundaryNext
  dsimp only
  split
  case isTrue =>
    split
    case isFalse => exact ⟨.stopped hc, same _ rfl⟩
    case isTrue running =>
      unfold fetchBlock
      cases fetched : b.context.blockCache.getBlock b.context.cpu.pc b.context.memory with
      | none => exact ⟨⟨hc, trivial⟩, same _ rfl⟩
      | some r =>
        cases r with
        | error e cache =>
          exact ⟨.stopped (hc.getBlock_error fetched), .fetched rfl (.missed fetched rfl rfl)⟩
        | ok block cache =>
          obtain ⟨good, fetches⟩ := @enterPoint_good σ _ ir _ _ _ hc running fetched
          exact ⟨good, .fetched rfl fetches⟩
  case isFalse =>
    cases b.context.blockCache.nativeCode b.entry with
    | some native => exact ⟨⟨hc, trivial⟩, same _ rfl⟩
    | none => exact ⟨.stopped hc, same _ rfl⟩

/-- The step that executes an interpreted instruction. -/
lemma after_changes {p : Point σ} {i : Instr} {go : ExecutionContext σ → Point σ}
    (hc : Consistent p.context.blockCache) (action : p.action = i.opCode.action)
    (follows : ∀ d, (go d).Follows d) :
    (Point.after go (i.exec p.context)).Good ∧ StepChanges p (.after go (i.exec p.context)) := by
  obtain ⟨memory, cache⟩ := Point.after_memory follows (i.exec p.context)
  have changed : Changes i.opCode.action p.context (Point.after go (i.exec p.context)).context :=
    (i.changes p.context).congr memory cache
  refine ⟨⟨hc.changes changed, ?_⟩, .executed (action ▸ changed)⟩
  cases i.exec p.context with
  | ok u d => exact (follows d).typed
  | error e d => trivial

/-- Every step of a run keeps the invariant and changes what it can change. -/
theorem pointStep_changes {p q : Point σ} (good : p.Good) (step : pointStep ir p = .inl q) :
    q.Good ∧ StepChanges p q := by
  have same (q : Point σ) (compute : p.action = .compute) (e : q.context = p.context) :
      StepChanges p q := by
    apply StepChanges.executed
    rw [compute]
    exact changes_compute (congrArg _ e) (congrArg _ e)
  cases pointStep_cases good.typed step with
  | boundary b => exact boundaryNext_changes good.cache
  | ended compute follows =>
    have cache : Consistent q.context.blockCache := by
      rw [follows.context]
      exact good.cache
    exact ⟨⟨cache, follows.typed⟩, same _ compute follows.context⟩
  | stuck compute => exact ⟨.stopped good.cache, same _ compute rfl⟩
  | interpreted action follows => exact after_changes good.cache action follows
  | native insn rest level f c =>
    have changes : Changes (insn.action f) c
        (Point.ofIr rest level (insn.exec ir level f c)).context := by
      rw [Point.ofIr_context]
      exact IrInsn.exec_changes ir level f c insn
    refine ⟨⟨Consistent.changes (c := c) good.cache changes, ?_⟩, .executed changes⟩
    cases insn.exec ir level f c <;> trivial

/-- Every point of a run keeps the invariant. -/
lemma Point.Good.reach {p q : Point σ} (good : p.Good) (st : Reach (pointStep ir) p q) : q.Good :=
  Reach.invariant (fun _ _ good step => (pointStep_changes good step).1) good st

end ToyIsa
