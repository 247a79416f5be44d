import ToyIsa.Refine.Reference
import ToyIsa.Refine.Visited

/-!
# One instruction at a time in every engine

The machine without a block cache is what the interpreter is for. A block that the switch engine
runs is one or more steps of it (`blocks_unroll`), as long as the program is `Disciplined`, and the
other engines visit what the switch engine visits. So whatever a disciplined program does, which may
store code and run it after a `FLUSH` and may run for ever, every engine shows states of that
machine only and never falls behind it (`engines_refine_instructions`).
-/

namespace ToyIsa

open ExecutionContext Machine TIBasicBlockCache

variable {σ : Type} [Host σ]

/-! ## Blocks -/

/-- The result of a block that the switch engine runs, as a run of the machine without a cache. -/
inductive Unrolled (start c : ExecutionContext σ) : Outcome σ → Prop where
  | ok {d words g} :
    Relation.TransGen (Step oneStep) c d →
    Cached start words d g →
    Unrolled start c (.ok () (d.withEngine g))
  | error {e d g} :
    Halts oneStep c (.error e d) →
    Unrolled start c (.error e (d.withEngine g))

variable {start c d : ExecutionContext σ} {words : List Word} {g : EngineState}

/-- An instruction in front of a block. -/
lemma Unrolled.head {o : Outcome σ} (e : oneStep c = .inl d) (h : Unrolled start d o) :
    Unrolled start c o := by
  cases h with
  | ok run cached => exact .ok (.head e run) cached
  | error halts => exact .error (halts.head e)

/-- The first instruction of what is left of a block is the one that memory holds at the PC, and
what is left after it agrees with memory again. -/
lemma Cached.next (h : Cached start words c g) (disciplined : Disciplined start)
    (small : start.memory.size < 2 ^ 32) (running : c.state.status = .running) {i : Instr} {rest}
    (follows : Follows start.memory.InCode (· ∈ words) c.memory c.cpu.pc (i.toTI :: rest)) :
    Holds c.memory c.cpu.pc i ∧ ∀ d, i.exec c = .ok () d →
      Cached start (i.unflushed c words) d (g.after i c.memory.dirtyCodeRanges) ∧
      (rest ≠ [] → d.state.status = .running ∧
        Follows start.memory.InCode (· ∈ i.unflushed c words) d.memory d.cpu.pc rest) := by
  obtain ⟨j, _, same, ⟨w, read⟩, held⟩ := follows.head
  obtain rfl : i = j := Instr.toTI_injective (List.cons.inj same).1
  have code := disciplined.code c words w h.visits running read
  have fresh := disciplined.flushed c words w h.visits running read
  have held := (held ((Cached.inCode_iff h.regions).mp code)).resolve_right fresh
  refine ⟨held, fun d x => ⟨h.exec disciplined small running held x, fun ne => ?_⟩⟩
  -- there is a next instruction in the block, so this one does not end it
  obtain ⟨goesOn, left⟩ := follows.tail ne
  obtain ⟨state, pc⟩ := Instr.exec_goesOn x goesOn
  have nf : i ≠ .flush := by
    rintro rfl
    exact goesOn rfl
  rw [state, pc]
  refine ⟨running, left.congr (Instr.exec_changes (.inl x)).layout.2 ?_⟩
  exact h.keeps disciplined running held x nf

/-- A block is one or more steps of the machine without a cache. -/
theorem blocks_unroll (disciplined : Disciplined start) (small : start.memory.size < 2 ^ 32)
    {is : List Instr} (ne : is ≠ []) (h : Cached start words c g)
    (running : c.state.status = .running)
    (follows : Follows start.memory.InCode (· ∈ words) c.memory c.cpu.pc (is.map Instr.toTI)) :
    Unrolled start c (execAll is (c.withEngine g)) := by
  induction is generalizing c words g with
  | nil => exact absurd rfl ne
  | cons i is ih =>
    obtain ⟨held, after⟩ := h.next disciplined small running follows
    have first := oneStep_of_holds running held
    unfold execAll
    rw [Instr.exec_withEngine]
    cases x : i.exec c with
    | error e d =>
      rw [x] at first
      exact .error (.stop first)
    | ok u d =>
      rw [x] at first
      obtain ⟨cached, left⟩ := after d x
      by_cases last : is = []
      · subst last
        exact .ok (.single first) cached
      · obtain ⟨running', follows'⟩ := left (mt List.map_eq_nil_iff.mp last)
        exact (ih last cached running' follows').head first

/-! ## Runs -/

/-- A boundary of the switch engine and the context of the machine without a cache. -/
inductive Level (start : ExecutionContext σ) : Boundary σ → ExecutionContext σ → Prop where
  | mk {words : List Word} {c : ExecutionContext σ} {g : EngineState} :
    Boundary.Good ⟨c.withEngine g, 0⟩ →
    Cached start words c g →
    Level start ⟨c.withEngine g, 0⟩ c

/-- What an engine shows when the machine without a cache has stopped: the same state of the guest,
or the fault of the instruction that has failed. -/
inductive ShowsEnd : Outcome σ → ExecutionContext σ → Prop where
  | stopped {o : Outcome σ} {d : ExecutionContext σ} :
    Agree o.context d →
    ShowsEnd o d
  | faulted {e : Failure} {c d : ExecutionContext σ} :
    Agree c.fault d →
    ShowsEnd (.error e c) d

/-- The engine shows a state of the run of the machine without a cache. -/
inductive Shows (start : ExecutionContext σ) : ExecutionContext σ → Prop where
  | going {c d : ExecutionContext σ} :
    Reach oneStep start c →
    Agree c d →
    Shows start d
  | ended {o : Outcome σ} {d : ExecutionContext σ} :
    Halts oneStep start o →
    ShowsEnd o d →
    Shows start d

omit [Host σ] in
/-- An agreeing context shows the same end. -/
lemma ShowsEnd.trans {o : Outcome σ} (h : ShowsEnd o c) (agree : Agree c d) : ShowsEnd o d := by
  cases h with
  | stopped same => exact .stopped (same.trans agree)
  | faulted same => exact .faulted (same.trans agree)

variable {ir : IrLibrary}

/-- A block that the switch engine fetches. -/
lemma Cached.unroll (h : Cached start words c g) (disciplined : Disciplined start)
    (small : start.memory.size < 2 ^ 32) (running : c.state.status = .running) {block cache is}
    (fetched : g.blockCache.getBlock c.cpu.pc c.memory = some (.ok block cache))
    (isBlock : IsBlock block is) :
    Unrolled start c (execAll is ((c.withEngine g).withCache cache)) := by
  have coherent := h.coherent.getBlock_ok fetched
  obtain ⟨hb, hv⟩ := getBlock_stored fetched
  have follows := coherent.follows hb hv
  rw [isBlock.instructions] at follows
  exact blocks_unroll disciplined small isBlock.straight.ne_nil (h.withCache coherent) running
    follows

variable {ir : IrLibrary} {b b' : Boundary σ}

/-- A turn of the switch engine is one or more steps of the machine without a cache. -/
lemma switch_unrolls_step (doc : ir.Documented) (disciplined : Disciplined start)
    (small : start.memory.size < 2 ^ 32) (rel : Level start b c)
    (next : blockStep ir b = .inl b') :
    ∃ u d, oneStep c = .inl u ∧ Reach oneStep u d ∧ Level start b' d := by
  cases rel with
  | @mk words _ g good cached =>
    have turn := turn_of_good doc good
    rw [next] at turn
    have good' := (turn.good good).1 b' rfl
    generalize er : (Sum.inl b' : Boundary σ ⊕ Outcome σ) = r at turn
    cases turn with
    | stopped | fault | failed => cases er
    | native e0 => exact absurd rfl e0
    | prepared _ _ hi => exact absurd (interprets_of_switch cached.mode _) hi
    | diverges _ none => exact absurd none (getBlock_ne_none (cached.size ▸ small))
    | @interpreted _ block cache is running fetched _ isBlock =>
      rw [counted_of_switch (c := (c.withEngine g).withCache cache) cached.mode] at er
      have unrolled := cached.unroll disciplined small running fetched isBlock
      generalize execAll is ((c.withEngine g).withCache cache) = o at er unrolled
      cases unrolled with
      | error => cases er
      | ok run cached' =>
        cases er
        obtain ⟨u, first, rest⟩ := Relation.TransGen.head'_iff.mp run
        exact ⟨u, _, first, rest, .mk good' cached'⟩

/-- Where the switch engine stops, the machine without a cache does. -/
lemma switch_unrolls_stop (doc : ir.Documented) (disciplined : Disciplined start)
    (small : start.memory.size < 2 ^ 32) (rel : Level start b c) {o'}
    (next : blockStep ir b = .inr o') :
    ∃ o, Halts oneStep c o ∧ ShowsEnd o o'.context := by
  cases rel with
  | @mk words _ g good cached =>
    have turn := turn_of_good doc good
    rw [next] at turn
    generalize er : (Sum.inr o' : Boundary σ ⊕ Outcome σ) = r at turn
    cases turn with
    | diverges | prepared | native => cases er
    | failed _ _ hi => exact absurd (interprets_of_switch cached.mode _) hi
    | stopped ne =>
      cases er
      have ends : oneStep c = .inr (.ok () c) := if_neg ne
      exact ⟨_, .stop ends, .stopped ⟨rfl, rfl, rfl, rfl, rfl, fun _ => rfl⟩⟩
    | @fault _ e cache running fetched =>
      cases er
      have running' : c.state.status = .running := running
      have read : c.memory.read32 c.cpu.pc = .error e := getBlock_error fetched
      have ends : oneStep c = .inr (.error e c) := by
        unfold oneStep
        rw [if_pos running', read]
      exact ⟨_, .stop ends, .stopped ⟨rfl, rfl, rfl, rfl, rfl, fun _ => rfl⟩⟩
    | @interpreted _ block cache is running fetched _ isBlock =>
      rw [counted_of_switch (c := (c.withEngine g).withCache cache) cached.mode] at er
      have unrolled := cached.unroll disciplined small running fetched isBlock
      generalize execAll is ((c.withEngine g).withCache cache) = o at er unrolled
      cases unrolled with
      | ok => cases er
      | error halts =>
        cases er
        exact ⟨_, halts, .faulted ⟨rfl, rfl, rfl, rfl, rfl, fun ne => absurd rfl ne⟩⟩

/-- The machine without a cache simulates the switch engine. -/
theorem switch_unrolls (doc : ir.Documented) (disciplined : Disciplined start)
    (small : start.memory.size < 2 ^ 32) :
    Simulates (blockStep ir) oneStep (Level start) (fun o' o => ShowsEnd o o'.context) where
  step _ _ _ rel next := switch_unrolls_step doc disciplined small rel next
  stop _ _ _ rel next := switch_unrolls_stop doc disciplined small rel next

variable {e : ExecutionContext σ}

/-- What the switch engine visits. -/
lemma Visited.shows (doc : ir.Documented) (disciplined : Disciplined start)
    (small : start.memory.size < 2 ^ 32) (level : Level start ⟨d, 0⟩ start)
    (visited : Visited ir d e) : Shows start e := by
  have sim := @switch_unrolls _ _ _ ir doc disciplined small
  cases visited with
  | between run =>
    obtain ⟨c, run', matched⟩ := sim.visits level run
    cases matched
    exact .going run' ⟨rfl, rfl, rfl, rfl, rfl, fun _ => rfl⟩
  | last runs =>
    obtain ⟨o, halts, ends⟩ := sim.halts level (runs_iff_halts.mp runs)
    exact .ended halts ends

/-- What the machine without a cache visits, the switch engine comes to. -/
lemma Level.caught_up (doc : ir.Documented) (disciplined : Disciplined start)
    (small : start.memory.size < 2 ^ 32) (level : Level start ⟨d, 0⟩ start)
    (run : Reach oneStep start c) : ∃ s, Visited ir d s ∧ Shows c s := by
  have sim := @switch_unrolls _ _ _ ir doc disciplined small
  rcases sim.progress level run with ⟨b, c', run', matched, ahead⟩ | ⟨o', o, halts', halts, ends⟩
  · cases matched
    exact ⟨_, .between run', .going ahead ⟨rfl, rfl, rfl, rfl, rfl, fun _ => rfl⟩⟩
  · exact ⟨_, .last (runs_iff_halts.mpr halts'), .ended halts ends⟩

/-- An agreeing context shows the same state. -/
lemma Shows.trans (h : Shows start c) (agree : Agree c d) : Shows start d := by
  cases h with
  | going run same => exact .going run (same.trans agree)
  | ended halts ends => exact .ended halts (ends.trans agree)

/-- Every engine, with every JIT threshold and optimisation level, runs a disciplined program as the
machine without a cache does, also one that stores code and runs it after a `FLUSH` and one that
runs for ever: the engine visits states of that run only; from each state of that run on, the engine
comes to one; and one stops if and only if the other does, in the same state of the guest. -/
theorem engines_refine_instructions (doc : ir.Documented) (compiles : ir.Compiles)
    (d : ExecutionContext σ) (empty : d.blockCache = d.blockCache.clear)
    (small : d.memory.size < 2 ^ 32) (disciplined : Disciplined d.inSwitch) :
    (∀ e, Visited ir d e → Shows d.inSwitch e) ∧
    (∀ c, Reach oneStep d.inSwitch c → ∃ e, Visited ir d e ∧ Shows c e) ∧
    (∀ o, Halts oneStep d.inSwitch o → ∃ o', Runs ir d o' ∧ ShowsEnd o o'.context) ∧
    ∀ o', Runs ir d o' → ∃ o, Halts oneStep d.inSwitch o ∧ ShowsEnd o o'.context := by
  have hc : Consistent d.blockCache := empty ▸ Consistent.clear d.blockCache
  have rel : JitRel ⟨d.inSwitch, 0⟩ ⟨d, 0⟩ := ⟨.zero hc, rfl, rfl, .zero hc, d.engine, rfl, rfl⟩
  have level : Level d.inSwitch ⟨d.inSwitch, 0⟩ d.inSwitch :=
    .mk (c := d.inSwitch) (g := d.inSwitch.engine) (.zero hc) (.fresh empty rfl)
  have unrolls := @switch_unrolls _ _ _ ir doc disciplined small
  have jit := jit_simulates_switch (σ := σ) doc compiles
  refine ⟨fun e visited => ?_, fun c run => ?_, fun o halts => ?_, fun o' runs => ?_⟩
  · obtain ⟨s, visited', agree⟩ := rel.visits doc visited
    exact (visited'.shows doc disciplined small level).trans agree
  · obtain ⟨s, visited, shows⟩ := level.caught_up doc disciplined small run
    obtain ⟨e, visited', agree⟩ := rel.visited doc compiles visited
    exact ⟨e, visited', shows.trans agree⟩
  · obtain ⟨o₁, halts₁, ends⟩ := unrolls.halted level halts
    obtain ⟨o', halts', agree⟩ := jit.halts rel halts₁
    exact ⟨o', runs_iff_halts.mpr halts', ends.trans agree⟩
  · obtain ⟨o₁, halts₁, agree⟩ := jit.halted rel (runs_iff_halts.mp runs)
    obtain ⟨o, halts, ends⟩ := unrolls.halts level halts₁
    exact ⟨o, halts, ends.trans agree⟩

/-- The JIT comes to the state after the `FLUSH` of the program that overwrites its jump. -/
theorem engines_refine_instructions_overwritten : ∃ c, overwrittenAt 2 = some c ∧
    ∃ e, Visited .reference (overwritten.inJit 0 0) e ∧ Shows c e := by
  obtain ⟨c, h⟩ : ∃ c, overwrittenAt 2 = some c := ⟨_, rfl⟩
  exact ⟨c, h, (engines_refine_instructions IrLibrary.reference_documented
    IrLibrary.reference_compiles (overwritten.inJit 0 0) empty_clear (by decide)
    overwritten_disciplined).2.1 c (.of_runFor h)⟩

end ToyIsa
