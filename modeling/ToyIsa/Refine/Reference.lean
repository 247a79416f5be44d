import ToyIsa.Coherence.Reads
import ToyIsa.Refine.Guest

/-!
# One instruction at a time

`oneStep` is the machine without a block cache: it reads the word at the PC, decodes it and executes
it. A run of it is `Disciplined` if it fetches from executable regions only, fetches a word that it
has stored only after a `FLUSH`, and its reads leave the executable regions alone. Then the switch
engine ends the same way (`blocks_refine_instructions`).

The two runs are related by a context up to the cache and by the words stored since the last
`FLUSH`, which the machine without a cache does not keep and `Visits` does. A block in the cache,
and the part of it that is left, agrees with memory except for these words.
-/

namespace ToyIsa

open Machine ExecutionContext TIMemory TIBasicBlockCache

variable {σ : Type}

/-- The words an instruction stores, and their values. -/
def Instr.stores (i : Instr) (c : ExecutionContext σ) : List (Word × Word) :=
  match i with
  | .st rt base imm => [(c.reg base + imm.signExtend 32, c.reg rt)]
  | .stp rt1 rt2 base offset =>
    [(c.reg base + offset.signExtend 32, c.reg rt1),
      (c.reg base + offset.signExtend 32 + 4, c.reg rt2)]
  | _ => []

/-- The words stored since the last `FLUSH`, after an instruction. -/
def Instr.unflushed (i : Instr) (c : ExecutionContext σ) (words : List Word) : List Word :=
  if i = .flush then [] else (i.stores c).map Prod.fst ++ words

section

variable {m m' : TIMemory} {stores : List (Word × Word)} {a : Word}

/-- The first store does not fail, and the others follow. -/
lemma storeAll_cons_ok {A v} (s : storeAll ((A, v) :: stores) m = .ok () m') :
    ∃ m₁, write32 A v m = .ok () m₁ ∧ storeAll stores m₁ = .ok () m' := by
  rw [storeAll, EState.bind_apply] at s
  cases w : write32 A v m with
  | ok u m₁ =>
    rw [w] at s
    exact ⟨m₁, rfl, s⟩
  | error e m₁ =>
    rw [w] at s
    cases s

/-- Stores keep every word but their own. -/
lemma holds_storeAll {j} (s : storeAll stores m = .ok () m') (held : Holds m a j) :
    Holds m' a j ∨ a ∈ stores.map Prod.fst := by
  induction stores generalizing m with
  | nil =>
    cases s
    exact .inl held
  | cons store stores ih =>
    obtain ⟨A, v⟩ := store
    obtain ⟨m₁, w, s⟩ := storeAll_cons_ok s
    by_cases same : a = A
    · exact .inr (List.mem_cons.mpr (.inl same))
    · exact (ih s (holds_written w same held)).imp_right (List.mem_cons_of_mem A)

/-- Stores to words that are tracked become pending. -/
lemma pending_storeAll (s : storeAll stores m = .ok () m') (tracked : m.Tracked a)
    (h : a ∈ stores.map Prod.fst ∨ m.Pending a) : m'.Pending a := by
  induction stores generalizing m with
  | nil =>
    cases s
    exact h.resolve_left List.not_mem_nil
  | cons store stores ih =>
    obtain ⟨A, v⟩ := store
    obtain ⟨m₁, w, s⟩ := storeAll_cons_ok s
    have regions : m₁.executableRegions = m.executableRegions := by
      obtain ⟨-, -, rfl⟩ := write32_ok w
      exact written_executableRegions m A v
    apply ih s
    · unfold Tracked
      rw [regions]
      exact tracked
    -- the first store makes its own word pending
    · rcases h with mem | pending
      · rcases List.mem_cons.mp mem with rfl | mem
        · exact .inr (tracked.written w)
        · exact .inl mem
      · exact .inr (pending.written w)

end

variable [Host σ]

/-- Read the word at the PC, decode it and execute it. -/
def oneStep (c : ExecutionContext σ) : ExecutionContext σ ⊕ Outcome σ :=
  if c.state.status = .running then
    match c.memory.read32 c.cpu.pc with
    | .error e => .inr (.error e c)
    | .ok encoding =>
      match executeInstructionSwitch (TIDecoder.decode encoding) c with
      | .ok () d => .inl d
      | .error e d => .inr (.error e d)
  else .inr (.ok () c)

/-- The contexts of a run, with the words stored since the last `FLUSH`. -/
inductive Visits (start : ExecutionContext σ) : ExecutionContext σ → List Word → Prop where
  | start : Visits start start []
  | step {c d words i} :
    Visits start c words →
    Holds c.memory c.cpu.pc i →
    oneStep c = .inl d →
    Visits start d (i.unflushed c words)

/-- The run fetches executable words only, none of which it has stored since the last `FLUSH`, and
its system calls change no executable byte. -/
structure Disciplined (start : ExecutionContext σ) : Prop where
  code : ∀ c words w, Visits start c words → c.state.status = .running →
    c.memory.read32 c.cpu.pc = .ok w → c.memory.InCode c.cpu.pc
  flushed : ∀ c words w, Visits start c words → c.state.status = .running →
    c.memory.read32 c.cpu.pc = .ok w → c.cpu.pc ∉ words
  reads : ∀ c words code d, Visits start c words → Holds c.memory c.cpu.pc (.syscall code) →
    oneStep c = .inl d → ∀ x, c.memory.Executable x → d.memory.bytes[x]? = c.memory.bytes[x]?

/-! ## Instructions -/

section

variable {c d : ExecutionContext σ} {i : Instr}

/-- What neither `FLUSH` nor a system call does to memory. -/
lemma Instr.exec_stores (x : i.exec c = .ok () d) (nf : i ≠ .flush)
    (ns : i.opCode.action ≠ .syscall) : storeAll (i.stores c) c.memory = .ok () d.memory := by
  obtain ⟨d', e, rfl⟩ := exec_ok_iff.mp x
  have stored {stores} (h : c.storing stores = .ok () d') :
      storeAll stores c.memory = .ok () d'.memory := by
    rw [storing, onMemory_apply] at h
    cases s : storeAll stores c.memory with
    | error e m => rw [s] at h; cases h
    | ok u m =>
      rw [s] at h
      cases h
      rfl
  cases i with
  | compute op =>
    unfold effect at e
    dsimp only at e
    split at e
    case h_1 => cases e; rfl
    case h_2 => cases e
  | st => exact stored e
  | stp => exact stored e
  | flush => exact absurd rfl nf
  | beq => cases e; rfl
  | j => cases e; rfl
  | syscall => exact absurd rfl ns
  | invalid => cases e

/-- An instruction that does not end a block goes on with the next word. -/
lemma Instr.exec_goesOn (x : i.exec c = .ok () d) (ne : ¬ i.Ends) :
    d.state = c.state ∧ d.cpu.pc = c.cpu.pc + 4 := by
  obtain ⟨d', e, rfl⟩ := exec_ok_iff.mp x
  have state := effect_state_of_not_ends ne e
  refine ⟨state, ?_⟩
  rw [atPc_cpu_pc, nextPc_of_not_ends ne, (effect_frame e).pc]
  rfl

variable {words : List Word} {a : Word}

/-- A word in code keeps its instruction or is stored. -/
lemma Instr.keeps (x : i.exec c = .ok () d) (nf : i ≠ .flush)
    (reads : i.opCode.action = .syscall → ∀ y, c.memory.Executable y →
      d.memory.bytes[y]? = c.memory.bytes[y]?) (code : c.memory.InCode a) {j}
    (h : Holds c.memory a j ∨ a ∈ words) : Holds d.memory a j ∨ a ∈ i.unflushed c words := by
  unfold unflushed
  rw [if_neg nf, List.mem_append]
  rcases h with held | mem
  · by_cases call : i.opCode.action = .syscall
    · refine .inl (holds_congr (exec_changes (.inl x)).layout.2 ?_ held)
      refine Store.slice_congr fun y lower upper => reads call y ?_
      have := code (y - a.toNat) (by omega)
      rw [Nat.add_sub_cancel' lower] at this
      exact this
    · exact (holds_storeAll (exec_stores x nf call) held).imp_right .inl
  · exact .inr (.inr mem)

/-- The words stored since the last `FLUSH` stay pending. -/
lemma Instr.keeps_pending (x : i.exec c = .ok () d) (pending : a ∈ words → c.memory.Pending a)
    (tracked : c.memory.Tracked a) (h : a ∈ i.unflushed c words) : d.memory.Pending a := by
  unfold unflushed at h
  split at h
  case isTrue => cases h
  case isFalse nf =>
    have now := (List.mem_append.mp h).imp_right pending
    by_cases call : i.opCode.action = .syscall
    · obtain ⟨code, rfl⟩ := eq_syscall call
      unfold TIMemory.Pending
      rw [(exec_changes (.inl x)).syscall_dirty]
      exact now.resolve_left List.not_mem_nil
    · exact pending_storeAll (exec_stores x nf call) tracked now

end

/-! ## Blocks -/

/-- The instructions are those of the words from `pc` on, except for the words `D`. -/
def Follows (P D : Word → Prop) (memory : TIMemory) (pc : Word) (rest : List TIInstruction) :
    Prop :=
  ∃ is source, Decodes source pc is ∧ source.size = memory.size ∧ rest = is.map Instr.toTI ∧
    ∀ k i, is[k]? = some i → P (wordAt pc k) → Holds memory (wordAt pc k) i ∨ D (wordAt pc k)

section

variable {P D D' : Word → Prop} {memory memory' : TIMemory} {cache : TIBasicBlockCache} {pc : Word}

omit [Host σ]

/-- A valid block. -/
lemma Coherent.follows (h : Coherent P D memory cache) {b} (hb : cache.blocks pc = some b)
    (hv : b.valid = true) : Follows P D memory pc b.instructions := by
  obtain ⟨is, source, decodes, size, -, instructions, words⟩ := h pc b hb hv
  exact ⟨is, source, decodes, size, instructions, words⟩

/-- Another memory of the same size and other stale words. -/
lemma Follows.congr {rest} (h : Follows P D memory pc rest) (size : memory'.size = memory.size)
    (keeps : ∀ a j, P a → Holds memory a j ∨ D a → Holds memory' a j ∨ D' a) :
    Follows P D' memory' pc rest := by
  obtain ⟨is, source, decodes, size', instructions, words⟩ := h
  refine ⟨is, source, decodes, size'.trans size.symm, instructions, fun k i hk hp => ?_⟩
  exact keeps _ i hp (words k i hk hp)

/-- Some instruction is left, and there is a word to read. -/
lemma Follows.head {rest} (h : Follows P D memory pc rest) :
    ∃ i rest', rest = i.toTI :: rest' ∧ (∃ w, memory.read32 pc = .ok w) ∧
      (P pc → Holds memory pc i ∨ D pc) := by
  obtain ⟨is, source, decodes, size, rfl, words⟩ := h
  cases is with
  | nil => exact absurd rfl decodes.straight.ne_nil
  | cons i is =>
    have first := words 0 i rfl
    have held := decodes.holds (k := 0) (i := i) rfl
    rw [wordAt_zero] at first held
    refine ⟨i, is.map Instr.toTI, rfl, ?_, first⟩
    rw [memory.read32_isOk_iff]
    unfold InBounds
    rw [← size]
    exact held.inBounds

/-- The instructions after the first one. -/
lemma Follows.tail {i : Instr} {rest} (h : Follows P D memory pc (i.toTI :: rest))
    (ne : rest ≠ []) :
    ¬ i.Ends ∧ Follows P D memory (pc + 4) rest := by
  obtain ⟨is, source, decodes, size, instructions, words⟩ := h
  cases decodes with
  | last =>
    obtain ⟨-, rfl⟩ := List.cons.inj instructions
    exact absurd rfl ne
  | @cons _ j is held goesOn _ rest' =>
    obtain ⟨first, rfl⟩ := List.cons.inj instructions
    refine ⟨?_, is, source, rest', size, rfl, fun k i' hk hp => ?_⟩
    · rw [Instr.toTI_injective first]
      exact goesOn
    · rw [← wordAt_succ] at hp ⊢
      exact words (k + 1) i' hk hp

end

/-! ## The two runs -/

/-- The context `c` of the machine without a cache, and the engine `g` that has the cache. -/
structure Cached (start : ExecutionContext σ) (words : List Word) (c : ExecutionContext σ)
    (g : EngineState) : Prop where
  visits : Visits start c words
  mode : g.mode = .switch
  regions : c.memory.executableRegions = start.memory.executableRegions
  size : c.memory.size = start.memory.size
  coherent : Coherent start.memory.InCode (· ∈ words) c.memory g.blockCache
  pending : ∀ a, start.memory.InCode a → a ∈ words → c.memory.Pending a

/-- The contexts of the two runs: at a boundary, and in a block. -/
inductive Matches (start : ExecutionContext σ) : ExecutionContext σ → Point σ → Prop where
  | boundary {words c g} :
    Cached start words c g →
    Matches start c (.boundary ⟨c.withEngine g, 0⟩)
  | block {words c g rest} :
    Cached start words c g →
    (rest ≠ [] → c.state.status = .running ∧
      Follows start.memory.InCode (· ∈ words) c.memory c.cpu.pc rest) →
    Matches start c (.switch rest (c.withEngine g))

/-- The machine without a cache executes the instruction that memory holds at the PC. -/
lemma oneStep_of_holds {c : ExecutionContext σ} {i} (running : c.state.status = .running)
    (held : Holds c.memory c.cpu.pc i) :
    oneStep c = match i.exec c with
      | .ok () d => .inl d
      | .error e d => .inr (.error e d) := by
  obtain ⟨w, read, decoded⟩ := held
  unfold oneStep
  rw [if_pos running, read]
  dsimp only
  rw [decoded, executeInstructionSwitch_toTI]
  rfl

omit [Host σ] in
/-- The fetch of a block in another engine. -/
lemma fetchBlock_withEngine (c : ExecutionContext σ) (g) :
    fetchBlock (c.withEngine g) =
      match g.blockCache.getBlock c.cpu.pc c.memory with
      | none => none
      | some (.error e cache) => some (.error e (c.withEngine { g with blockCache := cache }))
      | some (.ok b cache) => some (.ok b (c.withEngine { g with blockCache := cache })) := by
  unfold fetchBlock
  rw [withEngine_blockCache, withEngine_cpu, withEngine_memory]
  cases g.blockCache.getBlock c.cpu.pc c.memory with
  | none => rfl
  | some r => cases r <;> rfl

namespace Cached

variable {start c d : ExecutionContext σ} {words : List Word} {g : EngineState} {i : Instr}

omit [Host σ] in
/-- The words in code depend on the regions only. -/
lemma inCode_iff {m m' : TIMemory} (regions : m'.executableRegions = m.executableRegions) {a} :
    m'.InCode a ↔ m.InCode a :=
  forall₂_congr fun _ _ => executable_congr regions

/-- Before the first step, without blocks. -/
lemma fresh (empty : start.blockCache = start.blockCache.clear) (mode : start.mode = .switch) :
    Cached start [] start start.engine where
  visits := .start
  mode := mode
  regions := rfl
  size := rfl
  coherent := by
    show Coherent _ _ _ start.blockCache
    rw [empty]
    exact Coherent.clear start.blockCache
  pending a _ mem := by cases mem

/-- An instruction keeps the words in code that it does not store. -/
lemma keeps (h : Cached start words c g) (disciplined : Disciplined start)
    (running : c.state.status = .running) (held : Holds c.memory c.cpu.pc i)
    (x : i.exec c = .ok () d) (nf : i ≠ .flush) (a j) (code : start.memory.InCode a)
    (now : Holds c.memory a j ∨ a ∈ words) : Holds d.memory a j ∨ a ∈ i.unflushed c words := by
  refine Instr.keeps x nf (fun call => ?_) ((inCode_iff h.regions).mpr code) now
  obtain ⟨n, rfl⟩ := Instr.eq_syscall call
  apply disciplined.reads c words n d h.visits held
  rw [oneStep_of_holds running held, x]

/-- After an instruction. -/
lemma exec (h : Cached start words c g) (disciplined : Disciplined start)
    (small : start.memory.size < 2 ^ 32) (running : c.state.status = .running)
    (held : Holds c.memory c.cpu.pc i) (x : i.exec c = .ok () d) :
    Cached start (i.unflushed c words) d (g.after i c.memory.dirtyCodeRanges) := by
  have steps : oneStep c = .inl d := by
    rw [oneStep_of_holds running held, x]
  obtain ⟨regions, size⟩ := (Instr.exec_changes (.inl x)).layout
  refine ⟨.step h.visits held steps, ?_, regions.trans h.regions, size.trans h.size, ?_, ?_⟩
  · unfold EngineState.after
    split
    · exact h.mode
    · exact h.mode
  -- a flush empties the list of stored words, any other instruction may add to it
  · by_cases flush : i = .flush
    · subst flush
      cases x
      have flushed := h.coherent.invalidateAll (h.size ▸ small) h.pending
      exact (flushed.weaken fun _ _ => False.elim).of_memory rfl fun _ _ _ => .inl
    · unfold EngineState.after
      rw [if_neg flush]
      exact h.coherent.congr size (h.keeps disciplined running held x flush)
  · intro a code
    have meets := ((inCode_iff h.regions).mpr code : c.memory.InCode a).meetsCode
    exact Instr.keeps_pending x (h.pending a code) meets.tracked

/-- The same context with another cache. -/
lemma withCache (h : Cached start words c g) {cache}
    (coherent : Coherent start.memory.InCode (· ∈ words) c.memory cache) :
    Cached start words c { g with blockCache := cache } :=
  ⟨h.visits, h.mode, h.regions, h.size, coherent, h.pending⟩

variable (ir : IrLibrary)

/-- The step from a boundary. -/
lemma boundary_step (h : Cached start words c g) (running : c.state.status = .running) :
    pointStep ir (.boundary ⟨c.withEngine g, 0⟩) =
      match g.blockCache.getBlock c.cpu.pc c.memory with
      | none => .inl (.boundary ⟨c.withEngine g, 0⟩)
      | some (.error e cache) =>
        .inl (.stopped (.error e (c.withEngine { g with blockCache := cache })))
      | some (.ok b cache) =>
        .inl (.switch b.instructions (c.withEngine { g with blockCache := cache })) := by
  have running' : (c.withEngine g).state.status = .running := running
  unfold pointStep boundaryNext
  dsimp only
  rw [if_pos rfl, if_pos running', fetchBlock_withEngine]
  cases g.blockCache.getBlock c.cpu.pc c.memory with
  | none => rfl
  | some r =>
    cases r with
    | error e cache => rfl
    | ok b cache =>
      have mode : (c.withEngine { g with blockCache := cache }).mode = .switch := h.mode
      dsimp only
      unfold enterPoint
      rw [mode]

/-- A word can be read at the PC: the engine finds a block or decodes one. -/
lemma enter (h : Cached start words c g) (small : start.memory.size < 2 ^ 32)
    (running : c.state.status = .running) {w} (read : c.memory.read32 c.cpu.pc = .ok w) :
    ∃ g' rest, pointStep ir (.boundary ⟨c.withEngine g, 0⟩) =
        .inl (.switch rest (c.withEngine g')) ∧ Cached start words c g' ∧
      Follows start.memory.InCode (· ∈ words) c.memory c.cpu.pc rest := by
  rw [h.boundary_step ir running]
  cases found : g.blockCache.getBlock c.cpu.pc c.memory with
  | none => exact absurd found (getBlock_ne_none (h.size ▸ small))
  | some r =>
    cases r with
    | error e cache =>
      rw [getBlock_error found] at read
      cases read
    | ok b cache =>
      have coherent := h.coherent.getBlock_ok found
      obtain ⟨hb, hv⟩ := getBlock_stored found
      exact ⟨_, _, rfl, h.withCache coherent, coherent.follows hb hv⟩

/-- No word can be read at the PC: the engine throws what the read throws. -/
lemma miss (h : Cached start words c g) (small : start.memory.size < 2 ^ 32)
    (running : c.state.status = .running) {e} (read : c.memory.read32 c.cpu.pc = .error e) :
    ∃ g', pointStep ir (.boundary ⟨c.withEngine g, 0⟩) =
      .inl (.stopped (.error e (c.withEngine g'))) := by
  rw [h.boundary_step ir running]
  cases found : g.blockCache.getBlock c.cpu.pc c.memory with
  | none => exact absurd found (getBlock_ne_none (h.size ▸ small))
  | some r =>
    cases r with
    | ok b cache =>
      obtain ⟨hb, hv⟩ := getBlock_stored found
      obtain ⟨_, _, _, ⟨w, ok⟩, _⟩ := ((h.coherent.getBlock_ok found).follows hb hv).head
      rw [ok] at read
      cases read
    | error e' cache =>
      rw [getBlock_error found] at read
      cases read
      exact ⟨_, rfl⟩

end Cached

variable {start : ExecutionContext σ} (ir : IrLibrary)

/-- Where a word can be read at the PC, the engine comes to a block that starts with the instruction
in memory. -/
lemma Matches.instruction (disciplined : Disciplined start) (small : start.memory.size < 2 ^ 32)
    {c p} (h : Matches start c p) (running : c.state.status = .running) {w}
    (read : c.memory.read32 c.cpu.pc = .ok w) :
    ∃ words g i rest, Reach (pointStep ir) p (.switch (i.toTI :: rest) (c.withEngine g)) ∧
      Cached start words c g ∧ Holds c.memory c.cpu.pc i ∧
      Follows start.memory.InCode (· ∈ words) c.memory c.cpu.pc (i.toTI :: rest) := by
  -- what is left of a block that agrees with memory
  have first {words g rest} (cached : Cached start words c g)
      (follows : Follows start.memory.InCode (· ∈ words) c.memory c.cpu.pc rest)
      (run : Reach (pointStep ir) p (.switch rest (c.withEngine g))) :
      ∃ words g i rest, Reach (pointStep ir) p (.switch (i.toTI :: rest) (c.withEngine g)) ∧
        Cached start words c g ∧ Holds c.memory c.cpu.pc i ∧
        Follows start.memory.InCode (· ∈ words) c.memory c.cpu.pc (i.toTI :: rest) := by
    obtain ⟨i, rest', rfl, -, held⟩ := follows.head
    have code := disciplined.code c words w cached.visits running read
    have current := held ((Cached.inCode_iff cached.regions).mp code)
    have fresh := disciplined.flushed c words w cached.visits running read
    exact ⟨words, g, i, rest', run, cached, current.resolve_right fresh, follows⟩
  cases h with
  | @boundary words _ g cached =>
    obtain ⟨g', rest, e, cached', follows⟩ := cached.enter ir small running read
    exact first cached' follows (.single e)
  | @block words _ g rest cached left =>
    cases rest with
    | nil =>
      obtain ⟨g', rest, e, cached', follows⟩ := cached.enter ir small running read
      exact first cached' follows (.head rfl (.single e))
    | cons x rest => exact first cached (left (List.cons_ne_nil x rest)).2 .refl

/-- Where the machine without a cache cannot go on, the engine comes to a boundary. -/
lemma Matches.at_boundary {c p} (h : Matches start c p)
    (stops : ¬ (c.state.status = .running ∧ ∃ w, c.memory.read32 c.cpu.pc = .ok w)) :
    ∃ words g, Reach (pointStep ir) p (.boundary ⟨c.withEngine g, 0⟩) ∧
      Cached start words c g := by
  cases h with
  | @boundary words _ g cached => exact ⟨words, g, .refl, cached⟩
  | @block words _ g rest cached left =>
    cases rest with
    | nil => exact ⟨words, g, .single rfl, cached⟩
    | cons x rest =>
      obtain ⟨running, follows⟩ := left (List.cons_ne_nil x rest)
      obtain ⟨_, _, _, read, _⟩ := follows.head
      exact absurd ⟨running, read⟩ stops

/-- How a run fails. -/
def Outcome.failure? : Outcome σ → Option Failure
  | .ok _ _ => none
  | .error e _ => some e

/-- Two runs end the same way, up to the status after a failure and the engine. -/
structure SameEnd (o o' : Outcome σ) : Prop where
  failure : Outcome.failure? o' = Outcome.failure? o
  registers : o'.context.cpu.registers = o.context.cpu.registers
  pc : o'.context.cpu.pc = o.context.cpu.pc
  memory : o'.context.memory = o.context.memory
  exitCode : o'.context.state.exitCode = o.context.state.exitCode
  syscalls : o'.context.syscalls = o.context.syscalls
  host : o'.context.host = o.context.host

/-- The step of the engine that executes an instruction. -/
lemma switch_instruction_step (i : Instr) (rest) (c : ExecutionContext σ) (g) :
    pointStep ir (.switch (i.toTI :: rest) (c.withEngine g)) =
      .inl (.after (.switch rest)
        ((i.exec c).withEngine (g.after i c.memory.dirtyCodeRanges))) := by
  rw [← Instr.exec_withEngine, ← executeInstructionSwitch_toTI]
  rfl

/-- The machine without a cache goes on only where it can read a word. -/
lemma reads_of_oneStep {c d : ExecutionContext σ} (e : oneStep c = .inl d) :
    c.state.status = .running ∧ ∃ w, c.memory.read32 c.cpu.pc = .ok w := by
  unfold oneStep at e
  split at e
  case isFalse => cases e
  case isTrue running =>
    refine ⟨running, ?_⟩
    cases read : c.memory.read32 c.cpu.pc with
    | ok w => exact ⟨w, rfl⟩
    | error e' => rw [read] at e; cases e

/-- An instruction of the machine without a cache is one to three steps of the switch engine. -/
lemma switch_simulates_step (disciplined : Disciplined start)
    (small : start.memory.size < 2 ^ 32) {c d p} (rel : Matches start c p)
    (e : oneStep c = .inl d) :
    ∃ q, Relation.TransGen (Step (pointStep ir)) p q ∧ Matches start d q := by
  obtain ⟨running, w, read⟩ := reads_of_oneStep e
  obtain ⟨words, g, i, rest, run, cached, held, follows⟩ :=
    rel.instruction ir disciplined small running read
  rw [oneStep_of_holds running held] at e
  have last := switch_instruction_step ir i rest c g
  cases x : i.exec c with
  | error e' d' => rw [x] at e; cases e
  | ok u d' =>
    rw [x] at e last
    cases e
    refine ⟨_, .tail' run last, .block (cached.exec disciplined small running held x) fun ne => ?_⟩
    -- there is a next instruction in the block, so this one does not end it
    obtain ⟨goesOn, follows⟩ := follows.tail ne
    obtain ⟨state, pc⟩ := Instr.exec_goesOn x goesOn
    have nf : i ≠ .flush := by
      rintro rfl
      exact goesOn rfl
    rw [state, pc]
    refine ⟨running, follows.congr (Instr.exec_changes (.inl x)).layout.2 ?_⟩
    exact cached.keeps disciplined running held x nf

/-- Where the machine without a cache stops, the switch engine stops the same way. -/
lemma switch_simulates_stop (disciplined : Disciplined start)
    (small : start.memory.size < 2 ^ 32) {c p o} (rel : Matches start c p)
    (e : oneStep c = .inr o) : ∃ o', Halts (pointStep ir) p o' ∧ SameEnd o o' := by
  have stopped {q o'} (run : Reach (pointStep ir) p q)
      (last : pointStep ir q = .inl (.stopped o')) : Halts (pointStep ir) p o' :=
    .of_reach run (.head last (.stop rfl))
  -- it has halted, cannot read the word at the PC, or the instruction fails
  by_cases running : c.state.status = .running
  case neg =>
    obtain ⟨words, g, run, cached⟩ := rel.at_boundary ir fun h => running h.1
    unfold oneStep at e
    rw [if_neg running] at e
    cases e
    refine ⟨.ok () (c.withEngine g), stopped run ?_, ⟨rfl, rfl, rfl, rfl, rfl, rfl, rfl⟩⟩
    have running' : (c.withEngine g).state.status ≠ .running := running
    unfold pointStep boundaryNext
    dsimp only
    rw [if_pos rfl, if_neg running']
  case pos =>
    cases read : c.memory.read32 c.cpu.pc with
    | error e' =>
      have unreadable : ¬ (c.state.status = .running ∧ ∃ w, c.memory.read32 c.cpu.pc = .ok w) := by
        rintro ⟨-, w, ok⟩
        rw [read] at ok
        cases ok
      obtain ⟨words, g, run, cached⟩ := rel.at_boundary ir unreadable
      obtain ⟨g', last⟩ := cached.miss ir small running read
      unfold oneStep at e
      rw [if_pos running, read] at e
      cases e
      exact ⟨_, stopped run last, ⟨rfl, rfl, rfl, rfl, rfl, rfl, rfl⟩⟩
    | ok w =>
      obtain ⟨words, g, i, rest, run, cached, held, -⟩ :=
        rel.instruction ir disciplined small running read
      rw [oneStep_of_holds running held] at e
      have last := switch_instruction_step ir i rest c g
      cases x : i.exec c with
      | ok u d => rw [x] at e; cases e
      | error e' d =>
        rw [x] at e last
        cases e
        refine ⟨_, stopped run last, ?_⟩
        cases e' <;> exact ⟨rfl, rfl, rfl, rfl, rfl, rfl, rfl⟩

variable {ir}

/-- For a disciplined program the switch engine, which runs cached blocks, ends as the machine does
that reads, decodes and executes one word at a time: one halts exactly if the other does, with the
same failure, registers, PC, memory, exit code and system calls. -/
theorem blocks_refine_instructions (empty : start.blockCache = start.blockCache.clear)
    (small : start.memory.size < 2 ^ 32) (mode : start.mode = .switch)
    (disciplined : Disciplined start) :
    (∀ o, Halts oneStep start o → ∃ o', Runs ir start o' ∧ SameEnd o o') ∧
      ∀ o', Runs ir start o' → ∃ o, Halts oneStep start o ∧ SameEnd o o' := by
  have sim : Simulates oneStep (pointStep ir) (Matches start) SameEnd := by
    constructor
    case step =>
      intro c p d rel e
      obtain ⟨q, run, rel'⟩ := switch_simulates_step ir disciplined small rel e
      obtain ⟨u, first, rest⟩ := Relation.TransGen.head'_iff.mp run
      exact ⟨u, q, first, rest, rel'⟩
    case stop => exact fun c p o rel e => switch_simulates_stop ir disciplined small rel e
  have rel : Matches start start (.boundary ⟨start, 0⟩) := .boundary (.fresh empty mode)
  constructor
  · intro o h
    obtain ⟨o', h', same⟩ := sim.halts rel h
    exact ⟨o', runs_iff_halts_points.mpr h', same⟩
  · intro o' h
    exact sim.halted rel (runs_iff_halts_points.mp h)

/-! The program that overwrites its jump and flushes. -/

omit [Host σ]

/-- What a context of the run shows. -/
def ExecutionContext.fetchView (c : ExecutionContext σ) :
    Word × List TICodeRange × Option Word :=
  (c.cpu.pc, c.memory.executableRegions, (c.memory.read32 c.cpu.pc).toOption)

def overwrittenAt (n : Nat) : Option (ExecutionContext Script) :=
  runFor oneStep (fun _ => true) n overwritten

/-- The contexts of the run of `overwritten`: the store, the `FLUSH` and the word stored. -/
lemma overwritten_visits : ∃ c₁ c₂, overwrittenAt 1 = some c₁ ∧ overwrittenAt 2 = some c₂ ∧
    ∀ c words, Visits overwritten c words →
      c = overwritten ∧ words = [] ∨ c = c₁ ∧ words = [8] ∨ c = c₂ ∧ words = [] := by
  obtain ⟨c₂, h₂⟩ : ∃ c, overwrittenAt 2 = some c := ⟨_, rfl⟩
  obtain ⟨c₁, h₁, e₂⟩ := runFor_succ h₂
  obtain ⟨c₀, h₀, e₁⟩ := runFor_succ h₁
  cases h₀
  have view₁ : (overwrittenAt 1).map (·.fetchView) = some (4, [⟨0, 12⟩], some 0x98000000) := by
    decide +kernel
  have ends : (overwrittenAt 2).map (fun c => (oneStep c).isRight) = some true := by
    decide +kernel
  rw [show overwrittenAt 1 = some c₁ from h₁] at view₁
  rw [h₂] at ends
  refine ⟨c₁, c₂, h₁, h₂, fun c words visits => ?_⟩
  induction visits with
  | start => exact .inl ⟨rfl, rfl⟩
  | @step c d words i _ held e ih =>
    rcases ih with ⟨rfl, rfl⟩ | ⟨rfl, rfl⟩ | ⟨rfl, rfl⟩
    · obtain rfl : c₁ = d := Sum.inl.inj (e₁.symm.trans e)
      have word : (overwritten.memory.read32 0).toOption = some 0x80000008 := by decide +kernel
      obtain rfl := held.eq_of_read (j := .st 0 0 8) word (by decide +kernel)
      exact .inr (.inl ⟨rfl, rfl⟩)
    · obtain rfl : c₂ = d := Sum.inl.inj (e₂.symm.trans e)
      obtain ⟨pc, rest⟩ := Prod.mk.inj (Option.some.inj view₁)
      obtain rfl := held.eq_of_read (j := .flush) (Prod.mk.inj rest).2 (by decide +kernel)
      exact .inr (.inr ⟨rfl, rfl⟩)
    · rw [Option.map_some, e] at ends
      cases ends

/-- The program flushes what it overwrites before it runs it. -/
lemma overwritten_disciplined : Disciplined overwritten := by
  obtain ⟨c₁, c₂, h₁, h₂, visits⟩ := overwritten_visits
  -- what each of the three contexts fetches
  have view₁ : (overwrittenAt 1).map (·.fetchView) = some (4, [⟨0, 12⟩], some 0x98000000) := by
    decide +kernel
  have view₂ : (overwrittenAt 2).map (·.fetchView) = some (8, [⟨0, 12⟩], some 0) := by
    decide +kernel
  rw [h₁] at view₁
  rw [h₂] at view₂
  have fetches c words (h : Visits overwritten c words) : ∃ w, ∃ j : Instr, c.fetchView =
      (c.cpu.pc, [⟨0, 12⟩], some w) ∧ TIDecoder.decode w = j.toTI ∧ j.opCode.action ≠ .syscall ∧
      c.cpu.pc.toNat ≤ 8 ∧ c.cpu.pc ∉ words := by
    rcases visits c words h with ⟨rfl, rfl⟩ | ⟨rfl, rfl⟩ | ⟨rfl, rfl⟩
    · exact ⟨0x80000008, .st 0 0 8, by decide +kernel, by decide +kernel, by decide, by decide,
        List.not_mem_nil⟩
    · have view := Option.some.inj view₁
      obtain ⟨pc, -⟩ := Prod.mk.inj view
      refine ⟨0x98000000, .flush, pc ▸ view, by decide +kernel, by decide, ?_⟩
      rw [pc]
      exact ⟨by decide, by decide⟩
    · have view := Option.some.inj view₂
      obtain ⟨pc, -⟩ := Prod.mk.inj view
      refine ⟨0, .invalid, pc ▸ view, by decide +kernel, by decide, ?_⟩
      rw [pc]
      exact ⟨by decide, by decide⟩
  constructor
  case code =>
    intro c words _ h _ _
    obtain ⟨w, j, view, -, -, small, -⟩ := fetches c words h
    obtain ⟨-, rest⟩ := Prod.mk.inj view
    have regions : c.memory.executableRegions = [⟨0, 12⟩] := (Prod.mk.inj rest).1
    apply inCode_of_mem (r := ⟨0, 12⟩)
    · rw [regions]
      exact List.mem_singleton.mpr rfl
    · exact Nat.zero_le _
    · show c.cpu.pc.toNat + 4 ≤ 12
      omega
  case flushed =>
    intro c words _ h _ _
    obtain ⟨_, _, _, _, _, _, fresh⟩ := fetches c words h
    exact fresh
  case reads =>
    intro c words code _ h held
    obtain ⟨w, j, view, decoded, computes, -⟩ := fetches c words h
    obtain ⟨-, rest⟩ := Prod.mk.inj view
    obtain rfl := held.eq_of_read (Prod.mk.inj rest).2 decoded
    exact absurd rfl computes

/-- The jump that was overwritten and flushed is invalid for both. -/
theorem blocks_refine_instructions_overwritten : ∃ o, Runs .reference overwritten o ∧
    Outcome.failure? o =
      some (.simulation .invalidInstruction "[EXECUTE] Invalid instruction") ∧
    o.context.cpu.pc = 8 := by
  obtain ⟨-, c, -, h, -⟩ := overwritten_visits
  have ends : (overwrittenAt 2).map (fun c => (c.cpu.pc, (oneStep c).map (fun _ => ())
      fun o => (Outcome.failure? o, o.context.cpu.pc))) = some (8, .inr
      (some (.simulation .invalidInstruction "[EXECUTE] Invalid instruction"), 8)) := by
    decide +kernel
  rw [h] at ends
  obtain ⟨-, last⟩ := Prod.mk.inj (Option.some.inj ends)
  cases e : oneStep c with
  | inl d => rw [e] at last; cases last
  | inr o =>
    rw [e] at last
    obtain ⟨failure, pc⟩ := Prod.mk.inj (Sum.inr.inj last)
    have run := Reach.of_runFor h
    have refines := @blocks_refine_instructions Script _ overwritten .reference empty_clear
      (by decide) rfl overwritten_disciplined
    obtain ⟨o', runs, same⟩ := refines.1 o (.of_reach run (.stop e))
    exact ⟨o', runs, same.failure.trans failure, same.pc.trans pc⟩

end ToyIsa
