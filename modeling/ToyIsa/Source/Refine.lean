import ToyIsa.Refine.Reference
import ToyIsa.Source.Meaning

/-!
# Source programs on the machine

A source program and the machine that reads, decodes and executes one word at a time, side by side.
While the program stays inside its text and leaves the text alone (`Contained`), a step of one is a
step of the other (`sourceStep_lockstep`), and the machine is `Disciplined`, so that the engines
follow it too.
-/

namespace ToyIsa.Asm

open ExecutionContext Machine

variable {σ : Type}

/-- The context in which the machine is where the source is. -/
def SourceState.toContext (s : SourceState σ) : ExecutionContext σ :=
  s.context.atPc (addressOf s.position)

/-- The text of the program is at address 0. -/
def HoldsText (words : List Nat) (m : TIMemory) : Prop :=
  Store.slice m.bytes 0 (pack words).length = pack words

/-- An outcome at another PC. -/
def Outcome.atPc (o : Outcome σ) (pc : Word) : Outcome σ :=
  match o with
  | .ok u c => .ok u (c.atPc pc)
  | .error e c => .error e (c.atPc pc)

section

variable [Host σ] (c : ExecutionContext σ) (pc : Word)

/-- READ does not look at the PC. -/
lemma readCall_atPc : readCall (c.atPc pc) = Outcome.atPc (readCall c) pc := by
  unfold readCall
  simp only [atPc_reg, atPc_memory, atPc_host]
  split
  · rfl
  · split
    · rcases Host.read (c.reg Reg.r2).toNat c.host with ⟨_ | bytes, s⟩ <;> rfl
    · rfl

/-- WRITE does not look at the PC. -/
lemma writeCall_atPc : writeCall (c.atPc pc) = Outcome.atPc (writeCall c) pc := by
  unfold writeCall
  simp only [atPc_reg, atPc_memory, atPc_host]
  split
  · rfl
  · split <;> rfl

/-- A system call does not look at the PC. -/
lemma execute_atPc : TISyscallEmulator.execute (c.atPc pc) =
    Outcome.atPc (TISyscallEmulator.execute c) pc := by
  rw [execute_eq, execute_eq, atPc_reg]
  split_ifs
  · exact readCall_atPc c pc
  · exact writeCall_atPc c pc
  · rfl
  · rfl
  · rfl

/-- The effect of an instruction does not depend on the PC. -/
lemma effect_atPc (i : Instr) : i.effect (c.atPc pc) = Outcome.atPc (i.effect c) pc := by
  by_cases ends : i.Ends
  case neg =>
    rw [i.effect_atPc ends]
    cases i.effect c <;> rfl
  case pos =>
    cases i with
    | compute op => cases op <;> cases ends
    | st | stp => cases ends
    | flush | beq | j | invalid => rfl
    | syscall => exact execute_atPc c pc

end

/-! ## One step -/

section

variable [Host σ] {source : List Call} {a : Assembler} {words : List Nat}

omit [Host σ] in
/-- The address of an instruction. -/
lemma addressOf_natCast (p : Nat) : addressOf p = .ofNat 32 (4 * p) := by
  have e : (4 * (p : Int)) = ((4 * p : Nat) : Int) := by omega
  rw [addressOf, e, BitVec.ofInt_natCast]

omit [Host σ] in
/-- The next position does not depend on the PC. -/
lemma sourceNext_atPc (position name operands) (c : ExecutionContext σ) (pc) :
    sourceNext source position name operands (c.atPc pc) =
      sourceNext source position name operands c := rfl

/-- The instruction whose word is at a position of the text does what the source says. -/
lemma holds_callAt (h : assemble source = .ok (a, words)) (fits : 4 * words.length < 2 ^ 28)
    {position : Int} {name operands line}
    (found : callAt source position = some (name, operands, line)) :
    ∃ p : Nat, position = p ∧ p < words.length ∧ ∃ i : Instr,
      (∀ m : TIMemory, HoldsText words m → Holds m (addressOf position) i) ∧
      ∀ c : ExecutionContext σ, sourceEffect name operands c = some (i.effect c) ∧
        storeTargets name operands c = (i.stores c).map Prod.fst ∧
        (c.cpu.pc = addressOf position →
          ∃ q, sourceNext source position name operands c = some q ∧ i.nextPc c = addressOf q) := by
  unfold callAt at found
  split at found
  case isTrue => cases found
  case isFalse nonneg =>
    obtain ⟨p, rfl⟩ := Int.eq_ofNat_of_zero_le (Int.not_lt.mp nonneg)
    rw [Int.toNat_natCast] at found
    obtain ⟨count, each⟩ := word_of_call h
    obtain ⟨w, word, encoded⟩ := each p _ found
    obtain ⟨inside, _⟩ := List.getElem?_eq_some_iff.mp word
    obtain ⟨i, valid, rfl, means⟩ := Encoder.encode_ok encoded
    have denotes := denotes_of_meaning valid means
    refine ⟨p, rfl, inside, i, fun m text => ⟨.ofNat 32 i.word.toNat, ?_, ?_⟩, fun c =>
      ⟨sourceEffect_of_denotes denotes c, storeTargets_of_denotes denotes c, fun here => ?_⟩⟩
    · rw [addressOf_natCast]
      exact fetch_word word text (by omega)
    · rw [BitVec.ofNat_toNat, BitVec.setWidth_eq, decode_word valid]
    · exact sourceNext_of_denotes (places_of_assemble h) encoded denotes (by omega) here

/-- A step of the source is a step of the machine. -/
lemma sourceStep_oneStep (h : assemble source = .ok (a, words)) (fits : 4 * words.length < 2 ^ 28)
    {s : SourceState σ} (running : s.context.state.status = .running)
    (text : HoldsText words s.context.memory) {call}
    (found : callAt source s.position = some call) :
    (∃ t, sourceStep source s = .inl t ∧ oneStep s.toContext = .inl t.toContext) ∨
    ∃ e d, sourceStep source s = .inr (.stopped s.position (.error e d)) ∧
      oneStep s.toContext = .inr (.error e (d.atPc (addressOf s.position))) := by
  obtain ⟨name, operands, line⟩ := call
  obtain ⟨p, _, inside, i, held, acts⟩ := holds_callAt (σ := σ) h fits found
  have machine := oneStep_of_holds (c := s.toContext) running (held s.context.memory text)
  have moved : i.effect s.toContext = _ := effect_atPc s.context (addressOf s.position) i
  unfold sourceStep
  rw [if_pos running, found]
  dsimp only
  rw [(acts s.context).1]
  unfold Instr.exec at machine
  rw [moved] at machine
  cases x : i.effect s.context with
  | error e d =>
    rw [x] at machine
    exact .inr ⟨e, d, rfl, machine⟩
  | ok u d =>
    rw [x] at machine
    obtain ⟨q, goes, pc⟩ := (acts (d.atPc (addressOf s.position))).2.2 rfl
    rw [sourceNext_atPc] at goes
    refine .inl ⟨⟨q, d⟩, ?_, ?_⟩
    · dsimp only
      rw [goes]
    · rw [machine]
      dsimp only [Outcome.atPc]
      rw [pc]
      rfl

/-! ## Whole runs -/

variable (source words) in
/-- The run of a source program stays among its instruction calls and leaves its text alone: it does
not store into it, and no system call reads into it. -/
structure Contained (start : ExecutionContext σ) : Prop where
  inside : ∀ s, Reach (sourceStep source) ⟨0, start⟩ s → s.context.state.status = .running →
    ∃ call, callAt source s.position = some call
  text : ∀ s, Reach (sourceStep source) ⟨0, start⟩ s → HoldsText words s.context.memory
  stores : ∀ s name operands line, Reach (sourceStep source) ⟨0, start⟩ s →
    callAt source s.position = some (name, operands, line) →
    ∀ target ∈ storeTargets name operands s.context, 4 * words.length ≤ target.toNat

variable {start : ExecutionContext σ}

/-- The machine visits what the source visits, and the words that it has stored lie behind the
text. -/
lemma Contained.visits (contained : Contained source words start)
    (h : assemble source = .ok (a, words)) (fits : 4 * words.length < 2 ^ 28) {c stored}
    (visits : Visits (SourceState.toContext ⟨0, start⟩) c stored) :
    ∃ s, Reach (sourceStep source) ⟨0, start⟩ s ∧ c = s.toContext ∧
      c.memory.executableRegions = start.memory.executableRegions ∧
      ∀ target ∈ stored, 4 * words.length ≤ target.toNat := by
  induction visits with
  | start => exact ⟨_, .refl, rfl, rfl, nofun⟩
  | @step c d stored i _ held e ih =>
    obtain ⟨s, run, rfl, regions, behind⟩ := ih
    obtain ⟨running, _⟩ := reads_of_oneStep e
    obtain ⟨⟨name, operands, line⟩, found⟩ := contained.inside s run running
    obtain ⟨t, step, step'⟩ | ⟨_, _, _, stop⟩ :=
      sourceStep_oneStep h fits running (contained.text s run) found
    case inr => rw [stop] at e; cases e
    rw [step'] at e
    cases e
    obtain ⟨p, position, inside, j, held', acts⟩ := holds_callAt (σ := σ) h fits found
    have same : i = j := by
      obtain ⟨w, read, decoded⟩ := held' _ (contained.text s run)
      exact held.eq_of_read (congrArg Except.toOption read) decoded
    subst same
    rw [oneStep_of_holds running held] at step'
    have layout : t.toContext.memory.executableRegions = s.toContext.memory.executableRegions := by
      cases x : i.exec s.toContext with
      | error e' d' => rw [x] at step'; cases step'
      | ok u d' =>
        rw [x] at step'
        cases step'
        exact (Instr.exec_changes (.inl x)).layout.1
    refine ⟨t, run.tail step, rfl, layout.trans regions, fun target mem => ?_⟩
    unfold Instr.unflushed at mem
    split at mem
    case isTrue => cases mem
    case isFalse =>
      obtain mem | mem := List.mem_append.mp mem
      · refine contained.stores s name operands line run found target ?_
        rw [(acts s.context).2.1]
        exact mem
      · exact behind target mem

omit [Host σ] in
/-- The bytes of the text. -/
lemma HoldsText.getElem? {m : TIMemory} (text : HoldsText words m) {x}
    (inside : x < 4 * words.length) : m.bytes[x]? = (pack words)[x]? := by
  have byte : (Store.slice m.bytes 0 (pack words).length)[x]? = (pack words)[x]? := by
    rw [show Store.slice m.bytes 0 (pack words).length = pack words from text]
  rw [Store.getElem?_slice, length_pack, if_pos inside, Nat.zero_add] at byte
  exact byte

/-- The engines may run a program that leaves its text alone. -/
lemma Contained.disciplined (contained : Contained source words start)
    (h : assemble source = .ok (a, words)) (fits : 4 * words.length < 2 ^ 28)
    (regions : start.memory.executableRegions = [⟨0, 4 * words.length⟩]) :
    Disciplined (SourceState.toContext ⟨0, start⟩) := by
  -- the machine fetches a word of the text
  have fetches {c stored} (visits : Visits (SourceState.toContext ⟨0, start⟩) c stored)
      (running : c.state.status = .running) : c.cpu.pc.toNat + 4 ≤ 4 * words.length := by
    obtain ⟨s, run, rfl, _⟩ := contained.visits h fits visits
    obtain ⟨⟨name, operands, line⟩, found⟩ := contained.inside s run running
    obtain ⟨p, position, inside, _⟩ := holds_callAt (σ := σ) h fits found
    show (addressOf s.position).toNat + 4 ≤ _
    rw [position, addressOf_natCast, BitVec.toNat_ofNat]
    omega
  constructor
  case code =>
    intro c stored _ visits running _
    obtain ⟨_, _, _, same, _⟩ := contained.visits h fits visits
    apply TIMemory.inCode_of_mem (r := ⟨0, 4 * words.length⟩)
    · rw [same, regions]
      exact List.mem_singleton_self _
    · exact Nat.zero_le _
    · have := fetches visits running
      show c.cpu.pc.toNat + 4 ≤ 0 + 4 * words.length
      omega
  case flushed =>
    intro c stored _ visits running _ mem
    obtain ⟨_, _, _, _, behind⟩ := contained.visits h fits visits
    have := behind _ mem
    have := fetches visits running
    omega
  case reads =>
    intro c stored code d visits held e x executable
    obtain ⟨s, run, rfl, same, _⟩ := contained.visits h fits visits
    obtain ⟨t, run', rfl, _⟩ := contained.visits h fits (visits.step held e)
    obtain ⟨r, mem, _, upper⟩ := executable
    rw [same, regions] at mem
    obtain rfl := List.mem_singleton.mp mem
    have inside : x < 4 * words.length := by
      dsimp only at upper
      change x < 0 + 4 * words.length at upper
      omega
    exact ((contained.text t run').getElem? inside).trans
      ((contained.text s run).getElem? inside).symm

/-- The end of the machine where a source program ends. -/
inductive EndsAt : SourceEnd σ → Outcome σ → Prop where
  | stopped {position o} : EndsAt (.stopped position o) (Outcome.atPc o (addressOf position))

/-- The source and the machine in lockstep. -/
lemma Contained.lockstep (contained : Contained source words start)
    (h : assemble source = .ok (a, words)) (fits : 4 * words.length < 2 ^ 28) :
    Lockstep (sourceStep source) (oneStep (σ := σ))
      (fun s c => Reach (sourceStep source) ⟨0, start⟩ s ∧ c = s.toContext) EndsAt := by
  have both {s : SourceState σ} (run : Reach (sourceStep source) ⟨0, start⟩ s) :
      (∃ t, sourceStep source s = .inl t ∧ oneStep s.toContext = .inl t.toContext) ∨
      ∃ o, sourceStep source s = .inr (.stopped s.position o) ∧
        oneStep s.toContext = .inr (Outcome.atPc o (addressOf s.position)) := by
    by_cases running : s.context.state.status = .running
    case pos =>
      obtain ⟨call, found⟩ := contained.inside s run running
      obtain step | ⟨e, d, stop, stop'⟩ :=
        sourceStep_oneStep h fits running (contained.text s run) found
      · exact .inl step
      · exact .inr ⟨.error e d, stop, stop'⟩
    case neg =>
      refine .inr ⟨.ok () s.context, if_neg running, ?_⟩
      have stopped : ¬ s.toContext.state.status = .running := running
      unfold oneStep
      rw [if_neg stopped]
      rfl
  constructor
  case step =>
    rintro s _ t ⟨run, rfl⟩ next
    obtain ⟨t', step, step'⟩ | ⟨_, stop, _⟩ := both run
    · rw [next] at step
      cases step
      exact ⟨_, step', run.tail next, rfl⟩
    · rw [next] at stop
      cases stop
  case stop =>
    rintro s _ r ⟨run, rfl⟩ next
    obtain ⟨_, step, _⟩ | ⟨o, stop, stop'⟩ := both run
    · rw [next] at step
      cases step
    · rw [next] at stop
      cases stop
      exact ⟨_, stop', .stopped⟩

end

end ToyIsa.Asm
