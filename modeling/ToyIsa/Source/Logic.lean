import ToyIsa.Isa.Syscall
import ToyIsa.Lib.Contract
import ToyIsa.Source.Refine

/-!
# Reasoning about source programs

Contracts between positions of a source program. Each kind of instruction has a rule in the style of
Hoare, with the assertion behind the instruction read back through what it does. The states on the
way are `Safe`: control is at an instruction call and no store hits the text. A program that leads
to the exit call therefore exits and is `Contained` (`Leads.exits`).
-/

namespace ToyIsa.Asm

open ExecutionContext Machine Reg

variable {σ : Type}

section

variable (words : List Nat) (start : ExecutionContext σ)

/-- What a program leaves alone until it calls the system. -/
structure Steady (c : ExecutionContext σ) : Prop where
  state : c.state = start.state
  syscalls : c.syscalls = start.syscalls
  size : c.memory.size = start.memory.size
  text : HoldsText words c.memory

/-- Control is at a position, in a context that satisfies an assertion. -/
def At (position : Int) (post : ExecutionContext σ → Prop) (s : SourceState σ) : Prop :=
  s.position = position ∧ Steady words start s.context ∧ post s.context

end

/-- The step from the state stays inside the text and leaves it alone. -/
structure Safe (source : List Call) (words : List Nat) (s : SourceState σ) : Prop where
  inside : s.context.state.status = .running → ∃ call, callAt source s.position = some call
  text : HoldsText words s.context.memory
  stores : ∀ name operands line, callAt source s.position = some (name, operands, line) →
    ∀ target ∈ storeTargets name operands s.context, 4 * words.length ≤ target.toNat

variable {words : List Nat} {start : ExecutionContext σ}

/-- The start is steady. -/
lemma Steady.refl (text : HoldsText words start.memory) : Steady words start start :=
  ⟨rfl, rfl, rfl, text⟩

/-- A register can change. -/
lemma Steady.setReg {c} (steady : Steady words start c) (r w) :
    Steady words start (c.setReg r w) :=
  ⟨steady.state, steady.syscalls, steady.size, steady.text⟩

/-- The registers after an assignment. -/
lemma reg_setReg (c : ExecutionContext σ) (r r' w) :
    (c.setReg r w).reg r' = if r = r' then w else c.reg r' := by
  split
  case isTrue same =>
    subst same
    exact reg_setReg_self c r w
  case isFalse other =>
    have ne : r.index ≠ r'.index := fun same => other (BitVec.eq_of_toNat_eq (Fin.val_congr same))
    exact Vector.getElem_set_ne r.index.isLt r'.index.isLt (Fin.val_ne_of_ne ne)

/-- What holds at a position, weakened. -/
lemma At.weaken {position} {post post' : ExecutionContext σ → Prop} (h : ∀ c, post c → post' c) :
    ∀ s, At words start position post s → At words start position post' s :=
  fun _ ⟨at', steady, p⟩ => ⟨at', steady, h _ p⟩

variable [Host σ] {source : List Call}

/-- A contract of a source program. -/
abbrev Proves (source : List Call) (words : List Nat) (P Q : SourceState σ → Prop) : Prop :=
  Leads (sourceStep source) (Safe source words) P Q

section

variable {position next : Int} {name : Mnemonic} {operands : List RubyValue} {line : Nat}
variable {pre post : ExecutionContext σ → Prop}
variable (running : start.state.status = .running)

include running

/-- An instruction that does not call the system. -/
lemma instruction_rule
    (found : callAt source position = some (name, operands, line))
    (behind : ∀ c, pre c → ∀ target ∈ storeTargets name operands c,
      4 * words.length ≤ target.toNat)
    (run : ∀ c, Steady words start c → pre c → ∃ d,
      sourceEffect name operands c = some (.ok () d) ∧
      sourceNext source position name operands d = some next ∧ Steady words start d ∧ post d) :
    Proves source words (At words start position pre) (At words start next post) := by
  apply Leads.step
  rintro ⟨_, c⟩ ⟨rfl, steady, p⟩
  constructor
  · refine ⟨fun _ => ⟨_, found⟩, steady.text, fun name' operands' line' found' => ?_⟩
    rw [found] at found'
    cases found'
    exact behind c p
  · obtain ⟨d, effect, goes, steady', q⟩ := run c steady p
    refine ⟨⟨next, d⟩, ?_, rfl, steady', q⟩
    have live : c.state.status = .running := by rw [steady.state, running]
    unfold sourceStep
    rw [if_pos live, found]
    dsimp only
    rw [effect]
    dsimp only
    rw [goes]

/-- An instruction that assigns a value to a register. -/
lemma assign_rule {rd : Int}
    {value : ExecutionContext σ → Word}
    (found : callAt source position = some (name, operands, line))
    (effect : ∀ c : ExecutionContext σ,
      sourceEffect name operands c = some (assign c rd (.ok (value c))))
    (quiet : ∀ c : ExecutionContext σ, storeTargets name operands c = [])
    (goes : ∀ c : ExecutionContext σ,
      sourceNext source position name operands c = some (position + 1)) :
    Proves source words (At words start position fun c => post (c.setReg (regOf rd) (value c)))
      (At words start (position + 1) post) := by
  apply instruction_rule running found
  · intro c _ target mem
    rw [quiet] at mem
    cases mem
  · intro c steady q
    exact ⟨_, effect c, goes _, steady.setReg _ _, q⟩

/-- The rule of `Li`. -/
lemma li_rule {rt n : Int}
    (found : callAt source position = some (.li, [.register rt, .integer n], line)) :
    Proves source words (At words start position fun c => post (c.setReg (regOf rt) (wordOf n)))
      (At words start (position + 1) post) :=
  assign_rule running found (fun _ => rfl) (fun _ => rfl) fun _ => rfl

/-- The rule of `Addi`. -/
lemma addi_rule {rt rs n : Int}
    (found : callAt source position =
      some (.addi, [.register rt, .register rs, .integer n], line)) :
    Proves source words
      (At words start position fun c =>
        post (c.setReg (regOf rt) (c.reg (regOf rs) + wordOf n)))
      (At words start (position + 1) post) :=
  assign_rule running found (fun _ => rfl) (fun _ => rfl) fun _ => rfl

/-- The rule of `Add`. -/
lemma add_rule {rd rs rt : Int}
    (found : callAt source position =
      some (.add, [.register rd, .register rs, .register rt], line)) :
    Proves source words
      (At words start position fun c =>
        post (c.setReg (regOf rd) (c.reg (regOf rs) + c.reg (regOf rt))))
      (At words start (position + 1) post) :=
  assign_rule running found (fun _ => rfl) (fun _ => rfl) fun _ => rfl

/-- An instruction that only moves control. -/
lemma move_rule
    (found : callAt source position = some (name, operands, line))
    (effect : ∀ c : ExecutionContext σ, sourceEffect name operands c = some (.ok () c))
    (quiet : ∀ c : ExecutionContext σ, storeTargets name operands c = [])
    (goes : ∀ c, post c → sourceNext source position name operands c = some next) :
    Proves source words (At words start position post) (At words start next post) := by
  apply instruction_rule running found
  · intro c _ target mem
    rw [quiet] at mem
    cases mem
  · intro c steady q
    exact ⟨c, effect c, goes c q, steady, q⟩

/-- A jump to a label. -/
lemma jump_rule {label : String} {place : Nat}
    (found : callAt source position = some (.j, [.symbol label], line))
    (bound : placeOf label source = some place) :
    Proves source words (At words start position post) (At words start place post) := by
  apply move_rule running found (fun _ => rfl) (fun _ => rfl)
  intro c _
  show (placeOf label source).map Int.ofNat = some (place : Int)
  rw [bound]
  rfl

/-- A branch that is taken. -/
lemma taken_rule {rs rt : Int} {label : String}
    {place : Nat}
    (found : callAt source position =
      some (.beq, [.register rs, .register rt, .symbol label], line))
    (bound : placeOf label source = some place)
    (same : ∀ c, post c → c.reg (regOf rs) = c.reg (regOf rt)) :
    Proves source words (At words start position post) (At words start place post) := by
  apply move_rule running found (fun _ => rfl) (fun _ => rfl)
  intro c q
  show (if c.reg (regOf rs) = c.reg (regOf rt) then (placeOf label source).map Int.ofNat
    else some (position + 1)) = some (place : Int)
  rw [if_pos (same c q), bound]
  rfl

/-- A branch that is not taken. -/
lemma fall_rule {rs rt : Int} {label : String}
    (found : callAt source position =
      some (.beq, [.register rs, .register rt, .symbol label], line))
    (other : ∀ c, post c → c.reg (regOf rs) ≠ c.reg (regOf rt)) :
    Proves source words (At words start position post) (At words start (position + 1) post) := by
  apply move_rule running found (fun _ => rfl) (fun _ => rfl)
  intro c q
  exact if_neg (other c q)

/-- The context after an exit with a code. -/
def ExitedWith (words : List Nat) (start : ExecutionContext σ) (position : Int) (code : Word)
    (s : SourceState σ) : Prop :=
  s.position = position ∧ ∃ c, Steady words start c ∧
    s.context = (c.halted code).logged (.exit code)

/-- A call of exit. -/
lemma exit_rule {code : Word}
    (found : callAt source position = some (.syscall, [], line)) :
    Proves source words
      (At words start position fun c => c.reg r8 = 60 ∧ c.reg r0 = code)
      (ExitedWith words start position code) := by
  apply Leads.step
  rintro ⟨_, c⟩ ⟨rfl, steady, number, value⟩
  constructor
  · refine ⟨fun _ => ⟨_, found⟩, steady.text, fun name operands line found' => ?_⟩
    rw [found] at found'
    cases found'
    exact nofun
  · refine ⟨⟨_, (c.halted code).logged (.exit code)⟩, ?_, rfl, c, steady, rfl⟩
    have live : c.state.status = .running := by rw [steady.state, running]
    have called : TISyscallEmulator.execute c =
        .ok () ((c.halted code).logged (.exit code)) := by
      rw [execute_eq, number, if_neg (by decide), if_neg (by decide), if_pos rfl, exitCall, value]
    have effect : sourceEffect .syscall [] c =
        some (.ok () ((c.halted code).logged (.exit code))) :=
      congrArg some called
    unfold sourceStep
    rw [if_pos live, found]
    dsimp only
    rw [effect]
    rfl

omit running

omit [Host σ] in
/-- The exit call stays inside the text. -/
lemma ExitedWith.safe {code : Word} {s : SourceState σ}
    (found : callAt source position = some (.syscall, [], line))
    (h : ExitedWith words start position code s) : Safe source words s := by
  obtain ⟨rfl, c, steady, exited⟩ := h
  refine ⟨fun live => ?_, ?_, fun name operands line found' => ?_⟩
  · rw [exited] at live
    cases live
  · rw [exited]
    exact steady.text
  · rw [found] at found'
    cases found'
    exact nofun

/-- The source stops at its exit call. -/
lemma ExitedWith.stops {code : Word} {s : SourceState σ}
    (h : ExitedWith words start position code s) :
    sourceStep source s = .inr (.stopped position (.ok () s.context)) := by
  obtain ⟨rfl, c, _, exited⟩ := h
  apply if_neg
  rw [exited]
  exact nofun

end

/-- The contract of a program that calls exit: it exits with the code, without another system call,
and its run stays inside its text and leaves the text alone. -/
lemma Leads.exits {position : Int} {line : Nat} {code : Word}
    (running : start.state.status = .running)
    (found : callAt source position = some (.syscall, [], line))
    (h : Proves source words (· = ⟨0, start⟩)
      (At words start position fun c => c.reg r8 = 60 ∧ c.reg r0 = code)) :
    (∃ c, Halts (sourceStep source) ⟨0, start⟩ (.stopped position (.ok () c)) ∧
      c.state.exitCode = code ∧ c.syscalls = start.syscalls ++ [.exit code]) ∧
    Contained source words start := by
  have whole := Leads.trans h (exit_rule running found)
  constructor
  · obtain ⟨r, halts, c, rfl, code, calls⟩ := whole.halts (E := fun r => ∃ c,
        r = .stopped position (.ok () c) ∧ c.state.exitCode = code ∧
          c.syscalls = start.syscalls ++ [.exit code]) (fun s exited => by
      refine ⟨_, exited.stops, s.context, rfl, ?_⟩
      obtain ⟨_, c, steady, e⟩ := exited
      rw [e]
      exact ⟨rfl, congrArg (· ++ [_]) steady.syscalls⟩) rfl
    exact ⟨c, halts, code, calls⟩
  · have safe {s} (visited : Reach (sourceStep source) ⟨0, start⟩ s) : Safe source words s :=
      whole.invariant (fun s exited => ⟨exited.safe found, _, exited.stops⟩) rfl visited
    exact ⟨fun s visited => (safe visited).inside, fun s visited => (safe visited).text,
      fun s name operands line visited => (safe visited).stores name operands line⟩

end ToyIsa.Asm
