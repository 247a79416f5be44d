import Mathlib.Data.Nat.Fib.Basic
import ToyIsa.Assembler.Accepts
import ToyIsa.Source.Logic

/-!
# The Fibonacci example

`fibbonachi.rb` of `examples/asm`, with the number in its first instruction as a parameter. The
source computes Fibonacci numbers modulo `2 ^ 32` (`fibbonachi_exits`).
-/

namespace ToyIsa.Asm

open ExecutionContext Machine Reg

/-- The calls of the source file. -/
def fibbonachi (n : Int) : List Call := [
  .sect (.symbol "text"),
  .instruction .li [.register 1, .integer n] 3,
  .instruction .li [.register 2, .integer 2] 4,
  .instruction .li [.register 0, .integer 1] 6,
  .instruction .li [.register 3, .integer 1] 7,
  .label (.symbol "Loop"),
  .instruction .addi [.register 4, .register 0, .integer 0] 11,
  .instruction .add [.register 0, .register 0, .register 3] 12,
  .instruction .addi [.register 3, .register 4, .integer 0] 13,
  .instruction .addi [.register 1, .register 1, .integer (-1)] 14,
  .instruction .beq [.register 1, .register 2, .symbol "Exit"] 16,
  .instruction .j [.symbol "Loop"] 17,
  .label (.symbol "Exit"),
  .instruction .li [.register 8, .integer 60] 21,
  .instruction .syscall [] 22]

variable {n : Int}

/-- Every call of the source is allowed where it stands. -/
lemma fibbonachi_allowed : AllAllowed [] (fibbonachi n) := by
  have text : sectionOf (.symbol "text") = some .text := by decide
  refine ⟨⟨.text, text, nofun⟩, ?_⟩
  simp only [AllAllowed, Allowed, sectionAfter_concat, Call.section?, text]
  simp [sectionAfter]

/-- Where the loop starts. -/
lemma fibbonachi_loop : Defines (fibbonachi n) "Loop" ⟨.text, 16⟩ :=
  ⟨(fibbonachi n).take 5, (fibbonachi n).drop 6, rfl, rfl⟩

/-- Where the loop ends. -/
lemma fibbonachi_exit : Defines (fibbonachi n) "Exit" ⟨.text, 40⟩ :=
  ⟨(fibbonachi n).take 12, (fibbonachi n).drop 13, rfl, rfl⟩

/-- A property of all entries of a list, with their places. -/
lemma forall_getElem?_cons {α : Type} {P : Nat → α → Prop} {x : α} {l : List α} :
    (∀ i a, (x :: l)[i]? = some a → P i a) ↔ P 0 x ∧ ∀ i a, l[i]? = some a → P (i + 1) a := by
  constructor
  · exact fun h => ⟨h 0 x rfl, fun i a found => h (i + 1) a found⟩
  · rintro ⟨first, rest⟩ i a found
    cases i with
    | zero =>
      cases found
      exact first
    | succ i => exact rest i a found

/-- The source is well formed exactly for numbers that fit in the immediate. -/
lemma fibbonachi_wellFormed : WellFormed (fibbonachi n) ↔ IsSigned 16 (.integer n) := by
  have register {index : Int} (range : 0 ≤ index ∧ index < 32) : IsRegister (.register index) :=
    ⟨index, rfl, range⟩
  have signed {m : Int} (range : -2 ^ 15 ≤ m ∧ m ≤ 2 ^ 15 - 1) : IsSigned 16 (.integer m) :=
    ⟨m, rfl, range⟩
  constructor
  · intro wellFormed
    have first := wellFormed.encodable 0 _ rfl
    cases first with
    | cons _ rest =>
      cases rest with
      | cons fits _ => exact fits
  · intro fits
    refine ⟨fibbonachi_allowed, ?_⟩
    have loop : IsJumpTarget (Defines (fibbonachi n)) (.symbol "Loop") :=
      ⟨_, _, rfl, fibbonachi_loop, rfl, rfl, by decide, by decide⟩
    have exit : IsBranchTarget (Defines (fibbonachi n)) (4 * (8 : Nat)) (.symbol "Exit") :=
      .inr ⟨_, _, rfl, fibbonachi_exit, rfl, rfl, by decide, by decide⟩
    show ∀ i call, ([_, _, _, _, _, _, _, _, _, _, _, _] : List _)[i]? = some call → _
    simp only [forall_getElem?_cons]
    have li {rt m : Int} (range : 0 ≤ rt ∧ rt < 32) (fits : IsSigned 16 (.integer m)) (i line) :
        Encodable (Defines (fibbonachi n)) (placed i (.li, [.register rt, .integer m], line)) :=
      .cons (register range) (.cons fits .nil)
    have addi {rt rs m : Int} (ranges : (0 ≤ rt ∧ rt < 32) ∧ 0 ≤ rs ∧ rs < 32)
        (range : -2 ^ 15 ≤ m ∧ m ≤ 2 ^ 15 - 1) (i line) :
        Encodable (Defines (fibbonachi n))
          (placed i (.addi, [.register rt, .register rs, .integer m], line)) :=
      .cons (register ranges.1) (.cons (register ranges.2) (.cons (signed range) .nil))
    have add (i line) : Encodable (Defines (fibbonachi n))
        (placed i (.add, [.register 0, .register 0, .register 3], line)) :=
      .cons (register (by decide))
        (.cons (register (by decide)) (.cons (register (by decide)) .nil))
    exact ⟨li (by decide) fits 0 3, li (by decide) (signed (by decide)) 1 4,
      li (by decide) (signed (by decide)) 2 6, li (by decide) (signed (by decide)) 3 7,
      addi (by decide) (by decide) 4 11, add 5 12, addi (by decide) (by decide) 6 13,
      addi (by decide) (by decide) 7 14,
      .cons (register (by decide)) (.cons (register (by decide)) (.cons exit .nil)),
      .cons loop .nil, li (by decide) (signed (by decide)) 10 21, .nil, nofun⟩

/-- The rounds of the loop in front of the last one. Below 3 the counter wraps around. -/
def roundsOf (n : Int) : Nat := ((n - 3) % 2 ^ 32).toNat

/-- Which Fibonacci number the program computes. -/
def fibbonachiIndex (n : Int) : Nat := roundsOf n + 3

/-- From 3 on it is the number of the source. -/
lemma fibbonachiIndex_eq (low : 3 ≤ n) (high : n < 2 ^ 15) :
    fibbonachiIndex n = n.toNat := by
  unfold fibbonachiIndex roundsOf
  omega

/-- Below 3 it is as many rounds later as the counter has values. -/
lemma fibbonachiIndex_of_lt (low : -2 ^ 15 ≤ n) (high : n < 3) :
    (fibbonachiIndex n : Int) = n + 2 ^ 32 := by
  unfold fibbonachiIndex roundsOf
  omega

/-- The counter starts with the index. -/
lemma wordOf_eq : wordOf n = .ofNat 32 (fibbonachiIndex n) := by
  apply BitVec.eq_of_toNat_eq
  unfold wordOf fibbonachiIndex roundsOf
  rw [BitVec.toNat_ofInt, BitVec.toNat_ofNat]
  omega

variable {σ : Type}

/-- The registers of the loop: the current number, the last one and the counter. -/
structure Values (current last count : Word) (c : ExecutionContext σ) : Prop where
  current : c.reg 0#5 = current
  last : c.reg 3#5 = last
  count : c.reg 1#5 = count
  bound : c.reg 2#5 = 2#32

variable [Host σ] {words : List Nat} {start : ExecutionContext σ}
variable (running : start.state.status = .running)

include running

/-- The instructions in front of the loop. -/
lemma fibbonachi_entry (text : HoldsText words start.memory) :
    Proves (fibbonachi n) words (· = ⟨0, start⟩) (At words start 4 (Values 1 1 (wordOf n))) := by
  have at0 : callAt (fibbonachi n) 0 = some (.li, [.register 1, .integer n], 3) := rfl
  have at1 : callAt (fibbonachi n) 1 = some (.li, [.register 2, .integer 2], 4) := rfl
  have at2 : callAt (fibbonachi n) 2 = some (.li, [.register 0, .integer 1], 6) := rfl
  have at3 : callAt (fibbonachi n) 3 = some (.li, [.register 3, .integer 1], 7) := rfl
  refine Leads.weaken ?_ ((li_rule running at0).trans ((li_rule running at1).trans
    ((li_rule running at2).trans (li_rule running at3)))) fun _ h => h
  rintro _ rfl
  refine ⟨rfl, .refl text, ?_⟩
  constructor <;> simp [reg_setReg, regOf, wordOf]

/-- The instructions of the loop in front of the branch. -/
lemma fibbonachi_body {current last count : Word} :
    Proves (fibbonachi n) words (At words start 4 (Values current last count))
      (At words start 8 (Values (current + last) current (count - 1))) := by
  have at4 : callAt (fibbonachi n) 4 =
      some (.addi, [.register 4, .register 0, .integer 0], 11) := rfl
  have at5 : callAt (fibbonachi n) 5 =
      some (.add, [.register 0, .register 0, .register 3], 12) := rfl
  have at6 : callAt (fibbonachi n) 6 =
      some (.addi, [.register 3, .register 4, .integer 0], 13) := rfl
  have at7 : callAt (fibbonachi n) 7 =
      some (.addi, [.register 1, .register 1, .integer (-1)], 14) := rfl
  refine Leads.weaken (At.weaken ?_) ((addi_rule running at4).trans ((add_rule running at5).trans
    ((addi_rule running at6).trans (addi_rule running at7)))) fun _ h => h
  rintro c ⟨current, last, count, bound⟩
  have down (w : Word) : w + 4294967295#32 = w - 1#32 := (BitVec.sub_eq_add_neg w 1#32).symm
  constructor <;> simp [reg_setReg, regOf, wordOf, current, last, count, bound, down]

/-- The registers after `i` rounds. -/
abbrev Numbers (i count : Nat) : ExecutionContext σ → Prop :=
  Values (.ofNat 32 (Nat.fib (i + 2))) (.ofNat 32 (Nat.fib (i + 1))) (.ofNat 32 count)

/-- One round up to the branch. -/
lemma fibbonachi_numbers {i count : Nat} :
    Proves (fibbonachi n) words (At words start 4 (Numbers i (count + 1)))
      (At words start 8 (Numbers (i + 1) count)) := by
  have sum : BitVec.ofNat 32 (Nat.fib (i + 2)) + BitVec.ofNat 32 (Nat.fib (i + 1)) =
      BitVec.ofNat 32 (Nat.fib (i + 3)) := by
    rw [← BitVec.ofNat_add, Nat.add_comm, ← Nat.fib_add_two]
  have less : BitVec.ofNat 32 (count + 1) - 1 = BitVec.ofNat 32 count := by
    rw [BitVec.ofNat_add]
    exact BitVec.add_sub_cancel _ _
  have body := @fibbonachi_body n σ _ words start running (.ofNat 32 (Nat.fib (i + 2)))
    (.ofNat 32 (Nat.fib (i + 1))) (.ofNat 32 (count + 1))
  rwa [sum, less] at body

/-- The loop, with `j` rounds to go before the last of `m + 1`. -/
def Rounds (m j : Nat) (c : ExecutionContext σ) : Prop := ∃ i, i + j = m ∧ Numbers i (j + 3) c

/-- A round that is not the last. -/
lemma fibbonachi_round {m : Nat} (small : m < 2 ^ 32) (j : Nat) :
    Proves (fibbonachi n) words (At words start 4 (Rounds m (j + 1)))
      (At words start 4 (Rounds m j)) := by
  have at8 : callAt (fibbonachi n) 8 =
      some (.beq, [.register 1, .register 2, .symbol "Exit"], 16) := rfl
  have at9 : callAt (fibbonachi n) 9 = some (.j, [.symbol "Loop"], 17) := rfl
  have loop : placeOf "Loop" (fibbonachi n) = some 4 := rfl
  rintro s ⟨position, steady, i, total, numbers⟩
  have more (c : ExecutionContext σ) (numbers : Numbers (i + 1) (j + 3) c) :
      c.reg (regOf 1) ≠ c.reg (regOf 2) := by
    show c.reg 1#5 ≠ c.reg 2#5
    rw [numbers.count, numbers.bound]
    intro same
    have count : (j + 3) % 2 ^ 32 = 2 := by simpa using congrArg BitVec.toNat same
    omega
  have path : Proves (fibbonachi n) words (At words start 4 (Numbers i (j + 3 + 1)))
      (At words start 4 (Numbers (i + 1) (j + 3))) :=
    (fibbonachi_numbers running).trans
      ((fall_rule running at8 more).trans (jump_rule running at9 loop))
  obtain ⟨t, run, position', steady', numbers'⟩ := path s ⟨position, steady, numbers⟩
  exact ⟨t, run, position', steady', i + 1, by omega, numbers'⟩

/-- The last round and the instruction behind the loop. -/
lemma fibbonachi_last {m : Nat} :
    Proves (fibbonachi n) words (At words start 4 (Rounds m 0))
      (At words start 11 fun c => c.reg r8 = 60 ∧ c.reg r0 = .ofNat 32 (Nat.fib (m + 3))) := by
  have at8 : callAt (fibbonachi n) 8 =
      some (.beq, [.register 1, .register 2, .symbol "Exit"], 16) := rfl
  have at10 : callAt (fibbonachi n) 10 = some (.li, [.register 8, .integer 60], 21) := rfl
  have exit : placeOf "Exit" (fibbonachi n) = some 10 := rfl
  rintro s ⟨position, steady, i, rfl, numbers⟩
  have done (c : ExecutionContext σ) (numbers : Numbers (i + 1) 2 c) :
      c.reg (regOf 1) = c.reg (regOf 2) := numbers.count.trans numbers.bound.symm
  have path : Proves (fibbonachi n) words (At words start 4 (Numbers i 3))
      (At words start 10 (Numbers (i + 1) 2)) :=
    (fibbonachi_numbers running).trans (taken_rule running at8 exit done)
  refine (path.trans ((li_rule running at10).weaken (At.weaken fun c numbers => ?_)
    fun _ h => h)) s ⟨position, steady, numbers⟩
  constructor
  · simp [reg_setReg, regOf, wordOf, r8]
  · simp [reg_setReg, regOf, wordOf, r0, numbers.current]

/-- The source exits with a Fibonacci number, and leaves its text alone. -/
lemma fibbonachi_exits (text : HoldsText words start.memory) :
    (∃ c, Halts (sourceStep (fibbonachi n)) ⟨0, start⟩ (.stopped 11 (.ok () c)) ∧
      c.state.exitCode = .ofNat 32 (Nat.fib (fibbonachiIndex n)) ∧
      c.syscalls = start.syscalls ++ [.exit (.ofNat 32 (Nat.fib (fibbonachiIndex n)))]) ∧
    Contained (fibbonachi n) words start := by
  have at11 : callAt (fibbonachi n) 11 = some (.syscall, [], 22) := rfl
  have small : roundsOf n < 2 ^ 32 := by
    unfold roundsOf
    omega
  have first (c : ExecutionContext σ) (values : Values 1 1 (wordOf n) c) :
      Rounds (roundsOf n) (roundsOf n) c := by
    rw [wordOf_eq] at values
    exact ⟨0, Nat.zero_add _, values⟩
  have entry := (fibbonachi_entry running text).weaken (fun _ h => h) (At.weaken first)
  have loop : Proves (fibbonachi n) words (At words start 4 (Rounds (roundsOf n) (roundsOf n)))
      (At words start 4 (Rounds (roundsOf n) 0)) :=
    Leads.countdown (I := fun j => At words start 4 (Rounds (roundsOf n) j))
      (fibbonachi_round running small) (roundsOf n)
  exact Leads.exits running at11 (entry.trans (loop.trans (fibbonachi_last running)))

end ToyIsa.Asm
