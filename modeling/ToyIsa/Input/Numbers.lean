import Mathlib.Data.List.TakeWhile
import ToyIsa.Input.Order

/-!
# A failed number

An extraction that fails sets `failbit`, and nothing clears it, so every READ_NUMBER after it fails
as well. `numbers_read_iff` says for which inputs a sequence of READ_NUMBER calls still returns
every integer that comes next: where the call that fails is the last one, or leaves no integer next.
-/

namespace ToyIsa

open ExecutionContext TISyscallEmulator Reg Stdin

/-! The next integer of an input. -/

/-- A sign in front of a number gives the integer. -/
inductive Signed (n : Nat) : List Byte → Int → Prop where
  | unsigned : Signed n [] n
  | plus : Signed n [43] n
  | minus : Signed n [45] (-n)

/-- The input starts, after white space, with the decimal integer `v`, which fits in 32 bits. -/
def NextIs (input : List Byte) (v : Int) : Prop :=
  ∃ spaces sign digits rest, input = spaces ++ (sign ++ (digits ++ rest)) ∧
    (∀ b ∈ spaces, isSpace b = true) ∧ Signed (decimal digits) sign v ∧
    digits ≠ [] ∧ (∀ b ∈ digits, isDigit b = true) ∧
    (∀ b ∈ rest.head?, isDigit b = false) ∧ -2 ^ 31 ≤ v ∧ v < 2 ^ 31

section

variable {α : Type} {p : α → Bool} {l rest : List α}

/-- The longest run ends where the rest begins. -/
lemma takeWhile_run (run : ∀ b ∈ l, p b = true) (ends : ∀ b ∈ rest.head?, p b = false) :
    (l ++ rest).takeWhile p = l ∧ (l ++ rest).dropWhile p = rest := by
  rw [List.takeWhile_append_of_pos run, List.dropWhile_append_of_pos run]
  cases rest with
  | nil => exact ⟨List.append_nil l, rfl⟩
  | cons b rest =>
    have stop : p b = false := ends b rfl
    rw [List.takeWhile_cons, List.dropWhile_cons, stop]
    exact ⟨List.append_nil l, rfl⟩

/-- The longest run stops where the condition fails. -/
lemma head_dropWhile (p : α → Bool) (l : List α) : ∀ b ∈ (l.dropWhile p).head?, p b = false := by
  intro b mem
  have stop := List.head?_dropWhile_not p l
  rw [Option.mem_def.mp mem] at stop
  exact stop

end

/-- The sign that `splitSign` finds. -/
lemma splitSign_cases (input : List Byte) : ∃ sign bytes, input = sign ++ bytes ∧
    splitSign input = (decide (sign = [45]), bytes) ∧ (sign = [] ∨ sign = [43] ∨ sign = [45]) := by
  cases input with
  | nil => exact ⟨[], [], rfl, rfl, .inl rfl⟩
  | cons b bytes =>
    unfold splitSign
    dsimp only
    split
    case isTrue minus =>
      obtain rfl : b = 45 := by simpa [isMinus] using minus
      exact ⟨[45], bytes, rfl, rfl, .inr (.inr rfl)⟩
    case isFalse =>
      split
      case isTrue plus =>
        obtain rfl : b = 43 := by simpa [isPlus] using plus
        exact ⟨[43], bytes, rfl, rfl, .inr (.inl rfl)⟩
      case isFalse => exact ⟨[], b :: bytes, rfl, rfl, .inl rfl⟩

/-- A digit is neither a sign nor white space. -/
lemma isDigit_bounds {b : Byte} (h : isDigit b = true) : 48 ≤ b.toNat ∧ b.toNat ≤ 57 := by
  unfold isDigit at h
  rw [Bool.and_eq_true, decide_eq_true_eq, decide_eq_true_eq, BitVec.le_def, BitVec.le_def] at h
  exact h

/-- The sign in front of digits. -/
lemma splitSign_signed {n : Nat} {sign digits : List Byte} {v} (signed : Signed n sign v)
    (ne : digits ≠ []) (all : ∀ b ∈ digits, isDigit b = true) (rest) :
    ∃ negative, splitSign (sign ++ (digits ++ rest)) = (negative, digits ++ rest) ∧
      v = if negative then -(n : Int) else n := by
  cases signed with
  | plus => exact ⟨false, rfl, rfl⟩
  | minus => exact ⟨true, rfl, rfl⟩
  | unsigned =>
    obtain ⟨b, bytes, rfl⟩ := List.exists_cons_of_ne_nil ne
    obtain ⟨low, _⟩ := isDigit_bounds (all b List.mem_cons_self)
    have minus : isMinus b = false := by
      refine Bool.eq_false_iff.mpr fun minus => ?_
      obtain rfl : b = 45 := by simpa [isMinus] using minus
      exact absurd low (by decide)
    have plus : isPlus b = false := by
      refine Bool.eq_false_iff.mpr fun plus => ?_
      obtain rfl : b = 43 := by simpa [isPlus] using plus
      exact absurd low (by decide)
    refine ⟨false, ?_, rfl⟩
    simp [splitSign, minus, plus]

/-- A sign or a digit ends the white space. -/
lemma signed_head {n : Nat} {sign digits : List Byte} {v} (signed : Signed n sign v)
    (ne : digits ≠ []) (all : ∀ b ∈ digits, isDigit b = true) (rest : List Byte) :
    ∀ b ∈ (sign ++ (digits ++ rest)).head?, isSpace b = false := by
  cases signed with
  | plus => rintro _ ⟨⟩; rfl
  | minus => rintro _ ⟨⟩; rfl
  | unsigned =>
    obtain ⟨b, bytes, rfl⟩ := List.exists_cons_of_ne_nil ne
    rintro _ ⟨⟩
    obtain ⟨low, _⟩ := isDigit_bounds (all b List.mem_cons_self)
    refine Bool.eq_false_iff.mpr fun space => ?_
    simp only [isSpace, Bool.or_eq_true, beq_iff_eq, Bool.and_eq_true, decide_eq_true_eq,
      BitVec.le_def] at space
    rcases space with rfl | ⟨_, high⟩
    · exact absurd low (by decide)
    · have : (13 : Byte).toNat = 13 := rfl
      omega

/-- The value of digits and a sign, if it fits. -/
lemma number_iff {negative : Bool} {digits : List Byte} {v : Int} :
    number negative digits = some v ↔ digits ≠ [] ∧
      v = (if negative then -(decimal digits : Int) else decimal digits) ∧
      -2 ^ 31 ≤ v ∧ v < 2 ^ 31 := by
  unfold number
  dsimp only
  generalize (if negative = true then -(decimal digits : Int) else decimal digits) = value
  split
  case isTrue range =>
    obtain ⟨ne, low, high⟩ := range
    constructor
    · rintro ⟨⟩
      exact ⟨ne, rfl, low, high⟩
    · rintro ⟨_, rfl, _⟩
      rfl
  case isFalse range =>
    refine ⟨nofun, ?_⟩
    rintro ⟨ne, rfl, low, high⟩
    exact absurd ⟨ne, low, high⟩ range

/-- What is found in front of the input is its next integer. -/
theorem nextNumber_iff {input : List Byte} {v : Int} :
    nextNumber input = some v ↔ NextIs input v := by
  constructor
  · intro found
    obtain ⟨sign, bytes, split, e, form⟩ := splitSign_cases (input.dropWhile isSpace)
    unfold nextNumber at found
    rw [e] at found
    obtain ⟨ne, value, low, high⟩ := number_iff.mp found
    refine ⟨input.takeWhile isSpace, sign, bytes.takeWhile isDigit, bytes.dropWhile isDigit, ?_,
      fun b mem => List.mem_takeWhile_imp mem, ?_, ne, fun b mem => List.mem_takeWhile_imp mem,
      head_dropWhile _ _, low, high⟩
    · rw [List.takeWhile_append_dropWhile, ← split, List.takeWhile_append_dropWhile]
    · rw [value]
      rcases form with rfl | rfl | rfl
      · exact .unsigned
      · exact .plus
      · exact .minus
  · rintro ⟨spaces, sign, digits, rest, rfl, blank, signed, ne, all, ends, low, high⟩
    obtain ⟨negative, split, value⟩ := splitSign_signed signed ne all rest
    have first := (takeWhile_run blank (signed_head signed ne all rest)).2
    have run := (takeWhile_run all ends).1
    unfold nextNumber
    rw [first, split]
    dsimp only
    rw [run]
    exact number_iff.mpr ⟨ne, value, low, high⟩

/-! Sequences of calls. -/

/-- Every READ_NUMBER with an integer next in the input returns this integer. -/
def ReadsNumbers (cs : List (ExecutionContext Stdin)) : Prop :=
  ∀ c ∈ cs, ∀ v, NextIs c.host.rest v →
    (resultContext (TISyscallEmulator.execute c)).reg r0 = BitVec.ofInt 32 v

/-- The first of `calls` extractions that does not find an integer is the last one, or leaves no
integer next. The integer -22 does no harm: it is the answer `-EINVAL` of a call that fails. -/
def Unpoisoned : (calls : Nat) → (input : List Byte) → Prop
  | 0, _ => True
  | calls + 1, input =>
    match nextNumber input with
    | some _ => Unpoisoned calls (afterNumber input)
    | none => calls = 0 ∨ ∀ v, NextIs (afterNumber input) v → v = -22

variable {c : ExecutionContext Stdin}

/-- The answer of a READ_NUMBER. -/
lemma readNumber_r0 (call : c.CallsReadNumber) :
    (resultContext (TISyscallEmulator.execute c)).reg r0 =
      match c.host.extract.1 with
      | some value => value
      | none => syscallError (if c.host.extract.2.atEnd then enodata else einval) := by
  have number : c.reg r8 = readNumberSyscall := call
  rw [execute_eq, number, if_neg (by decide), if_neg (by decide), if_neg (by decide), if_pos rfl]
  unfold readNumberCall
  rcases e : (Host.extract c.host : Option Word × Stdin) with ⟨value, s⟩
  have e' : c.host.extract = (value, s) := e
  rw [e']
  cases value <;> exact ExecutionContext.reg_setReg_self _ _ _

/-- Nothing is next in an empty input. -/
lemma not_nextIs_nil (v) : ¬ NextIs [] v := fun h => by
  have found := nextNumber_iff.mpr h
  cases found

/-- An integer that reads as the error of a call that fails. -/
lemma einval_eq_iff {input : List Byte} {v : Int} (next : NextIs input v) :
    syscallError einval = BitVec.ofInt 32 v ↔ v = -22 := by
  obtain ⟨_, _, _, _, _, _, _, _, _, _, low, high⟩ := next
  constructor
  · intro e
    have values := congrArg BitVec.toInt e
    rw [BitVec.toInt_ofInt_eq_self (by decide) low high] at values
    exact values.symm
  · rintro rfl
    rfl

/-- At the end of the input `std::cin` has nothing left. -/
def Ended (s : Stdin) : Prop := s.atEnd = true → s.rest = []

/-- A READ_NUMBER on a stream that has not failed. -/
lemma readNumber_open (call : c.CallsReadNumber) (ok : c.host.failed = false)
    (ended : Ended c.host) :
    (∀ v, NextIs c.host.rest v →
      (resultContext (TISyscallEmulator.execute c)).reg r0 = BitVec.ofInt 32 v) ∧
    (inputAfter c).rest = afterNumber c.host.rest ∧
    (inputAfter c).failed = (nextNumber c.host.rest).isNone ∧ Ended (inputAfter c) := by
  rw [inputAfter_readNumber call, readNumber_r0 call]
  cases more : c.host.atEnd with
  | false =>
    obtain ⟨taken, s', e, extracted⟩ := extract_good ok more
    rw [e]
    refine ⟨fun v next => ?_, extracted.rest, extracted.failed, extracted.atEnd⟩
    rw [nextNumber_iff.mpr next]
    rfl
  | true =>
    have nil : c.host.rest = [] := ended more
    rw [extract_bad (.inr more), nil]
    exact ⟨fun v next => absurd next (not_nextIs_nil v), nil, rfl, fun _ => nil⟩

/-- A READ_NUMBER on a stream that has failed. -/
lemma readNumber_failed (call : c.CallsReadNumber) (bad : c.host.failed = true)
    (ended : Ended c.host) :
    ((∀ v, NextIs c.host.rest v →
        (resultContext (TISyscallEmulator.execute c)).reg r0 = BitVec.ofInt 32 v) ↔
      ∀ v, NextIs c.host.rest v → v = -22) ∧
    (inputAfter c).rest = c.host.rest ∧ (inputAfter c).failed = true ∧ Ended (inputAfter c) := by
  rw [inputAfter_readNumber call, readNumber_r0 call, extract_bad (.inl bad)]
  refine ⟨forall_congr' fun v => forall_congr' fun next => ?_, rfl, rfl, ended⟩
  have more : c.host.atEnd = false := by
    refine Bool.eq_false_iff.mpr fun atEnd => ?_
    rw [ended atEnd] at next
    exact not_nextIs_nil v next
  simp only [more, Bool.false_eq_true, if_false]
  exact einval_eq_iff next

/-- The calls after one that has failed. -/
lemma readsNumbers_failed {s cs} (calls : InputCalls s cs) (only : ∀ c ∈ cs, c.CallsReadNumber)
    (bad : s.failed = true) (ended : Ended s) :
    ReadsNumbers cs ↔ cs = [] ∨ ∀ v, NextIs s.rest v → v = -22 := by
  unfold ReadsNumbers
  induction calls with
  | nil => exact iff_of_true (fun c mem => absurd mem List.not_mem_nil) (.inl rfl)
  | @cons c cs _ _ ih =>
    obtain ⟨call, only⟩ := List.forall_mem_cons.mp only
    obtain ⟨answer, rest, bad', ended'⟩ := readNumber_failed call bad ended
    rw [List.forall_mem_cons, answer, ih only bad' ended', rest]
    constructor
    · exact fun h => .inr h.1
    · rintro (none | all)
      · cases none
      · exact ⟨all, .inr all⟩

/-- The calls from a point on where none has failed. -/
lemma readsNumbers_iff {s cs} (calls : InputCalls s cs) (only : ∀ c ∈ cs, c.CallsReadNumber)
    (ok : s.failed = false) (ended : Ended s) :
    ReadsNumbers cs ↔ Unpoisoned cs.length s.rest := by
  induction calls with
  | nil => exact iff_of_true (fun c mem => absurd mem List.not_mem_nil) trivial
  | @cons c cs _ calls ih =>
    obtain ⟨call, only⟩ := List.forall_mem_cons.mp only
    obtain ⟨answer, rest, failed, ended'⟩ := readNumber_open call ok ended
    have later : ReadsNumbers (c :: cs) ↔ ReadsNumbers cs := by
      unfold ReadsNumbers
      rw [List.forall_mem_cons, and_iff_right answer]
    rw [later, List.length_cons, Unpoisoned]
    cases found : nextNumber c.host.rest with
    | some v =>
      rw [found] at failed
      rw [ih only failed ended', rest]
    | none =>
      rw [found] at failed
      rw [readsNumbers_failed calls only failed ended', rest, List.length_eq_zero_iff]

/-- A sequence of READ_NUMBER calls returns every integer that comes next in standard input exactly
if the first call that finds no integer is the last one, or leaves no integer next. -/
theorem numbers_read_iff {bytes : List Byte} {supply cs}
    (calls : InputCalls (.ofBytes bytes supply) cs) (only : ∀ c ∈ cs, c.CallsReadNumber) :
    ReadsNumbers cs ↔ Unpoisoned cs.length bytes := by
  have all : (Stdin.ofBytes bytes supply).rest = bytes := List.zipIdx_map_fst 0 bytes
  rw [readsNumbers_iff calls only rfl nofun, all]

/-- A READ_NUMBER call. -/
def numberCall (s : Stdin) : ExecutionContext Stdin := (guestOf s).setReg r8 readNumberSyscall

/-- It is a READ_NUMBER call. -/
lemma numberCall_calls (s) : (numberCall s).CallsReadNumber := rfl

/-- A READ_NUMBER call in front of other calls. -/
lemma InputCalls.number {s cs} (rest : InputCalls (inputAfter (numberCall s)) cs) :
    InputCalls s (numberCall s :: cs) := .cons (c := numberCall s) (.inr rfl) rest

/-- The text ` -5 x` read by three calls, of which the second one fails and leaves no integer. -/
theorem numbers_read_iff_word :
    let first := numberCall (.ofBytes [0x20, 0x2D, 0x35, 0x20, 0x78] fun _ => 0)
    let second := numberCall (inputAfter first)
    (resultContext (TISyscallEmulator.execute second)).reg r0 = syscallError einval ∧
      ReadsNumbers [first, second, numberCall (inputAfter second)] := by
  intro first second
  have calls : InputCalls (.ofBytes [0x20, 0x2D, 0x35, 0x20, 0x78] fun _ => 0)
      [first, second, numberCall (inputAfter second)] := .number (.number (.number (.nil _)))
  have only : ∀ c ∈ [first, second, numberCall (inputAfter second)], c.CallsReadNumber :=
    List.forall_mem_cons.mpr ⟨numberCall_calls _, List.forall_mem_cons.mpr
      ⟨numberCall_calls _, List.forall_mem_singleton.mpr (numberCall_calls _)⟩⟩
  have unpoisoned : Unpoisoned 3 [0x20, 0x2D, 0x35, 0x20, 0x78] := by
    refine .inr fun v next => ?_
    have found := nextNumber_iff.mpr next
    cases found
  exact ⟨by decide, (numbers_read_iff calls only).mpr unpoisoned⟩

/-- The text `9999999999 7`. -/
def poisonBytes : List Byte := List.replicate 10 0x39 ++ [0x20, 0x37]

/-- A READ_NUMBER on a number that does not fit in 32 bits. -/
def poisonFirst : ExecutionContext Stdin := numberCall (.ofBytes poisonBytes fun _ => 4095)

/-- The READ_NUMBER after it. -/
def poisonSecond : ExecutionContext Stdin := numberCall (inputAfter poisonFirst)

/-- The second call does not return the 7 that comes next, but `-EINVAL`. -/
theorem poison_spreads :
    InputCalls (.ofBytes poisonBytes fun _ => 4095) [poisonFirst, poisonSecond] ∧
    NextIs poisonSecond.host.rest 7 ∧
    (resultContext (TISyscallEmulator.execute poisonSecond)).reg r0 = syscallError einval ∧
    ¬ ReadsNumbers [poisonFirst, poisonSecond] := by
  have last : InputCalls (inputAfter poisonFirst) [poisonSecond] :=
    .cons (c := poisonSecond) (.inr rfl) (.nil _)
  have next : NextIs poisonSecond.host.rest 7 := nextNumber_iff.mp (by decide)
  have answer : (resultContext (TISyscallEmulator.execute poisonSecond)).reg r0 =
      syscallError einval := by decide
  refine ⟨.cons (c := poisonFirst) (.inr rfl) last, next, answer, fun reads => ?_⟩
  have seven := reads _ (List.mem_cons_of_mem _ List.mem_cons_self) 7 next
  rw [answer] at seven
  revert seven
  decide

end ToyIsa
