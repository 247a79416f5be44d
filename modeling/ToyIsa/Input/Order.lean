import Mathlib.Data.List.Nodup
import ToyIsa.Input.Extract

/-!
# Two readers of standard input

READ takes its bytes from descriptor 0, READ_NUMBER from `std::cin`, which reads ahead. A byte that
has been read ahead is out of the reach of a READ, so the READ skips it: `input_in_order_iff` says
that the calls consume standard input in order exactly if no READ asks for bytes while there are
such bytes.
-/

namespace ToyIsa

open ExecutionContext TISyscallEmulator Reg

namespace ExecutionContext

variable {σ : Type}

/-- The context is about to perform a READ on descriptor 0. -/
def CallsRead (c : ExecutionContext σ) : Prop := c.reg r8 = 0 ∧ c.reg r0 = stdinFileno

/-- The context is about to perform a READ_NUMBER. -/
def CallsReadNumber (c : ExecutionContext σ) : Prop := c.reg r8 = readNumberSyscall

/-- The context is about to perform a READ of at least one byte into a buffer in memory. -/
def AsksForBytes (c : ExecutionContext σ) : Prop :=
  c.CallsRead ∧ 0 < (c.reg r2).toNat ∧ c.memory.InBounds (c.reg r1) (c.reg r2).toNat

instance (c : ExecutionContext σ) : Decidable c.CallsRead :=
  inferInstanceAs (Decidable (_ ∧ _))

instance (c : ExecutionContext σ) : Decidable c.AsksForBytes :=
  inferInstanceAs (Decidable (_ ∧ _ ∧ _))

end ExecutionContext

/-- Standard input after the system call that a context is about to perform. -/
def inputAfter (c : ExecutionContext Stdin) : Stdin :=
  (resultContext (TISyscallEmulator.execute c)).host

/-- A guest that starts with standard input `s` performs READ and READ_NUMBER calls in these
contexts. Between the calls it may do anything else. -/
inductive InputCalls : Stdin → List (ExecutionContext Stdin) → Prop where
  | nil (s) : InputCalls s []
  | cons {c cs} :
    c.CallsRead ∨ c.CallsReadNumber →
    InputCalls (inputAfter c) cs →
    InputCalls c.host (c :: cs)

/-- The calls consume the bytes of standard input one after the other: what has been consumed is a
prefix of them, and a READ that asks for bytes gets some unless everything has been consumed. -/
def InOrder (bytes : List Byte) (cs : List (ExecutionContext Stdin)) : Prop :=
  ∀ c ∈ cs, (inputAfter c).consumed <+: bytes.zipIdx ∧
    (c.AsksForBytes → c.host.consumed ≠ bytes.zipIdx → (inputAfter c).consumed ≠ c.host.consumed)

variable {c : ExecutionContext Stdin}

/-- A READ_NUMBER takes what `std::cin` has not extracted yet. -/
lemma inputAfter_readNumber (call : c.CallsReadNumber) :
    inputAfter c = c.host.extract.2 := by
  have number : c.reg r8 = readNumberSyscall := call
  unfold inputAfter
  rw [execute_eq, number, if_neg (by decide), if_neg (by decide), if_neg (by decide), if_pos rfl]
  rfl

/-- A READ takes what the descriptor has, unless its buffer is out of bounds. -/
lemma inputAfter_read (call : c.CallsRead) :
    inputAfter c = if c.memory.InBounds (c.reg r1) (c.reg r2).toNat then
      { (c.host.deliver (c.reg r2).toNat).2 with
        consumed := c.host.consumed ++ (c.host.deliver (c.reg r2).toNat).1 }
      else c.host := by
  obtain ⟨number, descriptor⟩ := call
  unfold inputAfter
  rw [execute_eq, number, if_pos rfl]
  unfold readCall
  rw [if_neg (not_not.mpr descriptor)]
  split
  · rfl
  · rfl

/-- The bytes that have been consumed, read ahead and not been read at all are all there is. -/
def Stdin.Complete (input : List InputByte) (s : Stdin) : Prop := s.consumed ++ s.left = input

variable {input : List InputByte}

/-- A READ_NUMBER skips nothing. -/
lemma Stdin.Complete.readNumber (complete : c.host.Complete input) (call : c.CallsReadNumber) :
    (inputAfter c).Complete input := by
  rw [inputAfter_readNumber call]
  obtain ⟨taken, value, s', e, left, consumed⟩ := c.host.extract_takes
  unfold Complete at *
  rw [e, consumed, ← complete, left, List.append_assoc]

/-- A READ skips nothing if nothing has been read ahead, or if it takes nothing. -/
lemma Stdin.Complete.read (complete : c.host.Complete input) (call : c.CallsRead)
    (safe : c.AsksForBytes → c.host.buffer = []) : (inputAfter c).Complete input := by
  rw [inputAfter_read call]
  split
  case isFalse => exact complete
  case isTrue bounds =>
    unfold Complete at *
    rw [← complete]
    by_cases asks : 0 < (c.reg r2).toNat
    · have empty := safe ⟨call, asks, bounds⟩
      -- what is delivered and what stays make up what was left
      simp only [left, deliver, empty, List.nil_append, List.append_assoc, List.take_append_drop]
    · have none : (c.reg r2).toNat = 0 := Nat.eq_zero_of_not_pos asks
      simp [left, deliver, none]

/-- A READ that asks for bytes gets some if nothing has been read ahead. -/
lemma Stdin.Complete.gets (complete : c.host.Complete input) (asks : c.AsksForBytes)
    (empty : c.host.buffer = []) (more : c.host.consumed ≠ input) :
    (inputAfter c).consumed ≠ c.host.consumed := by
  obtain ⟨call, count, bounds⟩ := asks
  rw [inputAfter_read call, if_pos bounds]
  intro same
  have none : (c.host.deliver (c.reg r2).toNat).1 = [] := List.append_right_eq_self.mp same
  have unread : c.host.unread = [] := by
    rcases List.take_eq_nil_iff.mp none with zero | nil
    · omega
    · exact nil
  refine more ?_
  rw [← complete, left, empty, unread]
  simp

/-- A READ that asks for bytes while some have been read ahead skips these. -/
lemma Stdin.Complete.skips (complete : c.host.Complete input) (distinct : input.Nodup)
    (asks : c.AsksForBytes) (ahead : c.host.buffer ≠ []) :
    ¬ ((inputAfter c).consumed <+: input ∧
      (c.host.consumed ≠ input → (inputAfter c).consumed ≠ c.host.consumed)) := by
  obtain ⟨call, count, bounds⟩ := asks
  obtain ⟨b, l, buffer⟩ := List.exists_cons_of_ne_nil ahead
  have all : input = c.host.consumed ++ b :: (l ++ c.host.unread) := by
    rw [← complete, left, buffer, List.cons_append]
  rw [inputAfter_read call, if_pos bounds]
  rintro ⟨inOrder, gets⟩
  have more : c.host.consumed ≠ input := by
    intro e
    have short := congrArg List.length (e.trans all)
    simp at short
  cases taken : (c.host.deliver (c.reg r2).toNat).1 with
  | nil => exact gets more (by rw [taken, List.append_nil])
  | cons u us =>
    -- the byte that is delivered comes later than the first byte that was read ahead
    have later : u ∈ c.host.unread := by
      have mem :
          u ∈ c.host.unread.take (min (c.reg r2).toNat (c.host.supply c.host.reads + 1)) := by
        have first : u ∈ (c.host.deliver (c.reg r2).toNat).1 := taken ▸ List.mem_cons_self
        exact first
      exact List.mem_of_mem_take mem
    have same : u = b := by
      simp only [taken, all] at inOrder
      exact (List.cons_prefix_cons.mp ((List.prefix_append_right_inj _).mp inOrder)).1
    have nodup : (b :: (l ++ c.host.unread)).Nodup :=
      (List.nodup_append.mp (all ▸ distinct)).2.1
    exact (List.nodup_cons.mp nodup).1 (same ▸ List.mem_append_right l later)

/-- The calls from a point on. -/
lemma inOrder_iff {bytes : List Byte} {s cs} (calls : InputCalls s cs)
    (complete : s.Complete bytes.zipIdx) :
    InOrder bytes cs ↔ ∀ c ∈ cs, c.AsksForBytes → c.host.buffer = [] := by
  have distinct : bytes.zipIdx.Nodup := by
    refine List.Nodup.of_map Prod.snd ?_
    rw [List.zipIdx_map_snd]
    exact List.nodup_range'
  unfold InOrder
  induction calls with
  | nil =>
    exact ⟨fun _ c mem => absurd mem List.not_mem_nil, fun _ c mem => absurd mem List.not_mem_nil⟩
  | @cons c cs call _ ih =>
    rw [List.forall_mem_cons, List.forall_mem_cons]
    by_cases safe : c.AsksForBytes → c.host.buffer = []
    case pos =>
      have complete' : (inputAfter c).Complete bytes.zipIdx := by
        rcases call with read | number
        · exact complete.read read safe
        · exact complete.readNumber number
      have first : (inputAfter c).consumed <+: bytes.zipIdx ∧
          (c.AsksForBytes → c.host.consumed ≠ bytes.zipIdx →
            (inputAfter c).consumed ≠ c.host.consumed) :=
        ⟨⟨_, complete'⟩, fun asks => complete.gets asks (safe asks)⟩
      exact and_congr (iff_of_true first safe) (ih complete')
    case neg =>
      obtain ⟨asks, ahead⟩ := Classical.not_imp.mp safe
      refine iff_of_false (fun inOrder => ?_) fun all => safe all.1
      exact complete.skips distinct asks ahead ⟨inOrder.1.1, inOrder.1.2 asks⟩

/-- A sequence of READ and READ_NUMBER calls consumes standard input in order exactly if `std::cin`
has read no byte ahead that it has not extracted, whenever a READ asks for bytes. -/
theorem input_in_order_iff {bytes : List Byte} {supply cs}
    (calls : InputCalls (.ofBytes bytes supply) cs) :
    InOrder bytes cs ↔ ∀ c ∈ cs, c.AsksForBytes → c.host.buffer = [] :=
  inOrder_iff calls rfl

/-- A guest with four bytes of memory. -/
def guestOf (s : Stdin) : ExecutionContext Stdin :=
  { memory := { bytes := [0, 0, 0, 0], regionsInSpace := fun _ mem => absurd mem List.not_mem_nil }
    host := s }

/-- The text `7 8` that the descriptor delivers in pieces of two bytes, read by a READ of two bytes
and a READ_NUMBER. -/
theorem input_in_order_iff_eight :
    let bytes : List Byte := [0x37, 0x20, 0x38]
    let first := (guestOf (.ofBytes bytes fun _ => 1)).setReg r2 2
    InOrder bytes [first, (guestOf (inputAfter first)).setReg r8 readNumberSyscall] := by
  intro bytes first
  have last : InputCalls (inputAfter first) _ :=
    .cons (c := (guestOf (inputAfter first)).setReg r8 readNumberSyscall) (.inr rfl) (.nil _)
  have calls : InputCalls (.ofBytes bytes fun _ => 1) _ := .cons (c := first) (.inl ⟨rfl, rfl⟩) last
  refine (input_in_order_iff calls).mpr ?_
  exact List.forall_mem_cons.mpr
    ⟨fun _ => rfl, List.forall_mem_singleton.mpr fun asks => absurd asks.1.1 (by decide)⟩

/-- The text `1` and, in the next line, `ABCD`. -/
def readAheadBytes : List Byte := [0x31, 0x0A, 0x41, 0x42, 0x43, 0x44]

/-- A READ_NUMBER where the descriptor delivers up to four bytes at once. -/
def readAheadNumber : ExecutionContext Stdin :=
  (guestOf (.ofBytes readAheadBytes fun _ => 3)).setReg r8 readNumberSyscall

/-- The READ of four bytes after it. -/
def readAheadRead : ExecutionContext Stdin := (guestOf (inputAfter readAheadNumber)).setReg r2 4

/-- The READ does not start behind the number: it delivers `CD`. -/
theorem readAhead_skips :
    InputCalls (.ofBytes readAheadBytes fun _ => 3) [readAheadNumber, readAheadRead] ∧
    ¬ InOrder readAheadBytes [readAheadNumber, readAheadRead] ∧
    (inputAfter readAheadNumber).consumed.map Prod.fst = [0x31] ∧
    (inputAfter readAheadRead).consumed.map Prod.fst = [0x31, 0x43, 0x44] := by
  refine ⟨?_, fun inOrder => ?_, by decide, by decide⟩
  · have last : InputCalls (inputAfter readAheadNumber) [readAheadRead] :=
      .cons (c := readAheadRead) (.inl ⟨rfl, rfl⟩) (.nil _)
    exact .cons (c := readAheadNumber) (.inr rfl) last
  · have last := (inOrder _ (List.mem_cons_of_mem _ List.mem_cons_self)).1
    revert last
    decide

end ToyIsa
