import ToyIsa.Isa.Syscall
import ToyIsa.Toy.Stdin

/-!
# Extracting a number

`std::cin` looks at one character after the other and reads ahead whenever it has none. What it
extracts does not depend on how much it reads ahead: `extract_good` says that in a good state it is
`nextNumber` of the input that is left, whichever part of it is in the buffer, and `extract_bad`
that in another state it is nothing.
-/

namespace ToyIsa.Stdin

/-- The input that `std::cin` has not extracted yet. -/
def left (s : Stdin) : List InputByte := s.buffer ++ s.unread

def rest (s : Stdin) : List Byte := s.left.map Prod.fst

/-- From `s` to `s'` the bytes `taken` have been extracted, and others may have been read ahead. -/
structure Extracts (s : Stdin) (taken : List InputByte) (s' : Stdin) : Prop where
  left : s.left = taken ++ s'.left
  consumed : s'.consumed = s.consumed ++ taken
  failed : s'.failed = s.failed

namespace Extracts

variable {s s' s'' : Stdin} {taken taken' : List InputByte}

/-- Nothing is extracted. -/
lemma refl (s : Stdin) : Extracts s [] s := ⟨rfl, (List.append_nil _).symm, rfl⟩

/-- One extraction after the other. -/
lemma trans (h : Extracts s taken s') (h' : Extracts s' taken' s'') :
    Extracts s (taken ++ taken') s'' where
  left := by rw [h.left, h'.left, List.append_assoc]
  consumed := by rw [h'.consumed, h.consumed, List.append_assoc]
  failed := h'.failed.trans h.failed

/-- What was extracted is no longer there. -/
lemma rest (h : Extracts s taken s') : s.rest = taken.map Prod.fst ++ s'.rest := by
  unfold Stdin.rest
  rw [h.left, List.map_append]

/-- Looking at the next character takes nothing. -/
lemma rest_nil (h : Extracts s [] s') : s'.rest = s.rest := h.rest.symm

end Extracts

/-- Reading ahead moves bytes into the buffer, some if there are any. -/
lemma readAhead_spec {s : Stdin} (empty : s.buffer = []) :
    Extracts s [] s.readAhead ∧ (s.readAhead.buffer = [] → s.readAhead.left = []) := by
  have all : s.left = s.unread := by rw [left, empty, List.nil_append]
  have moved : s.readAhead.left = s.unread := List.take_append_drop _ _
  refine ⟨⟨all.trans moved.symm, (List.append_nil _).symm, rfl⟩, fun none => ?_⟩
  rw [moved]
  -- at least one byte is delivered if there is one
  have short : min s.unread.length (s.supply s.reads + 1) = 0 ∨ s.unread = [] :=
    List.take_eq_nil_iff.mp none
  rcases short with zero | nil
  · exact List.length_eq_zero_iff.mp (by omega)
  · exact nil

/-- The next character is the first one that is left. -/
lemma peek_cases (s : Stdin) : ∃ s', Extracts s [] s' ∧ s'.atEnd = s.atEnd ∧
    ((s'.left = [] ∧ s.peek = (none, s')) ∨
      ∃ b l, s'.buffer = b :: l ∧ s.peek = (some b.1, s')) := by
  unfold peek
  cases empty : s.buffer with
  | cons b l => exact ⟨s, .refl s, rfl, .inr ⟨b, l, empty, rfl⟩⟩
  | nil =>
    obtain ⟨same, none⟩ := readAhead_spec empty
    refine ⟨s.readAhead, same, rfl, ?_⟩
    cases filled : s.readAhead.buffer with
    | nil => exact .inl ⟨none filled, by rfl⟩
    | cons b l => exact .inr ⟨b, l, rfl, by rfl⟩

/-- Extracting a character. -/
lemma extracts_bump {s : Stdin} {b l} (h : s.buffer = b :: l) : Extracts s [b] s.bump where
  left := by simp [left, bump, h]
  consumed := by simp [bump, h]
  failed := rfl

/-- Scanning extracts the longest run of characters. -/
lemma scan_spec (p : Byte → Bool) {fuel} {s : Stdin} (enough : s.left.length < fuel) :
    ∃ taken s', scan p fuel s = (s.rest.takeWhile p, s') ∧ Extracts s taken s' ∧
      s'.rest = s.rest.dropWhile p ∧ s'.atEnd = (s.atEnd || s'.rest.isEmpty) := by
  induction fuel generalizing s with
  | zero => cases enough
  | succ fuel ih =>
    obtain ⟨s₁, same, atEnd, ⟨none, e⟩ | ⟨b, l, buffer, e⟩⟩ := peek_cases s
    · have rest : s.rest = [] := by rw [← same.rest_nil, Stdin.rest, none]; rfl
      refine ⟨[], { s₁ with atEnd := true }, ?_, ⟨same.left, same.consumed, same.failed⟩, ?_, ?_⟩
      · rw [scan, e, rest]
        rfl
      · rw [rest]
        exact same.rest_nil.trans rest
      · have none' : Stdin.rest { s₁ with atEnd := true } = [] := same.rest_nil.trans rest
        rw [none', List.isEmpty_nil, Bool.or_true]
    · have bumped := extracts_bump buffer
      have rest : s.rest = b.1 :: s₁.bump.rest := by
        rw [← same.rest_nil, bumped.rest]
        rfl
      by_cases hp : p b.1 = true
      · have shorter : s₁.bump.left.length < fuel := by
          have step := same.trans bumped
          rw [step.left, List.length_append] at enough
          simp only [List.nil_append, List.length_cons, List.length_nil] at enough
          omega
        obtain ⟨taken, s', scanned, extracts, rest', atEnd'⟩ := ih shorter
        refine ⟨b :: taken, s', ?_, (same.trans bumped).trans extracts, ?_, ?_⟩
        · rw [scan, e]
          simp only [hp, if_true, scanned, rest, List.takeWhile_cons]
        · rw [rest', rest, List.dropWhile_cons, if_pos hp]
        · rw [atEnd']
          exact congrArg (· || s'.rest.isEmpty) atEnd
      · refine ⟨[], s₁, ?_, same, ?_, ?_⟩
        · rw [scan, e]
          simp only [hp, if_false, rest, List.takeWhile_cons, Bool.false_eq_true]
        · rw [same.rest_nil, rest, List.dropWhile_cons, if_neg hp]
        · rw [same.rest_nil, rest, atEnd, List.isEmpty_cons, Bool.or_false]

/-- The longest run of bytes is extracted. -/
lemma scanWhile_spec (p : Byte → Bool) (s : Stdin) :
    ∃ taken s', s.scanWhile p = (s.rest.takeWhile p, s') ∧ Extracts s taken s' ∧
      s'.rest = s.rest.dropWhile p ∧ s'.atEnd = (s.atEnd || s'.rest.isEmpty) := by
  refine scan_spec p ?_
  rw [left, List.length_append]
  exact Nat.lt_succ_self _

/-! Numbers. -/

/-- The sign in front of the input, and what follows it. -/
def splitSign : List Byte → Bool × List Byte
  | [] => (false, [])
  | b :: bytes =>
    if isMinus b then (true, bytes)
    else if isPlus b then (false, bytes)
    else (false, b :: bytes)

/-- The number at the beginning of the input, after white space. -/
def nextNumber (input : List Byte) : Option Int :=
  let (negative, bytes) := splitSign (input.dropWhile isSpace)
  number negative (bytes.takeWhile isDigit)

/-- What is left behind the number at the beginning of the input, or behind what looks like one. -/
def afterNumber (input : List Byte) : List Byte :=
  (splitSign (input.dropWhile isSpace)).2.dropWhile isDigit

/-- The sign is extracted if there is one. -/
lemma scanSign_spec (s : Stdin) :
    ∃ taken s', s.scanSign = ((splitSign s.rest).1, s') ∧ Extracts s taken s' ∧
      s'.rest = (splitSign s.rest).2 ∧ s'.atEnd = s.atEnd := by
  unfold scanSign
  obtain ⟨s₁, same, atEnd, ⟨none, e⟩ | ⟨b, l, buffer, e⟩⟩ := peek_cases s
  · have rest : s.rest = [] := by rw [← same.rest_nil, Stdin.rest, none]; rfl
    exact ⟨[], s₁, by rw [e, rest]; rfl, same, by rw [same.rest_nil, rest]; rfl, atEnd⟩
  · have bumped := extracts_bump buffer
    have rest : s.rest = b.1 :: s₁.bump.rest := by
      rw [← same.rest_nil, bumped.rest]
      rfl
    rw [e, rest]
    unfold splitSign
    dsimp only
    by_cases minus : isMinus b.1 = true
    · rw [if_pos minus, if_pos minus]
      exact ⟨[b], s₁.bump, rfl, same.trans bumped, rfl, atEnd⟩
    · rw [if_neg minus, if_neg minus]
      by_cases plus : isPlus b.1 = true
      · rw [if_pos plus, if_pos plus]
        exact ⟨[b], s₁.bump, rfl, same.trans bumped, rfl, atEnd⟩
      · rw [if_neg plus, if_neg plus]
        exact ⟨[], s₁, rfl, same, same.rest_nil.trans rest, atEnd⟩

/-- A stream in a bad state extracts nothing. -/
lemma extract_bad {s : Stdin} (bad : s.failed = true ∨ s.atEnd = true) :
    s.extract = (none, { s with failed := true }) := by
  unfold extract
  rw [if_pos (by rwa [Bool.or_eq_true])]

/-- What an extraction leaves behind. -/
structure Extracted (s : Stdin) (taken : List InputByte) (s' : Stdin) : Prop where
  left : s.left = taken ++ s'.left
  consumed : s'.consumed = s.consumed ++ taken
  rest : s'.rest = afterNumber s.rest
  failed : s'.failed = (nextNumber s.rest).isNone
  atEnd : s'.atEnd = true → s'.rest = []

/-- A stream in a good state extracts the number at the beginning of what is left. -/
theorem extract_good {s : Stdin} (ok : s.failed = false) (more : s.atEnd = false) :
    ∃ taken s', s.extract = ((nextNumber s.rest).map (BitVec.ofInt 32), s') ∧
      Extracted s taken s' := by
  obtain ⟨spaces, s₁, skipped, extracts₁, rest₁, atEnd₁⟩ := scanWhile_spec isSpace s
  rw [more, Bool.false_or] at atEnd₁
  unfold extract
  rw [ok, more, Bool.or_self, if_neg Bool.false_ne_true, skipped]
  dsimp only
  cases empty : s₁.rest.isEmpty with
  | true =>
    -- nothing but white space
    have nil : s₁.rest = [] := List.isEmpty_iff.mp empty
    have blank : s.rest.dropWhile isSpace = [] := rest₁ ▸ nil
    have next : nextNumber s.rest = none := by
      unfold nextNumber
      rw [blank]
      rfl
    have after : s₁.rest = afterNumber s.rest := by
      rw [nil, afterNumber, blank]
      rfl
    rw [atEnd₁, empty, if_pos rfl, next]
    exact ⟨spaces, _, rfl, extracts₁.left, extracts₁.consumed, after, by rw [next]; rfl,
      fun _ => nil⟩
  | false =>
    rw [atEnd₁, empty, if_neg Bool.false_ne_true]
    obtain ⟨sign, s₂, signed, extracts₂, rest₂, atEnd₂⟩ := scanSign_spec s₁
    obtain ⟨digits, s₃, scanned, extracts₃, rest₃, atEnd₃⟩ := scanWhile_spec isDigit s₂
    rw [signed]
    dsimp only
    rw [scanned]
    dsimp only
    have next : number (splitSign s₁.rest).1 (s₂.rest.takeWhile isDigit) = nextNumber s.rest := by
      rw [rest₂, rest₁]
      rfl
    have all := (extracts₁.trans extracts₂).trans extracts₃
    have after : s₃.rest = afterNumber s.rest := by
      rw [rest₃, rest₂, rest₁]
      rfl
    have ended (h : s₃.atEnd = true) : s₃.rest = [] := by
      rw [atEnd₃, atEnd₂, atEnd₁, empty, Bool.false_or] at h
      exact List.isEmpty_iff.mp h
    rw [next]
    cases found : nextNumber s.rest with
    | some v =>
      exact ⟨_, s₃, rfl, all.left, all.consumed, after, all.failed.trans (by rw [ok, found]; rfl),
        ended⟩
    | none => exact ⟨_, _, rfl, all.left, all.consumed, after, by rw [found]; rfl, ended⟩

/-- An extraction takes what comes next, or nothing. -/
lemma extract_takes (s : Stdin) : ∃ taken value s', s.extract = (value, s') ∧
    s.left = taken ++ s'.left ∧ s'.consumed = s.consumed ++ taken := by
  by_cases bad : s.failed = true ∨ s.atEnd = true
  · exact ⟨[], none, _, extract_bad bad, rfl, (List.append_nil _).symm⟩
  · obtain ⟨ok, more⟩ := not_or.mp bad
    obtain ⟨taken, s', e, h⟩ :=
      extract_good (Bool.eq_false_iff.mpr ok) (Bool.eq_false_iff.mpr more)
    exact ⟨taken, _, s', e, h.left, h.consumed⟩

end ToyIsa.Stdin
