import Mathlib.Data.List.Basic
import Mathlib.Logic.Basic

/-!
# Tables of bit patterns

A pattern fixes the bits of a mask to those of a reference. Two patterns that fix a bit differently
match no common word, and a table in which at most one row matches gives the same row in any order.
-/

namespace BitVec

variable {w : Nat} {word mask mask' reference reference' : BitVec w}

/-- A matching word has the bits the pattern fixes. -/
lemma getLsbD_of_matches (h : word &&& mask = reference) {i} (fixed : mask.getLsbD i = true) :
    word.getLsbD i = reference.getLsbD i := by
  rw [← h, getLsbD_and, fixed, Bool.and_true]

/-- Patterns that fix a bit differently match no common word. -/
lemma matches_disjoint (clash : mask &&& mask' &&& (reference ^^^ reference') ≠ 0#w)
    (h : word &&& mask = reference) (h' : word &&& mask' = reference') : False := by
  apply clash
  apply eq_of_getLsbD_eq
  intro i _
  rw [getLsbD_and, getLsbD_and, getLsbD_xor, getLsbD_zero]
  cases fixed : mask.getLsbD i with
  | false => rfl
  | true =>
    cases fixed' : mask'.getLsbD i with
    | false => rfl
    | true =>
      rw [← getLsbD_of_matches h fixed, ← getLsbD_of_matches h' fixed', Bool.xor_self]
      rfl

end BitVec

namespace List

variable {α : Type*} {p : α → Bool} {l l' : List α}

/-- In a table of mutually exclusive rows at most one matches. -/
lemma length_filter_le_one (h : l.Pairwise fun a b => ¬ (p a = true ∧ p b = true)) :
    (l.filter p).length ≤ 1 := by
  have pairs := h.filter p
  cases e : l.filter p with
  | nil => exact Nat.zero_le _
  | cons a rest =>
    cases rest with
    | nil => exact Nat.le_refl _
    | cons b rest =>
      have ha : a ∈ l.filter p := e ▸ mem_cons_self
      have hb : b ∈ l.filter p := e ▸ mem_cons_of_mem _ mem_cons_self
      rw [e, pairwise_cons] at pairs
      exact absurd ⟨(mem_filter.mp ha).2, (mem_filter.mp hb).2⟩ (pairs.1 b mem_cons_self)

/-- If at most one row matches, it is the one that is found. -/
lemma find?_eq_some_of_unique (unique : (l.filter p).length ≤ 1) {a} (mem : a ∈ l)
    (hit : p a = true) : l.find? p = some a := by
  have matching : a ∈ l.filter p := mem_filter.mpr ⟨mem, hit⟩
  rw [← head?_filter]
  cases rows : l.filter p with
  | nil => rw [rows] at matching; cases matching
  | cons row rest =>
    rw [rows, length_cons] at unique
    obtain rfl : rest = [] :=
      eq_nil_of_length_eq_zero (Nat.le_zero.mp (Nat.le_of_succ_le_succ unique))
    rw [rows, mem_singleton] at matching
    rw [matching]
    rfl

/-- If at most one row matches, the order of the rows does not matter. -/
lemma find?_eq_of_perm (unique : (l.filter p).length ≤ 1) (h : l'.Perm l) :
    l'.find? p = l.find? p := by
  have perm := h.filter p
  rw [← head?_filter, ← head?_filter]
  cases e : l.filter p with
  | nil => rw [e] at perm; rw [perm.eq_nil]
  | cons a rest =>
    obtain rfl : rest = [] := by
      apply eq_nil_of_length_eq_zero
      rw [e, length_cons] at unique
      exact Nat.le_zero.mp (Nat.le_of_succ_le_succ unique)
    rw [e] at perm
    rw [perm_singleton.mp perm]

end List
