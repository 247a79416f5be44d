import Mathlib.Logic.Function.Basic

/-!
# Partial maps

A partial map is a function to `Option`. The lemmas invert a look-up in a map that has changed at
one key.
-/

namespace PartialMap

variable {α β : Type*} [DecidableEq α] {f : α → Option β} {k a : α} {b : β}

/-- What is found after an insertion was inserted, or it was there before. -/
lemma insert_eq_some {v : β} (h : Function.update f k (some v) a = some b) :
    (a = k ∧ b = v) ∨ (a ≠ k ∧ f a = some b) := by
  by_cases ne : a = k
  · subst ne
    rw [Function.update_self] at h
    cases h
    exact .inl ⟨rfl, rfl⟩
  · rw [Function.update_of_ne ne] at h
    exact .inr ⟨ne, h⟩

/-- What is found after a removal was there before, under another key. -/
lemma remove_eq_some (h : Function.update f k none a = some b) : a ≠ k ∧ f a = some b := by
  by_cases ne : a = k
  · subst ne
    rw [Function.update_self] at h
    cases h
  · rw [Function.update_of_ne ne] at h
    exact ⟨ne, h⟩

/-- What is found after a modification is what was there before, modified under the key. -/
lemma modify_eq_some {g : β → β} (h : Function.update f k ((f k).map g) a = some b) :
    ∃ b', f a = some b' ∧ ((a = k ∧ b = g b') ∨ (a ≠ k ∧ b = b')) := by
  by_cases ne : a = k
  · subst ne
    rw [Function.update_self] at h
    obtain ⟨b', hb', rfl⟩ := Option.map_eq_some_iff.mp h
    exact ⟨b', hb', .inl ⟨rfl, rfl⟩⟩
  · rw [Function.update_of_ne ne] at h
    exact ⟨b, h, .inr ⟨ne, rfl⟩⟩

end PartialMap
