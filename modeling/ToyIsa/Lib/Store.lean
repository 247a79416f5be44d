import Mathlib.Data.List.Basic

/-!
# Stores as lists

A store of fixed size is a list of cells. `slice` reads a range of cells and `splice` overwrites
one. The lemmas say what a read sees after an overwrite: all of it, none of it, or cell by cell.
-/

namespace Store

variable {α : Type*}

/-- The `n` cells from `i` on. -/
def slice (xs : List α) (i n : Nat) : List α := (xs.drop i).take n

/-- The store with the cells from `i` on replaced by `ys`. -/
def splice (xs : List α) (i : Nat) (ys : List α) : List α :=
  xs.take i ++ ys ++ xs.drop (i + ys.length)

/-- An in-range slice has the length asked for. -/
lemma length_slice {xs : List α} {i n} (h : i + n ≤ xs.length) : (slice xs i n).length = n := by
  simp [slice]
  omega

/-- An in-range overwrite keeps the size of the store. -/
@[simp] lemma length_splice {xs ys : List α} {i} (h : i + ys.length ≤ xs.length) :
    (splice xs i ys).length = xs.length := by
  simp [splice]
  omega

/-- The cells of a slice. -/
lemma getElem?_slice (xs : List α) (i n j) :
    (slice xs i n)[j]? = if j < n then xs[i + j]? else none := by
  simp [slice, List.getElem?_take]

/-- The cells of a store after an overwrite. -/
lemma getElem?_splice {xs ys : List α} {i} (h : i + ys.length ≤ xs.length) (j) :
    (splice xs i ys)[j]? = if i ≤ j ∧ j < i + ys.length then ys[j - i]? else xs[j]? := by
  have hi : (xs.take i).length = i := by simp; omega
  unfold splice
  rw [List.append_assoc, List.getElem?_append, hi]
  split
  case isTrue hj => rw [if_neg (by omega), List.getElem?_take, if_pos hj]
  case isFalse hj =>
    rw [List.getElem?_append]
    split
    case isTrue hy => rw [if_pos (by omega)]
    case isFalse hy =>
      rw [if_neg (by omega), List.getElem?_drop]
      congr 1
      omega

/-- A cell outside the overwritten range keeps its value. -/
lemma getElem?_splice_of_not_mem {xs ys : List α} {i j} (h : i + ys.length ≤ xs.length)
    (hj : ¬ (i ≤ j ∧ j < i + ys.length)) : (splice xs i ys)[j]? = xs[j]? := by
  rw [getElem?_splice h, if_neg hj]

/-- Two stores that agree on the cells of a range have the same slice there. -/
lemma slice_congr {xs ys : List α} {i n} (h : ∀ j, i ≤ j → j < i + n → xs[j]? = ys[j]?) :
    slice xs i n = slice ys i n := by
  apply List.ext_getElem?
  intro j
  rw [getElem?_slice, getElem?_slice]
  split
  case isTrue hj => exact h (i + j) (by omega) (by omega)
  case isFalse => rfl

/-- A read of the range just written sees what was written. -/
lemma slice_splice_self {xs ys : List α} {i} (h : i + ys.length ≤ xs.length) :
    slice (splice xs i ys) i ys.length = ys := by
  apply List.ext_getElem?
  intro j
  rw [getElem?_slice]
  split
  case isTrue hj =>
    rw [getElem?_splice h, if_pos (by omega), Nat.add_sub_cancel_left]
  case isFalse hj => rw [List.getElem?_eq_none (by omega)]

/-- A read of a range disjoint from the one written sees the old cells. -/
lemma slice_splice_disjoint {xs ys : List α} {i k n} (h : i + ys.length ≤ xs.length)
    (hd : k + n ≤ i ∨ i + ys.length ≤ k) : slice (splice xs i ys) k n = slice xs k n :=
  slice_congr fun j h1 h2 => getElem?_splice_of_not_mem h (by omega)

/-- Writing nothing. -/
@[simp] lemma splice_nil (xs : List α) (i) : splice xs i [] = xs := by
  simp [splice]

/-- Two overwrites of adjacent ranges are one. -/
lemma splice_append {xs ys zs : List α} {i} (h : i + (ys ++ zs).length ≤ xs.length) :
    splice (splice xs i ys) (i + ys.length) zs = splice xs i (ys ++ zs) := by
  have total : (ys ++ zs).length = ys.length + zs.length := List.length_append
  have first : i + ys.length ≤ xs.length := by omega
  have second : i + ys.length + zs.length ≤ (splice xs i ys).length := by
    rw [length_splice first]
    omega
  apply List.ext_getElem?
  intro j
  rw [getElem?_splice second, getElem?_splice first, getElem?_splice h, List.getElem?_append]
  split
  case isTrue hz =>
    rw [if_pos (by omega), if_neg (by omega)]
    congr 1
    omega
  case isFalse hz =>
    split
    case isTrue hy => rw [if_pos (by omega), if_pos (by omega)]
    case isFalse hy => rw [if_neg (by omega)]

end Store
