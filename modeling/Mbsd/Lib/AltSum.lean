import Mathlib.Data.List.Basic
import Mathlib.Tactic.Ring

/-! Sums of a list in which two weights alternate, and how such a sum changes when a part of the
list is overwritten. -/

namespace Mbsd.Lib.AltSum

open List Nat

variable {α R : Type} {xs ys : List α} {i j : Nat}

/-- `ys` is written over `xs` from place `i` on. -/
def overwrite (xs : List α) (i : Nat) : List α → List α
  | [] => xs
  | y :: ys => overwrite (xs.set i y) (i + 1) ys

theorem overwrite_nil (xs : List α) (i : Nat) : overwrite xs i [] = xs := rfl

theorem overwrite_cons (xs : List α) (i : Nat) (y : α) (ys : List α) :
    overwrite xs i (y :: ys) = overwrite (xs.set i y) (i + 1) ys := rfl

@[simp] theorem length_overwrite (xs : List α) (i : Nat) (ys : List α) :
    (overwrite xs i ys).length = xs.length := by
  induction ys generalizing xs i with
  | nil => rfl
  | cons y ys ih => rw [overwrite_cons, ih, length_set]

theorem map_overwrite {β : Type} (g : α → β) (xs : List α) (i : Nat) (ys : List α) :
    (overwrite xs i ys).map g = overwrite (xs.map g) i (ys.map g) := by
  induction ys generalizing xs i with
  | nil => rfl
  | cons y ys ih => rw [overwrite_cons, ih, map_set, map_cons, overwrite_cons]

theorem overwrite_eq_append (h : i + ys.length ≤ xs.length) :
    overwrite xs i ys = xs.take i ++ ys ++ xs.drop (i + ys.length) := by
  induction ys generalizing xs i with
  | nil => rw [overwrite_nil, append_nil, length_nil, Nat.add_zero, take_append_drop]
  | cons y ys ih =>
    rw [length_cons] at h ⊢
    rw [overwrite_cons, ih (by rw [length_set]; omega),
      drop_set_of_lt (by omega), take_add_one, take_set_of_le (by omega),
      getElem?_set_self (by omega), Nat.add_assoc, Nat.add_comm 1]
    simp

theorem getElem?_overwrite_of_lt (h : j < i) : (overwrite xs i ys)[j]? = xs[j]? := by
  induction ys generalizing xs i with
  | nil => rfl
  | cons y ys ih => rw [overwrite_cons, ih (by omega), getElem?_set_ne (by omega)]

theorem getElem?_overwrite_of_ge (h : i + ys.length ≤ j) : (overwrite xs i ys)[j]? = xs[j]? := by
  induction ys generalizing xs i with
  | nil => rfl
  | cons y ys ih =>
    rw [length_cons] at h
    rw [overwrite_cons, ih (by omega), getElem?_set_ne (by omega)]

theorem getElem?_overwrite_of_not (h : j < i ∨ i + ys.length ≤ j) :
    (overwrite xs i ys)[j]? = xs[j]? :=
  h.elim getElem?_overwrite_of_lt getElem?_overwrite_of_ge

theorem take_drop_overwrite (xs ys : List α) (h : i + ys.length ≤ xs.length) :
    ((overwrite xs i ys).drop i).take ys.length = ys := by
  rw [overwrite_eq_append h, append_assoc, drop_append_of_le_length (by simp; omega),
    drop_of_length_le (by simp), nil_append, take_left]

theorem take_drop_overwrite_of_disjoint {k : Nat} (h : j + k ≤ i ∨ i + ys.length ≤ j) :
    ((overwrite xs i ys).drop j).take k = (xs.drop j).take k := by
  refine ext_getElem? fun p => ?_
  rw [getElem?_take, getElem?_take]
  split
  next hp =>
    rw [getElem?_drop, getElem?_drop]
    exact getElem?_overwrite_of_not (by omega)
  next => rfl

theorem overwrite_overwrite (xs : List α) {zs : List α}
    (h : i + ys.length ≤ xs.length) (hlen : zs.length = ys.length) :
    overwrite (overwrite xs i ys) i zs = overwrite xs i zs := by
  have hlong : i + zs.length ≤ (overwrite xs i ys).length := by
    rw [length_overwrite, hlen]
    exact h
  have hshort : i + zs.length ≤ xs.length := by
    rw [hlen]
    exact h
  rw [overwrite_eq_append hlong, overwrite_eq_append hshort]
  congr 1
  · congr 1
    refine ext_getElem? fun j => ?_
    rw [getElem?_take, getElem?_take]
    split
    next hj => exact getElem?_overwrite_of_lt hj
    next => rfl
  · refine ext_getElem? fun j => ?_
    rw [getElem?_drop, getElem?_drop]
    exact getElem?_overwrite_of_ge (by omega)

variable [CommRing R]

/-- The sum of the list, in which the first element has the weight of `hi`, the second one that of
`!hi`, and so on. -/
def altSum (w : Bool → R) (hi : Bool) : List R → R
  | [] => 0
  | x :: xs => w hi * x + altSum w (!hi) xs

theorem altSum_nil (w : Bool → R) (hi : Bool) : altSum w hi [] = 0 := rfl

theorem altSum_cons (w : Bool → R) (hi : Bool) (x : R) (xs : List R) :
    altSum w hi (x :: xs) = w hi * x + altSum w (!hi) xs := rfl

theorem altSum_append (w : Bool → R) (hi : Bool) (xs ys : List R) : altSum w hi (xs ++ ys) =
      altSum w hi xs + altSum w (hi == decide (xs.length % 2 = 0)) ys := by
  induction xs generalizing hi with
  | nil => simp [altSum_nil]
  | cons x xs ih =>
    have hpar : ((!hi) == decide (xs.length % 2 = 0)) =
        (hi == decide ((xs.length + 1) % 2 = 0)) := by
      rcases mod_two_eq_zero_or_one xs.length with h | h
      · rw [add_mod, h]
        cases hi <;> rfl
      · rw [add_mod, h]
        cases hi <;> rfl
    rw [cons_append, altSum_cons, altSum_cons, ih, hpar, length_cons, add_assoc]

theorem altSum_overwrite (w : Bool → R) (xs ys : List R) (h : i + ys.length ≤ xs.length) :
    altSum w true (overwrite xs i ys) + altSum w (i % 2 = 0) ((xs.drop i).take ys.length) =
      altSum w true xs + altSum w (i % 2 = 0) ys := by
  have hlen : (xs.take i).length = i := length_take_of_le (by omega)
  have hold : ((xs.drop i).take ys.length).length = ys.length :=
    length_take_of_le (by rw [length_drop]; omega)
  have hsplit : xs = xs.take i ++ (xs.drop i).take ys.length ++ xs.drop (i + ys.length) := by
    rw [append_assoc, ← drop_drop, take_append_drop, take_append_drop]
  have hxs : altSum w true xs = _ := congrArg (altSum w true) hsplit
  rw [hxs, overwrite_eq_append h]
  simp only [altSum_append, length_append, hlen, hold, Bool.true_beq]
  ring

end Mbsd.Lib.AltSum
