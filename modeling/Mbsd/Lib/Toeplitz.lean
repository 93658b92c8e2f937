import Mbsd.Lib.Circulant

/-! Toeplitz hashes of bits, and those under a key in which one word comes again and again. -/

namespace Mbsd.Lib.Toeplitz

open Circulant List Option BitVec

variable {w p m : Nat} {key bs bs' : List Bool} {i : Nat}

/-- The leftmost bits of the key. -/
def leftmost : (w : Nat) → List Bool → BitVec w
  | 0, _ => 0#0
  | w + 1, key => BitVec.cons (key.headD false) (leftmost w key.tail)

/-- The key moves left with every bit. -/
def toeplitz (w : Nat) : List Bool → List Bool → BitVec w
  | _, [] => 0
  | key, b :: bs => (if b then leftmost w key else 0) ^^^ toeplitz w key.tail bs

/-- The bits of a word, the topmost one first. -/
def bits (x : BitVec w) : List Bool := (List.range w).map x.getMsbD

@[simp] theorem length_bits (x : BitVec w) : (bits x).length = w := by
  rw [bits, length_map, length_range]

theorem getElem?_bits (x : BitVec w) (i : Nat) :
    (bits x)[i]? = if i < w then some (x.getMsbD i) else none := by
  rw [bits, getElem?_map]
  split
  next h => rw [getElem?_range h, map_some]
  next h => rw [List.getElem?_eq_none (by rw [List.length_range]; omega), Option.map_none]

theorem getMsbD_leftmost (hi : i < w) :
    (leftmost w key).getMsbD i = key[i]?.getD false := by
  induction w generalizing key i with
  | zero => exact absurd hi (Nat.not_lt_zero i)
  | succ w ih =>
    rw [leftmost]
    cases i with
    | zero => cases key <;> rw [getMsbD_cons_zero] <;> rfl
    | succ i =>
      rw [getMsbD_cons_succ, ih (Nat.lt_of_succ_lt_succ hi), getElem?_tail]

theorem bits_append {v : Nat} (x : BitVec v) (y : BitVec w) : bits (x ++ y) = bits x ++ bits y := by
  rw [bits, bits, bits, List.range_add, List.map_append, List.map_map]
  refine congrArg₂ _ (List.map_congr_left fun i hi => ?_) (List.map_congr_left fun i _ => ?_)
  · rw [BitVec.getMsbD_append, if_neg (Nat.not_le_of_lt (List.mem_range.mp hi))]
  · rw [Function.comp_apply, BitVec.getMsbD_append, if_pos (Nat.le_add_right v i),
      Nat.add_sub_cancel_left]

theorem sum_bit_eq_count (f : Nat → Bool) (n : Nat) :
    ∑ j ∈ Finset.range n, bit (f j) = (((List.range n).map f).count true : ZMod 2) := by
  induction n with
  | zero => rfl
  | succ n ih =>
    have hlast : bit (f n) = ([f n].count true : ZMod 2) := by cases f n <;> rfl
    rw [Finset.sum_range_succ, ih, List.range_succ, List.map_append, List.count_append,
      Nat.cast_add, List.map_singleton, hlast]

theorem sum_bit_eq_one_iff (x : BitVec w) :
    ∑ j ∈ Finset.range w, bit (x.getMsbD j) = 1 ↔ Odd ((bits x).count true) := by
  rw [sum_bit_eq_count, ← bits, ZMod.natCast_eq_one_iff_odd]

theorem toeplitz_cons (b : Bool) : toeplitz w key (b :: bs) =
      (if b then leftmost w key else 0) ^^^ toeplitz w key.tail bs := rfl

theorem toeplitz_append :
    toeplitz w key (bs ++ bs') = toeplitz w key bs ^^^ toeplitz w (key.drop bs.length) bs' := by
  induction bs generalizing key with
  | nil => exact BitVec.zero_xor.symm
  | cons b bs ih =>
    rw [List.cons_append, toeplitz_cons, toeplitz_cons, ih, BitVec.xor_assoc, List.drop_tail,
      length_cons]

theorem toeplitz_eq_select : toeplitz w key bs =
      select (fun j => leftmost w (key.drop j)) (fun j => bs[j]?.getD false) bs.length := by
  induction bs generalizing key with
  | nil => rfl
  | cons b bs ih =>
    have hfirst : select (fun j => leftmost w (key.drop j)) (fun j => (b :: bs)[j]?.getD false) 1 =
        if b then leftmost w key else 0 := by
      rw [select_succ, drop_zero, getElem?_cons_zero, getD_some]
      exact BitVec.zero_xor
    rw [toeplitz_cons, ih, length_cons, Nat.add_comm, select_add, hfirst]
    congr 1
    exact select_congr (fun j _ => by rw [drop_tail, Nat.add_comm])
      fun j _ => by rw [Nat.add_comm, getElem?_cons_succ]

section Repeated

variable {k x : BitVec p}

/-- The word comes `m` times. -/
def repeated (m : Nat) (k : BitVec p) : List Bool := (List.replicate m (bits k)).flatten

theorem repeated_succ (m : Nat) (k : BitVec p) : repeated (m + 1) k = bits k ++ repeated m k := by
  rw [repeated, List.replicate_succ, List.flatten_cons, ← repeated]

theorem getElem?_repeated (hi : i < m * p) :
    (repeated m k)[i]? = some (k.getMsbD (i % p)) := by
  induction m generalizing i with
  | zero => exact absurd hi (by omega)
  | succ m ih =>
    rw [Nat.succ_mul] at hi
    rw [repeated_succ]
    rcases Nat.lt_or_ge i p with hlt | hge
    · rw [getElem?_append_left (by rwa [length_bits]), getElem?_bits, if_pos hlt,
        Nat.mod_eq_of_lt hlt]
    · rw [getElem?_append_right (by rwa [length_bits]), length_bits, ih (by omega),
        ← Nat.mod_eq_sub_mod hge]

theorem leftmost_repeated {j : Nat} (hj : j < p) :
    leftmost (p + p) ((repeated (m + 3) k).drop j) = k.rotateLeft j ++ k.rotateLeft j := by
  refine eq_of_getMsbD_eq fun i hi => ?_
  have hlong : j + i < (m + 3) * p := by
    have hexp : (m + 3) * p = m * p + (p + p + p) := by ring
    omega
  rw [getMsbD_leftmost hi, getElem?_drop, getElem?_repeated hlong, getD_some,
    getMsbD_append, getMsbD_rotateLeft, getMsbD_rotateLeft]
  split
  next hge =>
    rw [decide_eq_true (by omega : i - p < p), Bool.true_and, ← Nat.add_sub_assoc hge,
      ← Nat.mod_eq_sub_mod (Nat.le_trans hge (Nat.le_add_left i j))]
  next hlt => rw [decide_eq_true (Nat.lt_of_not_le hlt), Bool.true_and]

theorem circulant_zero (k : BitVec p) : circulant k 0 = 0 := by
  have h := circulant_xor k 0 0
  rwa [BitVec.xor_self, BitVec.xor_self] at h

theorem toeplitz_repeated {ws : List (BitVec p)} (hm : ws.length + 2 ≤ m) :
    toeplitz (p + p) (repeated m k) (ws.flatMap bits) =
      circulant k (ws.foldr (· ^^^ ·) 0) ++ circulant k (ws.foldr (· ^^^ ·) 0) := by
  induction ws generalizing m with
  | nil =>
    rw [foldr_nil, circulant_zero]
    exact (zero_append_zero).symm
  | cons x ws ih =>
    rw [length_cons] at hm
    obtain ⟨m, rfl⟩ := Nat.exists_eq_add_of_le' (show 3 ≤ m by omega)
    have hblock : toeplitz (p + p) (repeated (m + 3) k) (bits x) =
        circulant k x ++ circulant k x := by
      rw [toeplitz_eq_select, length_bits, circulant,
        map_select (g := fun y : BitVec p => y ++ y) zero_append_zero (fun _ _ => xor_append.symm)]
      refine select_congr (fun j hj => leftmost_repeated hj) fun j hj => ?_
      rw [getElem?_bits, if_pos hj, getD_some]
    have hrest : (repeated (m + 3) k).drop (bits x).length = repeated (m + 2) k := by
      rw [repeated_succ, length_bits, drop_left' (length_bits k)]
    rw [flatMap_cons, toeplitz_append, hblock, hrest, ih (by omega), foldr_cons,
      circulant_xor, xor_append]

end Repeated

end Mbsd.Lib.Toeplitz
