import Mathlib.Data.BitVec
import Mathlib.FieldTheory.Finite.Basic

/-! Matrices over two elements whose columns are the rotations of one word, times a word.  They
are products in a group ring. -/

namespace Mbsd.Lib.Circulant

open AddMonoidAlgebra

variable {v w n : Nat} {f f' : Nat → BitVec w} {b b' : Nat → Bool}

/-- The sum of those of the first `n` words that are selected. -/
def select (f : Nat → BitVec w) (b : Nat → Bool) : Nat → BitVec w
  | 0 => 0
  | n + 1 => select f b n ^^^ if b n then f n else 0

theorem select_succ (f : Nat → BitVec w) (b : Nat → Bool) (n : Nat) :
    select f b (n + 1) = select f b n ^^^ if b n then f n else 0 := rfl

theorem select_congr (hf : ∀ j < n, f j = f' j) (hb : ∀ j < n, b j = b' j) :
    select f b n = select f' b' n := by
  induction n with
  | zero => rfl
  | succ n ih =>
    rw [select_succ, select_succ, hf n (Nat.lt_succ_self n), hb n (Nat.lt_succ_self n),
      ih (fun j hj => hf j (Nat.lt_succ_of_lt hj)) fun j hj => hb j (Nat.lt_succ_of_lt hj)]

theorem select_add (m n : Nat) : select f b (m + n) =
      select f b m ^^^ select (fun j => f (m + j)) (fun j => b (m + j)) n := by
  induction n with
  | zero => exact BitVec.xor_zero.symm
  | succ n ih => rw [← Nat.add_assoc, select_succ, select_succ, ih, BitVec.xor_assoc]

theorem select_xor (f : Nat → BitVec w) (b b' : Nat → Bool) (n : Nat) :
    select f (fun j => b j ^^ b' j) n = select f b n ^^^ select f b' n := by
  induction n with
  | zero => exact BitVec.xor_zero.symm
  | succ n ih =>
    have hterm : (if b n ^^ b' n then f n else 0) =
        (if b n then f n else 0) ^^^ if b' n then f n else 0 := by
      cases b n <;> cases b' n <;> simp
    have hswap (p q r s : BitVec w) : p ^^^ q ^^^ (r ^^^ s) = p ^^^ r ^^^ (q ^^^ s) := by
      rw [BitVec.xor_assoc, BitVec.xor_assoc, ← BitVec.xor_assoc q, BitVec.xor_comm q,
        BitVec.xor_assoc r]
    rw [select_succ, select_succ, select_succ, ih, hterm, hswap]

theorem map_select {g : BitVec w → BitVec v} (hzero : g 0 = 0)
    (hxor : ∀ x y, g (x ^^^ y) = g x ^^^ g y) (f : Nat → BitVec w) (b : Nat → Bool) (n : Nat) :
    g (select f b n) = select (fun j => g (f j)) b n := by
  induction n with
  | zero => exact hzero
  | succ n ih => rw [select_succ, select_succ, hxor, ih, apply_ite g, hzero]

theorem select_twoPow (x : BitVec w) :
    select (fun j => BitVec.twoPow w (w - 1 - j)) x.getMsbD w = x := by
  have hbits : ∀ n ≤ w, ∀ i < w,
      (select (fun j => BitVec.twoPow w (w - 1 - j)) x.getMsbD n).getMsbD i =
        (decide (i < n) && x.getMsbD i) := by
    intro n hn i hi
    induction n with
    | zero => exact BitVec.getMsbD_zero
    | succ n ih =>
      rw [select_succ, BitVec.getMsbD_xor, ih (by omega)]
      have hterm : (if x.getMsbD n then BitVec.twoPow w (w - 1 - n) else 0).getMsbD i =
          (decide (i = n) && x.getMsbD n) := by
        cases x.getMsbD n with
        | false => simp
        | true =>
          rw [if_pos rfl, Bool.and_true, BitVec.getMsbD_twoPow,
            decide_eq_true (by omega : w - 1 - n < w), Bool.true_and]
          exact decide_eq_decide.mpr (by omega)
      rw [hterm]
      rcases Nat.lt_trichotomy i n with hlt | rfl | hgt
      · simp [hlt, Nat.lt_succ_of_lt hlt, Nat.ne_of_lt hlt]
      · simp
      · simp [Nat.not_lt_of_gt hgt, Nat.ne_of_gt hgt, show ¬i < n + 1 by omega]
  refine BitVec.eq_of_getMsbD_eq fun i hi => ?_
  rw [hbits w le_rfl i hi, decide_eq_true hi, Bool.true_and]

/-- The matrix with the columns `k`, `k` rotated by one, and so on, times `x`. -/
def circulant (k x : BitVec w) : BitVec w := select k.rotateLeft x.getMsbD w

theorem circulant_xor (k x y : BitVec w) :
    circulant k (x ^^^ y) = circulant k x ^^^ circulant k y := by
  rw [circulant, circulant, circulant, ← select_xor]
  exact select_congr (fun _ _ => rfl) fun j _ => BitVec.getMsbD_xor

section Ring

/-- The bit as a number. -/
def bit (b : Bool) : ZMod 2 := if b then 1 else 0

theorem bit_xor (a b : Bool) : bit (a ^^ b) = bit a + bit b := by
  cases a <;> cases b <;> rfl

theorem bit_inj {a b : Bool} (h : bit a = bit b) : a = b := by
  cases a <;> cases b
  · rfl
  · exact absurd h (by decide)
  · exact absurd h (by decide)
  · rfl

theorem sum_pow_two_pow {G ι : Type} [AddCommGroup G] (hG : ∀ g : G, 2 ^ n • g = 0)
    (s : Finset ι) (e : ι → G) (c : ι → ZMod 2) :
    (∑ i ∈ s, single (e i) (c i) : AddMonoidAlgebra (ZMod 2) G) ^ 2 ^ n =
      single 0 (∑ i ∈ s, c i) := by
  have hchar : CharP (AddMonoidAlgebra (ZMod 2) G) 2 :=
    charP_of_injective_algebraMap' (ZMod 2) 2
  have hterm (i : ι) : (single (e i) (c i) : AddMonoidAlgebra (ZMod 2) G) ^ 2 ^ n =
      single 0 (c i) := by
    rw [single_pow, hG, ZMod.pow_card_pow]
  rw [sum_pow_char_pow 2, Finset.sum_congr rfl fun i _ => hterm i]
  exact (map_sum (singleAddHom 0) c s).symm

/-- The word as an element of the group ring, from its first bit on. -/
noncomputable def forward (x : BitVec w) : AddMonoidAlgebra (ZMod 2) (ZMod w) :=
  ∑ j ∈ Finset.range w, single (j : ZMod w) (bit (x.getMsbD j))

/-- The same in the opposite direction. -/
noncomputable def backward (x : BitVec w) : AddMonoidAlgebra (ZMod 2) (ZMod w) :=
  ∑ j ∈ Finset.range w, single (-(j : ZMod w)) (bit (x.getMsbD j))

theorem backward_zero : backward (0 : BitVec w) = 0 := by
  refine Finset.sum_eq_zero fun j _ => ?_
  rw [BitVec.ofNat_eq_ofNat, BitVec.getMsbD_zero]
  exact single_zero _

theorem backward_xor (x y : BitVec w) : backward (x ^^^ y) = backward x + backward y := by
  rw [backward, backward, backward, ← Finset.sum_add_distrib]
  refine Finset.sum_congr rfl fun j _ => ?_
  rw [BitVec.getMsbD_xor, bit_xor, single_add]

theorem natCast_inj_of_lt {i j : Nat} (hi : i < w) (hj : j < w) (h : (i : ZMod w) = j) : i = j := by
  rw [ZMod.natCast_eq_natCast_iff', Nat.mod_eq_of_lt hi, Nat.mod_eq_of_lt hj] at h
  exact h

theorem forward_inj {x y : BitVec w} (h : forward x = forward y) : x = y := by
  have hcoeff : ∀ (x : BitVec w) (i : Nat), i < w →
      (forward x).coeff (i : ZMod w) = bit (x.getMsbD i) := by
    intro x i hi
    rw [forward, coeff_sum, Finsupp.finsetSum_apply, Finset.sum_eq_single i]
    · exact Finsupp.single_eq_same
    · intro j hj hne
      exact Finsupp.single_eq_of_ne fun heq =>
        hne (natCast_inj_of_lt (Finset.mem_range.mp hj) hi heq.symm)
    · exact fun hno => absurd (Finset.mem_range.mpr hi) hno
  refine BitVec.eq_of_getMsbD_eq fun i hi => bit_inj ?_
  rw [← hcoeff x i hi, ← hcoeff y i hi, h]

theorem backward_rotateLeft (k : BitVec w) (r : Nat) :
    backward (k.rotateLeft r) = single (r : ZMod w) 1 * backward k := by
  rw [backward, backward, Finset.mul_sum]
  rcases Nat.eq_zero_or_pos w with rfl | hw
  · rfl
  have hmaps : Set.MapsTo (fun j => (r + j) % w) (Finset.range w) (Finset.range w) :=
    fun j _ => Finset.mem_range.mpr (Nat.mod_lt _ hw)
  have hinj : Set.InjOn (fun j => (r + j) % w) (Finset.range w) := fun i hi j hj h =>
    (Nat.ModEq.add_left_cancel' r h).eq_of_lt_of_lt (Finset.mem_range.mp hi)
      (Finset.mem_range.mp hj)
  refine Finset.sum_nbij _ hmaps hinj (Finset.surjOn_of_injOn_of_card_le _ hmaps hinj le_rfl)
    fun j hj => ?_
  have hcell : (r : ZMod w) + -(((r + j) % w : Nat) : ZMod w) = -(j : ZMod w) := by
    rw [ZMod.natCast_mod, Nat.cast_add]
    ring
  rw [single_mul_single, hcell, one_mul, BitVec.getMsbD_rotateLeft,
    decide_eq_true (Finset.mem_range.mp hj), Bool.true_and]

theorem backward_select (f : Nat → BitVec w) (b : Nat → Bool) (n : Nat) :
    backward (select f b n) = ∑ j ∈ Finset.range n, bit (b j) • backward (f j) := by
  induction n with
  | zero => exact backward_zero
  | succ n ih =>
    have hterm : backward (if b n then f n else 0) = bit (b n) • backward (f n) := by
      cases b n
      · exact backward_zero.trans (zero_smul _ _).symm
      · exact (one_smul _ _).symm
    rw [select_succ, backward_xor, ih, hterm, Finset.sum_range_succ]

theorem backward_circulant (k x : BitVec w) :
    backward (circulant k x) = forward x * backward k := by
  rw [circulant, backward_select, forward, Finset.sum_mul]
  refine Finset.sum_congr rfl fun j _ => ?_
  rw [backward_rotateLeft, ← smul_mul_assoc, smul_single, smul_eq_mul, mul_one]

theorem circulant_injective {k : BitVec w} (hw : w = 2 ^ n)
    (hk : ∑ j ∈ Finset.range w, bit (k.getMsbD j) = 1) : Function.Injective (circulant k) := by
  have hpow : backward k ^ 2 ^ n = 1 := by
    rw [backward, sum_pow_two_pow, hk]
    · rfl
    · intro g
      rw [← hw, nsmul_eq_mul, ZMod.natCast_self, zero_mul]
  have hunit : IsUnit (backward k) :=
    IsUnit.of_pow_eq_one hpow (Nat.two_pow_pos n).ne'
  intro x y h
  have hprod := congrArg backward h
  rw [backward_circulant, backward_circulant] at hprod
  exact forward_inj (hunit.mul_left_injective hprod)

theorem select_const (k : BitVec w) (b : Nat → Bool) (n : Nat) :
    select (fun _ => k) b n = if ∑ j ∈ Finset.range n, bit (b j) = 1 then k else 0 := by
  induction n with
  | zero => rfl
  | succ n ih =>
    have hone : ∀ (s : ZMod 2) (c : Bool), s + bit c = 1 ↔ ¬(s = 1 ↔ c = true) := by decide
    rw [select_succ, ih, Finset.sum_range_succ]
    by_cases hs : ∑ j ∈ Finset.range n, bit (b j) = 1 <;> cases b n <;> simp [hone, hs]

end Ring

end Mbsd.Lib.Circulant
