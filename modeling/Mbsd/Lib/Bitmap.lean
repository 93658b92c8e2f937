import Mathlib.Data.BitVec

/-! Bitmaps as arrays of words, and the summary of a bitmap that has a bit for each full word. -/

namespace Mbsd.Lib.Bitmap

open List Option BitVec Nat

variable {w i j d e n : Nat} {b s : Array (BitVec w)} {x : BitVec w}

/-- The bit `d`, which is clear when no word has it. -/
def bit (b : Array (BitVec w)) (d : Nat) : Bool := (b[d / w]?.getD 0).getLsbD (d % w)

theorem bit_word (hx : b[i]? = some x) (hj : j < w) : bit b (i * w + j) = x.getLsbD j := by
  rw [bit, Nat.mul_comm, mul_add_div (by omega), mul_add_mod, div_eq_of_lt hj,
    mod_eq_of_lt hj, Nat.add_zero, hx, getD_some]

theorem bit_of_getElem? (hx : b[d / w]? = some x) : bit b d = x.getLsbD (d % w) := by
  rw [bit, hx, getD_some]

theorem bit_of_size_le (hw : 0 < w) (h : b.size * w ≤ d) : bit b d = false := by
  rw [bit, Array.getElem?_eq_none ((Nat.le_div_iff_mul_le hw).mpr h), getD_none]
  exact getLsbD_zero

theorem lt_of_bit (hw : 0 < w) (h : bit b d = true) : d < b.size * w := by
  refine Nat.lt_of_not_le fun hle => ?_
  rw [bit_of_size_le hw hle] at h
  cases h

theorem bit_replicate (d : Nat) : bit (Array.replicate n (0 : BitVec w)) d = false := by
  rw [bit, Array.getElem?_replicate]
  split <;> exact getLsbD_zero

theorem bit_append_zero (b : Array (BitVec w)) (n d : Nat) :
    bit (b ++ Array.replicate n 0) d = bit b d := by
  rw [bit, bit, Array.getElem?_append, Array.getElem?_replicate]
  split
  · rfl
  · next hle =>
    rw [Array.getElem?_eq_none (Nat.le_of_not_lt hle)]
    split <;> rfl

theorem bit_set (hi : i < b.size) :
    bit (b.setIfInBounds i x) d = if d / w = i then x.getLsbD (d % w) else bit b d := by
  rw [bit, Array.getElem?_setIfInBounds]
  by_cases h : i = d / w
  · subst h
    rw [if_pos rfl, if_pos rfl, if_pos hi, getD_some]
  · rw [if_neg h, if_neg (Ne.symm h), bit]

theorem eq_iff_div_mod (hj : j < w) : d = i * w + j ↔ d / w = i ∧ d % w = j := by
  constructor
  · rintro rfl
    rw [Nat.mul_comm, mul_add_div (by omega), mul_add_mod, div_eq_of_lt hj, mod_eq_of_lt hj]
    exact ⟨rfl, rfl⟩
  · rintro ⟨rfl, rfl⟩
    rw [Nat.mul_comm]
    exact (div_add_mod d w).symm

theorem getLsbD_or_bit (hj : j < w) (he : e < w) :
    (x ||| 1#w <<< j).getLsbD e = (decide (e = j) || x.getLsbD e) := by
  rw [getLsbD_or, getLsbD_shiftLeft, getLsbD_one, Bool.or_comm]
  congr 1
  by_cases h : e = j
  · subst h
    simp [he]
    omega
  · simp [h, he]
    omega

theorem getLsbD_and_not_bit (hj : j < w) (he : e < w) :
    (x &&& ~~~(1#w <<< j)).getLsbD e = (!decide (e = j) && x.getLsbD e) := by
  have hor := getLsbD_or_bit (x := 0#w) hj he
  rw [getLsbD_or, getLsbD_zero, Bool.false_or, Bool.or_false] at hor
  rw [getLsbD_and, getLsbD_not, hor, Bool.and_comm]
  simp [he]

theorem eq_iff_same_place (hw : 0 < w) : e = d ↔ e / w = d / w ∧ e % w = d % w := by
  rw [← eq_iff_div_mod (mod_lt d hw), div_add_mod']

theorem bit_set_or (hd : d / w < b.size) (hx : b[d / w]? = some x) (hw : 0 < w) :
    bit (b.setIfInBounds (d / w) (x ||| 1#w <<< (d % w))) e = (decide (e = d) || bit b e) := by
  rw [bit_set hd]
  have hmod := mod_lt d hw
  have hsame := eq_iff_same_place hw (e := e) (d := d)
  by_cases h : e / w = d / w
  · rw [if_pos h, getLsbD_or_bit hmod (mod_lt e hw), bit, h, hx, getD_some]
    simp [hsame, h]
  · rw [if_neg h]
    simp [hsame, h]

theorem bit_set_and (hd : d / w < b.size) (hx : b[d / w]? = some x) (hw : 0 < w) :
    bit (b.setIfInBounds (d / w) (x &&& ~~~(1#w <<< (d % w)))) e =
      (!decide (e = d) && bit b e) := by
  rw [bit_set hd]
  have hmod := mod_lt d hw
  have hsame := eq_iff_same_place hw (e := e) (d := d)
  by_cases h : e / w = d / w
  · rw [if_pos h, getLsbD_and_not_bit hmod (mod_lt e hw), bit, h, hx, getD_some]
    simp [hsame, h]
  · rw [if_neg h]
    simp [hsame, h]

section Ffs

/-- The first bit that is set, counted from one. -/
def ffs (x : BitVec w) : Nat := ((List.range w).find? fun i => x.getLsbD i).elim 0 (· + 1)

theorem ffs_spec (hx : x ≠ 0) :
    ∃ k < w, ffs x = k + 1 ∧ x.getLsbD k = true ∧ ∀ j < k, x.getLsbD j = false := by
  cases hfind : (range w).find? fun i => x.getLsbD i with
  | none =>
    refine absurd (eq_of_getLsbD_eq fun j hj => ?_) hx
    have hclear := find?_eq_none.mp hfind j (mem_range.mpr hj)
    rw [Bool.eq_false_of_not_eq_true hclear]
    exact getLsbD_zero.symm
  | some k =>
    obtain ⟨hset, hk, hmin⟩ := find?_range_eq_some.mp hfind
    refine ⟨k, mem_range.mp hk, by rw [ffs, hfind]; rfl, hset, fun j hj => ?_⟩
    exact Bool.eq_false_of_not_eq_true fun h => by simpa [h] using hmin j hj

end Ffs

theorem eq_allOnes_iff : x = allOnes w ↔ ∀ j < w, x.getLsbD j = true := by
  constructor
  · rintro rfl j hj
    rw [getLsbD_allOnes, decide_eq_true hj]
  · intro h
    refine eq_of_getLsbD_eq fun j hj => ?_
    rw [h j hj, getLsbD_allOnes, decide_eq_true hj]

/-- The word `i` is there and all ones. -/
def Full (b : Array (BitVec w)) (i : Nat) : Prop := b[i]? = some (BitVec.allOnes w)

instance (b : Array (BitVec w)) (i : Nat) : Decidable (Full b i) :=
  inferInstanceAs (Decidable (_ = _))

theorem full_iff : Full b i ↔ i < b.size ∧ ∀ j < w, bit b (i * w + j) = true := by
  constructor
  · intro h
    have hi : i < b.size := (Array.getElem?_eq_some_iff.mp h).1
    refine ⟨hi, fun j hj => ?_⟩
    rw [bit_word h hj, getLsbD_allOnes, decide_eq_true hj]
  · rintro ⟨hi, h⟩
    rw [Full, Array.getElem?_eq_getElem hi]
    refine congrArg some (eq_allOnes_iff.mpr fun j hj => ?_)
    rw [← bit_word (Array.getElem?_eq_getElem hi) hj]
    exact h j hj

/-- `s` has a bit for each full word of `b`. -/
def Summary (s b : Array (BitVec w)) : Prop := ∀ i, bit s i = true ↔ Full b i

theorem Summary.congr {s' b' : Array (BitVec w)} (h : Summary s b) (hs : ∀ d, bit s' d = bit s d)
    (hb : ∀ i, Full b' i ↔ Full b i) : Summary s' b' := fun i => by
  rw [hs, hb]
  exact h i

end Mbsd.Lib.Bitmap

/-! Rounding up to a multiple by a mask, in wrapping arithmetic. -/

namespace Mbsd.Lib.AlignUp

open BitVec Nat

variable {w : Nat} {x a k : BitVec w} {j : Nat}

/-- Rounds `x - k` up to a multiple of `a` and adds `k` again, if `a` is a power of two. -/
def alignUp (x a k : BitVec w) : BitVec w := ((x - k + (a - 1#w)) &&& -a) + k

theorem and_add_and_not (x m : BitVec w) : (x &&& m) + (x &&& ~~~m) = x := by
  rw [add_eq_or_of_and_eq_zero]
  · rw [← BitVec.and_or_distrib_left, BitVec.or_not_self, BitVec.and_allOnes]
  · ext i hi
    simp only [getElem_and, getElem_not, getElem_zero]
    cases m[i] <;> simp

theorem not_sub_one (a : BitVec w) : ~~~(a - 1#w) = -a := by
  rw [not_sub_one_eq_not_add_one, neg_eq_not_add]

theorem and_neg (x a : BitVec w) : x &&& -a = x - (x &&& (a - 1#w)) := by
  rw [← not_sub_one, BitVec.eq_sub_iff_add_eq, BitVec.add_comm, and_add_and_not]

theorem toNat_alignUp (ha : 0 < a.toNat) (x k : BitVec w) :
    ∃ d < a.toNat, (alignUp x a k).toNat = (x.toNat + d) % 2 ^ w := by
  have hmask : ((x - k + (a - 1#w)) &&& (a - 1#w)).toNat ≤ (a - 1#w).toNat := by
    rw [toNat_and]
    exact and_le_right
  generalize hz : (x - k + (a - 1#w)) &&& (a - 1#w) = z at hmask
  have hsum : alignUp x a k = x + (a - 1#w - z) := by
    rw [alignUp, and_neg, hz]
    grind
  have hone : (a - 1#w).toNat < a.toNat := by
    have hw : (1#w).toNat = 1 := by
      rw [toNat_ofNat, mod_eq_of_lt (by omega)]
    have hle : 1#w ≤ a := by
      rw [le_def, hw]
      exact ha
    rw [toNat_sub_of_le hle, hw]
    omega
  refine ⟨(a - 1#w).toNat - z.toNat, by omega, ?_⟩
  rw [hsum, toNat_add, toNat_sub_of_le (le_def.mpr hmask)]

section

variable (ha : a.toNat = 2 ^ j)

include ha

theorem toNat_dvd : a.toNat ∣ 2 ^ w := by
  have hjw : 2 ^ j < 2 ^ w := ha ▸ a.isLt
  rw [ha]
  exact Nat.pow_dvd_pow 2 (Nat.le_of_lt ((Nat.pow_lt_pow_iff_right (by decide)).mp hjw))

theorem toNat_and_sub_one (t : BitVec w) : (t &&& (a - 1#w)).toNat = t.toNat % a.toNat := by
  have hone : (a - 1#w).toNat = 2 ^ j - 1 := by
    have hpos : 0 < 2 ^ j := Nat.two_pow_pos j
    have hw : (1#w).toNat = 1 := by
      rw [toNat_ofNat, mod_eq_of_lt (by omega)]
    rw [toNat_sub_of_le (le_def.mpr (by omega)), hw, ha]
  rw [toNat_and, hone, ha, and_two_pow_sub_one_eq_mod]

theorem toNat_and_neg (t : BitVec w) : (t &&& -a).toNat = t.toNat - t.toNat % a.toNat := by
  have hrest := toNat_and_sub_one ha t
  rw [and_neg, toNat_sub_of_le (le_def.mpr (by rw [hrest]; exact mod_le _ _)), hrest]

theorem toNat_alignUp_mod (x k : BitVec w) :
    (alignUp x a k).toNat % a.toNat = k.toNat % a.toNat := by
  rw [alignUp, toNat_add, mod_mod_of_dvd _ (toNat_dvd ha), toNat_and_neg ha, add_mod,
    sub_mod_eq_zero_of_mod_eq (mod_mod _ _).symm, Nat.zero_add, mod_mod]

theorem alignUp_least {n : Nat} (hn : x.toNat = n % 2 ^ w) :
    ∃ N, n ≤ N ∧ N < n + a.toNat ∧ N % a.toNat = k.toNat % a.toNat ∧
      (alignUp x a k).toNat = N % 2 ^ w ∧ ∀ r, n ≤ r → r % a.toNat = k.toNat % a.toNat → N ≤ r := by
  have hdvd := toNat_dvd ha
  obtain ⟨d, hd, heq⟩ := toNat_alignUp (ha ▸ Nat.two_pow_pos j) x k
  have heq : (alignUp x a k).toNat = (n + d) % 2 ^ w := by rw [heq, hn, mod_add_mod]
  have hmod : (n + d) % a.toNat = k.toNat % a.toNat := by
    rw [← toNat_alignUp_mod ha x k, heq, mod_mod_of_dvd _ hdvd]
  refine ⟨n + d, Nat.le_add_right n d, by omega, hmod, heq, fun r hr hrmod => ?_⟩
  by_contra hlt
  -- two congruent numbers less than `a` apart
  have hdiff := sub_mod_eq_zero_of_mod_eq (hmod.trans hrmod.symm)
  rw [mod_eq_of_lt (by omega)] at hdiff
  omega

end

end Mbsd.Lib.AlignUp
