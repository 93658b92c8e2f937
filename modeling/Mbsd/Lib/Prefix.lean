import Mathlib.Data.BitVec
import Mathlib.Data.List.Range

/-! Words with the same first bits, and a counter whose last bits are put in place of those of
a word. -/

namespace Mbsd.Lib.Prefix

open List

variable {w k : Nat} {a b c r x : BitVec w} {n s : Nat}

/-- All but the last `k` bits. -/
def mask (w k : Nat) : BitVec w := BitVec.allOnes w <<< k

/-- The two words differ in the last `k` bits at most. -/
def Same (k : Nat) (a b : BitVec w) : Prop := a.toNat / 2 ^ k = b.toNat / 2 ^ k

theorem Same.comm : Same k a b ↔ Same k b a := eq_comm

theorem same_zero : Same 0 a b ↔ a = b := by
  rw [Same, Nat.pow_zero, Nat.div_one, Nat.div_one, BitVec.toNat_inj]

instance : Decidable (Same k a b) := inferInstanceAs (Decidable (_ = _))

/-- The first bits of `r` and the last `k` bits of `x`. -/
def place (k : Nat) (r x : BitVec w) : BitVec w :=
  (r &&& mask w k) ||| ((mask w k ^^^ BitVec.allOnes w) &&& x)

theorem getLsbD_mask (w k i : Nat) : (mask w k).getLsbD i = (decide (k ≤ i) && decide (i < w)) := by
  rw [mask, BitVec.getLsbD_shiftLeft, BitVec.getLsbD_allOnes]
  by_cases hk : k ≤ i
  · have hlt : i < w → i - k < w := fun h => Nat.lt_of_le_of_lt (Nat.sub_le i k) h
    by_cases hi : i < w
    · simp [hi, hk, hlt hi]
    · simp [hi]
  · simp [hk, Nat.lt_of_not_le hk]

theorem mask_eq_allOnes_iff (hw : 0 < w) : mask w k = BitVec.allOnes w ↔ k = 0 := by
  refine ⟨fun h => ?_, fun h => h ▸ BitVec.shiftLeft_zero _⟩
  have hbit := congrArg (fun x => x.getLsbD 0) h
  simp only [getLsbD_mask, BitVec.getLsbD_allOnes, hw, decide_true, Bool.and_true] at hbit
  exact Nat.le_zero.mp (of_decide_eq_true hbit)

theorem toNat_not_mask (hk : k ≤ w) : (~~~mask w k).toNat = 2 ^ k - 1 := by
  refine Nat.eq_of_testBit_eq fun i => ?_
  rw [BitVec.testBit_toNat, BitVec.getLsbD_not, getLsbD_mask, Nat.testBit_two_pow_sub_one]
  by_cases hi : i < w
  · by_cases hik : i < k
    · simp [hi, hik]
    · simp [hi, hik, Nat.le_of_not_lt hik]
  · simp [hi, show ¬i < k by omega]

theorem toNat_not_mask_add_one (hk : k ≤ w) : (~~~mask w k + 1).toNat = 2 ^ k % 2 ^ w := by
  have hone : (1 : BitVec w).toNat = 1 % 2 ^ w := BitVec.toNat_ofNat 1 w
  rw [BitVec.toNat_add, toNat_not_mask hk, hone, Nat.add_mod_mod,
    Nat.sub_add_cancel (Nat.two_pow_pos k)]

theorem getLsbD_place (i : Nat) :
    (place k r x).getLsbD i = if k ≤ i then r.getLsbD i else x.getLsbD i := by
  rw [place, BitVec.getLsbD_or, BitVec.getLsbD_and, BitVec.getLsbD_and, BitVec.getLsbD_xor,
    getLsbD_mask, BitVec.getLsbD_allOnes]
  by_cases hi : i < w
  · by_cases hk : k ≤ i <;> simp [hi, hk]
  · rw [BitVec.getLsbD_of_ge r i (Nat.le_of_not_lt hi),
      BitVec.getLsbD_of_ge x i (Nat.le_of_not_lt hi)]
    simp

theorem toNat_and_mask (a : BitVec w) (k : Nat) :
    (a &&& mask w k).toNat = 2 ^ k * (a.toNat / 2 ^ k) := by
  refine Nat.eq_of_testBit_eq fun i => ?_
  rw [BitVec.testBit_toNat, BitVec.getLsbD_and, getLsbD_mask, Nat.testBit_two_pow_mul,
    ← Nat.shiftRight_eq_div_pow, Nat.testBit_shiftRight, BitVec.testBit_toNat]
  by_cases hk : k ≤ i
  · rw [Nat.add_sub_cancel' hk, decide_eq_true hk, Bool.true_and, Bool.true_and]
    by_cases hi : i < w
    · rw [decide_eq_true hi, Bool.and_true]
    · rw [BitVec.getLsbD_of_ge a i (Nat.le_of_not_lt hi), Bool.false_and]
  · simp [hk]

theorem and_mask_eq_iff : a &&& mask w k = b &&& mask w k ↔ Same k a b := by
  rw [← BitVec.toNat_inj, toNat_and_mask, toNat_and_mask, Same]
  exact Nat.mul_right_inj (Nat.two_pow_pos k).ne'

theorem toNat_place (k : Nat) (r x : BitVec w) :
    (place k r x).toNat = 2 ^ k * (r.toNat / 2 ^ k) + x.toNat % 2 ^ k := by
  refine Nat.eq_of_testBit_eq fun i => ?_
  rw [BitVec.testBit_toNat, getLsbD_place,
    Nat.testBit_two_pow_mul_add _ (Nat.mod_lt _ (Nat.two_pow_pos k)), Nat.testBit_mod_two_pow,
    ← Nat.shiftRight_eq_div_pow, Nat.testBit_shiftRight, BitVec.testBit_toNat, BitVec.testBit_toNat]
  by_cases hk : k ≤ i
  · rw [if_pos hk, if_neg (Nat.not_lt_of_le hk), Nat.add_sub_cancel' hk]
  · rw [if_neg hk, if_pos (Nat.lt_of_not_le hk), decide_eq_true (Nat.lt_of_not_le hk),
      Bool.true_and]

theorem same_place (k : Nat) (r x : BitVec w) : Same k (place k r x) r := by
  rw [Same, toNat_place, Nat.mul_add_div (Nat.two_pow_pos k),
    Nat.div_eq_of_lt (Nat.mod_lt _ (Nat.two_pow_pos k)), Nat.add_zero]

theorem place_mod (k : Nat) (r x : BitVec w) : (place k r x).toNat % 2 ^ k = x.toNat % 2 ^ k := by
  rw [toNat_place, Nat.mul_add_mod, Nat.mod_mod]

theorem place_of_same (h : Same k a r) (hmod : x.toNat % 2 ^ k = a.toNat % 2 ^ k) :
    place k r x = a := by
  rw [← BitVec.toNat_inj, toNat_place, ← h, hmod, Nat.div_add_mod]

theorem place_eq_iff (h : Same k a r) : place k r x = a ↔ x.toNat % 2 ^ k = a.toNat % 2 ^ k :=
  ⟨fun heq => heq ▸ (place_mod k r x).symm, place_of_same h⟩

section Counter

theorem toNat_add_mod (hk : k ≤ w) (c : BitVec w) (i : Nat) :
    (c + BitVec.ofNat w i).toNat % 2 ^ k = (c.toNat + i) % 2 ^ k := by
  have hdvd : 2 ^ k ∣ 2 ^ w := Nat.pow_dvd_pow 2 hk
  rw [BitVec.toNat_add, BitVec.toNat_ofNat, Nat.mod_mod_of_dvd _ hdvd, Nat.add_mod,
    Nat.mod_mod_of_dvd _ hdvd, ← Nat.add_mod]

theorem place_add_eq_iff (hk : k ≤ w) (i : Nat) :
    place k r (x + BitVec.ofNat w i) = place k r x ↔ 2 ^ k ∣ i := by
  rw [place_eq_iff (same_place k r x), place_mod, toNat_add_mod hk]
  refine ⟨fun h => ?_, fun ⟨d, hd⟩ => by rw [hd, Nat.add_mul_mod_self_left]⟩
  exact (Nat.modEq_zero_iff_dvd).mp (Nat.ModEq.add_left_cancel' x.toNat h)

/-- The counter is put in place `n` times, from its `s`th turn on. -/
def turns (k : Nat) (r c : BitVec w) (s n : Nat) : List (BitVec w) :=
  (List.range' s n).map fun i => place k r (c + BitVec.ofNat w i)

theorem turns_cons (k : Nat) (r c : BitVec w) (n : Nat) :
    turns k r c 0 (n + 1) = place k r c :: turns k r (c + 1) 0 n := by
  rw [turns, range'_succ, map_cons, turns, BitVec.add_zero, range'_succ_left, map_map]
  refine congrArg _ (map_congr_left fun i _ => ?_)
  rw [Function.comp_apply, BitVec.add_assoc, Nat.add_comm, BitVec.ofNat_add]
  rfl

theorem turns_append (k : Nat) (r c : BitVec w) (s m n : Nat) :
    turns k r c s (m + n) = turns k r c s m ++ turns k r c (s + m) n := by
  rw [turns, turns, turns, ← map_append, range'_append_1]

@[simp] theorem length_turns (k : Nat) (r c : BitVec w) (s n : Nat) :
    (turns k r c s n).length = n := by
  rw [turns, length_map, length_range']

theorem place_zero (r x : BitVec w) : place 0 r x = r := by
  rw [← BitVec.toNat_inj, toNat_place, Nat.pow_zero, Nat.one_mul, Nat.div_one, Nat.mod_one,
    Nat.add_zero]

theorem turns_zero (r c : BitVec w) (s n : Nat) : turns 0 r c s n = List.replicate n r := by
  rw [turns, eq_replicate_iff]
  refine ⟨by rw [length_map, length_range'], fun b hb => ?_⟩
  obtain ⟨i, -, rfl⟩ := mem_map.mp hb
  exact place_zero r _

theorem turns_window {pre window post : List (BitVec w)}
    (h : turns k r c 0 n = pre ++ window ++ post) :
    window = turns k r c pre.length window.length := by
  have hlen := congrArg length h
  rw [length_turns, length_append, length_append] at hlen
  rw [hlen, turns_append, turns_append, Nat.zero_add] at h
  have hfirst := append_inj_left h (by simp)
  exact (append_inj_right hfirst (by simp)).symm

theorem mem_turns_same (h : a ∈ turns k r c s n) : Same k a r := by
  obtain ⟨i, -, rfl⟩ := mem_map.mp h
  exact same_place k r _

theorem nodup_turns (hk : k ≤ w) (hn : n ≤ 2 ^ k) : (turns k r c s n).Nodup := by
  refine Nodup.map_on (fun i hi j hj heq => ?_) nodup_range'
  have hmod : (c.toNat + i) ≡ (c.toNat + j) [MOD 2 ^ k] := by
    rw [Nat.ModEq, ← toNat_add_mod hk, ← toNat_add_mod hk, ← place_mod k r, heq, place_mod]
  rw [mem_range'_1] at hi hj
  have hij := Nat.ModEq.add_left_cancel' c.toNat hmod
  exact hij.eq_of_abs_lt (abs_lt.mpr ⟨by omega, by omega⟩)

theorem exists_turn (k t u : Nat) : ∃ d < 2 ^ k, (t + d) % 2 ^ k = u % 2 ^ k := by
  have hpos := Nat.two_pow_pos k
  refine ⟨(u + (2 ^ k - t % 2 ^ k)) % 2 ^ k, Nat.mod_lt _ hpos, ?_⟩
  have hsum : t + (u + (2 ^ k - t % 2 ^ k)) = u + 2 ^ k * (t / 2 ^ k + 1) := by
    have hdiv := Nat.div_add_mod t (2 ^ k)
    rw [Nat.mul_add]
    omega
  rw [Nat.add_mod_mod, hsum, Nat.add_mul_mod_self_left]

theorem mem_turns (hk : k ≤ w) (h : Same k a r) (s : Nat) : a ∈ turns k r c s (2 ^ k) := by
  obtain ⟨d, hd, hmod⟩ := exists_turn k (c.toNat + s) a.toNat
  refine mem_map.mpr ⟨s + d, mem_range'_1.mpr ⟨by omega, by omega⟩, ?_⟩
  exact place_of_same h (by rw [toNat_add_mod hk, ← Nat.add_assoc, hmod])

theorem count_turns (hk : k ≤ w) (h : Same k a r) (s : Nat) : (turns k r c s (2 ^ k)).count a = 1 :=
  count_eq_one_of_mem (nodup_turns hk le_rfl) (mem_turns hk h s)

end Counter

section Block

theorem same_iff : Same k a b ↔
      2 ^ k * (b.toNat / 2 ^ k) ≤ a.toNat ∧ a.toNat < 2 ^ k * (b.toNat / 2 ^ k) + 2 ^ k := by
  have hpos := Nat.two_pow_pos k
  have hdiv := Nat.div_add_mod a.toNat (2 ^ k)
  rw [Same]
  refine ⟨fun h => ⟨by rw [← h]; omega, by rw [← h]; omega⟩, fun ⟨hlo, hhi⟩ => ?_⟩
  refine Nat.div_eq_of_lt_le ?_ ?_
  · rwa [Nat.mul_comm]
  · rwa [Nat.add_mul, Nat.one_mul, Nat.mul_comm]

theorem block_le (hk : k ≤ w) (c : BitVec w) : 2 ^ k * (c.toNat / 2 ^ k) + 2 ^ k ≤ 2 ^ w := by
  obtain ⟨d, rfl⟩ := Nat.exists_eq_add_of_le hk
  have hlt : c.toNat / 2 ^ k < 2 ^ d := Nat.div_lt_of_lt_mul (Nat.pow_add 2 k d ▸ c.isLt)
  rw [← Nat.mul_succ, Nat.pow_add]
  exact Nat.mul_le_mul_left _ hlt

theorem exists_hit (hk : k ≤ w) (hnew : ¬Same k (c + 1) c) (hout : ¬Same k r c) :
    ∃ j, j + 1 < 2 ^ w ∧ c + BitVec.ofNat w (j + 1) = r ∧
      ∀ i < j, ¬Same k (c + BitVec.ofNat w (i + 1)) c := by
  have hblock := block_le hk c
  have hself : Same k c c := rfl
  have hadd (i : Nat) : (c + BitVec.ofNat w i).toNat = (c.toNat + i) % 2 ^ w := by
    rw [BitVec.toNat_add, BitVec.toNat_ofNat, Nat.add_mod_mod]
  rw [same_iff] at hout hself
  have hlast : c.toNat + 1 = 2 ^ k * (c.toNat / 2 ^ k) + 2 ^ k := by
    have hone := hadd 1
    by_contra hno
    rw [Nat.mod_eq_of_lt (by omega)] at hone
    exact hnew (same_iff.mpr (by rw [show (c + 1).toNat = _ from hone]; omega))
  have hne : (r - c).toNat ≠ 0 := fun hzero => hout (by
    rwa [show r = c from sub_eq_zero.mp (BitVec.eq_of_toNat_eq hzero)])
  obtain ⟨j, hj⟩ : ∃ j, j + 1 = (r - c).toNat := ⟨_, Nat.succ_pred_eq_of_ne_zero hne⟩
  refine ⟨j, hj ▸ (r - c).isLt, ?_, fun i hi hsame => ?_⟩
  · rw [hj, BitVec.ofNat_toNat, BitVec.setWidth_eq, add_sub_cancel]
  · rw [BitVec.toNat_sub] at hj
    rw [same_iff, hadd] at hsame
    have hwrap : 2 ^ w ≤ c.toNat + (i + 1) := by
      by_contra hno
      rw [Nat.mod_eq_of_lt (Nat.lt_of_not_le hno)] at hsame
      omega
    rw [Nat.mod_eq_sub_mod hwrap, Nat.mod_eq_of_lt (by omega)] at hsame
    rcases Nat.lt_or_ge r.toNat c.toNat with hlt | hge
    · rw [Nat.mod_eq_of_lt (by omega)] at hj
      omega
    · rw [Nat.mod_eq_sub_mod (by omega), Nat.mod_eq_of_lt (by omega)] at hj
      omega
end Block

end Mbsd.Lib.Prefix
