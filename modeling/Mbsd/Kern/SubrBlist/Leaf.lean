import Mbsd.Kern.SubrBlist.Tree
import Mbsd.Lib.Run

/-! The leaves: ranges of a bitmap are freed, filled and allocated. -/

namespace Mbsd.Kern.SubrBlist

open Lib.CountIn Lib.Yields BitVec Nat Bool BlMem

variable {mem mem' : BlMem} {scan blk count cnt x lo : Nat} {orig bitmap : BitVec 64}
  {a b mask : BitVec 64} {j n k : Nat}

theorem getLsbD_rangeMask (hcount : 0 < count) (hle : blk % bmapRadix + count ≤ bmapRadix) :
    (rangeMask blk count).getLsbD x =
      decide (blk % bmapRadix ≤ x ∧ x < blk % bmapRadix + count) := by
  rw [rangeMask, getLsbD_and, getLsbD_shiftLeft, getLsbD_ushiftRight,
    getLsbD_allOnes, getLsbD_allOnes]
  have hbits : bmapRadix = 64 := rfl
  by_cases hx : blk % bmapRadix ≤ x ∧ x < blk % bmapRadix + count
  · rw [decide_eq_true hx, decide_eq_true (by omega : x < 64),
      decide_eq_false (by omega : ¬x < blk % bmapRadix),
      decide_eq_true (by omega : x - blk % bmapRadix < 64),
      decide_eq_true (by omega : bmapRadix - count - blk % bmapRadix + x < 64)]
    rfl
  · rw [decide_eq_false hx]
    by_cases hlo : x < blk % bmapRadix
    · rw [decide_eq_true hlo, Bool.not_true, Bool.and_false, Bool.false_and, Bool.false_and]
    · rw [decide_eq_false (by omega : ¬bmapRadix - count - blk % bmapRadix + x < 64),
        Bool.and_false]

theorem and_eq_zero_iff : a &&& b = 0 ↔ ∀ x, b.getLsbD x = true → a.getLsbD x = false := by
  constructor
  · intro h x hb
    have hx := congrArg (getLsbD · x) h
    rw [getLsbD_and, hb, Bool.and_true] at hx
    exact hx.trans getLsbD_zero
  · intro h
    refine eq_of_getLsbD_eq fun x _ => ?_
    rw [getLsbD_and]
    cases hb : b.getLsbD x with
    | false => rw [Bool.and_false]; exact getLsbD_zero.symm
    | true => rw [h x hb, Bool.false_and]; exact getLsbD_zero.symm

theorem and_eq_right_iff : a &&& b = b ↔ ∀ x, b.getLsbD x = true → a.getLsbD x = true := by
  constructor
  · intro h x hb
    have hx := congrArg (getLsbD · x) h
    rwa [getLsbD_and, hb, Bool.and_true] at hx
  · intro h
    refine eq_of_getLsbD_eq fun x _ => ?_
    rw [getLsbD_and]
    cases hb : b.getLsbD x with
    | false => rw [Bool.and_false]
    | true => rw [h x hb, Bool.true_and]

theorem countLoop_eq (n nblks : Nat) (hn : countIn bitmap.getLsbD 0 64 ≤ n) :
    countLoop n bitmap nblks = nblks + countIn bitmap.getLsbD 0 64 := by
  induction n generalizing bitmap nblks with
  | zero => rw [countLoop, le_zero.mp hn, Nat.add_zero]
  | succ n ih =>
    rw [countLoop]
    split
    next hne =>
      have hpos : 0 < bitmap.toNat :=
        Nat.pos_of_ne_zero fun hzero => hne (toNat_inj.mp hzero)
      have hpred : (bitmap - 1).toNat = bitmap.toNat - 1 :=
        toNat_sub_of_le (le_def.mpr hpos)
      have hless : countIn (bitmap &&& (bitmap - 1)).getLsbD 0 64 + 1 =
          countIn bitmap.getLsbD 0 64 := by
        have h := countIn_and_pred hpos bitmap.isLt
        rwa [← hpred, ← toNat_and] at h
      rw [ih (nblks + 1) (by omega)]
      omega
    next hzero =>
      rw [Decidable.not_not] at hzero
      have hnone : countIn bitmap.getLsbD 0 64 = 0 :=
        countIn_eq_zero_iff.mpr fun x _ _ => by rw [hzero]; exact getLsbD_zero
      rw [hnone, Nat.add_zero]

theorem getLsbD_rangeMask_add {base : Nat} (hbase : bmapRadix ∣ base) (hcount : 0 < count)
    (hle : lo + count ≤ bmapRadix) :
    (rangeMask (base + lo) count).getLsbD x = inRange lo count x := by
  have hlo : (base + lo) % bmapRadix = lo := by
    rw [add_mod, mod_eq_zero_of_dvd hbase, Nat.zero_add, mod_mod, mod_eq_of_lt (by omega)]
  rw [getLsbD_rangeMask hcount (by rwa [hlo]), hlo]
  rfl

section Range

variable {base : Nat} (hs : Shape mem 0 scan cnt) (hg : Good mem 0 scan cnt)
  (hbase : bmapRadix ∣ base) (hcount : 0 < count) (hle : lo + count ≤ cnt)

include hs hg hbase hcount hle

theorem blstLeafFree_becomes (hfree : ∀ x, lo ≤ x → x < lo + count → isFree mem 0 scan x = false) :
    ∃ mem', blstLeafFree mem scan (base + lo) count = some mem' ∧
      Becomes mem mem' 0 scan cnt fun x => isFree mem 0 scan x || inRange lo count x := by
  have hmask : ∀ x, (rangeMask (base + lo) count).getLsbD x = inRange lo count x :=
    fun x => getLsbD_rangeMask_add hbase hcount (Nat.le_trans hle hs.cnt_le)
  have hnone : (mem scan).bmuBitmap &&& rangeMask (base + lo) count = 0 := by
    refine and_eq_zero_iff.mpr fun x hx => ?_
    obtain ⟨hlo, hhi⟩ := inRange_iff.mp ((hmask x).symm.trans hx)
    exact hfree x hlo hhi
  refine ⟨_, by rw [blstLeafFree, if_neg (not_not_intro hnone)], .set _ _ _ _,
    .set hs.1 (by decide : bmapRadix ≠ terminator), ⟨fun x hx => ?_, fun n hrun => ?_⟩,
    fun x _ => ?_⟩
  · rw [set_self, getLsbD_or, hg.1 x hx, hmask, Bool.false_or]
    exact inRange_eq_false.mpr (by omega)
  · rw [set_self]
    exact hrun.le_bmapRadix
  · rw [isFree, set_self, getLsbD_or, hmask]
    rfl

theorem blstLeafFill_becomes :
    (Becomes mem (blstLeafFill mem scan (base + lo) count).1 0 scan cnt fun x =>
      isFree mem 0 scan x && !inRange lo count x) ∧
    (blstLeafFill mem scan (base + lo) count).2 = countIn (isFree mem 0 scan) lo count := by
  have hmask : ∀ x, (rangeMask (base + lo) count).getLsbD x = inRange lo count x :=
    fun x => getLsbD_rangeMask_add hbase hcount (Nat.le_trans hle hs.cnt_le)
  have hfree : ∀ x < cnt, isFree (blstLeafFill mem scan (base + lo) count).1 0 scan x =
      (isFree mem 0 scan x && !inRange lo count x) := by
    intro x hx
    have hlt : x < 64 := Nat.lt_of_lt_of_le hx hs.cnt_le
    rw [isFree, blstLeafFill]
    dsimp only
    rw [set_self, getLsbD_and, getLsbD_not, hmask, decide_eq_true hlt, Bool.true_and]
    rfl
  refine ⟨⟨.set _ _ _ _, .set hs.1 hs.1, ⟨fun x hx => ?_, fun n hrun => ?_⟩, hfree⟩, ?_⟩
  · rw [blstLeafFill]
    dsimp only
    rw [set_self, getLsbD_and, hg.1 x hx, Bool.false_and]
  · rw [blstLeafFill]
    dsimp only
    rw [set_self]
    refine hg.2 n (hrun.congr fun x hx hxfree => ?_)
    rw [hfree x hx, and_eq_true] at hxfree
    exact hxfree.1
  · have hlow : ∀ x, ((mem scan).bmuBitmap &&& rangeMask (base + lo) count).getLsbD x =
        ((mem scan).bmuBitmap.getLsbD x && inRange lo count x) := by
      intro x
      rw [getLsbD_and, hmask]
    have hin : lo + count ≤ 64 := Nat.le_trans hle hs.cnt_le
    rw [blstLeafFill]
    rw [countLoop_eq bmapRadix 0 (countIn_le _ 0 64), Nat.zero_add, countIn_split _ hin]
    have hzero : ∀ a m, (a + m ≤ lo ∨ lo + count ≤ a) →
        countIn ((mem scan).bmuBitmap &&& rangeMask (base + lo) count).getLsbD a m = 0 := by
      intro a m hcase
      refine countIn_eq_zero_iff.mpr fun x hlo hhi => ?_
      rw [hlow, inRange_eq_false.mpr (by omega), Bool.and_false]
    rw [hzero 0 _ (by omega), hzero (lo + count) _ (by omega), Nat.zero_add, Nat.add_zero]
    refine countIn_congr fun x hlo hhi => ?_
    rw [hlow, inRange_iff.mpr ⟨hlo, hhi⟩, Bool.and_true]
    rfl

end Range

theorem getLsbD_allOnes_ushiftRight (hj : j ≤ 64) :
    (allOnes 64 >>> (64 - j)).getLsbD x = decide (x < j) := by
  rw [getLsbD_ushiftRight, getLsbD_allOnes]
  exact decide_eq_decide.mpr (by omega)

theorem getLsbD_one_shiftLeft {r : Nat} (hx : x < 64) : (1#64 <<< r).getLsbD x = inRange r 1 x := by
  rw [getLsbD_shiftLeft, decide_eq_true hx, Bool.true_and, getLsbD_one]
  rcases Nat.lt_trichotomy x r with hlt | rfl | hgt
  · rw [decide_eq_true hlt, inRange_eq_false.mpr (by omega)]
    rfl
  · rw [inRange_iff.mpr ⟨Nat.le_refl _, lt_succ_self _⟩, Nat.sub_self,
      decide_eq_false (Nat.lt_irrefl x)]
    rfl
  · rw [inRange_eq_false.mpr (by omega), decide_eq_false (by omega : ¬x - r = 0), Bool.and_false,
      Bool.and_false]

theorem lowBitLoop_spec (orig : BitVec 64) (r : Nat) (hn : k + 2 ≤ n) (hk : k ≤ 5)
    (hbit : ∃ x < 2 ^ (k + 1), orig.getLsbD x = true) :
    ∃ x, lowBitLoop n orig (allOnes 64 >>> (64 - 2 ^ k)) (2 ^ k) r = r + x ∧
      orig.getLsbD x = true := by
  induction k generalizing n orig r with
  | zero =>
    obtain ⟨n, rfl⟩ := Nat.exists_eq_add_of_le' hn
    obtain ⟨x, hx, hset⟩ := hbit
    rw [lowBitLoop, if_neg (by decide)]
    split
    next hlow =>
      have hzero : orig.getLsbD 0 = false :=
        and_eq_zero_iff.mp hlow 0 (by rw [getLsbD_allOnes_ushiftRight (by decide)]; rfl)
      have hone : x = 1 := by
        rcases Nat.lt_or_ge x 1 with hlt | hge
        · rw [lt_one_iff.mp hlt, hzero] at hset
          cases hset
        · omega
      exact ⟨1, by rw [lowBitLoop]; rfl, hone ▸ hset⟩
    next hlow =>
      have hzero : orig.getLsbD 0 = true := by
        by_contra hfalse
        refine hlow (and_eq_zero_iff.mpr fun y hy => ?_)
        rw [getLsbD_allOnes_ushiftRight (by decide), decide_eq_true_iff] at hy
        rw [show y = 0 by omega]
        exact not_eq_true _ ▸ hfalse
      exact ⟨0, by rw [lowBitLoop]; rfl, hzero⟩
  | succ k ih =>
    obtain ⟨n, rfl⟩ := Nat.exists_eq_add_of_le' hn
    obtain ⟨x, hx, hset⟩ := hbit
    have hpow : 2 ^ (k + 1) ≤ 2 ^ 5 := Nat.pow_le_pow_right (by decide) hk
    have hhalf : 2 ^ (k + 1) / 2 = 2 ^ k := by rw [Nat.pow_succ, Nat.mul_div_cancel _ (by decide)]
    have hmask : allOnes 64 >>> (64 - 2 ^ (k + 1)) >>> 2 ^ k =
        allOnes 64 >>> (64 - 2 ^ k) := by
      rw [← BitVec.shiftRight_add]
      congr 1
      rw [Nat.pow_succ] at hpow ⊢
      omega
    rw [show n + (k + 1 + 2) = n + (k + 2) + 1 by omega, lowBitLoop, hhalf, hmask,
      if_neg (Nat.ne_of_gt (Nat.two_pow_pos _))]
    split
    next hlow =>
      -- the low half is empty
      have hge : 2 ^ (k + 1) ≤ x := by
        by_contra hlt
        have hfalse := and_eq_zero_iff.mp hlow x (by
          rw [getLsbD_allOnes_ushiftRight (by omega), decide_eq_true_iff]
          omega)
        rw [hset] at hfalse
        cases hfalse
      obtain ⟨y, hy, hyset⟩ := ih (orig >>> 2 ^ (k + 1)) (n := n + (k + 2))
        (r + 2 ^ (k + 1)) (by omega) (by omega)
        ⟨x - 2 ^ (k + 1), by omega, by
          rw [getLsbD_ushiftRight, Nat.add_sub_cancel' hge, hset]⟩
      rw [getLsbD_ushiftRight] at hyset
      exact ⟨2 ^ (k + 1) + y, by rw [hy, Nat.add_assoc], hyset⟩
    next hlow =>
      obtain ⟨y, hy, hyset⟩ : ∃ y, y < 2 ^ (k + 1) ∧ orig.getLsbD y = true := by
        by_contra hnone
        refine hlow (and_eq_zero_iff.mpr fun y hy => ?_)
        rw [getLsbD_allOnes_ushiftRight (by omega), decide_eq_true_iff] at hy
        cases hset : orig.getLsbD y with
        | false => rfl
        | true => exact absurd ⟨y, hy, hset⟩ hnone
      exact ih orig r (by omega) (by omega) ⟨y, hy, hyset⟩

theorem runLoop_spec (orig : BitVec 64) (turns : Nat)
    (hmask : ∀ x < 64, mask.getLsbD x = inRange j count x) : match runLoop orig turns mask j with
    | some (k, mask) => k < j + turns ∧ orig &&& mask = mask ∧
        ∀ x < 64, mask.getLsbD x = inRange k count x
    | none => ∀ k, j ≤ k → k < j + turns → k + count ≤ 64 →
        ∃ x, k ≤ x ∧ x < k + count ∧ orig.getLsbD x = false := by
  induction turns generalizing mask j with
  | zero => exact fun k hlo hhi => by omega
  | succ turns ih =>
    by_cases hset : orig &&& mask = mask
    · rw [runLoop, if_pos hset]
      exact ⟨by omega, hset, hmask⟩
    · have hnext : ∀ x < 64, (mask <<< 1).getLsbD x = inRange (j + 1) count x := by
        intro x hx
        rw [getLsbD_shiftLeft, decide_eq_true hx, Bool.true_and]
        by_cases hzero : x < 1
        · rw [decide_eq_true hzero, Bool.not_true, Bool.false_and]
          exact (inRange_eq_false.mpr (by omega)).symm
        · rw [decide_eq_false hzero, Bool.not_false, Bool.true_and, hmask _ (by omega)]
          exact decide_eq_decide.mpr (by omega)
      have hrest := ih hnext
      rw [runLoop, if_neg hset]
      cases hloop : runLoop orig turns (mask <<< 1) (j + 1) with
      | some found =>
        rw [hloop] at hrest
        exact ⟨by have := hrest.1; omega, hrest.2⟩
      | none =>
        rw [hloop] at hrest
        intro k hlo hhi hle
        rcases Nat.eq_or_lt_of_le hlo with rfl | hlt
        · by_contra hnone
          refine hset (and_eq_right_iff.mpr fun x hx => ?_)
          have hin := hmask x (lt_of_getLsbD hx)
          rw [hx] at hin
          obtain ⟨hge, hlt⟩ := inRange_iff.mp hin.symm
          by_contra hfalse
          exact hnone ⟨x, hge, hlt, (not_eq_true _).mp hfalse⟩
        · exact hrest k hlt (by omega) hle

def Allocated (mem : BlMem) (h scan cnt blk count : Nat) : Option Nat × BlMem → Prop
  | (some r, mem') => ∃ x, r = blk + x ∧ x + count ≤ cnt ∧
      (∀ y, x ≤ y → y < x + count → isFree mem h scan y = true) ∧
      Becomes mem mem' h scan cnt fun y => isFree mem h scan y && !inRange x count y
  | (none, mem') => Becomes mem mem' h scan cnt (isFree mem h scan) ∧
      ¬LeafRun (isFree mem h scan) cnt count

section Alloc

variable (hs : Shape mem 0 scan cnt) (hg : Good mem 0 scan cnt)

include hs

theorem leafRun_leaf {f : Nat → Bool} (hrun : LeafRun f cnt n) (hn : 0 < n) :
    ∃ s, s + n ≤ cnt ∧ ∀ i < n, f (s + i) = true := by
  obtain ⟨q, s, hsn, hle, hall⟩ := hrun
  have hcnt : cnt ≤ bmapRadix := hs.2.2
  have hq : q = 0 := by
    simp only [bmapRadix] at *
    omega
  subst hq
  rw [Nat.zero_mul, Nat.zero_add] at hle hall
  exact ⟨s, hle, hall⟩

include hg

theorem taken (hcount : 0 < count) (hset : (mem scan).bmuBitmap &&& mask = mask)
    (hmask : ∀ x < 64, mask.getLsbD x = inRange k count x) (hk : k + count ≤ 64) :
    Allocated mem 0 scan cnt blk count (some (blk + k),
      mem.set scan { mem scan with bmuBitmap := (mem scan).bmuBitmap &&& ~~~mask }) := by
  have hfree : ∀ y, k ≤ y → y < k + count → (mem scan).bmuBitmap.getLsbD y = true :=
    fun y hlo hhi => and_eq_right_iff.mp hset y
      ((hmask y (by omega)).trans (inRange_iff.mpr ⟨hlo, hhi⟩))
  have hle : k + count ≤ cnt := by
    by_contra hlt
    have hbit := hfree (k + count - 1) (by omega) (by omega)
    rw [hg.1 _ (by omega)] at hbit
    cases hbit
  have hafter : ∀ y < cnt,
      ((mem scan).bmuBitmap &&& ~~~mask).getLsbD y =
        ((mem scan).bmuBitmap.getLsbD y && !inRange k count y) := by
    intro y hy
    have hlt : y < 64 := Nat.lt_of_lt_of_le hy hs.cnt_le
    rw [getLsbD_and, getLsbD_not, hmask y hlt, decide_eq_true hlt, Bool.true_and]
  refine ⟨k, rfl, hle, hfree, .set _ _ _ _, .set hs.1 hs.1, ⟨fun x hx => ?_, fun n hrun => ?_⟩,
    fun y hy => ?_⟩
  · rw [set_self, getLsbD_and, hg.1 x hx, Bool.false_and]
  · rw [set_self]
    refine hg.2 n (hrun.congr fun y hy hyfree => ?_)
    rw [isFree, set_self, hafter y hy, and_eq_true] at hyfree
    exact hyfree.1
  · rw [isFree, set_self, hafter y hy]
    rfl

theorem notTaken {hint : Nat} (hhint : hint ≠ terminator)
    (hnone : ¬LeafRun (isFree mem 0 scan) cnt count)
    (hok : ∀ n, LeafRun (isFree mem 0 scan) cnt n → n ≤ hint) : Allocated mem 0 scan cnt blk count
      (none, mem.set scan { mem scan with bmBighint := hint }) := by
  have hfree : ∀ y, isFree (mem.set scan { mem scan with bmBighint := hint }) 0 scan y =
      isFree mem 0 scan y := fun y => by rw [isFree, set_self]; rfl
  refine ⟨⟨.set _ _ _ _, .set hs.1 hhint, ⟨fun x hx => ?_, fun n hrun => ?_⟩,
    fun y _ => hfree y⟩, hnone⟩
  · rw [set_self]
    exact hg.1 x hx
  · rw [set_self]
    exact hok n (hrun.congr fun y _ hy => hfree y ▸ hy)

theorem blstLeafAlloc_allocated (hcount : 0 < count) (hlt : count ≤ terminator) :
    Allocated mem 0 scan cnt blk count (blstLeafAlloc mem scan blk count) := by
  have hlower : ¬LeafRun (isFree mem 0 scan) cnt count →
      Allocated mem 0 scan cnt blk count
        (none, mem.set scan { mem scan with bmBighint := count - 1 }) := by
    intro hnone
    refine notTaken hs hg (by omega) hnone fun n hrun => ?_
    by_contra hgt
    exact hnone (hrun.le (by omega))
  rw [blstLeafAlloc]
  split
  next hzero =>
    have hno : ∀ n, LeafRun (isFree mem 0 scan) cnt n → n ≤ 0 := by
      intro n hrun
      by_contra hpos
      obtain ⟨s, hsn, hall⟩ := leafRun_leaf hs hrun (by omega)
      have hbit := hall 0 (by omega)
      rw [isFree, hzero] at hbit
      exact absurd hbit (by simp)
    exact notTaken hs hg (by decide) (fun hrun => by have := hno _ hrun; omega) hno
  next hne =>
    split
    next hone =>
      have hbit : ∃ x < 2 ^ (5 + 1), (mem scan).bmuBitmap.getLsbD x = true := by
        by_contra hnone
        refine hne (eq_of_getLsbD_eq fun x hx => ?_)
        refine Eq.trans ?_ getLsbD_zero.symm
        cases hset : (mem scan).bmuBitmap.getLsbD x with
        | false => rfl
        | true => exact absurd ⟨x, hx, hset⟩ hnone
      obtain ⟨x, hx, hset⟩ := lowBitLoop_spec _ (n := bmapRadix) 0 (by decide) (by decide) hbit
      rw [Nat.zero_add, show 64 - 2 ^ 5 = 2 ^ 5 from rfl] at hx
      have hin := lt_of_getLsbD hset
      rw [show bmapRadix / 2 = 2 ^ 5 from rfl, hx]
      refine taken hs hg hcount (and_eq_right_iff.mpr fun y hy => ?_)
        (fun y hy => by rw [hone]; exact getLsbD_one_shiftLeft hy) (by omega)
      have hyin := (getLsbD_one_shiftLeft (lt_of_getLsbD hy)).symm.trans hy
      obtain ⟨hlo, hhi⟩ := inRange_iff.mp hyin
      rwa [show y = x by omega]
    next =>
      split
      next hle =>
        have hsixty : bmapRadix = 64 := rfl
        have hmask : ∀ x < 64,
            (allOnes 64 >>> (bmapRadix - count)).getLsbD x = inRange 0 count x := by
          intro x _
          rw [hsixty, getLsbD_allOnes_ushiftRight (hsixty ▸ hle)]
          exact decide_eq_decide.mpr (by omega)
        have hrun := runLoop_spec (mem scan).bmuBitmap (bmapRadix - count + 1) hmask
        dsimp only
        cases heq : runLoop (mem scan).bmuBitmap (bmapRadix - count + 1)
          (allOnes 64 >>> (bmapRadix - count)) 0 with
        | some found =>
          rw [heq] at hrun
          exact taken hs hg hcount hrun.2.1 hrun.2.2 (by have := hrun.1; omega)
        | none =>
          rw [heq] at hrun
          refine hlower fun hleaf => ?_
          obtain ⟨s, hsn, hall⟩ := leafRun_leaf hs hleaf hcount
          have hin : cnt ≤ bmapRadix := hs.2.2
          obtain ⟨x, hlo, hhi, hfalse⟩ := hrun s (Nat.zero_le _) (by omega) (by omega)
          have hbit := hall (x - s) (by omega)
          rw [Nat.add_sub_cancel' hlo, isFree, hfalse] at hbit
          cases hbit
      next hgt => exact hlower fun hleaf => hgt hleaf.le_bmapRadix

end Alloc

end Mbsd.Kern.SubrBlist
