import Mbsd.Net.PfLb.Model

/-! The addresses as numbers in host byte order, and what the operations of the pools do to the
numbers. -/

namespace Mbsd.Net.PfLb

open Lib.Prefix Pf

variable {o : ByteOrder} {af : PoolAf} {i : Nat} {x y : BitVec 32}

section Ntohl

def source : ByteOrder → Nat → Nat
  | .little, i => 8 * (3 - i / 8) + i % 8
  | .big, i => i

theorem source_lt (hi : i < 32) : source o i < 32 := by
  cases o with
  | little => rw [source]; omega
  | big => exact hi

theorem source_source (hi : i < 32) : source o (source o i) = i := by
  cases o with
  | little => rw [source, source]; omega
  | big => rfl

theorem getLsbD_ntohl (x : BitVec 32) (hi : i < 32) :
    (ntohl o x).getLsbD i = x.getLsbD (source o i) := by
  cases o with
  | big => rfl
  | little =>
    rw [ntohl, source, BitVec.getLsbD_append, BitVec.getLsbD_append, BitVec.getLsbD_append]
    simp only [BitVec.getLsbD_setWidth, BitVec.getLsbD_ushiftRight]
    split
    · split
      · rw [decide_eq_true (by omega : i < 8), Bool.true_and]
        congr 1
        omega
      · rw [decide_eq_true (by omega : i - 8 < 8), Bool.true_and]
        congr 1
        omega
    · split
      · rw [decide_eq_true (by omega : i - 16 < 8), Bool.true_and]
        congr 1
        omega
      · rw [decide_eq_true (by omega : i - 16 - 8 < 8), Bool.true_and]
        congr 1
        omega

theorem ntohl_ntohl (x : BitVec 32) : ntohl o (ntohl o x) = x := by
  refine BitVec.eq_of_getLsbD_eq fun i hi => ?_
  rw [getLsbD_ntohl _ hi, getLsbD_ntohl _ (source_lt hi), source_source hi]

theorem ntohl_inj : ntohl o x = ntohl o y ↔ x = y :=
  ⟨fun h => by rw [← ntohl_ntohl (o := o) x, h, ntohl_ntohl], congrArg _⟩

theorem ntohl_and (x y : BitVec 32) : ntohl o (x &&& y) = ntohl o x &&& ntohl o y := by
  refine BitVec.eq_of_getLsbD_eq fun i hi => ?_
  rw [BitVec.getLsbD_and, getLsbD_ntohl _ hi, getLsbD_ntohl _ hi, getLsbD_ntohl _ hi,
    BitVec.getLsbD_and]

theorem ntohl_or (x y : BitVec 32) : ntohl o (x ||| y) = ntohl o x ||| ntohl o y := by
  refine BitVec.eq_of_getLsbD_eq fun i hi => ?_
  rw [BitVec.getLsbD_or, getLsbD_ntohl _ hi, getLsbD_ntohl _ hi, getLsbD_ntohl _ hi,
    BitVec.getLsbD_or]

theorem ntohl_xor (x y : BitVec 32) : ntohl o (x ^^^ y) = ntohl o x ^^^ ntohl o y := by
  refine BitVec.eq_of_getLsbD_eq fun i hi => ?_
  rw [BitVec.getLsbD_xor, getLsbD_ntohl _ hi, getLsbD_ntohl _ hi, getLsbD_ntohl _ hi,
    BitVec.getLsbD_xor]

theorem ntohl_zero : ntohl o 0 = 0 := by cases o <;> decide

theorem ntohl_ones : ntohl o 0xffffffff = 0xffffffff := by cases o <;> decide

theorem ntohl_eq_zero_iff : ntohl o x = 0 ↔ x = 0 := by
  rw [← ntohl_inj (o := o) (x := x), ntohl_zero]

theorem ntohl_eq_ones_iff : ntohl o x = 0xffffffff ↔ x = 0xffffffff := by
  rw [← ntohl_inj (o := o) (x := x), ntohl_ones]

theorem ntohl_poolmaskWord (r m s : BitVec 32) :
    ntohl o (poolmaskWord r m s) = poolmaskWord (ntohl o r) (ntohl o m) (ntohl o s) := by
  rw [poolmaskWord, ntohl_or, ntohl_and, ntohl_and, ntohl_xor, ntohl_ones, poolmaskWord]

theorem ntohl_incWord (x : BitVec 32) : ntohl o (incWord o x) = ntohl o x + 1 := ntohl_ntohl _

end Ntohl

section Join

def join (x0 x1 x2 x3 : BitVec 32) : BitVec 128 := (x0 ++ x1) ++ (x2 ++ x3)

theorem append_inj {v w : Nat} {x x' : BitVec v} {y y' : BitVec w} :
    x ++ y = x' ++ y' ↔ x = x' ∧ y = y' := by
  refine ⟨fun h => ⟨?_, ?_⟩, fun ⟨hx, hy⟩ => hx ▸ hy ▸ rfl⟩
  · rw [← BitVec.extractLsb'_append_eq_left (a := x) (b := y), h, BitVec.extractLsb'_append_eq_left]
  · rw [← BitVec.extractLsb'_append_eq_right (a := x) (b := y), h,
      BitVec.extractLsb'_append_eq_right]

variable {x0 x1 x2 x3 y0 y1 y2 y3 : BitVec 32}

theorem join_inj : join x0 x1 x2 x3 = join y0 y1 y2 y3 ↔ x0 = y0 ∧ x1 = y1 ∧ x2 = y2 ∧ x3 = y3 := by
  rw [join, join, append_inj, append_inj, append_inj, and_assoc]

theorem join_and : join x0 x1 x2 x3 &&& join y0 y1 y2 y3 =
      join (x0 &&& y0) (x1 &&& y1) (x2 &&& y2) (x3 &&& y3) := by
  rw [join, join, join, BitVec.and_append, BitVec.and_append, BitVec.and_append]

theorem join_or : join x0 x1 x2 x3 ||| join y0 y1 y2 y3 =
      join (x0 ||| y0) (x1 ||| y1) (x2 ||| y2) (x3 ||| y3) := by
  rw [join, join, join, BitVec.or_append, BitVec.or_append, BitVec.or_append]

theorem join_xor : join x0 x1 x2 x3 ^^^ join y0 y1 y2 y3 =
      join (x0 ^^^ y0) (x1 ^^^ y1) (x2 ^^^ y2) (x3 ^^^ y3) := by
  rw [join, join, join, BitVec.xor_append, BitVec.xor_append, BitVec.xor_append]

theorem join_zero : join 0 0 0 0 = 0 := by decide

theorem join_ones : join 0xffffffff 0xffffffff 0xffffffff 0xffffffff = BitVec.allOnes 128 := by
  decide

theorem toNat_join : (join x0 x1 x2 x3).toNat =
      2 ^ 96 * x0.toNat + 2 ^ 64 * x1.toNat + 2 ^ 32 * x2.toNat + x3.toNat := by
  have happend {v w : Nat} (x : BitVec v) (y : BitVec w) :
      (x ++ y).toNat = 2 ^ w * x.toNat + y.toNat := by
    rw [BitVec.toNat_append, ← Nat.shiftLeft_add_eq_or_of_lt y.isLt, Nat.shiftLeft_eq, Nat.mul_comm]
  rw [join, happend, happend, happend]
  omega

theorem join_add_one : join x0 x1 x2 x3 + 1 = if x3 = 0xffffffff then
        if x2 = 0xffffffff then
          if x1 = 0xffffffff then join (x0 + 1) 0 0 0 else join x0 (x1 + 1) 0 0
        else join x0 x1 (x2 + 1) 0 else join x0 x1 x2 (x3 + 1) := by
  have hones (x : BitVec 32) : x = 0xffffffff ↔ x.toNat = 2 ^ 32 - 1 := by
    rw [← BitVec.toNat_inj]
    rfl
  have hadd (x : BitVec 32) : (x + 1).toNat = (x.toNat + 1) % 2 ^ 32 := BitVec.toNat_add x 1
  refine BitVec.eq_of_toNat_eq ?_
  rw [BitVec.toNat_add, toNat_join]
  simp only [hones]
  split
  next e3 =>
    split
    next e2 =>
      split
      next e1 => rw [toNat_join, hadd, e1, e2, e3]; simp; omega
      next e1 => rw [toNat_join, hadd, e2, e3]; simp; omega
    next e2 => rw [toNat_join, hadd, e3]; simp; omega
  next e3 => rw [toNat_join, hadd]; simp; omega

end Join

def host (o : ByteOrder) : (af : PoolAf) → PfAddr → BitVec af.bits
  | .inet, a => ntohl o a.addr0
  | .inet6, a => join (ntohl o a.addr0) (ntohl o a.addr1) (ntohl o a.addr2) (ntohl o a.addr3)

section Host

variable {a b m r x naddr : PfAddr} {k : Nat}

theorem pfAzero_iff : pfAzero a af.af = true ↔ host o af a = 0 := by
  cases af with
  | inet => exact decide_eq_true_iff.trans ntohl_eq_zero_iff.symm
  | inet6 =>
    show _ ↔ join _ _ _ _ = (0 : BitVec 128)
    rw [← join_zero, join_inj, ntohl_eq_zero_iff, ntohl_eq_zero_iff, ntohl_eq_zero_iff,
      ntohl_eq_zero_iff]
    simp [pfAzero, PfAddr.words, PoolAf.af]

theorem pfAeq_iff : pfAeq a b af = true ↔ host o af a = host o af b := by
  cases af with
  | inet => exact decide_eq_true_iff.trans ntohl_inj.symm
  | inet6 =>
    show _ ↔ (join _ _ _ _ : BitVec 128) = join _ _ _ _
    rw [join_inj, ntohl_inj, ntohl_inj, ntohl_inj, ntohl_inj]
    simp only [pfAeq, Bool.and_eq_true, decide_eq_true_iff]
    tauto

theorem host_pfAddrcpy : host o af (pfAddrcpy naddr a af) = host o af a := by
  cases af <;> rfl

theorem host_pfAddrInc : host o af (pfAddrInc o a af) = host o af a + 1 := by
  cases af with
  | inet => exact ntohl_incWord a.addr0
  | inet6 =>
    show (host o .inet6 (pfAddrInc o a .inet6) : BitVec 128) = join _ _ _ _ + (1 : BitVec 128)
    rw [join_add_one, pfAddrInc]
    simp only [ntohl_eq_ones_iff]
    split
    next =>
      split
      next =>
        split
        next => rw [host, ntohl_incWord, ntohl_zero]
        next => rw [host, ntohl_incWord, ntohl_zero]
      next => rw [host, ntohl_incWord, ntohl_zero]
    next => rw [host, ntohl_incWord]

section

variable (hm : host o af m = mask af.bits k)

include hm

theorem host_pfPoolmask :
    host o af (pfPoolmask naddr r m x af) = place k (host o af r) (host o af x) := by
  rw [place, ← hm]
  cases af with
  | inet => exact ntohl_poolmaskWord _ _ _
  | inet6 =>
    show join (ntohl o (poolmaskWord r.addr0 m.addr0 x.addr0))
      (ntohl o (poolmaskWord r.addr1 m.addr1 x.addr1))
      (ntohl o (poolmaskWord r.addr2 m.addr2 x.addr2))
      (ntohl o (poolmaskWord r.addr3 m.addr3 x.addr3)) =
      (join _ _ _ _ &&& join _ _ _ _) ||| ((join _ _ _ _ ^^^ BitVec.allOnes 128) &&& join _ _ _ _)
    rw [← join_ones, join_and, join_xor, join_and, join_or]
    simp only [ntohl_poolmaskWord]
    rfl

theorem pfMatchAddr_iff : pfMatchAddr a m b af.af = true ↔ Same k (host o af a) (host o af b) := by
  rw [← and_mask_eq_iff, ← hm]
  cases af with
  | inet =>
    show decide _ = true ↔ ntohl o _ &&& ntohl o _ = ntohl o _ &&& ntohl o _
    rw [← ntohl_and, ← ntohl_and, ntohl_inj, decide_eq_true_iff]
  | inet6 =>
    show decide _ = true ↔ join _ _ _ _ &&& join _ _ _ _ = join _ _ _ _ &&& join _ _ _ _
    rw [join_and, join_and, join_inj]
    simp only [← ntohl_and, ntohl_inj, decide_eq_true_iff]
    simp [PfAddr.words]

theorem isHostMask_iff : isHostMask m af = true ↔ k = 0 := by
  rw [← mask_eq_allOnes_iff (w := af.bits) (by cases af <;> decide), ← hm]
  cases af with
  | inet => exact decide_eq_true_iff.trans ntohl_eq_ones_iff.symm
  | inet6 =>
    show _ ↔ join _ _ _ _ = BitVec.allOnes 128
    rw [← join_ones, join_inj, ntohl_eq_ones_iff, ntohl_eq_ones_iff, ntohl_eq_ones_iff,
      ntohl_eq_ones_iff]
    simp [isHostMask, PfAddr.words]

end

end Host

section Random

variable {k : Nat} {m x : PfAddr} {rand : Random} {r : BitVec 32}

theorem ntohl_pfRandAddr (hm : ntohl o y = mask 32 k) (hk : k < 32) :
    (ntohl o (pfRandAddr o r y)).toNat = r.toNat % 2 ^ k := by
  have hpow : 2 ^ k < 2 ^ 32 := Nat.pow_lt_pow_right (by decide) hk
  have hupper : (~~~mask 32 k + 1).toNat = 2 ^ k := by
    rw [toNat_not_mask_add_one hk.le, Nat.mod_eq_of_lt hpow]
  rw [pfRandAddr, ntohl_ntohl, hm, arc4randomUniform]
  split
  next h =>
    rw [BitVec.lt_def, hupper] at h
    have hone : 2 ^ k = 1 := Nat.le_antisymm (Nat.le_of_lt_succ h) (Nat.two_pow_pos k)
    rw [hone, Nat.mod_one]
    rfl
  next h => rw [BitVec.toNat_umod, hupper]

theorem pfRandAddr_zero : pfRandAddr o r 0 = 0 := by
  rw [pfRandAddr, ntohl_zero]
  exact ntohl_zero

theorem getLsbD_join_last (x0 x1 x2 x3 : BitVec 32) (hi : i < 32) :
    (join x0 x1 x2 x3).getLsbD i = x3.getLsbD i := by
  rw [join, BitVec.getLsbD_append, if_pos (by omega), BitVec.getLsbD_append, if_pos hi]

theorem getLsbD_join_third (x0 x1 x2 x3 : BitVec 32) (hi : i < 32) :
    (join x0 x1 x2 x3).getLsbD (32 + i) = x2.getLsbD i := by
  rw [join, BitVec.getLsbD_append, if_pos (by omega), BitVec.getLsbD_append, if_neg (by omega),
    Nat.add_sub_cancel_left]

theorem ntohl_addr3 (hm : host o .inet6 m = mask 128 k) : ntohl o m.addr3 = mask 32 k := by
  refine BitVec.eq_of_getLsbD_eq fun i hi => ?_
  rw [← getLsbD_join_last (ntohl o m.addr0) (ntohl o m.addr1) (ntohl o m.addr2) _ hi,
    show join _ _ _ _ = mask 128 k from hm, getLsbD_mask, getLsbD_mask,
    decide_eq_true hi, decide_eq_true (by omega : i < 128)]

theorem ntohl_addr2 (hm : host o .inet6 m = mask 128 k) (hk : k ≤ 32) : m.addr2 = 0xffffffff := by
  rw [← ntohl_eq_ones_iff (o := o)]
  refine BitVec.eq_of_getLsbD_eq fun i hi => ?_
  rw [← getLsbD_join_third (ntohl o m.addr0) (ntohl o m.addr1) _ (ntohl o m.addr3) hi,
    show join _ _ _ _ = mask 128 k from hm, getLsbD_mask,
    show (0xffffffff : BitVec 32) = BitVec.allOnes 32 by decide, BitVec.getLsbD_allOnes,
    decide_eq_true hi, decide_eq_true (by omega : 32 + i < 128),
    decide_eq_true (by omega : k ≤ 32 + i), Bool.and_true]

theorem toNat_join_mod {x0 x1 x2 x3 : BitVec 32} :
    (join x0 x1 x2 x3).toNat % 2 ^ 32 = x3.toNat := by
  rw [toNat_join]
  omega

section

local instance words_ne_zero : NeZero 4 := ⟨Nat.succ_ne_zero 3⟩

def lastRandom : PoolAf → Random → BitVec 32
  | .inet, rand => rand 0
  | .inet6, rand => rand 3

end

theorem host_randCounter (hm : host o af m = mask af.bits k) (hk : k < 32) :
    (host o af (randCounter o rand m x af)).toNat % 2 ^ k = (lastRandom af rand).toNat % 2 ^ k := by
  cases af with
  | inet =>
    show (ntohl o (pfRandAddr o (rand 0) m.addr0)).toNat % 2 ^ k = _
    rw [ntohl_pfRandAddr hm hk, Nat.mod_mod, lastRandom]
  | inet6 =>
    have h3 := ntohl_addr3 hm
    have h2 := ntohl_addr2 hm hk.le
    rw [randCounter]
    split
    next hne =>
      rw [if_neg (not_not_intro h2)]
      show (join _ _ _ (ntohl o (pfRandAddr o (rand 3) m.addr3))).toNat % 2 ^ k = _
      rw [← Nat.mod_mod_of_dvd _ (Nat.pow_dvd_pow 2 hk.le), toNat_join_mod,
        ntohl_pfRandAddr h3 hk, Nat.mod_mod, lastRandom]
    next hne =>
      have hk0 : k = 0 := by
        rw [← mask_eq_allOnes_iff (w := 32) (by decide), ← h3, not_not.mp hne]
        exact ntohl_ones
      rw [hk0, Nat.pow_zero, Nat.mod_one, Nat.mod_one]

theorem host_randCounter_large (hm : host o af m = mask af.bits k) (hk : 32 ≤ k) :
    (host o af (randCounter o rand m x af)).toNat % 2 ^ 32 = 0 := by
  have hlast : mask 32 k = 0 := BitVec.shiftLeft_eq_zero hk
  cases af with
  | inet =>
    have hzero : m.addr0 = 0 := ntohl_eq_zero_iff.mp (hm.trans (BitVec.shiftLeft_eq_zero hk))
    show (ntohl o (pfRandAddr o (rand 0) m.addr0)).toNat % 2 ^ 32 = 0
    rw [hzero, pfRandAddr_zero, ntohl_zero]
    rfl
  | inet6 =>
    have hzero : m.addr3 = 0 := ntohl_eq_zero_iff.mp ((ntohl_addr3 hm).trans hlast)
    have haddr3 : (randCounter o rand m x .inet6).addr3 = 0 := by
      rw [randCounter, hzero, if_pos (by decide), pfRandAddr_zero]
      split
      · split
        · split
          · rfl
          · rfl
        · rfl
      · rfl
    show (join _ _ _ (ntohl o (randCounter o rand m x .inet6).addr3)).toNat % 2 ^ 32 = 0
    rw [toNat_join_mod, haddr3, ntohl_zero]
    rfl

end Random

end Mbsd.Net.PfLb
