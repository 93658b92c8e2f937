import Mathlib.Data.ZMod.Basic
import Mathlib.Tactic.LinearCombination
import Mbsd.Net.Pf.Cksum

/-! The patches keep the ones'-complement sum of the covered words, a sum in `ZMod 65535`. -/

namespace Mbsd.Net.Pf

open Lib.AltSum List Option BitVec Nat ByteOrder

variable {x v : BitVec 32} {f width words : Nat} {pd' : PfPdesc} {bs : List Byte}
  {r : Nat × PfPdesc}

abbrev OnesSum := ZMod 65535

def ByteOrder.weight : ByteOrder → Bool → Nat
  | .little, true => 1
  | .little, false => 256
  | .big, true => 256
  | .big, false => 1

def ByteOrder.factor (o : ByteOrder) (hi : Bool) : OnesSum := o.weight hi

def val {n : Nat} (w : BitVec n) : OnesSum := w.toNat

section Words

variable (o : ByteOrder)

theorem toNat_append {n k : Nat} (a : BitVec n) (b : BitVec k) :
    (a ++ b).toNat = a.toNat * 2 ^ k + b.toNat := by
  rw [BitVec.toNat_append, ← Nat.shiftLeft_add_eq_or_of_lt b.isLt, Nat.shiftLeft_eq]

theorem toNat_load16 (b0 b1 : Byte) :
    (o.load16 b0 b1).toNat = o.weight true * b0.toNat + o.weight false * b1.toNat := by
  cases o <;> simp only [load16, toNat_append, weight] <;> omega

@[simp] theorem val_load16 (b0 b1 : Byte) :
    val (o.load16 b0 b1) = o.factor true * val b0 + o.factor false * val b1 := by
  rw [val, toNat_load16]
  push_cast
  rfl

theorem wordSum_eq (bs : List Byte) :
    (o.wordSum bs : OnesSum) = altSum o.factor true (bs.map val) := by
  induction bs using wordSum.induct with
  | case1 => simp [wordSum, altSum]
  | case2 b =>
    have h := val_load16 o b 0#8
    simp only [wordSum, map_cons, map_nil, altSum]
    simpa [val] using h
  | case3 b0 b1 bs ih =>
    have h := val_load16 o b0 b1
    rw [val] at h
    simp only [wordSum, map_cons, altSum, cast_add, ih, h, Bool.not_true, Bool.not_false]
    ring

theorem load16_bytes16 (w : BitVec 16) :
    o.load16 ((o.bytes16 w).getD 0 0#8) ((o.bytes16 w).getD 1 0#8) = w := by
  apply eq_of_toNat_eq
  rw [toNat_load16]
  cases o <;>
    simp only [bytes16, weight, getD_cons_zero, getD_cons_succ,
      toNat_setWidth, toNat_ushiftRight, shiftRight_eq_div_pow] <;>
    omega

@[simp] theorem length_bytes16 (w : BitVec 16) : (o.bytes16 w).length = 2 := by
  cases o <;> rfl

theorem bytes16_eq (w : BitVec 16) :
    o.bytes16 w = [(o.bytes16 w).getD 0 0#8, (o.bytes16 w).getD 1 0#8] := by
  cases o <;> rfl

theorem bytes16_load16 (b0 b1 : Byte) : o.bytes16 (o.load16 b0 b1) = [b0, b1] := by
  cases o <;> simp only [bytes16, load16, cons.injEq, and_true] <;> constructor <;>
    · apply eq_of_toNat_eq
      simp only [toNat_setWidth, toNat_ushiftRight, toNat_append, shiftRight_eq_div_pow]
      omega

theorem altSum_bytes16 (w : BitVec 16) : altSum o.factor true ((o.bytes16 w).map val) = val w := by
  have h := val_load16 o ((o.bytes16 w).getD 0 0#8) ((o.bytes16 w).getD 1 0#8)
  rw [load16_bytes16] at h
  rw [h, bytes16_eq]
  simp [altSum]

theorem halves_append (a b : BitVec 16) : ((a ++ b : BitVec 32) / 65536#32).setWidth 16 = a ∧
      ((a ++ b : BitVec 32) % 65536#32).setWidth 16 = b := by
  constructor <;>
    · apply eq_of_toNat_eq
      simp only [toNat_setWidth, toNat_udiv, toNat_umod, toNat_append,
        show (65536#32).toNat = 65536 from rfl]
      omega

theorem halves_eq (v : BitVec 32) :
    ((v >>> 16).setWidth 16 : BitVec 16) = (v / 65536#32).setWidth 16 ∧
      (v.setWidth 16 : BitVec 16) = (v % 65536#32).setWidth 16 := by
  constructor
  · apply eq_of_toNat_eq
    rw [toNat_setWidth, toNat_setWidth, toNat_udiv, toNat_ushiftRight, shiftRight_eq_div_pow]
    rfl
  · apply eq_of_toNat_eq
    rw [toNat_setWidth, toNat_setWidth, toNat_umod, show (65536#32).toNat = 65536 from rfl]
    omega

@[simp] theorem length_bytes32 (v : BitVec 32) : (o.bytes32 v).length = 4 := by
  cases o <;> rfl

theorem bytes32_eq (v : BitVec 32) : [(o.bytes32 v).getD 0 0#8] ++ [(o.bytes32 v).getD 1 0#8] ++
    [(o.bytes32 v).getD 2 0#8] ++ [(o.bytes32 v).getD 3 0#8] = o.bytes32 v := by
  cases o <;> rfl

theorem altSum_bytes32 (v : BitVec 32) : altSum o.factor true ((o.bytes32 v).map val) =
      val ((v / 65536#32).setWidth 16 : BitVec 16) +
        val ((v % 65536#32).setWidth 16 : BitVec 16) := by
  rw [← (halves_eq v).1, ← (halves_eq v).2]
  cases o
  · rw [bytes32, map_append, altSum_append, length_map, length_bytes16, altSum_bytes16, add_comm]
    exact congrArg (· + _) (altSum_bytes16 .little _)
  · rw [bytes32, map_append, altSum_append, length_map, length_bytes16, altSum_bytes16]
    exact congrArg (_ + ·) (altSum_bytes16 .big _)

theorem altSum_load32 (b0 b1 b2 b3 : Byte) : altSum o.factor true ([b0, b1, b2, b3].map val) =
      val ((o.load32 b0 b1 b2 b3 / 65536#32).setWidth 16 : BitVec 16) +
        val ((o.load32 b0 b1 b2 b3 % 65536#32).setWidth 16 : BitVec 16) := by
  have hlo := val_load16 o b0 b1
  have hhi := val_load16 o b2 b3
  cases o
  · have h := halves_append (b3 ++ b2) (b1 ++ b0)
    simp only [load16] at hlo hhi
    simp only [load32, h.1, h.2, map_cons, map_nil, altSum, hlo, hhi, Bool.not_true, Bool.not_false]
    ring
  · have h := halves_append (b0 ++ b1) (b2 ++ b3)
    simp only [load16] at hlo hhi
    simp only [load32, h.1, h.2, map_cons, map_nil, altSum, hlo, hhi, Bool.not_true, Bool.not_false]
    ring

end Words

section Fixup

theorem val_udpTail {cksum : BitVec 16} {proto : BitVec 8} (hx : x.toNat ≤ 65535)
    (h : ¬(proto = ipprotoUdp ∧ cksum = 0#16)) :
    val (if proto = ipprotoUdp ∧ cksum = 0#16 then cksum
      else if proto = ipprotoUdp ∧ x = 0#32 then 0xffff#16 else x.setWidth 16 : BitVec 16) =
        (x.toNat : OnesSum) := by
  rw [if_neg h]
  split
  next hz =>
    rw [hz.2]
    rfl
  next => rw [val, toNat_setWidth, mod_eq_of_lt (by omega)]

theorem udpTail_eq_zero {cksum : BitVec 16} {proto : BitVec 8}
    (hx : x.toNat ≤ 65535) (h : proto = ipprotoUdp) :
    (if proto = ipprotoUdp ∧ cksum = 0#16 then cksum
      else if proto = ipprotoUdp ∧ x = 0#32 then 0xffff#16 else x.setWidth 16 : BitVec 16) = 0#16 ↔
        cksum = 0#16 := by
  by_cases hc : cksum = 0#16
  · rw [if_pos ⟨h, hc⟩]
  · rw [if_neg (fun h => hc h.2), iff_false_right hc]
    by_cases hz : x = 0#32
    · rw [if_pos ⟨h, hz⟩]
      decide
    · rw [if_neg (fun h => hz h.2)]
      intro hw
      have := congrArg BitVec.toNat hw
      rw [toNat_setWidth, mod_eq_of_lt (by omega)] at this
      exact hz (eq_of_toNat_eq this)

variable (cksum was now : BitVec 16) (proto : BitVec 8)

def pfCksumFixupX : BitVec 32 :=
  let x : BitVec 32 := cksum.setWidth 32 + was.setWidth 32 - now.setWidth 32
  (x + (x >>> 16)) &&& 0xffff#32

theorem toNat_pfCksumFixupX : (pfCksumFixupX cksum was now).toNat ≤ 65535 ∧
    ((pfCksumFixupX cksum was now).toNat + now.toNat) % 65535 =
      (cksum.toNat + was.toNat) % 65535 := by
  have hx : (cksum.setWidth 32 + was.setWidth 32 - now.setWidth 32 : BitVec 32).toNat =
      (4294967296 - now.toNat + (cksum.toNat + was.toNat)) % 4294967296 := by
    simp only [toNat_sub, toNat_add, toNat_setWidth]
    omega
  have hmask : (pfCksumFixupX cksum was now).toNat =
      ((4294967296 - now.toNat + (cksum.toNat + was.toNat)) % 4294967296 +
        (4294967296 - now.toNat + (cksum.toNat + was.toNat)) % 4294967296 / 65536) %
        4294967296 % 65536 := by
    rw [pfCksumFixupX, toNat_and, show (0xffff#32).toNat = 2 ^ 16 - 1 from rfl,
      and_two_pow_sub_one_eq_mod, toNat_add, toNat_ushiftRight, shiftRight_eq_div_pow, hx]
  rw [hmask]
  rcases Nat.lt_or_ge (cksum.toNat + was.toNat) now.toNat with hlt | hge
  · rw [show (4294967296 - now.toNat + (cksum.toNat + was.toNat)) % 4294967296 =
      4294967296 + (cksum.toNat + was.toNat) - now.toNat by omega]
    omega
  · obtain ⟨d, hd⟩ := Nat.exists_eq_add_of_le hge
    have hdiv : d / 65536 = 0 ∨ d / 65536 = 1 := by omega
    rw [show (4294967296 - now.toNat + (cksum.toNat + was.toNat)) % 4294967296 = d by omega, hd]
    clear hx hmask
    rcases hdiv with h | h <;> rw [h] <;> omega

theorem val_pfCksumFixup (h : ¬(proto = ipprotoUdp ∧ cksum = 0#16)) :
    val (pfCksumFixup cksum was now proto) = val cksum + val was - val now := by
  obtain ⟨hle, hmod⟩ := toNat_pfCksumFixupX cksum was now
  have hval : val (pfCksumFixup cksum was now proto) =
      ((pfCksumFixupX cksum was now).toNat : OnesSum) := val_udpTail hle h
  have hsum := (ZMod.natCast_eq_natCast_iff _ _ 65535).mpr hmod
  push_cast at hsum
  rw [hval, val, val, val, ← hsum, add_sub_cancel_right]

theorem pfCksumFixup_eq_zero (h : proto = ipprotoUdp) :
    pfCksumFixup cksum was now proto = 0#16 ↔ cksum = 0#16 :=
  udpTail_eq_zero (toNat_pfCksumFixupX cksum was now).1 h

variable (old new : Nat → BitVec 16) {words : Nat}

def pfCksumSumA (words : Nat) : BitVec 32 := (List.range words).foldl
  (fun x i => x + (old i).setWidth 32 + (~~~new i).setWidth 32) (cksum.setWidth 32)

theorem pfCksumSumA_spec (hwords : words ≤ 8) :
    (pfCksumSumA cksum old new words).toNat ≤ 65535 * (2 * words + 1) ∧
    ((pfCksumSumA cksum old new words).toNat : OnesSum) =
      val cksum + ((range words).map fun i => val (old i) - val (new i)).sum := by
  induction words with
  | zero =>
    simp only [pfCksumSumA, range_zero, foldl_nil, toNat_setWidth, map_nil, sum_nil, add_zero, val]
    rw [mod_eq_of_lt (by omega)]
    exact ⟨by omega, rfl⟩
  | succ words ih =>
    obtain ⟨hle, hsum⟩ := ih (by omega)
    have hstep : (pfCksumSumA cksum old new (words + 1)).toNat =
        (pfCksumSumA cksum old new words).toNat + (old words).toNat +
          (65535 - (new words).toNat) := by
      rw [pfCksumSumA, range_succ, foldl_append, ← pfCksumSumA]
      simp only [foldl_cons, foldl_nil, toNat_add, toNat_setWidth, toNat_not]
      omega
    refine ⟨by omega, ?_⟩
    have hneg : ((65535 - (new words).toNat : Nat) : OnesSum) = -val (new words) := by
      rw [cast_sub (by omega), ZMod.natCast_self, zero_sub, val]
    rw [hstep, cast_add, cast_add, hsum, hneg, range_succ, map_append,
      List.sum_append, List.map_singleton, List.sum_singleton, ← val]
    ring

def pfReduce (x : BitVec 32) : BitVec 32 := (x &&& 0xffff#32) + (x >>> 16)

theorem toNat_pfReduce (x : BitVec 32) :
    (pfReduce x).toNat = x.toNat % 65536 + x.toNat / 65536 := by
  rw [pfReduce, toNat_add, toNat_and,
    show (0xffff#32).toNat = 2 ^ 16 - 1 from rfl, and_two_pow_sub_one_eq_mod,
    toNat_ushiftRight, shiftRight_eq_div_pow]
  omega

theorem toNat_pfReduce_twice (hx : x.toNat ≤ 65535 * 17) : (pfReduce (pfReduce x)).toNat ≤ 65535 ∧
    (pfReduce (pfReduce x)).toNat % 65535 = x.toNat % 65535 := by
  rw [toNat_pfReduce, toNat_pfReduce]
  omega

theorem val_pfCksumFixupA (hwords : words ≤ 8) (h : ¬(proto = ipprotoUdp ∧ cksum = 0#16)) :
    val (pfCksumFixupA cksum old new words proto) =
      val cksum + ((range words).map fun i => val (old i) - val (new i)).sum := by
  obtain ⟨hle, hsum⟩ := pfCksumSumA_spec cksum old new hwords
  obtain ⟨hle', hmod⟩ := toNat_pfReduce_twice (x := pfCksumSumA cksum old new words) (by omega)
  have hval : val (pfCksumFixupA cksum old new words proto) =
      ((pfReduce (pfReduce (pfCksumSumA cksum old new words))).toNat : OnesSum) :=
    val_udpTail hle' h
  rw [hval, (ZMod.natCast_eq_natCast_iff _ _ 65535).mpr hmod, hsum]

theorem pfCksumFixupA_eq_zero (hwords : words ≤ 8) (h : proto = ipprotoUdp) :
    pfCksumFixupA cksum old new words proto = 0#16 ↔ cksum = 0#16 := by
  have hle := (pfCksumSumA_spec cksum old new hwords).1
  exact udpTail_eq_zero
    (toNat_pfReduce_twice (x := pfCksumSumA cksum old new words) (by omega)).1 h

end Fixup

namespace PfPdesc

variable (o : ByteOrder) (pd : PfPdesc)

theorem setCksum_setCksum (c c' : BitVec 16) :
    (pd.setCksum o c).setCksum o c' = pd.setCksum o c' := by
  have hcov : overwrite (overwrite pd.covered pd.pcksum (o.bytes16 c)) pd.pcksum (o.bytes16 c') =
      overwrite pd.covered pd.pcksum (o.bytes16 c') :=
    overwrite_overwrite _ (by rw [length_bytes16]; exact pd.inside)
      (by rw [length_bytes16, length_bytes16])
  rw [setCksum, setCksum, setCksum, write, write]
  simp only [write, hcov]

def field (f width : Nat) : List Byte := (pd.covered.drop f).take width

theorem field_eq (h : f + width ≤ pd.covered.length) :
    pd.field f width = (range width).map fun i => pd.byte (f + i) := by
  refine ext_getElem? fun i => ?_
  rw [field, getElem?_take, getElem?_drop, getElem?_map]
  split
  next hi =>
    rw [getElem?_range hi, map_some, byte, getD_eq_getElem?_getD,
      List.getElem?_eq_getElem (by omega), Option.getD_some]
  next hi => rw [List.getElem?_eq_none (by simpa using hi), Option.map_none]

theorem field_two (h : f + 2 ≤ pd.covered.length) : pd.field f 2 = [pd.byte f, pd.byte (f + 1)] :=
  pd.field_eq h

theorem byte_eq_of_field {pd : PfPdesc} {i : Nat}
    (h : pd'.field f width = pd.field f width) (hi : i < width) :
    pd'.byte (f + i) = pd.byte (f + i) := by
  have := congrArg (fun bs => bs[i]?) h
  simp only [field, getElem?_take, if_pos hi, getElem?_drop] at this
  rw [byte, byte, getD_eq_getElem?_getD, getD_eq_getElem?_getD, this]

def Absent : Prop := pd.proto = ipprotoUdp ∧ pd.cksum o = 0#16

def Valid : Prop := o.wordSum pd.covered % 65535 = 0

theorem altSum_write (f : Nat) (bs : List Byte) (h : f + bs.length ≤ pd.covered.length) :
    altSum o.factor true ((pd.write f bs).covered.map val) +
        altSum o.factor (f % 2 = 0) ((pd.field f bs.length).map val) =
      altSum o.factor true (pd.covered.map val) + altSum o.factor (f % 2 = 0) (bs.map val) := by
  have := altSum_overwrite o.factor (pd.covered.map val) (bs.map val) (i := f)
    (by simpa using h)
  rw [length_map] at this
  rw [write, field, map_overwrite, map_take, map_drop]
  exact this

/-- The field at `f` holds the new bytes, and the rest of the packet but for the checksum is the old
one. -/
structure Stores (f : Nat) (bs : List Byte) (pd pd' : PfPdesc) : Prop where
  proto : pd'.proto = pd.proto
  pcksum : pd'.pcksum = pd.pcksum
  length : pd'.covered.length = pd.covered.length
  new : pd'.field f bs.length = bs
  rest : ∀ i, i < f ∨ f + bs.length ≤ i → i < pd.pcksum ∨ pd.pcksum + 2 ≤ i →
    pd'.covered[i]? = pd.covered[i]?

structure Patched (f : Nat) (bs : List Byte) (pd pd' : PfPdesc) : Prop extends
    Stores f bs pd pd' where
  zero : pd.proto = ipprotoUdp → (pd'.cksum o = 0#16 ↔ pd.cksum o = 0#16)
  sum : ¬pd.Absent o → (o.wordSum pd'.covered : OnesSum) = o.wordSum pd.covered

namespace Patched

variable {o} {pd pd' pd'' : PfPdesc} {cs : List Byte}

theorem refl (h : pd.field f bs.length = bs) : Patched o f bs pd pd :=
  ⟨⟨rfl, rfl, rfl, h, fun _ _ _ => rfl⟩, fun _ => Iff.rfl, fun _ => rfl⟩

theorem absent_iff (h : Patched o f bs pd pd') : pd'.Absent o ↔ pd.Absent o := by
  rw [Absent, Absent, h.proto]
  exact and_congr_right fun hudp => h.zero hudp

theorem trans (h : Patched o f bs pd pd') (h' : Patched o (f + bs.length) cs pd' pd'')
    (hdis : pd.pcksum + 2 ≤ f ∨ f + bs.length ≤ pd.pcksum) :
    Patched o f (bs ++ cs) pd pd'' where
  proto := h'.proto.trans h.proto
  pcksum := h'.pcksum.trans h.pcksum
  length := h'.length.trans h.length
  new := by
    have hkept : pd''.field f bs.length = pd'.field f bs.length := by
      refine ext_getElem? fun i => ?_
      rw [field, field, getElem?_take, getElem?_take, getElem?_drop, getElem?_drop]
      split
      next hi => exact h'.rest _ (by omega) (by rw [h.pcksum]; omega)
      next => rfl
    have hnew := h'.new
    rw [field, ← drop_drop] at hnew
    rw [length_append, field, take_add, hnew, ← field, hkept, h.new]
  rest i hi hck := by
    rw [length_append] at hi
    rw [h'.rest i (by omega) (by rwa [h.pcksum]), h.rest i (by omega) hck]
  zero hudp := (h'.zero (h.proto.trans hudp)).trans (h.zero hudp)
  sum habs := (h'.sum (mt h.absent_iff.mp habs)).trans (h.sum habs)

theorem valid (h : Patched o f bs pd pd') (habs : ¬pd.Absent o) (hvalid : pd.Valid o) : pd'.Valid o := by
  have hsum := (ZMod.natCast_eq_natCast_iff _ _ _).mp (h.sum habs)
  exact Eq.trans hsum hvalid

end Patched

theorem cksum_setCksum (c : BitVec 16) : (pd.setCksum o c).cksum o = c := by
  have hin := pd.inside
  have hfield : (pd.setCksum o c).field pd.pcksum 2 = o.bytes16 c := by
    have := take_drop_overwrite pd.covered (o.bytes16 c) (i := pd.pcksum)
      (by rw [length_bytes16]; exact hin)
    rw [length_bytes16] at this
    exact this
  rw [field_two _ (by simpa [setCksum, write] using hin)] at hfield
  have hload := load16_bytes16 o c
  rw [← hfield] at hload
  exact hload

theorem cksum_write (hdis : pd.pcksum + 2 ≤ f ∨ f + bs.length ≤ pd.pcksum) :
    (pd.write f bs).cksum o = pd.cksum o := by
  have hfield : (pd.write f bs).field pd.pcksum 2 = pd.field pd.pcksum 2 :=
    take_drop_overwrite_of_disjoint hdis
  rw [cksum, cksum, word, word]
  exact congrArg₂ o.load16 (byte_eq_of_field (i := 0) hfield (by decide))
    (byte_eq_of_field (i := 1) hfield (by decide))

theorem patched_write {c : BitVec 16}
    (hin : f + bs.length ≤ pd.covered.length) (hdis : pd.pcksum + 2 ≤ f ∨ f + bs.length ≤ pd.pcksum)
    (hzero : pd.proto = ipprotoUdp → (c = 0#16 ↔ pd.cksum o = 0#16))
    (hsum : ¬pd.Absent o → val c + altSum o.factor (f % 2 = 0) (bs.map val) = val (pd.cksum o) +
        altSum o.factor (f % 2 = 0) ((pd.field f bs.length).map val)) :
    Patched o f bs pd ((pd.setCksum o c).write f bs) := by
  have hc : ((pd.setCksum o c).write f bs).cksum o = c :=
    (cksum_write o (pd.setCksum o c) hdis).trans (cksum_setCksum o pd c)
  refine ⟨⟨rfl, rfl, by simp [write, setCksum],
    take_drop_overwrite _ _ (by simpa [write, setCksum] using hin), fun i hi hck => ?_⟩,
    fun hudp => by rw [hc]; exact hzero hudp, fun habs => ?_⟩
  · exact (getElem?_overwrite_of_not hi).trans
      (getElem?_overwrite_of_not (by rwa [length_bytes16]))
  have hck := pd.altSum_write o pd.pcksum (o.bytes16 c)
    (by rw [length_bytes16]; exact pd.inside)
  have hwr := (pd.setCksum o c).altSum_write o f bs
    (by simpa [setCksum, write] using hin)
  have hold : (pd.setCksum o c).field f bs.length = pd.field f bs.length :=
    take_drop_overwrite_of_disjoint (by rw [length_bytes16]; omega)
  have hcksum : altSum o.factor true ((pd.field pd.pcksum 2).map val) = val (pd.cksum o) := by
    rw [field_two _ pd.inside, cksum, word, val_load16]
    simp [altSum]
  rw [length_bytes16, pd.even, decide_eq_true rfl, altSum_bytes16, hcksum] at hck
  rw [hold] at hwr
  have hsum := hsum habs
  rw [wordSum_eq, wordSum_eq]
  change altSum o.factor true ((pd.setCksum o c).covered.map val) + _ = _ at hck
  linear_combination hwr + hck + hsum

end PfPdesc

open PfPdesc

section Patches

variable {o : ByteOrder} {pd : PfPdesc} {f : Nat}

theorem val_htons_byte (o : ByteOrder) (b : Byte) (hi : Bool) :
    val (o.htons (if hi then b.setWidth 16 <<< 8 else b.setWidth 16)) = o.factor hi * val b := by
  have hnat : (o.htons (if hi then b.setWidth 16 <<< 8 else b.setWidth 16)).toNat =
      o.weight hi * b.toNat := by
    revert b
    cases o <;> cases hi <;> decide +kernel
  rw [val, hnat, factor, val, cast_mul]

theorem patched_fixup_write {was now : BitVec 16}
    (hin : f + bs.length ≤ pd.covered.length) (hdis : pd.pcksum + 2 ≤ f ∨ f + bs.length ≤ pd.pcksum)
    (hwas : altSum o.factor (f % 2 = 0) ((pd.field f bs.length).map val) = val was)
    (hnow : altSum o.factor (f % 2 = 0) (bs.map val) = val now) :
    Patched o f bs pd ((pd.fixup o was now).write f bs) := by
  refine patched_write o pd hin hdis (pfCksumFixup_eq_zero _ was now pd.proto) fun habs => ?_
  rw [val_pfCksumFixup _ was now pd.proto habs, hwas, hnow]
  ring

theorem pfPatch8_patched (v : Byte) (hin : f + 1 ≤ pd.covered.length)
    (hdis : pd.pcksum + 2 ≤ f ∨ f + 1 ≤ pd.pcksum) :
    Patched o f [v] pd (pfPatch8 o pd f v (f % 2 = 0)).2 := by
  have hfield : pd.field f 1 = [pd.byte f] := pd.field_eq hin
  rw [pfPatch8]
  split
  · refine patched_fixup_write hin hdis ?_ ?_
    · rw [length_singleton, hfield, val_htons_byte]
      simp [altSum]
    · rw [val_htons_byte]
      simp [altSum]
  next heq =>
    rw [Decidable.not_not.mp heq] at hfield
    exact Patched.refl hfield

theorem pfPatch16_patched (v : BitVec 16) (heven : f % 2 = 0) (hin : f + 2 ≤ pd.covered.length)
    (hdis : pd.pcksum + 2 ≤ f ∨ f + 2 ≤ pd.pcksum) :
    Patched o f (o.bytes16 v) pd (pfPatch16 o pd f v).2 := by
  rw [pfPatch16]
  split
  · refine patched_fixup_write ?_ ?_ ?_ ?_
    · rwa [length_bytes16]
    · rwa [length_bytes16]
    · rw [length_bytes16, heven, decide_eq_true rfl, field_two _ hin, word, val_load16]
      simp [altSum]
    · rw [heven, decide_eq_true rfl, altSum_bytes16]
  next heq =>
    rw [← Decidable.not_not.mp heq, word, bytes16_load16]
    exact Patched.refl (field_two _ hin)

theorem not_even_succ (f : Nat) : (!decide (f % 2 = 0)) = decide ((f + 1) % 2 = 0) := by
  rcases mod_two_eq_zero_or_one f with h | h <;> rw [add_mod, h] <;> rfl

theorem pfPatch8_patched_next {k : Nat} (h : Patched o f bs pd pd') (v : Byte) (hi : Bool)
    (hk : k = f + bs.length) (hhi : hi = decide (k % 2 = 0)) (hin : k + 1 ≤ pd.covered.length)
    (hdis : pd.pcksum + 2 ≤ f ∨ k + 1 ≤ pd.pcksum) :
    Patched o f (bs ++ [v]) pd (pfPatch8 o pd' k v hi).2 := by
  subst hk hhi
  exact h.trans (pfPatch8_patched v (by rwa [h.length]) (by rw [h.pcksum]; omega)) (by omega)

theorem pfPatch16Unaligned_patched (aligned : Bool) (v : BitVec 16)
    (hin : f + 2 ≤ pd.covered.length) (hdis : pd.pcksum + 2 ≤ f ∨ f + 2 ≤ pd.pcksum) :
    Patched o f (o.bytes16 v) pd (pfPatch16Unaligned o pd aligned f v (f % 2 = 0)).2 := by
  rw [pfPatch16Unaligned]
  split
  next h =>
    have heven : f % 2 = 0 := of_decide_eq_true (Bool.and_eq_true_iff.mp h).1
    exact pfPatch16_patched v heven hin hdis
  next =>
    have h0 : Patched o f _ pd _ := pfPatch8_patched ((o.bytes16 v).getD 0 0#8) (by omega) (by omega)
    have h1 := pfPatch8_patched_next h0 ((o.bytes16 v).getD 1 0#8) _ rfl (not_even_succ f) hin
      (by omega)
    exact (bytes16_eq o v).symm ▸ h1

theorem pfPatch32_patched (heven : f % 2 = 0)
    (hin : f + 4 ≤ pd.covered.length) (hdis : pd.pcksum + 2 ≤ f ∨ f + 4 ≤ pd.pcksum)
    (hr : pfPatch32 o pd f v = some r) : Patched o f (o.bytes32 v) pd r.2 := by
  rw [pfPatch32] at hr
  split at hr
  · cases hr
  next hudp =>
    cases hr
    have habs (c : BitVec 16) : ¬(pd.proto = ipprotoUdp ∧ c = 0#16) := fun h => hudp h.1
    have hfield : pd.field f 4 =
        [pd.byte f, pd.byte (f + 1), pd.byte (f + 2), pd.byte (f + 3)] := pd.field_eq hin
    simp only [fixup, setCksum_setCksum, cksum_setCksum]
    refine patched_write o pd ?_ ?_ (fun h => absurd h hudp) fun _ => ?_
    · rwa [length_bytes32]
    · rwa [length_bytes32]
    · rw [length_bytes32, heven, decide_eq_true rfl, hfield, altSum_bytes32, altSum_load32]
      change val (pfCksumFixup _ _ _ pd.proto) + _ = _
      rw [val_pfCksumFixup _ _ _ _ (habs _), val_pfCksumFixup _ _ _ _ (habs _), long]
      ring

theorem pfPatch32Unaligned_patched {aligned : Bool}
    (hin : f + 4 ≤ pd.covered.length) (hdis : pd.pcksum + 2 ≤ f ∨ f + 4 ≤ pd.pcksum)
    (hr : pfPatch32Unaligned o pd aligned f v (f % 2 = 0) = some r) :
    Patched o f (o.bytes32 v) pd r.2 := by
  rw [pfPatch32Unaligned] at hr
  split at hr
  next h =>
    have heven : f % 2 = 0 := of_decide_eq_true (Bool.and_eq_true_iff.mp h).1
    exact pfPatch32_patched heven hin hdis hr
  next =>
    have h0 : Patched o f _ pd _ := pfPatch8_patched ((o.bytes32 v).getD 0 0#8) (by omega) (by omega)
    have h1 := pfPatch8_patched_next (k := f + 1) h0 ((o.bytes32 v).getD 1 0#8) _ rfl
      (not_even_succ f) (by omega) (by omega)
    have h2 := pfPatch8_patched_next (k := f + 2) h1 ((o.bytes32 v).getD 2 0#8)
      (decide (f % 2 = 0)) rfl (by rw [add_mod_right]) (by omega) (by omega)
    have h3 := pfPatch8_patched_next (k := f + 3) h2 ((o.bytes32 v).getD 3 0#8)
      (!decide (f % 2 = 0)) rfl (by rw [not_even_succ, ← add_mod_right (f + 1) 2]) (by omega)
      (by omega)
    rw [bytes32_eq] at h3
    rw [← some.inj hr]
    dsimp only
    exact h3

theorem altSum_words (o : ByteOrder) (bytes : Nat → Byte) (words : Nat) :
    altSum o.factor true (((range (2 * words)).map bytes).map val) =
      ((range words).map fun i => val (o.load16 (bytes (2 * i)) (bytes (2 * i + 1)))).sum := by
  induction words with
  | zero => rfl
  | succ words ih =>
    have hlen : ((((range (2 * words)).map bytes).map val).length % 2 = 0) := by simp
    rw [show 2 * (words + 1) = 2 * words + 1 + 1 by omega, range_succ, range_succ,
      List.append_assoc, List.map_append, List.map_append, altSum_append, ih, decide_eq_true hlen,
      sum_range_succ]
    simp [altSum]

theorem sum_sub_sum (g h : Nat → OnesSum) (is : List Nat) :
    (is.map fun i => g i - h i).sum = (is.map g).sum - (is.map h).sum := by
  induction is with
  | nil => simp
  | cons i is ih =>
    rw [map_cons, map_cons, map_cons, sum_cons, sum_cons, sum_cons, ih]
    ring

theorem Af.words16_le {af : Af} (h : af.words16 = some words) : words ≤ 8 := by
  cases af <;> cases h <;> decide

theorem pfRewriteAddr_patched {a : Nat} {an : Nat → Byte} {af : Af}
    (hwords : af.words16 = some words) (heven : a % 2 = 0) (hin : a + 2 * words ≤ pd.covered.length)
    (hdis : pd.pcksum + 2 ≤ a ∨ a + 2 * words ≤ pd.pcksum)
    (hr : pfRewriteAddr o pd a an af = some pd') :
    Patched o a ((range (2 * words)).map an) pd pd' := by
  have hle := Af.words16_le hwords
  have hlen : ((range (2 * words)).map an).length = 2 * words := by simp
  rw [pfRewriteAddr, hwords] at hr
  rw [← some.inj hr]
  refine patched_write o pd (by rwa [hlen]) (by rwa [hlen])
    (pfCksumFixupA_eq_zero _ _ _ _ hle) fun habs => ?_
  have hold : altSum o.factor true ((pd.field a (2 * words)).map val) =
      ((range words).map fun i => val (pd.word o (a + 2 * i))).sum := by
    rw [pd.field_eq hin, altSum_words]
    rfl
  rw [val_pfCksumFixupA _ _ _ _ hle habs, sum_sub_sum, hlen, heven, decide_eq_true rfl,
    altSum_words, hold]
  ring

end Patches

/-- The patches with their arguments.  `aligned` is what `ALIGNED_POINTER` says of the field. -/
inductive PatchOp
  | patch8 (f : Nat) (v : Byte) (hi : Bool)
  | patch16 (f : Nat) (v : BitVec 16)
  | patch16Unaligned (aligned : Bool) (f : Nat) (v : BitVec 16) (hi : Bool)
  | patch32 (f : Nat) (v : BitVec 32)
  | patch32Unaligned (aligned : Bool) (f : Nat) (v : BitVec 32) (hi : Bool)
  | rewriteAddr (a : Nat) (an : Nat → Byte) (af : Af)

namespace PatchOp

def place : PatchOp → Nat × Nat
  | patch8 f _ _ => (f, 1)
  | patch16 f _ => (f, 2)
  | patch16Unaligned _ f _ _ => (f, 2)
  | patch32 f _ => (f, 4)
  | patch32Unaligned _ f _ _ => (f, 4)
  | rewriteAddr a _ af => (a, 2 * af.words16.getD 0)

/-- The bytes of the new value as they stand in the packet. -/
def value (o : ByteOrder) : PatchOp → List Byte
  | patch8 _ v _ => [v]
  | patch16 _ v => o.bytes16 v
  | patch16Unaligned _ _ v _ => o.bytes16 v
  | patch32 _ v => o.bytes32 v
  | patch32Unaligned _ _ v _ => o.bytes32 v
  | rewriteAddr _ an af => (range (2 * af.words16.getD 0)).map an

/-- What the comments on the functions ask for: `hi` is the parity of the field, and where it is
not given the field is 16-bit aligned within the packet. -/
def ParityOk : PatchOp → Prop
  | patch8 f _ hi => hi = decide (f % 2 = 0)
  | patch16 f _ => f % 2 = 0
  | patch16Unaligned _ f _ hi => hi = decide (f % 2 = 0)
  | patch32 f _ => f % 2 = 0
  | patch32Unaligned _ f _ hi => hi = decide (f % 2 = 0)
  | rewriteAddr a _ _ => a % 2 = 0

structure Fits (op : PatchOp) (pd : PfPdesc) : Prop where
  parity : op.ParityOk
  inside : op.place.1 + op.place.2 ≤ pd.covered.length
  disjoint : pd.pcksum + 2 ≤ op.place.1 ∨ op.place.1 + op.place.2 ≤ pd.pcksum

def run (o : ByteOrder) (pd : PfPdesc) : PatchOp → Option PfPdesc
  | patch8 f v hi => some (pfPatch8 o pd f v hi).2
  | patch16 f v => some (pfPatch16 o pd f v).2
  | patch16Unaligned aligned f v hi => some (pfPatch16Unaligned o pd aligned f v hi).2
  | patch32 f v => (pfPatch32 o pd f v).map (·.2)
  | patch32Unaligned aligned f v hi => (pfPatch32Unaligned o pd aligned f v hi).map (·.2)
  | rewriteAddr a an af => pfRewriteAddr o pd a an af

def Panics (pd : PfPdesc) : PatchOp → Prop
  | patch32 _ _ => pd.proto = ipprotoUdp
  | patch32Unaligned aligned _ _ hi => pd.proto = ipprotoUdp ∧ hi = true ∧ aligned = true
  | rewriteAddr _ _ af => af = .unspec
  | _ => False

theorem run_eq_none_iff (o : ByteOrder) (pd : PfPdesc) (op : PatchOp) :
    op.run o pd = none ↔ op.Panics pd := by
  cases op with
  | patch8 f v hi => exact iff_of_false nofun id
  | patch16 f v => exact iff_of_false nofun id
  | patch16Unaligned aligned f v hi => exact iff_of_false nofun id
  | patch32 f v => simp [run, Panics, pfPatch32]
  | patch32Unaligned aligned f v hi =>
    cases hi <;> cases aligned <;> simp [run, Panics, pfPatch32Unaligned, pfPatch32]
  | rewriteAddr a an af => cases af <;> simp [run, Panics, pfRewriteAddr, Af.words16]

theorem patched {o : ByteOrder} {pd : PfPdesc} {op : PatchOp} (hfit : op.Fits pd)
    (hr : op.run o pd = some pd') : Patched o op.place.1 (op.value o) pd pd' := by
  obtain ⟨hpar, hin, hdis⟩ := hfit
  cases op with
  | patch8 f v hi =>
    cases hpar
    cases hr
    exact pfPatch8_patched v hin hdis
  | patch16 f v =>
    cases hr
    exact pfPatch16_patched v hpar hin hdis
  | patch16Unaligned aligned f v hi =>
    cases hpar
    cases hr
    exact pfPatch16Unaligned_patched aligned v hin hdis
  | patch32 f v =>
    obtain ⟨r, hr', rfl⟩ := map_eq_some_iff.mp hr
    exact pfPatch32_patched hpar hin hdis hr'
  | patch32Unaligned aligned f v hi =>
    cases hpar
    obtain ⟨r, hr', rfl⟩ := map_eq_some_iff.mp hr
    exact pfPatch32Unaligned_patched hin hdis hr'
  | rewriteAddr a an af =>
    cases hwords : af.words16 with
    | none =>
      rw [run, pfRewriteAddr, hwords] at hr
      cases hr
    | some words =>
      simp only [place, value, hwords, getD_some] at hin hdis ⊢
      exact pfRewriteAddr_patched hwords hpar hin hdis hr

end PatchOp

/-- Every patch stores its value and keeps a valid checksum valid, and under UDP an absent one absent
and a present one present.  The patches return except where `pf_patch_32` is given a UDP packet. -/
theorem pfPatch_exact (o : ByteOrder) (pd : PfPdesc) (op : PatchOp) (hfit : op.Fits pd) :
    (op.run o pd = none ↔ op.Panics pd) ∧ ∀ pd', op.run o pd = some pd' →
      Stores op.place.1 (op.value o) pd pd' ∧
      (¬pd.Absent o → pd.Valid o → pd'.Valid o) ∧
      (pd.proto = ipprotoUdp → (pd'.cksum o = 0#16 ↔ pd.cksum o = 0#16)) :=
  ⟨op.run_eq_none_iff o pd, fun _ hr =>
    have h := PatchOp.patched hfit hr
    ⟨h.toStores, h.valid, h.zero⟩⟩

def samplePdesc : PfPdesc where
  covered := [0x30, 0x39, 0x00, 0x35, 0x00, 0x08, 0xcf, 0x89]
  pcksum := 6
  proto := ipprotoUdp
  even := rfl
  inside := by decide

theorem pfPatch_exact_sample : samplePdesc.Valid .little ∧
    ((PatchOp.patch8 1 0x40 false).run .little samplePdesc = none ↔
      (PatchOp.patch8 1 0x40 false).Panics samplePdesc) ∧
    ∀ pd', (PatchOp.patch8 1 0x40 false).run .little samplePdesc = some pd' →
      Stores 1 [0x40] samplePdesc pd' ∧
      (¬samplePdesc.Absent .little → samplePdesc.Valid .little → pd'.Valid .little) ∧
      (samplePdesc.proto = ipprotoUdp →
        (pd'.cksum .little = 0#16 ↔ samplePdesc.cksum .little = 0#16)) :=
  ⟨by unfold PfPdesc.Valid; decide,
    pfPatch_exact .little samplePdesc (.patch8 1 0x40 false) ⟨rfl, by decide, by decide⟩⟩

end Mbsd.Net.Pf
