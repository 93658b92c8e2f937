import Mbsd.Lib.Toeplitz
import Mbsd.Net.Pf.Cksum
import Mbsd.Sys

/-! The symmetric Toeplitz hash of a flow, in software. -/

namespace Mbsd.Net.Toeplitz

open Lib.Circulant Lib.Toeplitz Pf Sys List BitVec

variable {j b : Nat}

def nbby : Nat := 8

abbrev StoeplitzKey := BitVec 16

def nbsk : Nat := nbby * 2

def swap16 (x : BitVec 16) : BitVec 16 := x <<< 8 ||| x >>> 8

def parity (n16 : BitVec 16) : BitVec 16 :=
  let n16 := ((n16 &&& 0xaaaa) >>> 1) ^^^ (n16 &&& 0x5555)
  let n16 := ((n16 &&& 0xcccc) >>> 2) ^^^ (n16 &&& 0x3333)
  let n16 := ((n16 &&& 0xf0f0) >>> 4) ^^^ (n16 &&& 0x0f0f)
  ((n16 &&& 0xff00) >>> 8) ^^^ (n16 &&& 0x00ff)

def stoeplitzRandomSeed (r : BitVec 32) : StoeplitzKey :=
  let seed := (r &&& 0xffff).setWidth 16
  if parity seed = 0 then seed ^^^ 1 else seed

structure StoeplitzCache where
  bytes : Byte → BitVec 16

def column (skey : StoeplitzKey) (b : Nat) : BitVec 16 := skey <<< b ||| skey >>> (nbsk - b)

def columnSum (skey : StoeplitzKey) (val : Byte) : Nat → BitVec 16
  | 0 => 0
  | b + 1 =>
    let res := columnSum skey val b
    let shift := nbby - b - 1
    if val &&& (1 <<< shift) ≠ 0 then res ^^^ column skey b else res

def stoeplitzCacheInit (skey : StoeplitzKey) : StoeplitzCache where
  bytes val := columnSum skey val nbby

def stoeplitzHashN16 (scache : StoeplitzCache) (n16 : BitVec 16) : BitVec 16 :=
  let hi := scache.bytes ((n16 >>> 8).setWidth 8)
  let lo := scache.bytes (n16.setWidth 8)
  hi ^^^ swap16 lo

def stoeplitzHashN32 (scache : StoeplitzCache) (n32 : BitVec 32) : BitVec 16 :=
  stoeplitzHashN16 scache ((n32 ^^^ (n32 >>> 16)).setWidth 16)

def stoeplitzHashIp4 (scache : StoeplitzCache) (faddr laddr : BitVec 32) : BitVec 16 :=
  stoeplitzHashN32 scache (faddr ^^^ laddr)

def stoeplitzHashIp4port (scache : StoeplitzCache) (faddr laddr : BitVec 32)
    (fport lport : BitVec 16) : BitVec 16 :=
  stoeplitzHashN32 scache (faddr ^^^ laddr ^^^ fport.setWidth 32 ^^^ lport.setWidth 32)

abbrev In6Addr := Fin 4 → BitVec 32

def ip6Sum (faddr6 laddr6 : In6Addr) : Nat → BitVec 32
  | 0 => 0
  | i + 1 => ip6Sum faddr6 laddr6 i ^^^ (faddr6 (Fin.ofNat 4 i) ^^^ laddr6 (Fin.ofNat 4 i))

def stoeplitzHashIp6 (scache : StoeplitzCache) (faddr6 laddr6 : In6Addr) : BitVec 16 :=
  stoeplitzHashN32 scache (ip6Sum faddr6 laddr6 4)

def stoeplitzHashIp6port (scache : StoeplitzCache) (faddr6 laddr6 : In6Addr)
    (fport lport : BitVec 16) : BitVec 16 :=
  let n32 := ip6Sum faddr6 laddr6 4
  let n32 := n32 ^^^ (fport.setWidth 32 ^^^ lport.setWidth 32)
  stoeplitzHashN32 scache n32

def toKeyLoop (skey : BitVec 16) : Nat → List Byte
  | 0 => []
  | n + 1 => (skey >>> 8).setWidth 8 :: skey.setWidth 8 :: toKeyLoop skey n

def stoeplitzToKey (order : ByteOrder) (stoeplitzKeyseed : StoeplitzKey) (klen : Nat) :
    Option (List Byte) := do
  let skey := order.htons stoeplitzKeyseed
  kassert (klen % 2 = 0)
  some (toKeyLoop skey (klen / 2))

section Hash

theorem hi_getMsbD (n16 : BitVec 16) (hj : j < 8) :
    ((n16 >>> 8).setWidth 8).getMsbD j = n16.getMsbD j := by
  rw [getMsbD_eq_getLsbD, getMsbD_eq_getLsbD, getLsbD_setWidth,
    getLsbD_ushiftRight, show 8 + (8 - 1 - j) = 16 - 1 - j by omega]
  simp only [hj, show j < 16 by omega, show 8 - 1 - j < 8 by omega, decide_true, Bool.true_and]

theorem lo_getMsbD (n16 : BitVec 16) (hj : j < 8) :
    (n16.setWidth 8).getMsbD j = n16.getMsbD (8 + j) := by
  rw [getMsbD_eq_getLsbD, getMsbD_eq_getLsbD, getLsbD_setWidth,
    show 16 - 1 - (8 + j) = 8 - 1 - j by omega]
  simp only [hj, show 8 + j < 16 by omega, show 8 - 1 - j < 8 by omega, decide_true, Bool.true_and]

theorem swap16_zero : swap16 0 = 0 := rfl

theorem swap16_xor (x y : BitVec 16) : swap16 (x ^^^ y) = swap16 x ^^^ swap16 y := by
  refine eq_of_getLsbD_eq fun i hi => ?_
  simp only [swap16, getLsbD_xor, getLsbD_or, getLsbD_shiftLeft, getLsbD_ushiftRight]
  by_cases h : i < 8
  · simp [h]
  · simp [h, hi, getLsbD_of_ge, show 16 ≤ 8 + i by omega]

theorem getMsbD_swap16 (x : BitVec 16) {i : Nat} (hi : i < 16) :
    (swap16 x).getMsbD i = x.getMsbD ((8 + i) % 16) := by
  rw [show swap16 x = x.rotateLeft 8 from rfl, getMsbD_rotateLeft, decide_eq_true hi, Bool.true_and]

theorem htons_xor (o : ByteOrder) (x y : BitVec 16) :
    o.htons (x ^^^ y) = o.htons x ^^^ o.htons y := by
  cases o with
  | little => exact swap16_xor x y
  | big => rfl

theorem swap16_rotateLeft (x : BitVec 16) (j : Nat) :
    swap16 (x.rotateLeft j) = x.rotateLeft (8 + j) := by
  refine eq_of_getMsbD_eq fun i hi => ?_
  rw [getMsbD_swap16 _ hi, getMsbD_rotateLeft, getMsbD_rotateLeft,
    decide_eq_true (Nat.mod_lt _ (by decide)), decide_eq_true hi, Nat.add_mod_mod]
  congr 3
  omega

theorem rotateLeft_swap16 (x : BitVec 16) (j : Nat) :
    (swap16 x).rotateLeft j = x.rotateLeft (8 + j) := by
  refine eq_of_getMsbD_eq fun i hi => ?_
  rw [getMsbD_rotateLeft, getMsbD_rotateLeft,
    getMsbD_swap16 _ (Nat.mod_lt _ (by decide)), Nat.add_mod_mod, Nat.add_assoc]

theorem column_eq (skey : StoeplitzKey) (hb : b < 16) :
    column skey b = skey.rotateLeft b := by
  rw [BitVec.rotateLeft, Nat.mod_eq_of_lt hb]
  rfl

theorem and_shift_ne_zero_iff (val : Byte) (hb : b < 8) :
    val &&& (1 <<< (nbby - b - 1)) ≠ 0 ↔ val.getMsbD b = true := by
  have hshift : (1 <<< (nbby - b - 1) : Byte) = twoPow 8 (7 - b) := by
    rw [twoPow, nbby, show 8 - b - 1 = 7 - b by omega]
    rfl
  have hne : twoPow 8 (7 - b) ≠ 0 := fun h => by
    have hbit := congrArg (fun x => x.getLsbD (7 - b)) h
    simp only [getLsbD_twoPow, ofNat_eq_ofNat, getLsbD_zero] at hbit
    exact absurd hbit (by simp; omega)
  rw [hshift, and_twoPow, getMsbD_eq_getLsbD, decide_eq_true hb, Bool.true_and]
  split
  next h => exact iff_of_true hne h
  next h => exact iff_of_false (fun hno => hno rfl) h

theorem columnSum_eq (skey : StoeplitzKey) (val : Byte) {n : Nat} (hn : n ≤ 8) :
    columnSum skey val n = select skey.rotateLeft val.getMsbD n := by
  induction n with
  | zero => rfl
  | succ n ih =>
    have htest := and_shift_ne_zero_iff val (b := n) (by omega)
    rw [columnSum, select_succ, ih (Nat.le_of_succ_le hn), column_eq _ (by omega)]
    by_cases h : val.getMsbD n = true
    · rw [if_pos (htest.mpr h), if_pos h]
    · rw [if_neg (mt htest.mp h), if_neg h]
      exact xor_zero.symm

theorem stoeplitzHashN16_eq (skey : StoeplitzKey) (n16 : BitVec 16) :
    stoeplitzHashN16 (stoeplitzCacheInit skey) n16 = circulant skey n16 := by
  have hhi : columnSum skey ((n16 >>> 8).setWidth 8) 8 =
      select skey.rotateLeft n16.getMsbD 8 := by
    rw [columnSum_eq _ _ (Nat.le_refl 8)]
    exact select_congr (fun _ _ => rfl) fun j hj => hi_getMsbD n16 hj
  have hlo : swap16 (columnSum skey (n16.setWidth 8) 8) =
      select (fun j => skey.rotateLeft (8 + j)) (fun j => n16.getMsbD (8 + j)) 8 := by
    rw [columnSum_eq _ _ (Nat.le_refl 8), map_select swap16_zero swap16_xor]
    exact select_congr (fun j _ => swap16_rotateLeft skey j) fun j hj => lo_getMsbD n16 hj
  show columnSum skey _ 8 ^^^ swap16 (columnSum skey _ 8) = _
  rw [hhi, hlo]
  exact (select_add 8 8).symm

theorem circulant_swap16 (k x : BitVec 16) : circulant (swap16 k) (swap16 x) = circulant k x := by
  have hfirst : select (swap16 k).rotateLeft (swap16 x).getMsbD 8 =
      select (fun j => k.rotateLeft (8 + j)) (fun j => x.getMsbD (8 + j)) 8 :=
    select_congr (fun j _ => rotateLeft_swap16 k j) fun j hj => by
      rw [getMsbD_swap16 x (by omega), Nat.mod_eq_of_lt (by omega)]
  have hsecond : select (fun j => (swap16 k).rotateLeft (8 + j))
      (fun j => (swap16 x).getMsbD (8 + j)) 8 = select k.rotateLeft x.getMsbD 8 :=
    select_congr
      (fun j _ => by
        rw [rotateLeft_swap16, ← Nat.add_assoc, BitVec.rotateLeft, BitVec.rotateLeft,
          Nat.add_mod_left])
      fun j hj => by
        rw [getMsbD_swap16 x (by omega), ← Nat.add_assoc, Nat.add_mod_left,
          Nat.mod_eq_of_lt (by omega)]
  calc circulant (swap16 k) (swap16 x) = _ := select_add 8 8
    _ = _ := by rw [hfirst, hsecond, BitVec.xor_comm]
    _ = circulant k x := (select_add 8 8).symm

theorem circulant_htons (o : ByteOrder) (k x : BitVec 16) :
    circulant (o.htons k) (o.htons x) = circulant k x := by
  cases o with
  | little => exact circulant_swap16 k x
  | big => rfl

end Hash

section Parity

theorem and_xor_distrib (x y m : BitVec 16) : (x ^^^ y) &&& m = (x &&& m) ^^^ (y &&& m) := by
  refine eq_of_getLsbD_eq fun i _ => ?_
  rw [getLsbD_and, getLsbD_xor, getLsbD_xor, getLsbD_and, getLsbD_and, Bool.and_xor_distrib_right]

theorem fold_xor (m m' x y : BitVec 16) (s : Nat) :
    (((x ^^^ y) &&& m) >>> s) ^^^ ((x ^^^ y) &&& m') =
      (((x &&& m) >>> s) ^^^ (x &&& m')) ^^^ (((y &&& m) >>> s) ^^^ (y &&& m')) := by
  rw [and_xor_distrib, and_xor_distrib, ushiftRight_xor_distrib]
  ac_rfl

theorem parity_xor (x y : BitVec 16) : parity (x ^^^ y) = parity x ^^^ parity y := by
  simp only [parity, fold_xor]

theorem parity_twoPow : ∀ j < 16, parity (twoPow 16 (16 - 1 - j)) = 1 := by
  decide +kernel

theorem parity_eq (n16 : BitVec 16) :
    parity n16 = if Odd ((bits n16).count true) then 1 else 0 := by
  calc parity n16 = parity (select (fun j => twoPow 16 (16 - 1 - j)) n16.getMsbD 16) := by
        rw [select_twoPow]
    _ = select (fun j => parity (twoPow 16 (16 - 1 - j))) n16.getMsbD 16 :=
        map_select rfl parity_xor _ _ _
    _ = select (fun _ => 1) n16.getMsbD 16 := select_congr parity_twoPow fun _ _ => rfl
    _ = _ := by simp only [select_const, sum_bit_eq_one_iff]

theorem parity_stoeplitzRandomSeed (r : BitVec 32) : parity (stoeplitzRandomSeed r) = 1 := by
  rw [stoeplitzRandomSeed]
  split
  next h => rw [parity_xor, h]; rfl
  next h =>
    rw [parity_eq] at h ⊢
    by_cases hodd : Odd ((bits ((r &&& 0xffff).setWidth 16)).count true)
    · rw [if_pos hodd]
    · exact absurd (if_neg hodd) h

theorem stoeplitzHashN16_bijective {skey : StoeplitzKey} (hodd : Odd ((bits skey).count true)) :
    Function.Bijective (stoeplitzHashN16 (stoeplitzCacheInit skey)) := by
  have hinj : Function.Injective (stoeplitzHashN16 (stoeplitzCacheInit skey)) := by
    rw [funext (stoeplitzHashN16_eq skey)]
    exact circulant_injective (n := 4) rfl ((sum_bit_eq_one_iff skey).mpr hodd)
  have hfin : Finite (BitVec 16) := Finite.of_injective _ toFin_injective
  exact Finite.injective_iff_bijective.mp hinj

theorem stoeplitzRandomSeed_bijective (r : BitVec 32) :
    Function.Bijective (stoeplitzHashN16 (stoeplitzCacheInit (stoeplitzRandomSeed r))) := by
  refine stoeplitzHashN16_bijective (Decidable.byContradiction fun hodd => ?_)
  have h := parity_stoeplitzRandomSeed r
  rw [parity_eq, if_neg hodd] at h
  exact absurd h (by decide)

end Parity

section Flow

variable {o : ByteOrder} {bytes bytes' : List Byte} {n n' : BitVec 16}

def Flow (o : ByteOrder) (bytes : List Byte) (n : BitVec 16) : Prop :=
  ∃ ws : List (BitVec 16), bytes.flatMap bits = ws.flatMap bits ∧
    ws.foldr (· ^^^ ·) 0 = o.htons n ∧ 2 * ws.length = bytes.length

theorem foldr_xor_append (ws ws' : List (BitVec 16)) :
    (ws ++ ws').foldr (· ^^^ ·) 0 = ws.foldr (· ^^^ ·) 0 ^^^ ws'.foldr (· ^^^ ·) 0 := by
  induction ws with
  | nil => exact BitVec.zero_xor.symm
  | cons w ws ih => rw [List.cons_append, List.foldr_cons, List.foldr_cons, ih, BitVec.xor_assoc]

theorem Flow.append (h : Flow o bytes n) (h' : Flow o bytes' n') :
    Flow o (bytes ++ bytes') (n ^^^ n') := by
  obtain ⟨ws, hbits, hsum, hlen⟩ := h
  obtain ⟨ws', hbits', hsum', hlen'⟩ := h'
  refine ⟨ws ++ ws', ?_, ?_, ?_⟩
  · rw [List.flatMap_append, List.flatMap_append, hbits, hbits']
  · rw [foldr_xor_append, hsum, hsum', htons_xor]
  · rw [List.length_append, List.length_append, ← hlen, ← hlen', Nat.mul_add]

theorem hi_append_lo (w : BitVec 16) : (w >>> 8).setWidth 8 ++ w.setWidth 8 = w := by
  refine eq_of_getMsbD_eq fun i hi => ?_
  rw [getMsbD_append]
  split
  next h => rw [lo_getMsbD w (by omega), Nat.add_sub_cancel' h]
  next h => rw [hi_getMsbD w (Nat.lt_of_not_le h)]

theorem lo_append_hi (w : BitVec 16) : w.setWidth 8 ++ (w >>> 8).setWidth 8 = swap16 w := by
  refine eq_of_getMsbD_eq fun i hi => ?_
  rw [getMsbD_append, getMsbD_swap16 w hi]
  split
  next h => rw [hi_getMsbD w (by omega), show (8 + i) % 16 = i - 8 by omega]
  next h => rw [lo_getMsbD w (Nat.lt_of_not_le h), Nat.mod_eq_of_lt (by omega)]

theorem flatMap_bytes16 (o : ByteOrder) (w : BitVec 16) :
    (o.bytes16 w).flatMap bits = bits (o.htons w) := by
  cases o with
  | little =>
    show bits _ ++ (bits _ ++ []) = bits (swap16 w)
    rw [List.append_nil, ← bits_append, lo_append_hi]
  | big =>
    show bits _ ++ (bits _ ++ []) = bits w
    rw [List.append_nil, ← bits_append, hi_append_lo]

theorem flow_bytes16 (o : ByteOrder) (w : BitVec 16) : Flow o (o.bytes16 w) w := by
  refine ⟨[o.htons w], ?_, BitVec.xor_zero, ?_⟩
  · rw [flatMap_bytes16, List.flatMap_singleton]
  · cases o <;> rfl

def folded (n32 : BitVec 32) : BitVec 16 := (n32 ^^^ (n32 >>> 16)).setWidth 16

theorem folded_xor (x y : BitVec 32) : folded (x ^^^ y) = folded x ^^^ folded y := by
  rw [folded, folded, folded, ushiftRight_xor_distrib, ← setWidth_xor]
  congr 1
  ac_rfl

theorem folded_setWidth (x : BitVec 16) : folded (x.setWidth 32) = x := by
  refine eq_of_getLsbD_eq fun i hi => ?_
  rw [folded, getLsbD_setWidth, getLsbD_xor, getLsbD_ushiftRight,
    getLsbD_setWidth, getLsbD_setWidth, x.getLsbD_of_ge (16 + i) (by omega),
    decide_eq_true hi, decide_eq_true (by omega : i < 32), Bool.and_false, Bool.xor_false,
    Bool.true_and, Bool.true_and]

theorem flow_bytes32 (o : ByteOrder) (n32 : BitVec 32) : Flow o (o.bytes32 n32) (folded n32) := by
  have hfolded : folded n32 = n32.setWidth 16 ^^^ (n32 >>> 16).setWidth 16 :=
    setWidth_xor
  cases o with
  | little =>
    rw [hfolded]
    exact (flow_bytes16 _ _).append (flow_bytes16 _ _)
  | big =>
    rw [hfolded, BitVec.xor_comm]
    exact (flow_bytes16 _ _).append (flow_bytes16 _ _)

section

local instance words_ne_zero : NeZero 4 := ⟨Nat.succ_ne_zero 3⟩

def in6Bytes (o : ByteOrder) (addr6 : In6Addr) : List Byte :=
  o.bytes32 (addr6 0) ++ o.bytes32 (addr6 1) ++ o.bytes32 (addr6 2) ++ o.bytes32 (addr6 3)

def in6Sum (addr6 : In6Addr) : BitVec 32 := addr6 0 ^^^ addr6 1 ^^^ addr6 2 ^^^ addr6 3

end

theorem ip6Sum_eq (faddr6 laddr6 : In6Addr) :
    ip6Sum faddr6 laddr6 4 = in6Sum faddr6 ^^^ in6Sum laddr6 := by
  show 0#32 ^^^ (faddr6 0 ^^^ laddr6 0) ^^^ (faddr6 1 ^^^ laddr6 1) ^^^ (faddr6 2 ^^^ laddr6 2) ^^^
    (faddr6 3 ^^^ laddr6 3) = _
  rw [BitVec.zero_xor, in6Sum, in6Sum]
  ac_rfl

theorem flow_in6Bytes (o : ByteOrder) (addr6 : In6Addr) :
    Flow o (in6Bytes o addr6) (folded (in6Sum addr6)) := by
  rw [in6Sum, folded_xor, folded_xor, folded_xor]
  exact (((flow_bytes32 o _).append (flow_bytes32 o _)).append (flow_bytes32 o _)).append
    (flow_bytes32 o _)

theorem toKeyLoop_succ (skey : BitVec 16) (n : Nat) : toKeyLoop skey (n + 1) =
      (skey >>> 8).setWidth 8 :: skey.setWidth 8 :: toKeyLoop skey n := rfl

theorem toKeyLoop_eq (skey : BitVec 16) (n : Nat) :
    (toKeyLoop skey n).flatMap bits = repeated n skey := by
  induction n with
  | zero => rfl
  | succ n ih =>
    rw [toKeyLoop_succ, List.flatMap_cons, List.flatMap_cons, ih, ← List.append_assoc,
      ← bits_append, hi_append_lo, repeated_succ]

def hardwareHash (key flow : List Byte) : BitVec 32 :=
  toeplitz 32 (key.flatMap bits) (flow.flatMap bits)

theorem hardwareHash_eq {seed : StoeplitzKey} (h : Flow o bytes n) (hlen : bytes.length ≤ 36) :
    hardwareHash (toKeyLoop (o.htons seed) (40 / 2)) bytes =
      stoeplitzHashN16 (stoeplitzCacheInit seed) n ++
        stoeplitzHashN16 (stoeplitzCacheInit seed) n := by
  obtain ⟨ws, hbits, hsum, hwords⟩ := h
  rw [hardwareHash, toKeyLoop_eq, hbits, stoeplitzHashN16_eq, ← circulant_htons o, ← hsum]
  exact toeplitz_repeated (p := 16) (by omega)

end Flow

section Symmetric

variable (scache : StoeplitzCache)

theorem stoeplitzHashIp4_comm (faddr laddr : BitVec 32) :
    stoeplitzHashIp4 scache laddr faddr = stoeplitzHashIp4 scache faddr laddr := by
  rw [stoeplitzHashIp4, BitVec.xor_comm, stoeplitzHashIp4]

theorem stoeplitzHashIp4port_comm (faddr laddr : BitVec 32) (fport lport : BitVec 16) :
    stoeplitzHashIp4port scache laddr faddr lport fport =
      stoeplitzHashIp4port scache faddr laddr fport lport := by
  rw [stoeplitzHashIp4port, stoeplitzHashIp4port]
  congr 1
  ac_rfl

theorem stoeplitzHashIp6_comm (faddr6 laddr6 : In6Addr) :
    stoeplitzHashIp6 scache laddr6 faddr6 = stoeplitzHashIp6 scache faddr6 laddr6 := by
  rw [stoeplitzHashIp6, stoeplitzHashIp6, ip6Sum_eq, ip6Sum_eq, BitVec.xor_comm]

theorem stoeplitzHashIp6port_comm (faddr6 laddr6 : In6Addr) (fport lport : BitVec 16) :
    stoeplitzHashIp6port scache laddr6 faddr6 lport fport =
      stoeplitzHashIp6port scache faddr6 laddr6 fport lport := by
  rw [stoeplitzHashIp6port, stoeplitzHashIp6port, ip6Sum_eq, ip6Sum_eq]
  rw [BitVec.xor_comm (in6Sum laddr6), BitVec.xor_comm (lport.setWidth 32)]

end Symmetric

theorem stoeplitz_hash_eq_hardware (order : ByteOrder) (seed : StoeplitzKey) :
    let scache := stoeplitzCacheInit seed
    ∃ key, stoeplitzToKey order seed 40 = some key ∧ key.length = 40 ∧ (∀ faddr laddr : BitVec 32,
        let hash := stoeplitzHashIp4 scache faddr laddr
        hardwareHash key (order.bytes32 faddr ++ order.bytes32 laddr) = hash ++ hash ∧
          stoeplitzHashIp4 scache laddr faddr = hash) ∧
      (∀ (faddr laddr : BitVec 32) (fport lport : BitVec 16),
        let hash := stoeplitzHashIp4port scache faddr laddr fport lport
        hardwareHash key (order.bytes32 faddr ++ order.bytes32 laddr ++ order.bytes16 fport ++
            order.bytes16 lport) = hash ++ hash ∧
          stoeplitzHashIp4port scache laddr faddr lport fport = hash) ∧ (∀ faddr6 laddr6 : In6Addr,
        let hash := stoeplitzHashIp6 scache faddr6 laddr6
        hardwareHash key (in6Bytes order faddr6 ++ in6Bytes order laddr6) = hash ++ hash ∧
          stoeplitzHashIp6 scache laddr6 faddr6 = hash) ∧
      (∀ (faddr6 laddr6 : In6Addr) (fport lport : BitVec 16),
        let hash := stoeplitzHashIp6port scache faddr6 laddr6 fport lport
        hardwareHash key (in6Bytes order faddr6 ++ in6Bytes order laddr6 ++ order.bytes16 fport ++
            order.bytes16 lport) = hash ++ hash ∧
          stoeplitzHashIp6port scache laddr6 faddr6 lport fport = hash) ∧
      (Odd ((bits seed).count true) → Function.Bijective (stoeplitzHashN16 scache)) := by
  have hlen32 (v : BitVec 32) : (order.bytes32 v).length = 4 := by cases order <;> rfl
  have hlen16 (w : BitVec 16) : (order.bytes16 w).length = 2 := by cases order <;> rfl
  have hlen6 (addr6 : In6Addr) : (in6Bytes order addr6).length = 16 := by
    simp only [in6Bytes, length_append, hlen32]
  refine ⟨toKeyLoop (order.htons seed) (40 / 2), rfl, rfl, fun faddr laddr => ⟨?_, ?_⟩,
    fun faddr laddr fport lport => ⟨?_, ?_⟩, fun faddr6 laddr6 => ⟨?_, ?_⟩,
    fun faddr6 laddr6 fport lport => ⟨?_, ?_⟩, stoeplitzHashN16_bijective⟩
  · have hflow := (flow_bytes32 order faddr).append (flow_bytes32 order laddr)
    rw [hardwareHash_eq hflow (by simp only [length_append, hlen32]; decide), ← folded_xor]
    rfl
  · exact stoeplitzHashIp4_comm _ faddr laddr
  · have hflow := (((flow_bytes32 order faddr).append (flow_bytes32 order laddr)).append
      (flow_bytes16 order fport)).append (flow_bytes16 order lport)
    rw [hardwareHash_eq hflow (by simp only [length_append, hlen32, hlen16]; decide),
      ← folded_setWidth fport, ← folded_setWidth lport, ← folded_xor, ← folded_xor, ← folded_xor,
      folded_setWidth, folded_setWidth]
    rfl
  · exact stoeplitzHashIp4port_comm _ faddr laddr fport lport
  · have hflow := (flow_in6Bytes order faddr6).append (flow_in6Bytes order laddr6)
    rw [hardwareHash_eq hflow (by simp only [length_append, hlen6]; decide), ← folded_xor,
      ← ip6Sum_eq]
    rfl
  · exact stoeplitzHashIp6_comm _ faddr6 laddr6
  · have hflow := (((flow_in6Bytes order faddr6).append (flow_in6Bytes order laddr6)).append
      (flow_bytes16 order fport)).append (flow_bytes16 order lport)
    have hsum : folded (in6Sum faddr6) ^^^ folded (in6Sum laddr6) ^^^ fport ^^^ lport =
        folded (ip6Sum faddr6 laddr6 4 ^^^ (fport.setWidth 32 ^^^ lport.setWidth 32)) := by
      rw [ip6Sum_eq, folded_xor, folded_xor, folded_xor, folded_setWidth, folded_setWidth,
        BitVec.xor_assoc _ fport]
    rw [hardwareHash_eq hflow (by simp only [length_append, hlen6, hlen16]; decide), hsum]
    rfl
  · exact stoeplitzHashIp6port_comm _ faddr6 laddr6 fport lport

end Mbsd.Net.Toeplitz
