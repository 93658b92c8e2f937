import Mbsd.Lib.AltSum
import Mbsd.Net.Pf.Rule

/-! The functions of `net/pf.c` that rewrite a field of a packet and patch the checksum that covers
it.  A packet is the list of the bytes under the checksum, the pseudo-header included; a pointer
into it is a position in this list. -/

namespace Mbsd.Net.Pf

open Lib.AltSum

abbrev Byte := BitVec 8

inductive ByteOrder | little | big
  deriving DecidableEq, Repr

namespace ByteOrder

def load16 : ByteOrder → Byte → Byte → BitVec 16
  | .little, b0, b1 => b1 ++ b0
  | .big, b0, b1 => b0 ++ b1

def load32 : ByteOrder → Byte → Byte → Byte → Byte → BitVec 32
  | .little, b0, b1, b2, b3 => (b3 ++ b2) ++ (b1 ++ b0)
  | .big, b0, b1, b2, b3 => (b0 ++ b1) ++ (b2 ++ b3)

def bytes16 : ByteOrder → BitVec 16 → List Byte
  | .little, w => [w.setWidth 8, (w >>> 8).setWidth 8]
  | .big, w => [(w >>> 8).setWidth 8, w.setWidth 8]

def bytes32 : ByteOrder → BitVec 32 → List Byte
  | .little, v => bytes16 .little (v.setWidth 16) ++ bytes16 .little ((v >>> 16).setWidth 16)
  | .big, v => bytes16 .big ((v >>> 16).setWidth 16) ++ bytes16 .big (v.setWidth 16)

def htons : ByteOrder → BitVec 16 → BitVec 16
  | .little, w => w <<< 8 ||| w >>> 8
  | .big, w => w

def wordSum (o : ByteOrder) : List Byte → Nat
  | [] => 0
  | [b] => (o.load16 b 0#8).toNat
  | b0 :: b1 :: bs => (o.load16 b0 b1).toNat + o.wordSum bs

end ByteOrder

def ipprotoUdp : BitVec 8 := 17#8

def pfCksumFixup (cksum was now : BitVec 16) (proto : BitVec 8) : BitVec 16 :=
  let x : BitVec 32 := cksum.setWidth 32 + was.setWidth 32 - now.setWidth 32
  let x := (x + (x >>> 16)) &&& 0xffff#32
  if proto = ipprotoUdp ∧ cksum = 0#16 then cksum
  else if proto = ipprotoUdp ∧ x = 0#32 then 0xffff#16
  else x.setWidth 16

/-- The number of 16-bit words in an address; `none` is the `panic` of `unhandled_af`. -/
def Af.words16 : Af → Option Nat
  | .inet => some 2
  | .inet6 => some 8
  | .unspec => none

def pfCksumFixupA (cksum : BitVec 16) (o n : Nat → BitVec 16) (words : Nat) (proto : BitVec 8) :
    BitVec 16 :=
  let x : BitVec 32 := (List.range words).foldl
    (fun x i => x + (o i).setWidth 32 + (~~~n i).setWidth 32) (cksum.setWidth 32)
  let x := (x &&& 0xffff#32) + (x >>> 16)
  let x := (x &&& 0xffff#32) + (x >>> 16)
  if proto = ipprotoUdp ∧ cksum = 0#16 then cksum
  else if proto = ipprotoUdp ∧ x = 0#32 then 0xffff#16
  else x.setWidth 16

structure PfPdesc where
  covered : List Byte
  pcksum : Nat
  proto : BitVec 8
  even : pcksum % 2 = 0
  inside : pcksum + 2 ≤ covered.length

namespace PfPdesc

variable (order : ByteOrder) (pd : PfPdesc)

def byte (f : Nat) : Byte := pd.covered.getD f 0#8

def word (f : Nat) : BitVec 16 := order.load16 (pd.byte f) (pd.byte (f + 1))

def long (f : Nat) : BitVec 32 :=
  order.load32 (pd.byte f) (pd.byte (f + 1)) (pd.byte (f + 2)) (pd.byte (f + 3))

def cksum : BitVec 16 := pd.word order pd.pcksum

def write (f : Nat) (bs : List Byte) : PfPdesc :=
  { pd with
    covered := overwrite pd.covered f bs
    inside := by rw [length_overwrite]; exact pd.inside }

def setCksum (cksum : BitVec 16) : PfPdesc := pd.write pd.pcksum (order.bytes16 cksum)

def fixup (was now : BitVec 16) : PfPdesc :=
  pd.setCksum order (pfCksumFixup (pd.cksum order) was now pd.proto)

end PfPdesc

section Patch

variable (order : ByteOrder) (pd : PfPdesc)

def pfPatch8 (f : Nat) (v : Byte) (hi : Bool) : Nat × PfPdesc :=
  let b := pd.byte f
  if b ≠ v then
    let old := order.htons (if hi then b.setWidth 16 <<< 8 else b.setWidth 16)
    let new := order.htons (if hi then v.setWidth 16 <<< 8 else v.setWidth 16)
    (1, (pd.fixup order old new).write f [v])
  else (0, pd)

def pfPatch16 (f : Nat) (v : BitVec 16) : Nat × PfPdesc :=
  if pd.word order f ≠ v then
    (1, (pd.fixup order (pd.word order f) v).write f (order.bytes16 v))
  else (0, pd)

def pfPatch16Unaligned (aligned : Bool) (f : Nat) (v : BitVec 16) (hi : Bool) : Nat × PfPdesc :=
  if hi && aligned then pfPatch16 order pd f v
  else
    let vb := order.bytes16 v
    let r0 := pfPatch8 order pd f (vb.getD 0 0#8) hi
    let r1 := pfPatch8 order r0.2 (f + 1) (vb.getD 1 0#8) !hi
    (r0.1 + r1.1, r1.2)

def pfPatch32 (f : Nat) (v : BitVec 32) : Option (Nat × PfPdesc) :=
  if pd.proto = ipprotoUdp then none
  else
    let old := pd.long order f
    let pd := pd.fixup order ((old / 65536#32).setWidth 16) ((v / 65536#32).setWidth 16)
    let pd := pd.fixup order ((old % 65536#32).setWidth 16) ((v % 65536#32).setWidth 16)
    some (1, pd.write f (order.bytes32 v))

def pfPatch32Unaligned (aligned : Bool) (f : Nat) (v : BitVec 32) (hi : Bool) :
    Option (Nat × PfPdesc) :=
  if hi && aligned then pfPatch32 order pd f v
  else
    let vb := order.bytes32 v
    let r0 := pfPatch8 order pd f (vb.getD 0 0#8) hi
    let r1 := pfPatch8 order r0.2 (f + 1) (vb.getD 1 0#8) !hi
    let r2 := pfPatch8 order r1.2 (f + 2) (vb.getD 2 0#8) hi
    let r3 := pfPatch8 order r2.2 (f + 3) (vb.getD 3 0#8) !hi
    some (r0.1 + r1.1 + r2.1 + r3.1, r3.2)

/-- The fixup for an address at `a` and the copy of the new one over it, as `pf_translate_a` and
`pf_translate_icmp` do them.  `an` are the bytes of the new address. -/
def pfRewriteAddr (a : Nat) (an : Nat → Byte) (af : Af) : Option PfPdesc :=
  match af.words16 with
  | none => none
  | some words =>
    let cksum := pfCksumFixupA (pd.cksum order) (fun i => pd.word order (a + 2 * i))
      (fun i => order.load16 (an (2 * i)) (an (2 * i + 1))) words pd.proto
    some ((pd.setCksum order cksum).write a ((List.range (2 * words)).map an))

end Patch

end Mbsd.Net.Pf
