import Mathlib.Algebra.Group.Nat.Defs
import Mbsd.Sys

/-! The inodes of the cylinder groups: `ffs_nodealloccg` and `ffs_freefile` in
`ufs/ffs/ffs_alloc.c`.  Buffers are written where they are changed. -/

namespace Mbsd.Ufs.FfsAlloc

abbrev Byte := BitVec 8

def NBBY : Nat := 8

def howmany (x y : Nat) : Nat := (x + (y - 1)) / y

section Maps

variable (a : Nat → Byte) (i : Nat)

def isclr : Bool := !(a (i / NBBY)).getLsbD (i % NBBY)

def setbit : Nat → Byte := Function.update a (i / NBBY) (a (i / NBBY) ||| 1#8 <<< (i % NBBY))

def clrbit : Nat → Byte := Function.update a (i / NBBY) (a (i / NBBY) &&& ~~~(1#8 <<< (i % NBBY)))

/-- What is left of `size` bytes from `cp` on when those that are `mask` are skipped. -/
def skpc (mask : Byte) : Nat → Nat → Nat
  | 0, _ => 0
  | size + 1, cp => if a cp = mask then skpc mask size (cp + 1) else size + 1

end Maps

/-- A superblock.  Inodes are in whole blocks, and their numbers are words. -/
structure Fs where
  ufs2 : Bool
  fsIpg : Nat
  fsNcg : Nat
  fsInopb : Nat
  fsRonly : Bool
  inopb_pos : 0 < fsInopb
  nbby_dvd : NBBY ∣ fsInopb
  inopb_dvd : fsInopb ∣ fsIpg
  ipg_pos : 0 < fsIpg
  inodes_lt : fsNcg * fsIpg < 2 ^ 32

structure Csum where
  csNdir : Int
  csNifree : Int

structure Cg where
  cgTime : BitVec 32
  cgFfs2Time : BitVec 64
  cgCs : Csum
  cgIrotor : Nat
  cgFfs2Niblk : Nat
  cgInitediblk : Nat
  inosused : Nat → Byte

structure Dinode where
  diGen : BitVec 32
  diRest : Fin 252 → Byte

structure State where
  cgs : Nat → Cg
  fsCs : Nat → Csum
  fsCstotal : Csum
  fsFmod : Bool
  inodes : Nat → Dinode

def Csum.alloc (cs : Csum) (dir : Bool) : Csum :=
  ⟨if dir then cs.csNdir + 1 else cs.csNdir, cs.csNifree - 1⟩

def Csum.free (cs : Csum) (dir : Bool) : Csum :=
  ⟨if dir then cs.csNdir - 1 else cs.csNdir, cs.csNifree + 1⟩

def Fs.SameBlock (fs : Fs) (x y : Nat) : Prop :=
  x / fs.fsIpg = y / fs.fsIpg ∧ x % fs.fsIpg / fs.fsInopb = y % fs.fsIpg / fs.fsInopb

instance (fs : Fs) (x y : Nat) : Decidable (fs.SameBlock x y) := inferInstanceAs (Decidable (_ ∧ _))

section Nodealloccg

variable (fs : Fs)

def searchByte (cgp : Cg) : Option Nat :=
  let start := cgp.cgIrotor / NBBY
  let len := howmany ((fs.fsIpg + 2 ^ 32 - cgp.cgIrotor) % 2 ^ 32) NBBY
  let loc := skpc cgp.inosused 0xff len start
  if loc = 0 then
    let len := start + 1
    let loc := skpc cgp.inosused 0xff len 0
    if loc = 0 then none else some (len - loc)
  else some (start + len - loc)

/-- The inode that is taken, and the rotor then; `none` is a panic. -/
def pickInode (cgp : Cg) (ipref : Nat) : Option (Nat × Nat) :=
  if ipref ≠ 0 ∧ isclr cgp.inosused (ipref % fs.fsIpg) then
    some (ipref % fs.fsIpg, cgp.cgIrotor)
  else do
    let i ← searchByte fs cgp
    let bit ← (List.range NBBY).find? fun j => !(cgp.inosused i).getLsbD j
    some (i * NBBY + bit, i * NBBY + bit)

/-- Whether another block of inodes is initialized. -/
def Extends (cgp : Cg) (ipref : Nat) : Prop :=
  fs.ufs2 ∧ cgp.cgInitediblk < ipref + fs.fsInopb ∧ cgp.cgInitediblk < cgp.cgFfs2Niblk

instance (cgp : Cg) (ipref : Nat) : Decidable (Extends fs cgp ipref) :=
  inferInstanceAs (Decidable (_ ∧ _))

/-- `readable` says whether the group could be read, `gen` are the generation numbers that
`arc4random` gives; `none` is a panic. -/
def ffsNodealloccg (s : State) (cg ipref : Nat) (dir readable : Bool) (now : BitVec 64)
    (gen : Nat → { g : BitVec 32 // g ≠ 0 }) : Option (State × Nat) :=
  if (s.fsCs cg).csNifree = 0 then some (s, 0)
  else if !readable then some (s, 0)
  else
    let cgp := s.cgs cg
    if cgp.cgCs.csNifree = 0 then some (s, 0)
    else do
      let (ino, irotor) ← pickInode fs cgp ipref
      let cgp := { cgp with cgFfs2Time := now, cgTime := now.setWidth 32, cgIrotor := irotor }
      let inodes :=
        if Extends fs cgp ino then
          let first := (cg * fs.fsIpg + cgp.cgInitediblk) % 2 ^ 32
          fun y => if fs.SameBlock first y then ⟨gen (y % fs.fsInopb), fun _ => 0⟩ else s.inodes y
        else s.inodes
      let cgp := { cgp with
        cgInitediblk :=
          if Extends fs cgp ino then cgp.cgInitediblk + fs.fsInopb else cgp.cgInitediblk
        inosused := setbit cgp.inosused ino
        cgCs := cgp.cgCs.alloc dir }
      some ({
        cgs := Function.update s.cgs cg cgp
        fsCs := Function.update s.fsCs cg ((s.fsCs cg).alloc dir)
        fsCstotal := s.fsCstotal.alloc dir
        fsFmod := true
        inodes := inodes }, cg * fs.fsIpg + ino)

def ffsFreefile (s : State) (ino : Nat) (dir readable : Bool) (now : BitVec 64) : Option State :=
  if fs.fsIpg * fs.fsNcg ≤ ino then none
  else
    let cg := ino / fs.fsIpg
    if !readable then some s
    else
      let cgp := s.cgs cg
      let ino := ino % fs.fsIpg
      if isclr cgp.inosused ino ∧ fs.fsRonly = false then none
      else
        let cgp := { cgp with
          cgFfs2Time := now
          cgTime := now.setWidth 32
          inosused := clrbit cgp.inosused ino
          cgIrotor := if ino < cgp.cgIrotor then ino else cgp.cgIrotor
          cgCs := cgp.cgCs.free dir }
        some { s with
          cgs := Function.update s.cgs cg cgp
          fsCs := Function.update s.fsCs cg ((s.fsCs cg).free dir)
          fsCstotal := s.fsCstotal.free dir
          fsFmod := true }

end Nodealloccg

end Mbsd.Ufs.FfsAlloc
