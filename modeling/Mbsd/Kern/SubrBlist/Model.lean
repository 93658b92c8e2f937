import Mathlib.Algebra.Group.Nat.Defs
import Mathlib.Logic.Function.Basic

/-! The swap allocator of `kern/subr_blist.c`: a radix tree of counters and bitmaps in one array.  A
panic has no result, and neither has a recursion that runs out of levels. -/

namespace Mbsd.Kern.SubrBlist

/-- `bmu_avail` and `bmu_bitmap` are a union: a node has one of them, by its level. -/
structure BlMeta where
  bmuAvail : Nat
  bmuBitmap : BitVec 64
  bmBighint : Nat

abbrev BlMem := Nat → BlMeta

def bmapRadix : Nat := 64

def metaRadix : Nat := 32

def blistMaxAlloc : Nat := bmapRadix

def blistMaxblks : Nat := 0x4000000000000000 / (bmapRadix / metaRadix)

def terminator : Nat := 2 ^ 64 - 1

def BlMem.set (mem : BlMem) (i : Nat) (m : BlMeta) : BlMem := Function.update mem i m

structure Blist where
  blBlocks : Nat
  blRadix : Nat
  blSkip : Nat
  blFree : Nat
  blRoot : BlMem
  blRootblks : Nat

def lowBitLoop : Nat → (orig mask : BitVec 64) → (j r : Nat) → Nat
  | 0, _, _, _, r => r
  | n + 1, orig, mask, j, r =>
    if j = 0 then r
    else if orig &&& mask = 0 then lowBitLoop n (orig >>> j) (mask >>> (j / 2)) (j / 2) (r + j)
    else lowBitLoop n orig (mask >>> (j / 2)) (j / 2) r

/-- The loop that shifts the mask of a run of bits; `turns` are left. -/
def runLoop (orig : BitVec 64) : (turns : Nat) → (mask : BitVec 64) → (j : Nat) →
    Option (Nat × BitVec 64)
  | 0, _, _ => none
  | turns + 1, mask, j =>
    if orig &&& mask = mask then some (j, mask) else runLoop orig turns (mask <<< 1) (j + 1)

def blstLeafAlloc (mem : BlMem) (scan blk count : Nat) : Option Nat × BlMem :=
  let orig := (mem scan).bmuBitmap
  if orig = 0 then (none, mem.set scan { mem scan with bmBighint := 0 })
  else if count = 1 then
    let r := lowBitLoop bmapRadix orig (BitVec.allOnes 64 >>> (bmapRadix / 2)) (bmapRadix / 2) 0
    (some (blk + r), mem.set scan { mem scan with bmuBitmap := orig &&& ~~~(1#64 <<< r) })
  else if count ≤ bmapRadix then
    let n := bmapRadix - count
    match runLoop orig (n + 1) (BitVec.allOnes 64 >>> n) 0 with
    | some (j, mask) =>
      (some (blk + j), mem.set scan { mem scan with bmuBitmap := orig &&& ~~~mask })
    | none => (none, mem.set scan { mem scan with bmBighint := count - 1 })
  else (none, mem.set scan { mem scan with bmBighint := count - 1 })

/-- The loop that initializes a sublevel, up to a terminator. -/
def initLoop (scan skip nextSkip : Nat) (init : BlMeta → BlMeta) : Nat → BlMem → Nat → BlMem
  | 0, mem, _ => mem
  | n + 1, mem, i =>
    if i ≤ skip ∧ (mem (scan + i)).bmBighint ≠ terminator then
      initLoop scan skip nextSkip init n (mem.set (scan + i) (init (mem (scan + i)))) (i + nextSkip)
    else mem

def initFree (mem : BlMem) (scan radix skip nextSkip : Nat) : BlMem :=
  initLoop scan skip nextSkip (fun m =>
    if nextSkip = 1 then { m with bmuBitmap := BitVec.allOnes 64, bmBighint := bmapRadix }
    else { m with bmuAvail := radix, bmBighint := radix }) metaRadix mem 1

def initAllocated (mem : BlMem) (scan skip nextSkip : Nat) : BlMem :=
  initLoop scan skip nextSkip (fun m =>
    if nextSkip = 1 then { m with bmuBitmap := 0, bmBighint := 0 }
    else { m with bmuAvail := 0, bmBighint := 0 }) metaRadix mem 1

def allocLoop (child : BlMem → (i blk : Nat) → Option (Option Nat × BlMem))
    (scan blkat count radix skip nextSkip : Nat) :
    Nat → BlMem → (i blk : Nat) → Option (Option Nat × BlMem)
  | 0, mem, _, _ => some (none, mem)
  | n + 1, mem, i, blk =>
    if i ≤ skip ∧ (mem (scan + i)).bmBighint ≠ terminator then
      if count ≤ (mem (scan + i)).bmBighint ∧ blk + radix > blkat then
        match child mem i blk with
        | none => none
        | some (some r, mem) =>
          let avail := (mem scan).bmuAvail - count
          let m : BlMeta := { mem scan with
            bmuAvail := avail
            bmBighint := if (mem scan).bmBighint > avail then avail else (mem scan).bmBighint }
          some (some r, mem.set scan m)
        | some (none, mem) =>
          allocLoop child scan blkat count radix skip nextSkip n mem (i + nextSkip) (blk + radix)
      else if count > radix then none
      else allocLoop child scan blkat count radix skip nextSkip n mem (i + nextSkip) (blk + radix)
    else some (none, mem)

def blstMetaAlloc : Nat → BlMem → (scan blkat blk count radix skip : Nat) →
    Option (Option Nat × BlMem)
  | 0, _, _, _, _, _, _, _ => none
  | levels + 1, mem, scan, blkat, blk, count, radix, skip =>
    let nextSkip := skip / metaRadix
    if (mem scan).bmuAvail = 0 then
      some (none, mem.set scan { mem scan with bmBighint := 0 })
    else
      let mem :=
        if (mem scan).bmuAvail = radix then
          initFree (mem.set scan { mem scan with bmBighint := radix }) scan (radix / metaRadix)
            skip nextSkip
        else mem
      let radix := radix / metaRadix
      let child (mem : BlMem) (i blk : Nat) :=
        if nextSkip = 1 then some (blstLeafAlloc mem (scan + i) blk count)
        else blstMetaAlloc levels mem (scan + i) blkat blk count radix (nextSkip - 1)
      match allocLoop child scan blkat count radix skip nextSkip metaRadix mem 1 blk with
      | some (none, mem) =>
        if blk ≥ blkat ∧ (mem scan).bmBighint ≥ count then
          some (none, mem.set scan { mem scan with bmBighint := count - 1 })
        else some (none, mem)
      | result => result

/-- The levels of a tree are fewer than the bits of its radix. -/
def Blist.levels (bl : Blist) : Nat := bl.blRadix.log2

def blistAllocat (bl : Blist) (count blkat : Nat) : Option (Option Nat × Blist) :=
  let result :=
    if bl.blRadix = bmapRadix then some (blstLeafAlloc bl.blRoot 0 0 count)
    else blstMetaAlloc bl.levels bl.blRoot 0 blkat 0 count bl.blRadix bl.blSkip
  result.map fun
    | (some blk, mem) => (some blk, { bl with blRoot := mem, blFree := bl.blFree - count })
    | (none, mem) => (none, { bl with blRoot := mem })

def blistAlloc (bl : Blist) (count : Nat) : Option (Option Nat × Blist) := blistAllocat bl count 0

def rangeMask (blk count : Nat) : BitVec 64 :=
  let n := blk % bmapRadix
  (BitVec.allOnes 64 <<< n) &&& (BitVec.allOnes 64 >>> (bmapRadix - count - n))

def blstLeafFree (mem : BlMem) (scan blk count : Nat) : Option BlMem :=
  let mask := rangeMask blk count
  if (mem scan).bmuBitmap &&& mask ≠ 0 then none
  else
    some (mem.set scan { mem scan with
      bmuBitmap := (mem scan).bmuBitmap ||| mask
      bmBighint := bmapRadix })

/-- The loop over the part of a sublevel that a range covers, with a number that is summed up. -/
def rangeLoop (step : BlMem → (i from_ v blk : Nat) → Option (BlMem × Nat))
    (radix skip nextSkip : Nat) :
    Nat → BlMem → (sum i blk from_ count : Nat) → Option (BlMem × Nat)
  | 0, mem, sum, _, _, _, _ => some (mem, sum)
  | n + 1, mem, sum, i, blk, from_, count =>
    if i ≤ skip ∧ blk < from_ + count then
      let v := min (blk + radix - from_) count
      (step mem i from_ v blk).bind fun (mem, nblks) =>
        rangeLoop step radix skip nextSkip n mem (sum + nblks) (i + nextSkip) (blk + radix)
          (from_ + v) (count - v)
    else some (mem, sum)

def blstMetaFree : Nat → BlMem → (scan freeBlk count radix skip blk : Nat) → Option BlMem
  | 0, _, _, _, _, _, _, _ => none
  | levels + 1, mem, scan, freeBlk, count, radix, skip, blk =>
    let nextSkip := skip / metaRadix
    let mem :=
      if (mem scan).bmuAvail = 0 then
        let mem := mem.set scan { mem scan with bmuAvail := count, bmBighint := count }
        if count ≠ radix then initAllocated mem scan skip nextSkip else mem
      else mem.set scan { mem scan with bmuAvail := (mem scan).bmuAvail + count }
    if (mem scan).bmuAvail = radix then
      some (mem.set scan { mem scan with bmBighint := radix })
    else if (mem scan).bmuAvail > radix then none
    else
      let radix := radix / metaRadix
      let i := (freeBlk - blk) / radix
      let step (mem : BlMem) (i freeBlk v blk : Nat) : Option (BlMem × Nat) :=
        if (mem scan).bmBighint = terminator then none
        else
          let freed :=
            if nextSkip = 1 then blstLeafFree mem (scan + i) freeBlk v
            else blstMetaFree levels mem (scan + i) freeBlk v radix (nextSkip - 1) blk
          freed.map fun mem =>
            if (mem scan).bmBighint < (mem (scan + i)).bmBighint then
              (mem.set scan { mem scan with bmBighint := (mem (scan + i)).bmBighint }, 0)
            else (mem, 0)
      (rangeLoop step radix skip nextSkip metaRadix mem 0 (i * nextSkip + 1) (blk + i * radix)
        freeBlk count).map Prod.fst

def blistFree (bl : Blist) (blkno count : Nat) : Option Blist :=
  let result :=
    if bl.blRadix = bmapRadix then blstLeafFree bl.blRoot 0 blkno count
    else blstMetaFree bl.levels bl.blRoot 0 blkno count bl.blRadix bl.blSkip 0
  result.map fun mem => { bl with blRoot := mem, blFree := bl.blFree + count }

def countLoop : Nat → BitVec 64 → Nat → Nat
  | 0, _, nblks => nblks
  | n + 1, bitmap, nblks =>
    if bitmap ≠ 0 then countLoop n (bitmap &&& (bitmap - 1)) (nblks + 1) else nblks

def blstLeafFill (mem : BlMem) (scan blk count : Nat) : BlMem × Nat :=
  let mask := rangeMask blk count
  (mem.set scan { mem scan with bmuBitmap := (mem scan).bmuBitmap &&& ~~~mask },
    countLoop bmapRadix ((mem scan).bmuBitmap &&& mask) 0)

def blstMetaFill : Nat → BlMem → (scan fillBlk count radix skip blk : Nat) → Option (BlMem × Nat)
  | 0, _, _, _, _, _, _, _ => none
  | levels + 1, mem, scan, fillBlk, count, radix, skip, blk =>
    let nextSkip := skip / metaRadix
    if count = radix ∨ (mem scan).bmuAvail = 0 then
      some (mem.set scan { mem scan with bmuAvail := 0, bmBighint := count }, (mem scan).bmuAvail)
    else
      let mem :=
        if (mem scan).bmuAvail = radix then
          initFree mem scan (radix / metaRadix) skip nextSkip
        else mem
      let radix := radix / metaRadix
      if count > radix then none
      else
        let i := (fillBlk - blk) / radix
        let step (mem : BlMem) (i fillBlk v blk : Nat) : Option (BlMem × Nat) :=
          if (mem scan).bmBighint = terminator then none
          else if nextSkip = 1 then some (blstLeafFill mem (scan + i) fillBlk v)
          else blstMetaFill levels mem (scan + i) fillBlk v radix (nextSkip - 1) blk
        (rangeLoop step radix skip nextSkip metaRadix mem 0 (i * nextSkip + 1) (blk + i * radix)
          fillBlk count).map fun (mem, nblks) =>
            (mem.set scan { mem scan with bmuAvail := (mem scan).bmuAvail - nblks }, nblks)

def blistFill (bl : Blist) (blkno count : Nat) : Option (Nat × Blist) :=
  let result :=
    if bl.blRadix = bmapRadix then some (blstLeafFill bl.blRoot 0 blkno count)
    else blstMetaFill bl.levels bl.blRoot 0 blkno count bl.blRadix bl.blSkip 0
  result.map fun (mem, filled) => (filled, { bl with blRoot := mem, blFree := bl.blFree - filled })

/-- The loop over the sublevel in `blst_radix_init`: the memory, and `memindex`. -/
def radixInitLoop (child : BlMem → (i count : Nat) → BlMem × Nat)
    (scan radix skip nextSkip : Nat) :
    Nat → BlMem → (i count memindex : Nat) → BlMem × Nat
  | 0, mem, i, _, memindex => (mem, max memindex i)
  | n + 1, mem, i, count, memindex =>
    if i ≤ skip then
      if count ≥ radix then
        let (mem, m) := child mem i radix
        radixInitLoop child scan radix skip nextSkip n mem (i + nextSkip) (count - radix) (i + m)
      else if count > 0 then
        let (mem, m) := child mem i count
        radixInitLoop child scan radix skip nextSkip n mem (i + nextSkip) 0 (i + m)
      else
        (mem.set (scan + i) { mem (scan + i) with bmBighint := terminator }, max memindex i)
    else (mem, max memindex i)

/-- The memory that is written, and how much of it there must be.  With `scan == NULL` the source
only computes the latter. -/
def blstRadixInit : Nat → BlMem → (scan radix skip count : Nat) → BlMem × Nat
  | levels, mem, scan, radix, skip, count =>
    if radix = bmapRadix then (mem.set scan { mem scan with bmuBitmap := 0, bmBighint := 0 }, 0)
    else
      match levels with
      | 0 => (mem, 0)
      | levels + 1 =>
        let mem := mem.set scan { mem scan with bmuAvail := 0, bmBighint := 0 }
        let radix := radix / metaRadix
        let nextSkip := skip / metaRadix
        radixInitLoop (fun mem i count =>
          blstRadixInit levels mem (scan + i) radix (nextSkip - 1) count) scan radix skip nextSkip
          metaRadix mem 1 count 0

/-- The loop that finds `radix` and `skip`, in the arithmetic of `swblk_t`. -/
def createLoop (blocks : Nat) : Nat → (radix skip : Nat) → Option (Nat × Nat)
  | 0, _, _ => none
  | n + 1, radix, skip =>
    if radix < blocks then
      let skip := (skip + 1) * metaRadix % 2 ^ 64
      if skip = 0 then none else createLoop blocks n (radix * metaRadix % 2 ^ 64) skip
    else some (radix, skip)

/-- What `mallocarray` hands out is not initialized. -/
def blistCreate (turns : Nat) (memory : BlMem) (blocks : Nat) : Option Blist :=
  if blocks = 0 then none
  else
    (createLoop blocks turns bmapRadix 0).map fun (radix, skip) =>
      let (mem, memindex) := blstRadixInit radix.log2 memory 0 radix skip blocks
      { blBlocks := blocks
        blRadix := radix
        blSkip := skip
        blFree := 0
        blRoot := mem
        blRootblks := 1 + memindex }

def copyBits (v : BitVec 64) (blk count : Nat) : Nat → (i : Nat) → Blist → Option Blist
  | 0, _, dest => some dest
  | n + 1, i, dest =>
    if i < bmapRadix ∧ i < count then
      if v.getLsbD i then
        (blistFree dest (blk + i) 1).bind fun dest => copyBits v blk count n (i + 1) dest
      else copyBits v blk count n (i + 1) dest
    else some dest

def copyLoop (child : (i blk count : Nat) → Blist → Option Blist) (mem : BlMem)
    (scan radix skip nextSkip : Nat) :
    Nat → (i blk count : Nat) → Blist → Option Blist
  | 0, _, _, _, dest => some dest
  | n + 1, i, blk, count, dest =>
    if count ≠ 0 ∧ i ≤ skip ∧ (mem (scan + i)).bmBighint ≠ terminator then
      if count ≥ radix then
        (child i blk radix dest).bind fun dest =>
          copyLoop child mem scan radix skip nextSkip n (i + nextSkip) (blk + radix)
            (count - radix) dest
      else
        (child i blk count dest).bind fun dest =>
          copyLoop child mem scan radix skip nextSkip n (i + nextSkip) (blk + radix) 0 dest
    else some dest

def blstCopy : Nat → BlMem → (scan blk radix skip : Nat) → Blist → (count : Nat) → Option Blist
  | levels, mem, scan, blk, radix, skip, dest, count =>
    if radix = bmapRadix then
      let v := (mem scan).bmuBitmap
      if v = BitVec.allOnes 64 then blistFree dest blk count
      else if v ≠ 0 then copyBits v blk count bmapRadix 0 dest
      else some dest
    else if (mem scan).bmuAvail = 0 then some dest
    else if (mem scan).bmuAvail = radix then
      if count < radix then blistFree dest blk count else blistFree dest blk radix
    else
      match levels with
      | 0 => none
      | levels + 1 =>
        let radix := radix / metaRadix
        let nextSkip := skip / metaRadix
        copyLoop (fun i blk count dest =>
          blstCopy levels mem (scan + i) blk radix (nextSkip - 1) dest count) mem scan radix skip
          nextSkip metaRadix 1 blk count dest

def blistResize (turns : Nat) (memory : BlMem) (save : Blist) (count : Nat) (freenew : Bool) :
    Option Blist :=
  (blistCreate turns memory count).bind fun newbl =>
    let count := if count > save.blBlocks then save.blBlocks else count
    (blstCopy save.levels save.blRoot 0 0 save.blRadix save.blSkip newbl count).bind fun newbl =>
      if freenew ∧ count < newbl.blBlocks then blistFree newbl count (newbl.blBlocks - count)
      else some newbl

end Mbsd.Kern.SubrBlist
