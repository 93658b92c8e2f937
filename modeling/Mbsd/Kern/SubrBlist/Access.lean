import Mbsd.Kern.SubrBlist.Model
import Mbsd.Lib.CellProg

/-! The functions of `kern/subr_blist.c` again, with each access to `bl_root` in the open.  The
counters of free blocks may be any: no access depends on how they add up. -/

namespace Mbsd.Kern.SubrBlist.Access

open Lib.CellProg

structure Counter where
  add : Nat → Nat → Nat
  sub : Nat → Nat → Nat

def Counter.word : Counter := ⟨fun a b => (a + b) % 2 ^ 64, fun a b => (a + (2 ^ 64 - b)) % 2 ^ 64⟩

abbrev BlProg := Prog Nat BlMeta

def blstLeafAlloc (scan blk count : Nat) : BlProg (Option Nat) := do
  let orig := (← Prog.get scan).bmuBitmap
  if orig = 0 then
    Prog.modify scan fun m => { m with bmBighint := 0 }
    return none
  else if count = 1 then
    let r := lowBitLoop bmapRadix orig (BitVec.allOnes 64 >>> (bmapRadix / 2)) (bmapRadix / 2) 0
    Prog.modify scan fun m => { m with bmuBitmap := m.bmuBitmap &&& ~~~(1#64 <<< r) }
    return some (blk + r)
  else if count ≤ bmapRadix then
    let n := bmapRadix - count
    match runLoop orig (n + 1) (BitVec.allOnes 64 >>> n) 0 with
    | some (j, mask) =>
      Prog.modify scan fun m => { m with bmuBitmap := m.bmuBitmap &&& ~~~mask }
      return some (blk + j)
    | none =>
      Prog.modify scan fun m => { m with bmBighint := count - 1 }
      return none
  else
    Prog.modify scan fun m => { m with bmBighint := count - 1 }
    return none

def subLoop {σ : Type} (scan skip nextSkip : Nat) (body : (i : Nat) → σ → BlProg (ForInStep σ)) :
    Nat → (i : Nat) → σ → BlProg σ
  | 0, _, _ => .outOfFuel
  | n + 1, i, s =>
    if i ≤ skip then do
      let m ← Prog.get (scan + i)
      if m.bmBighint = terminator then return s
      else
        match ← body i s with
        | .done s => return s
        | .yield s => subLoop scan skip nextSkip body n (i + nextSkip) s
    else return s

def turns : Nat := metaRadix + 1

def initLoop (scan skip nextSkip : Nat) (init : BlMeta → BlMeta) : BlProg Unit :=
  subLoop scan skip nextSkip (fun i _ => do
    Prog.modify (scan + i) init
    return .yield ()) turns 1 ()

def initFree (scan radix skip nextSkip : Nat) : BlProg Unit :=
  initLoop scan skip nextSkip fun m =>
    if nextSkip = 1 then { m with bmuBitmap := BitVec.allOnes 64, bmBighint := bmapRadix }
    else { m with bmuAvail := radix, bmBighint := radix }

def initAllocated (scan skip nextSkip : Nat) : BlProg Unit :=
  initLoop scan skip nextSkip fun m =>
    if nextSkip = 1 then { m with bmuBitmap := 0, bmBighint := 0 }
    else { m with bmuAvail := 0, bmBighint := 0 }

section Counted

variable (k : Counter)

def allocBody (child : (i blk : Nat) → BlProg (Option Nat)) (scan blkat count radix i : Nat) :
    Nat × Option Nat → BlProg (ForInStep (Nat × Option Nat))
  | (blk, _) => do
    let m ← Prog.get (scan + i)
    if count ≤ m.bmBighint ∧ blk + radix > blkat then
      match ← child i blk with
      | some r =>
        Prog.modify scan fun m => { m with
          bmuAvail := k.sub m.bmuAvail count
          bmBighint :=
            if m.bmBighint > k.sub m.bmuAvail count then k.sub m.bmuAvail count
            else m.bmBighint }
        return .done (blk, some r)
      | none => return .yield (blk + radix, none)
    else if count > radix then .panic
    else return .yield (blk + radix, none)

def blstMetaAlloc : Nat → (scan blkat blk count radix skip : Nat) → BlProg (Option Nat)
  | 0, _, _, _, _, _, _ => .outOfFuel
  | levels + 1, scan, blkat, blk, count, radix, skip => do
    let nextSkip := skip / metaRadix
    let m ← Prog.get scan
    if m.bmuAvail = 0 then
      Prog.modify scan fun m => { m with bmBighint := 0 }
      return none
    else
      Prog.when (m.bmuAvail = radix) do
        Prog.modify scan fun m => { m with bmBighint := radix }
        initFree scan (radix / metaRadix) skip nextSkip
      let radix := radix / metaRadix
      let child (i blk : Nat) :=
        if nextSkip = 1 then blstLeafAlloc (scan + i) blk count
        else blstMetaAlloc levels (scan + i) blkat blk count radix (nextSkip - 1)
      let (_, r) ← subLoop scan skip nextSkip (allocBody k child scan blkat count radix) turns 1
        (blk, none)
      match r with
      | some r => return some r
      | none =>
        let m ← Prog.get scan
        Prog.when (blk ≥ blkat ∧ m.bmBighint ≥ count)
          (Prog.modify scan fun m => { m with bmBighint := count - 1 })
        return none

def blistAlloc (bl : Blist) (count : Nat) : BlProg (Option Nat × Nat) := do
  let blk ← (
    if bl.blRadix = bmapRadix then blstLeafAlloc 0 0 count
    else blstMetaAlloc k bl.levels 0 0 0 count bl.blRadix bl.blSkip)
  return (blk, if blk.isSome then k.sub bl.blFree count else bl.blFree)

def blstLeafFree (scan blk count : Nat) : BlProg Unit := do
  let m ← Prog.get scan
  if m.bmuBitmap &&& rangeMask blk count ≠ 0 then .panic
  else
    Prog.modify scan fun m => { m with
      bmuBitmap := m.bmuBitmap ||| rangeMask blk count
      bmBighint := bmapRadix }

/-- The loop over the part of a sublevel that a range covers, with a number that is summed up. -/
def rangeLoop (step : (i from_ v blk : Nat) → BlProg Nat) (radix skip nextSkip : Nat) :
    Nat → (sum i blk from_ count : Nat) → BlProg Nat
  | 0, _, _, _, _, _ => .outOfFuel
  | n + 1, sum, i, blk, from_, count =>
    if i ≤ skip ∧ blk < from_ + count then do
      let v := min (blk + radix - from_) count
      let nblks ← step i from_ v blk
      rangeLoop step radix skip nextSkip n (sum + nblks) (i + nextSkip) (blk + radix) (from_ + v)
        (count - v)
    else return sum

def freeBody (child : (i freeBlk v blk : Nat) → BlProg Unit) (scan i freeBlk v blk : Nat) :
    BlProg Nat := do
  let m ← Prog.get scan
  if m.bmBighint = terminator then .panic
  else
    child i freeBlk v blk
    let m ← Prog.get scan
    let c ← Prog.get (scan + i)
    Prog.when (m.bmBighint < c.bmBighint)
      (Prog.modify scan fun m => { m with bmBighint := c.bmBighint })
    return 0

def freeHead (scan count radix skip nextSkip : Nat) : BlProg Unit := do
  let m ← Prog.get scan
  if m.bmuAvail = 0 then
    Prog.modify scan fun m => { m with bmuAvail := count, bmBighint := count }
    Prog.when (count ≠ radix) (initAllocated scan skip nextSkip)
  else Prog.modify scan fun m => { m with bmuAvail := k.add m.bmuAvail count }

def blstMetaFree : Nat → (scan freeBlk count radix skip blk : Nat) → BlProg Unit
  | 0, _, _, _, _, _, _ => .outOfFuel
  | levels + 1, scan, freeBlk, count, radix, skip, blk => do
    let nextSkip := skip / metaRadix
    freeHead k scan count radix skip nextSkip
    let m ← Prog.get scan
    if m.bmuAvail = radix then
      Prog.modify scan fun m => { m with bmBighint := radix }
    else if m.bmuAvail > radix then .panic
    else
      let radix := radix / metaRadix
      let i := (freeBlk - blk) / radix
      let child (i freeBlk v blk : Nat) :=
        if nextSkip = 1 then blstLeafFree (scan + i) freeBlk v
        else blstMetaFree levels (scan + i) freeBlk v radix (nextSkip - 1) blk
      let _ ← rangeLoop (freeBody child scan) radix skip nextSkip turns 0 (i * nextSkip + 1)
        (blk + i * radix) freeBlk count

def blistFree (bl : Blist) (blkno count : Nat) : BlProg Nat := do
  let _ ← (
    if bl.blRadix = bmapRadix then blstLeafFree 0 blkno count
    else blstMetaFree k bl.levels 0 blkno count bl.blRadix bl.blSkip 0)
  return k.add bl.blFree count

def blstLeafFill (scan blk count : Nat) : BlProg Nat := do
  let m ← Prog.get scan
  let nblks := countLoop bmapRadix (m.bmuBitmap &&& rangeMask blk count) 0
  Prog.modify scan fun m => { m with bmuBitmap := m.bmuBitmap &&& ~~~rangeMask blk count }
  return nblks

def fillBody (child : (i fillBlk v blk : Nat) → BlProg Nat) (scan i fillBlk v blk : Nat) :
    BlProg Nat := do
  let m ← Prog.get scan
  if m.bmBighint = terminator then .panic else child i fillBlk v blk

def blstMetaFill : Nat → (scan fillBlk count radix skip blk : Nat) → BlProg Nat
  | 0, _, _, _, _, _, _ => .outOfFuel
  | levels + 1, scan, fillBlk, count, radix, skip, blk => do
    let nextSkip := skip / metaRadix
    let m ← Prog.get scan
    if count = radix ∨ m.bmuAvail = 0 then
      Prog.modify scan fun m => { m with bmuAvail := 0, bmBighint := count }
      return m.bmuAvail
    else
      Prog.when (m.bmuAvail = radix) (initFree scan (radix / metaRadix) skip nextSkip)
      let radix := radix / metaRadix
      if count > radix then .panic
      else
        let i := (fillBlk - blk) / radix
        let child (i fillBlk v blk : Nat) :=
          if nextSkip = 1 then blstLeafFill (scan + i) fillBlk v
          else blstMetaFill levels (scan + i) fillBlk v radix (nextSkip - 1) blk
        let nblks ← rangeLoop (fillBody child scan) radix skip nextSkip turns 0 (i * nextSkip + 1)
          (blk + i * radix) fillBlk count
        Prog.modify scan fun m => { m with bmuAvail := k.sub m.bmuAvail nblks }
        return nblks

def blistFill (bl : Blist) (blkno count : Nat) : BlProg (Nat × Nat) := do
  let filled ← (
    if bl.blRadix = bmapRadix then blstLeafFill 0 blkno count
    else blstMetaFill k bl.levels 0 blkno count bl.blRadix bl.blSkip 0)
  return (filled, k.sub bl.blFree filled)

end Counted

def initNode (scan : Option Nat) (f : BlMeta → BlMeta) : BlProg Unit :=
  match scan with
  | none => return ()
  | some scan => Prog.modify scan f

def radixInitLoop (child : (i count : Nat) → BlProg Nat) (scan : Option Nat)
    (radix skip nextSkip : Nat) : Nat → (i count memindex : Nat) → BlProg Nat
  | 0, _, _, _ => .outOfFuel
  | n + 1, i, count, memindex =>
    if i ≤ skip then
      if count ≥ radix then do
        let m ← child i radix
        radixInitLoop child scan radix skip nextSkip n (i + nextSkip) (count - radix) (i + m)
      else if count > 0 then do
        let m ← child i count
        radixInitLoop child scan radix skip nextSkip n (i + nextSkip) 0 (i + m)
      else do
        initNode (scan.map (· + i)) fun m => { m with bmBighint := terminator }
        return max memindex i
    else return max memindex i

def blstRadixInit : Nat → (scan : Option Nat) → (radix skip count : Nat) → BlProg Nat
  | levels, scan, radix, skip, count =>
    if radix = bmapRadix then do
      initNode scan fun m => { m with bmuBitmap := 0, bmBighint := 0 }
      return 0
    else
      match levels with
      | 0 => .outOfFuel
      | levels + 1 => do
        initNode scan fun m => { m with bmuAvail := 0, bmBighint := 0 }
        let radix := radix / metaRadix
        let nextSkip := skip / metaRadix
        radixInitLoop (fun i count =>
            blstRadixInit levels (scan.map (· + i)) radix (nextSkip - 1) count)
          scan radix skip nextSkip turns 1 count 0

/-- The `struct blist`, but for its memory.  The first pass over the tree computes how much there
must be, and the second one writes it. -/
def blistCreate (turns blocks : Nat) : BlProg (BlMem → Blist) :=
  if blocks = 0 then .panic
  else
    match createLoop blocks turns bmapRadix 0 with
    | none => .outOfFuel
    | some (radix, skip) => do
      let memindex ← blstRadixInit radix.log2 none radix skip blocks
      let _ ← blstRadixInit radix.log2 (some 0) radix skip blocks
      return fun mem =>
        { blBlocks := blocks
          blRadix := radix
          blSkip := skip
          blFree := 0
          blRoot := mem
          blRootblks := 1 + memindex }

inductive GapfindState
  | firstfree | firstused

structure Gaps where
  maxb : Nat
  maxe : Nat
  b : Nat
  e : Nat

def Gaps.used (g : Gaps) (blk : Nat) : Gaps :=
  if g.maxe - g.maxb < blk - g.b then { g with e := blk, maxb := g.b, maxe := blk }
  else { g with e := blk }

def seeUsed (blk : Nat) : GapfindState × Gaps → GapfindState × Gaps
  | (.firstfree, g) => (.firstfree, g)
  | (.firstused, g) => (.firstfree, g.used blk)

def seeFree (blk : Nat) : GapfindState × Gaps → GapfindState × Gaps
  | (.firstfree, g) => (.firstused, { g with b := blk })
  | (.firstused, g) => (.firstused, g)

def blstRadixGapfind : Nat → (scan blk radix skip : Nat) → GapfindState × Gaps →
    BlProg (GapfindState × Gaps)
  | levels, scan, blk, radix, skip, s =>
    if radix = bmapRadix then do
      let m ← Prog.get scan
      return if m.bmuBitmap = BitVec.allOnes 64 then seeFree blk s else seeUsed blk s
    else
      match levels with
      | 0 => .outOfFuel
      | levels + 1 => do
        let m ← Prog.get scan
        if m.bmuAvail = 0 then return seeUsed blk s
        else if m.bmuAvail = radix then return seeFree blk s
        else
          let radix := radix / metaRadix
          let nextSkip := skip / metaRadix
          let (_, s) ← subLoop scan skip nextSkip (fun i (blk, s) => do
            let s ← blstRadixGapfind levels (scan + i) blk radix (nextSkip - 1) s
            return .yield (blk + radix, s)) turns 1 (blk, s)
          return s

def blistGapfind (bl : Blist) : BlProg (Nat × Nat) := do
  let (state, g) ← blstRadixGapfind bl.levels 0 0 bl.blRadix bl.blSkip (.firstfree, ⟨0, 0, 0, 0⟩)
  match state with
  | .firstfree => return (g.maxb, g.maxe)
  | .firstused =>
    let g := g.used bl.blBlocks
    return (g.maxb, g.maxe)

/-- The tree that is copied is the first array, and the one it is copied to the second. -/
abbrev CopyProg := Prog (Nat ⊕ Nat) BlMeta

section Copy

variable (k : Counter)

def copyBits (v : BitVec 64) (blk count : Nat) : Nat → (i : Nat) → Blist → CopyProg Nat
  | 0, _, _ => .outOfFuel
  | n + 1, i, dest =>
    if i < bmapRadix ∧ i < count then
      if v.getLsbD i then do
        let free ← (blistFree k dest (blk + i) 1).inr
        copyBits v blk count n (i + 1) { dest with blFree := free }
      else copyBits v blk count n (i + 1) dest
    else return dest.blFree

def copyLoop (child : (i blk count : Nat) → Blist → CopyProg Nat) (scan radix skip nextSkip : Nat) :
    Nat → (i blk count : Nat) → Blist → CopyProg Nat
  | 0, _, _, _, _ => .outOfFuel
  | n + 1, i, blk, count, dest =>
    if count ≠ 0 ∧ i ≤ skip then do
      let m ← Prog.get (.inl (scan + i))
      if m.bmBighint = terminator then return dest.blFree
      else if count ≥ radix then
        let free ← child i blk radix dest
        copyLoop child scan radix skip nextSkip n (i + nextSkip) (blk + radix) (count - radix)
          { dest with blFree := free }
      else
        let free ← child i blk count dest
        copyLoop child scan radix skip nextSkip n (i + nextSkip) (blk + radix) 0
          { dest with blFree := free }
    else return dest.blFree

def blstCopy : Nat → (scan blk radix skip : Nat) → (dest : Blist) → (count : Nat) → CopyProg Nat
  | levels, scan, blk, radix, skip, dest, count =>
    if radix = bmapRadix then do
      let v := (← Prog.get (.inl scan)).bmuBitmap
      if v = BitVec.allOnes 64 then (blistFree k dest blk count).inr
      else if v ≠ 0 then copyBits k v blk count (bmapRadix + 1) 0 dest
      else return dest.blFree
    else
      match levels with
      | 0 => .outOfFuel
      | levels + 1 => do
        let m ← Prog.get (.inl scan)
        if m.bmuAvail = 0 then return dest.blFree
        else if m.bmuAvail = radix then
          (blistFree k dest blk (if count < radix then count else radix)).inr
        else
          let radix := radix / metaRadix
          let nextSkip := skip / metaRadix
          copyLoop (fun i blk count dest =>
              blstCopy levels (scan + i) blk radix (nextSkip - 1) dest count)
            scan radix skip nextSkip turns 1 blk count dest

end Copy

end Mbsd.Kern.SubrBlist.Access
