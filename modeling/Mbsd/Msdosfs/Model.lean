import Mbsd.Lib.Bitmap
import Mbsd.Sys

/-! The FAT, the map of used clusters and the files of `msdosfs/msdosfs_fat.c` and
`msdosfs/msdosfs_denode.c`.  All block I/O succeeds, and the buffer cache reads what was last
written.  Each loop over what is on the disk has a bound on its rounds, and `none` as the outcome
of a function is a bound that is too small. -/

namespace Mbsd.Msdosfs

open Sys

abbrev Byte := BitVec 8

abbrev Word := BitVec 32

def msdosfsroot : Nat := 0

def msdosfsfree : Word := 0

def clustFirst : Nat := 2

def clustRsrvd : Word := 0xfffffff6

def clustEofs : Word := 0xfffffff8

def clustEofe : Word := 0xffffffff

def devBsize : Nat := 512

def maxbsize : Nat := 65536

def nInusebits : Nat := 32

inductive FatType | fat12 | fat16 | fat32
  deriving DecidableEq

namespace FatType

def fatmask : FatType → Word
  | fat12 => 0x00000fff
  | fat16 => 0x0000ffff
  | fat32 => 0x0fffffff

def fatmult : FatType → Nat
  | fat12 => 3
  | fat16 => 2
  | fat32 => 4

def fatdiv : FatType → Nat
  | fat12 => 2
  | fat16 => 1
  | fat32 => 1

end FatType

/-- What mounting finds out about a volume.  The FAT has an entry for each cluster, and the offsets
of the entries fit into 32 bits. -/
structure Layout where
  type : FatType
  bytesPerSec : Nat
  fatSecs : Nat
  rootdirsize : Nat
  maxcluster : Nat
  cnshift : Nat
  sector : 0 < bytesPerSec ∧ devBsize ∣ bytesPerSec
  entries : maxcluster < fatSecs * devBsize / type.fatmult * type.fatdiv
  offsets : maxcluster * type.fatmult < 2 ^ 32

/-- A volume the numbers of whose clusters fit into the entries. -/
structure Volume extends Layout where
  numbers : maxcluster ≤ type.fatmask.toNat

instance : Coe Volume Layout := ⟨Volume.toLayout⟩

/-- What changes of a mount, and the bytes of the current FAT. -/
structure Mount where
  inusemap : Array Word
  freeclustercount : Nat
  fat : Nat → Byte

inductive Ret
  | ok
  | error (e : Errno)
  | panic
  deriving DecidableEq

def sub32 (a b : Nat) : Nat := (a + 2 ^ 32 - b) % 2 ^ 32

section Bytes

variable (m : Nat → Byte) (p : Nat)

def getushort : Word := (m p).setWidth 32 ||| (m (p + 1)).setWidth 32 <<< 8

def getulong : Word := getushort m p ||| getushort m (p + 2) <<< 16

def putushort (x : Word) : Nat → Byte := fun q =>
  if q = p then x.setWidth 8 else if q = p + 1 then (x >>> 8).setWidth 8 else m q

def putulong (x : Word) : Nat → Byte := putushort (putushort m p x) (p + 2) (x >>> 16)

end Bytes

namespace Layout

variable (v : Layout)

def fatblocksize : Nat := if v.type = .fat12 then 3 * v.bytesPerSec else maxbsize

def fatblocksec : Nat := v.fatblocksize / devBsize

def fatsize : Nat := v.fatSecs * devBsize

def fatofs (cn : Nat) : Nat := cn * v.type.fatmult % 2 ^ 32 / v.type.fatdiv

/-- The first block, counted from the start of the current FAT, the size and the offset. -/
def fatblock (ofs : Nat) : Nat × Nat × Nat :=
  let bn := ofs / v.fatblocksize * v.fatblocksec
  (bn, min v.fatblocksec (sub32 v.fatSecs bn) * devBsize, ofs % v.fatblocksize)

/-- The place of `b_data[bo]` in the FAT for the block `bn`. -/
def place (bn bo : Nat) : Nat := bn * devBsize + bo

def entryPlace (cn : Nat) : Nat :=
  let (bn, _, bo) := v.fatblock (v.fatofs cn)
  place bn bo

def InRange (cn : Nat) : Prop := clustFirst ≤ cn ∧ cn ≤ v.maxcluster

instance (cn : Nat) : Decidable (v.InRange cn) := inferInstanceAs (Decidable (_ ∧ _))

def Reserved (cn : Word) : Prop := clustRsrvd ≤ cn ||| ~~~v.type.fatmask

instance (cn : Word) : Decidable (v.Reserved cn) := inferInstanceAs (Decidable (_ ≤ _))

def Msdosfseof (cn : Word) : Prop := (cn ||| ~~~v.type.fatmask) &&& clustEofs = clustEofs

instance (cn : Word) : Decidable (v.Msdosfseof cn) := inferInstanceAs (Decidable (_ = _))

def force (cn : Word) : Word := if v.Reserved cn then cn ||| ~~~v.type.fatmask else cn

def readEntry (m : Nat → Byte) (cn p : Nat) : Word :=
  let readcn := if v.type = .fat32 then getulong m p else getushort m p
  let readcn := if v.type = .fat12 ∧ cn % 2 = 1 then readcn >>> 4 else readcn
  readcn &&& v.type.fatmask

/-- The switch on `pm_fatmask` that changes the entry of a cluster. -/
def writeEntry (m : Nat → Byte) (cn p : Nat) (newc : Word) : Nat → Byte :=
  match v.type with
  | .fat12 =>
    let readcn := getushort m p
    putushort m p (if cn % 2 = 1 then readcn &&& (0x000f : Word) ||| newc <<< 4
      else readcn &&& (0xf000 : Word) ||| newc &&& (0xfff : Word))
  | .fat16 => putushort m p newc
  | .fat32 =>
    let readcn := getulong m p
    putulong m p (readcn &&& ~~~(0x0fffffff : Word) ||| newc &&& (0x0fffffff : Word))

section Usemap

def item (map : Array Word) (idx : Nat) : Word := map[idx]?.getD 0

def usemapAlloc (s : Mount) (cn : Nat) : Option Mount :=
  if cn ≤ v.maxcluster then
    some { s with
      inusemap := s.inusemap.setIfInBounds (cn / nInusebits)
        (item s.inusemap (cn / nInusebits) ||| 1#32 <<< (cn % nInusebits))
      freeclustercount := sub32 s.freeclustercount 1 }
  else none

def usemapFree (s : Mount) (cn : Nat) : Option Mount :=
  if cn ≤ v.maxcluster then
    some { s with
      freeclustercount := (s.freeclustercount + 1) % 2 ^ 32
      inusemap := s.inusemap.setIfInBounds (cn / nInusebits)
        (item s.inusemap (cn / nInusebits) &&& ~~~(1#32 <<< (cn % nInusebits))) }
  else none

end Usemap

/-- The old contents of an entry, and the FAT with the new ones where the entry is set. -/
def fatentry (set : Bool) (fat : Nat → Byte) (cn : Nat) (newcontents : Word) :
    Except Errno (Word × (Nat → Byte)) :=
  if cn < clustFirst ∨ cn > v.maxcluster then .error .EINVAL
  else
    let p := v.entryPlace cn
    .ok (v.force (v.readEntry fat cn p), if set then v.writeEntry fat cn p newcontents else fat)

def clusterfree (s : Mount) (cluster : Nat) : Ret × Option Word × Mount :=
  match v.usemapFree s cluster with
  | none => (.panic, none, s)
  | some s₁ =>
    match v.fatentry true s₁.fat cluster msdosfsfree with
    | .ok (oldcn, fat) => (.ok, some oldcn, { s₁ with fat })
    | .error e =>
      match v.usemapAlloc s₁ cluster with
      | none => (.panic, none, s₁)
      | some s₂ => (.error e, none, s₂)

section Chain

/-- How far the offset goes on in `fatchain`, where `start` is the next cluster. -/
def step (start : Nat) : Nat :=
  match v.type with
  | .fat12 => if start % 2 = 1 then 1 else 2
  | .fat16 => 2
  | .fat32 => 4

/-- The inner loop of `fatchain`: the next cluster, how many are left and the FAT. -/
def fatchainBlock (fillwith : Word) (bn bsize : Nat) :
    Nat → Nat → Nat → (Nat → Byte) → Nat × Nat × (Nat → Byte)
  | 0, start, _, fat => (start, 0, fat)
  | count + 1, start, bo, fat =>
    let newc := if count > 0 then BitVec.ofNat 32 (start + 1) else fillwith
    let fat := v.writeEntry fat start (place bn bo) newc
    let bo := bo + v.step (start + 1)
    if bo ≥ bsize then (start + 1, count, fat)
    else fatchainBlock fillwith bn bsize count (start + 1) bo fat

def fatchainLoop (fillwith : Word) : Nat → Nat → Nat → (Nat → Byte) → Option (Nat → Byte)
  | 0, _, _, _ => none
  | n + 1, start, count, fat =>
    if count > 0 then
      let (bn, bsize, bo) := v.fatblock (v.fatofs start)
      let (start, count, fat) := v.fatchainBlock fillwith bn bsize count start bo fat
      fatchainLoop fillwith n start count fat
    else some fat

def fatchain (n : Nat) (fat : Nat → Byte) (start count : Nat) (fillwith : Word) :
    Option (Except Errno (Nat → Byte)) :=
  if start < clustFirst ∨ sub32 (start + count) 1 > v.maxcluster then some (.error .EINVAL)
  else (v.fatchainLoop fillwith n start count fat).map .ok

/-- The loop of `chainlength`, with the rounds that are left. -/
def chainlengthLoop (map : Array Word) (count : Nat) : Nat → Nat → Nat → Nat
  | 0, _, len => len
  | r + 1, idx, len =>
    if len ≥ count then len
    else if item map (idx + 1) ≠ 0 then len + (Lib.Bitmap.ffs (item map (idx + 1)) - 1)
    else chainlengthLoop map count r (idx + 1) (len + nInusebits)

def chainlength (map : Array Word) (start count : Nat) : Nat :=
  if start > v.maxcluster then 0
  else
    let maxIdx := v.maxcluster / nInusebits
    let idx := start / nInusebits
    let start := start % nInusebits
    let word := item map idx &&& ~~~(1#32 <<< start - 1)
    if word ≠ 0 then
      min (min (Lib.Bitmap.ffs word - 1 - start) count) (v.maxcluster - start + 1)
    else if nInusebits - start ≥ count then min count (v.maxcluster - start + 1)
    else
      let len := chainlengthLoop map count (maxIdx - idx) idx (nInusebits - start)
      min (min len count) (v.maxcluster - start + 1)

def usemapAllocRun (s : Mount) (cl : Nat) : Nat → Option Mount
  | 0 => some s
  | n + 1 => (v.usemapAlloc s cl).bind fun s => usemapAllocRun s (cl + 1) n

/-- How the call ends, and what it stores in `*retcluster` and `*got`. -/
def chainalloc (n : Nat) (s : Mount) (start count : Nat) (fillwith : Word) :
    Option (Ret × Nat × Nat × Mount) :=
  match v.usemapAllocRun s start count with
  | none => some (.panic, 0, 0, s)
  | some s => do
    match ← v.fatchain n s.fat start count fillwith with
    | .error e => some (.error e, 0, 0, s)
    | .ok fat => some (.ok, start, count, { s with fat })

/-- A loop of `clusteralloc`: a cluster with `count` free ones from it on, or else the longest run
that is found with its length. -/
def clusterallocLoop (map : Array Word) (count bound : Nat) :
    Nat → Nat → Nat → Nat → Option (Option Nat × Nat × Nat)
  | 0, _, _, _ => none
  | n + 1, cn, foundcn, foundl =>
    if cn < bound then
      let idx := cn / nInusebits
      let word := item map idx ||| 1#32 <<< (cn % nInusebits) - 1
      if word ≠ BitVec.allOnes 32 then
        let cn := idx * nInusebits + Lib.Bitmap.ffs (word ^^^ BitVec.allOnes 32) - 1
        let l := v.chainlength map cn count
        if l ≥ count then some (some cn, foundcn, foundl)
        else if l > foundl then clusterallocLoop map count bound n (cn + l + 1) cn l
        else clusterallocLoop map count bound n (cn + l + 1) foundcn foundl
      else clusterallocLoop map count bound n (cn + (nInusebits - cn % nInusebits)) foundcn foundl
    else some (none, foundcn, foundl)

/-- The part of `clusteralloc` behind the first attempt, which has found `len` clusters. -/
def clusterallocFrom (n : Nat) (s : Mount) (start count len : Nat) :
    Option (Ret × Nat × Nat × Mount) := do
  let newst := (start * 1103515245 + 12345) % 2 ^ 32 % (v.maxcluster + 1)
  match ← v.clusterallocLoop s.inusemap count (v.maxcluster + 1) n newst 0 0 with
  | (some cn, _, _) => v.chainalloc n s cn count clustEofe
  | (none, foundcn, foundl) =>
    match ← v.clusterallocLoop s.inusemap count newst n 0 foundcn foundl with
    | (some cn, _, _) => v.chainalloc n s cn count clustEofe
    | (none, foundcn, foundl) =>
      if foundl = 0 then some (.error .ENOSPC, 0, 0, s)
      else if len ≠ 0 then v.chainalloc n s start len clustEofe
      else v.chainalloc n s foundcn foundl clustEofe

/-- How the call ends, and what it stores in `*retcluster` and `*got`.  The time has the
microseconds `usec`. -/
def clusteralloc (n : Nat) (s : Mount) (usec start count : Nat) :
    Option (Ret × Nat × Nat × Mount) :=
  if start ≠ 0 then
    let len := v.chainlength s.inusemap start count
    if len ≥ count then v.chainalloc n s start count clustEofe
    else v.clusterallocFrom n s start count len
  else v.clusterallocFrom n s (usec >>> 10 ||| usec) count 0

end Chain

def freeclusterchain : Nat → Mount → Nat → Option (Ret × Mount)
  | 0, _, _ => none
  | n + 1, s, cluster =>
    if v.InRange cluster then
      match v.usemapFree s cluster with
      | none => some (.panic, s)
      | some s =>
        let p := v.entryPlace cluster
        let next := v.readEntry s.fat cluster p
        let next := if v.Reserved next then next ||| v.type.fatmask else next
        freeclusterchain n { s with fat := v.writeEntry s.fat cluster p msdosfsfree } next.toNat
    else some (.ok, s)

/-- The loop of `fillinusemap` over `count` clusters from `cn` on, with the block that has been
read. -/
def fillinusemapLoop (s : Mount) : Nat → Nat → Option Nat → Option Mount
  | 0, _, _ => some s
  | count + 1, cn, bp =>
    let byteoffset := v.fatofs cn
    let bo := byteoffset % v.fatblocksize
    let bn := if bo = 0 then (v.fatblock byteoffset).1 else bp.getD (v.fatblock byteoffset).1
    let readcn := v.readEntry s.fat cn (place bn bo)
    if readcn = 0 then
      (v.usemapFree s cn).bind fun s => fillinusemapLoop s count (cn + 1) (some bn)
    else fillinusemapLoop s count (cn + 1) (some bn)

def fillinusemap (fat : Nat → Byte) : Option Mount :=
  let s : Mount := {
    inusemap := Array.replicate ((v.maxcluster + 1 + (nInusebits - 1)) / nInusebits)
      (BitVec.allOnes 32)
    freeclustercount := 0
    fat }
  v.fillinusemapLoop s (v.maxcluster + 1 - clustFirst) clustFirst none

end Layout

end Mbsd.Msdosfs
