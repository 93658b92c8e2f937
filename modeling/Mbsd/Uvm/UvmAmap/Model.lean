import Mathlib.Algebra.Group.Nat.Defs
import Mbsd.Lib.Tailq
import Mbsd.Sys

/-! Anonymous maps: `sys/uvm/uvm_amap.c`, without the list of all amaps and the waiting for memory.
Where memory may be short, what the allocator answers is an argument. -/

namespace Mbsd.Uvm.UvmAmap

open Lib Sys

def UVM_AMAP_CHUNK : Nat := 16

def INT_MAX : Nat := 2 ^ 31 - 1

/-- A sum of two `int`s, `none` when it overflows. -/
def intAdd (a b : Nat) : Option Nat := if a + b ≤ INT_MAX then some (a + b) else none

def UVM_AMAP_SLOTIDX (slot : Nat) : Nat := slot % UVM_AMAP_CHUNK

def AMAP_BASE_SLOT (slot : Nat) : Nat := slot / UVM_AMAP_CHUNK * UVM_AMAP_CHUNK

def AMAP_B2SLOT (pageShift b : Nat) : Option Nat := do
  kassert (b % 2 ^ pageShift = 0)
  some (b >>> pageShift)

abbrev Lock := Nat

structure Chunk (ι : Type) where
  acBaseslot : Nat
  acUsedmap : BitVec 16
  acNslot : Nat
  acAnon : Nat → Option ι

/-- A chunk as `pool_get` with `PR_ZERO` leaves it, with its place. -/
def Chunk.blank (ι : Type) (acBaseslot acNslot : Nat) : Chunk ι :=
  ⟨acBaseslot, 0, acNslot, fun _ => none⟩

/-- `am_ppref`: `NULL`, `PPREF_NONE` or an array. -/
inductive Ppref
  | null | none
  | array (ppref : Nat → Int)

/-- An amap whose chunks have addresses in `κ`; `amSmall` is the address of `am_small`. -/
structure Amap (κ : Type) where
  amLock : Option Lock
  amRef : Int
  shared : Bool
  swapoff : Bool
  amNslot : Nat
  amNused : Int
  amPpref : Ppref
  amBuckets : Nat → Option κ
  amChunks : List κ
  amNbuckets : Nat
  amNcused : Int
  amHashshift : Nat
  amSmall : κ

/-- `held` are the locks held for writing, `freed` the anons given to `uvm_anfree`. -/
structure Mem (κ ι : Type) where
  chunk : κ → Chunk ι
  anRef : ι → Int
  anLock : ι → Option Lock
  held : Lock → Bool
  freed : List ι

/-- What the allocator has: the memory of an amap, given by the address of its `am_small`, of a
table, and the chunk for each place in the table of an amap. -/
structure Supply (κ : Type) where
  amap : Option κ
  table : Option (Nat → Option κ)
  chunk : Nat → Option κ

variable {κ ι : Type}

abbrev Amap.UVM_AMAP_SMALL (am : Amap κ) : Prop := am.amNslot ≤ UVM_AMAP_CHUNK

def Amap.UVM_AMAP_BUCKET (am : Amap κ) (slot : Nat) : Nat :=
  (slot / UVM_AMAP_CHUNK) >>> am.amHashshift

variable [DecidableEq κ] [DecidableEq ι]

namespace Mem

variable (m : Mem κ ι)

def setChunk (chunk : κ) (c : Chunk ι) : Mem κ ι :=
  { m with chunk := Function.update m.chunk chunk c }

def bucketOf (am : Amap κ) (chunk : κ) : Nat := am.UVM_AMAP_BUCKET (m.chunk chunk).acBaseslot

def writeHeld (am : Amap κ) : Bool := am.amLock.any m.held

end Mem

/-- `am_buckets[bucket]`, and all that `TAILQ_NEXT` leads to from there; `none` when the table has
no such bucket. -/
def Amap.fromBucket (am : Amap κ) (bucket : Nat) : Option (List κ) :=
  if bucket < am.amNbuckets then
    some (match am.amBuckets bucket with
      | none => []
      | some chunk => chunk :: Tailq.after chunk am.amChunks)
  else none

/-- The search of a bucket gives the chunk, or else the last chunk of the bucket. -/
def findChunk (m : Mem κ ι) (am : Amap κ) (bucket baseslot : Nat) :
    Option κ → List κ → κ ⊕ Option κ
  | pchunk, [] => .inr pchunk
  | pchunk, chunk :: rest =>
    if m.bucketOf am chunk ≠ bucket then .inr pchunk
    else if (m.chunk chunk).acBaseslot = baseslot then .inl chunk
    else findChunk m am bucket baseslot (some chunk) rest

def amapChunkGet (m : Mem κ ι) (am : Amap κ) (slot : Nat) (create : Bool) (pool : Option κ) :
    Option (Mem κ ι × Amap κ × Option κ) := do
  let bucket := am.UVM_AMAP_BUCKET slot
  let baseslot := AMAP_BASE_SLOT slot
  if am.UVM_AMAP_SMALL then some (m, am, some am.amSmall)
  else
    let chunks ← am.fromBucket bucket
    match findChunk m am bucket baseslot none chunks with
    | .inl chunk => some (m, am, some chunk)
    | .inr pchunk =>
      if !create then some (m, am, none)
      else
        let n :=
          if UVM_AMAP_CHUNK ≤ am.amNslot - baseslot then UVM_AMAP_CHUNK else am.amNslot - baseslot
        match pool with
        | none => some (m, am, none)
        | some newchunk =>
          let am ← match pchunk with
            | none => do
              kassert (am.amBuckets bucket = none)
              some { am with
                amChunks := am.amChunks ++ [newchunk]
                amBuckets := Function.update am.amBuckets bucket (some newchunk) }
            | some pchunk =>
              some { am with amChunks := Tailq.insertAfter pchunk newchunk am.amChunks }
          some (m.setChunk newchunk (.blank ι baseslot n),
            { am with amNcused := am.amNcused + 1 }, some newchunk)

def amapChunkFree (m : Mem κ ι) (am : Amap κ) (chunk : κ) : Amap κ :=
  let bucket := m.bucketOf am chunk
  if am.UVM_AMAP_SMALL then am
  else
    let nchunk := Tailq.next chunk am.amChunks
    { am with
      amChunks := am.amChunks.erase chunk
      amBuckets :=
        if am.amBuckets bucket = some chunk then
          Function.update am.amBuckets bucket (nchunk.filter fun c => m.bucketOf am c = bucket)
        else am.amBuckets
      amNcused := am.amNcused - 1 }

section Alloc

def logChunks (chunks : Nat) (l : Nat) : Nat :=
  if 0 < chunks >>> l then logChunks chunks (l + 1) else l
termination_by chunks >>> l
decreasing_by
  rw [Nat.shiftRight_succ]
  exact Nat.div_lt_self ‹_› Nat.one_lt_two

def hashshiftFor (logChunks : Nat) (h : Nat) : Nat :=
  if 1 <<< h + 1 < logChunks then hashshiftFor logChunks (h + 1) else h
termination_by logChunks - h
decreasing_by
  have := Nat.lt_two_pow_self (n := h)
  rw [Nat.one_shiftLeft] at *
  omega

/-- The chunks that are allocated at once, from place `i` on; `none` when memory is short. -/
def allocChunks (slots buckets : Nat) (pool : Nat → Option κ) :
    Nat → Nat → Mem κ ι → Amap κ → Option (Mem κ ι × Amap κ)
  | 0, _, m, am => some (m, am)
  | todo + 1, i, m, am => do
    let n :=
      if i = buckets - 1 then
        if slots % UVM_AMAP_CHUNK = 0 then UVM_AMAP_CHUNK else slots % UVM_AMAP_CHUNK
      else UVM_AMAP_CHUNK
    let chunk ← pool i
    allocChunks slots buckets pool todo (i + 1)
      (m.setChunk chunk (.blank ι (i * UVM_AMAP_CHUNK) n))
      { am with
        amBuckets := Function.update am.amBuckets i (some chunk)
        amNcused := am.amNcused + 1
        amChunks := am.amChunks ++ [chunk] }

def amapAlloc1 (m : Mem κ ι) (slots : Nat) (lazyalloc : Bool) (pool : Supply κ) :
    Option (Mem κ ι × Option (Amap κ)) := do
  kassert (0 < slots)
  let chunks := (slots + (UVM_AMAP_CHUNK - 1)) / UVM_AMAP_CHUNK
  let hashshift := if lazyalloc then hashshiftFor (logChunks chunks 1) 0 else 0
  let chunkperbucket := 1 <<< hashshift
  match pool.amap with
  | none => some (m, none)
  | some amSmall =>
    if slots ≤ UVM_AMAP_CHUNK then
      some (m.setChunk amSmall (.blank ι 0 slots), some {
        amLock := none, amRef := 1, shared := false, swapoff := false, amNslot := slots
        amNused := 0, amPpref := .null, amBuckets := fun _ => none, amChunks := []
        amNbuckets := 0, amNcused := 0, amHashshift := 0, amSmall := amSmall })
    else
      let buckets := (chunks + (chunkperbucket - 1)) / chunkperbucket
      match pool.table with
      | none => some (m, none)
      | some table =>
        let am : Amap κ := {
          amLock := none, amRef := 1, shared := false, swapoff := false, amNslot := slots
          amNused := 0, amPpref := .null, amBuckets := if lazyalloc then fun _ => none else table
          amChunks := [], amNbuckets := buckets, amNcused := 0, amHashshift := hashshift
          amSmall := amSmall }
        if lazyalloc then some (m, some am)
        else
          match allocChunks slots buckets pool.chunk buckets 0 m am with
          | none => some (m, none)
          | some (m, am) => some (m, some am)

def amapAlloc (pageShift : Nat) (m : Mem κ ι) (sz : Nat) (lazyalloc : Bool) (pool : Supply κ)
    (lock : Lock) : Option (Mem κ ι × Option (Amap κ)) := do
  let slots ← AMAP_B2SLOT pageShift sz
  if INT_MAX < slots then some (m, none)
  else
    let (m, am) ← amapAlloc1 m slots lazyalloc pool
    some (m, am.map fun am => { am with amLock := some lock })

end Alloc

section Slots

variable (pageShift : Nat) (m : Mem κ ι) (am : Amap κ) (pageoff offset : Nat)

def amapLookup : Option (Option ι) := do
  let slot ← AMAP_B2SLOT pageShift offset
  let slot := slot + pageoff
  kassert (slot < am.amNslot)
  let (m, _, chunk) ← amapChunkGet m am slot false none
  some (chunk.bind fun chunk => (m.chunk chunk).acAnon (UVM_AMAP_SLOTIDX slot))

def chunkAnons (lcv n : Nat) : Option κ → List (Option ι)
  | none => List.replicate n none
  | some chunk => (List.range' (UVM_AMAP_SLOTIDX lcv) n).map (m.chunk chunk).acAnon

/-- The loop of `amap_lookups`, which makes at most one turn for each page. -/
def lookupsFrom (stop : Nat) : Nat → Nat → Option (List (Option ι))
  | 0, _ => some []
  | turns + 1, lcv =>
    if lcv < stop then do
      let n := UVM_AMAP_CHUNK - UVM_AMAP_SLOTIDX lcv
      let next ← intAdd lcv n
      let n := if stop < next then stop - lcv else n
      let (m, _, chunk) ← amapChunkGet m am lcv false none
      let rest ← lookupsFrom stop turns (lcv + n)
      some (chunkAnons m lcv n chunk ++ rest)
    else some []

def amapLookups (npages : Nat) : Option (List (Option ι)) := do
  let slot ← AMAP_B2SLOT pageShift offset
  let slot := slot + pageoff
  kassert ((slot : Int) + (npages - 1) < am.amNslot)
  let stop ← intAdd slot npages
  lookupsFrom m am stop npages slot

def amapPopulate (pool : Option κ) : Option (Mem κ ι × Amap κ) := do
  let slot ← AMAP_B2SLOT pageShift offset
  let slot := slot + pageoff
  kassert (slot < am.amNslot)
  let (m, am, chunk) ← amapChunkGet m am slot true pool
  kassert (chunk ≠ none)
  some (m, am)

def amapAdd (anon : ι) (replace : Bool) (pool : Option κ) : Option (Mem κ ι × Amap κ × Nat) := do
  let slot ← AMAP_B2SLOT pageShift offset
  let slot := slot + pageoff
  kassert (slot < am.amNslot)
  let (m, am, chunk) ← amapChunkGet m am slot true pool
  match chunk with
  | none => some (m, am, 1)
  | some chunk =>
    let slot := UVM_AMAP_SLOTIDX slot
    let c := m.chunk chunk
    let acAnon := Function.update c.acAnon slot (some anon)
    if replace then do
      kassert (c.acAnon slot ≠ none)
      some (m.setChunk chunk { c with acAnon := acAnon }, am, 0)
    else do
      kassert (c.acAnon slot = none)
      some (m.setChunk chunk { c with
        acUsedmap := c.acUsedmap ||| 1#16 <<< slot, acAnon := acAnon },
        { am with amNused := am.amNused + 1 }, 0)

def amapUnadd : Option (Mem κ ι × Amap κ) := do
  kassert (m.writeHeld am)
  let slot ← AMAP_B2SLOT pageShift offset
  let slot := slot + pageoff
  kassert (slot < am.amNslot)
  let (m, am, chunk) ← amapChunkGet m am slot false none
  let chunk ← chunk
  let slot := UVM_AMAP_SLOTIDX slot
  let c := m.chunk chunk
  kassert (c.acAnon slot ≠ none)
  let m := m.setChunk chunk { c with
    acAnon := Function.update c.acAnon slot none, acUsedmap := c.acUsedmap &&& ~~~(1#16 <<< slot) }
  let am := { am with amNused := am.amNused - 1 }
  some (m, if (m.chunk chunk).acUsedmap = 0 then amapChunkFree m am chunk else am)

end Slots

section Wiperange

variable (slotoff slots : Nat)

def wipeSlot (chunk : κ) (curslot : Nat) (m : Mem κ ι) (am : Amap κ) :
    Option (Mem κ ι × Amap κ) := do
  let c := m.chunk chunk
  let anon ← c.acAnon curslot
  kassert (m.anLock anon = am.amLock)
  let refs := m.anRef anon - 1
  some ({ m.setChunk chunk { c with
      acUsedmap := c.acUsedmap ^^^ 1#16 <<< curslot
      acAnon := Function.update c.acAnon curslot none } with
    anRef := Function.update m.anRef anon refs
    freed := if refs = 0 then anon :: m.freed else m.freed },
    { am with amNused := am.amNused - 1 })

def wipeMap (base : Nat) (used : BitVec 16) : BitVec 32 :=
  let startbase := AMAP_BASE_SLOT slotoff
  let endbase := AMAP_BASE_SLOT (slotoff + slots - 1)
  let map := used.setWidth 32
  let map :=
    if startbase = base then map &&& ~~~(1#32 <<< (slotoff - startbase) - 1#32) else map
  if endbase = base then map &&& (1#32 <<< (slotoff + slots - endbase) - 1#32) else map

/-- The loop of `amap_wiperange_chunk`, over the bits of `map` in a list. -/
def wipeSlots (chunk : κ) (map : BitVec 32) :
    List Nat → Mem κ ι → Amap κ → Option (Mem κ ι × Amap κ)
  | [], m, am => some (m, am)
  | i :: is, m, am =>
    if map.getLsbD i then do
      let (m, am) ← wipeSlot chunk i m am
      wipeSlots chunk map is m am
    else wipeSlots chunk map is m am

/-- `ffs` finds the bits of an `int` from the lowest on. -/
def amapWiperangeChunk (m : Mem κ ι) (am : Amap κ) (chunk : κ) : Option (Mem κ ι × Amap κ) :=
  wipeSlots chunk (wipeMap slotoff slots (m.chunk chunk).acBaseslot (m.chunk chunk).acUsedmap)
    (List.range 32) m am

def wipeChunk (chunk : κ) (m : Mem κ ι) (am : Amap κ) : Option (Mem κ ι × Amap κ) :=
  if (m.chunk chunk).acBaseslot + (m.chunk chunk).acNslot ≤ slotoff then some (m, am)
  else if slotoff + slots ≤ (m.chunk chunk).acBaseslot then some (m, am)
  else do
    let (m, am) ← amapWiperangeChunk slotoff slots m am chunk
    some (m, if (m.chunk chunk).acUsedmap = 0 then amapChunkFree m am chunk else am)

def wipeChunks : List κ → Mem κ ι → Amap κ → Option (Mem κ ι × Amap κ)
  | [], m, am => some (m, am)
  | chunk :: rest, m, am => do
    let (m, am) ← wipeChunk slotoff slots chunk m am
    wipeChunks rest m am

def wipeBucket (bucket : Nat) : List κ → Mem κ ι → Amap κ → Option (Mem κ ι × Amap κ)
  | [], m, am => some (m, am)
  | chunk :: rest, m, am =>
    if m.bucketOf am chunk ≠ bucket then some (m, am)
    else do
      let (m, am) ← wipeChunk slotoff slots chunk m am
      wipeBucket bucket rest m am

def wipeBuckets : List Nat → Mem κ ι → Amap κ → Option (Mem κ ι × Amap κ)
  | [], m, am => some (m, am)
  | bucket :: rest, m, am => do
    let chunks ← am.fromBucket bucket
    let (m, am) ← wipeBucket slotoff slots bucket chunks m am
    wipeBuckets rest m am

def amapWiperange (m : Mem κ ι) (am : Amap κ) : Option (Mem κ ι × Amap κ) := do
  kassert (m.writeHeld am)
  let startbucket := am.UVM_AMAP_BUCKET slotoff
  let endbucket := am.UVM_AMAP_BUCKET (slotoff + slots - 1)
  if am.UVM_AMAP_SMALL then amapWiperangeChunk slotoff slots m am am.amSmall
  else if am.amNcused ≤ (endbucket : Int) + 1 - startbucket then
    wipeChunks slotoff slots am.amChunks m am
  else
    wipeBuckets slotoff slots (List.range' startbucket (endbucket + 1 - startbucket)) m am

end Wiperange

end Mbsd.Uvm.UvmAmap
