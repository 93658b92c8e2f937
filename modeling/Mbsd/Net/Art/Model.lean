import Mathlib.Algebra.GroupWithZero.Nat
import Mbsd.Sys

/-! The allotment routing table of `net/art.c`.  A table and its heap are one object of a store,
and a pointer to either is the number of the object.  `none` as the outcome of a function is a
failed assertion, a panic or a loop that does not end. -/

namespace Mbsd.Net.Allotment

open Sys

abbrev Ptr := Nat

structure ArtNode where
  an : Nat
  anAddr : List UInt8
  anPlen : Nat
  deriving DecidableEq, Repr

inductive ArtHeapEntry
  | node (an : Option ArtNode)
  | heap (heap : Ptr)
  deriving DecidableEq, Repr

/-- The node an entry points to; the code never asks for that of a heap. -/
def ArtHeapEntry.toNode : ArtHeapEntry → Option ArtNode
  | .node an => an
  | .heap _ => none

structure ArtTable where
  atHeap : Nat → ArtHeapEntry
  atParent : Option Ptr
  atIndex : Nat
  atMinfringe : Nat
  atLevel : Nat
  atBits : Nat
  atOffset : Nat
  atRefcnt : Int

/-- A routing table with the memory its tables live in.  `pool n` says whether the allocation that
would return `n` succeeds. -/
structure Art where
  artRoot : Option Ptr
  artLevels : List Nat
  artAlen : Nat
  mem : Ptr → ArtTable
  next : Ptr
  pool : Ptr → Bool
  artTableGcList : Option Ptr

def artHeapIdxDefault : Nat := 1

def noIndex : Nat := 2 ^ 32 - 1

namespace Art

def modify (art : Art) (p : Ptr) (f : ArtTable → ArtTable) : Art :=
  { art with mem := Function.update art.mem p (f (art.mem p)) }

def entry (art : Art) (p : Ptr) (k : Nat) : ArtHeapEntry := (art.mem p).atHeap k

def setEntry (art : Art) (p : Ptr) (k : Nat) (ahe : ArtHeapEntry) : Art :=
  art.modify p fun at_ => { at_ with atHeap := Function.update at_.atHeap k ahe }

/-- Where the route for an index of a heap is stored: in the default entry of the table below, if
there is one. -/
def slot (art : Art) (p : Ptr) (k : Nat) : Ptr × Nat :=
  match art.entry p k with
  | .node _ => (p, k)
  | .heap q => (q, artHeapIdxDefault)

end Art

def artPlen32Levels : List Nat := [8, 4, 4, 4, 4, 4, 4]

def artPlen128Levels : List Nat := List.replicate 32 4

def artPlen20Levels : List Nat := [4, 4, 4, 4, 4]

def artLevelsOf : Nat → Option (List Nat)
  | 32 => some artPlen32Levels
  | 128 => some artPlen128Levels
  | 20 => some artPlen20Levels
  | _ => none

def unusedTable : ArtTable := ⟨fun _ => .node none, none, 0, 0, 0, 0, 0, 0⟩

def artInit (pool : Ptr → Bool) (alen : Nat) : Option Art := do
  let levels ← artLevelsOf alen
  kassert (alen = levels.sum)
  some { artRoot := none
         artLevels := levels
         artAlen := alen
         mem := fun _ => unusedTable
         next := 0
         pool := pool
         artTableGcList := none }

def artBindex (offset bits : Nat) (addr : List UInt8) (plen : Nat) : Option Nat := do
  kassert (offset ≤ plen)
  kassert (plen ≤ offset + bits)
  let plen := plen - offset
  let byte (i : Nat) : Nat := (addr.getD (offset / 8 + i) 0).toNat
  let boff := offset % 8
  let bend := bits + boff
  kassert (bend ≤ 32)
  let k :=
    if bend > 24 then
      ((byte 0 &&& ((1 <<< (8 - boff)) - 1)) <<< (bend - 8)) ||| (byte 1 <<< (bend - 16)) |||
        (byte 2 <<< (bend - 24)) ||| (byte 3 >>> (32 - bend))
    else if bend > 16 then
      ((byte 0 &&& ((1 <<< (8 - boff)) - 1)) <<< (bend - 8)) ||| (byte 1 <<< (bend - 16)) |||
        (byte 2 >>> (24 - bend))
    else if bend > 8 then
      ((byte 0 &&& ((1 <<< (8 - boff)) - 1)) <<< (bend - 8)) ||| (byte 1 >>> (16 - bend))
    else (byte 0 >>> (8 - bend)) &&& ((1 <<< bits) - 1)
  some ((k >>> (bits - plen)) + (1 <<< plen))

/-- The loop of `art_match`, with the stride lengths of the levels that are left. -/
def artMatchLoop (art : Art) (addr : List UInt8) :
    List Nat → Nat → Ptr → ArtHeapEntry → Option (Option ArtNode)
  | [], _, _, _ => none
  | bits :: levels, offset, heap, dahe => do
    let p := offset + bits
    let ahe := art.entry heap artHeapIdxDefault
    let dahe := if ahe ≠ .node none then ahe else dahe
    let j ← artBindex offset bits addr p
    match art.entry heap j with
    | .node (some an) => some (some an)
    | .node none => some dahe.toNode
    | .heap heap => artMatchLoop art addr levels p heap dahe

def artMatch (art : Art) (addr : List UInt8) : Option (Option ArtNode) :=
  match art.artRoot with
  | none => some none
  | some heap => artMatchLoop art addr art.artLevels 0 heap (.node none)

/-- Whether two addresses agree on `n` bytes from byte `i` on. -/
def sameBytes (a b : List UInt8) (i n : Nat) : Bool :=
  (List.range n).all fun j => a.getD (i + j) 0 == b.getD (i + j) 0

def artNodeCheck (an : ArtNode) (addr : List UInt8) (plen : Nat) : Bool :=
  if an.anPlen ≠ plen then false
  else if !(List.range (plen / 32)).all fun i => sameBytes an.anAddr addr (4 * i) 4 then false
  else
    let i := plen / 32 * 4
    let plen := plen % 32
    if plen = 0 then true
    else if !sameBytes an.anAddr addr i (plen / 8) then false
    else
      let i := i + plen / 8
      let plen := plen % 8
      if plen = 0 then true
      else
        let shift := 8 - plen
        (an.anAddr.getD i 0).toNat >>> shift == (addr.getD i 0).toNat >>> shift

/-- The loop of `art_lookup`: the table that the prefix belongs to, with its offset and stride
length, or none. -/
def artLookupLoop (art : Art) (addr : List UInt8) (plen : Nat) :
    List Nat → Nat → Ptr → Option (Option (Nat × Nat × Ptr))
  | [], _, _ => none
  | bits :: levels, offset, heap =>
    let p := offset + bits
    if plen ≤ p then some (some (offset, bits, heap))
    else do
      let j ← artBindex offset bits addr p
      match art.entry heap j with
      | .node _ => some none
      | .heap heap => artLookupLoop art addr plen levels p heap

def artLookup (art : Art) (addr : List UInt8) (plen : Nat) : Option (Option ArtNode) := do
  kassert (plen ≤ art.artAlen)
  match art.artRoot with
  | none => some none
  | some heap =>
    if plen = 0 then some (art.entry heap artHeapIdxDefault).toNode
    else
      match ← artLookupLoop art addr plen art.artLevels 0 heap with
      | none => some none
      | some (offset, bits, heap) =>
        let i ← artBindex offset bits addr plen
        let ahep := art.slot heap i
        match (art.entry ahep.1 ahep.2).toNode with
        | some an => some (if artNodeCheck an addr plen then some an else none)
        | none => some none

def artIsEmpty (art : Art) : Bool := art.artRoot = none

/-- The first component is `none` if there is no memory. -/
def artTableGet (art : Art) (parent : Option Ptr) (j : Nat) : Option (Option Ptr × Art) := do
  kassert (j ≠ 0 ∧ j ≠ artHeapIdxDefault)
  kassert (parent ≠ none ∨ j = noIndex)
  let level := match parent with
    | some parent => (art.mem parent).atLevel + 1
    | none => 0
  kassert (level < art.artLevels.length)
  let bits := art.artLevels.getD level 0
  kassert (bits = 4 ∨ bits = 8)
  let at_ := art.next
  if art.pool at_ = false then some (none, { art with next := at_ + 1 })
  else
    let heap : Nat → ArtHeapEntry := fun _ => .node none
    some (some at_, { art with
      next := at_ + 1
      mem := Function.update art.mem at_
        { atHeap := match parent with
            | some parent => Function.update heap artHeapIdxDefault (art.entry parent j)
            | none => heap
          atParent := parent
          atIndex := j
          atMinfringe := 1 <<< bits
          atLevel := level
          atBits := bits
          atOffset := match parent with
            | some parent => (art.mem parent).atOffset + (art.mem parent).atBits
            | none => 0
          atRefcnt := 0 } })

def artTableRef (art : Art) (p : Ptr) : Art :=
  art.modify p fun at_ => { at_ with atRefcnt := at_.atRefcnt + 1 }

inductive AllotPc | again | fringe | nonfringe | moveon | moveup
  deriving DecidableEq, Repr

def artAllotFrom (p : Ptr) (i : Nat) (oahe nahe : ArtHeapEntry) :
    Nat → AllotPc → Nat → Art → Option Art
  | 0, _, _, _ => none
  | fuel + 1, .again, k, art =>
    let k := k <<< 1
    if k < (art.mem p).atMinfringe then artAllotFrom p i oahe nahe fuel .nonfringe k art
    else artAllotFrom p i oahe nahe fuel .fringe k art
  | fuel + 1, .fringe, k, art =>
    let ahep := art.slot p k
    let art := if art.entry ahep.1 ahep.2 = oahe then art.setEntry ahep.1 ahep.2 nahe else art
    if k % 2 ≠ 0 then artAllotFrom p i oahe nahe fuel .moveup k art
    else artAllotFrom p i oahe nahe fuel .fringe (k + 1) art
  | fuel + 1, .nonfringe, k, art =>
    if art.entry p k = oahe then artAllotFrom p i oahe nahe fuel .again k art
    else artAllotFrom p i oahe nahe fuel .moveon k art
  | fuel + 1, .moveon, k, art =>
    if k % 2 ≠ 0 then artAllotFrom p i oahe nahe fuel .moveup k art
    else artAllotFrom p i oahe nahe fuel .nonfringe (k + 1) art
  | fuel + 1, .moveup, k, art =>
    let k := k >>> 1
    let art := art.setEntry p k nahe
    if k ≠ i then artAllotFrom p i oahe nahe fuel .moveon k art else some art

def artAllot (art : Art) (p : Ptr) (i : Nat) (oahe nahe : ArtHeapEntry) : Option Art := do
  kassert (i < (art.mem p).atMinfringe)
  artAllotFrom p i oahe nahe (5 * (art.mem p).atMinfringe) .again i art

/-- The loop of `art_insert`, which makes the tables that are missing.  The first component of
the outcome is the table that the prefix belongs to, or `none` if there is no memory. -/
def artInsertLoop (an : ArtNode) : Nat → Ptr → Art → Option (Option Ptr × Art)
  | 0, _, _ => none
  | fuel + 1, at_, art =>
    let p := (art.mem at_).atOffset + (art.mem at_).atBits
    if p < an.anPlen then do
      let j ← artBindex (art.mem at_).atOffset (art.mem at_).atBits an.anAddr p
      match art.entry at_ j with
      | .node ahe =>
        match ← artTableGet art (some at_) j with
        | (none, art) => some (none, art)
        | (some child, art) =>
          let art := artTableRef art at_
          let art := art.setEntry child artHeapIdxDefault (.node ahe)
          let art := art.setEntry at_ j (.heap child)
          artInsertLoop an fuel child art
      | .heap child => artInsertLoop an fuel child art
    else some (some at_, art)

/-- `art_insert` in the table that the prefix belongs to. -/
def artInsertAt (art : Art) (at_ : Ptr) (an : ArtNode) : Option (Option ArtNode × Art) := do
  let i ← artBindex (art.mem at_).atOffset (art.mem at_).atBits an.anAddr an.anPlen
  let ahep := art.slot at_ i
  let oahe := art.entry ahep.1 ahep.2
  if (oahe.toNode.any fun oan => artNodeCheck oan an.anAddr an.anPlen) then some (oahe.toNode, art)
  else
    let art := artTableRef art at_
    if i < (art.mem at_).atMinfringe then do
      let art ← artAllot art at_ i oahe (.node (some an))
      some (some an, art)
    else some (some an, art.setEntry ahep.1 ahep.2 (.node (some an)))

def artInsertRoot (art : Art) (root : Ptr) (an : ArtNode) : Option (Option ArtNode × Art) :=
  if an.anPlen = 0 then
    match (art.entry root artHeapIdxDefault).toNode with
    | some oan => some (some oan, art)
    | none => some (some an,
        (artTableRef art root).setEntry root artHeapIdxDefault (.node (some an)))
  else do
    match ← artInsertLoop an art.artLevels.length root art with
    | (none, art) => some (none, art)
    | (some at_, art) => artInsertAt art at_ an

def artInsert (art : Art) (an : ArtNode) : Option (Option ArtNode × Art) := do
  kassert (an.anPlen ≤ art.artAlen)
  match art.artRoot with
  | some root => artInsertRoot art root an
  | none =>
    match ← artTableGet art none noIndex with
    | (none, art) => some (none, art)
    | (some root, art) => artInsertRoot { art with artRoot := some root } root an

def artTableRele (art : Art) : Option Ptr → Bool × Art
  | none => (false, art)
  | some p =>
    let art := art.modify p fun at_ => { at_ with atRefcnt := at_.atRefcnt - 1 }
    ((art.mem p).atRefcnt = 0, art)

def artTablePut (art : Art) (p : Ptr) : Option (Option Ptr × Art) := do
  let at_ := art.mem p
  let j := at_.atIndex
  kassert (at_.atRefcnt = 0)
  kassert (j ≠ 0 ∧ j ≠ 1)
  match at_.atParent with
  | some parent =>
    kassert (j ≠ noIndex)
    kassert (at_.atLevel = (art.mem parent).atLevel + 1)
    kassert ((art.mem parent).atRefcnt ≥ 1)
    let art := art.setEntry parent j (art.entry p artHeapIdxDefault)
    let art := art.modify p fun at_ => { at_ with atParent := art.artTableGcList }
    some (some parent, { art with artTableGcList := some p })
  | none =>
    kassert (j = noIndex)
    kassert (at_.atLevel = 0)
    let art := { art with artRoot := none }
    let art := art.modify p fun at_ => { at_ with atParent := art.artTableGcList }
    some (none, { art with artTableGcList := some p })

/-- The loop of `art_table_free`: `at_` has lost a reference, and goes if it was the last one. -/
def artTableFreeLoop : Nat → Option Ptr → Art → Option Art
  | 0, _, _ => none
  | fuel + 1, at_, art =>
    match at_, artTableRele art at_ with
    | some p, (true, art) => do
      let r ← artTablePut art p
      artTableFreeLoop fuel r.1 r.2
    | _, (_, art) => some art

def artTableFree (art : Art) (p : Ptr) : Option Art :=
  artTableFreeLoop (art.artLevels.length + 1) (some p) art

def artDeleteLoop (art : Art) (addr : List UInt8) (plen : Nat) : Nat → Ptr → Option (Option Ptr)
  | 0, _ => none
  | fuel + 1, at_ =>
    let p := (art.mem at_).atOffset + (art.mem at_).atBits
    if p < plen then do
      let j ← artBindex (art.mem at_).atOffset (art.mem at_).atBits addr p
      match art.entry at_ j with
      | .node _ => some none
      | .heap child => artDeleteLoop art addr plen fuel child
    else some (some at_)

/-- `art_delete` in the table that the prefix belongs to. -/
def artDeleteAt (art : Art) (at_ : Ptr) (addr : List UInt8) (plen : Nat) :
    Option (Option ArtNode × Art) := do
  let i ← artBindex (art.mem at_).atOffset (art.mem at_).atBits addr plen
  let ahep := art.slot at_ i
  let ahe := art.entry ahep.1 ahep.2
  match ahe.toNode with
  | none => some (none, art)
  | some an =>
    let j := i >>> 1
    let pahe := if j > 1 then art.entry at_ j else .node none
    let art ← if i < (art.mem at_).atMinfringe then artAllot art at_ i ahe pahe
      else some (art.setEntry ahep.1 ahep.2 pahe)
    let art ← artTableFree art at_
    some (some an, art)

def artDelete (art : Art) (addr : List UInt8) (plen : Nat) : Option (Option ArtNode × Art) := do
  kassert (plen ≤ art.artAlen)
  match art.artRoot with
  | none => some (none, art)
  | some root =>
    if plen = 0 then
      match (art.entry root artHeapIdxDefault).toNode with
      | none => some (none, art)
      | some an =>
        let art ← artTableFree (art.setEntry root artHeapIdxDefault (.node none)) root
        some (some an, art)
    else
      match ← artDeleteLoop art addr plen art.artLevels.length root with
      | none => some (none, art)
      | some at_ => artDeleteAt art at_ addr plen

end Mbsd.Net.Allotment
