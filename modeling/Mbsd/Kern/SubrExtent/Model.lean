import Mathlib.Algebra.Group.Nat.Defs
import Mbsd.Sys

/-! Extent maps: `extent_create`, `extent_alloc_region`, `extent_alloc_subregion` and `extent_free`.
A panic has no result.  Descriptors come from outside: a flag says whether there was one. -/

namespace Mbsd.Kern.SubrExtent

open Sys

structure Region where
  erStart : BitVec 64
  erEnd : BitVec 64
  deriving DecidableEq, Repr

structure Extent where
  exRegions : List Region
  exStart : BitVec 64
  exEnd : BitVec 64
  exFlags : BitVec 32
  deriving DecidableEq, Repr

def exfNocoalesce : BitVec 32 := 0x02

def exfWanted : BitVec 32 := 0x04

def exFast : BitVec 32 := 0x0002

def exNocoalesce : BitVec 32 := 0x0008

def exWaitspace : BitVec 32 := 0x0020

def exBoundzero : BitVec 32 := 0x0040

def exConflictok : BitVec 32 := 0x0080

def exFilled : BitVec 32 := 0x0100

def isset (flags flag : BitVec 32) : Bool := flags &&& flag ≠ 0

def Extent.nocoalesce (ex : Extent) : Bool := isset ex.exFlags exfNocoalesce

/-- What a call returns; one that sleeps starts over when it is woken up. -/
inductive Outcome (α : Type) where
  | done (a : α)
  | error (e : Errno)
  | sleep
  deriving DecidableEq, Repr

def extentAlign (start align skew : BitVec 64) : BitVec 64 :=
  (((start - skew) + (align - 1)) &&& (-align)) + skew

def extentCreate (start stop : BitVec 64) (flags : BitVec 32) (descr : Bool) :
    Option (Option Extent) :=
  if stop < start then none
  else
    let ex : Extent := {
      exRegions := []
      exStart := start
      exEnd := stop
      exFlags := if isset flags exNocoalesce then exfNocoalesce else 0 }
    if isset flags exFilled then
      if descr then some (some { ex with exRegions := [⟨start, stop⟩] }) else some none
    else some (some ex)

/-- The region list with a new region between `before`, which ends with `after` of the source, and
the regions behind it. -/
def extentInsertAndOptimize (ex : Extent) (start size : BitVec 64) (before rest : List Region) :
    List Region :=
  let rp : Region := { erStart := start, erEnd := start + (size - 1) }
  match before.getLast? with
  | none =>
    match rest with
    | [] => [rp]
    | nextr :: l =>
      if !ex.nocoalesce && start + size = nextr.erStart then { nextr with erStart := start } :: l
      else rp :: rest
  | some after =>
    if ex.nocoalesce then before ++ rp :: rest
    else
      let appended : Bool := after.erEnd + 1 = start
      match rest with
      | [] => if appended then before.dropLast ++ [{ after with erEnd := rp.erEnd }] else before ++ [rp]
      | nextr :: l =>
        if start + size = nextr.erStart then
          if appended then before.dropLast ++ { after with erEnd := nextr.erEnd } :: l
          else before ++ { nextr with erStart := start } :: l
        else if appended then before.dropLast ++ { after with erEnd := rp.erEnd } :: rest
        else before ++ rp :: rest

/-- The search for a place: free behind `before`, or in conflict with a region. -/
inductive Place where
  | free (before rest : List Region)
  | conflict (before : List Region) (rp : Region) (rest : List Region)

def findPlace (start stop : BitVec 64) (before : List Region) : List Region → Place
  | [] => .free before []
  | rp :: l =>
    if rp.erStart > stop then .free before (rp :: l)
    else if rp.erEnd ≥ start then .conflict before rp l
    else findPlace start stop (before ++ [rp]) l

/-- From `alloc_start` on.  With `EX_CONFLICTOK` each restart leaves a region behind. -/
def allocRegionLoop (flags : BitVec 32) :
    Nat → Extent → (start size stop : BitVec 64) → Option (Outcome Unit × Extent)
  | 0, _, _, _, _ => none
  | fuel + 1, ex, start, size, stop =>
    match findPlace start stop [] ex.exRegions with
    | .free before rest =>
      some (.done (), { ex with exRegions := extentInsertAndOptimize ex start size before rest })
    | .conflict before rp rest =>
      if isset flags exWaitspace then
        some (.sleep, { ex with exFlags := ex.exFlags ||| exfWanted })
      else if isset flags exConflictok then
        if rp.erStart ≤ start then
          if rp.erEnd < ex.exEnd then
            allocRegionLoop flags fuel ex (rp.erEnd + 1) (stop - (rp.erEnd + 1) + 1) stop
          else some (.done (), ex)
        else if rp.erEnd < stop then
          allocRegionLoop flags fuel { ex with exRegions := before ++ rest } start size stop
        else if rp.erStart < stop ∧ rp.erStart > ex.exStart then
          allocRegionLoop flags fuel ex start (rp.erStart - 1 - start + 1) (rp.erStart - 1)
        else some (.done (), ex)
      else some (.error .EAGAIN, ex)

def extentDoAllocRegion (ex : Extent) (start size : BitVec 64) (flags : BitVec 32) :
    Option (Outcome Unit × Extent) :=
  let stop := start + (size - 1)
  if size < 1 ∨ stop < start ∨ isset flags exConflictok ∧ isset flags exWaitspace then none
  else if start < ex.exStart ∨ stop > ex.exEnd then none
  else allocRegionLoop flags (ex.exRegions.length + 1) ex start size stop

def extentAllocRegion (ex : Extent) (start size : BitVec 64) (flags : BitVec 32) (descr : Bool) :
    Option (Outcome Unit × Extent) :=
  if !descr then some (.error .ENOMEM, ex) else extentDoAllocRegion ex start size flags

def leOv (x y z : BitVec 64) : Bool := x + y ≥ x && x + y ≤ z

structure AllocArgs where
  substart : BitVec 64
  subend : BitVec 64
  size : BitVec 64
  alignment : BitVec 64
  skew : BitVec 64
  boundary : BitVec 64
  flags : BitVec 32

inductive Chunk where
  | fits (newstart : BitVec 64)
  | skip
  | fail

def dontcross (ex : Extent) (a : AllocArgs) (newstart : BitVec 64) : BitVec 64 :=
  extentAlign (newstart + 1) a.boundary (if isset a.flags exBoundzero then 0 else ex.exStart) - 1

/-- If we run past the end of the extent or the boundary overflows, the request cannot fit. -/
def checkEnd (ex : Extent) (size newstart dontcross : BitVec 64) : Chunk :=
  if newstart + size - 1 > ex.exEnd ∨ dontcross < newstart then .fail else .fits newstart

/-- The boundary check, for a chunk in which what starts at `newstart` fits if `fit` says so. -/
def checkBoundary (ex : Extent) (a : AllocArgs) (fit : BitVec 64 → Bool) (newstart : BitVec 64) :
    Chunk :=
  if a.boundary = 0 then .fits newstart
  else
    let newend := newstart + (a.size - 1)
    let dontcross := dontcross ex a newstart
    if dontcross < ex.exStart then checkEnd ex a.size newstart ex.exEnd
    else if newend > dontcross then
      let newstart := dontcross + 1
      if !fit newstart then .skip else checkEnd ex a.size newstart (dontcross + a.boundary)
    else checkEnd ex a.size newstart dontcross

def checkChunk (ex : Extent) (a : AllocArgs) (fit : BitVec 64 → Bool) (newstart : BitVec 64) :
    Chunk :=
  if fit newstart then checkBoundary ex a fit newstart else .skip

/-- A place for the new region: where it starts, and the regions before and behind it. -/
structure Fit where
  newstart : BitVec 64
  before : List Region
  rest : List Region

/-- `bestovh` with `beststart` and `bestlast`; the overhead is 0 as long as there is none. -/
structure Best where
  bestovh : BitVec 64
  best : Fit

def Best.update (b : Best) (ovh : BitVec 64) (fit : Fit) : Best :=
  if b.bestovh = 0 ∨ ovh < b.bestovh then { bestovh := ovh, best := fit } else b

def Best.giveUp (b : Best) (flags : BitVec 32) : Option Fit :=
  if !isset flags exFast && b.bestovh ≠ 0 then some b.best else none

def scanEnd (ex : Extent) (a : AllocArgs) (newstart : BitVec 64) (before rest : List Region)
    (exend : BitVec 64) (b : Best) : Option Fit :=
  match checkChunk ex a (fun x => leOv x (a.size - 1) a.subend) newstart with
  | .fits newstart =>
    let ovh := exend - newstart - (a.size - 1)
    if isset a.flags exFast ∨ ovh = 0 then some { newstart, before, rest }
    else (b.update ovh { newstart, before, rest }).giveUp a.flags
  | _ => b.giveUp a.flags

def scan (ex : Extent) (a : AllocArgs) (newstart : BitVec 64) (before : List Region) (b : Best) :
    List Region → Option Fit
  | [] => scanEnd ex a newstart before [] ex.exEnd b
  | rp :: l =>
    if rp.erStart > a.subend then scanEnd ex a newstart before (rp :: l) rp.erStart b
    else
      let next (b : Best) :=
        let newstart := extentAlign (rp.erEnd + 1) a.alignment a.skew
        if newstart < rp.erEnd then b.giveUp a.flags
        else scan ex a newstart (before ++ [rp]) b l
      match checkChunk ex a (fun x => leOv x a.size rp.erStart) newstart with
      | .fits newstart =>
        let ovh := rp.erStart - newstart - a.size
        let fit : Fit := { newstart, before, rest := rp :: l }
        if isset a.flags exFast ∨ ovh = 0 then some fit else next (b.update ovh fit)
      | .skip => next b
      | .fail => b.giveUp a.flags

def lastBefore (newstart : BitVec 64) (l : List Region) : List Region :=
  l.takeWhile fun rp => !(rp.erStart ≥ newstart)

/-- Where the search starts: behind the last region that begins before, if that overlaps. -/
def relocate (a : AllocArgs) (newstart : BitVec 64) (before : List Region) : BitVec 64 :=
  match before.getLast? with
  | none => newstart
  | some last =>
    if last.erEnd ≥ newstart then extentAlign (last.erEnd + 1) a.alignment a.skew else newstart

def extentDoAlloc (ex : Extent) (a : AllocArgs) : Option (Outcome (BitVec 64) × Extent) :=
  if a.substart < ex.exStart ∨ a.substart > ex.exEnd ∨ a.subend > ex.exEnd ∨
      a.subend < ex.exStart then none
  else if a.size < 1 ∨ a.size - 1 > a.subend - a.substart then none
  else if a.alignment = 0 then none
  else if a.boundary ≠ 0 ∧ a.boundary < a.size then none
  else
    let newstart := extentAlign a.substart a.alignment a.skew
    if newstart < ex.exStart then none
    else
      let before := lastBefore newstart ex.exRegions
      let rest := ex.exRegions.drop before.length
      let b : Best := { bestovh := 0, best := { newstart := 0, before := [], rest := ex.exRegions } }
      match scan ex a (relocate a newstart before) before b rest with
      | some fit =>
        some (.done fit.newstart,
          { ex with exRegions :=
              extentInsertAndOptimize ex fit.newstart a.size fit.before fit.rest })
      | none =>
        if isset a.flags exWaitspace then
          some (.sleep, { ex with exFlags := ex.exFlags ||| exfWanted })
        else some (.error .EAGAIN, ex)

def extentAllocSubregion (ex : Extent) (a : AllocArgs) (descr : Bool) :
    Option (Outcome (BitVec 64) × Extent) :=
  if !descr then some (.error .ENOMEM, ex) else extentDoAlloc ex a

/-- What `extent_free` does with a region: go on, leave the loop, or leave it for `done`.  The list
is what stays of the region. -/
inductive FreeStep where
  | next (kept : List Region)
  | stop
  | done (kept : List Region)

def freeRegion (nocoalesce conflictok : Bool) (start stop : BitVec 64) (rp : Region) : FreeStep :=
  if rp.erEnd < start then .next [rp]
  else if rp.erStart > stop then .stop
  else if start = rp.erStart ∧ stop = rp.erEnd then .done []
  else if nocoalesce then .next [rp]
  else if start = rp.erStart ∧ stop < rp.erEnd then .done [{ rp with erStart := stop + 1 }]
  else if start > rp.erStart ∧ stop = rp.erEnd then .done [{ rp with erEnd := start - 1 }]
  else if start > rp.erStart ∧ stop < rp.erEnd then
    .done [{ rp with erEnd := start - 1 }, { erStart := stop + 1, erEnd := rp.erEnd }]
  else if !conflictok then .next [rp]
  else if start ≤ rp.erStart ∧ stop ≥ rp.erEnd then .next []
  else
    let rp :=
      if start ≤ rp.erStart ∧ stop ≥ rp.erStart then { rp with erStart := stop + 1 } else rp
    let rp := if start ≤ rp.erEnd ∧ stop ≥ rp.erEnd then { rp with erEnd := start - 1 } else rp
    .next [rp]

/-- Takes a range out of the regions; also says whether the loop was left for `done`. -/
def freeLoop (nocoalesce conflictok : Bool) (start stop : BitVec 64) :
    List Region → List Region × Bool
  | [] => ([], false)
  | rp :: l =>
    match freeRegion nocoalesce conflictok start stop rp with
    | .next kept =>
      let (l, done) := freeLoop nocoalesce conflictok start stop l
      (kept ++ l, done)
    | .stop => (rp :: l, false)
    | .done kept => (kept ++ l, true)

def extentFree (ex : Extent) (start size : BitVec 64) (flags : BitVec 32) (descr : Bool) :
    Option (Outcome Unit × Extent) :=
  let stop := start + (size - 1)
  if start < ex.exStart ∨ stop > ex.exEnd ∨ stop < start then none
  else if !ex.nocoalesce && !descr then some (.error .ENOMEM, ex)
  else
    let conflictok := isset flags exConflictok
    let (exRegions, done) := freeLoop ex.nocoalesce conflictok start stop ex.exRegions
    if !done && !conflictok then none
    else some (.done (), { ex with exRegions, exFlags := ex.exFlags &&& ~~~exfWanted })

end Mbsd.Kern.SubrExtent
