import Mbsd.Lib.Run
import Mbsd.Net.Art.Model

/-! `art_insert` and `art_delete` with the memory after each of their stores, as lookups that run
at the same time see it. -/

namespace Mbsd.Net.Allotment

open Lib.Trace Lib.Trace.Traced Sys Option

/-- The heap of a new table gets its table first, which lookups do not ask for, and its default
entry last. -/
def artTableGetStores (art : Art) (parent : Option Ptr) (j : Nat) :
    Traced Art (Option Ptr × Art) := do
  match ← artTableGet art parent j with
  | (none, art) => pure (none, art)
  | (some at_, art) =>
    let _ ← visit (art.setEntry at_ artHeapIdxDefault (.node none))
    let art ← visit art
    pure (some at_, art)

def artAllotFromStores (p : Ptr) (i : Nat) (oahe nahe : ArtHeapEntry) :
    Nat → AllotPc → Nat → Art → Traced Art Art
  | 0, _, _, _ => liftM (none : Option Art)
  | fuel + 1, .again, k, art =>
    let k := k <<< 1
    if k < (art.mem p).atMinfringe then artAllotFromStores p i oahe nahe fuel .nonfringe k art
    else artAllotFromStores p i oahe nahe fuel .fringe k art
  | fuel + 1, .fringe, k, art => do
    let ahep := art.slot p k
    let art ← if art.entry ahep.1 ahep.2 = oahe then visit (art.setEntry ahep.1 ahep.2 nahe)
      else pure art
    if k % 2 ≠ 0 then artAllotFromStores p i oahe nahe fuel .moveup k art
    else artAllotFromStores p i oahe nahe fuel .fringe (k + 1) art
  | fuel + 1, .nonfringe, k, art =>
    if art.entry p k = oahe then artAllotFromStores p i oahe nahe fuel .again k art
    else artAllotFromStores p i oahe nahe fuel .moveon k art
  | fuel + 1, .moveon, k, art =>
    if k % 2 ≠ 0 then artAllotFromStores p i oahe nahe fuel .moveup k art
    else artAllotFromStores p i oahe nahe fuel .nonfringe (k + 1) art
  | fuel + 1, .moveup, k, art => do
    let k := k >>> 1
    let art ← visit (art.setEntry p k nahe)
    if k ≠ i then artAllotFromStores p i oahe nahe fuel .moveon k art else pure art

def artAllotStores (art : Art) (p : Ptr) (i : Nat) (oahe nahe : ArtHeapEntry) : Traced Art Art := do
  kassert (i < (art.mem p).atMinfringe)
  artAllotFromStores p i oahe nahe (5 * (art.mem p).atMinfringe) .again i art

def artInsertLoopStores (an : ArtNode) : Nat → Ptr → Art → Traced Art (Option Ptr × Art)
  | 0, _, _ => liftM (none : Option (Option Ptr × Art))
  | fuel + 1, at_, art =>
    let p := (art.mem at_).atOffset + (art.mem at_).atBits
    if p < an.anPlen then do
      let j ← artBindex (art.mem at_).atOffset (art.mem at_).atBits an.anAddr p
      match art.entry at_ j with
      | .node ahe =>
        match ← artTableGetStores art (some at_) j with
        | (none, art) => pure (none, art)
        | (some child, art) =>
          let art := artTableRef art at_
          let art ← visit (art.setEntry child artHeapIdxDefault (.node ahe))
          let art ← visit (art.setEntry at_ j (.heap child))
          artInsertLoopStores an fuel child art
      | .heap child => artInsertLoopStores an fuel child art
    else pure (some at_, art)

def artInsertAtStores (art : Art) (at_ : Ptr) (an : ArtNode) :
    Traced Art (Option ArtNode × Art) := do
  let i ← artBindex (art.mem at_).atOffset (art.mem at_).atBits an.anAddr an.anPlen
  let ahep := art.slot at_ i
  let oahe := art.entry ahep.1 ahep.2
  if (oahe.toNode.any fun oan => artNodeCheck oan an.anAddr an.anPlen) then pure (oahe.toNode, art)
  else
    let art := artTableRef art at_
    let art ← if i < (art.mem at_).atMinfringe then
        artAllotStores art at_ i oahe (.node (some an))
      else visit (art.setEntry ahep.1 ahep.2 (.node (some an)))
    pure (some an, art)

def artInsertRootStores (art : Art) (root : Ptr) (an : ArtNode) :
    Traced Art (Option ArtNode × Art) :=
  if an.anPlen = 0 then
    match (art.entry root artHeapIdxDefault).toNode with
    | some oan => pure (some oan, art)
    | none => do
      let art ← visit ((artTableRef art root).setEntry root artHeapIdxDefault (.node (some an)))
      pure (some an, art)
  else do
    match ← artInsertLoopStores an art.artLevels.length root art with
    | (none, art) => pure (none, art)
    | (some at_, art) => artInsertAtStores art at_ an

def artInsertStores (art : Art) (an : ArtNode) : Traced Art (Option ArtNode × Art) := do
  kassert (an.anPlen ≤ art.artAlen)
  match art.artRoot with
  | some root => artInsertRootStores art root an
  | none =>
    match ← artTableGetStores art none noIndex with
    | (none, art) => pure (none, art)
    | (some root, art) =>
      let art ← visit { art with artRoot := some root }
      artInsertRootStores art root an

def artTablePutStores (art : Art) (p : Ptr) : Traced Art (Option Ptr × Art) := do
  let at_ := art.mem p
  let j := at_.atIndex
  kassert (at_.atRefcnt = 0)
  kassert (j ≠ 0 ∧ j ≠ 1)
  match at_.atParent with
  | some parent =>
    kassert (j ≠ noIndex)
    kassert (at_.atLevel = (art.mem parent).atLevel + 1)
    kassert ((art.mem parent).atRefcnt ≥ 1)
    let art ← visit (art.setEntry parent j (art.entry p artHeapIdxDefault))
    let art := art.modify p fun at_ => { at_ with atParent := art.artTableGcList }
    pure (some parent, { art with artTableGcList := some p })
  | none =>
    kassert (j = noIndex)
    kassert (at_.atLevel = 0)
    let art ← visit { art with artRoot := none }
    let art := art.modify p fun at_ => { at_ with atParent := art.artTableGcList }
    pure (none, { art with artTableGcList := some p })

def artTableFreeLoopStores : Nat → Option Ptr → Art → Traced Art Art
  | 0, _, _ => liftM (none : Option Art)
  | fuel + 1, at_, art =>
    match at_, artTableRele art at_ with
    | some p, (true, art) => do
      let r ← artTablePutStores art p
      artTableFreeLoopStores fuel r.1 r.2
    | _, (_, art) => pure art

def artTableFreeStores (art : Art) (p : Ptr) : Traced Art Art :=
  artTableFreeLoopStores (art.artLevels.length + 1) (some p) art

def artDeleteAtStores (art : Art) (at_ : Ptr) (addr : List UInt8) (plen : Nat) :
    Traced Art (Option ArtNode × Art) := do
  let i ← artBindex (art.mem at_).atOffset (art.mem at_).atBits addr plen
  let ahep := art.slot at_ i
  let ahe := art.entry ahep.1 ahep.2
  match ahe.toNode with
  | none => pure (none, art)
  | some an =>
    let j := i >>> 1
    let pahe := if j > 1 then art.entry at_ j else .node none
    let art ← if i < (art.mem at_).atMinfringe then artAllotStores art at_ i ahe pahe
      else visit (art.setEntry ahep.1 ahep.2 pahe)
    let art ← artTableFreeStores art at_
    pure (some an, art)

def artDeleteStores (art : Art) (addr : List UInt8) (plen : Nat) :
    Traced Art (Option ArtNode × Art) := do
  kassert (plen ≤ art.artAlen)
  match art.artRoot with
  | none => pure (none, art)
  | some root =>
    if plen = 0 then
      match (art.entry root artHeapIdxDefault).toNode with
      | none => pure (none, art)
      | some an =>
        let art ← visit (art.setEntry root artHeapIdxDefault (.node none))
        let art ← artTableFreeStores art root
        pure (some an, art)
    else
      match ← artDeleteLoop art addr plen art.artLevels.length root with
      | none => pure (none, art)
      | some at_ => artDeleteAtStores art at_ addr plen

section Erase

/-! The stores are those of the functions. -/

variable {art : Art} {an : ArtNode} {p : Ptr} {i j : Nat} {oahe nahe : ArtHeapEntry}

@[simp] theorem erase_artTableGetStores (art : Art) (parent : Option Ptr) (j : Nat) :
    (artTableGetStores art parent j).erase = artTableGet art parent j := by
  rw [artTableGetStores]
  simp only [erase_bind, erase_lift]
  cases artTableGet art parent j with
  | none => rfl
  | some r =>
    obtain ⟨child, art'⟩ := r
    cases child <;> rfl

@[simp] theorem erase_artAllotFromStores (fuel : Nat) (pc : AllotPc) (k : Nat) (art : Art) :
    (artAllotFromStores p i oahe nahe fuel pc k art).erase =
      artAllotFrom p i oahe nahe fuel pc k art := by
  induction fuel generalizing pc k art with
  | zero => rfl
  | succ fuel ih =>
    cases pc with
    | again =>
      rw [artAllotFromStores, artAllotFrom]
      split <;> exact ih ..
    | fringe =>
      rw [artAllotFromStores, artAllotFrom]
      by_cases hold : art.entry (art.slot p k).1 (art.slot p k).2 = oahe
      · rw [if_pos hold, if_pos hold, erase_bind, erase_visit, bind_some]
        split <;> exact ih ..
      · rw [if_neg hold, if_neg hold, erase_bind, erase_pure, bind_some]
        split <;> exact ih ..
    | nonfringe =>
      rw [artAllotFromStores, artAllotFrom]
      split <;> exact ih ..
    | moveon =>
      rw [artAllotFromStores, artAllotFrom]
      split <;> exact ih ..
    | moveup =>
      rw [artAllotFromStores, artAllotFrom]
      simp only [erase_bind, erase_visit, bind_some]
      split
      · exact ih ..
      · rfl

@[simp] theorem erase_artAllotStores (art : Art) (p : Ptr) (i : Nat) (oahe nahe : ArtHeapEntry) :
    (artAllotStores art p i oahe nahe).erase = artAllot art p i oahe nahe := by
  simp only [artAllotStores, artAllot, erase_bind, erase_lift, erase_artAllotFromStores]
  rfl

@[simp] theorem erase_artInsertLoopStores (an : ArtNode) (fuel : Nat) (at_ : Ptr) (art : Art) :
    (artInsertLoopStores an fuel at_ art).erase = artInsertLoop an fuel at_ art := by
  induction fuel generalizing at_ art with
  | zero => rfl
  | succ fuel ih =>
    rw [artInsertLoopStores, artInsertLoop]
    split
    · simp only [erase_bind, erase_lift]
      congr 1
      funext j
      cases art.entry at_ j with
      | heap child => exact ih child art
      | node ahe =>
        simp only [erase_bind, erase_artTableGetStores]
        congr 1
        funext r
        obtain ⟨child, art'⟩ := r
        cases child with
        | none => rfl
        | some child => simp only [erase_bind, erase_visit, bind_some, ih]
    · rfl

@[simp] theorem erase_artInsertAtStores (art : Art) (at_ : Ptr) (an : ArtNode) :
    (artInsertAtStores art at_ an).erase = artInsertAt art at_ an := by
  rw [artInsertAtStores, artInsertAt]
  simp only [erase_bind, erase_lift]
  congr 1
  funext i
  split
  · rfl
  · split
    · simp only [erase_bind, erase_artAllotStores]
      rfl
    · rfl

@[simp] theorem erase_artInsertRootStores (art : Art) (root : Ptr) (an : ArtNode) :
    (artInsertRootStores art root an).erase = artInsertRoot art root an := by
  rw [artInsertRootStores, artInsertRoot]
  split
  · cases (art.entry root artHeapIdxDefault).toNode <;> rfl
  · simp only [erase_bind, erase_artInsertLoopStores]
    congr 1
    funext r
    obtain ⟨at_, art'⟩ := r
    cases at_ with
    | none => rfl
    | some at_ => exact erase_artInsertAtStores art' at_ an

theorem erase_artInsertStores (art : Art) (an : ArtNode) :
    (artInsertStores art an).erase = artInsert art an := by
  simp only [artInsertStores, artInsert, erase_bind, erase_lift]
  congr 1
  funext _
  cases art.artRoot with
  | some root => exact erase_artInsertRootStores art root an
  | none =>
    simp only [erase_bind, erase_artTableGetStores]
    congr 1
    funext r
    obtain ⟨root, art'⟩ := r
    cases root with
    | none => rfl
    | some root => simp only [erase_bind, erase_visit, bind_some, erase_artInsertRootStores]

@[simp] theorem erase_artTablePutStores (art : Art) (p : Ptr) :
    (artTablePutStores art p).erase = artTablePut art p := by
  simp only [artTablePutStores, artTablePut, erase_bind, erase_lift]
  congr 1
  funext _
  congr 1
  funext _
  cases (art.mem p).atParent with
  | none =>
    simp only [erase_bind, erase_lift, erase_visit, erase_pure, bind_some]
    rfl
  | some parent =>
    simp only [erase_bind, erase_lift, erase_visit, erase_pure, bind_some]
    rfl

@[simp] theorem erase_artTableFreeLoopStores (fuel : Nat) (at_ : Option Ptr) (art : Art) :
    (artTableFreeLoopStores fuel at_ art).erase = artTableFreeLoop fuel at_ art := by
  induction fuel generalizing at_ art with
  | zero => rfl
  | succ fuel ih =>
    rw [artTableFreeLoopStores.eq_def, artTableFreeLoop.eq_def]
    cases at_ with
    | none => rfl
    | some p =>
      simp only
      cases artTableRele art (some p) with
      | mk last art' =>
        cases last with
        | false => rfl
        | true => simp only [erase_bind, erase_artTablePutStores, ih, bind_eq_bind]

@[simp] theorem erase_artTableFreeStores (art : Art) (p : Ptr) :
    (artTableFreeStores art p).erase = artTableFree art p := erase_artTableFreeLoopStores ..

@[simp] theorem erase_artDeleteAtStores (art : Art) (at_ : Ptr) (addr : List UInt8) (plen : Nat) :
    (artDeleteAtStores art at_ addr plen).erase = artDeleteAt art at_ addr plen := by
  rw [artDeleteAtStores, artDeleteAt]
  simp only [erase_bind, erase_lift]
  congr 1
  funext i
  cases (art.entry (art.slot at_ i).1 (art.slot at_ i).2).toNode with
  | none => rfl
  | some an =>
    simp only
    split
    · simp only [erase_bind, erase_artAllotStores, erase_artTableFreeStores, erase_pure]
      rfl
    · simp only [erase_bind, erase_visit, erase_artTableFreeStores, erase_pure]
      rfl

theorem erase_artDeleteStores (art : Art) (addr : List UInt8) (plen : Nat) :
    (artDeleteStores art addr plen).erase = artDelete art addr plen := by
  simp only [artDeleteStores, artDelete, erase_bind, erase_lift]
  congr 1
  funext _
  cases art.artRoot with
  | none => rfl
  | some root =>
    simp only
    split
    · cases (art.entry root artHeapIdxDefault).toNode with
      | none => rfl
      | some an =>
        simp only [erase_bind, erase_visit, erase_artTableFreeStores, erase_pure, bind_some]
        rfl
    · simp only [erase_bind, erase_lift]
      congr 1
      funext r
      cases r with
      | none => rfl
      | some at_ => exact erase_artDeleteAtStores art at_ addr plen

end Erase

end Mbsd.Net.Allotment
