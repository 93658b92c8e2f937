import Mathlib.Data.Fin.VecNotation
import Mathlib.Data.List.FinRange
import Mbsd.Kern.UipcMbuf
import Mbsd.Lib.Tailq
import Mbsd.Sys

/-! Reassembly of fragments in `net/pf_norm.c`.  `none` stands for a `KASSERT` that fails. -/

namespace Mbsd.Net.PfNorm

open Kern.UipcMbuf Lib Sys

def PF_FRAG_ENTRY_POINTS : Nat := 16

def PF_FRAG_ENTRY_LIMIT : Nat := 64

def PF_FRAG_STALE : BitVec 32 := 200

def IP_MAXPACKET : Nat := 65535

/-- A fragment entry; `feLen` and `feOff` are 16 bits wide. -/
structure PfFrent where
  feM : Mbuf
  feLen : Nat
  feOff : Nat
  feMff : Bool
  len_lt : feLen < 65536
  off_lt : feOff < 65536
  deriving DecidableEq

/-- `m_adj` from the front by `n`, and the offset and the length that go with it. -/
def PfFrent.cut (frent : PfFrent) (n : Nat) : PfFrent where
  feM := mAdj frent.feM n
  feOff := (frent.feOff + n) % 65536
  feLen := (frent.feLen + (65536 - n % 65536)) % 65536
  feMff := frent.feMff
  len_lt := Nat.mod_lt _ (by decide)
  off_lt := Nat.mod_lt _ (by decide)

inductive SaFamily
  | AF_INET | AF_INET6
  deriving DecidableEq

/-- `fn_src` and `fn_dst`, of which the family says how much is there. -/
inductive PfAddrs
  | v4 (src dst : BitVec 32)
  | v6 (src dst : BitVec 128)
  deriving DecidableEq

/-- The fields of a `pf_frnode` that `pf_frnode_compare` looks at. -/
structure PfFrnodeKey where
  fnAddrs : PfAddrs
  fnProto : BitVec 8
  deriving DecidableEq

def PfFrnodeKey.fnAf (key : PfFrnodeKey) : SaFamily :=
  match key.fnAddrs with
  | .v4 _ _ => .AF_INET
  | .v6 _ _ => .AF_INET6

structure PfFrnode where
  fnFragments : Nat
  fnGen : BitVec 32

structure PfFragment where
  frFirstoff : Fin PF_FRAG_ENTRY_POINTS → Option PfFrent
  frEntries : Fin PF_FRAG_ENTRY_POINTS → Nat
  frQueue : List PfFrent
  frId : BitVec 32
  frGen : BitVec 32
  frMaxlen : Nat
  frHoles : Nat
  frNode : PfFrnodeKey

/-- What `pf_frent_holes` takes off on the side of the previous entry. -/
def joinedPrev (frent : PfFrent) : Option PfFrent → Option Int
  | none => some (if frent.feOff = 0 then 1 else 0)
  | some prev => do
    kassert (frent.feOff ≠ 0)
    some (if frent.feOff = prev.feOff + prev.feLen then 1 else 0)

def joinedNext (frent : PfFrent) : Option PfFrent → Option Int
  | none => some (if !frent.feMff then 1 else 0)
  | some next => do
    kassert (frent.feMff = true)
    some (if next.feOff = frent.feOff + frent.feLen then 1 else 0)

def pfFrentHoles (queue : List PfFrent) (frent : PfFrent) : Option Int := do
  let left ← joinedPrev frent (Tailq.prev frent queue)
  let right ← joinedNext frent (Tailq.next frent queue)
  some (1 - left - right)

def pfFrentIndex (frent : PfFrent) : Fin PF_FRAG_ENTRY_POINTS :=
  ⟨frent.feOff / (0x10000 / PF_FRAG_ENTRY_POINTS), by
    have := frent.off_lt
    rw [PF_FRAG_ENTRY_POINTS]
    omega⟩

def addHoles (frHoles : Nat) (holes : Int) : Nat := (((frHoles : Int) + holes) % 65536).toNat

section Insert

variable (frent : PfFrent) (prev : Option PfFrent)

def insertQueue (queue : List PfFrent) : Option (List PfFrent) :=
  match prev with
  | none => some (frent :: queue)
  | some prev => do
    kassert (prev.feOff + prev.feLen ≤ frent.feOff)
    some (Tailq.insertAfter prev frent queue)

def insertFirstoff (firstoff : Fin PF_FRAG_ENTRY_POINTS → Option PfFrent) :
    Option (Fin PF_FRAG_ENTRY_POINTS → Option PfFrent) :=
  let index := pfFrentIndex frent
  match firstoff index with
  | none => do
    kassert (∀ p ∈ prev, pfFrentIndex p < index)
    some (Function.update firstoff index (some frent))
  | some first =>
    if frent.feOff < first.feOff then do
      kassert (∀ p ∈ prev, pfFrentIndex p < index)
      some (Function.update firstoff index (some frent))
    else do
      kassert (prev.isSome = true)
      kassert (∀ p ∈ prev, pfFrentIndex p = index)
      some firstoff

end Insert

def pfFrentInsert (frag : PfFragment) (frent : PfFrent) (prev : Option PfFrent) :
    Option (PfFragment × Option Errno) :=
  let index := pfFrentIndex frent
  if frag.frEntries index ≥ PF_FRAG_ENTRY_LIMIT then some (frag, some .ENOBUFS)
  else do
    let queue ← insertQueue frent prev frag.frQueue
    let firstoff ← insertFirstoff frent prev frag.frFirstoff
    let holes ← pfFrentHoles queue frent
    some ({ frag with
      frEntries := Function.update frag.frEntries index ((frag.frEntries index + 1) % 256)
      frQueue := queue
      frFirstoff := firstoff
      frHoles := addHoles frag.frHoles holes }, none)

def removeFirstoff (frent : PfFrent) (queue : List PfFrent)
    (firstoff : Fin PF_FRAG_ENTRY_POINTS → Option PfFrent) :
    Option (Fin PF_FRAG_ENTRY_POINTS → Option PfFrent) :=
  let index := pfFrentIndex frent
  match firstoff index with
  | none => none
  | some first =>
    if first.feOff = frent.feOff then
      match Tailq.next frent queue with
      | none => some (Function.update firstoff index none)
      | some next => do
        kassert (frent.feOff + frent.feLen ≤ next.feOff)
        if pfFrentIndex next = index then some (Function.update firstoff index (some next))
        else some (Function.update firstoff index none)
    else do
      kassert (first.feOff < frent.feOff)
      match Tailq.prev frent queue with
      | none => none
      | some prev => do
        kassert (prev.feOff + prev.feLen ≤ frent.feOff)
        kassert (pfFrentIndex prev = index)
        some firstoff

def pfFrentRemove (frag : PfFragment) (frent : PfFrent) : Option PfFragment := do
  let index := pfFrentIndex frent
  let holes ← pfFrentHoles frag.frQueue frent
  let firstoff ← removeFirstoff frent frag.frQueue frag.frFirstoff
  kassert (frag.frEntries index > 0)
  some { frag with
    frHoles := addHoles frag.frHoles (-holes)
    frFirstoff := firstoff
    frQueue := frag.frQueue.erase frent
    frEntries := Function.update frag.frEntries index (frag.frEntries index - 1) }

/-- The first entry point at `index` or after it that is in use. -/
def firstoffFrom (firstoff : Fin PF_FRAG_ENTRY_POINTS → Option PfFrent)
    (index : Fin PF_FRAG_ENTRY_POINTS) : Option PfFrent :=
  (List.finRange PF_FRAG_ENTRY_POINTS).findSome? fun i =>
    if index ≤ i then firstoff i else none

/-- The last one not behind `frent`, of `prev` and what follows it. -/
def closest (frent prev : PfFrent) : List PfFrent → PfFrent
  | [] => prev
  | next :: l => if next.feOff > frent.feOff then prev else closest frent next l

def pfFrentPrevious (frag : PfFragment) (frent : PfFrent) : Option (Option PfFrent) :=
  match frag.frQueue.getLast? with
  | none => none
  | some prev =>
    if prev.feOff ≤ frent.feOff then some (some prev)
    else
      match firstoffFrom frag.frFirstoff (pfFrentIndex frent) with
      | none => none
      | some prev =>
        if prev.feOff > frent.feOff then
          match Tailq.prev prev frag.frQueue with
          | none => some none
          | some prev => do
            kassert (prev.feOff ≤ frent.feOff)
            some (some prev)
        else some (some (closest frent prev (Tailq.after prev frag.frQueue)))

/-! The whole of the reassembly state in `net/pf_norm.c`, and what a fragment does to it. -/

inductive Reason
  | PFRES_FRAG | PFRES_MEMORY
  deriving DecidableEq

/-- Where `pf_fillup_fragment` goes on from the insertion into an existing queue. -/
inductive Label
  | queued | freeIpv6Fragment | freeFragment | dropFragment
  deriving DecidableEq

structure Exit where
  label : Label
  frag : PfFragment
  fragments : BitVec 32

/-- The queues on `pf_fragqueue`, newest first, the nodes in `pf_frnode_tree` by key, and
`pf_status.fragments`.  The `fn_tree` of a node is made of the queues with its key: a queue enters
and leaves both at once. -/
structure PfFrags where
  fragqueue : List PfFragment
  frnodeTree : PfFrnodeKey → Option PfFrnode
  fragments : BitVec 32

def PfFragment.IsFor (frag : PfFragment) (key : PfFrnodeKey) (id : BitVec 32) : Prop :=
  frag.frNode = key ∧ frag.frId = id

instance {frag : PfFragment} {key : PfFrnodeKey} {id : BitVec 32} :
    Decidable (frag.IsFor key id) :=
  inferInstanceAs (Decidable (_ ∧ _))

def pfFreeFragment (s : PfFrags) (frag : PfFragment) : Option PfFrags :=
  match s.frnodeTree frag.frNode with
  | none => none
  | some frnode => do
    let fragqueue := s.fragqueue.eraseP (·.IsFor frag.frNode frag.frId)
    kassert (frnode.fnFragments ≥ 1)
    let fnFragments := frnode.fnFragments - 1
    kassert (fnFragments = 0 → ∀ f ∈ fragqueue, f.frNode ≠ frag.frNode)
    some {
      fragqueue := fragqueue
      frnodeTree := Function.update s.frnodeTree frag.frNode
        (if fnFragments = 0 then none else some { frnode with fnFragments := fnFragments })
      fragments := s.fragments - BitVec.ofNat 32 frag.frQueue.length }

/-- The loop of `pf_flush_fragments`; each round takes a queue away. -/
def flushLoop (goal : BitVec 32) : Nat → PfFrags → Option PfFrags
  | 0, s => some s
  | n + 1, s =>
    if goal < s.fragments then
      match s.fragqueue.getLast? with
      | none => some s
      | some frag => do flushLoop goal n (← pfFreeFragment s frag)
    else some s

def pfFlushFragments (s : PfFrags) : Option PfFrags :=
  flushLoop (s.fragments * 9 / 10) s.fragqueue.length s

/-- `pool_get`, tried again after `pf_flush_fragments`: whether there is an item in the end. -/
def getOrFlush (first second : Bool) (s : PfFrags) : Option (PfFrags × Bool) :=
  if first then some (s, true) else do some (← pfFlushFragments s, second)

def pfCreateFragment (first second : Bool) (s : PfFrags) : Option PfFrags := do
  let (s, got) ← getOrFlush first second s
  some (if got then { s with fragments := s.fragments + 1 } else s)

def pfFindFragment (s : PfFrags) (key : PfFrnodeKey) (id timeout : BitVec 32) :
    Option (PfFrags × Option PfFragment) :=
  match s.frnodeTree key with
  | none => some (s, none)
  | some frnode => do
    kassert (frnode.fnFragments ≥ 1)
    match s.fragqueue.find? (·.IsFor key id) with
    | none => some (s, none)
    | some frag =>
      if frnode.fnGen - frag.frGen ≥ timeout * PF_FRAG_STALE then do
        some (← pfFreeFragment s frag, none)
      else
        some ({ s with fragqueue := frag :: s.fragqueue.eraseP (·.IsFor key id) }, some frag)

/-- The end of `pf_fillup_fragment`: the fragment enters the queue behind `prev`. -/
def fillupInsert (frent : PfFrent) (prev : Option PfFrent) (fragments : BitVec 32)
    (frag : PfFragment) : Option Exit := do
  match ← pfFrentInsert frag frent prev with
  | (frag, some _) => some ⟨.freeFragment, frag, fragments⟩
  | (frag, none) => some ⟨.queued, frag, fragments⟩

/-- The loop over the entries that the fragment overlaps, of which `after` are the next. -/
def fillupAfter (frent : PfFrent) (prev : Option PfFrent) (fragments : BitVec 32)
    (frag : PfFragment) : List PfFrent → Option Exit
  | [] => fillupInsert frent prev fragments frag
  | after :: next =>
    if frent.feOff + frent.feLen > after.feOff then
      if frag.frNode.fnAf = .AF_INET6 then some ⟨.freeIpv6Fragment, frag, fragments⟩
      else
        let aftercut := (frent.feOff + frent.feLen - after.feOff) % 65536
        if aftercut < after.feLen then do
          let frag ← pfFrentRemove frag after
          match ← pfFrentInsert frag (after.cut aftercut) prev with
          | (frag, some _) => some ⟨.freeFragment, frag, fragments - 1⟩
          | (frag, none) => fillupInsert frent prev fragments frag
        else do
          let frag ← pfFrentRemove frag after
          fillupAfter frent prev (fragments - 1) frag next
    else fillupInsert frent prev fragments frag

def PfFragment.remember (frag : PfFragment) (frent : PfFrent) : PfFragment :=
  if frent.feLen > frag.frMaxlen then { frag with frMaxlen := frent.feLen } else frag

/-- The fragment meets the queue of its packet, of which `last` is the last entry. -/
def fillupExisting (frent last : PfFrent) (fragments : BitVec 32) (frag : PfFragment) :
    Option Exit :=
  let total := (last.feOff + last.feLen) % 65536
  if frent.feOff + frent.feLen < total ∧ frent.feMff = false then
    some ⟨.freeIpv6Fragment, frag, fragments⟩
  else if last.feMff = false ∧ (frent.feOff + frent.feLen > total ∨
      frent.feOff + frent.feLen = total ∧ frent.feMff = true) then
    some ⟨.freeIpv6Fragment, frag, fragments⟩
  else if last.feMff = true ∧ frent.feOff + frent.feLen = total ∧ frent.feMff = false then
    some ⟨.freeIpv6Fragment, frag, fragments⟩
  else do
    match ← pfFrentPrevious frag frent with
    | none => do
      kassert (frag.frQueue ≠ [])
      fillupAfter frent none fragments frag frag.frQueue
    | some prev =>
      let after := Lib.Tailq.after prev frag.frQueue
      if prev.feOff + prev.feLen > frent.feOff then
        if frag.frNode.fnAf = .AF_INET6 then some ⟨.freeIpv6Fragment, frag, fragments⟩
        else
          let precut := (prev.feOff + prev.feLen - frent.feOff) % 65536
          if precut ≥ frent.feLen then some ⟨.dropFragment, frag, fragments⟩
          else fillupAfter (frent.cut precut) (some prev) fragments frag after
      else fillupAfter frent (some prev) fragments frag after

/-- What `pf_fillup_fragment` answers, with its `reason` where it has set one. -/
inductive Fillup
  | queued (frag : PfFragment)
  | dropped (reason : Option Reason)

def dropFragment (reason : Option Reason) (s : PfFrags) : PfFrags × Fillup :=
  ({ s with fragments := s.fragments - 1 }, .dropped reason)

def badFragment (s : PfFrags) : PfFrags × Fillup := dropFragment (some .PFRES_FRAG) s

def freeFragment (frag : PfFragment) (s : PfFrags) : Option (PfFrags × Fillup) := do
  some (badFragment (← pfFreeFragment s frag))

def freeIpv6Fragment (frag : PfFragment) (s : PfFrags) : Option (PfFrags × Fillup) :=
  if frag.frNode.fnAf = .AF_INET then some (badFragment s) else freeFragment frag s

/-- The queue is the first one on `pf_fragqueue`, before `fragqueue`. -/
def fillupExit (s : PfFrags) (fragqueue : List PfFragment) (exit : Exit) :
    Option (PfFrags × Fillup) :=
  let s := { s with fragqueue := exit.frag :: fragqueue, fragments := exit.fragments }
  match exit.label with
  | .queued => some (s, .queued exit.frag)
  | .freeIpv6Fragment => freeIpv6Fragment exit.frag s
  | .freeFragment => freeFragment exit.frag s
  | .dropFragment => some (dropFragment none s)

/-- Whether each `pool_get` of `pf_fillup_fragment` finds an item. -/
structure Pools where
  frag : Bool
  fragAgain : Bool
  frnode : Bool
  frnodeAgain : Bool

def newFragment (key : PfFrnodeKey) (id gen : BitVec 32) (maxlen : Nat) : PfFragment where
  frFirstoff _ := none
  frEntries _ := 0
  frQueue := []
  frId := id
  frGen := gen
  frMaxlen := maxlen
  frHoles := 1
  frNode := key

/-- The node for a new queue; `none` inside when there is no memory for one. -/
def nodeFor (s : PfFrags) (key : PfFrnodeKey) (pools : Pools) :
    Option (PfFrags × Option PfFrnode) :=
  match s.frnodeTree key with
  | some frnode => some (s, some frnode)
  | none => do
    let (s, got) ← getOrFlush pools.frnode pools.frnodeAgain s
    some (s, if got then some ⟨0, 0⟩ else none)

def fillupNew (s : PfFrags) (key : PfFrnodeKey) (id : BitVec 32) (frent : PfFrent)
    (pools : Pools) : Option (PfFrags × Fillup) := do
  let (s, got) ← getOrFlush pools.frag pools.fragAgain s
  if got then do
    let (s, node) ← nodeFor s key pools
    match node with
    | none => some (dropFragment (some .PFRES_MEMORY) s)
    | some frnode => do
      let (frag, _) ← pfFrentInsert (newFragment key id frnode.fnGen frent.feLen) frent none
      some ({ s with
        fragqueue := frag :: s.fragqueue
        frnodeTree := Function.update s.frnodeTree key
          (some ⟨frnode.fnFragments + 1, frnode.fnGen + 1⟩) }, .queued frag)
  else some (dropFragment (some .PFRES_MEMORY) s)

def pfFillupFragment (s : PfFrags) (key : PfFrnodeKey) (id : BitVec 32) (frent : PfFrent)
    (timeout : BitVec 32) (pools : Pools) : Option (PfFrags × Fillup) :=
  if frent.feLen = 0 then some (badFragment s)
  else if frent.feMff = true ∧ frent.feLen &&& 7 ≠ 0 then some (badFragment s)
  else if frent.feOff + frent.feLen > IP_MAXPACKET then some (badFragment s)
  else do
    match ← pfFindFragment s key id timeout with
    | (s, none) => fillupNew s key id frent pools
    | (s, some frag) =>
      match frag.frQueue.getLast? with
      | none => none
      | some last => do
        fillupExit s s.fragqueue.tail
          (← fillupExisting frent last s.fragments (frag.remember frent))

end Mbsd.Net.PfNorm
