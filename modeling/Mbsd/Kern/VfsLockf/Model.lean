import Mathlib.Algebra.Group.Int.Defs
import Mbsd.Kern.VfsLockf.Held
import Mbsd.Lib.Tailq
import Mbsd.Sys

/-! The advisory locks of `kern/vfs_lockf.c` for one file.  Locks are pointers into a store.  A
pointer into the queue of active locks that a function goes on from is the part of the queue from
there on, with the empty list as `NULL`.  Sleeping ends a function and waking up starts another. -/

namespace Mbsd.Kern.VfsLockf

open Sys Lib.Tailq

variable {B : List LockPtr} {p : LockPtr} {found : Ovcase × List LockPtr}

abbrev LockPtr := Nat

structure LfFlags where
  posix : Bool
  flock : Bool
  wait : Bool
  intr : Bool
  deriving DecidableEq, Repr

structure Lockf where
  lfFlags : LfFlags
  lfType : LfType
  lfStart : Int
  lfEnd : Int
  lfId : Nat
  lfBlk : Option LockPtr
  lfBlkhd : List LockPtr
  lfUid : Nat
  lfPid : Int

def Lockf.held (l : Lockf) : Held := ⟨l.lfId, l.lfType, l.lfStart, l.lfEnd⟩

/-- `next` is the pointer the pool returns next; `panicked` records a failed assertion or a
panic.  The state without locks stands for a file without `lockf_state`. -/
structure LockfState where
  mem : LockPtr → Lockf
  lsLocks : List LockPtr
  lsPending : List LockPtr
  next : LockPtr
  uiLockcnt : Nat → Int
  panicked : Bool

namespace LockfState

def modify (s : LockfState) (p : LockPtr) (f : Lockf → Lockf) : LockfState :=
  { s with mem := Function.update s.mem p (f (s.mem p)) }

def held (s : LockfState) (p : LockPtr) : Held := (s.mem p).held

def helds (s : LockfState) : List Held := s.lsLocks.map s.held

def panic (s : LockfState) : LockfState := { s with panicked := true }

end LockfState

def maxlocksperuid : Int := 1024

inductive AllowFail | always | atLimit | atDoubleLimit
  deriving DecidableEq, Repr

def AllowFail.cutoff : AllowFail → Option Int
  | .always => none
  | .atLimit => some maxlocksperuid
  | .atDoubleLimit => some (maxlocksperuid * 2)

/-- `lf_alloc`, with the values that the caller stores in the new lock. -/
def lfAlloc (s : LockfState) (allowfail : AllowFail) (lock : Lockf) :
    Option (LockPtr × LockfState) :=
  if lock.lfUid ≠ 0 ∧ allowfail.cutoff.any (· < s.uiLockcnt lock.lfUid) then none
  else some (s.next,
    { s with
      mem := Function.update s.mem s.next lock
      next := s.next + 1
      uiLockcnt := Function.update s.uiLockcnt lock.lfUid (s.uiLockcnt lock.lfUid + 1) })

def lfFree (s : LockfState) (lock : LockPtr) : LockfState :=
  let uid := (s.mem lock).lfUid
  { s with
    uiLockcnt := Function.update s.uiLockcnt uid (s.uiLockcnt uid - 1)
    panicked := s.panicked || (s.mem lock).lfBlkhd ≠ [] }

def Lockf.woken (intr : Bool) (l : Lockf) : Lockf :=
  { l with lfBlk := none, lfFlags := { l.lfFlags with intr := l.lfFlags.intr || intr } }

def lfWakeOne (lock : LockPtr) (intr : Bool) (mem : LockPtr → Lockf) (w : LockPtr) :
    LockPtr → Lockf :=
  let mem := Function.update mem lock { mem lock with lfBlkhd := (mem lock).lfBlkhd.erase w }
  Function.update mem w ((mem w).woken intr)

def lfWakelock (s : LockfState) (lock : LockPtr) (intr : Bool) : LockfState :=
  { s with mem := (s.mem lock).lfBlkhd.foldl (lfWakeOne lock intr) s.mem }

inductive Selector | self | others
  deriving DecidableEq, Repr

inductive Ovcase | none | equal | contains | contained | startsBefore | endsAfter | panic
  deriving DecidableEq, Repr

/-- The tests of `lf_findoverlap` for one lock of the list. -/
def ovcase (lf lock : Held) : Ovcase :=
  if (lf.stop ≠ -1 ∧ lock.start > lf.stop) ∨ (lock.stop ≠ -1 ∧ lf.start > lock.stop) then .none
  else if lf.start = lock.start ∧ lf.stop = lock.stop then .equal
  else if lf.start ≤ lock.start ∧
      (lf.stop = -1 ∨ (lock.stop ≠ -1 ∧ lf.stop ≥ lock.stop)) then .contains
  else if lock.start ≤ lf.start ∧
      (lock.stop = -1 ∨ (lf.stop ≠ -1 ∧ lock.stop ≥ lf.stop)) then .contained
  else if lf.start < lock.start ∧ (lf.stop ≥ lock.start ∨ lf.stop = -1) then .startsBefore
  else if lf.start > lock.start ∧ lock.stop ≠ -1 ∧
      (lf.stop > lock.stop ∨ lf.stop = -1) then .endsAfter
  else .panic

def lfFindoverlap (s : LockfState) (lock : LockPtr) (type : Selector) :
    List LockPtr → Ovcase × List LockPtr
  | [] => (.none, [])
  | lf :: rest =>
    if (type = .self ∧ (s.mem lf).lfId ≠ (s.mem lock).lfId) ∨
        (type = .others ∧ (s.mem lf).lfId = (s.mem lock).lfId) then
      lfFindoverlap s lock type rest
    else
      match ovcase (s.held lf) (s.held lock) with
      | .none =>
        if type = .self ∧ (s.mem lock).lfEnd ≠ -1 ∧ (s.mem lf).lfStart > (s.mem lock).lfEnd then
          (.none, lf :: rest)
        else lfFindoverlap s lock type rest
      | ov => (ov, lf :: rest)

/-- The first blocking lock from `lf` on, with the rest of the list as fuel for the loop. -/
def lfGetblock (s : LockfState) (lock : LockPtr) : Nat → List LockPtr → List LockPtr
  | 0, _ => []
  | fuel + 1, lf =>
    match lfFindoverlap s lock .others lf with
    | (.none, _) => []
    | (_, []) => []
    | (_, overlap :: rest) =>
      if (s.mem lock).lfType = .wrlck ∨ (s.mem overlap).lfType = .wrlck then overlap :: rest
      else lfGetblock s lock fuel rest

def lfSplit (s : LockfState) (lock1 lock2 : LockPtr) : LockfState :=
  let l1 := s.mem lock1
  let l2 := s.mem lock2
  if l1.lfStart = l2.lfStart then
    let s := s.modify lock1 fun l => { l with lfStart := l2.lfEnd + 1 }
    { s with lsLocks := insertBefore lock1 lock2 s.lsLocks }
  else if l1.lfEnd = l2.lfEnd then
    let s := s.modify lock1 fun l => { l with lfEnd := l2.lfStart - 1 }
    { s with lsLocks := insertAfter lock1 lock2 s.lsLocks }
  else
    match lfAlloc s .always
        { l1 with lfStart := l2.lfEnd + 1, lfBlk := none, lfBlkhd := [] } with
    | none => s
    | some (splitlock, s) =>
      let s := s.modify lock1 fun l => { l with lfEnd := l2.lfStart - 1 }
      let s := { s with lsLocks := insertAfter lock1 lock2 s.lsLocks }
      { s with lsLocks := insertAfter lock2 splitlock s.lsLocks }

def LockfState.remove (s : LockfState) (p : LockPtr) : LockfState :=
  { s with lsLocks := s.lsLocks.erase p }

def lfClearLoop (lock : LockPtr) : Nat → List LockPtr → LockfState → LockfState
  | 0, _, s => s.panic
  | fuel + 1, lf, s =>
    match lfFindoverlap s lock .self lf with
    | (.none, _) => s
    | (_, []) => s
    | (ov, overlap :: rest) =>
      let s := lfWakelock s overlap false
      match ov with
      | .none => s
      | .panic => s.panic
      | .equal => lfFree (s.remove overlap) overlap
      | .contains =>
        if (s.mem overlap).lfStart = (s.mem lock).lfStart then
          s.modify overlap fun l => { l with lfStart := (s.mem lock).lfEnd + 1 }
        else (lfSplit s overlap lock).remove lock
      | .contained => lfClearLoop lock fuel rest (lfFree (s.remove overlap) overlap)
      | .startsBefore =>
        lfClearLoop lock fuel rest
          (s.modify overlap fun l => { l with lfEnd := (s.mem lock).lfStart - 1 })
      | .endsAfter => s.modify overlap fun l => { l with lfStart := (s.mem lock).lfEnd + 1 }

def lfClearlock (s : LockfState) (lock : LockPtr) : LockfState :=
  lfClearLoop lock (s.lsLocks.length + 1) s.lsLocks s

/-- One round of the loop that takes over the waiters of an absorbed lock. -/
def lfTakeOne (lock overlap : LockPtr) (mem : LockPtr → Lockf) (ltmp : LockPtr) :
    LockPtr → Lockf :=
  let mem := Function.update mem overlap
    { mem overlap with lfBlkhd := (mem overlap).lfBlkhd.erase ltmp }
  let mem := Function.update mem ltmp { mem ltmp with lfBlk := some lock }
  Function.update mem lock { mem lock with lfBlkhd := (mem lock).lfBlkhd ++ [ltmp] }

def lfTakeWaiters (s : LockfState) (lock overlap : LockPtr) : LockfState :=
  { s with mem := (s.mem overlap).lfBlkhd.foldl (lfTakeOne lock overlap) s.mem }

/-- What happens to the waiters of a lock that the request replaces. -/
def lfAbsorb (s : LockfState) (lock overlap : LockPtr) : LockfState :=
  if (s.mem lock).lfType = .rdlck ∧ (s.mem overlap).lfType = .wrlck then
    lfWakelock s overlap false
  else lfTakeWaiters s lock overlap

def LockfState.link (s : LockfState) (needtolink : Bool) (lock overlap : LockPtr) : LockfState :=
  if needtolink then { s with lsLocks := insertBefore overlap lock s.lsLocks } else s

/-- The loop of `lf_setlock` once nothing blocks the request. -/
def lfSetLoop (lock : LockPtr) : Nat → List LockPtr → Bool → LockfState → LockfState
  | 0, _, _, s => s.panic
  | fuel + 1, block, needtolink, s =>
    match lfFindoverlap s lock .self block with
    | (.none, []) =>
      if needtolink then { s with lsLocks := s.lsLocks ++ [lock] } else s
    | (.none, overlap :: _) => s.link needtolink lock overlap
    | (_, []) => s
    | (ov, overlap :: block) =>
      let l := s.mem lock
      let o := s.mem overlap
      match ov with
      | .none => s
      | .panic => s.panic
      | .equal =>
        let s := if l.lfType = .rdlck ∧ o.lfType = .wrlck then lfWakelock s overlap false else s
        lfFree (s.modify overlap fun o => { o with lfType := l.lfType }) lock
      | .contains =>
        let s' := if needtolink then s else s.remove lock
        if o.lfType = l.lfType then lfFree s' lock
        else if o.lfStart = l.lfStart then
          let s' := { s' with lsLocks := insertBefore overlap lock s'.lsLocks }
          lfWakelock (s'.modify overlap fun o => { o with lfStart := l.lfEnd + 1 }) overlap false
        else lfWakelock (lfSplit s overlap lock) overlap false
      | .contained =>
        let s := (lfAbsorb s lock overlap).link needtolink lock overlap
        lfSetLoop lock fuel block false (lfFree (s.remove overlap) overlap)
      | .startsBefore =>
        let s := if needtolink then s else s.remove lock
        let s := { s with lsLocks := insertAfter overlap lock s.lsLocks }
        let s := s.modify overlap fun o => { o with lfEnd := l.lfStart - 1 }
        lfSetLoop lock fuel block false (lfWakelock s overlap false)
      | .endsAfter =>
        let s := s.link needtolink lock overlap
        lfWakelock (s.modify overlap fun o => { o with lfStart := l.lfEnd + 1 }) overlap false

/-- Whether `pending` waits for a lock of the process that asks, and the process that holds
`block` is the one that waits. -/
def lfDeadlockPair (s : LockfState) (lock block pending : LockPtr) : Bool :=
  match (s.mem pending).lfBlk with
  | none => false
  | some blk =>
    (s.mem pending).lfPid = (s.mem block).lfPid && (s.mem blk).lfPid = (s.mem lock).lfPid

def lfDeadlock (s : LockfState) (lock : LockPtr) : Nat → List LockPtr → Bool
  | 0, _ => false
  | fuel + 1, lf =>
    match lfGetblock s lock (lf.length + 1) lf with
    | [] => false
    | block :: rest =>
      ((s.mem block).lfFlags.posix && s.lsPending.any (lfDeadlockPair s lock block)) ||
        lfDeadlock s lock fuel rest

inductive SetResult
  | done (error : Option Errno)
  | sleeping
  deriving DecidableEq, Repr

def lfSleep (s : LockfState) (lock block : LockPtr) : LockfState :=
  let s := s.modify lock fun l => { l with lfBlk := some block }
  let s := s.modify block fun b => { b with lfBlkhd := b.lfBlkhd ++ [lock] }
  { s with lsPending := s.lsPending ++ [lock] }

/-- A `flock` style request gives up what it holds before it sleeps for an exclusive lock. -/
def lfGiveUp (s : LockfState) (lock : LockPtr) : LockfState :=
  if (s.mem lock).lfFlags.flock ∧ (s.mem lock).lfType = .wrlck then
    let s := s.modify lock fun l => { l with lfType := .unlck }
    let s := lfClearlock s lock
    s.modify lock fun l => { l with lfType := .wrlck }
  else s

/-- `lf_setlock` up to its return or to the next time it sleeps. -/
def lfSetlock (s : LockfState) (lock : LockPtr) : LockfState × SetResult :=
  match lfGetblock s lock (s.lsLocks.length + 1) s.lsLocks with
  | block :: _ =>
    if (s.mem lock).lfFlags.wait = false then (lfFree s lock, .done (some .EAGAIN))
    else if (s.mem lock).lfFlags.posix ∧
        lfDeadlock s lock (s.lsLocks.length + 1) s.lsLocks then
      (lfFree s lock, .done (some .EDEADLK))
    else (lfSleep (lfGiveUp s lock) lock block, .sleeping)
  | [] => (lfSetLoop lock (s.lsLocks.length + 1) s.lsLocks true s, .done none)

/-- What `lf_setlock` does first when it wakes up: the request leaves the queues. -/
def lfUnblock (s : LockfState) (lock : LockPtr) : LockfState :=
  let s := { s with lsPending := s.lsPending.erase lock }
  match (s.mem lock).lfBlk with
  | none => s
  | some blk =>
    let s := s.modify blk fun b => { b with lfBlkhd := b.lfBlkhd.erase lock }
    s.modify lock fun l => { l with lfBlk := none }

/-- `lf_setlock` from a wakeup on, where the sleep returned `error`. -/
def lfResume (s : LockfState) (lock : LockPtr) (error : Option Errno) :
    LockfState × SetResult :=
  let s := lfUnblock s lock
  if error ≠ none then (lfFree s lock, .done error)
  else if (s.mem lock).lfFlags.intr then (lfFree s lock, .done (some .EINTR))
  else lfSetlock s lock

structure Flock where
  lStart : Int
  lLen : Int
  lType : LfType
  lWhence : Nat
  lPid : Int
  deriving DecidableEq, Repr

def lfGetlock (s : LockfState) (lock : LockPtr) (fl : Flock) : Flock :=
  match lfGetblock s lock (s.lsLocks.length + 1) s.lsLocks with
  | block :: _ =>
    let b := s.mem block
    { lType := b.lfType
      lWhence := 0
      lStart := b.lfStart
      lLen := if b.lfEnd = -1 then 0 else b.lfEnd - b.lfStart + 1
      lPid := b.lfPid }
  | [] => { fl with lType := .unlck }

def llongMax : Int := 2 ^ 63 - 1

def lfRange (size : Int) (fl : Flock) : Except Errno (Int × Int) :=
  if fl.lWhence > 2 then .error .EINVAL
  else
    let start := if fl.lWhence = 2 then size + fl.lStart else fl.lStart
    if start < 0 then .error .EINVAL
    else if fl.lLen > 0 then
      if fl.lLen - 1 > llongMax - start then .error .EOVERFLOW
      else
        let stop := start + (fl.lLen - 1)
        .ok (start, if stop = llongMax then -1 else stop)
    else if fl.lLen < 0 then
      if start + fl.lLen < 0 then .error .EINVAL else .ok (start + fl.lLen, start - 1)
    else .ok (start, -1)

inductive LockOp | getlk | setlk | unlck
  deriving DecidableEq, Repr

/-- The process that makes a call, and how: the id of the owner, the user, the process, and
whether the lock is POSIX style (else `flock` style) and the call waits. -/
structure Caller where
  id : Nat
  uid : Nat
  pid : Int
  posix : Bool
  wait : Bool
  deriving DecidableEq, Repr

def Caller.request (c : Caller) (fl : Flock) (start stop : Int) : Lockf where
  lfFlags := ⟨c.posix, !c.posix, c.wait, false⟩
  lfType := fl.lType
  lfStart := start
  lfEnd := stop
  lfId := c.id
  lfBlk := none
  lfBlkhd := []
  lfUid := c.uid
  lfPid := if c.posix then c.pid else -1

def lfAdvlock (s : LockfState) (size : Int) (c : Caller) (op : LockOp) (fl : Flock) :
    LockfState × SetResult × Flock :=
  match lfRange size fl with
  | .error e => (s, .done (some e), fl)
  | .ok (start, stop) =>
    if s.lsLocks = [] ∧ s.lsPending = [] ∧ op ≠ .setlk then
      (s, .done none, { fl with lType := .unlck })
    else
      match lfAlloc s (if op = .setlk then .atLimit else .atDoubleLimit)
          (c.request fl start stop) with
      | none => (s, .done (some .ENOLCK), fl)
      | some (lock, s) =>
        match op with
        | .setlk =>
          let r := lfSetlock s lock
          (r.1, r.2, fl)
        | .unlck => (lfFree (lfClearlock s lock) lock, .done none, fl)
        | .getlk => (lfFree s lock, .done none, lfGetlock s lock fl)

/-- `lf_purgelocks` up to where it waits for the blocked requests to finish. -/
def lfPurgeStart (s : LockfState) : LockfState :=
  s.lsLocks.foldl (fun s lock => lfWakelock s lock true) s

/-- The rest of `lf_purgelocks`, once no request is pending. -/
def lfPurgeFinish (s : LockfState) : LockfState :=
  s.lsLocks.foldl (fun s lock => lfFree (s.remove lock) lock) s

open Held List

section Cases

variable {h l : Held}

theorem ovcase_eq_none : ovcase h l = .none ↔ ¬ h.Overlaps l := by
  have hiff : ((h.stop ≠ -1 ∧ l.start > h.stop) ∨ (l.stop ≠ -1 ∧ h.start > l.stop)) ↔
      ¬ h.Overlaps l := by
    simp only [Overlaps]
    omega
  rw [ovcase]
  split
  next hc => simp [hiff.mp hc]
  next hc =>
    rw [hiff, not_not] at hc
    simp only [hc, not_true_eq_false, iff_false]
    repeat' split
    all_goals exact Ovcase.noConfusion

theorem ovcase_cases (ho : h.Overlaps l) :
    (ovcase h l = .equal ∧ h.start = l.start ∧ h.stop = l.stop) ∨
    (ovcase h l = .contains ∧ ¬ (h.start = l.start ∧ h.stop = l.stop) ∧ h.start ≤ l.start ∧
      l.EndsBy h) ∨
    (ovcase h l = .contained ∧ ¬ (h.start = l.start ∧ h.stop = l.stop) ∧ l.start ≤ h.start ∧
      h.EndsBy l) ∨
    (ovcase h l = .startsBefore ∧ h.start < l.start ∧ h.stop ≠ -1 ∧
      (l.stop = -1 ∨ h.stop < l.stop)) ∨
    (ovcase h l = .endsAfter ∧ l.start < h.start ∧ l.stop ≠ -1 ∧
      (h.stop = -1 ∨ l.stop < h.stop)) := by
  simp only [Overlaps] at ho
  rw [ovcase]
  split_ifs <;> simp <;> omega

end Cases

variable {s : LockfState} {lock : LockPtr}

/-- The outcome of the search among the owner's own locks from `B` on: it passes over `M`. -/
structure FoundSelf (s : LockfState) (lock : LockPtr) (B M : List LockPtr)
    (found : Ovcase × List LockPtr) : Prop where
  split : B = M ++ found.2
  before : ∀ p ∈ M, (s.held p).id = (s.held lock).id → (s.held p).Before (s.held lock)
  found : (found.1 = .none ∧ ∀ p ∈ found.2, (s.held p).id = (s.held lock).id →
      (s.held lock).Before (s.held p)) ∨
    ∃ o T, found = (ovcase (s.held o) (s.held lock), o :: T) ∧
      (s.held o).id = (s.held lock).id ∧ (s.held o).Overlaps (s.held lock)

theorem FoundSelf.cons {M : List LockPtr}
    (h : FoundSelf s lock B M found)
    (hp : (s.held p).id = (s.held lock).id → (s.held p).Before (s.held lock)) :
    FoundSelf s lock (p :: B) (p :: M) found where
  split := by rw [h.split, cons_append, ← h.split]
  before := forall_mem_cons.mpr ⟨hp, h.before⟩
  found := h.found

theorem lfFindoverlap_self (lock : LockPtr) (hs : Sorted (B.map s.held))
    (hv : AllValid (B.map s.held)) : ∃ M, FoundSelf s lock B M (lfFindoverlap s lock .self B) := by
  induction B with
  | nil => exact ⟨[], rfl, by simp, .inl ⟨rfl, by simp [lfFindoverlap]⟩⟩
  | cons p B ih =>
    rw [map_cons, Sorted, pairwise_cons] at hs
    obtain ⟨hvp, hvB⟩ := forall_mem_cons.mp hv
    obtain ⟨M, hM⟩ := ih hs.2 hvB
    rw [lfFindoverlap]
    split
    next hid =>
      refine ⟨p :: M, hM.cons fun heq => ?_⟩
      simp only [true_and, reduceCtorEq, false_and, or_false] at hid
      exact absurd heq hid
    next hid =>
      have hid : (s.mem p).lfId = (s.mem lock).lfId := by
        simpa using hid
      split
      next hov =>
        have hno := ovcase_eq_none.mp hov
        split
        next hbeyond =>
          refine ⟨[], rfl, by simp, .inl ⟨rfl, ?_⟩⟩
          have hlp : (s.held lock).Before (s.held p) := ⟨hbeyond.2.1, hbeyond.2.2⟩
          refine forall_mem_cons.mpr ⟨fun _ => hlp, fun q hq hidq => ?_⟩
          have hpq := hs.1 (s.held q) (mem_map_of_mem hq) (hid.trans hidq.symm)
          simp only [Before, Valid] at hlp hpq hvp ⊢
          omega
        next hnot =>
          refine ⟨p :: M, hM.cons fun _ => ?_⟩
          rcases not_overlaps_iff.mp hno with hb | hb
          · exact hb
          · exact absurd ⟨rfl, hb.1, hb.2⟩ hnot
      next hov =>
        have ho : (s.held p).Overlaps (s.held lock) := by
          by_contra hno
          exact hov (ovcase_eq_none.mpr hno)
        exact ⟨[], rfl, by simp, .inr ⟨p, B, rfl, hid, ho⟩⟩

/-- `p` is a lock that the request cannot be granted beside. -/
def Blocks (s : LockfState) (lock p : LockPtr) : Prop :=
  (s.held p).id ≠ (s.held lock).id ∧ (s.held p).Overlaps (s.held lock) ∧
    (s.held p).Conflicts (s.held lock)

/-- The outcome of the search among the locks of others from `B` on. -/
def FoundOthers (s : LockfState) (lock : LockPtr) (B : List LockPtr)
    (found : Ovcase × List LockPtr) : Prop :=
  (found = (.none, []) ∧
    ∀ p ∈ B, (s.held p).id ≠ (s.held lock).id → ¬ (s.held p).Overlaps (s.held lock)) ∨
  ∃ M o T ov, found = (ov, o :: T) ∧ ov ≠ .none ∧ B = M ++ o :: T ∧
    (∀ p ∈ M, (s.held p).id ≠ (s.held lock).id → ¬ (s.held p).Overlaps (s.held lock)) ∧
    (s.held o).id ≠ (s.held lock).id ∧ (s.held o).Overlaps (s.held lock)

theorem FoundOthers.cons
    (h : FoundOthers s lock B found)
    (hp : (s.held p).id ≠ (s.held lock).id → ¬ (s.held p).Overlaps (s.held lock)) :
    FoundOthers s lock (p :: B) found := by
  rcases h with ⟨hnone, hall⟩ | ⟨M, o, T, ov, hfound, hne, hB, hM, ho⟩
  · exact .inl ⟨hnone, forall_mem_cons.mpr ⟨hp, hall⟩⟩
  · exact .inr ⟨p :: M, o, T, ov, hfound, hne, by rw [hB, cons_append],
      forall_mem_cons.mpr ⟨hp, hM⟩, ho⟩

theorem lfFindoverlap_others (B : List LockPtr) :
    FoundOthers s lock B (lfFindoverlap s lock .others B) := by
  induction B with
  | nil => exact .inl ⟨rfl, by simp⟩
  | cons p B ih =>
    by_cases hid : (s.mem p).lfId = (s.mem lock).lfId
    · rw [lfFindoverlap, if_pos (.inr ⟨rfl, hid⟩)]
      exact ih.cons fun hne => absurd hid hne
    · have hcond : ¬ ((Selector.others = .self ∧ (s.mem p).lfId ≠ (s.mem lock).lfId) ∨
          (Selector.others = .others ∧ (s.mem p).lfId = (s.mem lock).lfId)) := by
        simpa using hid
      by_cases ho : (s.held p).Overlaps (s.held lock)
      · have hne : ovcase (s.held p) (s.held lock) ≠ .none := fun h => ovcase_eq_none.mp h ho
        refine .inr ⟨[], p, B, _, ?_, hne, rfl, by simp, hid, ho⟩
        rw [lfFindoverlap, if_neg hcond]
        split
        next h => exact absurd h hne
        · rfl
      · rw [lfFindoverlap, if_neg hcond, ovcase_eq_none.mpr ho]
        simpa using ih.cons fun _ => ho

theorem lfGetblock_spec (s : LockfState) (lock : LockPtr) {fuel : Nat} (hf : B.length < fuel) :
    (lfGetblock s lock fuel B = [] ∧ ∀ p ∈ B, ¬ Blocks s lock p) ∨
    ∃ M b T, lfGetblock s lock fuel B = b :: T ∧ B = M ++ b :: T ∧
      (∀ p ∈ M, ¬ Blocks s lock p) ∧ Blocks s lock b := by
  induction fuel generalizing B with
  | zero => cases hf
  | succ fuel ih =>
    rw [lfGetblock]
    rcases lfFindoverlap_others B with
      ⟨hnone, hall⟩ | ⟨M, o, T, ov, hfound, hne, rfl, hM, hid, ho⟩
    · rw [hnone]
      exact .inl ⟨rfl, fun p hp hb => hall p hp hb.1 hb.2.1⟩
    · have hMb : ∀ p ∈ M, ¬ Blocks s lock p := fun p hp hb => hM p hp hb.1 hb.2.1
      rw [hfound]
      split
      next h =>
        cases h
        exact absurd rfl hne
      next h => cases h
      next h =>
        cases h
        split
        next hc => exact .inr ⟨M, o, T, rfl, rfl, hMb, hid, ho, Or.symm hc⟩
        next hc =>
          have hob : ¬ Blocks s lock o := fun hb => hc (Or.symm hb.2.2)
          rcases ih (B := T) (by simp at hf; omega) with ⟨h, hall⟩ | ⟨M', b, T', h, rfl, hM', hb⟩
          · refine .inl ⟨h, fun p hp => ?_⟩
            rcases mem_append.mp hp with hp | hp
            · exact hMb p hp
            · rcases mem_cons.mp hp with rfl | hp
              · exact hob
              · exact hall p hp
          · refine .inr ⟨M ++ o :: M', b, T', h, by simp, fun p hp => ?_, hb⟩
            rcases mem_append.mp hp with hp | hp
            · exact hMb p hp
            · rcases mem_cons.mp hp with rfl | hp
              · exact hob
              · exact hM' p hp

theorem lfDeadlock_spec {fuel : Nat} (hf : B.length < fuel)
    (h : lfDeadlock s lock fuel B = false) {b : LockPtr} (hb : b ∈ B) (hblocks : Blocks s lock b)
    (hposix : (s.mem b).lfFlags.posix = true) (hp : p ∈ s.lsPending) :
    lfDeadlockPair s lock b p = false := by
  induction fuel generalizing B with
  | zero => cases hf
  | succ fuel ih =>
    rw [lfDeadlock] at h
    rcases lfGetblock_spec s lock (Nat.lt_succ_self B.length) with
      ⟨-, hall⟩ | ⟨M, b', T, hget, rfl, hM, -⟩
    · exact absurd hblocks (hall b hb)
    · rw [hget, Bool.or_eq_false_iff] at h
      rcases mem_append.mp hb with hb | hb
      · exact absurd hblocks (hM b hb)
      · rcases mem_cons.mp hb with rfl | hb
        · rw [hposix, Bool.true_and, any_eq_false] at h
          exact Bool.not_eq_true _ ▸ h.1 p hp
        · exact ih (by simp at hf; omega) h.2 hb

end Mbsd.Kern.VfsLockf
