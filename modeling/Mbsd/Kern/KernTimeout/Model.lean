import Mathlib.Data.BitVec
import Mbsd.Lib.Tailq
import Mbsd.Sys

/-! Timeouts as in `kern/kern_timeout.c`: two timing wheels, the queues beside them, and what takes a
timeout from one to the other.  A step is what one holder of `timeout_mutex` does; the statistics are
left out. -/

namespace Mbsd.Kern.KernTimeout

open Lib Sys

def WHEELCOUNT : Nat := 4
def WHEELSIZE : Nat := 256
def WHEELMASK : BitVec 32 := 255#32
def WHEELBITS : Nat := 8

section Timespec

structure Timespec where
  tvSec : Int
  tvNsec : Nat
  nsec_lt : tvNsec < 1000000000
  deriving DecidableEq

theorem Timespec.zero_lt : 0 < 1000000000 := by decide

variable (t u : Timespec)

def timespecAdd : Timespec :=
  if h : 1000000000 ≤ t.tvNsec + u.tvNsec then
    ⟨t.tvSec + u.tvSec + 1, t.tvNsec + u.tvNsec - 1000000000, by
      have := t.nsec_lt
      have := u.nsec_lt
      omega⟩
  else ⟨t.tvSec + u.tvSec, t.tvNsec + u.tvNsec, Nat.lt_of_not_le h⟩

def timespecSub : Timespec :=
  if h : t.tvNsec < u.tvNsec then
    ⟨t.tvSec - u.tvSec - 1, t.tvNsec + 1000000000 - u.tvNsec, by omega⟩
  else ⟨t.tvSec - u.tvSec, t.tvNsec - u.tvNsec, Nat.lt_of_le_of_lt (Nat.sub_le _ _) t.nsec_lt⟩

def timespecLt : Bool :=
  if t.tvSec = u.tvSec then t.tvNsec < u.tvNsec else t.tvSec < u.tvSec

end Timespec

def timeoutLevelWidth (level : Nat) : Int := (2 : Int) <<< (level * WHEELBITS)

def timeoutMaskwheel (level : Nat) (abstime : Timespec) : Nat :=
  let hi := BitVec.ofInt 32 (abstime.tvSec <<< (7 : Nat))
  let lo := BitVec.ofNat 32 (abstime.tvNsec / 7812500)
  (((hi ||| lo) >>> (level * WHEELBITS)) &&& WHEELMASK).toNat

def MASKWHEEL (wheel : Nat) (time : BitVec 32) : Nat :=
  ((time.sshiftRight (wheel * WHEELBITS)) &&& WHEELMASK).toNat

def BUCKET (rel abs : BitVec 32) : Nat :=
  if rel.toInt ≤ (1 : Int) <<< (2 * WHEELBITS) then
    if rel.toInt ≤ (1 : Int) <<< WHEELBITS then MASKWHEEL 0 abs else MASKWHEEL 1 abs + WHEELSIZE
  else if rel.toInt ≤ (1 : Int) <<< (3 * WHEELBITS) then MASKWHEEL 2 abs + 2 * WHEELSIZE
  else MASKWHEEL 3 abs + 3 * WHEELSIZE

inductive Kclock
  | none | uptime
  deriving DecidableEq

structure Timeout where
  toKclock : Kclock
  toTime : BitVec 32
  toAbstime : Timespec
  proc : Bool
  mpsafe : Bool
  onqueue : Bool
  triggered : Bool

inductive Queue
  | wheel (b : Nat)
  | wheelKc (b : Nat)
  | new | todo | proc | procMp
  deriving DecidableEq

abbrev Queues (ι : Type) := Queue → List ι

structure St (ι : Type) where
  timeouts : ι → Timeout
  queues : Queues ι
  ticks : BitVec 32
  kcLastscan : Timespec
  kcOffset : Timespec
  /-- `softclock` is in its loop. -/
  softclock : Bool

variable {ι : Type}

section MoveBucket

variable (ticks : BitVec 32) (q : Queues ι)

def moveBucket (wheel : Nat) : Queues ι :=
  Circq.concat q .todo (.wheel (MASKWHEEL wheel ticks + wheel * WHEELSIZE))

def moveBuckets : Queues ι :=
  let q := moveBucket ticks q 0
  if MASKWHEEL 0 ticks = 0 then
    let q := moveBucket ticks q 1
    if MASKWHEEL 1 ticks = 0 then
      let q := moveBucket ticks q 2
      if MASKWHEEL 2 ticks = 0 then moveBucket ticks q 3 else q
    else q
  else q

end MoveBucket

variable [DecidableEq ι]

namespace St

variable (s : St ι)

def setTimeout (id : ι) (t : Timeout) : St ι :=
  { s with timeouts := Function.update s.timeouts id t }

/-- What `timeout_add` and `timeout_abs_ts` do to the queues. -/
def requeue (id : ι) (earlier : Bool) : Queues ι :=
  if (s.timeouts id).onqueue then
    if earlier then Circq.insertTail (Circq.remove s.queues id) .new id else s.queues
  else Circq.insertTail s.queues .new id

def timeoutAdd (id : ι) (toTicks : BitVec 32) : Option (St ι × Nat) := do
  let new := s.timeouts id
  kassert (new.toKclock = .none)
  kassert (0 ≤ toTicks.toInt)
  let toTime := toTicks + s.ticks
  let earlier := (toTime - s.ticks).slt (new.toTime - s.ticks)
  some ({ s.setTimeout id { new with toTime := toTime, triggered := false, onqueue := true } with
    queues := s.requeue id earlier }, if new.onqueue then 0 else 1)

def timeoutAbsTs (id : ι) (abstime : Timespec) : Option (St ι × Nat) := do
  let t := s.timeouts id
  kassert (t.toKclock = .uptime)
  let earlier := timespecLt abstime t.toAbstime
  some ({ s.setTimeout id { t with toAbstime := abstime, triggered := false, onqueue := true } with
    queues := s.requeue id earlier }, if t.onqueue then 0 else 1)

def timeoutDel (id : ι) : St ι × Nat :=
  let t := s.timeouts id
  ({ s.setTimeout id { t with onqueue := false, triggered := false } with
    queues := if t.onqueue then Circq.remove s.queues id else s.queues },
    if t.onqueue then 1 else 0)

end St

section Hardclock

/-- The buckets of a level from `first` on up to `last`, around its end. -/
def circular (last : Nat) : Nat → Nat → List Nat
  | 0, _ => []
  | n + 1, b => b :: if b = last then [] else circular last n ((b + 1) % WHEELSIZE)

variable (lastscan now : Timespec)

/-- The last bucket to dump at a level, and whether the levels above it stay as they are. -/
def scanLast (level : Nat) : Nat × Bool :=
  let first := timeoutMaskwheel level lastscan
  if timeoutLevelWidth level ≤ (timespecSub now lastscan).tvSec then
    (if first = 0 then WHEELSIZE - 1 else first - 1, false)
  else (timeoutMaskwheel level now, first ≤ timeoutMaskwheel level now)

def scanFrom : Nat → Nat → List Nat
  | 0, _ => []
  | n + 1, level =>
    let first := timeoutMaskwheel level lastscan
    let (last, done) := scanLast lastscan now level
    (circular last WHEELSIZE first).map (level * WHEELSIZE + ·) ++
      if done then [] else scanFrom n (level + 1)

end Hardclock

namespace St

variable (s : St ι)

def timeoutHardclockUpdate (now : Timespec) : St ι :=
  { s with
    queues := (scanFrom s.kcLastscan now WHEELCOUNT 0).foldl
      (fun q b => Circq.concat q .todo (.wheelKc b)) (moveBuckets s.ticks s.queues)
    kcLastscan := timespecAdd now s.kcOffset }

def timeoutBucket (t : Timeout) : Option Nat := do
  kassert (timespecLt s.kcLastscan t.toAbstime = true)
  let diff := timespecSub t.toAbstime s.kcLastscan
  let level :=
    if diff.tvSec < timeoutLevelWidth 0 then 0
    else if diff.tvSec < timeoutLevelWidth 1 then 1
    else if diff.tvSec < timeoutLevelWidth 2 then 2
    else 3
  let shiftedAbstime := timespecAdd t.toAbstime s.kcOffset
  some (level * WHEELSIZE + timeoutMaskwheel level shiftedAbstime)

/-- The timeout, which is on no queue, is marked as run; its function is called then. -/
def timeoutRun (id : ι) : St ι :=
  s.setTimeout id { s.timeouts id with onqueue := false, triggered := true }

def processDue (mp : Bool) (id : ι) : St ι × Option ι :=
  let t := s.timeouts id
  if t.proc then
    if mp && t.mpsafe then ({ s with queues := Circq.insertTail s.queues .procMp id }, none)
    else ({ s with queues := Circq.insertTail s.queues .proc id }, none)
  else (s.timeoutRun id, some id)

def softclockProcessKclockTimeout (mp : Bool) (id : ι) : Option (St ι × Option ι) :=
  let t := s.timeouts id
  if timespecLt s.kcLastscan t.toAbstime then do
    let b ← s.timeoutBucket t
    some ({ s with queues := Circq.insertTail s.queues (.wheelKc b) id }, none)
  else some (s.processDue mp id)

def softclockProcessTickTimeout (mp : Bool) (id : ι) : St ι × Option ι :=
  let t := s.timeouts id
  let delta := t.toTime - s.ticks
  if 0 < delta.toInt then
    ({ s with queues := Circq.insertTail s.queues (.wheel (BUCKET delta t.toTime)) id }, none)
  else s.processDue mp id

def softclockNext (mp : Bool) : Option (St ι × Option ι) :=
  match s.queues .todo with
  | [] => some ({ s with softclock := false }, none)
  | id :: _ =>
    let s := { s with queues := Circq.remove s.queues id }
    match (s.timeouts id).toKclock with
    | .none => some (s.softclockProcessTickTimeout mp id)
    | .uptime => s.softclockProcessKclockTimeout mp id

/-- One round of `softclock_thread_run`, for the thread of a queue. -/
def softclockThreadRun (queue : Queue) : St ι × Option ι :=
  match s.queues queue with
  | [] => (s, none)
  | id :: _ => ({ s with queues := Circq.remove s.queues id }.timeoutRun id, some id)

end St

inductive Act (ι : Type)
  | add (id : ι) (toTicks : BitVec 32)
  | absTs (id : ι) (abstime : Timespec)
  | del (id : ι)
  | tick
  | hardclockUpdate (now : Timespec)
  | softclock
  | softclockNext
  | thread
  | threadMp

/-- One step, with the timeout whose function it calls; `none` when the step cannot be made. -/
def St.step (mp : Bool) (s : St ι) : Act ι → Option (St ι × Option ι)
  | .add id toTicks => (s.timeoutAdd id toTicks).map fun r => (r.1, none)
  | .absTs id abstime => (s.timeoutAbsTs id abstime).map fun r => (r.1, none)
  | .del id => some ((s.timeoutDel id).1, none)
  | .tick => some ({ s with ticks := s.ticks + 1#32 }, none)
  | .hardclockUpdate now => some (s.timeoutHardclockUpdate now, none)
  | .softclock =>
    if s.softclock then none
    else some ({ s with queues := Circq.concat s.queues .todo .new, softclock := true }, none)
  | .softclockNext => if s.softclock then s.softclockNext mp else none
  | .thread => some (s.softclockThreadRun .proc)
  | .threadMp => some (s.softclockThreadRun .procMp)

/-- `timeout_startup`, with timeouts as `timeout_set_flags` leaves them. -/
def timeoutStartup (timeouts : ι → Timeout) (ticks : BitVec 32) : St ι where
  timeouts id := { timeouts id with onqueue := false, triggered := false }
  queues _ := []
  ticks := ticks
  kcLastscan := ⟨0, 0, by decide⟩
  kcOffset := ⟨0, 0, by decide⟩
  softclock := false

end Mbsd.Kern.KernTimeout
