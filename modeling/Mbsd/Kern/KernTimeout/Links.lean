import Mbsd.Kern.KernTimeout.Model
import Mbsd.Lib.Circular

/-! The queues as circular lists in memory, and the calls that the list model leaves out:
`timeout_set_flags`, `timeout_barrier` and `timeout_adjust_ticks`. -/

namespace Mbsd.Kern.KernTimeout

open Lib Sys Circular

variable {ι : Type}

/-- What calls functions: `timeout_ctx_si`, `timeout_ctx_proc` and `timeout_ctx_proc_mp`. -/
inductive Ctx
  | si | proc | procMp
  deriving DecidableEq

def Ctx.todo : Ctx → Queue
  | .si => .todo
  | .proc => .proc
  | .procMp => .procMp

abbrev Node (ι : Type) := Queue ⊕ ι

structure Mem (ι : Type) where
  timeouts : ι → Timeout
  links : Links (Node ι)
  ticks : BitVec 32
  kcLastscan : Timespec
  kcOffset : Timespec
  softclock : Bool
  running : Ctx → Option ι

def Mem.st (m : Mem ι) (q : Queues ι) : St ι where
  timeouts := m.timeouts
  queues := q
  ticks := m.ticks
  kcLastscan := m.kcLastscan
  kcOffset := m.kcOffset
  softclock := m.softclock

section

variable (m : Mem ι) (q : Queues ι)

@[simp] theorem Mem.st_timeouts : (m.st q).timeouts = m.timeouts := rfl

@[simp] theorem Mem.st_queues : (m.st q).queues = q := rfl

end

variable [DecidableEq ι]

section MoveBucket

variable (ticks : BitVec 32) (L : Links (Node ι))

def moveBucketLinks (wheel : Nat) : Links (Node ι) :=
  L.concat (.inl .todo) (.inl (.wheel (MASKWHEEL wheel ticks + wheel * WHEELSIZE)))

def moveBucketsLinks : Links (Node ι) :=
  let L := moveBucketLinks ticks L 0
  if MASKWHEEL 0 ticks = 0 then
    let L := moveBucketLinks ticks L 1
    if MASKWHEEL 1 ticks = 0 then
      let L := moveBucketLinks ticks L 2
      if MASKWHEEL 2 ticks = 0 then moveBucketLinks ticks L 3 else L
    else L
  else L

end MoveBucket

namespace Mem

variable (m : Mem ι)

def setTimeout (id : ι) (t : Timeout) : Mem ι :=
  { m with timeouts := Function.update m.timeouts id t }

def timeoutSetFlags (id : ι) (kclock : Kclock) (proc mpsafe : Bool) : Option (Mem ι) := do
  kassert (mpsafe → proc)
  some (m.setTimeout id { m.timeouts id with
    toKclock := kclock, proc := proc, mpsafe := mpsafe, onqueue := false, triggered := false })

def insertTail (queue : Queue) (id : ι) : Mem ι :=
  { m with links := m.links.insertTail (.inl queue) (.inr id) }

def requeue (id : ι) (earlier : Bool) : Links (Node ι) :=
  if (m.timeouts id).onqueue then
    if earlier then (m.links.remove (.inr id)).insertTail (.inl .new) (.inr id) else m.links
  else m.links.insertTail (.inl .new) (.inr id)

def timeoutAdd (id : ι) (toTicks : BitVec 32) : Option (Mem ι × Nat) := do
  let new := m.timeouts id
  kassert (new.toKclock = .none)
  kassert (0 ≤ toTicks.toInt)
  let toTime := toTicks + m.ticks
  let earlier := (toTime - m.ticks).slt (new.toTime - m.ticks)
  some ({ m.setTimeout id { new with toTime := toTime, triggered := false, onqueue := true } with
    links := m.requeue id earlier }, if new.onqueue then 0 else 1)

def timeoutAbsTs (id : ι) (abstime : Timespec) : Option (Mem ι × Nat) := do
  let t := m.timeouts id
  kassert (t.toKclock = .uptime)
  let earlier := timespecLt abstime t.toAbstime
  some ({ m.setTimeout id { t with toAbstime := abstime, triggered := false, onqueue := true } with
    links := m.requeue id earlier }, if t.onqueue then 0 else 1)

def timeoutDel (id : ι) : Mem ι × Nat :=
  let t := m.timeouts id
  ({ m.setTimeout id { t with onqueue := false, triggered := false } with
    links := if t.onqueue then m.links.remove (.inr id) else m.links },
    if t.onqueue then 1 else 0)

/-- `barrier` is a timeout on the stack; `proc` and `mpsafe` are flags of `to_` that were read
before. -/
def timeoutBarrier (mp : Bool) (to_ barrier : ι) (proc mpsafe : Bool) : Option (Mem ι) := do
  let m ← m.timeoutSetFlags barrier .none proc mpsafe
  let tctx : Ctx := if proc then if mp && mpsafe then .procMp else .proc else .si
  if m.running tctx ≠ some to_ then some m
  else
    some { m.setTimeout barrier { m.timeouts barrier with toTime := m.ticks, onqueue := true } with
      links := m.links.insertHead (.inl tctx.todo) (.inr barrier) }

def timeoutHardclockUpdate (now : Timespec) : Mem ι :=
  { m with
    links := (scanFrom m.kcLastscan now WHEELCOUNT 0).foldl
      (fun L b => L.concat (.inl .todo) (.inl (.wheelKc b))) (moveBucketsLinks m.ticks m.links)
    kcLastscan := timespecAdd now m.kcOffset }

def timeoutRun (tctx : Ctx) (id : ι) : Mem ι :=
  { m.setTimeout id { m.timeouts id with onqueue := false, triggered := true } with
    running := Function.update m.running tctx (some id) }

def processDue (mp : Bool) (id : ι) : Mem ι × Option ι :=
  let t := m.timeouts id
  if t.proc then
    if mp && t.mpsafe then (m.insertTail .procMp id, none) else (m.insertTail .proc id, none)
  else (m.timeoutRun .si id, some id)

def softclockProcessKclockTimeout (mp : Bool) (id : ι) : Option (Mem ι × Option ι) :=
  let t := m.timeouts id
  if timespecLt m.kcLastscan t.toAbstime then do
    let b ← (m.st fun _ => []).timeoutBucket t
    some (m.insertTail (.wheelKc b) id, none)
  else some (m.processDue mp id)

def softclockProcessTickTimeout (mp : Bool) (id : ι) : Mem ι × Option ι :=
  let t := m.timeouts id
  let delta := t.toTime - m.ticks
  if 0 < delta.toInt then (m.insertTail (.wheel (BUCKET delta t.toTime)) id, none)
  else m.processDue mp id

def softclockNext (mp : Bool) : Option (Mem ι × Option ι) :=
  if m.links.Empty (.inl .todo) then some ({ m with softclock := false }, none)
  else
    match m.links.next (.inl .todo) with
    | .inl _ => none
    | .inr id =>
      let m := { m with links := m.links.remove (.inr id) }
      match (m.timeouts id).toKclock with
      | .none => some (m.softclockProcessTickTimeout mp id)
      | .uptime => m.softclockProcessKclockTimeout mp id

def softclockThreadRun (tctx : Ctx) : Option (Mem ι × Option ι) :=
  if m.links.Empty (.inl tctx.todo) then some (m, none)
  else
    match m.links.next (.inl tctx.todo) with
    | .inl _ => none
    | .inr id => some ({ m with links := m.links.remove (.inr id) }.timeoutRun tctx id, some id)

def adjustBucket (adj newTicks : BitVec 32) (b : Nat) : Nat → Mem ι → Node ι → Option (Mem ι)
  | turns, m, p =>
    if p = .inl (.wheel b) then some m
    else
      match turns, p with
      | 0, _ => none
      | _, .inl _ => none
      | turns + 1, .inr to_ =>
        let p := m.links.next (.inr to_)
        let t := m.timeouts to_
        let m :=
          if (t.toTime - m.ticks).slt adj then m.setTimeout to_ { t with toTime := newTicks } else m
        adjustBucket adj newTicks b turns
          ({ m with links := m.links.remove (.inr to_) }.insertTail .todo to_) p

theorem adjustBucket_head (adj newTicks : BitVec 32) (b turns : Nat) :
    m.adjustBucket adj newTicks b turns (.inl (.wheel b)) = some m := by
  cases turns <;> simp [adjustBucket]

theorem adjustBucket_zero (adj newTicks : BitVec 32) (b : Nat) (to_ : ι) :
    m.adjustBucket adj newTicks b 0 (.inr to_) = none := by
  simp [adjustBucket]

def adjustBuckets (turns : Nat) (adj newTicks : BitVec 32) : List Nat → Mem ι → Option (Mem ι)
  | [], m => some m
  | b :: bs, m =>
    (m.adjustBucket adj newTicks b turns (m.links.next (.inl (.wheel b)))).bind
      (adjustBuckets turns adj newTicks bs)

def timeoutAdjustTicks (turns : Nat) (adj : BitVec 32) : Option (Mem ι) :=
  if adj.toInt ≤ 0 then some m
  else do
    let newTicks := m.ticks + adj
    let m ← m.adjustBuckets turns adj newTicks (List.range (WHEELCOUNT * WHEELSIZE))
    some { m with ticks := newTicks }

def stepAct (mp : Bool) : Act ι → Option (Mem ι × Option ι)
  | .add id toTicks => (m.timeoutAdd id toTicks).map fun r => (r.1, none)
  | .absTs id abstime => (m.timeoutAbsTs id abstime).map fun r => (r.1, none)
  | .del id => some ((m.timeoutDel id).1, none)
  | .tick => some ({ m with ticks := m.ticks + 1#32 }, none)
  | .hardclockUpdate now => some (m.timeoutHardclockUpdate now, none)
  | .softclock =>
    if m.softclock then none
    else
      some ({ m with links := m.links.concat (.inl .todo) (.inl .new), softclock := true }, none)
  | .softclockNext =>
    if m.softclock ∧ m.running .si = none then m.softclockNext mp else none
  | .thread => if m.running .proc = none then m.softclockThreadRun .proc else none
  | .threadMp => if m.running .procMp = none then m.softclockThreadRun .procMp else none

end Mem

inductive Event (ι : Type)
  | set (id : ι)
  | add (id : ι)
  | del (id : ι)
  | run (id : ι)
  deriving DecidableEq

def Event.timeout : Event ι → ι
  | .set id | .add id | .del id | .run id => id

def Act.event (called : Option ι) : Act ι → Option (Event ι)
  | .add id _ => some (.add id)
  | .absTs id _ => some (.add id)
  | .del id => some (.del id)
  | _ => called.map .run

/-- The steps of the list model, and those that it leaves out.  `ret` is the end of a function that
a context has called. -/
inductive Call (ι : Type)
  | act (act : Act ι)
  | set (id : ι) (kclock : Kclock) (proc mpsafe : Bool)
  | barrier (to_ b : ι) (proc mpsafe : Bool)
  | adjustTicks (turns : Nat) (adj : BitVec 32)
  | ret (tctx : Ctx)

def Mem.step (mp : Bool) (m : Mem ι) : Call ι → Option (Mem ι × List (Event ι))
  | .act act => (m.stepAct mp act).map fun r => (r.1, (act.event r.2).toList)
  | .set id kclock proc mpsafe =>
    (m.timeoutSetFlags id kclock proc mpsafe).map fun m' => (m', [.set id])
  | .barrier to_ b proc mpsafe =>
    (m.timeoutBarrier mp to_ b proc mpsafe).map fun m' =>
      (m', if (m'.timeouts b).onqueue then [.add b, .set b] else [.set b])
  | .adjustTicks turns adj => (m.timeoutAdjustTicks turns adj).map fun m' => (m', [])
  | .ret tctx => some ({ m with running := Function.update m.running tctx none }, [])

def Call.Fresh (m : Mem ι) : Call ι → Prop
  | .set id _ _ _ => (m.timeouts id).onqueue = false
  | .barrier _ b _ _ => (m.timeouts b).onqueue = false
  | _ => True

def Mem.timeoutStartup (timeouts : ι → Timeout) (L : Links (Node ι)) (ticks : BitVec 32) :
    Mem ι where
  timeouts id := { timeouts id with onqueue := false, triggered := false }
  links := ⟨Sum.elim .inl fun id => L.next (.inr id), Sum.elim .inl fun id => L.prev (.inr id)⟩
  ticks := ticks
  kcLastscan := ⟨0, 0, Timespec.zero_lt⟩
  kcOffset := ⟨0, 0, Timespec.zero_lt⟩
  softclock := false
  running _ := none

/-- The memories that `allowed` calls lead to, each with its events so far, the last one first. -/
inductive Reach (mp : Bool) (allowed : Mem ι → Call ι → Prop) : Mem ι → List (Event ι) → Prop
  | timeoutStartup (timeouts : ι → Timeout) (L : Links (Node ι)) (ticks : BitVec 32) :
    Reach mp allowed (.timeoutStartup timeouts L ticks) []
  | step {m m' : Mem ι} {h es : List (Event ι)} {c : Call ι} :
    Reach mp allowed m h → allowed m c → m.step mp c = some (m', es) →
      Reach mp allowed m' (es ++ h)

end Mbsd.Kern.KernTimeout
