import Mathlib.Data.BitVec
import Mbsd.Lib.CountIn
import Mbsd.Sys

/-! The message queues of `kern/sysv_msg.c`, with any calls under way.  A call runs alone from one
sleep to the next: in `tsleep`, in `malloc` and `pool_get`, in `copyin` and `copyout`.  What
`ipcperm`, the copies and the sleeps answer is left open.  Owners, modes, times and process numbers are left
out.  The numbers of the messages, what was sent and what was received is kept beside the kernel's
data. -/

namespace Mbsd.Kern.SysvMsg

open Lib.Tally Sys

abbrev Byte := BitVec 8

structure Msginfo where
  msgmax : Nat
  msgmni : Nat
  msgmnb : Nat
  msgtql : Nat

def msginfo : Msginfo := ⟨8 * 2048, 40, 2048, 40⟩

def mlen : Nat := 224

def mclbytes : Nat := 2048

def minclsize : Nat := 144 + mlen + 1

structure Msg where
  id : Nat
  msgType : Int
  msgLen : Nat
  msgData : List (List Byte)
  one_le : 1 ≤ msgType
  deriving DecidableEq

/-- The bits of `que_flags` are fields.  A queue of 2^64 bytes does not exist, so the counts are
numbers.  `lowered` tells whether `IPC_SET` has ever lowered `msg_qbytes`. -/
structure Que where
  queIx : Nat
  key : Int
  seq : Nat
  msgQbytes : Nat
  msgCbytes : Nat
  msgQnum : Nat
  readers : Bool
  writers : Bool
  dying : Bool
  queReferences : Nat
  queMsgs : List Msg
  lowered : Bool

/-- Where a process is: out of the calls, with what the last one returned, or asleep. -/
inductive Phase
  | returned (r : Except Errno Nat)
  | sndWait (q msgsz : Nat)
  | sndCreate (q msgsz : Nat)
  | sndCopyin (q msgsz id : Nat)
  | rcvWait (q : Nat) (msgtyp : Int) (msgsz : Nat)
  | rcvCopyout (q : Nat) (m : Msg) (msgtyp : Int) (msgsz : Nat)
  | rmWait (q : Nat)
  | setCopyin (q : Nat)
  | statCopyout (q : Nat)
  | queCreate (key : Int) (creat excl : Bool)

/-- What a receive with `msgtyp` took out of the queue `que`, which held `msgs`. -/
structure Receipt where
  que : Nat
  msgtyp : Int
  msgs : List Msg
  msg : Msg

/-- A queue is known by its place in `heap`, a process by its place in `procs`. -/
structure State where
  heap : List (Option Que)
  msgQueues : List Nat
  numQues : Nat
  numMsgs : Nat
  sequence : Nat
  maxmsgs : Bool
  procs : List Phase
  awake : Nat → Bool
  faulted : Bool
  nextMsg : Nat
  sent : List (Nat × Msg)
  received : List Receipt

def msginit : State :=
  ⟨[], [], 0, 0, 1, false, [], fun _ => false, false, 0, [], []⟩

namespace State

def que (s : State) (q : Nat) : Option Que := s.heap[q]?.join

def setQue (s : State) (q : Nat) (que : Que) : State := { s with heap := s.heap.set q (some que) }

def fault (s : State) : State := { s with faulted := true }

def deref (s : State) (q : Nat) (f : Que → State) : State := (s.que q).elim s.fault f

def goOn (s : State) (i : Nat) (phase : Phase) : State :=
  { s with procs := s.procs.set i phase, awake := Function.update s.awake i false }

def sleepsOn (s : State) (q j : Nat) : Bool :=
  match s.procs[j]? with
  | some (.sndWait q' _) => q' = q
  | some (.rcvWait q' _ _) => q' = q
  | _ => false

def wakeup (s : State) (q : Nat) : State :=
  { s with awake := fun j => s.awake j || s.sleepsOn q j }

def removes (s : State) (q j : Nat) : Bool :=
  match s.procs[j]? with
  | some (.rmWait q') => q' = q
  | _ => false

def wakeupOne (s : State) (q : Nat) : State :=
  { s with awake := fun j => s.awake j || s.removes q j }

end State

open State

def qref (que : Que) : Que := { que with queReferences := que.queReferences + 1 }

def qrele (s : State) (q : Nat) (que : Que) : State :=
  let que := { que with queReferences := que.queReferences - 1 }
  let s := s.setQue q que
  if que.queReferences = 0 ∧ que.dying then s.wakeupOne q else s

def out (s : State) (i q : Nat) (r : Except Errno Nat) : State :=
  s.deref q fun que => (qrele s q que).goOn i (.returned r)

def queLookup (s : State) (id : Nat) : Option Nat :=
  (s.msgQueues.find? fun q => (s.que q).any (·.queIx == id % 0x10000)).filter fun q =>
    (s.que q).any (!·.dying)

def queKeyLookup (s : State) (key : Int) : Option Nat :=
  if key = 0 then none
  else
    (s.msgQueues.find? fun q => (s.que q).any (·.key == key)).filter fun q =>
      (s.que q).any (!·.dying)

/-- The index for a new queue, and the queues with it in its place. -/
def nextIx (ix : Nat → Nat) (new : Nat) : Nat → List Nat → Nat × List Nat
  | nextix, [] => (nextix, [new])
  | nextix, q :: l =>
    if nextix < ix q then (nextix, new :: q :: l)
    else
      let (nextix, l) := nextIx ix new (ix q + 1) l
      (nextix, q :: l)

def ixseqToIpcid (que : Que) : Nat := que.seq <<< 16 ||| que.queIx &&& 0xffff

/-- `que_create`, when `malloc` has returned and no queue has the key. -/
def queCreate (s : State) (key : Int) : State × Que :=
  let (nextix, msgQueues) :=
    nextIx (fun q => (s.que q).elim 0 (·.queIx)) s.heap.length 1 s.msgQueues
  let sequence := s.sequence + 1
  let que : Que :=
    ⟨nextix, key, sequence % 0x8000, msginfo.msgmnb, 0, 0, false, false, false, 0, [], false⟩
  ({ s with
      heap := s.heap ++ [some que]
      msgQueues := msgQueues
      sequence := sequence
      numQues := s.numQues + 1 }, que)

def queFree (s : State) (q : Nat) (que : Que) : State :=
  if 0 < que.queReferences then s.fault
  else
    { s with
      heap := s.heap.set q none
      numMsgs := s.numMsgs - que.queMsgs.length
      numQues := s.numQues - 1 }

def queWakewriter (s : State) (q : Nat) : State :=
  s.deref q fun que =>
    if que.writers then (s.setQue q { que with writers := false }).wakeup q else s

def queWakewriters (s : State) : State := s.msgQueues.foldl queWakewriter s

def umin (a b : Nat) : Nat := min (a % 2 ^ 32) (b % 2 ^ 32)

/-- The lengths of the mbufs that `msg_copyin` gets for `len` bytes, in at most `len` rounds. -/
def copyinLens (len : Nat) : List Nat :=
  let xfer := if minclsize ≤ len then umin len mclbytes else umin len mlen
  loop xfer len 0
where
  loop (xfer : Nat) : Nat → Nat → List Nat
    | 0, _ => []
    | rounds + 1, msgLen =>
      if msgLen < len then xfer :: loop xfer rounds (msgLen + xfer) else []

def copiedLen (len : Nat) : Nat := (copyinLens len).sum

def chunks (ubuf : Nat → Byte) : Nat → List Nat → List (List Byte)
  | _, [] => []
  | off, n :: lens => (List.range n).map (fun j => ubuf (off + j)) :: chunks ubuf (off + n) lens

def copyinChunks (ubuf : Except Errno (Nat → Byte)) (lens : List Nat) :
    Except Errno (List (List Byte)) :=
  if lens = [] then .ok [] else ubuf.map fun ubuf => chunks ubuf 0 lens

/-- `type` and `ubuf` are what the copies of the type and of the bytes behind it bring. -/
def msgCopyin (id len : Nat) (type : Except Errno Int) (ubuf : Except Errno (Nat → Byte)) :
    Except Errno Msg :=
  match type with
  | .error e => .error e
  | .ok t =>
    if h : t < 1 then .error .EINVAL
    else
      (copyinChunks ubuf (copyinLens len)).map fun data =>
        ⟨id, t, copiedLen len, data, Int.not_lt.1 h⟩

def toInt (x : Int) : Int := x.bmod (2 ^ 32)

def msgLookup (msgs : List Msg) (msgtyp : Int) : Option Msg :=
  msgs.find? fun m =>
    msgtyp = 0 ∨ msgtyp = m.msgType ∨ msgtyp < 0 ∧ toInt (-msgtyp) ≤ m.msgType

def msgEnqueue (que : Que) (m : Msg) : Que :=
  { que with
    msgCbytes := que.msgCbytes + m.msgLen
    msgQnum := que.msgQnum + 1
    queMsgs := que.queMsgs ++ [m] }

def msgDequeue (que : Que) (m : Msg) : Que :=
  { que with
    msgCbytes := que.msgCbytes - m.msgLen
    msgQnum := que.msgQnum - 1
    queMsgs := que.queMsgs.erase m }

def msgqSpace (que : Que) : Nat :=
  (BitVec.ofNat 64 que.msgQbytes - BitVec.ofNat 64 que.msgCbytes).toNat

def sndLoop (s : State) (i q msgsz : Nat) (nowait : Bool) : State :=
  s.deref q fun que =>
    if msgqSpace que < msgsz ∨ msginfo.msgtql ≤ s.numMsgs then
      if nowait then out s i q (.error .EAGAIN)
      else
        let s := { s with maxmsgs := s.maxmsgs || decide (msginfo.msgtql ≤ s.numMsgs) }
        (s.setQue q { que with writers := true }).goOn i (.sndWait q msgsz)
    else s.goOn i (.sndCreate q msgsz)

def sysMsgsnd (s : State) (i msqid msgsz : Nat) (nowait : Bool) (perm : Option Errno) : State :=
  match queLookup s msqid with
  | none => s.goOn i (.returned (.error .EINVAL))
  | some q =>
    s.deref q fun que =>
      if que.msgQbytes < msgsz ∨ msginfo.msgmax < msgsz then
        s.goOn i (.returned (.error .EINVAL))
      else
        match perm with
        | some e => s.goOn i (.returned (.error e))
        | none => sndLoop (s.setQue q (qref que)) i q msgsz nowait

def sndWoken (s : State) (i q msgsz : Nat) (error : Option Errno) : State :=
  match error with
  | some e => out s i q (.error e)
  | none =>
    s.deref q fun que =>
      if que.dying then out s i q (.error .EIDRM) else sndLoop s i q msgsz false

def msgCreate (s : State) (i q msgsz : Nat) : State :=
  s.deref q fun que =>
    if que.dying then out (s.wakeup q) i q (.error .EIDRM)
    else
      { s with numMsgs := s.numMsgs + 1, nextMsg := s.nextMsg + 1 }.goOn i
        (.sndCopyin q msgsz s.nextMsg)

/-- A flag that is set is taken away, and the sleepers of the queue are woken. -/
def wakeReaders (s : State) (q : Nat) : State :=
  s.deref q fun que =>
    if que.readers then (s.setQue q { que with readers := false }).wakeup q else s

def sndCopied (s : State) (i q : Nat) (copied : Except Errno Msg) : State :=
  match copied with
  | .error e => out { s with numMsgs := s.numMsgs - 1 } i q (.error e)
  | .ok m =>
    s.deref q fun que =>
      let s :=
        { s.setQue q (msgEnqueue que m) with
          sent := if que.dying then s.sent else s.sent ++ [(q, m)] }
      let s := wakeReaders s q
      if que.dying then out (s.wakeup q) i q (.error .EIDRM) else out s i q (.ok 0)

/-- The loop of `sys_msgrcv`, up to where `msg_copyout` has looked at the length. -/
def rcvLoop (s : State) (i q : Nat) (msgtyp : Int) (msgsz : Nat) (nowait : Bool) : State :=
  s.deref q fun que =>
    match msgLookup que.queMsgs (toInt msgtyp) with
    | none =>
      if nowait then out s i q (.error .ENOMSG)
      else (s.setQue q { que with readers := true }).goOn i (.rcvWait q msgtyp msgsz)
    | some m =>
      if msginfo.msgmax < m.msgLen then s.fault else s.goOn i (.rcvCopyout q m msgtyp msgsz)

def sysMsgrcv (s : State) (i msqid msgsz : Nat) (msgtyp : Int) (nowait : Bool)
    (perm : Option Errno) : State :=
  match queLookup s msqid with
  | none => s.goOn i (.returned (.error .EINVAL))
  | some q =>
    match perm with
    | some e => s.goOn i (.returned (.error e))
    | none => s.deref q fun que => rcvLoop (s.setQue q (qref que)) i q msgtyp msgsz nowait

def rcvWoken (s : State) (i q : Nat) (msgtyp : Int) (msgsz : Nat) (error : Option Errno) : State :=
  match error with
  | some e => out s i q (.error e)
  | none =>
    s.deref q fun que =>
      if que.dying then out s i q (.error .EIDRM) else rcvLoop s i q msgtyp msgsz false

def rcvCopied (s : State) (i q : Nat) (m : Msg) (msgtyp : Int) (msgsz : Nat)
    (error : Option Errno) : State :=
  match error with
  | some e => out s i q (.error e)
  | none =>
    s.deref q fun que =>
      if m ∈ que.queMsgs then
        let s :=
          { s.setQue q (msgDequeue que m) with
            numMsgs := s.numMsgs - 1
            received := s.received ++ [⟨q, msgtyp, que.queMsgs, m⟩] }
        let s := queWakewriter s q
        let s := if s.maxmsgs then queWakewriters { s with maxmsgs := false } else s
        out s i q (.ok (umin msgsz m.msgLen))
      else s.fault

inductive Cmd
  | rmid
  | set
  | stat
  | other

def ipcRmid (s : State) (i q : Nat) : State :=
  s.deref q fun que =>
    let que := { que with dying := true, queReferences := que.queReferences - 1 }
    let s := { s with msgQueues := s.msgQueues.erase q }.setQue q que
    if 0 < que.queReferences then (s.wakeup q).goOn i (.rmWait q)
    else (queFree s q que).goOn i (.returned (.ok 0))

def sysMsgctl (s : State) (i msqid : Nat) (cmd : Cmd) (perm : Option Errno) : State :=
  match queLookup s msqid with
  | none => s.goOn i (.returned (.error .EINVAL))
  | some q =>
    s.deref q fun que =>
      let s := s.setQue q (qref que)
      match cmd, perm with
      | .other, _ => out s i q (.error .EINVAL)
      | _, some e => out s i q (.error e)
      | .rmid, none => ipcRmid s i q
      | .set, none => s.goOn i (.setCopyin q)
      | .stat, none => s.goOn i (.statCopyout q)

/-- `IPC_SET`, when `copyin` has returned.  Of the copy, only `msg_qbytes` matters here. -/
def setCopied (s : State) (i q : Nat) (qbytes : Except Errno Nat) (root : Bool) : State :=
  match qbytes with
  | .error e => out s i q (.error e)
  | .ok n =>
    s.deref q fun que =>
      if que.msgQbytes < n ∧ root = false then out s i q (.error .EPERM)
      else
        let n := if msginfo.msgmnb < n then msginfo.msgmnb else n
        if n = 0 then out s i q (.error .EINVAL)
        else
          let que :=
            { que with msgQbytes := n, lowered := que.lowered || decide (n < que.msgQbytes) }
          out (s.setQue q que) i q (.ok 0)

def statCopied (s : State) (i q : Nat) (error : Option Errno) : State :=
  out s i q (match error with | some e => .error e | none => .ok 0)

def sysMsgget (s : State) (i : Nat) (key : Int) (creat excl : Bool) (perm : Option Errno) : State :=
  match queKeyLookup s key with
  | some q =>
    if creat && excl then s.goOn i (.returned (.error .EEXIST))
    else
      match perm with
      | some e => s.goOn i (.returned (.error e))
      | none => s.deref q fun que => s.goOn i (.returned (.ok (ixseqToIpcid que)))
  | none =>
    if key ≠ 0 ∧ creat = false then s.goOn i (.returned (.error .ENOENT))
    else if msginfo.msgmni ≤ s.numQues then s.goOn i (.returned (.error .ENOSPC))
    else s.goOn i (.queCreate key creat excl)

def queAllocated (s : State) (i : Nat) (key : Int) (creat excl : Bool) (perm : Option Errno) :
    State :=
  match queKeyLookup s key with
  | some _ => sysMsgget s i key creat excl perm
  | none =>
    let (s, que) := queCreate s key
    s.goOn i (.returned (.ok (ixseqToIpcid que)))

def rmWoken (s : State) (i q : Nat) : State :=
  s.deref q fun que => (queFree s q que).goOn i (.returned (.ok 0))

inductive Action
  | fork
  | msgget (i : Nat) (key : Int) (creat excl : Bool) (perm : Option Errno)
  | msgctl (i msqid : Nat) (cmd : Cmd) (perm : Option Errno)
  | msgsnd (i msqid msgsz : Nat) (nowait : Bool) (perm : Option Errno)
  | msgrcv (i msqid msgsz : Nat) (msgtyp : Int) (nowait : Bool) (perm : Option Errno)
  | woken (i : Nat) (error : Option Errno)
  | allocated (i : Nat) (perm : Option Errno)
  | sndCopied (i : Nat) (type : Except Errno Int) (ubuf : Except Errno (Nat → Byte))
  | setCopied (i : Nat) (qbytes : Except Errno Nat) (root : Bool)
  | copiedOut (i : Nat) (error : Option Errno)

/-- What an action makes of the state, if it is possible.  A sleep in `tsleep` ends with a wakeup,
or with a signal at any time if it has `PCATCH`. -/
def act (s : State) : Action → Option State
  | .fork => some { s with procs := s.procs ++ [.returned (.ok 0)] }
  | .msgget i key creat excl perm =>
    match s.procs[i]? with
    | some (.returned _) => some (sysMsgget s i key creat excl perm)
    | _ => none
  | .msgctl i msqid cmd perm =>
    match s.procs[i]? with
    | some (.returned _) => some (sysMsgctl s i msqid cmd perm)
    | _ => none
  | .msgsnd i msqid msgsz nowait perm =>
    match s.procs[i]? with
    | some (.returned _) => some (sysMsgsnd s i msqid msgsz nowait perm)
    | _ => none
  | .msgrcv i msqid msgsz msgtyp nowait perm =>
    match s.procs[i]? with
    | some (.returned _) => some (sysMsgrcv s i msqid msgsz msgtyp nowait perm)
    | _ => none
  | .woken i error =>
    match s.procs[i]? with
    | some (.sndWait q msgsz) =>
      if error = none ∧ s.awake i = false then none else some (sndWoken s i q msgsz error)
    | some (.rcvWait q msgtyp msgsz) =>
      if error = none ∧ s.awake i = false then none else some (rcvWoken s i q msgtyp msgsz error)
    | some (.rmWait q) => if s.awake i then some (rmWoken s i q) else none
    | _ => none
  | .allocated i perm =>
    match s.procs[i]? with
    | some (.sndCreate q msgsz) => some (msgCreate s i q msgsz)
    | some (.queCreate key creat excl) => some (queAllocated s i key creat excl perm)
    | _ => none
  | .sndCopied i type ubuf =>
    match s.procs[i]? with
    | some (.sndCopyin q msgsz id) => some (sndCopied s i q (msgCopyin id msgsz type ubuf))
    | _ => none
  | .setCopied i qbytes root =>
    match s.procs[i]? with
    | some (.setCopyin q) => some (setCopied s i q qbytes root)
    | _ => none
  | .copiedOut i error =>
    match s.procs[i]? with
    | some (.rcvCopyout q m msgtyp msgsz) => some (rcvCopied s i q m msgtyp msgsz error)
    | some (.statCopyout q) => some (statCopied s i q error)
    | _ => none

end Mbsd.Kern.SysvMsg
