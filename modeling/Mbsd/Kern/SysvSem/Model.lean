import Mathlib.Data.BitVec
import Mbsd.Sys

/-! The semaphores of `kern/sysv_sem.c`, with any calls under way.  A call runs alone from one sleep
to the next: in `copyin`, on `&sema[semid]`, and in `pool_get` when the pool has to wait.  Owners,
modes, times and `sempid` are left out.  What the callers cannot see, what each call has changed and
which `SEM_UNDO` operations were successful, is kept beside the kernel's data. -/

namespace Mbsd.Kern.SysvSem

open Sys

structure Seminfo where
  semmni : Nat
  semmns : Nat
  semmnu : Nat
  semmsl : Nat
  semopm : Nat
  semvmx : Int
  semmsl_le : semmsl ≤ 0xffff

def defaults : Seminfo := ⟨10, 60, 30, 60, 100, 32767, by decide⟩

def semume : Nat := 10

structure Sem where
  semval : BitVec 16
  semncnt : BitVec 16
  semzcnt : BitVec 16
  deriving DecidableEq

structure SemidDs where
  key : BitVec 32
  seq : BitVec 16
  semNsems : Nat
  semBase : Nat → Sem

structure Sembuf where
  semNum : BitVec 16
  semOp : BitVec 16
  undo : Bool
  nowait : Bool
  deriving DecidableEq

def Sembuf.records (op : Sembuf) : Bool := op.undo && op.semOp != 0

structure Undo where
  unAdjval : BitVec 16
  unNum : BitVec 16
  unId : Nat
  deriving DecidableEq

structure SemUndo (π : Type) where
  unProc : π
  unEnt : List Undo

structure Semu (π : Type) where
  semuList : List (SemUndo π)
  semutot : Nat

def ipcidToIx (id : BitVec 32) : Nat := (id.setWidth 16).toNat

def ipcidToSeq (id : BitVec 32) : BitVec 16 := id.extractLsb' 16 16

def ixseqToIpcid (ix : Nat) (seq : BitVec 16) : BitVec 32 := seq ++ BitVec.ofNat 16 ix

/-! ### The vector -/

inductive Stop
  | through
  | blocked (sopptr : Sembuf)
  | efbig

structure Walk where
  semBase : Nat → Sem
  passed : List Sembuf
  stop : Stop
  doWakeup : Bool
  doUndos : Nat

def addVal (base : Nat → Sem) (num : Nat) (v : BitVec 16) : Nat → Sem :=
  Function.update base num { base num with semval := (base num).semval + v }

def Walk.pass (w : Walk) (op : Sembuf) (wakes : Bool) : Walk :=
  { w with
    passed := op :: w.passed
    doWakeup := wakes || w.doWakeup
    doUndos := (if op.records then 1 else 0) + w.doUndos }

def walk (nsems : Nat) : List Sembuf → (Nat → Sem) → Walk
  | [], base => ⟨base, [], .through, false, 0⟩
  | op :: ops, base =>
    let num := op.semNum.toNat
    let sem := base num
    if nsems ≤ num then ⟨base, [], .efbig, false, 0⟩
    else if op.semOp.toInt < 0 then
      if sem.semval.toNat + op.semOp.toInt < 0 then ⟨base, [], .blocked op, false, 0⟩
      else
        (walk nsems ops (addVal base num op.semOp)).pass op
          (sem.semval + op.semOp = 0 && 0 < sem.semzcnt)
    else if op.semOp = 0 then
      if 0 < sem.semval then ⟨base, [], .blocked op, false, 0⟩
      else (walk nsems ops base).pass op false
    else (walk nsems ops (addVal base num op.semOp)).pass op (0 < sem.semncnt)

def rollback (ops : List Sembuf) (base : Nat → Sem) : Nat → Sem :=
  ops.foldl (fun base op => addVal base op.semNum.toNat (-op.semOp)) base

/-! ### The undo entries -/

section Undo

/-- The last entry comes first: it fills the hole in front of `ents`. -/
def lastFirst (ents : List Undo) : List Undo :=
  match ents.getLast? with
  | none => []
  | some u => u :: ents.dropLast

/-- `un_num` is a `short`, and `semnum` an `int`. -/
def Undo.isFor (semid : Nat) (semnum : Int) (u : Undo) : Bool :=
  u.unId = semid && u.unNum.toInt = semnum

/-- What `semundo_adjust` does to the entries of a process: `none` is `EINVAL`. -/
def adjustEnt (semid : Nat) (semnum adjval : BitVec 16) (ents : List Undo) : Option (List Undo) :=
  let other u := !Undo.isFor semid semnum.toNat u
  match ents.dropWhile other with
  | u :: rest =>
    let v := if adjval = 0 then 0 else u.unAdjval + adjval
    if v ≠ 0 then some (ents.takeWhile other ++ { u with unAdjval := v } :: rest)
    else some (ents.takeWhile other ++ lastFirst rest)
  | [] =>
    if adjval = 0 then some ents
    else if ents.length = semume then none
    else some (ents ++ [⟨adjval, semnum, semid⟩])

/-- The loop of `semundo_clear` over the entries of a process, with `n` to look at.  `semnum` is
`none` for `-1`. -/
def clearLoop (semid : Nat) (semnum : Option Nat) : Nat → List Undo → List Undo → List Undo
  | 0, seen, ents => seen ++ ents
  | _ + 1, seen, [] => seen
  | n + 1, seen, u :: ents =>
    if u.unId = semid then
      match semnum with
      | none => clearLoop semid semnum n seen (lastFirst ents)
      | some num => if u.unNum.toInt = num then seen ++ lastFirst ents else seen ++ u :: ents
    else clearLoop semid semnum n (seen ++ [u]) ents

def clearEnt (semid : Nat) (semnum : Option Nat) (ents : List Undo) : List Undo :=
  clearLoop semid semnum ents.length [] ents

variable {π : Type}

def semundoClear (semu : Semu π) (semid : Nat) (semnum : Option Nat) : Semu π :=
  let cleared := semu.semuList.map fun u => { u with unEnt := clearEnt semid semnum u.unEnt }
  let kept := cleared.filter fun u => !u.unEnt.isEmpty
  ⟨kept, semu.semutot - (cleared.length - kept.length)⟩

inductive Adjust (π : Type)
  | done (semu : Semu π)
  | failed (error : Errno)
  | wait (semu : Semu π)

/-- What is left to do to the undo entries, the operations that are done last first. -/
inductive Rest
  | forward (done todo : List Sembuf)
  | back (error : Errno) (todo : List Sembuf)

inductive Undoing (π : Type)
  | done (semu : Semu π)
  | failed (error : Errno) (semu : Semu π)
  | panic (semu : Semu π)
  | wait (semu : Semu π) (rest : Rest)

variable [DecidableEq π]

def putEnt (p : π) (ents : List Undo) : List (SemUndo π) → List (SemUndo π)
  | [] => []
  | u :: l =>
    if u.unProc = p then if ents.isEmpty then l else { u with unEnt := ents } :: l
    else u :: putEnt p ents l

/-- The entries of `p` become `ents`, and its `sem_undo` is freed when there are none. -/
def Semu.put (semu : Semu π) (p : π) (ents : List Undo) : Semu π :=
  ⟨putEnt p ents semu.semuList, if ents.isEmpty then semu.semutot - 1 else semu.semutot⟩

def Semu.find (semu : Semu π) (p : π) : Option (SemUndo π) :=
  semu.semuList.find? (·.unProc = p)

def Semu.insert (semu : Semu π) (p : π) : Semu π :=
  { semu with semuList := ⟨p, []⟩ :: semu.semuList }

variable (info : Seminfo)

/-- `pool` is whether `pool_get` has an item without waiting.  `adjval` is an `int`, of which
`un_adjval` takes 16 bits. -/
def semundoAdjust (pool : Bool) (p : π) (semu : Semu π) (semid : Nat) (semnum adjval : BitVec 16) :
    Adjust π :=
  let adjust (semu : Semu π) (ents : List Undo) : Adjust π :=
    match adjustEnt semid semnum adjval ents with
    | some ents => .done (semu.put p ents)
    | none => .failed .EINVAL
  match semu.find p with
  | some suptr => adjust semu suptr.unEnt
  | none =>
    if adjval = 0 then .done semu
    else if semu.semutot = info.semmnu then .failed .ENOSPC
    else
      let semu := { semu with semutot := semu.semutot + 1 }
      if pool then adjust (semu.insert p) [] else .wait semu

def semuAllocated (semu : Semu π) (p : π) : Semu π :=
  match semu.find p with
  | some _ => { semu with semutot := semu.semutot - 1 }
  | none => semu.insert p

def undoBack (pool : Nat → Bool) (p : π) (semid : Nat) (error : Errno) :
    List Sembuf → Semu π → Undoing π
  | [], semu => .failed error semu
  | op :: ops, semu =>
    if op.records then
      match semundoAdjust info (pool ops.length) p semu semid op.semNum op.semOp with
      | .done semu => undoBack pool p semid error ops semu
      | .failed _ => .panic semu
      | .wait semu => .wait semu (.back error (op :: ops))
    else undoBack pool p semid error ops semu

def undoForward (pool : Bool → Nat → Bool) (p : π) (semid : Nat) :
    List Sembuf → List Sembuf → Semu π → Undoing π
  | _, [], semu => .done semu
  | done, op :: ops, semu =>
    if op.records then
      match semundoAdjust info (pool false ops.length) p semu semid op.semNum (-op.semOp) with
      | .done semu => undoForward pool p semid (op :: done) ops semu
      | .failed error => undoBack info (pool true) p semid error done semu
      | .wait semu => .wait semu (.forward done (op :: ops))
    else undoForward pool p semid (op :: done) ops semu

def undoRest (pool : Bool → Nat → Bool) (p : π) (semid : Nat) (semu : Semu π) : Rest → Undoing π
  | .forward done todo => undoForward info pool p semid done todo semu
  | .back error todo => undoBack info (pool true) p semid error todo semu

def Semu.entries (semu : Semu π) (p : π) : List Undo :=
  (semu.semuList.filter (·.unProc = p)).flatMap (·.unEnt)

/-- The `un_adjval` of `p`, zero where there is no entry. -/
def Semu.recorded (semu : Semu π) (p : π) (semid : Nat) (semnum : Int) : BitVec 16 :=
  (((semu.entries p).filter (Undo.isFor semid semnum)).map (·.unAdjval)).sum

end Undo

/-! ### The calls -/

inductive Phase
  | copyin
  | asleep (sopptr : Sembuf) (awake : Bool)
  | alloc (rest : Rest) (doWakeup : Bool)

/-- What a step changes of the semaphore values and of the undo entries. -/
structure Change (π : Type) where
  vals : Nat → Nat → Int
  undos : π → Nat → Int → BitVec 16

/-- A call of `sys_semop`.  The set that it has looked up may be freed while it sleeps.  `i` is where
the inner loop has stopped. -/
structure Call (π : Type) where
  proc : π
  semid : Nat
  seq : BitVec 16
  freed : Bool
  nsops : Nat
  sops : List Sembuf
  i : Nat
  doUndos : Nat
  phase : Phase
  steps : List (Change π)

structure Returned (π : Type) where
  semid : Nat
  sops : List Sembuf
  error : Option Errno
  steps : List (Change π)

inductive Mark (π : Type)
  | undo (p : π) (semid : Nat) (op : Sembuf)
  | setval (semid semnum : Nat)
  | clear (semid : Nat)
  | exit (p : π)

structure Sys (π : Type) where
  sema : Nat → Option SemidDs
  semseqs : Nat → BitVec 16
  semtot : Nat
  semu : Semu π
  calls : List (Call π)
  panicked : Bool
  undefined : Bool
  returned : List (Returned π)
  log : List (Mark π)

inductive Outcome (π : Type)
  | goOn (c : Call π)
  | ret (c : Call π) (error : Option Errno)
  | lost

variable {π : Type}

def Phase.awaken : Phase → Phase
  | .asleep sopptr _ => .asleep sopptr true
  | phase => phase

def Call.awaken (c : Call π) : Call π := { c with phase := c.phase.awaken }

namespace Sys

def wakeup (s : Sys π) (semid : Nat) : Sys π :=
  { s with calls := s.calls.map fun c => if c.semid = semid then c.awaken else c }

def setBase (s : Sys π) (semid : Nat) (d : SemidDs) (base : Nat → Sem) : Sys π :=
  { s with sema := Function.update s.sema semid (some { d with semBase := base }) }

def setSemu (s : Sys π) (semu : Semu π) : Sys π := { s with semu }

def mark (s : Sys π) (ms : List (Mark π)) : Sys π := { s with log := ms ++ s.log }

def val (s : Sys π) (semid num : Nat) : Nat :=
  match s.sema semid with
  | some d => (d.semBase num).semval.toNat
  | none => 0

def semaptr (s : Sys π) (c : Call π) : Option SemidDs := if c.freed then none else s.sema c.semid

end Sys

variable [DecidableEq π]

def Sys.change (s₀ s : Sys π) : Change π where
  vals semid num := s.val semid num - s₀.val semid num
  undos p semid num := s.semu.recorded p semid num - s₀.semu.recorded p semid num

def Sys.conclude (s₀ : Sys π) : Sys π × Outcome π → Sys π
  | (s, .goOn c) => { s with calls := { c with steps := c.steps ++ [s₀.change s] } :: s.calls }
  | (s, .ret c error) =>
    { s with returned := ⟨c.semid, c.sops, error, c.steps ++ [s₀.change s]⟩ :: s.returned }
  | (s, .lost) => s

variable (info : Seminfo)

def Sys.lookup (s : Sys π) (id : BitVec 32) : Option SemidDs :=
  if info.semmni ≤ ipcidToIx id then none
  else (s.sema (ipcidToIx id)).filter fun d => d.seq = ipcidToSeq id

def semop (s : Sys π) (p : π) (id : BitVec 32) (perm : Option Errno) (nsops : Nat) :
    Sys π × Outcome π :=
  let c : Call π := ⟨p, ipcidToIx id, ipcidToSeq id, false, nsops, [], 0, 0, .copyin, []⟩
  match s.lookup info id with
  | none => (s, .ret c (some .EINVAL))
  | some _ =>
    if perm.isSome then (s, .ret c perm)
    else if nsops = 0 then (s, .ret c none)
    else if info.semopm < nsops then (s, .ret c (some .E2BIG))
    else (s, .goOn c)

def semopDone (s : Sys π) (c : Call π) (d : SemidDs) (doWakeup : Bool) :
    Undoing π → Sys π × Outcome π
  | .done semu =>
    let s := s.setSemu semu
    let s := s.mark ((c.sops.filter (·.undo)).map (.undo c.proc c.semid ·))
    (if doWakeup then s.wakeup c.semid else s, .ret c none)
  | .failed error semu =>
    ((s.setSemu semu).setBase c.semid d (rollback c.sops d.semBase), .ret c (some error))
  | .panic semu => ({ s.setSemu semu with panicked := true }, .lost)
  | .wait semu rest => (s.setSemu semu, .goOn { c with phase := .alloc rest doWakeup })

def count (base : Nat → Sem) (sopptr : Sembuf) (v : BitVec 16) : Nat → Sem :=
  let num := sopptr.semNum.toNat
  let sem := base num
  Function.update base num
    (if sopptr.semOp = 0 then { sem with semzcnt := sem.semzcnt + v }
    else { sem with semncnt := sem.semncnt + v })

def semopTry (pool : Bool → Nat → Bool) (s : Sys π) (c : Call π) (d : SemidDs) :
    Sys π × Outcome π :=
  let w := walk d.semNsems c.sops d.semBase
  let c := { c with doUndos := c.doUndos + w.doUndos }
  let rolled := rollback w.passed w.semBase
  match w.stop with
  | .efbig => (s.setBase c.semid d w.semBase, .ret c (some .EFBIG))
  | .through =>
    if c.doUndos ≤ semume then
      semopDone (s.setBase c.semid d w.semBase) c { d with semBase := w.semBase } w.doWakeup
        (if c.doUndos = 0 then .done s.semu
        else undoForward info pool c.proc c.semid [] c.sops s.semu)
    else (s.setBase c.semid d rolled, .ret c (some .ENOSPC))
  | .blocked sopptr =>
    if semume < c.doUndos then (s.setBase c.semid d rolled, .ret c (some .ENOSPC))
    else if sopptr.nowait then (s.setBase c.semid d rolled, .ret c (some .EAGAIN))
    else
      (s.setBase c.semid d (count rolled sopptr 1),
        .goOn { c with i := w.passed.length, phase := .asleep sopptr false })

/-- `copyin` has returned.  Nobody asks whether the set is still there. -/
def semopCopied (pool : Bool → Nat → Bool) (s : Sys π) (c : Call π) :
    Except Errno (List Sembuf) → Sys π × Outcome π
  | .error e => (s, .ret c (some e))
  | .ok sops =>
    match s.semaptr c with
    | some d => semopTry info pool s { c with sops } d
    | none => ({ s with undefined := true }, .lost)

/-- `tsleep_nsec` has returned.  `stale` is the `seq` of a set that has been freed. -/
def semopResumed (pool : Bool → Nat → Bool) (s : Sys π) (c : Call π) (sopptr : Sembuf)
    (error : Bool) (stale : BitVec 16) : Sys π × Outcome π :=
  match s.sema c.semid with
  | none => (s, .ret c (some .EIDRM))
  | some d =>
    if (if c.freed then stale else d.seq) ≠ c.seq then (s, .ret c (some .EIDRM))
    else if c.freed then ({ s with undefined := true }, .lost)
    else
      let d := { d with semBase := count d.semBase sopptr (-1) }
      let s := s.setBase c.semid d d.semBase
      if error then (s, .ret c (some .EINTR)) else semopTry info pool s c d

def semopAllocated (pool : Bool → Nat → Bool) (s : Sys π) (c : Call π) (rest : Rest)
    (doWakeup : Bool) : Sys π × Outcome π :=
  let semu := semuAllocated s.semu c.proc
  match s.semaptr c with
  | some d => semopDone s c d doWakeup (undoRest info pool c.proc c.semid semu rest)
  | none => ({ s.setSemu semu with undefined := true }, .lost)

/-! ### The other system calls -/

def setval (s : Sys π) (id : BitVec 32) (perm : Option Errno) (semnum val : Int) :
    Sys π × Option Errno :=
  let ix := ipcidToIx id
  match s.lookup info id with
  | none => (s, some .EINVAL)
  | some d =>
    if perm.isSome then (s, perm)
    else if semnum < 0 ∨ d.semNsems ≤ semnum then (s, some .EINVAL)
    else if info.semvmx < val then (s, some .ERANGE)
    else
      let num := semnum.toNat
      let sem := { d.semBase num with semval := BitVec.ofInt 16 val }
      let s := s.setBase ix d (Function.update d.semBase num sem)
      let s := s.setSemu (semundoClear s.semu ix (some num))
      ((s.mark [.setval ix num]).wakeup ix, none)

/-- `sys___semctl` with `SETALL`, from where it has the values. -/
def setall (s : Sys π) (id : BitVec 32) (perm : Option Errno) (semval : Nat → BitVec 16) :
    Sys π × Option Errno :=
  let ix := ipcidToIx id
  match s.lookup info id with
  | none => (s, some .EINVAL)
  | some d =>
    if ∃ i < d.semNsems, info.semvmx < (semval i).toNat then (s, some .ERANGE)
    else if perm.isSome then (s, perm)
    else
      let s := s.setBase ix d fun i =>
        if i < d.semNsems then { d.semBase i with semval := semval i } else d.semBase i
      let s := s.setSemu (semundoClear s.semu ix none)
      ((s.mark [.clear ix]).wakeup ix, none)

def Sys.free (s : Sys π) (ix : Nat) : Sys π :=
  { s with
    sema := Function.update s.sema ix none
    calls := s.calls.map fun c => if c.semid = ix then { c with freed := true } else c }

def rmid (s : Sys π) (id : BitVec 32) (perm : Option Errno) : Sys π × Option Errno :=
  let ix := ipcidToIx id
  match s.lookup info id with
  | none => (s, some .EINVAL)
  | some d =>
    if perm.isSome then (s, perm)
    else
      let s := { s with semtot := s.semtot - d.semNsems }
      let s := (s.free ix).setSemu (semundoClear s.semu ix none)
      ((s.mark [.clear ix]).wakeup ix, none)

/-- `sys_semget`, from where it has the memory for a new set.  `perm` is what `ipcperm` says about
the set with the key. -/
def semget (s : Sys π) (key : BitVec 32) (nsems : Int) (creat excl : Bool) (perm : Option Errno) :
    Sys π × Except Errno (BitVec 32) :=
  let fresh := key = 0 ∨ creat
  if fresh ∧ (nsems ≤ 0 ∨ info.semmsl < nsems) then (s, .error .EINVAL)
  else if fresh ∧ (info.semmns : Int) - s.semtot < nsems then (s, .error .ENOSPC)
  else
    let hit := if key = 0 then none
      else (List.range info.semmni).findSome? fun ix =>
        (s.sema ix).bind fun d => if d.key = key then some (ix, d) else none
    match hit with
    | some (ix, d) =>
      match perm with
      | some e => (s, .error e)
      | none =>
        if 0 < nsems ∧ d.semNsems < nsems then (s, .error .EINVAL)
        else if creat ∧ excl then (s, .error .EEXIST)
        else (s, .ok (ixseqToIpcid ix d.seq))
    | none =>
      if fresh then
        match (List.range info.semmni).find? fun ix => (s.sema ix).isNone with
        | none => (s, .error .ENOSPC)
        | some ix =>
          let seq := (s.semseqs ix + 1) &&& 0x7fff
          let d : SemidDs := ⟨key, seq, nsems.toNat, fun _ => ⟨0, 0, 0⟩⟩
          let s := { s with
            sema := Function.update s.sema ix (some d)
            semseqs := Function.update s.semseqs ix seq
            semtot := s.semtot + nsems.toNat }
          (s.mark [.clear ix], .ok (ixseqToIpcid ix seq))
      else (s, .error .ENOENT)

/-- The value of a semaphore when an entry with `adjval` is applied. -/
def exitVal (semval adjval : BitVec 16) : BitVec 16 :=
  if adjval.toInt < 0 ∧ semval.toNat < -adjval.toInt then 0 else semval + adjval

/-- The loop of `semexit` over the entries of the process. -/
def exitLoop : List Undo → Sys π → Sys π
  | [], s => s
  | u :: ents, s =>
    match s.sema u.unId with
    | none => { s with panicked := true }
    | some d =>
      if d.semNsems ≤ u.unNum.toInt then { s with panicked := true }
      else if u.unNum.toInt < 0 then { s with undefined := true }
      else
        let num := u.unNum.toInt.toNat
        let sem := d.semBase num
        let sem := { sem with semval := exitVal sem.semval u.unAdjval }
        exitLoop ents ((s.setBase u.unId d (Function.update d.semBase num sem)).wakeup u.unId)

def semexit (s : Sys π) (p : π) : Sys π :=
  let s := s.mark [.exit p]
  match s.semu.find p with
  | none => s
  | some suptr =>
    let s := exitLoop suptr.unEnt s
    if s.panicked || s.undefined then s else s.setSemu (s.semu.put p [])

/-! ### Runs -/

/-- `pool` is whether `pool_get` has an item without waiting, while the entries are recorded and while
they are rolled back, when so many operations are left.  The calls are numbered by their place. -/
inductive Event (π : Type)
  | semop (p : π) (id : BitVec 32) (perm : Option Errno) (nsops : Nat)
  | copied (k : Nat) (sops : Except Errno (List Sembuf)) (pool : Bool → Nat → Bool)
  | resumed (k : Nat) (error : Bool) (stale : BitVec 16) (pool : Bool → Nat → Bool)
  | allocated (k : Nat) (pool : Bool → Nat → Bool)
  | setval (id : BitVec 32) (perm : Option Errno) (semnum val : Int)
  | setall (id : BitVec 32) (perm : Option Errno) (semval : Nat → BitVec 16)
  | rmid (id : BitVec 32) (perm : Option Errno)
  | semget (key : BitVec 32) (nsems : Int) (creat excl : Bool) (perm : Option Errno)
  | semexit (p : π)

def Sys.drop (s : Sys π) (k : Nat) : Sys π := { s with calls := s.calls.eraseIdx k }

/-- A sleep on `&sema[semid]` ends with a wakeup, or with a signal at any time.  A process exits when
it has no call under way. -/
inductive Step (s : Sys π) : Event π → Sys π → Prop
  | semop (p : π) (id : BitVec 32) (perm : Option Errno) (nsops : Nat) :
      Step s (.semop p id perm nsops) (s.conclude (semop info s p id perm nsops))
  | copied {k : Nat} {c : Call π} (sops : Except Errno (List Sembuf)) (pool : Bool → Nat → Bool) :
      s.calls[k]? = some c → c.phase = .copyin → (∀ l, sops = .ok l → l.length = c.nsops) →
      Step s (.copied k sops pool) ((s.drop k).conclude (semopCopied info pool (s.drop k) c sops))
  | resumed {k : Nat} {c : Call π} {sopptr : Sembuf} {awake : Bool} (error : Bool)
      (stale : BitVec 16) (pool : Bool → Nat → Bool) :
      s.calls[k]? = some c → c.phase = .asleep sopptr awake → (awake = false → error = true) →
      Step s (.resumed k error stale pool)
        ((s.drop k).conclude (semopResumed info pool (s.drop k) c sopptr error stale))
  | allocated {k : Nat} {c : Call π} {rest : Rest} {doWakeup : Bool} (pool : Bool → Nat → Bool) :
      s.calls[k]? = some c → c.phase = .alloc rest doWakeup →
      Step s (.allocated k pool)
        ((s.drop k).conclude (semopAllocated info pool (s.drop k) c rest doWakeup))
  | setval (id : BitVec 32) (perm : Option Errno) (semnum val : Int) :
      Step s (.setval id perm semnum val) (setval info s id perm semnum val).1
  | setall (id : BitVec 32) (perm : Option Errno) (semval : Nat → BitVec 16) :
      Step s (.setall id perm semval) (setall info s id perm semval).1
  | rmid (id : BitVec 32) (perm : Option Errno) : Step s (.rmid id perm) (rmid info s id perm).1
  | semget (key : BitVec 32) (nsems : Int) (creat excl : Bool) (perm : Option Errno) :
      Step s (.semget key nsems creat excl perm) (semget info s key nsems creat excl perm).1
  | semexit {p : π} : (∀ c ∈ s.calls, c.proc ≠ p) → Step s (.semexit p) (semexit s p)

def seminit : Sys π where
  sema := fun _ => none
  semseqs := fun _ => 0
  semtot := 0
  semu := ⟨[], 0⟩
  calls := []
  panicked := false
  undefined := false
  returned := []
  log := []

inductive Run (ok : Sys π → Event π → Prop) : Sys π → Prop
  | seminit : Run ok seminit
  | step {s s' : Sys π} {e : Event π} : Run ok s → s.panicked = false → s.undefined = false →
      ok s e → Step info s e s' → Run ok s'

end Mbsd.Kern.SysvSem
