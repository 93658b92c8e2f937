import Mathlib.Data.BitVec
import Mbsd.Sys

/-! The descriptor table of `kern/kern_descrip.c`.  What is done under one hold of the lock of a
table is one step.  Reference counts of files come from outside. -/

namespace Mbsd.Kern.KernDescrip

open Sys

/-- How a call goes wrong: an access outside a bitmap, a panic, a loop that does not end. -/
inductive Fault | outside | panic | loops
  deriving DecidableEq

def ndfile : Nat := 20

def ndextent : Nat := 50

def ndentries : Nat := 32

def ndentrymask : Nat := ndentries - 1

def ndentryshift : Nat := 5

def ndreduce (x : Nat) : Nat := (x + ndentries - 1) >>> ndentryshift

def ndhislots (x : Nat) : Nat := ndreduce (ndreduce x)

def ndloslots (x : Nat) : Nat := ndhislots x <<< ndentryshift

def maxcpus : Nat := 255

def fdupMaxCount : Nat := 4294967295 - 2 * maxcpus

def ufExclose : BitVec 8 := 0x01

def ufPledged : BitVec 8 := 0x02

def ufForkclose : BitVec 8 := 0x04

def ufPledgeopen : BitVec 8 := 0x08

structure File where
  id : Nat
  kqueue : Bool
  deriving DecidableEq

structure Filedesc where
  ofiles : Nat → Option File
  ofileflags : Nat → BitVec 8
  nfiles : Nat
  openfd : Int
  himap : Array (BitVec 32)
  lomap : Array (BitVec 32)
  lastfile : Nat
  freefile : Nat

def load (bitmap : Array (BitVec 32)) (off : Nat) : Except Fault (BitVec 32) :=
  match bitmap[off]? with
  | some x => .ok x
  | none => .error .outside

def store (bitmap : Array (BitVec 32)) (off : Nat) (x : BitVec 32) :
    Except Fault (Array (BitVec 32)) :=
  if off < bitmap.size then .ok (bitmap.setIfInBounds off x) else .error .outside

def ffs (x : BitVec 32) : Nat := ((List.range 32).find? fun i => x.getLsbD i).elim 0 (· + 1)

def foundZero (off : Nat) (sub : BitVec 32) : Nat := off <<< ndentryshift + ffs (~~~sub) - 1

/-- The loop of `find_next_zero`, with the rounds that are left.  The bitmap begins at the word
`base` of its array. -/
def findNextZeroLoop (bitmap : Array (BitVec 32)) (base : Nat) :
    Nat → Nat → Except Fault (Option Nat)
  | 0, _ => .ok none
  | n + 1, off => do
    let sub ← load bitmap (base + off)
    if sub ≠ BitVec.allOnes 32 then .ok (some (foundZero off sub))
    else findNextZeroLoop bitmap base n (off + 1)

def findNextZero (bitmap : Array (BitVec 32)) (base want bits : Nat) :
    Except Fault (Option Nat) :=
  if want > bits then .ok none
  else
    let off := want >>> ndentryshift
    let i := want &&& ndentrymask
    let maxoff := ndloslots bits
    if i ≠ 0 then do
      let sub ← load bitmap (base + off)
      let sub := sub ||| BitVec.allOnes 32 >>> (ndentries - i)
      if sub ≠ BitVec.allOnes 32 then .ok (some (foundZero off sub))
      else findNextZeroLoop bitmap base (maxoff - (off + 1)) (off + 1)
    else findNextZeroLoop bitmap base (maxoff - off) off

def fdInuse (fdp : Filedesc) (fd : Nat) : Except Fault Bool := do
  let x ← load fdp.lomap (fd >>> ndentryshift)
  .ok (x &&& 1#32 <<< (fd &&& ndentrymask) ≠ 0)

/-- The first loop of `find_last_set`, one above the word that it looks at. -/
def lastWord (bitmap : Array (BitVec 32)) : Nat → Except Fault Nat
  | 0 => .ok 0
  | off + 1 => do
    let x ← load bitmap off
    if x = 0 then lastWord bitmap off else .ok (off + 1)

def lastInuse (fdp : Filedesc) : Nat → Except Fault Nat
  | 0 => .ok 0
  | i + 1 => do
    if ← fdInuse fdp (i + 1) then .ok (i + 1) else lastInuse fdp i

def findLastSet (fdp : Filedesc) (last : Nat) : Except Fault Nat := do
  let off ← lastWord fdp.lomap (if last = 0 then 0 else (last - 1) >>> ndentryshift + 1)
  if off = 0 then .ok 0
  else
    let i := off <<< ndentryshift - 1
    lastInuse fdp (if i ≥ last then last - 1 else i)

/-- What `fd_used` does to `fd_himap` when the word `off` of `fd_lomap` has become `x`. -/
def himapUsed (himap : Array (BitVec 32)) (off : Nat) (x : BitVec 32) :
    Except Fault (Array (BitVec 32)) :=
  if x = BitVec.allOnes 32 then do
    let y ← load himap (off >>> ndentryshift)
    store himap (off >>> ndentryshift) (y ||| 1#32 <<< (off &&& ndentrymask))
  else .ok himap

/-- What `fd_unused` does to `fd_himap` when the word `off` of `fd_lomap` was `x`. -/
def himapUnused (himap : Array (BitVec 32)) (off : Nat) (x : BitVec 32) :
    Except Fault (Array (BitVec 32)) :=
  if x = BitVec.allOnes 32 then do
    let y ← load himap (off >>> ndentryshift)
    store himap (off >>> ndentryshift) (y &&& ~~~(1#32 <<< (off &&& ndentrymask)))
  else .ok himap

def fdUsed (fdp : Filedesc) (fd : Nat) : Except Fault Filedesc := do
  let off := fd >>> ndentryshift
  let x ← load fdp.lomap off
  let x := x ||| 1#32 <<< (fd &&& ndentrymask)
  let lomap ← store fdp.lomap off x
  let himap ← himapUsed fdp.himap off x
  .ok { fdp with
    lomap := lomap
    himap := himap
    lastfile := if fd > fdp.lastfile then fd else fdp.lastfile
    openfd := fdp.openfd + 1 }

def fdUnused (fdp : Filedesc) (fd : Nat) : Except Fault Filedesc := do
  let off := fd >>> ndentryshift
  let x ← load fdp.lomap off
  let himap ← himapUnused fdp.himap off x
  let lomap ← store fdp.lomap off (x &&& ~~~(1#32 <<< (fd &&& ndentrymask)))
  let fdp := { fdp with
    freefile := if fd < fdp.freefile then fd else fdp.freefile
    himap := himap
    lomap := lomap }
  if fd > fdp.lastfile then .error .panic
  else
    let lastfile ← if fd = fdp.lastfile then findLastSet fdp fd else .ok fdp.lastfile
    .ok { fdp with lastfile := lastfile, openfd := fdp.openfd - 1 }

def fdGetfile (fdp : Filedesc) (fd : Nat) : Option File :=
  if fd ≥ fdp.nfiles then none else fdp.ofiles fd

/-- `fdalloc` from `restart` on, with the rounds that are left.  `lim` is the smaller one of the
resource limit and `maxfiles`. -/
def fdallocLoop (fdp : Filedesc) (lim : Nat) (pledged : Bool) :
    Nat → Nat → Except Fault (Filedesc × Except Errno Nat)
  | 0, _ => .error .loops
  | n + 1, want => do
    let last := min fdp.nfiles lim
    let i := if want < fdp.freefile then fdp.freefile else want
    let off := i >>> ndentryshift
    let fail : Except Fault (Filedesc × Except Errno Nat) :=
      if fdp.nfiles ≥ lim then .ok (fdp, .error .EMFILE) else .ok (fdp, .error .ENOSPC)
    match ← findNextZero fdp.himap 0 off ((last + ndentries - 1) >>> ndentryshift) with
    | none => fail
    | some new =>
      match ← findNextZero fdp.lomap new (if new > off then 0 else i &&& ndentrymask)
          ndentries with
      | none => fdallocLoop fdp lim pledged n ((new + 1) <<< ndentryshift)
      | some i =>
        let i := i + new <<< ndentryshift
        if i < last then do
          let freefile := fdp.freefile
          let fdp ← fdUsed fdp i
          .ok ({ fdp with
            freefile := if want ≤ freefile then i else fdp.freefile
            ofileflags := Function.update fdp.ofileflags i (if pledged then ufPledged else 0) },
            .ok i)
        else fail

def fdalloc (fdp : Filedesc) (want lim : Nat) (pledged : Bool) :
    Except Fault (Filedesc × Except Errno Nat) :=
  fdallocLoop fdp lim pledged (fdp.nfiles + 2) want

def fdexpand (fdp : Filedesc) : Filedesc :=
  let nfiles := if fdp.nfiles < ndextent then ndextent else 2 * fdp.nfiles
  let grow (bitmap : Array (BitVec 32)) (oldslots slots : Nat) : Array (BitVec 32) :=
    if ndhislots nfiles > ndhislots fdp.nfiles then
      bitmap.extract 0 oldslots ++ Array.replicate (slots - oldslots) 0
    else bitmap
  { fdp with
    ofiles := fun fd => if fd < fdp.nfiles then fdp.ofiles fd else none
    ofileflags := fun fd => if fd < fdp.nfiles then fdp.ofileflags fd else 0
    himap := grow fdp.himap (ndhislots fdp.nfiles) (ndhislots nfiles)
    lomap := grow fdp.lomap (ndloslots fdp.nfiles) (ndloslots nfiles)
    nfiles := nfiles }

/-- `falloc` from `restart` on, with the rounds that are left.  `full` says whether `fnew` finds
the file table full. -/
def fallocLoop (lim : Nat) (pledged full : Bool) :
    Nat → Filedesc → Except Fault (Filedesc × Except Errno Nat)
  | 0, _ => .error .loops
  | n + 1, fdp => do
    match ← fdalloc fdp 0 lim pledged with
    | (fdp, .ok i) =>
      if full then do
        let fdp ← fdUnused fdp i
        .ok (fdp, .error .ENFILE)
      else .ok (fdp, .ok i)
    | (fdp, .error error) =>
      if error = .ENOSPC then fallocLoop lim pledged full n (fdexpand fdp)
      else .ok (fdp, .error error)

def falloc (fdp : Filedesc) (lim : Nat) (pledged full : Bool) :
    Except Fault (Filedesc × Except Errno Nat) :=
  fallocLoop lim pledged full (lim + 1) fdp

def fdinit : Filedesc where
  ofiles _ := none
  ofileflags _ := 0
  nfiles := ndfile
  openfd := 0
  himap := Array.replicate (ndentries >>> ndentryshift) 0
  lomap := Array.replicate ndentries 0
  lastfile := 0
  freefile := 0

def fdinsert (fdp : Filedesc) (fd : Nat) (flags : BitVec 8) (fp : File) :
    Except Fault Filedesc :=
  if fdp.ofiles fd ≠ none then .error .panic
  else .ok { fdp with
    ofiles := Function.update fdp.ofiles fd (some fp)
    ofileflags := Function.update fdp.ofileflags fd
      (fdp.ofileflags fd ||| flags &&& (ufExclose ||| ufForkclose ||| ufPledgeopen)) }

def fdremove (fdp : Filedesc) (fd : Nat) : Except Fault Filedesc :=
  fdUnused { fdp with
    ofiles := Function.update fdp.ofiles fd none
    ofileflags := Function.update fdp.ofileflags fd 0 } fd

def fdrelease (fdp : Filedesc) (fd : Nat) : Except Fault (Filedesc × Option Errno) :=
  if fdGetfile fdp fd = none then .ok (fdp, some .EBADF)
  else do
    let fdp ← fdremove fdp fd
    .ok (fdp, none)

structure Dupflags where
  cloexec : Bool
  clofork : Bool
  dup2 : Bool

/-- How a call that duplicates a descriptor leaves the lock. -/
inductive Outcome
  | done (fd : Nat)
  | restart
  | error (e : Errno)
  deriving DecidableEq

def finishdup (fdp : Filedesc) (fp : File) (old new : Nat) (dupflags : Dupflags) (count : Nat) :
    Except Fault (Filedesc × Outcome) :=
  if count ≥ fdupMaxCount then .ok (fdp, .error .EDEADLK)
  else do
    let oldfp := fdGetfile fdp new
    let inuse ← if dupflags.dup2 ∧ oldfp = none then fdInuse fdp new else .ok false
    if inuse then .ok (fdp, .error .EBUSY)
    else do
      let fdp ← if dupflags.dup2 ∧ oldfp = none then fdUsed fdp new else .ok fdp
      let flags := fdp.ofileflags old &&& ~~~(ufExclose ||| ufForkclose)
      let flags := if dupflags.cloexec then flags ||| ufExclose else flags
      let flags := if dupflags.clofork then flags ||| ufForkclose else flags
      .ok ({ fdp with
        ofiles := Function.update fdp.ofiles new (some fp)
        ofileflags := Function.update fdp.ofileflags new flags }, .done new)

/-- What `sys_dup` and `sys_fcntl` do under the lock, after `fd_getfile` has found `fp`. -/
def dupAlloc (fdp : Filedesc) (fp : File) (old want lim : Nat) (pledged : Bool)
    (dupflags : Dupflags) (count : Nat) : Except Fault (Filedesc × Outcome) := do
  match ← fdalloc fdp want lim pledged with
  | (fdp, .ok new) => finishdup fdp fp old new dupflags count
  | (fdp, .error error) =>
    if error = .ENOSPC then .ok (fdexpand fdp, .restart) else .ok (fdp, .error error)

def sysDup (fdp : Filedesc) (fp : File) (old lim : Nat) (pledged : Bool) (count : Nat) :
    Except Fault (Filedesc × Outcome) :=
  dupAlloc fdp fp old 0 lim pledged ⟨false, false, false⟩ count

/-- `F_DUPFD`, `F_DUPFD_CLOEXEC` and `F_DUPFD_CLOFORK`.  The limit may change while the call waits
for the lock; `lim'` is the one after that. -/
def dupfd (fdp : Filedesc) (fp : File) (fd newmin lim lim' : Nat) (pledged cloexec clofork : Bool)
    (count : Nat) : Except Fault (Filedesc × Outcome) :=
  if newmin ≥ lim then .ok (fdp, .error .EINVAL)
  else dupAlloc fdp fp fd newmin lim' pledged ⟨cloexec, clofork, false⟩ count

def dodup3 (fdp : Filedesc) (fp : File) (old new lim lim' : Nat)
    (pledged cloexec clofork : Bool) (count : Nat) : Except Fault (Filedesc × Outcome) :=
  if old = new then .ok (fdp, .done new)
  else if new ≥ lim then .ok (fdp, .error .EBADF)
  else if new ≥ fdp.nfiles then do
    match ← fdalloc fdp new lim' pledged with
    | (fdp, .ok i) =>
      if new ≠ i then .error .panic
      else do
        let fdp ← fdUnused fdp new
        finishdup fdp fp old new ⟨cloexec, clofork, true⟩ count
    | (fdp, .error error) =>
      if error = .ENOSPC then .ok (fdexpand fdp, .restart) else .ok (fdp, .error error)
  else finishdup fdp fp old new ⟨cloexec, clofork, true⟩ count

def fdcopyNfiles (lastfile i : Nat) : Nat :=
  if h : i ≥ 2 * ndextent ∧ i > lastfile * 2 then fdcopyNfiles lastfile (i / 2) else i
termination_by i
decreasing_by exact Nat.div_lt_self (Nat.lt_of_lt_of_le (by decide) h.1) (by decide)

def fdcopySkips (fdp : Filedesc) (count : File → Nat) (i : Nat) (fp : File) : Prop :=
  count fp ≥ fdupMaxCount ∨ fdp.ofileflags i &&& ufForkclose ≠ 0 ∨ fp.kqueue = true

instance (fdp : Filedesc) (count : File → Nat) (i : Nat) (fp : File) :
    Decidable (fdcopySkips fdp count i fp) := inferInstanceAs (Decidable (_ ∨ _))

def fdcopyOne (fdp : Filedesc) (count : File → Nat) (newfdp : Filedesc) (i : Nat) :
    Except Fault Filedesc :=
  match fdp.ofiles i with
  | none => .ok newfdp
  | some fp =>
    if fdcopySkips fdp count i fp then
      .ok { newfdp with freefile := if i < newfdp.freefile then i else newfdp.freefile }
    else
      fdUsed { newfdp with
        ofiles := Function.update newfdp.ofiles i (some fp)
        ofileflags := Function.update newfdp.ofileflags i (fdp.ofileflags i) } i

def fdcopy (fdp : Filedesc) (count : File → Nat) : Except Fault Filedesc :=
  let newfdp := fdinit
  let newfdp :=
    if fdp.lastfile ≥ ndfile then { newfdp with nfiles := fdcopyNfiles fdp.lastfile fdp.nfiles }
    else newfdp
  let newfdp :=
    if ndhislots newfdp.nfiles > ndhislots ndfile then
      { newfdp with
        himap := Array.replicate (ndhislots newfdp.nfiles) 0
        lomap := Array.replicate (ndloslots newfdp.nfiles) 0 }
    else newfdp
  (List.range (fdp.lastfile + 1)).foldlM (fdcopyOne fdp count)
    { newfdp with freefile := fdp.freefile }

end Mbsd.Kern.KernDescrip
