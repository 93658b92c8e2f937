import Mbsd.Lib.Ring
import Mbsd.Sys

/-! The pipes of `kern/sys_pipe.c`: one direction of a pipe, with any threads that read and write.  A
thread runs alone from where it takes `pipe_lock` to where it gives it back, for `uiomove` or to
sleep.  Knotes, signals and times are left out.  What the threads cannot see, the bytes delivered and
the bytes committed, is kept beside the pipe. -/

namespace Mbsd.Kern.SysPipe

open Lib Sys

abbrev Byte := BitVec 8

/-- `PIPE_BUF`: a write of at most so many bytes is atomic. -/
def pipeBuf : Nat := 512

def pipeSize : Nat := 16384

def bigPipeSize : Nat := 64 * 1024

def minpipesize : Nat := pipeSize / 3

structure Pipebuf where
  cnt : Nat
  inp : Nat
  out : Nat
  size : Nat
  buffer : Nat → Byte

structure Pipe where
  pipeBuffer : Pipebuf
  wantr : Bool
  wantw : Bool
  wantd : Bool
  eof : Bool
  lock : Bool
  lwant : Bool
  pipeBusy : Nat

/-- A call of `pipe_read`: what is left of the `uio`, and the locals. -/
structure Read where
  uioResid : Nat
  nread : Nat
  nonblock : Bool

/-- A call of `pipe_write`: the `uio` holds the bytes that are left. -/
structure Write where
  call : Nat
  uio : List Byte
  origResid : Nat
  nonblock : Bool

inductive Io
  | read (r : Read)
  | write (w : Write)

/-- The sleep of `pipe_iolock`, on entry to the call or from `pipe_iosleep`, or that of
`pipe_iosleep`. -/
inductive Wait
  | iolock (entry : Bool)
  | iosleep

/-- What a thread does while it does not hold `pipe_lock`.  In `uiomove` there are `n` bytes left, from
`addr` on. -/
inductive Phase
  | returned (error : Option Errno)
  | asleep (io : Io) (wait : Wait)
  | readMove (r : Read) (size addr n : Nat) (got : List Byte)
  | writeMove (w : Write) (size segsize : Nat) (second : Bool) (addr n : Nat) (taken : List Byte)

structure Thread where
  phase : Phase
  awake : Bool

structure Sys (ι : Type) where
  pipe : Pipe
  threads : ι → Thread
  panicked : Bool
  delivered : List Byte
  log : List (Nat × List Byte)
  calls : List (List Byte)

variable {ι : Type} [DecidableEq ι]

namespace Sys

/-- Thread `i` goes on with `phase`, without `pipe_lock`. -/
def goOn (s : Sys ι) (i : ι) (phase : Phase) : Sys ι :=
  { s with threads := Function.update s.threads i ⟨phase, false⟩ }

def wakeup (s : Sys ι) : Sys ι :=
  { s with threads := fun i => { s.threads i with awake := true } }

def kassert (s : Sys ι) (p : Prop) [Decidable p] : Sys ι :=
  if p then s else { s with panicked := true }

def setPipe (s : Sys ι) (pipe : Pipe) : Sys ι := { s with pipe }

def setBuffer (s : Sys ι) (b : Pipebuf) : Sys ι := s.setPipe { s.pipe with pipeBuffer := b }

end Sys

def wakeReader (s : Sys ι) : Sys ι :=
  if s.pipe.wantr then (s.setPipe { s.pipe with wantr := false }).wakeup else s

def wakeWriter (s : Sys ι) : Sys ι :=
  if s.pipe.wantw then (s.setPipe { s.pipe with wantw := false }).wakeup else s

def pipeIounlock (s : Sys ι) : Sys ι :=
  let s := s.kassert (s.pipe.lock = true)
  let s := s.setPipe { s.pipe with lock := false }
  if s.pipe.lwant then (s.setPipe { s.pipe with lwant := false }).wakeup else s

def pipeRundown (s : Sys ι) : Sys ι × Bool :=
  if 0 < s.pipe.pipeBusy ∨ s.pipe.wantd = false then (s, false)
  else ((s.setPipe { s.pipe with wantd := false, wantr := false, wantw := false }).wakeup, true)

def pipeBufferRealloc (s : Sys ι) (size : Nat) (buffer : Nat → Byte) : Sys ι :=
  let s := s.kassert (s.pipe.lock = true)
  let s := s.kassert (s.pipe.pipeBuffer.cnt = 0)
  s.setBuffer { s.pipe.pipeBuffer with buffer, size, inp := 0, out := 0 }

def readUnlocked (s : Sys ι) (i : ι) (error : Option Errno) : Sys ι :=
  let (s, rundown) := pipeRundown (s.setPipe { s.pipe with pipeBusy := s.pipe.pipeBusy - 1 })
  let s := if !rundown && s.pipe.pipeBuffer.cnt < minpipesize then wakeWriter s else s
  s.goOn i (.returned error)

def readDone (s : Sys ι) (i : ι) (error : Option Errno) : Sys ι :=
  readUnlocked (pipeIounlock s) i error

/-- The loop of `pipe_read`, as far as it runs with `pipe_lock`. -/
def readLoop (s : Sys ι) (i : ι) (r : Read) : Sys ι :=
  let b := s.pipe.pipeBuffer
  if r.uioResid = 0 then readDone s i none
  else if 0 < b.cnt then
    let size := min (min (b.size - b.out) b.cnt) r.uioResid
    s.goOn i (.readMove r size b.out size [])
  else if s.pipe.eof then readDone s i none
  else
    let s := wakeWriter s
    if 0 < r.nread then readDone s i none
    else if r.nonblock then readDone s i (some .EAGAIN)
    else (pipeIounlock (s.setPipe { s.pipe with wantr := true })).goOn i (.asleep (.read r) .iosleep)

/-- `size` bytes have left the buffer.  An empty buffer starts over. -/
def consumed (b : Pipebuf) (size : Nat) : Pipebuf :=
  let out := b.out + size
  let out := if b.size ≤ out then 0 else out
  let b := { b with out, cnt := b.cnt - size }
  if b.cnt = 0 then { b with inp := 0, out := 0 } else b

def readMoved (s : Sys ι) (i : ι) (r : Read) (size : Nat) (got : List Byte)
    (error : Option Errno) : Sys ι :=
  match error with
  | some e => readDone s i (some e)
  | none =>
    let s := s.setBuffer (consumed s.pipe.pipeBuffer size)
    readLoop { s with delivered := s.delivered ++ got } i { r with nread := r.nread + size }

def writeUnlocked (s : Sys ι) (i : ι) (w : Write) (error : Option Errno) : Sys ι :=
  let (s, rundown) := pipeRundown (s.setPipe { s.pipe with pipeBusy := s.pipe.pipeBusy - 1 })
  let s := if !rundown && 0 < s.pipe.pipeBuffer.cnt then wakeReader s else s
  let error :=
    if s.pipe.pipeBuffer.cnt = 0 ∧ w.uio = [] ∧ error = some .EPIPE then none else error
  s.goOn i (.returned error)

def writeDone (s : Sys ι) (i : ι) (w : Write) (error : Option Errno) : Sys ι :=
  writeUnlocked (pipeIounlock s) i w error

/-- The free space, or none if a small write does not fit as a whole. -/
def writeSpace (b : Pipebuf) (w : Write) : Nat :=
  let space := b.size - b.cnt
  if space < w.uio.length ∧ w.origResid ≤ pipeBuf then 0 else space

/-- The loop of `pipe_write`, as far as it runs with `pipe_lock`. -/
def writeLoop (s : Sys ι) (i : ι) (w : Write) : Sys ι :=
  let b := s.pipe.pipeBuffer
  if w.uio = [] then writeDone s i w none
  else if s.pipe.eof then writeDone s i w (some .EPIPE)
  else
    let space := writeSpace b w
    if 0 < space then
      let size := min space w.uio.length
      let segsize := min (b.size - b.inp) size
      s.goOn i (.writeMove w size segsize false b.inp segsize [])
    else
      let s := wakeReader s
      if w.nonblock then writeDone s i w (some .EAGAIN)
      else
        (pipeIounlock (s.setPipe { s.pipe with wantw := true })).goOn i (.asleep (.write w) .iosleep)

/-- `size` bytes have come into the buffer, the first `segsize` of them up to its end. -/
def produced (b : Pipebuf) (size segsize : Nat) : Pipebuf :=
  let inp := b.inp + size
  { b with inp := if b.size ≤ inp then size - segsize else inp, cnt := b.cnt + size }

/-- The transfer is done.  The assertions are two panics of `DIAGNOSTIC`. -/
def writeCommit (s : Sys ι) (w : Write) (size segsize : Nat) (taken : List Byte) : Sys ι :=
  let b := s.pipe.pipeBuffer
  let s := s.kassert (b.size ≤ b.inp + size → b.inp + size = size - segsize + b.size)
  let s := s.kassert (¬b.size < (produced b size segsize).cnt)
  let s := s.setBuffer (produced b size segsize)
  { s with log := s.log ++ [(w.call, taken)] }

def writeMoved (s : Sys ι) (i : ι) (w : Write) (size segsize : Nat) (second : Bool)
    (taken : List Byte) (error : Option Errno) : Sys ι :=
  match error with
  | some e => writeDone s i w (some e)
  | none =>
    if !second ∧ segsize < size then
      let b := s.pipe.pipeBuffer
      let s := s.kassert (b.inp + segsize = b.size)
      s.goOn i (.writeMove w size segsize true 0 (size - segsize) taken)
    else writeLoop (writeCommit s w size segsize taken) i w

/-- What `pipe_write` does once, on entry.  `grow` is the new buffer, if `nbigpipe` and `km_alloc`
allow one. -/
def resize (s : Sys ι) (w : Write) (grow : Option (Nat → Byte)) : Sys ι :=
  if pipeSize < w.uio.length ∧ s.pipe.pipeBuffer.size ≤ pipeSize ∧ s.pipe.pipeBuffer.cnt = 0 then
    match grow with
    | some buffer => pipeBufferRealloc s bigPipeSize buffer
    | none => s
  else s

def locked (s : Sys ι) (i : ι) (io : Io) (entry : Bool) (grow : Option (Nat → Byte)) : Sys ι :=
  match io with
  | .read r => readLoop s i r
  | .write w =>
    if entry then writeLoop (resize s w grow) i w
    else if s.pipe.eof then writeDone s i w (some .EPIPE)
    else writeLoop s i w

def pipeIolock (s : Sys ι) (i : ι) (io : Io) (entry : Bool) (grow : Option (Nat → Byte)) : Sys ι :=
  if s.pipe.lock then (s.setPipe { s.pipe with lwant := true }).goOn i (.asleep io (.iolock entry))
  else locked (s.setPipe { s.pipe with lock := true }) i io entry grow

def busy (s : Sys ι) : Sys ι := s.setPipe { s.pipe with pipeBusy := s.pipe.pipeBusy + 1 }

def pipeRead (s : Sys ι) (i : ι) (uioResid : Nat) (nonblock : Bool) : Sys ι :=
  pipeIolock (busy s) i (.read ⟨uioResid, 0, nonblock⟩) true none

def pipeWrite (s : Sys ι) (i : ι) (uio : List Byte) (nonblock : Bool)
    (grow : Option (Nat → Byte)) : Sys ι :=
  if s.pipe.eof then s.goOn i (.returned (some .EPIPE))
  else
    let w : Write := ⟨s.calls.length, uio, uio.length, nonblock⟩
    pipeIolock { busy s with calls := s.calls ++ [uio] } i (.write w) true grow

def resume (s : Sys ι) (i : ι) (io : Io) (wait : Wait) (error : Option Errno)
    (grow : Option (Nat → Byte)) : Sys ι :=
  match error, wait with
  | some e, .iolock true =>
    (pipeRundown (s.setPipe { s.pipe with pipeBusy := s.pipe.pipeBusy - 1 })).1.goOn i
      (.returned (some e))
  | some e, _ =>
    match io with
    | .read _ => readUnlocked s i (some e)
    | .write w => writeUnlocked s i w (some e)
  | none, .iolock entry => pipeIolock s i io entry grow
  | none, .iosleep => pipeIolock s i io false grow

/-- `pipe_destroy` of this end or of the other, up to where the pipe is no longer busy. -/
def pipeDestroy (s : Sys ι) (wantd : Bool) : Sys ι :=
  (s.setPipe { s.pipe with eof := true, wantd := s.pipe.wantd || wantd }).wakeup

/-- `uiomove` copies `k` bytes more of the buffer to the reader. -/
def copyout (s : Sys ι) (i : ι) (r : Read) (size addr n : Nat) (got : List Byte) (k : Nat) : Sys ι :=
  let p := (List.range k).map fun j => s.pipe.pipeBuffer.buffer (addr + j)
  s.goOn i (.readMove { r with uioResid := r.uioResid - k } size (addr + k) (n - k) (got ++ p))

/-- `uiomove` copies `k` bytes more of the writer to the buffer. -/
def copyin (s : Sys ι) (i : ι) (w : Write) (size segsize : Nat) (second : Bool) (addr n : Nat)
    (taken : List Byte) (k : Nat) : Sys ι :=
  let b := s.pipe.pipeBuffer
  let s := s.setBuffer { b with buffer := RingSlice.put b.buffer addr (w.uio.take k) }
  s.goOn i (.writeMove { w with uio := w.uio.drop k } size segsize second (addr + k) (n - k)
    (taken ++ w.uio.take k))

/-- A thread runs until it gives `pipe_lock` back, or is in the middle of a `uiomove`, which may fail
at any byte.  A sleep ends with a wakeup, or with a signal at any time. -/
inductive Step (s : Sys ι) : Sys ι → Prop
  | read {i : ι} {e : Option Errno} (uioResid : Nat) (nonblock : Bool) :
      (s.threads i).phase = .returned e → Step s (pipeRead s i uioResid nonblock)
  | write {i : ι} {e : Option Errno} (uio : List Byte) (nonblock : Bool)
      (grow : Option (Nat → Byte)) :
      (s.threads i).phase = .returned e → Step s (pipeWrite s i uio nonblock grow)
  | resume {i : ι} {io : Io} {wait : Wait} (error : Option Errno) (grow : Option (Nat → Byte)) :
      (s.threads i).phase = .asleep io wait → (error = none → (s.threads i).awake = true) →
      Step s (resume s i io wait error grow)
  | copyout {i : ι} {r : Read} {size addr n : Nat} {got : List Byte} (k : Nat) :
      (s.threads i).phase = .readMove r size addr n got → 0 < k → k ≤ n →
      Step s (copyout s i r size addr n got k)
  | readMoved {i : ι} {r : Read} {size addr n : Nat} {got : List Byte} (error : Option Errno) :
      (s.threads i).phase = .readMove r size addr n got → (error = none → n = 0) →
      Step s (readMoved s i r size got error)
  | copyin {i : ι} {w : Write} {size segsize addr n : Nat} {second : Bool} {taken : List Byte}
      (k : Nat) :
      (s.threads i).phase = .writeMove w size segsize second addr n taken → 0 < k → k ≤ n →
      Step s (copyin s i w size segsize second addr n taken k)
  | writeMoved {i : ι} {w : Write} {size segsize addr n : Nat} {second : Bool} {taken : List Byte}
      (error : Option Errno) :
      (s.threads i).phase = .writeMove w size segsize second addr n taken → (error = none → n = 0) →
      Step s (writeMoved s i w size segsize second taken error)
  | destroy (wantd : Bool) : Step s (pipeDestroy s wantd)

def pipeCreate (buffer : Nat → Byte) : Sys ι where
  pipe := ⟨⟨0, 0, 0, pipeSize, buffer⟩, false, false, false, false, false, false, 0⟩
  threads := fun _ => ⟨.returned none, false⟩
  panicked := false
  delivered := []
  log := []
  calls := []

inductive Reachable : Sys ι → Prop
  | create (buffer : Nat → Byte) : Reachable (pipeCreate buffer)
  | step {s s' : Sys ι} : Reachable s → Step s s' → Reachable s'

end Mbsd.Kern.SysPipe
