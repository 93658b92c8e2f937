import Mathlib.Data.BitVec
import Mbsd.Lib.Run

/-! The mbufs of `sys/mbuf.h` on amd64 and their storage.  A chain is the list of its mbufs.  The
mbufs that share external storage are counted where the kernel keeps them on a ring.  Types, tags and
the flags that no operation tests are left out. -/

namespace Mbsd.Kern.MbufChain

open Lib.Run
open Lib.RingSlice (put)

abbrev Byte := BitVec 8

def msize : Nat := 256

def sizeofMHdr : Nat := 32

def sizeofPkthdr : Nat := 80

def mlen : Nat := msize - sizeofMHdr

def mhlen : Nat := mlen - sizeofPkthdr

def mclbytes : Nat := 2048

def maxmclbytes : Nat := 64 * 1024

def sizeofLong : Nat := 8

def mCopyall : Nat := 1000000000

def mclsizes : List Nat :=
  [mclbytes, mclbytes + 2, 4 * 1024, 8 * 1024, 9 * 1024, 12 * 1024, 16 * 1024, maxmclbytes]

/-- Why a call does not do its work: an assertion, an access outside the storage of an mbuf, a
request for space that no pool can serve, and a chain that is too short. -/
inductive Fault
  | panic
  | overrun
  | nospace
  | short
  deriving DecidableEq

def ensure (p : Prop) [Decidable p] (f : Fault) : Except Fault Unit :=
  if p then .ok () else .error f

theorem ensure_ok {p : Prop} [Decidable p] (h : p) (f : Fault) : ensure p f = .ok () := if_pos h

/-- External storage.  `align` is the address of `ext_buf` modulo `sizeof(long)`, and `refs` the
number of mbufs that have the storage. -/
structure Ext where
  align : Nat
  size : Nat
  byte : Nat → Byte
  refs : Nat

/-- `next` is the first storage that is not in use.  What the pools hand out has unknown contents. -/
structure Mem where
  ext : Nat → Ext
  next : Nat
  junk : Nat → Byte
  junkLen : Nat

/-- `ext` is `m_ext` if `M_EXT` is set, and `pkthdr` is `m_pkthdr.len` if `M_PKTHDR` is set.  `data`
counts from `m_dat`, or from `ext_buf`. -/
structure Mbuf where
  ext : Option Nat
  extwr : Bool
  pkthdr : Option Int
  dat : Nat → Byte
  data : Nat
  len : Nat

def mPktdat : Nat := sizeofPkthdr

def mReadonly (mem : Mem) (m : Mbuf) : Bool :=
  match m.ext with
  | none => false
  | some b => !m.extwr || decide (1 < (mem.ext b).refs)

def mDatabuf (m : Mbuf) : Nat :=
  match m.ext with
  | some _ => 0
  | none => if m.pkthdr.isSome then mPktdat else 0

def mSize (mem : Mem) (m : Mbuf) : Nat :=
  match m.ext with
  | some b => (mem.ext b).size
  | none => if m.pkthdr.isSome then mhlen else mlen

def mtodAdj (mem : Mem) (m : Mbuf) : Nat :=
  match m.ext with
  | some b => ((mem.ext b).align + m.data) % sizeofLong
  | none => m.data % sizeofLong

def store (mem : Mem) (m : Mbuf) : Nat → Byte :=
  match m.ext with
  | some b => (mem.ext b).byte
  | none => m.dat

structure Inside (mem : Mem) (m : Mbuf) : Prop where
  ge : mDatabuf m ≤ m.data
  le : m.data + m.len ≤ mDatabuf m + mSize mem m

def bytes (mem : Mem) (m : Mbuf) : List Byte := run (store mem m) m.data m.len

def view (mem : Mem) (ms : List Mbuf) : List Byte := ms.flatMap (bytes mem)

def total (ms : List Mbuf) : Nat := (ms.map Mbuf.len).sum

def refsTo (b : Nat) (ms : List Mbuf) : Nat := ms.countP fun m => m.ext = some b

def mLeadingspace (mem : Mem) (m : Mbuf) : Except Fault Nat :=
  if mReadonly mem m then .ok 0
  else do
    ensure (mDatabuf m ≤ m.data) .panic
    .ok (m.data - mDatabuf m)

def mTrailingspace (mem : Mem) (m : Mbuf) : Except Fault Nat :=
  if mReadonly mem m then .ok 0
  else do
    ensure (m.data + m.len ≤ mDatabuf m + mSize mem m) .panic
    .ok (mDatabuf m + mSize mem m - (m.data + m.len))

def mRead (mem : Mem) (m : Mbuf) (p n : Nat) : Except Fault (List Byte) := do
  ensure (mDatabuf m ≤ p ∧ p + n ≤ mDatabuf m + mSize mem m) .overrun
  .ok (run (store mem m) p n)

def poke (mem : Mem) (m : Mbuf) (p : Nat) (l : List Byte) : Mem × Mbuf :=
  match m.ext with
  | none => (mem, { m with dat := put m.dat p l })
  | some b =>
    ({ mem with
       ext := Function.update mem.ext b
         { mem.ext b with byte := put (mem.ext b).byte p l } }, m)

def mWrite (mem : Mem) (m : Mbuf) (p : Nat) (l : List Byte) : Except Fault (Mem × Mbuf) := do
  ensure (mDatabuf m ≤ p ∧ p + l.length ≤ mDatabuf m + mSize mem m) .overrun
  .ok (poke mem m p l)

def mGet (mem : Mem) : Mbuf := ⟨none, false, none, mem.junk, 0, mem.junkLen⟩

def mGethdr (mem : Mem) : Mbuf := ⟨none, false, some 0, mem.junk, mPktdat, mem.junkLen⟩

/-- The items of the pools: `pool_init` rounds the sizes up to the alignment of 64. -/
def mclpools : List Nat := mclsizes.map fun size => (size + 63) / 64 * 64

def mClpool (pktlen : Nat) : Option Nat := mclpools.find? fun prSize => pktlen ≤ prSize

def mExtadd (mem : Mem) (m : Mbuf) (size : Nat) : Mem × Mbuf :=
  ({ mem with ext := Function.update mem.ext mem.next ⟨0, size, mem.junk, 1⟩, next := mem.next + 1 },
    { m with ext := some mem.next, extwr := true, data := 0 })

def mClget (mem : Mem) (m : Mbuf) (pktlen : Nat) : Except Fault (Mem × Mbuf) :=
  match mClpool pktlen with
  | none => .error .nospace
  | some size => .ok (mExtadd mem m size)

def mGetl (mem : Mem) (limit space : Nat) : Except Fault (Mem × Mbuf) :=
  if space > limit then mClget mem (mGet mem) space else .ok (mem, mGet mem)

def addRefs (mem : Mem) (b : Nat) (f : Nat → Nat) : Mem :=
  { mem with ext := Function.update mem.ext b { mem.ext b with refs := f (mem.ext b).refs } }

def mExtref (mem : Mem) (o n : Mbuf) : Mem × Mbuf :=
  match o.ext with
  | none => (mem, n)
  | some b => (addRefs mem b (· + 1), { n with ext := some b, extwr := n.extwr || o.extwr })

def mFree (mem : Mem) (m : Mbuf) : Mem :=
  match m.ext with
  | none => mem
  | some b => addRefs mem b (· - 1)

def mAlign (mem : Mem) (m : Mbuf) (len : Nat) : Except Fault Mbuf := do
  ensure (mReadonly mem m = false) .panic
  ensure (m.data = mDatabuf m) .panic
  ensure ((len + sizeofLong - 1) / sizeofLong * sizeofLong ≤ mSize mem m) .panic
  .ok { m with data := mDatabuf m + (mSize mem m - len) / sizeofLong * sizeofLong }

def mMovePkthdr (n m : Mbuf) : Mbuf × Mbuf :=
  ({ n with pkthdr := m.pkthdr, data := if n.ext.isNone then mPktdat else n.data },
    { m with pkthdr := none })

def mDupPkthdr (n m : Mbuf) : Mbuf :=
  { n with pkthdr := m.pkthdr, data := if n.ext.isNone then mPktdat else n.data }

def setHdr (f : Int → Int) : List Mbuf → List Mbuf
  | [] => []
  | m :: ms => { m with pkthdr := m.pkthdr.map f } :: ms

end Mbsd.Kern.MbufChain
