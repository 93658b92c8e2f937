import Mathlib.Data.BitVec

/-! The clists of `kern/tty_subr.c`.  A pointer into the ring buffer is an offset from `c_cs`, and
`none` is `NULL`.  A function yields `none` if it follows a `NULL` pointer, or if its loop does not
end. -/

namespace Mbsd.Kern.TtySubr

abbrev Byte := BitVec 8
abbrev CInt := BitVec 32

def ttyQuote : CInt := 0x100

def noChar : CInt := -1

def isset (a : Nat → Byte) (i : Nat) : Bool := a (i >>> 3) &&& (1#8 <<< (i &&& 7)) ≠ 0

def setbit (a : Nat → Byte) (i : Nat) : Nat → Byte :=
  Function.update a (i >>> 3) (a (i >>> 3) ||| (1#8 <<< (i &&& 7)))

def clrbit (a : Nat → Byte) (i : Nat) : Nat → Byte :=
  Function.update a (i >>> 3) (a (i >>> 3) &&& ~~~(1#8 <<< (i &&& 7)))

def memzero (a : Nat → Byte) (off len : Nat) : Nat → Byte :=
  fun i => if off ≤ i ∧ i < off + len then 0 else a i

def memcpy (a : Nat → Byte) (off : Nat) (p : List Byte) : Nat → Byte :=
  fun i => if off ≤ i ∧ i < off + p.length then p.getD (i - off) 0 else a i

def clrbits (cp : Nat → Byte) (off len : Nat) : Nat → Byte :=
  if len = 1 then clrbit cp off
  else
    let sby := off / 8
    let sbi := off % 8
    let eby := (off + len) / 8
    let ebi := (off + len) % 8
    if sby = eby then
      let mask := ((1#8 <<< (ebi - sbi)) - 1) <<< sbi
      Function.update cp sby (cp sby &&& ~~~mask)
    else
      let mask := (1#8 <<< sbi) - 1
      let cp := Function.update cp sby (cp sby &&& mask)
      let sby := sby + 1
      let cp := memzero cp sby (eby - sby)
      let mask := (1#8 <<< ebi) - 1
      if mask ≠ 0 then Function.update cp eby (cp eby &&& ~~~mask) else cp

structure Clist where
  cCc : Nat
  cCn : Nat
  cCf : Option Nat
  cCl : Option Nat
  cCs : Nat → Byte
  cCe : Nat
  cCq : Option (Nat → Byte)

def clalloc (size : Nat) (quot : Bool) : Clist where
  cCc := 0
  cCn := size
  cCf := none
  cCl := none
  cCs := fun _ => 0
  cCe := size
  cCq := if quot then some fun _ => 0 else none

namespace Clist

/-- The pointer `n` characters after another one, where this does not lead past `c_ce`. -/
def bump (clp : Clist) (p n : Nat) : Nat := if p + n = clp.cCe then 0 else p + n

def charAt (clp : Clist) (p : Nat) : CInt :=
  let c := (clp.cCs p).setWidth 32
  match clp.cCq with
  | some cq => if isset cq p then c ||| ttyQuote else c
  | none => c

def reset (clp : Clist) : Clist :=
  if clp.cCc = 0 then { clp with cCf := none, cCl := none } else clp

/-- `c_cf` and `c_cl` of an empty clist that is about to be filled. -/
def start (clp : Clist) : Clist :=
  if clp.cCc = 0 then { clp with cCf := some 0, cCl := some 0 } else clp

def takeAt (clp : Clist) (cf : Nat) : Clist :=
  { clp with
    cCs := Function.update clp.cCs cf 0
    cCq := clp.cCq.map fun cq => clrbit cq cf
    cCf := some (clp.bump cf 1)
    cCc := clp.cCc - 1 }

def moveOut (clp : Clist) (cf cc : Nat) : Clist :=
  { clp with
    cCs := memzero clp.cCs cf cc
    cCq := clp.cCq.map fun cq => clrbits cq cf cc
    cCc := clp.cCc - cc
    cCf := some (clp.bump cf cc) }

def skip (clp : Clist) (cf cc : Nat) : Clist :=
  { clp with
    cCc := clp.cCc - cc
    cCf := some (clp.bump cf cc) }

def putAt (clp : Clist) (cl : Nat) (c : CInt) : Clist :=
  { clp with
    cCs := Function.update clp.cCs cl (c.setWidth 8)
    cCq := clp.cCq.map fun cq => if c &&& ttyQuote ≠ 0 then setbit cq cl else clrbit cq cl
    cCc := clp.cCc + 1
    cCl := some (clp.bump cl 1) }

def moveIn (clp : Clist) (cl : Nat) (p : List Byte) : Clist :=
  { clp with
    cCs := memcpy clp.cCs cl p
    cCq := clp.cCq.map fun cq => clrbits cq cl p.length
    cCc := clp.cCc + p.length
    cCl := some (clp.bump cl p.length) }

/-- The character at `cl`, which was the last one, is taken back. -/
def takeBack (clp : Clist) (cl : Nat) : Clist :=
  { clp with
    cCl := some cl
    cCc := clp.cCc - 1
    cCs := Function.update clp.cCs cl 0
    cCq := clp.cCq.map fun cq => clrbit cq cl }

end Clist

def getc (clp : Clist) : Option (CInt × Clist) :=
  if clp.cCc = 0 then some (noChar, clp)
  else do
    let cf ← clp.cCf
    some (clp.charAt cf, (clp.takeAt cf).reset)

def qToBLoop : Nat → Clist → Nat → List Byte → Option (List Byte × Clist)
  | 0, _, _, _ => none
  | fuel + 1, clp, count, p =>
    if count > 0 ∧ clp.cCc > 0 then do
      let cf ← clp.cCf
      let cl ← clp.cCl
      let cc := if cf ≥ cl then clp.cCe - cf else cl - cf
      let cc := if cc > count then count else cc
      qToBLoop fuel (clp.moveOut cf cc) (count - cc)
        (p ++ (List.range cc).map fun i => clp.cCs (cf + i))
    else some (p, clp.reset)

def qToB (clp : Clist) (count : Int) : Option (List Byte × Clist) :=
  qToBLoop (count.toNat + 1) clp count.toNat []

/-- The loop of `ndqb` for a flag with `TTY_QUOTE`, with the quote bits that it reads.  The index is
counted up by the first operand of the disjunction, so the second one reads the bit behind. -/
def ndqbQuoteLoop (clp : Clist) (mask : CInt) : Nat → Nat → Nat → Option (Nat × List Nat)
  | 0, _, count => some (count, [])
  | cc + 1, i, count =>
    if (clp.cCs i).setWidth 32 &&& mask ≠ 0 then some (count, [])
    else
      match clp.cCq with
      | none => none
      | some cq =>
        if isset cq (i + 1) then some (count, [i + 1])
        else if i + 1 = clp.cCn then some (count + 1, [i + 1])
        else (ndqbQuoteLoop clp mask cc (i + 1) (count + 1)).map fun r => (r.1, (i + 1) :: r.2)

def ndqbLoop (clp : Clist) (flag : CInt) : Nat → Nat → Nat → Nat
  | 0, _, count => count
  | cc + 1, i, count =>
    if (clp.cCs i).setWidth 32 &&& flag ≠ 0 then count
    else if i + 1 = clp.cCn then count + 1
    else ndqbLoop clp flag cc (i + 1) (count + 1)

/-- The count, and the places of the quote bits that were read for it. -/
def ndqb (clp : Clist) (flag : CInt) : Option (Nat × List Nat) :=
  if clp.cCc = 0 then some (0, [])
  else
    match clp.cCf, clp.cCl with
    | some cf, some cl =>
      if flag = 0 then some (if cl ≤ cf then clp.cCe - cf else cl - cf, [])
      else if flag &&& ttyQuote ≠ 0 then
        ndqbQuoteLoop clp (flag &&& ~~~ttyQuote) clp.cCc cf 0
      else some (ndqbLoop clp flag clp.cCc cf 0, [])
    | _, _ => none

def ndflushLoop : Nat → Clist → Nat → Option Clist
  | 0, _, _ => none
  | fuel + 1, clp, count =>
    if count > 0 ∧ clp.cCc > 0 then do
      let cf ← clp.cCf
      let cl ← clp.cCl
      let cc := if cf ≥ cl then clp.cCe - cf else cl - cf
      let cc := if cc > count then count else cc
      ndflushLoop fuel (clp.skip cf cc) (count - cc)
    else some clp.reset

def ndflush (clp : Clist) (count : Int) : Option Clist :=
  if count = clp.cCc then some { clp with cCc := 0, cCf := none, cCl := none }
  else ndflushLoop (count.toNat + 1) clp count.toNat

def putc (c : CInt) (clp : Clist) : Option (CInt × Clist) :=
  if clp.cCc = clp.cCn then some (noChar, clp)
  else do
    let cl ← clp.start.cCl
    some (0, clp.start.putAt cl c)

def bToQLoop : Nat → Clist → List Byte → Option (Nat × Clist)
  | 0, _, _ => none
  | fuel + 1, clp, p =>
    if p.length > 0 ∧ clp.cCc < clp.cCn then do
      let cf ← clp.cCf
      let cl ← clp.cCl
      let cc := if cf > cl then cf - cl else clp.cCe - cl
      let cc := if cc > p.length then p.length else cc
      bToQLoop fuel (clp.moveIn cl (p.take cc)) (p.drop cc)
    else some (p.length, clp)

def bToQ (cp : List Byte) (clp : Clist) : Option (Nat × Clist) :=
  if cp.length = 0 then some (0, clp)
  else if clp.cCc = clp.cCn then some (cp.length, clp)
  else bToQLoop (cp.length + 1) clp.start cp

def unputc (clp : Clist) : Option (CInt × Clist) :=
  if clp.cCc = 0 then some (noChar, clp)
  else do
    let cl ← clp.cCl
    let cl := if cl = 0 then clp.cCe - 1 else cl - 1
    some (clp.charAt cl, (clp.takeBack cl).reset)

/-- The new pointer with the character there, and the count of characters that are left. -/
def nextc (clp : Clist) (cp ccp : Nat) : Option (Nat × CInt) × Nat :=
  let ccp := if clp.cCf = some cp then clp.cCc else ccp
  if ccp = 0 then (none, ccp)
  else
    let ccp := ccp - 1
    if ccp = 0 then (none, ccp)
    else
      let cp := clp.bump cp 1
      (some (cp, clp.charAt cp), ccp)

def firstc (clp : Clist) : Option (Option (Nat × CInt) × Nat) :=
  if clp.cCc = 0 then some (none, 0)
  else do
    let cf ← clp.cCf
    some (some (cf, clp.charAt cf), clp.cCc)

/-- The characters that `nextc` returns until `NULL`. -/
def nextcs (clp : Clist) : Nat → Nat → Nat → Option (List CInt)
  | 0, _, _ => none
  | fuel + 1, cp, ccp =>
    match nextc clp cp ccp with
    | (none, _) => some []
    | (some (cp, c), ccp) => (nextcs clp fuel cp ccp).map (c :: ·)

def chars (clp : Clist) : Option (List CInt) := do
  match ← firstc clp with
  | (none, _) => some []
  | (some (cp, c), ccp) => (nextcs clp clp.cCc cp ccp).map (c :: ·)

inductive ClistOp
  | putc (c : CInt)
  | getc
  | unputc
  | bToQ (cp : List Byte)
  | qToB (count : Int)
  | ndflush (count : Int)

inductive ClistRet
  | char (c : CInt)
  | left (count : Nat)
  | bytes (p : List Byte)
  | void
  deriving DecidableEq

def Clist.step (clp : Clist) : ClistOp → Option (ClistRet × Clist)
  | .putc c => (putc c clp).map fun r => (.char r.1, r.2)
  | .getc => (getc clp).map fun r => (.char r.1, r.2)
  | .unputc => (unputc clp).map fun r => (.char r.1, r.2)
  | .bToQ cp => (bToQ cp clp).map fun r => (.left r.1, r.2)
  | .qToB count => (qToB clp count).map fun r => (.bytes r.1, r.2)
  | .ndflush count => (ndflush clp count).map fun clp => (.void, clp)

def clistRun (clp : Clist) : List ClistOp → Option (List ClistRet × Clist)
  | [] => some ([], clp)
  | op :: ops => do
    let (r, clp) ← clp.step op
    let (rs, clp) ← clistRun clp ops
    some (r :: rs, clp)

end Mbsd.Kern.TtySubr
