import Mathlib.Data.BitVec

/-! Header compression as in `net/slcompress.c`.  Headers are records of their fields in host byte
order; a compressed packet is the list of its bytes. -/

namespace Mbsd.Net.SlCompress

abbrev Byte := BitVec 8

def maxStates : Nat := 16
def maxHdr : Nat := 224

def newC : Byte := 0x40#8
def newI : Byte := 0x20#8
def newS : Byte := 0x08#8
def newA : Byte := 0x04#8
def newW : Byte := 0x02#8
def newU : Byte := 0x01#8
def specialI : Byte := newS ||| newW ||| newU
def specialD : Byte := newS ||| newA ||| newW ||| newU
def specialsMask : Byte := newS ||| newA ||| newW ||| newU
def tcpPushBit : Byte := 0x10#8

def thFin : Byte := 0x01#8
def thSyn : Byte := 0x02#8
def thRst : Byte := 0x04#8
def thPush : Byte := 0x08#8
def thAck : Byte := 0x10#8
def thUrg : Byte := 0x20#8
def thEce : Byte := 0x40#8
def thCwr : Byte := 0x80#8

def ipprotoTcp : Byte := 6#8

/-- An IP header followed by a TCP header, each with its options. -/
structure Hdr where
  ipV : BitVec 4
  ipHl : BitVec 4
  ipTos : Byte
  ipLen : BitVec 16
  ipId : BitVec 16
  ipOff : BitVec 16
  ipTtl : Byte
  ipP : Byte
  ipSum : BitVec 16
  ipSrc : BitVec 32
  ipDst : BitVec 32
  ipOpts : List Byte
  sport : BitVec 16
  dport : BitVec 16
  seq : BitVec 32
  ack : BitVec 32
  thOff : BitVec 4
  thX2 : BitVec 4
  thFlags : Byte
  thWin : BitVec 16
  thSum : BitVec 16
  thUrp : BitVec 16
  thOpts : List Byte
  deriving DecidableEq

namespace Hdr

def zero : Hdr :=
  ⟨0#4, 0#4, 0#8, 0#16, 0#16, 0#16, 0#8, 0#8, 0#16, 0#32, 0#32, [], 0#16, 0#16, 0#32, 0#32, 0#4,
    0#4, 0#8, 0#16, 0#16, 0#16, []⟩

def hlen (h : Hdr) : Nat := h.ipHl.toNat * 4 + h.thOff.toNat * 4

def size (h : Hdr) : Nat := 40 + h.ipOpts.length + h.thOpts.length

def words : List Byte → List (BitVec 16)
  | b0 :: b1 :: bs => (b0 ++ b1) :: words bs
  | _ => []

def ipWords (h : Hdr) : List (BitVec 16) :=
  [h.ipV ++ h.ipHl ++ h.ipTos, h.ipLen, h.ipId, h.ipOff, h.ipTtl ++ h.ipP, h.ipSum,
    (h.ipSrc >>> 16).setWidth 16, h.ipSrc.setWidth 16, (h.ipDst >>> 16).setWidth 16,
    h.ipDst.setWidth 16] ++ words h.ipOpts

def recomputeIpSum (h : Hdr) : Hdr :=
  let h := { h with ipSum := 0#16 }
  let changes : BitVec 32 := h.ipWords.foldl (fun x w => x + w.setWidth 32) 0#32
  let changes := (changes &&& 0xffff#32) + (changes >>> 16)
  let changes := (changes &&& 0xffff#32) + (changes >>> 16)
  { h with ipSum := (~~~changes).setWidth 16 }

end Hdr

structure Packet where
  hdr : Hdr
  data : List Byte
  mLen : Nat

structure Cstate where
  hdr : Hdr
  csHlen : Nat

/-- Both directions of a line.  The transmit states are a circular list: `first` is the state
behind `last_cs`, and `rest` are the others in their order, so the last one is `last_cs`. -/
structure Slcompress where
  first : Nat
  rest : List Nat
  tstate : Nat → Hdr
  lastXmit : Nat
  rstate : Nat → Cstate
  lastRecv : Nat
  toss : Bool

def slCompressSetup (maxState : Nat) : Slcompress where
  first := maxState
  rest := (List.range maxState).reverse
  tstate := fun _ => .zero
  lastXmit := 255
  rstate := fun _ => ⟨.zero, 0⟩
  lastRecv := 255
  toss := true

def slCompressInit : Slcompress := slCompressSetup (maxStates - 1)

inductive Sent
  | ip (p : Packet)
  | uncompressed (hdr : Hdr) (data : List Byte)
  | compressed (buf : List Byte)

section Compress

def encode (n : BitVec 16) : List Byte :=
  if 256#16 ≤ n then [0#8, (n >>> 8).setWidth 8, n.setWidth 8] else [n.setWidth 8]

def encodez (n : BitVec 16) : List Byte :=
  if 256#16 ≤ n ∨ n = 0#16 then [0#8, (n >>> 8).setWidth 8, n.setWidth 8] else [n.setWidth 8]

variable (p cs : Hdr)

def slSameHeader : Bool :=
  (p.ipV, p.ipHl, p.ipTos) = (cs.ipV, cs.ipHl, cs.ipTos) && p.ipOff = cs.ipOff &&
    (p.ipTtl, p.ipP) = (cs.ipTtl, cs.ipP) && p.thOff = cs.thOff && p.ipOpts = cs.ipOpts &&
    p.thOpts = cs.thOpts

/-- The change bit of a field with the bytes for it; `none` is a jump to `uncompressed`. -/
def slUrg : Option (Byte × List Byte) :=
  if p.thFlags &&& thUrg ≠ 0#8 then some (newU, encodez p.thUrp)
  else if p.thUrp ≠ cs.thUrp then none
  else some (0#8, [])

def slWin : Byte × List Byte :=
  if p.thWin - cs.thWin ≠ 0#16 then (newW, encode (p.thWin - cs.thWin)) else (0#8, [])

def slDelta (bit : Byte) (delta : BitVec 32) : Option (Byte × List Byte) :=
  if delta ≠ 0#32 then
    if 0xffff#32 < delta then none else some (bit, encode (delta.setWidth 16))
  else some (0#8, [])

def slFields : Option (Byte × List Byte) :=
  match slUrg p cs, slWin p cs, slDelta newA (p.ack - cs.ack), slDelta newS (p.seq - cs.seq) with
  | some u, w, some a, some s => some (u.1 ||| w.1 ||| a.1 ||| s.1, u.2 ++ w.2 ++ a.2 ++ s.2)
  | _, _, _, _ => none

/-- The payload length of the packet before, as the special cases compute it. -/
def slLastLen : BitVec 32 := cs.ipLen.setWidth 32 - BitVec.ofNat 32 p.hlen

def slSpecial (c : Byte × List Byte) : Option (Byte × List Byte) :=
  if c.1 = 0#8 then
    if p.ipLen ≠ cs.ipLen ∧ cs.ipLen.toNat = p.hlen then some c else none
  else if c.1 = specialI ∨ c.1 = specialD then none
  else if c.1 = newS ||| newA then
    if p.seq - cs.seq = p.ack - cs.ack ∧ p.seq - cs.seq = slLastLen p cs then some (specialI, [])
    else some c
  else if c.1 = newS then
    if p.seq - cs.seq = slLastLen p cs then some (specialD, []) else some c
  else some c

def slId (c : Byte × List Byte) : Byte × List Byte :=
  if p.ipId.setWidth 32 - cs.ipId.setWidth 32 ≠ 1#32 then
    (c.1 ||| newI, c.2 ++ encodez (p.ipId - cs.ipId))
  else c

def slPush (c : Byte × List Byte) : Byte × List Byte :=
  if p.thFlags &&& thPush ≠ 0#8 then (c.1 ||| tcpPushBit, c.2) else c

/-- The change mask and the bytes of a packet that is sent compressed. -/
def slEncode : Option (Byte × List Byte) :=
  if slSameHeader p cs then
    match slFields p cs with
    | none => none
    | some c => (slSpecial p cs c).map fun c => slPush p (slId p cs c)
  else none

def slMatches : Bool :=
  p.ipSrc = cs.ipSrc && p.ipDst = cs.ipDst && p.sport = cs.sport && p.dport = cs.dport

end Compress

namespace Slcompress

def moveToFront (comp : Slcompress) (i : Nat) : Slcompress :=
  if i = comp.first then comp
  else { comp with first := i, rest := comp.first :: comp.rest.erase i }

def oldest (comp : Slcompress) : Nat := (comp.rest.getLast?).getD comp.first

/-- The state that is used for a packet, and whether it was found. -/
def findState (comp : Slcompress) (p : Hdr) : Nat × Bool :=
  match (comp.first :: comp.rest).find? (fun i => slMatches p (comp.tstate i)) with
  | some i => (i, true)
  | none => (comp.oldest, false)

def save (comp : Slcompress) (i : Nat) (p : Hdr) : Slcompress :=
  { comp with tstate := Function.update comp.tstate i p, lastXmit := i }

end Slcompress

/-- The packet bails out: it is a fragment, or short, or has no `ACK` or another control bit. -/
def slIncompressible (p : Packet) : Bool :=
  p.hdr.ipOff &&& 0x3fff#16 ≠ 0#16 || p.mLen < 40 ||
    p.hdr.thFlags &&& (thSyn ||| thFin ||| thRst ||| thAck) ≠ thAck

def slCompressTcp (comp : Slcompress) (p : Packet) (compressCid : Bool) : Slcompress × Sent :=
  if slIncompressible p then (comp, .ip p)
  else
    let (i, found) := comp.findState p.hdr
    let comp := comp.moveToFront i
    match (if found then slEncode p.hdr (comp.tstate i) else none) with
    | none =>
      (comp.save i p.hdr, .uncompressed { p.hdr with ipP := BitVec.ofNat 8 i } p.data)
    | some (changes, newSeq) =>
      let sum := [(p.hdr.thSum >>> 8).setWidth 8, p.hdr.thSum.setWidth 8]
      let start :=
        if compressCid = false ∨ comp.lastXmit ≠ i then [changes ||| newC, BitVec.ofNat 8 i]
        else [changes]
      (comp.save i p.hdr, .compressed (start ++ sum ++ newSeq ++ p.data))

section Uncompress

variable (buf : List Byte)

def decode (cp : Nat) : BitVec 16 × Nat :=
  if buf.getD cp 0#8 = 0#8 then (buf.getD (cp + 1) 0#8 ++ buf.getD (cp + 2) 0#8, cp + 3)
  else ((buf.getD cp 0#8).setWidth 16, cp + 1)

def decodeU (changes : Byte) (r : Hdr × Nat) : Hdr × Nat :=
  if changes &&& newU ≠ 0#8 then
    ({ r.1 with thFlags := r.1.thFlags ||| thUrg, thUrp := (decode buf r.2).1 },
      (decode buf r.2).2)
  else ({ r.1 with thFlags := r.1.thFlags &&& ~~~thUrg }, r.2)

def decodeW (changes : Byte) (r : Hdr × Nat) : Hdr × Nat :=
  if changes &&& newW ≠ 0#8 then
    ({ r.1 with thWin := r.1.thWin + (decode buf r.2).1 }, (decode buf r.2).2)
  else r

def decodeA (changes : Byte) (r : Hdr × Nat) : Hdr × Nat :=
  if changes &&& newA ≠ 0#8 then
    ({ r.1 with ack := r.1.ack + (decode buf r.2).1.setWidth 32 }, (decode buf r.2).2)
  else r

def decodeS (changes : Byte) (r : Hdr × Nat) : Hdr × Nat :=
  if changes &&& newS ≠ 0#8 then
    ({ r.1 with seq := r.1.seq + (decode buf r.2).1.setWidth 32 }, (decode buf r.2).2)
  else r

def decodeI (changes : Byte) (r : Hdr × Nat) : Hdr × Nat :=
  if changes &&& newI ≠ 0#8 then
    ({ r.1 with ipId := r.1.ipId + (decode buf r.2).1 }, (decode buf r.2).2)
  else ({ r.1 with ipId := r.1.ipId + 1#16 }, r.2)

def decodeFields (changes : Byte) (csHlen : Nat) (r : Hdr × Nat) : Hdr × Nat :=
  let len := r.1.ipLen.setWidth 32 - BitVec.ofNat 32 csHlen
  if changes &&& specialsMask = specialI then
    ({ r.1 with ack := r.1.ack + len, seq := r.1.seq + len }, r.2)
  else if changes &&& specialsMask = specialD then ({ r.1 with seq := r.1.seq + len }, r.2)
  else decodeS buf changes (decodeA buf changes (decodeW buf changes (decodeU buf changes r)))

def decodePush (changes : Byte) (h : Hdr) : Hdr :=
  if changes &&& tcpPushBit ≠ 0#8 then { h with thFlags := h.thFlags ||| thPush }
  else { h with thFlags := h.thFlags &&& ~~~thPush }

end Uncompress

namespace Slcompress

def bad (comp : Slcompress) : Slcompress × Option Hdr := ({ comp with toss := true }, none)

def rebuild (comp : Slcompress) (buf : List Byte) (changes : Byte) (cp : Nat) :
    Slcompress × Option Hdr :=
  let cs := comp.rstate comp.lastRecv
  let h := { cs.hdr with thSum := buf.getD cp 0#8 ++ buf.getD (cp + 1) 0#8 }
  let r := decodeI buf changes
    (decodeFields buf changes cs.csHlen (decodePush changes h, cp + 2))
  let store (h : Hdr) : Slcompress :=
    { comp with rstate := Function.update comp.rstate comp.lastRecv { cs with hdr := h } }
  if buf.length < r.2 then (store r.1).bad
  else
    let h := { r.1 with ipLen := BitVec.ofNat 16 (buf.length + cs.csHlen - r.2) }
    (store h.recomputeIpSum, some h.recomputeIpSum)

end Slcompress

/-- The state afterwards and the header at `*hdrp`; `none` is the error return. -/
def slUncompressTcpCore (comp : Slcompress) : Sent → Slcompress × Option Hdr
  | .ip _ => comp.bad
  | .uncompressed hdr data =>
    if maxStates ≤ hdr.ipP.toNat then comp.bad
    else
      let comp := { comp with lastRecv := hdr.ipP.toNat, toss := false }
      let h := { hdr with ipP := ipprotoTcp }
      let buflen := hdr.size + data.length
      if h.ipHl.toNat * 4 + 20 > buflen then comp.bad
      else if h.hlen > maxHdr ∨ h.hlen > buflen then comp.bad
      else ({ comp with rstate := Function.update comp.rstate comp.lastRecv ⟨h, h.hlen⟩ }, some h)
  | .compressed buf =>
    let changes := buf.getD 0 0#8
    if changes &&& newC ≠ 0#8 then
      if maxStates ≤ (buf.getD 1 0#8).toNat then comp.bad
      else
        { comp with toss := false, lastRecv := (buf.getD 1 0#8).toNat }.rebuild buf changes 2
    else if comp.toss then (comp, none)
    else comp.rebuild buf changes 1

/-- The packet at the other end of the line.  An IP packet is not handed to
`sl_uncompress_tcp_core`. -/
def slReceive (comp : Slcompress) : Sent → Slcompress × Option Hdr
  | .ip p => (comp, some p.hdr)
  | sent => slUncompressTcpCore comp sent

end Mbsd.Net.SlCompress
