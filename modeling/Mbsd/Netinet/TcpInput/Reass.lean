import Mbsd.Kern.UipcMbuf
import Mbsd.Netinet.TcpSeq

/-! The reassembly queue of a TCP connection: `tcp_reass` and `tcp_flush_queue`. -/

namespace Mbsd.Netinet.TcpInput

open Kern.UipcMbuf TcpSeq

def thFin : BitVec 8 := 0x01

def tcpsSynReceived : Nat := 3

def tcpsEstablished : Nat := 4

def tcpsHaveestablished (s : Nat) : Prop := s ≥ tcpsEstablished

instance (s : Nat) : Decidable (tcpsHaveestablished s) :=
  inferInstanceAs (Decidable (s ≥ tcpsEstablished))

def ssCantrcvmore : BitVec 16 := 0x020

structure Tcphdr where
  thSeq : Seq
  thFlags : BitVec 8
  /-- `th_urp`, which holds the length of the data while the segment is queued. -/
  thReseqlen : BitVec 16
  deriving DecidableEq

structure Tcpqent where
  tcpqeTcp : Tcphdr
  tcpqeM : Mbuf
  deriving DecidableEq

structure Sockbuf where
  sbState : BitVec 16
  sbMb : Mbuf
  deriving DecidableEq

def Sockbuf.cantrcvmore (sb : Sockbuf) : Bool := sb.sbState &&& ssCantrcvmore ≠ 0

def sbappendstream (sb : Sockbuf) (m : Mbuf) : Sockbuf := { sb with sbMb := sb.sbMb ++ m }

structure Tcpcb where
  tSegq : List Tcpqent
  tState : Nat
  rcvNxt : Seq
  tRcvoopack : BitVec 32
  soRcv : Sockbuf
  deriving DecidableEq

def Tcpcb.present (tp : Tcpcb) (q : Tcpqent) (nq : List Tcpqent) : Tcpcb :=
  { tp with
    rcvNxt := tp.rcvNxt + q.tcpqeTcp.thReseqlen.setWidth 32
    tSegq := nq
    soRcv := if tp.soRcv.cantrcvmore then tp.soRcv else sbappendstream tp.soRcv q.tcpqeM }

def flushLoop (tp : Tcpcb) (flags : BitVec 8) : List Tcpqent → BitVec 8 × Tcpcb
  | [] => (flags, tp)
  | q :: nq =>
    if q.tcpqeTcp.thSeq = tp.rcvNxt then
      flushLoop (tp.present q nq) (q.tcpqeTcp.thFlags &&& thFin) nq
    else (flags, tp)

def tcpFlushQueue (tp : Tcpcb) : BitVec 8 × Tcpcb :=
  if ¬tcpsHaveestablished tp.tState then (0, tp)
  else match tp.tSegq with
    | [] => (0, tp)
    | q :: nq =>
      if q.tcpqeTcp.thSeq ≠ tp.rcvNxt then (0, tp)
      else if tp.tState = tcpsSynReceived ∧ q.tcpqeTcp.thReseqlen ≠ 0 then (0, tp)
      else flushLoop tp 0 (q :: nq)

def trimSucceeding (stop : Seq) : List Tcpqent → List Tcpqent
  | [] => []
  | q :: nq =>
    let i := (stop - q.tcpqeTcp.thSeq).toInt
    if i ≤ 0 then q :: nq
    else if i < q.tcpqeTcp.thReseqlen.toNat then
      { tcpqeTcp := { q.tcpqeTcp with
          thSeq := q.tcpqeTcp.thSeq + BitVec.ofInt 32 i
          thReseqlen := q.tcpqeTcp.thReseqlen - BitVec.ofInt 16 i }
        tcpqeM := mAdj q.tcpqeM i } :: nq
    else trimSucceeding stop nq

/-- `tcp_reass` from the point where the new segment is known to bring something: it follows the
segments `before`. -/
def reassInsert (tp : Tcpcb) (th : Tcphdr) (m : Mbuf) (tlen : Int)
    (before after : List Tcpqent) : BitVec 8 × Tcpcb × Int :=
  let after := trimSucceeding (th.thSeq + BitVec.ofInt 32 tlen) after
  let tiqe := { tcpqeTcp := { th with thReseqlen := BitVec.ofInt 16 tlen }, tcpqeM := m }
  let tp := { tp with
    tRcvoopack := tp.tRcvoopack + 1
    tSegq := before ++ tiqe :: after }
  if th.thSeq ≠ tp.rcvNxt then (0, tp, tlen)
  else
    let (flags, tp) := tcpFlushQueue tp
    (flags, tp, tlen)

def reassQueue (tp : Tcpcb) (th : Tcphdr) (m : Mbuf) (tlen : Int) : BitVec 8 × Tcpcb × Int :=
  let before := tp.tSegq.takeWhile fun q => !seqGt q.tcpqeTcp.thSeq th.thSeq
  let after := tp.tSegq.dropWhile fun q => !seqGt q.tcpqeTcp.thSeq th.thSeq
  match before.getLast? with
  | none => reassInsert tp th m tlen before after
  | some p =>
    let i := (p.tcpqeTcp.thSeq + p.tcpqeTcp.thReseqlen.setWidth 32 - th.thSeq).toInt
    if i > 0 then
      if i ≥ tlen then (0, tp, tlen)
      else reassInsert tp { th with thSeq := th.thSeq + BitVec.ofInt 32 i } (mAdj m i) (tlen - i)
        before after
    else reassInsert tp th m tlen before after

/-- `pool` says whether the pool has an entry.  The results are the value returned, the connection,
and the length left in `*tlen`. -/
def tcpReass (tp : Tcpcb) (th : Tcphdr) (m : Mbuf) (tlen : Int) (pool : Bool) :
    BitVec 8 × Tcpcb × Int :=
  if pool then reassQueue tp th m tlen
  else if tp.tSegq = [] ∨ th.thSeq ≠ tp.rcvNxt then (0, { tp with tSegq := [] }, tlen)
  -- the last entry of the queue is given up for the new segment
  else reassQueue { tp with tSegq := tp.tSegq.dropLast } th m tlen

end Mbsd.Netinet.TcpInput
