import Mbsd.Lib.Prefix
import Mbsd.Net.Pf.Cksum

/-! The address pools of `net/pf_lb.c`, those given as one address and mask and without sticky
addresses.  All words of an address are in network byte order, as they lie in memory. -/

namespace Mbsd.Net.PfLb

open Pf

def ntohl : ByteOrder → BitVec 32 → BitVec 32
  | .little, x =>
    (x.setWidth 8 ++ (x >>> 8).setWidth 8) ++ ((x >>> 16).setWidth 8 ++ (x >>> 24).setWidth 8)
  | .big, x => x

/-- The address families for which `unhandled_af` does not panic. -/
inductive PoolAf | inet | inet6
  deriving DecidableEq, Repr

namespace PoolAf

def af : PoolAf → Af
  | inet => .inet
  | inet6 => .inet6

def bits : PoolAf → Nat
  | inet => 32
  | inet6 => 128

end PoolAf

def pfAeq (a b : PfAddr) : PoolAf → Bool
  | .inet => a.addr0 = b.addr0
  | .inet6 => a.addr3 = b.addr3 && a.addr2 = b.addr2 && a.addr1 = b.addr1 && a.addr0 = b.addr0

def pfAddrcpy (dst src : PfAddr) : PoolAf → PfAddr
  | .inet => { dst with addr0 := src.addr0 }
  | .inet6 => src

def poolmaskWord (raddr rmask saddr : BitVec 32) : BitVec 32 :=
  (raddr &&& rmask) ||| ((rmask ^^^ 0xffffffff) &&& saddr)

def pfPoolmask (naddr raddr rmask saddr : PfAddr) : PoolAf → PfAddr
  | .inet => { naddr with addr0 := poolmaskWord raddr.addr0 rmask.addr0 saddr.addr0 }
  | .inet6 =>
    { addr0 := poolmaskWord raddr.addr0 rmask.addr0 saddr.addr0
      addr1 := poolmaskWord raddr.addr1 rmask.addr1 saddr.addr1
      addr2 := poolmaskWord raddr.addr2 rmask.addr2 saddr.addr2
      addr3 := poolmaskWord raddr.addr3 rmask.addr3 saddr.addr3 }

section Order

variable (o : ByteOrder)

def incWord (x : BitVec 32) : BitVec 32 := ntohl o (ntohl o x + 1)

def pfAddrInc (addr : PfAddr) : PoolAf → PfAddr
  | .inet => { addr with addr0 := incWord o addr.addr0 }
  | .inet6 =>
    if addr.addr3 = 0xffffffff then
      if addr.addr2 = 0xffffffff then
        if addr.addr1 = 0xffffffff then
          { addr0 := incWord o addr.addr0, addr1 := 0, addr2 := 0, addr3 := 0 }
        else { addr with addr1 := incWord o addr.addr1, addr2 := 0, addr3 := 0 }
      else { addr with addr2 := incWord o addr.addr2, addr3 := 0 }
    else { addr with addr3 := incWord o addr.addr3 }

/-- `r` is the first of the random numbers that is large enough. -/
def arc4randomUniform (r upperBound : BitVec 32) : BitVec 32 :=
  if upperBound < 2 then 0 else r % upperBound

def pfRandAddr (r mask : BitVec 32) : BitVec 32 :=
  let mask := ~~~ntohl o mask
  let addr := arc4randomUniform r (mask + 1)
  ntohl o addr

abbrev Random := Fin 4 → BitVec 32

def randCounter (rand : Random) (rmask counter : PfAddr) : PoolAf → PfAddr
  | .inet => { counter with addr0 := pfRandAddr o (rand 0) rmask.addr0 }
  | .inet6 =>
    if rmask.addr3 ≠ 0xffffffff then
      let counter := { counter with addr3 := pfRandAddr o (rand 3) rmask.addr3 }
      if rmask.addr2 ≠ 0xffffffff then
        let counter := { counter with addr2 := pfRandAddr o (rand 2) rmask.addr2 }
        if rmask.addr1 ≠ 0xffffffff then
          let counter := { counter with addr1 := pfRandAddr o (rand 1) rmask.addr1 }
          if rmask.addr0 ≠ 0xffffffff then
            { counter with addr0 := pfRandAddr o (rand 0) rmask.addr0 }
          else counter
        else counter
      else counter
    else counter

inductive PoolType | none | bitmask | random | srchash | roundrobin | leaststates
  deriving DecidableEq, Repr

structure PfPool where
  type : PoolType
  raddr : PfAddr
  rmask : PfAddr
  states : Nat
  deriving Repr

/-- What `pf_map_addr` writes; `initAddr` may be a null pointer. -/
structure MapAddr where
  naddr : PfAddr
  initAddr : Option PfAddr
  counter : PfAddr
  deriving DecidableEq, Repr

namespace MapAddr

variable (af : PoolAf) (s : MapAddr)

/-- If `init_addr` is there and zero, then it becomes `addr`. -/
def setInitAddr (addr : PfAddr) : MapAddr :=
  { s with
    initAddr := s.initAddr.map fun initAddr =>
      if pfAzero initAddr af.af then pfAddrcpy initAddr addr af else initAddr }

def fresh : Bool := s.initAddr.any (pfAzero · af.af)

end MapAddr

variable (af : PoolAf) (rpool : PfPool)

/-- The loop of the pool type least-states, cut off after `n` turns.  The weights and states that it
compares are those of the pool itself. -/
def leastStatesLoop (faddr : PfAddr) : Nat → PfAddr → Except PfAddr PfAddr
  | 0, counter => .error counter
  | n + 1, counter =>
    let counter := pfAddrInc o counter af
    if pfMatchAddr rpool.raddr rpool.rmask counter af.af then .error counter
    else if !pfMatchAddr faddr rpool.rmask counter af.af && rpool.states > 0 then
      leastStatesLoop faddr n counter
    else .ok counter

def isHostMask (rmask : PfAddr) : PoolAf → Bool
  | .inet => rmask.addr0 = 0xffffffff
  | .inet6 => rmask.words.all (· = 0xffffffff)

variable (hash : PfAddr → PfAddr) (saddr : PfAddr) (rand : Random) (s : MapAddr)

/-- The branch of the pool type round-robin after its tests. -/
def mapRoundrobin : MapAddr :=
  let s := { s with naddr := pfPoolmask s.naddr rpool.raddr rpool.rmask s.counter af }
  let s := s.setInitAddr af s.counter
  { s with counter := pfAddrInc o s.counter af }

def mapLeaststates : Except MapAddr MapAddr :=
  if pfMatchAddr rpool.raddr rpool.rmask s.counter af.af then .error s
  else
    let faddr := s.counter
    let s := { s with naddr := pfAddrcpy s.naddr s.counter af }
    let s := s.setInitAddr af s.naddr
    match leastStatesLoop o af rpool faddr (2 ^ af.bits) s.counter with
    | .error counter => .error { s with counter }
    | .ok counter => .ok { s with counter }

/-- `.error` is the return value 1.  `hash` is `pf_hash` with the key of the pool. -/
def pfMapAddr : Except MapAddr MapAddr :=
  let { raddr, rmask, .. } := rpool
  match rpool.type with
  | .none => .ok { s with naddr := pfAddrcpy s.naddr raddr af }
  | .bitmask => .ok { s with naddr := pfPoolmask s.naddr raddr rmask saddr af }
  | .random =>
    if s.fresh af then
      let s := { s with counter := randCounter o rand rmask s.counter af }
      let s := { s with naddr := pfPoolmask s.naddr raddr rmask s.counter af }
      .ok (s.setInitAddr af s.naddr)
    else
      let s := { s with counter := pfAddrInc o s.counter af }
      .ok { s with naddr := pfPoolmask s.naddr raddr rmask s.counter af }
  | .srchash => .ok { s with naddr := pfPoolmask s.naddr raddr rmask (hash saddr) af }
  | .roundrobin =>
    if pfAzero s.counter af.af then
      if isHostMask rmask af then .ok { s with naddr := pfAddrcpy s.naddr raddr af }
      else .ok (mapRoundrobin o af rpool s)
    else if pfMatchAddr raddr rmask s.counter af.af then .error s
    else .ok (mapRoundrobin o af rpool s)
  | .leaststates => mapLeaststates o af rpool s

end Order

end Mbsd.Net.PfLb
