import Mathlib.Data.BitVec
import Mbsd.Lib.SkipWalk

/-! The match attributes of a rule of `net/pf.c`, the tests on addresses and ports, and
`pf_calc_skip_steps`.  Addresses and ports are in host byte order. -/

namespace Mbsd.Net.Pf

inductive Af | unspec | inet | inet6
  deriving DecidableEq, Repr

structure PfAddr where
  addr0 : BitVec 32
  addr1 : BitVec 32
  addr2 : BitVec 32
  addr3 : BitVec 32
  deriving DecidableEq, Repr

def PfAddr.words (a : PfAddr) : List (BitVec 32) := [a.addr0, a.addr1, a.addr2, a.addr3]

def pfAzero (a : PfAddr) : Af → Bool
  | .inet => a.addr0 = 0
  | .inet6 => a.words.all (· = 0)
  | .unspec => false

def pfMatchAddr (a m b : PfAddr) : Af → Bool
  | .inet => a.addr0 &&& m.addr0 = b.addr0 &&& m.addr0
  | .inet6 => List.zipWith (· &&& ·) a.words m.words = List.zipWith (· &&& ·) b.words m.words
  | .unspec => false

def pfMatchAddrRange (b e a : PfAddr) : Af → Bool
  | .inet => b.addr0 ≤ a.addr0 && a.addr0 ≤ e.addr0
  | .inet6 => b.words ≤ a.words && a.words ≤ e.words
  | .unspec => true

inductive PfOp | none | irg | eq | ne | lt | le | gt | ge | xrg | rrg
  deriving DecidableEq, Repr

def pfMatch (op : PfOp) (a1 a2 p : Nat) : Bool :=
  match op with
  | .irg => a1 < p && p < a2
  | .xrg => p < a1 || a2 < p
  | .rrg => a1 ≤ p && p ≤ a2
  | .eq => p = a1
  | .ne => p ≠ a1
  | .lt => p < a1
  | .le => p ≤ a1
  | .gt => a1 < p
  | .ge => a1 ≤ p
  | .none => false

def pfMatchId (op : PfOp) (a1 a2 : Nat) : Option Nat → Bool
  | some id => pfMatch op a1 a2 id
  | none => (op = .eq || op = .ne) && pfMatch op a1 a2 (2 ^ 32 - 1)

structure PfiDynaddr where
  pfidKt : Nat
  pfidAf : Af
  deriving DecidableEq, Repr

inductive PfAddrWrap
  | addrMask (addr mask : PfAddr)
  | noRoute
  | dynIftl (dyn : PfiDynaddr)
  | table (tbl : Nat)
  | rtLabel (rtlabel : Nat)
  | urpfFailed
  | range (addr mask : PfAddr)
  | none
  | invalid (type : Nat)
  deriving DecidableEq, Repr

def pfAddrWrapNeq : PfAddrWrap → PfAddrWrap → Bool
  | .addrMask a m, .addrMask a' m' => a ≠ a' || m ≠ m'
  | .range a m, .range a' m' => a ≠ a' || m ≠ m'
  | .dynIftl dyn, .dynIftl dyn' => dyn.pfidKt ≠ dyn'.pfidKt
  | .none, .none => false
  | .noRoute, .noRoute => false
  | .urpfFailed, .urpfFailed => false
  | .table tbl, .table tbl' => tbl ≠ tbl'
  | .rtLabel l, .rtLabel l' => l ≠ l'
  | _, _ => true

structure PfRuleAddr where
  addr : PfAddrWrap
  port0 : Nat
  port1 : Nat
  neg : Nat
  portOp : PfOp

structure PfRuleId where
  id0 : Nat
  id1 : Nat
  op : PfOp

def pfruleFragment : BitVec 32 := 0x2
def pfruleStatesloppy : BitVec 32 := 0x20000
def pfruleAfto : BitVec 32 := 0x200000
def pfruleExpired : BitVec 32 := 0x400000

inductive PfAction | pass | drop | match
  deriving DecidableEq, Repr

/-- A rule as it stands in an active ruleset.  `pf_addr_setup` gives the dynamic addresses of a
rule the rule's own family. -/
structure PfRule where
  src : PfRuleAddr
  dst : PfRuleAddr
  kif : Option Nat
  rcvKif : Option Nat
  anchor : Option Nat
  osFingerprint : Nat
  rtableid : Int
  onrdomain : Int
  prob : Nat
  tag : Nat
  matchTag : Nat
  uid : PfRuleId
  gid : PfRuleId
  ruleFlag : BitVec 32
  action : PfAction
  direction : Nat
  quick : Bool
  ifnot : Nat
  matchTagNot : Bool
  keepState : Nat
  af : Af
  proto : Nat
  type : Nat
  code : Nat
  flags : BitVec 8
  flagset : BitVec 8
  tos : Nat
  prio : Nat
  naf : Af
  rcvifnot : Nat
  srcDyn : ∀ dyn, src.addr = .dynIftl dyn → dyn.pfidAf = af
  dstDyn : ∀ dyn, dst.addr = .dynIftl dyn → dyn.pfidAf = af

def PfRule.hasFlag (r : PfRule) (flag : BitVec 32) : Bool := r.ruleFlag &&& flag ≠ 0

inductive PfSkip | ifp | dir | rdom | af | proto | srcAddr | dstAddr | srcPort | dstPort
  deriving DecidableEq, Repr

def PfSkip.all : List PfSkip :=
  [.ifp, .dir, .rdom, .af, .proto, .srcAddr, .dstAddr, .srcPort, .dstPort]

def PfSkip.differs (cur prev : PfRule) : PfSkip → Bool
  | .ifp => cur.kif ≠ prev.kif || cur.ifnot ≠ prev.ifnot
  | .dir => cur.direction ≠ prev.direction
  | .rdom => cur.onrdomain ≠ prev.onrdomain || cur.ifnot ≠ prev.ifnot
  | .af => cur.af ≠ prev.af
  | .proto => cur.proto ≠ prev.proto
  | .srcAddr => cur.src.neg ≠ prev.src.neg || pfAddrWrapNeq cur.src.addr prev.src.addr
  | .dstAddr => cur.dst.neg ≠ prev.dst.neg || pfAddrWrapNeq cur.dst.addr prev.dst.addr
  | .srcPort => cur.src.port0 ≠ prev.src.port0 || cur.src.port1 ≠ prev.src.port1 ||
    cur.src.portOp ≠ prev.src.portOp
  | .dstPort => cur.dst.port0 ≠ prev.dst.port0 || cur.dst.port1 ≠ prev.dst.port1 ||
    cur.dst.portOp ≠ prev.dst.portOp

/-- Pointers into the queue are positions; the position past the end is `NULL`. -/
structure SkipState where
  head : PfSkip → Nat
  skip : Nat → PfSkip → Nat

def pfSetSkipSteps (d : PfSkip) (cur : Nat) : Nat → SkipState → SkipState
  | 0, st => st
  | fuel + 1, st =>
    if st.head d ≠ cur then
      pfSetSkipSteps d cur fuel
        { head := Function.update st.head d (st.head d + 1)
          skip := Function.update st.skip (st.head d)
            (Function.update (st.skip (st.head d)) d cur) }
    else st

/-- One round of the loop over the rules; `prev` of the first rule is the rule itself. -/
def pfCalcSkipStep (rules : List PfRule) (st : SkipState) (cur : Nat) : SkipState :=
  match rules[cur]?, rules[cur - 1]? with
  | some r, some prev =>
    PfSkip.all.foldl
      (fun st d => if d.differs r prev then pfSetSkipSteps d cur (rules.length + 1) st else st) st
  | _, _ => st

def pfCalcSkipSteps (rules : List PfRule) (skip : Nat → PfSkip → Nat) : Nat → PfSkip → Nat :=
  let st := (List.range rules.length).foldl (pfCalcSkipStep rules) ⟨fun _ => 0, skip⟩
  (PfSkip.all.foldl
    (fun st d => pfSetSkipSteps d rules.length (rules.length + 1) st) st).skip

/-! The evaluation of a ruleset in `pf_match_rule`.  What lies behind the packet filter (routing
tables, radix tables, sockets, limiters, address pools, the rulesets of anchors) is a parameter,
as it is while one packet is evaluated. -/

open Lib.SkipWalk

structure Ifnet where
  ifGroups : List Nat
  loopback : Bool

structure PfiKif where
  pfikGroup : Option Nat
  pfikIfp : Option Ifnet
  any : Bool

/-- The addresses in a table with their masks, in the order `rn_walktree` visits them. -/
structure PfrKtable where
  pfrktIp4 : List (PfAddr × PfAddr)
  pfrktIp6 : List (PfAddr × PfAddr)

inductive PfTestStatus | fail | quick
  deriving DecidableEq, Repr

inductive VirtualProto | fragment | tcp | udp | icmp | icmpv6 | other
  deriving DecidableEq, Repr

/-- `pf_test_ctx` with the packet description it points to.  A tag of -1 is `none`. -/
structure PfTestCtx where
  kif : Nat
  dir : Nat
  rdomain : Nat
  af : Af
  naf : Af
  proto : Nat
  virtualProto : VirtualProto
  nsaddr : PfAddr
  ndaddr : PfAddr
  nsport : Nat
  ndport : Nat
  tos : Nat
  mTag : Nat
  mPrio : Nat
  thFlags : BitVec 8
  icmptype : Nat
  icmpcode : Nat
  icmpDir : Nat
  stateIcmp : Bool
  rtableid : Int
  tag : Option Nat
  limiterDrop : Bool
  rules : List Nat
  rm : Option Nat
  status : Option PfTestStatus
  deriving DecidableEq

inductive PfLimit | allow | passOver | drop
  deriving DecidableEq, Repr

structure PfEnv where
  kifs : Nat → PfiKif
  ktables : Nat → PfrKtable
  pfrMatchAddr : Nat → PfAddr → Af → Bool
  pfRoutable : PfAddr → Af → Option Nat → Int → Bool
  pfRtlabelMatch : PfAddr → Af → Nat → Int → Bool
  pfOsfpMatch : Nat → Bool
  lookupUid : Option Nat
  lookupGid : Option Nat
  rcvKif : Option Nat
  /-- The value `arc4random_uniform(UINT_MAX - 1)` returns for the rule at a position. -/
  random : Nat → Nat
  limit : Nat → PfTestCtx → PfLimit
  poolGet : Nat → Bool
  pfGetTransaddr : PfRule → PfTestCtx → Option PfTestCtx
  /-- The evaluation of an anchor's rulesets, with the status if it ends the whole evaluation. -/
  enterAnchor : Nat → PfTestCtx → PfTestCtx × Option PfTestStatus

namespace PfEnv

variable (E : PfEnv)

def pfiKifMatch : Option Nat → Nat → Bool
  | none, _ => true
  | some ruleKif, packetKif =>
    let rule := E.kifs ruleKif
    let ifp := (E.kifs packetKif).pfikIfp
    ruleKif = packetKif ||
      rule.pfikGroup.any (fun g => ifp.any (fun ifp => g ∈ ifp.ifGroups)) ||
      (rule.any && ifp.any (fun ifp => !ifp.loopback))

def pfMatchRcvif (r : PfRule) : Bool :=
  match E.rcvKif with
  | none => false
  | some kif => E.pfiKifMatch r.rcvKif kif

/-- The addresses of one family that `pfr_dynaddr_update` counts for a dynamic address. -/
def pfrDynaddr (dyn : PfiDynaddr) (af : Af) : List (PfAddr × PfAddr) :=
  if dyn.pfidAf = .unspec ∨ dyn.pfidAf = af then
    match af with
    | .inet => (E.ktables dyn.pfidKt).pfrktIp4
    | .inet6 => (E.ktables dyn.pfidKt).pfrktIp6
    | .unspec => []
  else []

def pfiMatchAddr (dyn : PfiDynaddr) (a : PfAddr) (af : Af) : Bool :=
  match E.pfrDynaddr dyn af with
  | [] => false
  | [(addr, mask)] => pfMatchAddr addr mask a af
  | _ :: _ :: _ => E.pfrMatchAddr dyn.pfidKt a af

def pfMismatchaw (aw : PfAddrWrap) (x : PfAddr) (af : Af) (neg : Nat) (ifp : Option Nat)
    (rtid : Int) : Bool :=
  let mismatch :=
    match aw with
    | .noRoute => E.pfRoutable x af none rtid
    | .urpfFailed => ifp.isSome && E.pfRoutable x af ifp rtid
    | .rtLabel rtlabel => !E.pfRtlabelMatch x af rtlabel rtid
    | .table tbl => !E.pfrMatchAddr tbl x af
    | .dynIftl dyn => !E.pfiMatchAddr dyn x af
    | .range b e => !pfMatchAddrRange b e x af
    | .addrMask addr mask => !pfAzero mask af && !pfMatchAddr addr mask x af
    | .none => false
    | .invalid _ => false
  mismatch.toNat ≠ neg

end PfEnv

def pfSkipTest (E : PfEnv) (c : PfTestCtx) (r : PfRule) : PfSkip → Bool
  | .ifp => (E.pfiKifMatch r.kif c.kif).toNat = r.ifnot
  | .dir => r.direction ≠ 0 && r.direction ≠ c.dir
  | .rdom => 0 ≤ r.onrdomain && (decide (r.onrdomain = c.rdomain)).toNat = r.ifnot
  | .af => r.af ≠ .unspec && r.af ≠ c.af
  | .proto => r.proto ≠ 0 && r.proto ≠ c.proto
  | .srcAddr => E.pfMismatchaw r.src.addr c.nsaddr c.naf r.src.neg (some c.kif) c.rtableid
  | .dstAddr => E.pfMismatchaw r.dst.addr c.ndaddr c.af r.dst.neg none c.rtableid
  | .srcPort => r.src.portOp ≠ .none && !pfMatch r.src.portOp r.src.port0 r.src.port1 c.nsport
  | .dstPort => r.dst.portOp ≠ .none && !pfMatch r.dst.portOp r.dst.port0 r.dst.port1 c.ndport

inductive PfTarget | next | skip (d : PfSkip)
  deriving DecidableEq, Repr

def ipprotoTcp : Nat := 6
def pfIn : Nat := 1
def ndNeighborAdvert : Nat := 136
def pfPrioZero : Nat := 0xff

def PfRule.keepsNoReplies (r : PfRule) (c : PfTestCtx) : Bool :=
  r.keepState ≠ 0 && !c.stateIcmp && !r.hasFlag pfruleStatesloppy && c.icmpDir ≠ pfIn

def pfMatchTag (r : PfRule) (c : PfTestCtx) : Bool :=
  if r.matchTagNot then r.matchTag ≠ c.tag.getD c.mTag else r.matchTag = c.tag.getD c.mTag

section Tests

variable (E : PfEnv) (c : PfTestCtx) (p : Nat) (r : PfRule)

def pfAddrTests : List (Bool × PfTarget) :=
  [.ifp, .dir, .rdom, .af, .proto, .srcAddr, .dstAddr].map
    fun d => (pfSkipTest E c r d, .skip d)

def pfPortTests : List (Bool × PfTarget) :=
  [(pfSkipTest E c r .srcPort, .skip .srcPort),
   (pfSkipTest E c r .dstPort, .skip .dstPort),
   (r.uid.op ≠ .none && !pfMatchId r.uid.op r.uid.id0 r.uid.id1 E.lookupUid, .next),
   (r.gid.op ≠ .none && !pfMatchId r.gid.op r.gid.id0 r.gid.id1 E.lookupGid, .next)]

def pfIcmpTests (replies : Bool) : List (Bool × PfTarget) :=
  [(r.type ≠ 0 && r.type ≠ c.icmptype + 1, .next),
   (r.code ≠ 0 && r.code ≠ c.icmpcode + 1, .next),
   (replies, .next)]

def pfProtoTests : List (Bool × PfTarget) :=
  match c.virtualProto with
  | .fragment =>
    [(r.src.portOp ≠ .none || r.dst.portOp ≠ .none, .next),
     (c.proto = ipprotoTcp && r.flagset ≠ 0, .next),
     (r.type ≠ 0 || r.code ≠ 0, .next),
     (r.gid.op ≠ .none || r.uid.op ≠ .none, .next)]
  | .tcp =>
    (r.flagset &&& c.thFlags ≠ r.flags, .next) ::
    (r.osFingerprint ≠ 0 && !E.pfOsfpMatch r.osFingerprint, .next) :: pfPortTests E c r
  | .udp => pfPortTests E c r
  | .icmp => pfIcmpTests c r (r.keepsNoReplies c)
  | .icmpv6 => pfIcmpTests c r (r.keepsNoReplies c && c.icmptype ≠ ndNeighborAdvert)
  | .other => []

def pfLastTests : List (Bool × PfTarget) :=
  [(r.hasFlag pfruleFragment && c.virtualProto ≠ .fragment, .next),
   (r.tos ≠ 0 && r.tos ≠ c.tos, .next),
   (r.prob ≠ 0 && r.prob ≤ E.random p + 1, .next),
   (r.matchTag ≠ 0 && !pfMatchTag r c, .next),
   (r.rcvKif.isSome && (E.pfMatchRcvif r).toNat = r.rcvifnot, .next),
   (r.prio ≠ 0 && (if r.prio = pfPrioZero then 0 else r.prio) ≠ c.mPrio, .next)]

def pfTests : List (Bool × PfTarget) :=
  (r.hasFlag pfruleExpired, .next) :: pfAddrTests E c r ++ pfProtoTests E c r ++
    pfLastTests E c p r

/-- The target of the first test that fails; `none` if the rule passes all. -/
def pfTestAttrib : Option PfTarget := ((pfTests E c p r).find? (·.1)).map (·.2)

/-- What follows the attribute tests: the limiters, and then the rule's action.  The mark that a
`once` rule gets here is left out, since a walk does not come back to a rule. -/
def pfRuleBody : Verdict PfTestCtx PfTarget :=
  match E.limit p c with
  | .passOver => .next c
  | .drop => .stop { c with limiterDrop := true }
  | .allow =>
    let c := if r.tag ≠ 0 then { c with tag := some r.tag } else c
    match r.anchor with
    | some anchor =>
      match E.enterAnchor anchor c with
      | (c, none) => .next c
      | (c, some status) => .stop { c with status := some status }
    | none =>
      let done (c : PfTestCtx) : Verdict PfTestCtx PfTarget :=
        if r.quick then .stop { c with status := some .quick } else .next c
      if r.action = .match then
        if E.poolGet p then
          let c := { c with rules := p :: c.rules }
          let c := if 0 ≤ r.rtableid then { c with rtableid := r.rtableid } else c
          let c := if r.hasFlag pfruleAfto then { c with naf := r.naf } else c
          match E.pfGetTransaddr r c with
          | some c => done c
          | none => .stop { c with status := some .fail }
        else .stop { c with status := some .fail }
      else done { c with rm := some p }

end Tests

def pfEvalRule (E : PfEnv) (rules : List PfRule) (p : Nat) (c : PfTestCtx) :
    Verdict PfTestCtx PfTarget :=
  match rules[p]? with
  | none => .stop c
  | some r =>
    match pfTestAttrib E c p r with
    | some target => .reject target
    | none => pfRuleBody E c p r

def PfTarget.jump (skip : Nat → PfSkip → Nat) (p : Nat) : PfTarget → Nat
  | .next => p + 1
  | .skip d => skip p d

/-- The loop of `pf_match_rule` over one ruleset: the rules that pass the attribute tests, and the
context at the end.  `stale` is what the skip pointers were before `pf_calc_skip_steps`. -/
def pfMatchRule (E : PfEnv) (rules : List PfRule) (stale : Nat → PfSkip → Nat) (c : PfTestCtx) :
    Option (List Nat × PfTestCtx) :=
  walk rules.length (pfEvalRule E rules) (PfTarget.jump (pfCalcSkipSteps rules stale))
    (rules.length + 1) 0 c

def pfMatchRuleLinear (E : PfEnv) (rules : List PfRule) (c : PfTestCtx) :
    Option (List Nat × PfTestCtx) :=
  walk rules.length (pfEvalRule E rules) linear (rules.length + 1) 0 c

end Mbsd.Net.Pf
