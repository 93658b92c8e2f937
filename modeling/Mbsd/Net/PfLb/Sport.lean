import Mbsd.Net.PfLb.Pool

/-! `pf_get_sport` of `net/pf_lb.c`: an address of the pool and a port of the range that no state
has taken. -/

namespace Mbsd.Net.PfLb

open Lib.Prefix Pf Option BitVec Nat Bool

variable {naddr : PfAddr} {r : BitVec 32}

def ipprotoIcmp : BitVec 8 := 1
def ipprotoTcp : BitVec 8 := 6
def ipprotoIcmpv6 : BitVec 8 := 58
def icmpEcho : BitVec 16 := 8
def icmp6EchoRequest : BitVec 16 := 128

def addrWords : PoolAf → PfAddr → List (BitVec 32)
  | .inet, a => [a.addr0]
  | .inet6, a => a.words

structure PfStateKeyCmp where
  addr : Fin 2 → List (BitVec 32)
  port : Fin 2 → BitVec 16
  rdomain : BitVec 16
  af : PoolAf
  proto : BitVec 8

inductive PfDir | inout | inbound | outbound
  deriving DecidableEq, Repr

structure NatDesc where
  naf : PoolAf
  nsaddr : PfAddr
  ndaddr : PfAddr
  nsport : BitVec 16
  ndport : BitVec 16
  proto : BitVec 8
  rdomain : BitVec 16
  dir : PfDir
  sidx : Fin 2
  didx : Fin 2
  sidx_ne_didx : sidx ≠ didx

structure Baddynamicports where
  tcp : BitVec 16 → Bool
  udp : BitVec 16 → Bool
  udpencapPort : Int

def inBaddynamic (baddynamicports : Baddynamicports) (port : BitVec 16) (proto : BitVec 8) : Bool :=
  if proto = ipprotoTcp then baddynamicports.tcp port
  else if proto = ipprotoUdp then
    (port.toNat : Int) = baddynamicports.udpencapPort || baddynamicports.udp port
  else false

/-- What does not change in a call: `pf_find_state_all` says whether there is a state, and each
random number has the turn of the loop in which it is drawn. -/
structure SportEnv where
  order : ByteOrder
  hash : PfAddr → PfAddr
  pfFindStateAll : PfStateKeyCmp → PfDir → Bool
  baddynamicports : Baddynamicports
  rand : Nat → Random
  cutRand : Nat → BitVec 32

variable (env : SportEnv) (pd : NatDesc)

def sportKey (naddr : PfAddr) (port : BitVec 16) : PfStateKeyCmp where
  addr i := addrWords pd.naf (if i = pd.sidx then naddr else pd.ndaddr)
  port i := if i = pd.sidx then port else pd.ndport
  rdomain := pd.rdomain
  af := pd.naf
  proto := pd.proto

def hasState (naddr : PfAddr) (port : BitVec 16) : Bool :=
  env.pfFindStateAll (sportKey pd naddr port)
    (if pd.dir = .inbound then .outbound else .inbound)

def portFree (naddr : PfAddr) (tmp : BitVec 32) : Bool :=
  !hasState env pd naddr (env.order.htons (tmp.setWidth 16)) &&
    !inBaddynamic env.baddynamicports (tmp.setWidth 16) pd.proto

def searchUp (free : BitVec 32 → Bool) (high : BitVec 16) : Nat → BitVec 32 → Option (BitVec 32)
  | 0, _ => none
  | n + 1, tmp =>
    if tmp ≤ high.setWidth 32 ∧ tmp ≤ 0xffff then
      if free tmp then some tmp else searchUp free high n (tmp + 1)
    else none

def searchDown (free : BitVec 32 → Bool) (low : BitVec 16) : Nat → BitVec 32 → Option (BitVec 32)
  | 0, _ => none
  | n + 1, tmp =>
    if low.setWidth 32 ≤ tmp ∧ tmp ≤ 0xffff then
      if free tmp then some tmp else searchDown free low n (tmp - 1)
    else none

def portTurns : Nat := 0x10000 + 1

def sportCut (r : BitVec 32) (low high : BitVec 16) : BitVec 16 :=
  (arc4randomUniform r (1 + high.setWidth 32 - low.setWidth 32) + low.setWidth 32).setWidth 16

def sportSearch (naddr : PfAddr) (r : BitVec 32) (low high : BitVec 16) : Option (BitVec 16) :=
  let cut := sportCut r low high
  match searchUp (portFree env pd naddr) high portTurns (cut.setWidth 32) with
  | some tmp => some (env.order.htons (tmp.setWidth 16))
  | none =>
    match searchDown (portFree env pd naddr) low portTurns (cut.setWidth 32 - 1) with
    | some tmp => some (env.order.htons (tmp.setWidth 16))
    | none => none

def sportTurn (naddr : PfAddr) (r : BitVec 32) (low high : BitVec 16) : Option (BitVec 16) :=
  if ¬(pd.proto = ipprotoTcp ∨ pd.proto = ipprotoUdp ∨ pd.proto = ipprotoIcmp ∨
      pd.proto = ipprotoIcmpv6) then
    if hasState env pd naddr pd.nsport then none else some pd.nsport
  else if low = 0 ∧ high = 0 then
    if hasState env pd naddr pd.nsport then none else some pd.nsport
  else if low = high then
    if hasState env pd naddr (env.order.htons low) then none else some (env.order.htons low)
  else if low > high then sportSearch env pd naddr r high low
  else sportSearch env pd naddr r low high

variable (rpool : PfPool)

def sportMapAddr (i : Nat) (s : MapAddr) : Except MapAddr MapAddr :=
  pfMapAddr env.order pd.naf rpool env.hash pd.nsaddr (env.rand i) s

def cameBack (s : MapAddr) : Bool := s.initAddr.any (pfAeq · s.naddr pd.naf)

abbrev SportResult := Except MapAddr (MapAddr × BitVec 16)

/-- The outer loop from turn `i` on; `none` if it is not over after `n` turns. -/
def sportLoop (low high : BitVec 16) : Nat → Nat → MapAddr → Option SportResult
  | 0, _, _ => none
  | n + 1, i, s =>
    match sportTurn env pd s.naddr (env.cutRand i) low high with
    | some nport => some (.ok (s, nport))
    | none =>
      match rpool.type with
      | .random | .roundrobin | .leaststates =>
        match sportMapAddr env pd rpool (i + 1) s with
        | .error s => some (.error s)
        | .ok s => if cameBack pd s then some (.error s) else sportLoop low high n (i + 1) s
      | .none | .bitmask | .srchash => some (.error s)

def pfGetSport (n : Nat) (naddr : PfAddr) (nport : BitVec 16) (counter : PfAddr)
    (low high : BitVec 16) : Option SportResult :=
  match sportMapAddr env pd rpool 0 ⟨naddr, some ⟨0, 0, 0, 0⟩, counter⟩ with
  | .error s => some (.error s)
  | .ok s =>
    if pd.proto = ipprotoIcmp then
      if pd.ndport = env.order.htons icmpEcho then sportLoop env pd rpool 1 65535 n 0 s
      else some (.ok (s, nport))
    else if pd.proto = ipprotoIcmpv6 then
      if pd.ndport = env.order.htons icmp6EchoRequest then sportLoop env pd rpool 1 65535 n 0 s
      else some (.ok (s, nport))
    else sportLoop env pd rpool low high n 0 s

section Ports

variable {env pd} {free : BitVec 32 → Bool} {low high : BitVec 16} {n : Nat} {t tmp : BitVec 32}

theorem toNat_setWidth_port (port : BitVec 16) : (port.setWidth 32).toNat = port.toNat := by
  rw [toNat_setWidth, mod_eq_of_lt (Nat.lt_trans port.isLt (by decide))]

theorem up_test_iff : tmp ≤ high.setWidth 32 ∧ tmp ≤ 0xffff ↔ tmp.toNat ≤ high.toNat := by
  have hmax : (0xffff : BitVec 32).toNat = 65535 := rfl
  rw [le_def, le_def, toNat_setWidth_port, hmax]
  omega

theorem down_test_iff :
    low.setWidth 32 ≤ tmp ∧ tmp ≤ 0xffff ↔ low.toNat ≤ tmp.toNat ∧ tmp.toNat ≤ 65535 := by
  have hmax : (0xffff : BitVec 32).toNat = 65535 := rfl
  rw [le_def, le_def, toNat_setWidth_port, hmax]

theorem searchUp_succ (free : BitVec 32 → Bool) (high : BitVec 16) (n : Nat) (tmp : BitVec 32) :
    searchUp free high (n + 1) tmp = if tmp.toNat ≤ high.toNat then
        if free tmp then some tmp else searchUp free high n (tmp + 1)
      else none :=
  if_congr up_test_iff rfl rfl

theorem searchDown_succ (free : BitVec 32 → Bool) (low : BitVec 16) (n : Nat) (tmp : BitVec 32) :
    searchDown free low (n + 1) tmp = if low.toNat ≤ tmp.toNat ∧ tmp.toNat ≤ 65535 then
        if free tmp then some tmp else searchDown free low n (tmp - 1)
      else none :=
  if_congr down_test_iff rfl rfl

theorem toNat_up (h : tmp.toNat ≤ high.toNat) : (tmp + 1).toNat = tmp.toNat + 1 := by
  have hone : (1 : BitVec 32).toNat = 1 := rfl
  rw [toNat_add, hone]
  omega

theorem toNat_down (tmp : BitVec 32) :
    (tmp - 1).toNat = if tmp.toNat = 0 then 2 ^ 32 - 1 else tmp.toNat - 1 := by
  have hone : (1 : BitVec 32).toNat = 1 := rfl
  rw [toNat_sub, hone]
  split <;> omega

theorem searchUp_some (h : searchUp free high n tmp = some t) :
    free t = true ∧ tmp.toNat ≤ t.toNat ∧ t.toNat ≤ high.toNat := by
  induction n generalizing tmp with
  | zero => exact absurd h nofun
  | succ n ih =>
    rw [searchUp_succ] at h
    split at h
    next hle =>
      split at h
      next hfree => exact some.inj h ▸ ⟨hfree, le_rfl, hle⟩
      next =>
        obtain ⟨hfree, hlo, hhi⟩ := ih h
        rw [toNat_up hle] at hlo
        exact ⟨hfree, le_of_succ_le hlo, hhi⟩
    next => exact absurd h nofun

theorem searchUp_none (hn : high.toNat < tmp.toNat + n) (h : searchUp free high n tmp = none)
    (hlo : tmp.toNat ≤ t.toNat) (hhi : t.toNat ≤ high.toNat) : free t = false := by
  induction n generalizing tmp with
  | zero => omega
  | succ n ih =>
    rw [searchUp_succ, if_pos (Nat.le_trans hlo hhi)] at h
    split at h
    next => exact absurd h nofun
    next hfree =>
      rcases Nat.eq_or_lt_of_le hlo with heq | hlt
      · rw [← eq_of_toNat_eq heq]
        exact eq_false_iff.mpr hfree
      · have hnext := toNat_up (Nat.le_trans hlo hhi)
        exact ih (by omega) h (by omega)

theorem searchDown_some (h : searchDown free low n tmp = some t) :
    free t = true ∧ low.toNat ≤ t.toNat ∧ t.toNat ≤ tmp.toNat ∧ tmp.toNat ≤ 65535 := by
  induction n generalizing tmp with
  | zero => exact absurd h nofun
  | succ n ih =>
    rw [searchDown_succ] at h
    split at h
    next htest =>
      split at h
      next hfree => exact some.inj h ▸ ⟨hfree, htest.1, le_rfl, htest.2⟩
      next =>
        obtain ⟨hfree, hlo, hhi, hmax⟩ := ih h
        rw [toNat_down] at hhi hmax
        split at hmax
        · exact absurd hmax (by decide)
        · next hne =>
          rw [if_neg hne] at hhi
          exact ⟨hfree, hlo, by omega, htest.2⟩
    next => exact absurd h nofun

theorem searchDown_none (hn : tmp.toNat < low.toNat + n) (hmax : tmp.toNat ≤ 65535)
    (h : searchDown free low n tmp = none) (hlo : low.toNat ≤ t.toNat)
    (hhi : t.toNat ≤ tmp.toNat) : free t = false := by
  induction n generalizing tmp with
  | zero => omega
  | succ n ih =>
    rw [searchDown_succ, if_pos ⟨Nat.le_trans hlo hhi, hmax⟩] at h
    split at h
    next => exact absurd h nofun
    next hfree =>
      rcases Nat.eq_or_lt_of_le hhi with heq | hlt
      · rw [eq_of_toNat_eq heq]
        exact eq_false_iff.mpr hfree
      · have hnext : (tmp - 1).toNat = tmp.toNat - 1 := by
          rw [toNat_down, if_neg (by omega)]
        exact ih (by omega) (by omega) h (by omega)

theorem arc4randomUniform_lt (r : BitVec 32) {upperBound : BitVec 32} (h : 0 < upperBound.toNat) :
    (arc4randomUniform r upperBound).toNat < upperBound.toNat := by
  rw [arc4randomUniform]
  split
  next => exact h
  next =>
    rw [toNat_umod]
    exact mod_lt _ h

theorem sportCut_bounds (r : BitVec 32) (h : low < high) :
    low.toNat ≤ (sportCut r low high).toNat ∧ (sportCut r low high).toNat ≤ high.toNat := by
  have hlh : low.toNat < high.toNat := h
  have hone : (1 : BitVec 32).toNat = 1 := rfl
  have hupper : (1 + high.setWidth 32 - low.setWidth 32 : BitVec 32).toNat =
      high.toNat - low.toNat + 1 := by
    rw [toNat_sub, toNat_add, hone, toNat_setWidth_port, toNat_setWidth_port]
    omega
  have hrand := arc4randomUniform_lt r (by omega : 0 < (1 + high.setWidth 32 -
    low.setWidth 32 : BitVec 32).toNat)
  rw [hupper] at hrand
  rw [sportCut, toNat_setWidth, toNat_add, toNat_setWidth_port]
  omega

variable (env pd) in
structure FreePort (low high : BitVec 16) (naddr : PfAddr) (port : BitVec 16) : Prop where
  low_le : low ≤ port
  le_high : port ≤ high
  permitted : inBaddynamic env.baddynamicports port pd.proto = false
  noState : hasState env pd naddr (env.order.htons port) = false

theorem portFree_iff {port : BitVec 16} (hlo : low ≤ port) (hhi : port ≤ high) :
    portFree env pd naddr (port.setWidth 32) = true ↔ FreePort env pd low high naddr port := by
  rw [portFree, setWidth_setWidth_of_le _ (by decide), setWidth_eq, and_eq_true,
    not_eq_true', not_eq_true']
  exact ⟨fun h => ⟨hlo, hhi, h.2, h.1⟩, fun h => ⟨h.noState, h.permitted⟩⟩

theorem setWidth_of_le (h : t.toNat ≤ high.toNat) : (t.setWidth 16).setWidth 32 = t := by
  have hlt := high.isLt
  refine eq_of_toNat_eq ?_
  rw [toNat_setWidth_port, toNat_setWidth, mod_eq_of_lt (Nat.lt_of_le_of_lt h hlt)]

theorem freePort_of_portFree (hfree : portFree env pd naddr t = true)
    (hlo : low.toNat ≤ t.toNat) (hhi : t.toNat ≤ high.toNat) :
    FreePort env pd low high naddr (t.setWidth 16) := by
  have hport := setWidth_of_le hhi
  have htoNat : (t.setWidth 16).toNat = t.toNat := by rw [← toNat_setWidth_port, hport]
  refine (portFree_iff ?_ ?_).mp (hport.symm ▸ hfree)
  · rwa [le_def, htoNat]
  · rwa [le_def, htoNat]

theorem sportSearch_some {nport : BitVec 16} (h : low < high)
    (hport : sportSearch env pd naddr r low high = some nport) :
    ∃ port, nport = env.order.htons port ∧ FreePort env pd low high naddr port := by
  obtain ⟨hlo, hhi⟩ := sportCut_bounds r h
  have hcut := toNat_setWidth_port (sportCut r low high)
  rw [sportSearch] at hport
  split at hport
  next t hup =>
    obtain ⟨hfree, hge, hle⟩ := searchUp_some hup
    exact ⟨_, (some.inj hport).symm, freePort_of_portFree hfree (by omega) hle⟩
  next =>
    split at hport
    next t hdown =>
      obtain ⟨hfree, hge, hle, hmax⟩ := searchDown_some hdown
      have hbelow : t.toNat ≤ (sportCut r low high).toNat := by
        rw [toNat_down, hcut] at hle hmax
        split at hmax
        · exact absurd hmax (by decide)
        · next hne =>
          rw [if_neg hne] at hle
          omega
      exact ⟨_, (some.inj hport).symm, freePort_of_portFree hfree hge (Nat.le_trans hbelow hhi)⟩
    next => exact absurd hport nofun

theorem sportSearch_none (h : low < high)
    (hport : sportSearch env pd naddr r low high = none) (port : BitVec 16) :
    ¬FreePort env pd low high naddr port := by
  intro hfree
  have hlo : low.toNat ≤ port.toNat := hfree.low_le
  have hhi : port.toNat ≤ high.toNat := hfree.le_high
  have htrue := (portFree_iff hfree.low_le hfree.le_high).mpr hfree
  obtain ⟨hcutlo, hcuthi⟩ := sportCut_bounds r h
  have hcut := toNat_setWidth_port (sportCut r low high)
  rw [← toNat_setWidth_port port] at hlo hhi
  rw [sportSearch] at hport
  split at hport
  next => exact absurd hport nofun
  next hup =>
    split at hport
    next => exact absurd hport nofun
    next hdown =>
      rcases Nat.lt_or_ge (port.setWidth 32).toNat (sportCut r low high).toNat with hbelow | hge
      · have hnext := toNat_down ((sportCut r low high).setWidth 32)
        rw [hcut, if_neg (by omega)] at hnext
        have hno := searchDown_none (by rw [hnext, portTurns]; omega) (by omega) hdown hlo
          (by omega)
        exact Bool.false_ne_true (hno.symm.trans htrue)
      · have hno := searchUp_none (by rw [portTurns]; omega) hup (by omega) hhi
        exact Bool.false_ne_true (hno.symm.trans htrue)

end Ports

end Mbsd.Net.PfLb
