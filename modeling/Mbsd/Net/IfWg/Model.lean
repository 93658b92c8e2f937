import Mbsd.Lib.Tailq
import Mbsd.Net.Art.Runs

/-! The allowed IPs of `net/if_wg.c`: each is a node of one of two routing tables and an element of
the list of its peer.  `none` as the outcome of a function is a failed assertion, a panic, or a
null pointer that is followed. -/

namespace Mbsd.Net.IfWg

open Lib Sys Allotment

variable {κ' : List Bool} {art' : Art}

abbrev AF_INET : BitVec 8 := 2#8
abbrev AF_INET6 : BitVec 8 := 24#8

structure WgAipIo where
  aAf : BitVec 8
  aCidr : BitVec 32
  aAddr : List UInt8
  length_eq : aAddr.length = 16

/-- An allowed IP without its node, which is in the routing table. -/
structure WgAip (ι : Type) where
  aPeer : ι
  aData : WgAipIo

inductive Family
  | inet | inet6
  deriving DecidableEq

def Family.alen : Family → Nat
  | .inet => 32
  | .inet6 => 128

def family (af : BitVec 8) : Option Family :=
  if af = AF_INET then some .inet else if af = AF_INET6 then some .inet6 else none

/-- The state of an interface.  An allowed IP is named by the address of its node; `aips` has those
that are taken from `wg_aip_pool`. -/
structure WgSoftc (ι : Type) where
  scAip : Family → Art
  scAipNum : Nat
  scPeerSeq : List ι
  pAip : ι → List Nat
  aips : Nat → Option (WgAip ι)

def artNodeInit (an : Nat) (addr : List UInt8) (plen : Nat) : Option ArtNode := do
  let len := (plen + 7) / 8 * 8 / 8
  kassert (len ≤ 16)
  some ⟨an, addr.take len ++ List.replicate (16 - len) 0, plen⟩

namespace WgSoftc

variable {ι : Type} [DecidableEq ι] (sc : WgSoftc ι)

def wgAipAdd (peer : ι) (d : WgAipIo) (item : Option Nat) : Option (Option Errno × WgSoftc ι) :=
  match family d.aAf with
  | none => some (some .EAFNOSUPPORT, sc)
  | some af =>
    -- a negative `a_cidr` is compared as an `unsigned int`
    if (sc.scAip af).artAlen < d.aCidr.toNat then some (some .EINVAL, sc)
    else
      match item with
      | none => some (some .ENOBUFS, sc)
      | some aip => do
        let aNode ← artNodeInit aip d.aAddr d.aCidr.toNat
        let (node, root) ← artInsert (sc.scAip af) aNode
        -- no node is not the new one either, and its `a_peer` is read
        let node ← node
        let sc := { sc with scAip := Function.update sc.scAip af root }
        if node.an = aip then
          some (none, { sc with
            aips := Function.update sc.aips aip (some ⟨peer, d⟩)
            pAip := Circq.insertHead sc.pAip peer aip
            scAipNum := sc.scAipNum + 1 })
        else
          let aip ← sc.aips node.an
          if aip.aPeer ≠ peer then
            some (none, { sc with
              pAip := Circq.insertHead (Circq.remove sc.pAip node.an) peer node.an
              aips := Function.update sc.aips node.an (some { aip with aPeer := peer }) })
          else some (none, sc)

def wgAipLookup (af : Family) (addr : List UInt8) : Option (Option ι) := do
  match ← artMatch (sc.scAip af) addr with
  | none => some none
  | some node => (sc.aips node.an).map fun aip => some aip.aPeer

def wgAipRemove (peer : ι) (d : WgAipIo) : Option (Option Errno × WgSoftc ι) :=
  match family d.aAf with
  | none => some (some .EAFNOSUPPORT, sc)
  | some af => do
    match ← artLookup (sc.scAip af) d.aAddr d.aCidr.toNat with
    | none => some (some .ENOENT, sc)
    | some node =>
      let aip ← sc.aips node.an
      if aip.aPeer ≠ peer then some (some .EXDEV, sc)
      else
        let (deleted, root) ← artDelete (sc.scAip af) d.aAddr d.aCidr.toNat
        kassert (deleted ≠ none)
        some (none, { sc with
          scAip := Function.update sc.scAip af root
          scAipNum := sc.scAipNum - 1
          pAip := Circq.remove sc.pAip node.an
          aips := Function.update sc.aips node.an none })

def wgPeerCreate (peer : ι) : WgSoftc ι :=
  { sc with
    pAip := Function.update sc.pAip peer []
    scPeerSeq := sc.scPeerSeq ++ [peer] }

/-- The loop over the list of a peer, which removes what it is at. -/
def removeAips (peer : ι) : Nat → WgSoftc ι → Option Nat → Option (WgSoftc ι)
  | _, sc, none => some sc
  | 0, _, some _ => none
  | turns + 1, sc, some aip => do
    let taip := Tailq.next aip (sc.pAip peer)
    let data ← sc.aips aip
    let (_, sc) ← sc.wgAipRemove peer data.aData
    removeAips peer turns sc taip

def wgPeerDestroy (peer : ι) : Option (WgSoftc ι) :=
  removeAips peer (sc.pAip peer).length { sc with scPeerSeq := sc.scPeerSeq.erase peer }
    (sc.pAip peer).head?

end WgSoftc

/-! Every route of the two tables is an allowed IP of one peer. -/

open List Function

variable {ι : Type} {pools : Family → Ptr → Bool} {R : Family → Routes} {peers : List ι}
  {sc sc' : WgSoftc ι} {peer : ι} {d : WgAipIo} {af : Family} {κ : List Bool} {node : ArtNode}
  {an plen : Nat} {addr : List UInt8}

structure WgAipIo.For (d : WgAipIo) (af : Family) (κ : List Bool) : Prop where
  family : IfWg.family d.aAf = some af
  cidr : d.aCidr.toNat ≤ af.alen
  bits : bitsOf d.aAddr d.aCidr.toNat = κ

theorem WgAipIo.For.unique {af' : Family} (h : d.For af κ) (h' : d.For af' κ') :
    af = af' ∧ κ = κ' :=
  ⟨Option.some.inj (h.family.symm.trans h'.family), h.bits.symm.trans h'.bits⟩

theorem Family.alen_le (af : Family) : af.alen ≤ 128 := by
  cases af <;> decide

theorem artNodeInit_bits (an : Nat) (addr : List UInt8) (hle : plen ≤ 128) :
    ∃ node, artNodeInit an addr plen = some node ∧ node.an = an ∧ node.anPlen = plen ∧
      node.bits = bitsOf addr plen := by
  have hlen : (plen + 7) / 8 * 8 / 8 ≤ 16 := by omega
  refine ⟨_, by rw [artNodeInit, kassert_true hlen]; rfl, rfl, rfl, ?_⟩
  refine bitsOf_eq_iff.mpr fun i hi => ?_
  have hin : i / 8 < (plen + 7) / 8 * 8 / 8 := by
    dsimp only at hi
    omega
  rw [bitAt, bitAt, getD_eq_getElem?_getD, getD_eq_getElem?_getD]
  rcases Nat.lt_or_ge (i / 8) addr.length with hlt | hge
  · rw [getElem?_append_left (by rw [length_take]; omega), getElem?_take_of_lt hin]
  · rw [getElem?_eq_none hge, getElem?_append_right (by rw [length_take]; omega)]
    rw [getElem?_replicate]
    split <;> rfl

def setRoute (R : Family → Routes) (af : Family) (κ : List Bool) (v : Option ArtNode) :
    Family → Routes :=
  Function.update R af (Function.update (R af) κ v)

theorem setRoute_apply (v : Option ArtNode) (af' : Family) (κ' : List Bool) :
    setRoute R af κ v af' κ' = if af' = af ∧ κ' = κ then v else R af' κ' := by
  rw [setRoute]
  by_cases haf : af' = af
  · subst haf
    rw [update_self, update_apply]
    simp
  · rw [update_of_ne haf, if_neg fun hsame => haf hsame.1]

/-- The routes of the tables, one for each element of the lists of `peers`. -/
structure Inv (pools : Family → Ptr → Bool) (R : Family → Routes) (peers : List ι)
    (sc : WgSoftc ι) : Prop where
  good : ∀ af, Good (pools af) af.alen (sc.scAip af) (R af)
  nodup : peers.Nodup
  exclusive : Circq.Exclusive sc.pAip
  route : ∀ {af κ node}, R af κ = some node →
    ∃ aip, sc.aips node.an = some aip ∧ aip.aData.For af κ ∧ node.an ∈ sc.pAip aip.aPeer
  member : ∀ {peer an}, an ∈ sc.pAip peer → peer ∈ peers ∧
    ∃ aip af node, sc.aips an = some aip ∧ aip.aPeer = peer ∧ R af node.bits = some node ∧
      node.an = an
  num : sc.scAipNum = Circq.total peers sc.pAip

namespace Inv

variable (h : Inv pools R peers sc)

include h

theorem keyed (hR : R af κ = some node) : node.bits = κ := by
  obtain ⟨tab, hs⟩ := (h.good af).sound
  exact hs.values.keyed κ node hR

theorem route_unique {af' : Family} {node' : ArtNode} (hR : R af κ = some node)
    (hR' : R af' κ' = some node') (han : node'.an = node.an) : af' = af ∧ κ' = κ := by
  obtain ⟨aip, haip, hfor, -⟩ := h.route hR
  obtain ⟨aip', haip', hfor', -⟩ := h.route hR'
  rw [han, haip] at haip'
  cases haip'
  exact hfor'.unique hfor

theorem good_setRoute {v : Option ArtNode}
    (hgood : Good (pools af) af.alen art' (update (R af) κ v)) (af' : Family) :
    Good (pools af') af'.alen (update sc.scAip af art' af') (setRoute R af κ v af') := by
  rw [setRoute]
  by_cases haf : af' = af
  · subst haf
    rwa [update_self, update_self]
  · rw [update_of_ne haf, update_of_ne haf]
    exact h.good af'

variable [DecidableEq ι]

theorem move {aip : WgAip ι} (hR : R af κ = some node) (haip : sc.aips node.an = some aip)
    (hpeer : peer ∈ peers) : Inv pools R peers { sc with
      pAip := Circq.insertHead (Circq.remove sc.pAip node.an) peer node.an
      aips := update sc.aips node.an (some { aip with aPeer := peer }) } := by
  obtain ⟨aip', haip', hfor, hmem⟩ := h.route hR
  rw [haip] at haip'
  cases haip'
  have hnot : ∀ j, node.an ∉ Circq.remove sc.pAip node.an j := fun j hj =>
    (Circq.mem_remove.mp hj).2 rfl
  refine ⟨h.good, h.nodup, h.exclusive.remove.insertHead hnot, fun {af' κ' node'} hR' => ?_,
    fun {p an} hp => ?_, ?_⟩
  · by_cases han : node'.an = node.an
    · obtain ⟨rfl, rfl⟩ := h.route_unique hR hR' han
      refine ⟨{ aip with aPeer := peer }, ?_, hfor, ?_⟩
      · dsimp only
        rw [han, update_self]
      · exact Circq.mem_insertHead.mpr (.inr ⟨rfl, han⟩)
    · obtain ⟨aip', haip', hfor', hmem'⟩ := h.route hR'
      refine ⟨aip', ?_, hfor', ?_⟩
      · rw [← haip']
        exact update_of_ne han ..
      · exact Circq.mem_insertHead.mpr (.inl (Circq.mem_remove.mpr ⟨hmem', han⟩))
  · rcases Circq.mem_insertHead.mp hp with hp | ⟨rfl, rfl⟩
    · obtain ⟨hp, hne⟩ := Circq.mem_remove.mp hp
      obtain ⟨hin, aip', af', node', haip', hrest⟩ := h.member hp
      refine ⟨hin, aip', af', node', ?_, hrest⟩
      rw [← haip']
      exact update_of_ne hne ..
    · refine ⟨hpeer, _, af, node, update_self .., rfl, ?_, rfl⟩
      rwa [h.keyed hR]
  · have hin := (h.member hmem).1
    have hremove := h.exclusive.total_remove h.nodup hin hmem
    rw [Circq.total_insertHead h.nodup hpeer, h.num, hremove]

theorem add (hR : R af node.bits = none) (hnew : sc.aips node.an = none)
    (hfor : d.For af node.bits) (hpeer : peer ∈ peers)
    (hgood : Good (pools af) af.alen art' (update (R af) node.bits (some node))) :
    Inv pools (setRoute R af node.bits (some node)) peers { sc with
      scAip := update sc.scAip af art'
      aips := update sc.aips node.an (some ⟨peer, d⟩)
      pAip := Circq.insertHead sc.pAip peer node.an
      scAipNum := sc.scAipNum + 1 } := by
  have hnot : ∀ j, node.an ∉ sc.pAip j := fun j hj => by
    obtain ⟨-, aip, -, -, haip, -⟩ := h.member hj
    rw [hnew] at haip
    cases haip
  refine ⟨h.good_setRoute hgood, h.nodup, h.exclusive.insertHead hnot,
    fun {af' κ' node'} hR' => ?_, fun {p an} hp => ?_, ?_⟩
  · rw [setRoute_apply] at hR'
    split at hR'
    next hsame =>
      obtain ⟨rfl, rfl⟩ := hsame
      cases hR'
      exact ⟨⟨peer, d⟩, update_self .., hfor, Circq.mem_insertHead.mpr (.inr ⟨rfl, rfl⟩)⟩
    next hother =>
      obtain ⟨aip, haip, hfor', hmem⟩ := h.route hR'
      have hne : node'.an ≠ node.an := fun heq => by
        rw [heq, hnew] at haip
        cases haip
      exact ⟨aip, (update_of_ne hne ..).trans haip, hfor', Circq.mem_insertHead.mpr (.inl hmem)⟩
  · rcases Circq.mem_insertHead.mp hp with hp | ⟨rfl, rfl⟩
    · obtain ⟨hin, aip, af', node', haip, hpeer', hR', han⟩ := h.member hp
      have hne : an ≠ node.an := fun heq => hnot p (heq ▸ hp)
      refine ⟨hin, aip, af', node', (update_of_ne hne ..).trans haip, hpeer', ?_, han⟩
      rwa [setRoute_apply, if_neg]
      rintro ⟨rfl, hκ⟩
      rw [hκ, hR] at hR'
      cases hR'
    · refine ⟨hpeer, _, af, node, update_self .., rfl, ?_, rfl⟩
      rw [setRoute_apply, if_pos ⟨rfl, rfl⟩]
  · dsimp only
    rw [Circq.total_insertHead h.nodup hpeer, h.num]

theorem remove (hR : R af κ = some node)
    (hgood : Good (pools af) af.alen art' (update (R af) κ none)) :
    Inv pools (setRoute R af κ none) peers { sc with
      scAip := update sc.scAip af art'
      scAipNum := sc.scAipNum - 1
      pAip := Circq.remove sc.pAip node.an
      aips := update sc.aips node.an none } := by
  refine ⟨h.good_setRoute hgood, h.nodup, h.exclusive.remove, fun {af' κ' node'} hR' => ?_,
    fun {p an} hp => ?_, ?_⟩
  · rw [setRoute_apply] at hR'
    split at hR'
    next => cases hR'
    next hother =>
      have hne : node'.an ≠ node.an := fun heq => hother (h.route_unique hR hR' heq)
      obtain ⟨aip, haip, hfor, hmem⟩ := h.route hR'
      exact ⟨aip, (update_of_ne hne ..).trans haip, hfor, Circq.mem_remove.mpr ⟨hmem, hne⟩⟩
  · obtain ⟨hp, hne⟩ := Circq.mem_remove.mp hp
    obtain ⟨hin, aip, af', node', haip, hpeer, hR', rfl⟩ := h.member hp
    refine ⟨hin, aip, af', node', (update_of_ne hne ..).trans haip, hpeer, ?_, rfl⟩
    rwa [setRoute_apply, if_neg]
    rintro ⟨rfl, hκ⟩
    rw [hκ, hR] at hR'
    cases hR'
    exact hne rfl
  · obtain ⟨aip, -, -, hmem⟩ := h.route hR
    have hremove := h.exclusive.total_remove h.nodup (h.member hmem).1 hmem
    dsimp only
    rw [h.num]
    omega

theorem erase (hnil : sc.pAip peer = []) : Inv pools R (peers.erase peer) sc := by
  refine ⟨h.good, h.nodup.erase peer, h.exclusive, h.route, fun {p an} hp => ?_, ?_⟩
  · obtain ⟨hin, hrest⟩ := h.member hp
    refine ⟨(mem_erase_of_ne ?_).mpr hin, hrest⟩
    rintro rfl
    rw [hnil] at hp
    cases hp
  · rw [h.num, Circq.total_erase hnil]

end Inv

end Mbsd.Net.IfWg
