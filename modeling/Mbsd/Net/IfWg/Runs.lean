import Mbsd.Net.IfWg.Model

/-! What holds of the allowed IPs after any calls, if every insertion has the memory for its
tables. -/

namespace Mbsd.Net.IfWg

open Lib Lib.LongestPrefix Sys Allotment List Option Function WgSoftc

variable {ι : Type} [DecidableEq ι] {pools : Family → Ptr → Bool} {R : Family → Routes}
  {peers : List ι} {sc sc' : WgSoftc ι} {peer : ι} {d : WgAipIo} {af : Family} {item : Option Nat}
  {ret : Option Errno}

def HasTables (art : Art) (an : ArtNode) : Prop :=
  ∀ k < missing art an, art.pool (art.next + k) = true

def WgSoftc.HasTables (sc : WgSoftc ι) (d : WgAipIo) (item : Option Nat) : Prop :=
  ∀ af aip node, family d.aAf = some af → d.aCidr.toNat ≤ (sc.scAip af).artAlen →
    item = some aip → artNodeInit aip d.aAddr d.aCidr.toNat = some node →
    IfWg.HasTables (sc.scAip af) node

theorem artInsert_hasTables {pool : Ptr → Bool} {alen : Nat} {art : Art} {R : Routes}
    {an : ArtNode} (h : Good pool alen art R) (hle : an.anPlen ≤ alen) (hmem : HasTables art an) :
    ∃ node art', artInsert art an = some (some node, art') ∧ (R an.bits = some node ∧ art' = art ∨
        R an.bits = none ∧ node = an ∧ Good pool alen art' (update R an.bits (some an))) := by
  obtain ⟨tab, hs⟩ := h.sound
  obtain ⟨r, art', hrun, hins⟩ := artInsert_held (sound_none_iff.mp hs) (fun _ _ => rfl) h.levels
    (h.alen ▸ hle)
  cases hins with
  | @present oan hR => exact ⟨oan, art, hrun, .inl ⟨hR, rfl⟩⟩
  | added hR sound extended =>
    exact ⟨an, art', hrun, .inr ⟨hR, rfl, h.kept extended.kept ⟨_, sound_none_iff.mpr sound⟩⟩⟩
  | refused hR sound extended refused =>
    obtain ⟨k, hk, hpool, -⟩ := refused
    rw [hmem k hk] at hpool
    cases hpool

theorem Inv.wgAipAdd (h : Inv pools R sc.scPeerSeq sc) (hpeer : peer ∈ sc.scPeerSeq)
    (hitem : ∀ aip, item = some aip → sc.aips aip = none) (hmem : sc.HasTables d item) :
    ∃ ret sc', sc.wgAipAdd peer d item = some (ret, sc') ∧
      (∃ R', Inv pools R' sc'.scPeerSeq sc') ∧ (ret ≠ none → sc' = sc) := by
  rw [WgSoftc.wgAipAdd]
  cases hfam : family d.aAf with
  | none => exact ⟨_, _, rfl, ⟨R, h⟩, fun _ => rfl⟩
  | some af =>
    have halen := (h.good af).alen
    dsimp only
    split
    next => exact ⟨_, _, rfl, ⟨R, h⟩, fun _ => rfl⟩
    next hcidr =>
      have hle : d.aCidr.toNat ≤ af.alen := halen ▸ Nat.le_of_not_lt hcidr
      cases hit : item with
      | none => exact ⟨_, _, rfl, ⟨R, h⟩, fun _ => rfl⟩
      | some aip =>
        obtain ⟨an, hinit, rfl, hplen, hbits⟩ := artNodeInit_bits aip d.aAddr
          (hle.trans af.alen_le)
        have hnew := hitem _ hit
        obtain ⟨node, root, hins, hcases⟩ := artInsert_hasTables (h.good af) (hplen ▸ hle)
          (hmem af _ an hfam (Nat.le_of_not_lt hcidr) hit hinit)
        simp only [hinit, hins, bind_eq_bind, bind_some]
        rcases hcases with ⟨hR, rfl⟩ | ⟨hR, rfl, hgood⟩
        · -- the prefix is there
          obtain ⟨aip, haip, hfor, -⟩ := h.route hR
          have hne : node.an ≠ an.an := fun heq => by
            rw [heq, hnew] at haip
            cases haip
          rw [if_neg hne, update_eq_self, haip, bind_some]
          split
          next hmove => exact ⟨_, _, rfl, ⟨R, h.move hR haip hpeer⟩, fun hret => absurd rfl hret⟩
          next => exact ⟨_, _, rfl, ⟨R, h⟩, fun _ => rfl⟩
        · rw [if_pos rfl]
          exact ⟨_, _, rfl, ⟨_, h.add hR hnew ⟨hfam, hle, hbits.symm⟩ hpeer hgood⟩,
            fun hret => absurd rfl hret⟩

theorem Inv.wgAipRemove_route {κ : List Bool} {node : ArtNode} {aip : WgAip ι}
    (h : Inv pools R peers sc) (hfor : d.For af κ) (hR : R af κ = some node)
    (haip : sc.aips node.an = some aip) (hpeer : aip.aPeer = peer) :
    ∃ root, Good (pools af) af.alen root (update (R af) κ none) ∧
      sc.wgAipRemove peer d = some (none, { sc with
        scAip := update sc.scAip af root
        scAipNum := sc.scAipNum - 1
        pAip := Circq.remove sc.pAip node.an
        aips := update sc.aips node.an none }) := by
  obtain ⟨hfam, hle, rfl⟩ := hfor
  obtain ⟨root, hdelete, hgood⟩ := (h.good af).delete hle hR
  refine ⟨root, hgood, ?_⟩
  rw [wgAipRemove, hfam]
  simp only [(h.good af).lookup hle, hR, haip, hdelete, bind_eq_bind, bind_some]
  rw [if_neg (not_not_intro hpeer)]
  rfl

theorem Inv.wgAipRemove (h : Inv pools R peers sc)
    (hrun : sc.wgAipRemove peer d = some (ret, sc')) :
    (∃ R', Inv pools R' peers sc') ∧ sc'.scPeerSeq = sc.scPeerSeq := by
  cases hfam : family d.aAf with
  | none =>
    rw [WgSoftc.wgAipRemove, hfam] at hrun
    cases hrun
    exact ⟨⟨R, h⟩, rfl⟩
  | some af =>
    rcases Nat.lt_or_ge af.alen d.aCidr.toNat with hgt | hle
    · have hfail : artLookup (sc.scAip af) d.aAddr d.aCidr.toNat = none := by
        rw [artLookup, kassert, (h.good af).alen, if_neg (Nat.not_le_of_lt hgt)]
        rfl
      rw [WgSoftc.wgAipRemove, hfam] at hrun
      simp only [hfail, bind_eq_bind, bind_none] at hrun
      cases hrun
    · have hlookup : artLookup (sc.scAip af) d.aAddr d.aCidr.toNat = _ := (h.good af).lookup hle
      cases hR : R af (bitsOf d.aAddr d.aCidr.toNat) with
      | none =>
        rw [WgSoftc.wgAipRemove, hfam] at hrun
        simp only [hlookup, hR, bind_eq_bind, bind_some] at hrun
        cases hrun
        exact ⟨⟨R, h⟩, rfl⟩
      | some node =>
        obtain ⟨aip, haip, -⟩ := h.route hR
        by_cases hpeer : aip.aPeer = peer
        · obtain ⟨root, hgood, hremove⟩ := h.wgAipRemove_route ⟨hfam, hle, rfl⟩ hR haip hpeer
          rw [hremove] at hrun
          cases hrun
          exact ⟨⟨_, h.remove hR hgood⟩, rfl⟩
        · rw [WgSoftc.wgAipRemove, hfam] at hrun
          simp only [hlookup, hR, haip, bind_eq_bind, bind_some, if_pos hpeer] at hrun
          cases hrun
          exact ⟨⟨R, h⟩, rfl⟩

theorem Inv.removeAips (peer : ι) {turns : Nat} {l : List Nat} (h : Inv pools R peers sc)
    (hl : sc.pAip peer = l) (hturns : l.length ≤ turns) :
    ∃ sc', removeAips peer turns sc l.head? = some sc' ∧
      (∃ R', Inv pools R' peers sc') ∧ sc'.scPeerSeq = sc.scPeerSeq ∧ sc'.pAip peer = [] := by
  induction l generalizing sc turns R with
  | nil => exact ⟨sc, by rw [head?_nil, removeAips], ⟨R, h⟩, rfl, hl⟩
  | cons an l ih =>
    obtain ⟨turns, rfl⟩ := Nat.exists_eq_add_of_le' (Nat.le_trans (Nat.le_add_left 1 _) hturns)
    have hmem : an ∈ sc.pAip peer := hl ▸ mem_cons_self
    obtain ⟨hin, aip, af, node, haip, hpeer, hR, rfl⟩ := h.member hmem
    obtain ⟨aip', haip', hfor, -⟩ := h.route hR
    rw [haip] at haip'
    cases haip'
    obtain ⟨root, hgood, hremove⟩ := h.wgAipRemove_route hfor hR haip hpeer
    have hnodup := h.exclusive.nodup peer
    rw [hl, nodup_cons] at hnodup
    have hrest : Circq.remove sc.pAip node.an peer = l := by
      rw [h.exclusive.remove_eq hmem, update_self, hl, erase_cons_head]
    have hnext : Tailq.next node.an (sc.pAip peer) = l.head? := by
      rw [hl]
      exact Tailq.next_append (P := []) not_mem_nil
    obtain ⟨sc', hloop, hinv, hseq, hnil⟩ := ih (h.remove hR hgood) hrest
      (Nat.le_of_succ_le_succ hturns)
    refine ⟨sc', ?_, hinv, hseq, hnil⟩
    rw [head?_cons, removeAips]
    simp only [haip, hremove, hnext, bind_eq_bind, bind_some]
    exact hloop

theorem Inv.wgPeerDestroy (h : Inv pools R sc.scPeerSeq sc) (peer : ι) :
    ∃ sc', sc.wgPeerDestroy peer = some sc' ∧ (∃ R', Inv pools R' sc'.scPeerSeq sc') ∧
      sc'.scPeerSeq = sc.scPeerSeq.erase peer ∧ sc'.pAip peer = [] := by
  have h' : Inv pools R sc.scPeerSeq { sc with scPeerSeq := sc.scPeerSeq.erase peer } :=
    ⟨h.good, h.nodup, h.exclusive, h.route, h.member, h.num⟩
  obtain ⟨sc', hloop, ⟨R', hinv⟩, hseq, hnil⟩ := h'.removeAips peer rfl (Nat.le_refl _)
  refine ⟨sc', hloop, ⟨R', ?_⟩, hseq, hnil⟩
  rw [hseq]
  exact hinv.erase hnil

theorem Inv.wgPeerCreate (h : Inv pools R sc.scPeerSeq sc) (hpeer : peer ∉ sc.scPeerSeq) :
    Inv pools R (sc.wgPeerCreate peer).scPeerSeq (sc.wgPeerCreate peer) := by
  have hnil : sc.pAip peer = [] :=
    eq_nil_iff_forall_not_mem.mpr fun an han => hpeer (h.member han).1
  have hsame : update sc.pAip peer [] = sc.pAip := by
    rw [← hnil, update_eq_self]
  rw [WgSoftc.wgPeerCreate, hsame]
  refine ⟨h.good, ?_, h.exclusive, h.route, fun {p an} hp => ?_, ?_⟩
  · exact nodup_append.mpr ⟨h.nodup, nodup_singleton peer, fun p hp q hq => by
      rintro rfl
      exact hpeer (mem_singleton.mp hq ▸ hp)⟩
  · obtain ⟨hin, hrest⟩ := h.member hp
    exact ⟨mem_append_left _ hin, hrest⟩
  · dsimp only
    rw [h.num, Circq.total, Circq.total, flatMap_append, flatMap_singleton, hnil, append_nil]

/-- The states of an interface.  `wg_aip_add` and `wg_aip_remove` are called for a peer that there
is, and what `pool_get` returns is not in use. -/
inductive Reach (pools : Family → Ptr → Bool) : WgSoftc ι → Prop
  | init {arts : Family → Art} : (∀ af, artInit (pools af) af.alen = some (arts af)) →
    Reach pools ⟨arts, 0, [], fun _ => [], fun _ => none⟩
  | create {sc : WgSoftc ι} {peer : ι} : Reach pools sc → peer ∉ sc.scPeerSeq →
    Reach pools (sc.wgPeerCreate peer)
  | add {sc sc' : WgSoftc ι} {peer : ι} {d : WgAipIo} {item : Option Nat} {ret : Option Errno} :
    Reach pools sc → peer ∈ sc.scPeerSeq → (∀ aip, item = some aip → sc.aips aip = none) →
    sc.HasTables d item → sc.wgAipAdd peer d item = some (ret, sc') → Reach pools sc'
  | remove {sc sc' : WgSoftc ι} {peer : ι} {d : WgAipIo} {ret : Option Errno} : Reach pools sc →
    peer ∈ sc.scPeerSeq → sc.wgAipRemove peer d = some (ret, sc') → Reach pools sc'
  | destroy {sc sc' : WgSoftc ι} {peer : ι} : Reach pools sc → peer ∈ sc.scPeerSeq →
    sc.wgPeerDestroy peer = some sc' → Reach pools sc'

theorem Reach.inv (h : Reach pools sc) : ∃ R, Inv pools R sc.scPeerSeq sc := by
  induction h with
  | init hinit =>
    refine ⟨fun _ _ => none, fun af => good_init (hinit af), nodup_nil, .nil, nofun,
      fun han => ?_, rfl⟩
    cases han
  | create _ hpeer ih =>
    obtain ⟨R, hinv⟩ := ih
    exact ⟨R, hinv.wgPeerCreate hpeer⟩
  | add _ hpeer hitem hmem hrun ih =>
    obtain ⟨R, hinv⟩ := ih
    obtain ⟨ret', sc'', hrun', hinv', -⟩ := hinv.wgAipAdd hpeer hitem hmem
    rw [hrun] at hrun'
    cases hrun'
    exact hinv'
  | remove _ _ hrun ih =>
    obtain ⟨R, hinv⟩ := ih
    obtain ⟨⟨R', hinv'⟩, hseq⟩ := hinv.wgAipRemove hrun
    exact ⟨R', hseq ▸ hinv'⟩
  | @destroy _ _ peer _ _ hrun ih =>
    obtain ⟨R, hinv⟩ := ih
    obtain ⟨sc'', hrun', hinv', -⟩ := hinv.wgPeerDestroy peer
    rw [hrun] at hrun'
    cases hrun'
    exact hinv'

def InTable (art : Art) (node : ArtNode) : Prop :=
  ∃ addr plen, plen ≤ art.artAlen ∧ artLookup art addr plen = some (some node)

structure Consistent (sc : WgSoftc ι) : Prop where
  exclusive : Circq.Exclusive sc.pAip
  node : ∀ af node, InTable (sc.scAip af) node → ∃ aip, sc.aips node.an = some aip ∧
    aip.aPeer ∈ sc.scPeerSeq ∧ node.an ∈ sc.pAip aip.aPeer
  member : ∀ peer an, an ∈ sc.pAip peer →
    ∃! x : Family × ArtNode, InTable (sc.scAip x.1) x.2 ∧ x.2.an = an
  bits : ∀ af node node', InTable (sc.scAip af) node → InTable (sc.scAip af) node' →
    node.bits = node'.bits → node = node'
  num : sc.scAipNum = Circq.total sc.scPeerSeq sc.pAip

omit [DecidableEq ι] in
theorem Inv.inTable_iff (h : Inv pools R peers sc) {node : ArtNode} :
    InTable (sc.scAip af) node ↔ R af node.bits = some node := by
  constructor
  · rintro ⟨addr, plen, hle, hlookup⟩
    rw [(h.good af).lookup ((h.good af).alen ▸ hle), some.injEq] at hlookup
    rwa [h.keyed hlookup]
  · intro hR
    obtain ⟨aip, -, hfor, -⟩ := h.route hR
    have hplen : aip.aData.aCidr.toNat = node.anPlen := by
      rw [← length_bits node, ← hfor.bits, length_bitsOf]
    have hle : node.anPlen ≤ af.alen := hplen ▸ hfor.cidr
    refine ⟨node.anAddr, node.anPlen, (h.good af).alen ▸ hle, ?_⟩
    rw [(h.good af).lookup hle]
    exact congrArg some hR

omit [DecidableEq ι] in
theorem Inv.consistent (h : Inv pools R sc.scPeerSeq sc) : Consistent sc where
  exclusive := h.exclusive
  node af node hnode := by
    obtain ⟨aip, haip, -, hmem⟩ := h.route (h.inTable_iff.mp hnode)
    exact ⟨aip, haip, (h.member hmem).1, hmem⟩
  member peer an han := by
    obtain ⟨-, aip, af, node, -, -, hR, rfl⟩ := h.member han
    refine ⟨(af, node), ⟨h.inTable_iff.mpr hR, rfl⟩, fun ⟨af', node'⟩ ⟨hnode, heq⟩ => ?_⟩
    have hR' := h.inTable_iff.mp hnode
    obtain ⟨rfl, hbits⟩ := h.route_unique hR hR' heq
    dsimp only at hR' hbits
    rw [hbits, hR] at hR'
    cases hR'
    rfl
  bits af node node' hnode hnode' heq := by
    have hR := h.inTable_iff.mp hnode
    rw [heq, h.inTable_iff.mp hnode'] at hR
    exact (some.inj hR).symm
  num := h.num

/-- If every insertion has had the memory for its tables: tables and lists agree, an insertion that
has it comes back, with nothing changed when it returns an error, and a peer can be destroyed. -/
theorem aip_consistent (h : Reach pools sc) : Consistent sc ∧
    (∀ peer ∈ sc.scPeerSeq, ∀ d item, (∀ aip, item = some aip → sc.aips aip = none) →
      sc.HasTables d item → ∃ ret sc', sc.wgAipAdd peer d item = some (ret, sc') ∧
        Consistent sc' ∧ (ret ≠ none → sc' = sc)) ∧
    ∀ peer ∈ sc.scPeerSeq, ∃ sc', sc.wgPeerDestroy peer = some sc' ∧ Consistent sc' ∧
      sc'.pAip peer = [] := by
  obtain ⟨R, hinv⟩ := h.inv
  refine ⟨hinv.consistent, fun peer hpeer d item hitem hmem => ?_, fun peer _ => ?_⟩
  · obtain ⟨ret, sc', hrun, ⟨R', hinv'⟩, herror⟩ := hinv.wgAipAdd hpeer hitem hmem
    exact ⟨ret, sc', hrun, hinv'.consistent, herror⟩
  · obtain ⟨sc', hrun, ⟨R', hinv'⟩, -, hnil⟩ := hinv.wgPeerDestroy peer
    exact ⟨sc', hrun, hinv'.consistent, hnil⟩

def newArt (pool : Ptr → Bool) (af : Family) : Art where
  artRoot := none
  artLevels := match af with
    | .inet => artPlen32Levels
    | .inet6 => artPlen128Levels
  artAlen := af.alen
  mem := fun _ => unusedTable
  next := 0
  pool := pool
  artTableGcList := none

def onePeer (pools : Family → Ptr → Bool) : WgSoftc Nat :=
  WgSoftc.wgPeerCreate ⟨fun af => newArt (pools af) af, 0, [], fun _ => [], fun _ => none⟩ 7

theorem reach_onePeer (pools : Family → Ptr → Bool) : Reach pools (onePeer pools) :=
  .create (.init fun af => by cases af <;> rfl) not_mem_nil

def tenSlashEight : WgAipIo := ⟨AF_INET, 8#32, 10 :: List.replicate 15 0, rfl⟩

theorem aip_consistent_tenSlashEight :
    ∃ ret sc, (onePeer fun _ _ => true).wgAipAdd 7 tenSlashEight (some 1) = some (ret, sc) ∧
      Consistent sc := by
  have hreach := reach_onePeer fun _ _ => true
  obtain ⟨ret, sc, hrun, hcons, -⟩ := (aip_consistent hreach).2.1 7 mem_cons_self
    tenSlashEight (some 1) (fun _ _ => rfl) fun af _ _ _ _ _ _ _ _ => by cases af <;> rfl
  exact ⟨ret, sc, hrun, hcons⟩

/-- Without memory for the first table `art_insert` returns a null pointer, and `wg_aip_add` reads
`a_peer` of the allowed IP that it takes this for. -/
theorem aip_add_null : Reach (fun _ _ => false) (onePeer fun _ _ => false) ∧
    (∃ node art, artNodeInit 1 tenSlashEight.aAddr 8 = some node ∧
      artInsert ((onePeer fun _ _ => false).scAip .inet) node = some (none, art)) ∧
    (onePeer fun _ _ => false).wgAipAdd 7 tenSlashEight (some 1) = none :=
  ⟨reach_onePeer _, ⟨_, _, rfl, rfl⟩, rfl⟩

/-- The list of the peer has the prefix. -/
def Allows (sc : WgSoftc ι) (af : Family) (peer : ι) (κ : List Bool) : Prop :=
  ∃ an ∈ sc.pAip peer, ∃ aip, sc.aips an = some aip ∧ aip.aData.For af κ

omit [DecidableEq ι] in
theorem Inv.allows_iff (h : Inv pools R peers sc) :
    Allows sc af peer κ ↔ ∃ node aip, R af κ = some node ∧ sc.aips node.an = some aip ∧
      aip.aPeer = peer := by
  constructor
  · rintro ⟨an, han, aip, haip, hfor⟩
    obtain ⟨-, aip', af', node, haip', hpeer, hR, rfl⟩ := h.member han
    obtain ⟨aip'', haip'', hfor', -⟩ := h.route hR
    cases haip.symm.trans haip'
    cases haip.symm.trans haip''
    obtain ⟨rfl, rfl⟩ := hfor.unique hfor'
    exact ⟨node, aip, hR, haip, hpeer⟩
  · rintro ⟨node, aip, hR, haip, rfl⟩
    obtain ⟨aip', haip', hfor, hmem⟩ := h.route hR
    cases haip.symm.trans haip'
    exact ⟨node.an, hmem, aip, haip, hfor⟩

/-- A lookup yields the peer whose list has the longest prefix of the address that any list has.  The
peer is one of those that there are, and no other peer has that prefix. -/
theorem wgAipLookup_longest (h : Reach pools sc) (af : Family) (addr : List UInt8) :
    ∃ r, sc.wgAipLookup af addr = some r ∧ ∀ peer, (r = some peer → peer ∈ sc.scPeerSeq) ∧
      (r = some peer ↔ ∃ m ≤ af.alen, Allows sc af peer (bitsOf addr m) ∧
        ∀ m', m < m' → m' ≤ af.alen → ∀ peer', ¬Allows sc af peer' (bitsOf addr m')) := by
  obtain ⟨R, hinv⟩ := h.inv
  have hmatch : artMatch (sc.scAip af) addr = _ := (hinv.good af).match
  have hroute : ∀ m ≤ af.alen, ∀ peer, Allows sc af peer (bitsOf addr m) →
      R af ((bitsOf addr af.alen).take m) ≠ none := fun m hm peer hallows => by
    obtain ⟨node, -, hR, -⟩ := hinv.allows_iff.mp hallows
    rw [take_bitsOf addr hm, hR]
    nofun
  rw [wgAipLookup, hmatch]
  cases hlongest : longest (R af) (bitsOf addr af.alen) 0 (af.alen + 1) with
  | none =>
    refine ⟨none, rfl, fun peer => ⟨nofun, iff_of_false nofun ?_⟩⟩
    rintro ⟨m, hm, hallows, -⟩
    exact hroute m hm peer hallows (longest_eq_none.mp hlongest m (Nat.zero_le m) (Nat.lt_succ_of_le hm))
  | some node =>
    obtain ⟨m, -, hm, hR, hmax⟩ := longest_eq_some.mp hlongest
    replace hm := Nat.le_of_lt_succ hm
    rw [take_bitsOf addr hm] at hR
    obtain ⟨aip, haip, -⟩ := hinv.route hR
    have hallows := hinv.allows_iff.mpr ⟨node, aip, hR, haip, rfl⟩
    have hlater : ∀ m', m < m' → m' ≤ af.alen → ∀ peer', ¬Allows sc af peer' (bitsOf addr m') :=
      fun m' hlt hle peer' hallows' =>
        hroute m' hle peer' hallows' (hmax m' hlt (Nat.lt_succ_of_le hle))
    refine ⟨some aip.aPeer, by simp [haip], fun peer => ⟨?_, ?_, ?_⟩⟩
    · rintro ⟨⟩
      obtain ⟨an, han, -⟩ := hallows
      exact (hinv.member han).1
    · rintro ⟨⟩
      exact ⟨m, hm, hallows, hlater⟩
    · rintro ⟨m', hm', hallows', hlater'⟩
      obtain rfl : m' = m := by
        rcases Nat.lt_trichotomy m' m with hlt | heq | hgt
        · exact absurd hallows (hlater' m hlt hm _)
        · exact heq
        · exact absurd hallows' (hlater m' hgt hm' _)
      obtain ⟨node', aip', hR', haip', rfl⟩ := hinv.allows_iff.mp hallows'
      cases hR.symm.trans hR'
      cases haip.symm.trans haip'
      rfl

theorem wgAipLookup_longest_tenSlashEight :
    ∃ ret sc, (onePeer fun _ _ => true).wgAipAdd 7 tenSlashEight (some 1) = some (ret, sc) ∧
      ∃ r, sc.wgAipLookup .inet [10, 0, 0, 1] = some r ∧
        ∀ peer, r = some peer → peer ∈ sc.scPeerSeq := by
  have hreach := reach_onePeer fun _ _ => true
  have hpeer : 7 ∈ (onePeer fun _ _ => true).scPeerSeq := mem_cons_self
  have hmem : (onePeer fun _ _ => true).HasTables tenSlashEight (some 1) :=
    fun af _ _ _ _ _ _ _ _ => by cases af <;> rfl
  obtain ⟨R, hinv⟩ := hreach.inv
  obtain ⟨ret, sc, hrun, -⟩ := hinv.wgAipAdd hpeer (fun _ _ => rfl) hmem
  obtain ⟨r, hlookup, hr⟩ := wgAipLookup_longest
    (hreach.add hpeer (fun _ _ => rfl) hmem hrun) .inet [10, 0, 0, 1]
  exact ⟨ret, sc, hrun, r, hlookup, fun peer => (hr peer).1⟩

end Mbsd.Net.IfWg
