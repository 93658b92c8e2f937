import Mbsd.Kern.UipcMbuf
import Mbsd.Lib.SegmentQueue

/-! Reassembly of IPv4 fragments: `ip_fragcheck`, `ip_reass`, `ip_freef` and `ip_flush`. -/

namespace Mbsd.Netinet.IpInput

open Kern.UipcMbuf

variable {C : Ipqent → Prop}

def ipMf : BitVec 16 := 0x2000

def ipOffmask : BitVec 16 := 0x1fff

def ipMaxpacket : Nat := 65535

def iptosEcnNotect : BitVec 8 := 0x00

def iptosEcnCe : BitVec 8 := 0x03

def iptosEcnMask : BitVec 8 := 0x03

def ipfragttl : BitVec 8 := 60

structure Ip where
  ipV : BitVec 4
  ipHl : BitVec 4
  ipTos : BitVec 8
  ipLen : BitVec 16
  ipId : BitVec 16
  ipOff : BitVec 16
  ipTtl : BitVec 8
  ipP : BitVec 8
  ipSrc : BitVec 32
  ipDst : BitVec 32
  ipOpts : List (BitVec 8)
  deriving DecidableEq

def Ip.hlen (ip : Ip) : Nat := ip.ipHl.toNat <<< 2

structure Ipqent where
  ipqeIp : Ip
  ipqeM : Mbuf
  ipqeMff : Bool
  deriving DecidableEq

structure Ipq where
  ipqTtl : BitVec 8
  ipqP : BitVec 8
  ipqId : BitVec 16
  ipqFragq : List Ipqent
  ipqSrc : BitVec 32
  ipqDst : BitVec 32
  deriving DecidableEq

def Ipq.isFor (fp : Ipq) (ip : Ip) : Bool :=
  ip.ipId = fp.ipqId && ip.ipSrc = fp.ipqSrc && ip.ipDst = fp.ipqDst && ip.ipP = fp.ipqP

structure IpqState where
  ipq : List Ipq
  ipFrags : Int
  deriving DecidableEq

def Ipqent.off (q : Ipqent) : Nat := q.ipqeIp.ipOff.toNat

def Ipqent.len (q : Ipqent) : Nat := q.ipqeIp.ipLen.toNat

def Ipqent.adj (q : Ipqent) (i : Int) : Ipqent :=
  { q with
    ipqeIp := { q.ipqeIp with
      ipLen := BitVec.ofInt 16 (q.len - i)
      ipOff := BitVec.ofInt 16 (q.off + i) }
    ipqeM := mAdj q.ipqeM i }

def trimSucceeding (ipqe : Ipqent) : List Ipqent → List Ipqent × Nat
  | [] => ([], 0)
  | q :: nq =>
    if ipqe.off + ipqe.len > q.off then
      let i : Int := ipqe.off + ipqe.len - q.off
      if i < q.len then (q.adj i :: nq, 0)
      else
        let (l, freed) := trimSucceeding ipqe nq
        (l, freed + 1)
    else (q :: nq, 0)

/-- The queue with the new segment in its place, and how many entries that frees; nothing when the
preceding segment provides all of its data. -/
def placeFrag (fragq : List Ipqent) (ipqe : Ipqent) : Option (List Ipqent × Nat) :=
  let before := fragq.takeWhile fun q => !(q.off > ipqe.off)
  let after := fragq.dropWhile fun q => !(q.off > ipqe.off)
  let place (ipqe : Ipqent) :=
    let (after, freed) := trimSucceeding ipqe after
    some (before ++ ipqe :: after, freed)
  match before.getLast? with
  | none => place ipqe
  | some p =>
    let i : Int := p.off + p.len - ipqe.off
    if i > 0 then
      if i ≥ ipqe.len then none else place (ipqe.adj i)
    else place ipqe

def nextLoop (next : Nat) : List Ipqent → Option Nat
  | [] => some next
  | q :: l => if q.off ≠ next then none else nextLoop (next + q.len) l

/-- What comes of a segment: the datagram, the queue unless it is freed, and the entries freed. -/
structure ReassOut where
  m : Option (Ip × Mbuf)
  fragq : Option (List Ipqent)
  freed : Nat

def checkComplete (fp : Ipq) (fragq : List Ipqent) (freed : Nat) : ReassOut :=
  match nextLoop 0 fragq, fragq.head?, fragq.getLast? with
  | some next, some q, some p =>
    if p.ipqeMff then { m := none, fragq := some fragq, freed }
    else
      let ip := q.ipqeIp
      if next + ip.hlen > ipMaxpacket then
        { m := none, fragq := none, freed := freed + fragq.length }
      else
        let ip := { ip with
          ipLen := BitVec.ofNat 16 next
          ipSrc := fp.ipqSrc
          ipDst := fp.ipqDst }
        { m := some (ip, fragq.flatMap Ipqent.ipqeM), fragq := none, freed := freed + fragq.length }
  | _, _, _ => { m := none, fragq := some fragq, freed }

def markCe (ecn : BitVec 8) (q : Ipqent) : Ipqent :=
  if ecn = iptosEcnCe ∧ q.ipqeIp.ipTos &&& iptosEcnMask ≠ iptosEcnCe then
    { q with ipqeIp := { q.ipqeIp with ipTos := q.ipqeIp.ipTos ||| iptosEcnCe } }
  else q

/-- `ip_reass` for a queue that there is.  A queue without a first segment has no result. -/
def reassFragq (fp : Ipq) (ipqe : Ipqent) : Option ReassOut :=
  match fp.ipqFragq with
  | [] => none
  | q :: l =>
    let ecn := ipqe.ipqeIp.ipTos &&& iptosEcnMask
    let ecn0 := q.ipqeIp.ipTos &&& iptosEcnMask
    if ecn = iptosEcnCe ∧ ecn0 = iptosEcnNotect ∨ ecn = iptosEcnNotect ∧ ecn0 ≠ iptosEcnNotect then
      some { m := none, fragq := some (q :: l), freed := 1 }
    else
      let fragq := markCe ecn q :: l
      match placeFrag fragq ipqe with
      | none => some { m := none, fragq := some fragq, freed := 1 }
      | some (fragq, freed) => some (checkComplete fp fragq freed)

def changeIpq (ip : Ip) (fragq : Option (List Ipqent)) : List Ipq → List Ipq
  | [] => []
  | fp :: l =>
    if fp.isFor ip then (fragq.map fun fragq => { fp with ipqFragq := fragq }).toList ++ l
    else fp :: changeIpq ip fragq l

def ipReass (st : IpqState) (ipqe : Ipqent) (fp : Option Ipq) (ipqPool : Bool) :
    Option (Option (Ip × Mbuf) × IpqState) :=
  match fp with
  | none =>
    if !ipqPool then some (none, { st with ipFrags := st.ipFrags - 1 })
    else
      let fp : Ipq := {
        ipqTtl := ipfragttl
        ipqP := ipqe.ipqeIp.ipP
        ipqId := ipqe.ipqeIp.ipId
        ipqFragq := []
        ipqSrc := ipqe.ipqeIp.ipSrc
        ipqDst := ipqe.ipqeIp.ipDst }
      let out := checkComplete fp [ipqe] 0
      some (out.m, {
        ipq := changeIpq ipqe.ipqeIp out.fragq (fp :: st.ipq)
        ipFrags := st.ipFrags - out.freed })
  | some fp => do
    let out ← reassFragq fp ipqe
    some (out.m, {
      ipq := changeIpq ipqe.ipqeIp out.fragq st.ipq
      ipFrags := st.ipFrags - out.freed })

def ipFreef (st : IpqState) (fp : Ipq) (l : List Ipq) : IpqState :=
  { ipq := l, ipFrags := st.ipFrags - fp.ipqFragq.length }

def ipFlush (maxqueue : Int) : Nat → IpqState → IpqState
  | 0, st => st
  | max + 1, st =>
    match st.ipq with
    | [] => st
    | fp :: l =>
      if st.ipFrags > (maxqueue * 3).tdiv 4 ∧ max ≠ 0 then
        ipFlush maxqueue max (ipFreef st fp l)
      else st

/-- What `ip_fragcheck` finds outside the packet: the limit, and whether the pools give. -/
structure FragEnv where
  ipMaxqueue : Int
  ipqentPool : Bool
  ipqPool : Bool

/-- The header as it is queued: without the header's own length, and with the offset in bytes. -/
def Ip.forFrag (ip : Ip) : Ip :=
  { ip with ipLen := BitVec.ofInt 16 (ip.ipLen.toNat - ip.hlen), ipOff := ip.ipOff <<< 3 }

def Ip.mff (ip : Ip) : Bool := ip.ipOff &&& ipMf ≠ 0

def ipFragcheck (st : IpqState) (ip : Ip) (m : Mbuf) (env : FragEnv) :
    Option (Option (Ip × Mbuf) × IpqState) :=
  if ip.ipOff &&& (ipOffmask ||| ipMf) = 0 then some (some (ip, m), st)
  else
    let mff := ip.mff
    let ip := ip.forFrag
    if mff ∧ (ip.ipLen = 0 ∨ ip.ipLen &&& 0x7 ≠ 0) then some (none, st)
    else
      let fp := st.ipq.find? (·.isFor ip)
      if mff ∨ ip.ipOff ≠ 0 then
        if st.ipFrags + 1 > env.ipMaxqueue then some (none, ipFlush env.ipMaxqueue 50 st)
        else if !env.ipqentPool then some (none, st)
        else do
          let ipqe := { ipqeIp := ip, ipqeM := m, ipqeMff := mff }
          let (out, st) ← ipReass { st with ipFrags := st.ipFrags + 1 } ipqe fp env.ipqPool
          match out with
          | none => some (none, st)
          | some (ip, m) =>
            some (some ({ ip with ipLen := BitVec.ofNat 16 (ip.ipLen.toNat + ip.hlen) }, m), st)
      else
        match fp with
        | none => some (some (ip, m), st)
        | some fp => some (some (ip, m), ipFreef st fp (changeIpq ip none st.ipq))

/-! A queue of fragments, as far as the first one that claims to go on behind the largest offset.
Offsets wrap only behind it. -/

open Lib.SegmentQueue List Option Ipqent

abbrev Part := Seg (BitVec 8) (Bool × BitVec 4)

def Ipqent.part (q : Ipqent) : Part where
  off := q.off
  data := q.ipqeM
  tag := (q.ipqeMff, q.ipqeIp.ipHl)

def Ipqent.Sized (q : Ipqent) : Prop := q.len = q.ipqeM.length

def offLimit : Nat := 65536

variable {q ipqe : Ipqent} {l fragq : List Ipqent} {i : Nat}

theorem Ipqent.len_lt (q : Ipqent) : q.len < offLimit := q.ipqeIp.ipLen.isLt

theorem Ipqent.Sized.fin (h : q.Sized) : q.part.fin = q.off + q.len := by
  rw [Sized] at h
  rw [Seg.fin, h]
  rfl

theorem Ipqent.Sized.adj (h : q.Sized) (hi : i ≤ q.len) : (q.adj i).Sized := by
  have hlt := q.len_lt
  rw [offLimit] at hlt
  rw [Sized] at h ⊢
  rw [Ipqent.adj, mAdj_natCast, length_drop, ← h, Ipqent.len, BitVec.toNat_ofInt]
  omega

theorem Ipqent.part_adj (hlt : q.off + i < offLimit) : (q.adj i).part = q.part.trim i := by
  rw [offLimit] at hlt
  have hoff : (q.adj i).off = q.off + i := by
    rw [adj, off, BitVec.toNat_ofInt]
    omega
  rw [part, hoff, adj, mAdj_natCast]
  rfl

theorem trimSucceeding_forall
    (hadj : ∀ q (i : Nat), i ≤ q.len → C q → C (q.adj i)) (hl : ∀ q ∈ l, C q) :
    ∀ q ∈ (trimSucceeding ipqe l).1, C q := by
  induction l with
  | nil => exact hl
  | cons q l ih =>
    have htail : ∀ q ∈ l, C q := fun a ha => hl a (mem_cons_of_mem _ ha)
    rw [trimSucceeding]
    split
    next hover =>
      dsimp only
      split
      next hcut =>
        obtain ⟨i, hi⟩ := Nat.exists_eq_add_of_lt hover
        have hcast : (ipqe.off + ipqe.len - q.off : Int) = (i + 1 : Nat) := by omega
        intro a ha
        rcases mem_cons.mp ha with rfl | ha
        · rw [hcast]
          exact hadj q _ (by omega) (hl q mem_cons_self)
        · exact htail a ha
      next => exact ih htail
    next => exact hl

theorem trimSucceeding_part (hend : ipqe.off + ipqe.len < offLimit) (hl : ∀ q ∈ l, q.Sized) :
    (trimSucceeding ipqe l).1.map part = clear (ipqe.off + ipqe.len) (l.map part) := by
  induction l with
  | nil => rfl
  | cons q l ih =>
    have hfin := (hl q mem_cons_self).fin
    have hoff : q.part.off = q.off := rfl
    rw [map_cons, trimSucceeding, clear, hfin, hoff]
    by_cases hover : ipqe.off + ipqe.len > q.off
    · obtain ⟨i, hi⟩ := Nat.exists_eq_add_of_lt hover
      have hcast : (ipqe.off + ipqe.len - q.off : Int) = (i + 1 : Nat) := by omega
      have hnat : ipqe.off + ipqe.len - q.off = i + 1 := by omega
      have hle : ¬ipqe.off + ipqe.len ≤ q.off := by omega
      rw [if_pos hover, if_neg hle]
      rw [hcast, hnat]
      by_cases hcut : i + 1 < q.len
      · rw [if_pos (by omega), if_pos (by omega), map_cons, part_adj (by omega)]
      · rw [if_neg (by omega), if_neg (by omega)]
        exact ih fun a ha => hl a (mem_cons_of_mem _ ha)
    · rw [if_neg hover, if_pos (by omega), map_cons]

def placed (fragq : List Ipqent) (ipqe : Ipqent) : List Ipqent :=
  match placeFrag fragq ipqe with
  | none => fragq
  | some (l, _) => l

variable {before after : List Ipqent} {A B F J : List Part} {b : Part}

theorem front_place (hq : q.Sized) (hafter : ∀ q ∈ after, q.Sized)
    (hB : before.map part = B) (hA : after.map part = A ++ J)
    (hlt : ∀ a ∈ B, a.fin < offLimit) (hJ : J = [] ∨ ∃ b ∈ A, offLimit ≤ b.fin) :
    front offLimit ((before ++ q :: (trimSucceeding q after).1).map part) =
      front offLimit (B ++ q.part :: clear q.part.fin A) := by
  rw [map_append, map_cons, hB, front_append hlt, front_append hlt]
  congr 1
  by_cases hfin : q.part.fin < offLimit
  · have htrim := trimSucceeding_part (hq.fin ▸ hfin) hafter
    rw [hA, ← hq.fin] at htrim
    rw [htrim]
    rcases hJ with rfl | hJ
    · rw [append_nil]
    · have hstop : ∃ b ∈ A, q.part.fin < b.fin := hJ.imp fun b hb => ⟨hb.1, hfin.trans_le hb.2⟩
      obtain ⟨b, hb, hle⟩ := exists_fin_clear hJ hfin
      rw [clear_append hstop, ← cons_append]
      exact front_append_of_le ⟨b, mem_cons_of_mem _ hb, hle⟩
  · rw [front_cons_of_le (Nat.le_of_not_lt hfin), front_cons_of_le (Nat.le_of_not_lt hfin)]

theorem map_before (fragq : List Ipqent) (ipqe : Ipqent) :
    (fragq.takeWhile fun q => !(q.off > ipqe.off)).map part =
        (fragq.map part).takeWhile (·.off ≤ ipqe.part.off) ∧
      (fragq.dropWhile fun q => !(q.off > ipqe.off)).map part =
        (fragq.map part).dropWhile (·.off ≤ ipqe.part.off) := by
  have htest : (fun q : Ipqent => !decide (q.off > ipqe.off)) =
      (fun a : Part => decide (a.off ≤ ipqe.part.off)) ∘ part := by
    funext q
    rw [Function.comp_apply, Bool.eq_iff_iff, Bool.not_eq_true', decide_eq_false_iff_not,
      decide_eq_true_iff, gt_iff_lt, Nat.not_lt]
    rfl
  rw [takeWhile_map, dropWhile_map, htest]
  exact ⟨rfl, rfl⟩

theorem front_placed_of_below (hl : ∀ q ∈ fragq, q.Sized) (hq : ipqe.Sized)
    (hB : (fragq.map part).takeWhile (·.off ≤ ipqe.part.off) = F.takeWhile (·.off ≤ ipqe.part.off))
    (hA : (fragq.map part).dropWhile (·.off ≤ ipqe.part.off) =
      F.dropWhile (·.off ≤ ipqe.part.off) ++ J)
    (hlt : ∀ a ∈ F.takeWhile (·.off ≤ ipqe.part.off), a.fin < offLimit)
    (hJ : J = [] ∨ ∃ b ∈ F.dropWhile (·.off ≤ ipqe.part.off), offLimit ≤ b.fin)
    (hfront : front offLimit (fragq.map part) = front offLimit F) :
    front offLimit ((placed fragq ipqe).map part) = front offLimit (add ipqe.part F) := by
  obtain ⟨hbefore, hafter⟩ := map_before fragq ipqe
  rw [hB] at hbefore
  rw [hA] at hafter
  have hsized : ∀ q ∈ fragq.dropWhile fun q => !(q.off > ipqe.off), q.Sized := fun q hq =>
    hl q ((dropWhile_sublist _).subset hq)
  have hlast : (F.takeWhile (·.off ≤ ipqe.part.off)).getLast? =
      (fragq.takeWhile fun q => !(q.off > ipqe.off)).getLast?.map part := by
    rw [← hbefore, getLast?_map]
  have hplace : ∀ {e : Ipqent}, e.Sized → _ := fun he =>
    front_place he hsized hbefore hafter hlt hJ
  have hlen : ipqe.part.data.length = ipqe.len := hq.symm
  rw [placed, placeFrag, add, enqueue]
  simp only [hlast]
  cases hp : (fragq.takeWhile fun q => !(q.off > ipqe.off)).getLast? with
  | none =>
    have hnil : F.takeWhile (·.off ≤ ipqe.part.off) = [] := by
      rw [← getLast?_eq_none_iff, hlast, hp]
      rfl
    have := hplace hq
    rw [hnil, nil_append] at this
    exact this
  | some p =>
    have hmem := mem_of_getLast? hp
    have hps : p.Sized := hl p ((takeWhile_sublist _).subset hmem)
    have hpfin : p.part.fin < offLimit := hlt _ (hbefore ▸ mem_map_of_mem hmem)
    have hpf := hps.fin
    have hoff : ipqe.part.off = ipqe.off := rfl
    simp only [map_some, hpf, hoff, hlen]
    by_cases hpos : p.off + p.len ≤ ipqe.off
    · have hzero : p.off + p.len - ipqe.off = 0 := by omega
      rw [if_neg (by omega), hzero, if_neg (by omega), getD_some, Seg.trim_zero]
      exact hplace hq
    · obtain ⟨i, hi⟩ := Nat.exists_eq_add_of_le (Nat.le_of_not_le hpos)
      have hcast : (p.off + p.len - ipqe.off : Int) = i := by omega
      have hnat : p.off + p.len - ipqe.off = i := by omega
      rw [hcast, hnat, if_pos (by omega)]
      by_cases hcov : ipqe.len ≤ i
      · rw [if_pos (by omega), if_pos ⟨by omega, hcov⟩, getD_none]
        exact hfront
      · have hadj : (ipqe.adj i).part = ipqe.part.trim i := part_adj (by omega)
        have hfin : (ipqe.part.trim i).fin = ipqe.part.fin := Seg.fin_trim (by omega)
        have := hplace (hq.adj (i := i) (by omega))
        rw [if_neg (by omega), if_neg fun hc => hcov hc.2, getD_some]
        rw [hadj, hfin] at this
        exact this

theorem placed_eq (fragq : List Ipqent) (ipqe : Ipqent) :
    placed fragq ipqe = fragq ∨ ∃ e l, placed fragq ipqe =
      (fragq.takeWhile fun q => !(q.off > ipqe.off)) ++ e :: l := by
  rw [placed, placeFrag]
  dsimp only
  split
  next h =>
    exact .inl rfl
  next l n h =>
    split at h
    · rw [some.injEq, Prod.mk.injEq] at h
      exact .inr ⟨_, _, h.1.symm⟩
    split at h
    · split at h
      · exact absurd h nofun
      · rw [some.injEq, Prod.mk.injEq] at h
        exact .inr ⟨_, _, h.1.symm⟩
    · rw [some.injEq, Prod.mk.injEq] at h
      exact .inr ⟨_, _, h.1.symm⟩

theorem front_placed (hl : ∀ q ∈ fragq, q.Sized) (hq : ipqe.Sized)
    (hsorted : Sorted (front offLimit (fragq.map part))) :
    front offLimit ((placed fragq ipqe).map part) =
      front offLimit (add ipqe.part (front offLimit (fragq.map part))) := by
  rcases front_cases offLimit (fragq.map part) with hlt | ⟨l₀, b, l₁, heq, hF, hlt, hb⟩
  · rw [front_of_lt hlt]
    refine front_placed_of_below (J := []) hl hq rfl (append_nil _).symm (fun a ha => ?_)
      (.inl rfl) rfl
    exact hlt a ((takeWhile_sublist _).subset ha)
  · have hfront : ∀ l, front offLimit (l₀ ++ b :: l) = l₀ ++ [b] := fun l => by
      rw [front_append hlt, front_cons_of_le hb]
    rw [hF] at hsorted ⊢
    by_cases hoff : b.off ≤ ipqe.part.off
    · have hle : ∀ a ∈ l₀ ++ [b], a.off ≤ ipqe.part.off := by
        intro a ha
        rcases mem_append.mp ha with ha | ha
        · have hab := (pairwise_append.mp hsorted).2.2 a ha b mem_cons_self
          exact a.off_le_fin.trans (hab.trans hoff)
        · exact mem_singleton.mp ha ▸ hoff
      obtain ⟨l', hadd⟩ := add_of_le hle
      rw [hadd, append_assoc, singleton_append, hfront]
      rcases placed_eq fragq ipqe with h | ⟨e, l, h⟩
      · rw [h, heq, hfront]
      · have htake : (l₀ ++ b :: l₁).takeWhile (·.off ≤ ipqe.part.off) =
            l₀ ++ b :: l₁.takeWhile (·.off ≤ ipqe.part.off) := by
          rw [takeWhile_append_of_pos fun a ha =>
            decide_eq_true (hle a (mem_append_left _ ha)), takeWhile_cons, if_pos]
          exact decide_eq_true hoff
        rw [h, map_append, (map_before fragq ipqe).1, heq, htake, append_assoc, cons_append, hfront]
    · have hlt' : ipqe.part.off < b.off := Nat.lt_of_not_le hoff
      obtain ⟨hB, hA⟩ := search_append hlt' l₀ l₁
      obtain ⟨hB', hA'⟩ := search_append hlt' l₀ []
      refine front_placed_of_below (J := l₁) hl hq ?_ ?_ (fun a ha => ?_) (.inr ⟨b, ?_, hb⟩) ?_
      · rw [heq, hB, hB']
      · rw [heq, hA, hA', append_assoc, singleton_append]
      · rw [hB'] at ha
        exact hlt a ((takeWhile_sublist _).subset ha)
      · rw [hA']
        exact mem_append_right _ mem_cons_self
      · rw [heq, hfront, hfront]

theorem placed_forall
    (hadj : ∀ q (i : Nat), i ≤ q.len → C q → C (q.adj i)) (hl : ∀ q ∈ fragq, C q)
    (hq : C ipqe) : ∀ q ∈ placed fragq ipqe, C q := by
  have hplace : ∀ e : Ipqent, C e → ∀ q ∈ (fragq.takeWhile fun q => !(q.off > ipqe.off)) ++
      e :: (trimSucceeding e (fragq.dropWhile fun q => !(q.off > ipqe.off))).1, C q := by
    intro e he q hmem
    rcases mem_append.mp hmem with hmem | hmem
    · exact hl q ((takeWhile_sublist _).subset hmem)
    · rcases mem_cons.mp hmem with rfl | hmem
      · exact he
      · exact trimSucceeding_forall hadj
          (fun q hq => hl q ((dropWhile_sublist _).subset hq)) q hmem
  rw [placed, placeFrag]
  dsimp only
  split
  next => exact hl
  next l n h =>
    split at h
    · rw [some.injEq, Prod.mk.injEq] at h
      rw [← h.1]
      exact hplace ipqe hq
    next p _ =>
      split at h
      next hpos =>
        split at h
        next => exact absurd h nofun
        next hnew =>
          rw [some.injEq, Prod.mk.injEq] at h
          rw [← h.1]
          refine hplace _ ?_
          obtain ⟨i, hi⟩ := Int.eq_ofNat_of_zero_le (show 0 ≤ (p.off + p.len - ipqe.off : Int) by omega)
          rw [hi]
          exact hadj ipqe i (by omega) hq
      next =>
        rw [some.injEq, Prod.mk.injEq] at h
        rw [← h.1]
        exact hplace ipqe hq

theorem placed_sized (hl : ∀ q ∈ fragq, q.Sized) (hq : ipqe.Sized) :
    ∀ q ∈ placed fragq ipqe, q.Sized :=
  placed_forall (fun _ _ hi h => h.adj hi) hl hq

theorem nextLoop_eq_some {r next : Nat} (hl : ∀ q ∈ l, q.Sized) : nextLoop r l = some next ↔
      flush r (l.map part) = (next, l.flatMap ipqeM, []) := by
  induction l generalizing r with
  | nil => simp [nextLoop, flush]
  | cons q l ih =>
    have hoff : q.part.off = q.off := rfl
    have hfin := (hl q mem_cons_self).fin
    rw [nextLoop, map_cons, flush, hoff]
    by_cases hq : q.off = r
    · rw [if_neg (not_not.mpr hq), if_pos hq, hfin, ← hq,
        ih fun a ha => hl a (mem_cons_of_mem _ ha), flatMap_cons]
      have hdata : q.part.data = q.ipqeM := rfl
      simp only [Prod.ext_iff, hdata, append_cancel_left_eq]
    · simp [hq]

end Mbsd.Netinet.IpInput
