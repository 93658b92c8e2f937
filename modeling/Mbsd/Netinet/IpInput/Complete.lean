import Mbsd.Netinet.IpInput.Fragments

/-! The pieces of a datagram give the datagram when the last of them has come. -/

namespace Mbsd.Netinet.IpInput

open Kern.UipcMbuf Lib.SegmentQueue List Option Nat Bool

variable {p : Part} {q : Ipqent} {l : List Ipq}

/-- The pieces in `P`, in order, are the payload `D`; none is empty, and all but the last say that
there is more.  With the first header the datagram is not too long. -/
structure IsCut (D : Mbuf) (P : List Part) : Prop where
  flush : flush 0 P = (D.length, D, [])
  pos : ∀ p ∈ P, 0 < p.data.length
  aligned : ∀ p ∈ P, p.off % 8 = 0
  mff : ∀ p ∈ P, p.tag.1 = decide (p.fin < D.length)
  length_le : ∀ p ∈ P, p.off = 0 → D.length + p.tag.2.toNat <<< 2 ≤ ipMaxpacket

/-- The marks of a fragment and of the first segment in the queue do not go together. -/
def EcnConflict (ip ip0 : Ip) : Prop :=
  let ecn := ip.ipTos &&& iptosEcnMask
  let ecn0 := ip0.ipTos &&& iptosEcnMask
  ecn = iptosEcnCe ∧ ecn0 = iptosEcnNotect ∨ ecn = iptosEcnNotect ∧ ecn0 ≠ iptosEcnNotect

/-- A piece of the datagram comes in, and neither the limit nor a pool nor a mark is in its way. -/
structure Arrival (key : FragKey) (P : List Part) (st : IpqState) (f : Frag) (env : FragEnv) :
    Prop where
  of : f.Of key
  part : f.part ∈ P
  ecn : ∀ fp ∈ st.ipq, fp.key = key → ∀ q ∈ fp.ipqFragq.head?, ¬EcnConflict f.ip q.ipqeIp
  limit : st.ipFrags + 1 ≤ env.ipMaxqueue
  ipqentPool : env.ipqentPool = true
  ipqPool : env.ipqPool = true

/-- Pieces come in, none of which completes the datagram.  At first there is no queue for it. -/
inductive Arrivals (key : FragKey) (P : List Part) : List Frag → IpqState → Prop
  | start {st : IpqState} : (∀ fp ∈ st.ipq, fp.key ≠ key) → Arrivals key P [] st
  | recv {R : List Frag} {st st' : IpqState} {f : Frag} {env : FragEnv} :
      Arrivals key P R st → Arrival key P st f env →
      ipFragcheck st f.ip f.m env = some (none, st') → Arrivals key P (f :: R) st'

structure Holding (P : List Part) (R : List Frag) (fragq : List Ipqent) : Prop where
  ne : fragq ≠ []
  sized : ∀ q ∈ fragq, q.Sized
  sorted : Sorted (fragq.map Ipqent.part)
  pos : ∀ a ∈ fragq.map Ipqent.part, 0 < a.data.length
  within : ∀ a ∈ fragq.map Ipqent.part, ∃ p ∈ P, p ∈ R.map Frag.part ∧ a.Within p
  covers : ∀ k, Covers (fragq.map Ipqent.part) k ↔ Covers (R.map Frag.part) k

def Missing (P : List Part) (R : List Frag) : Prop := ∃ p ∈ P, p ∉ R.map Frag.part

inductive PieceOutcome (D : Mbuf) (P : List Part) (R : List Frag) (out : ReassOut) : Prop
  | waits {fragq : List Ipqent} :
      Missing P R → out.m = none → out.fragq = some fragq → Holding P R fragq → PieceOutcome D P R out
  | complete {ip : Ip} :
      (∀ p ∈ P, p ∈ R.map Frag.part) → out.m = some (ip, D) → PieceOutcome D P R out

variable {key : FragKey} {D : Mbuf} {P : List Part} {R : List Frag} {f : Frag} {ip : Ip}
  {fragq : List Ipqent} {fp : Ipq} {st : IpqState} {env : FragEnv}

theorem IsCut.fin_le (h : IsCut D P) (hp : p ∈ P) : p.fin ≤ D.length := by
  have := fin_le_flush (r := 0) (by rw [h.flush]) hp
  rwa [h.flush] at this

theorem IsCut.sorted (h : IsCut D P) : Sorted P := (sorted_of_flush (r := 0) (by rw [h.flush])).1

theorem IsCut.length_lt (h : IsCut D P) (hp : p ∈ P) : D.length < offLimit := by
  have hpos := h.pos p hp
  have hfin := h.fin_le hp
  rw [Seg.fin] at hfin
  have hcov : Covers P 0 := by
    rw [covers_flush h.sorted fun a _ => Nat.zero_le a.off, h.flush]
    exact .inl ⟨le_rfl, by omega⟩
  obtain ⟨a, ha, hk⟩ := hcov
  have hlen := h.length_le a ha (le_zero.mp hk.1)
  rw [ipMaxpacket] at hlen
  rw [offLimit]
  omega

theorem map_placed {ipqe : Ipqent} (hl : ∀ q ∈ fragq, q.Sized) (hq : ipqe.Sized)
    (hsorted : Sorted (fragq.map Ipqent.part)) (hlt : ∀ a ∈ fragq.map Ipqent.part, a.fin < offLimit)
    (hqlt : ipqe.part.fin < offLimit) :
    (placed fragq ipqe).map Ipqent.part = add ipqe.part (fragq.map Ipqent.part) := by
  have hfront := front_of_lt hlt
  have hadd : ∀ a ∈ add ipqe.part (fragq.map Ipqent.part), a.fin < offLimit := by
    intro a ha
    rcases mem_add hsorted ha with hwithin | ⟨b, hb, hwithin⟩
    · exact hwithin.fin ▸ hqlt
    · exact hwithin.fin ▸ hlt b hb
  have hplaced := front_placed hl hq (hfront.symm ▸ hsorted)
  rw [hfront, front_of_lt hadd] at hplaced
  rcases front_cases offLimit ((placed fragq ipqe).map Ipqent.part) with h | ⟨l₀, b, l₁, -, h, -, hb⟩
  · rwa [front_of_lt h] at hplaced
  · rw [h] at hplaced
    have := hadd b (hplaced ▸ mem_append_right _ mem_cons_self)
    omega

theorem Holding.fin_le (h : Holding P R fragq) (hcut : IsCut D P) :
    ∀ a ∈ fragq.map Ipqent.part, a.fin ≤ D.length := by
  intro a ha
  obtain ⟨p, hp, -, hwithin⟩ := h.within a ha
  exact hwithin.fin ▸ hcut.fin_le hp

theorem Holding.markCe {l : List Ipqent} (h : Holding P R (q :: l))
    (ecn : BitVec 8) : Holding P R (markCe ecn q :: l) := by
  obtain ⟨hpart, hsized⟩ := part_markCe ecn q
  have hmap : (IpInput.markCe ecn q :: l).map Ipqent.part = (q :: l).map Ipqent.part := by
    rw [map_cons, hpart, map_cons]
  refine ⟨cons_ne_nil _ l, fun a ha => ?_, hmap ▸ h.sorted, hmap ▸ h.pos, hmap ▸ h.within,
    hmap ▸ h.covers⟩
  rcases mem_cons.mp ha with rfl | ha
  · exact hsized.mpr (h.sized q mem_cons_self)
  · exact h.sized a (mem_cons_of_mem _ ha)

theorem Holding.placed (h : Holding P R fragq) (hcut : IsCut D P) (hf : f.part ∈ P) :
    Holding P (f :: R) (placed fragq f.entry) := by
  have hD := hcut.length_lt hf
  have hmap : (IpInput.placed fragq f.entry).map Ipqent.part =
      add f.part (fragq.map Ipqent.part) := by
    rw [map_placed h.sized f.entry_sized h.sorted
      (fun a ha => Nat.lt_of_le_of_lt (h.fin_le hcut a ha) hD)
      (f.entry_part ▸ Nat.lt_of_le_of_lt (hcut.fin_le hf) hD), f.entry_part]
  refine ⟨?_, placed_sized h.sized f.entry_sized, ?_, ?_, ?_, fun k => ?_⟩
  · rcases placed_eq fragq f.entry with heq | ⟨_, _, heq⟩
    · rw [heq]
      exact h.ne
    · simp [heq]
  · rw [hmap]
    exact h.sorted.add _
  · rw [hmap]
    exact fun a ha => length_pos_of_mem_add h.sorted h.pos (hcut.pos _ hf) ha
  · rw [hmap]
    intro a ha
    rcases mem_add h.sorted ha with hwithin | ⟨b, hb, hab⟩
    · exact ⟨f.part, hf, mem_cons_self, hwithin⟩
    · obtain ⟨p, hp, hR, hwithin⟩ := h.within b hb
      exact ⟨p, hp, mem_cons_of_mem _ hR, hab.trans hwithin⟩
  · rw [hmap, covers_add h.sorted, h.covers, map_cons, covers_cons]

theorem nextLoop_of_flush (hl : ∀ q ∈ fragq, q.Sized)
    (h : (flush 0 (fragq.map Ipqent.part)).2.2 = []) :
    nextLoop 0 fragq = some (flush 0 (fragq.map Ipqent.part)).1 := by
  rw [nextLoop_eq_some hl]
  refine Prod.ext rfl (Prod.ext ?_ h)
  rw [data_of_flush h, flatMap_map]
  rfl

section

variable (h : Holding P R fragq) (hcut : IsCut D P)

include h hcut

theorem Holding.mff_iff (hq : q ∈ fragq) : q.ipqeMff = false ↔ q.part.fin = D.length := by
  obtain ⟨p, hp, -, hwithin⟩ := h.within q.part (mem_map_of_mem hq)
  have htag : q.ipqeMff = p.tag.1 := congrArg Prod.fst hwithin.tag
  have hle := hcut.fin_le hp
  rw [htag, hcut.mff p hp, hwithin.fin, decide_eq_false_iff_not]
  omega

theorem Holding.incomplete (hR : ∀ p ∈ R.map Frag.part, p ∈ P) (hmissing : Missing P R) (fp : Ipq)
    (freed : Nat) : checkComplete fp fragq freed = { m := none, fragq := some fragq, freed } := by
  obtain ⟨p, hp, hmiss⟩ := hmissing
  rw [IpInput.checkComplete]
  split
  next next q last hnext hq hlast =>
    rw [if_pos]
    by_contra hmff
    have hmem := mem_of_getLast? hlast
    have hend := (h.mff_iff hcut hmem).mp (eq_false_iff.mpr hmff)
    have hflush := (nextLoop_eq_some h.sized).mp hnext
    have hfin : last.part.fin = (flush 0 (fragq.map Ipqent.part)).1 :=
      fin_getLast_flush (by rw [hflush]) (by rw [getLast?_map, hlast]; rfl)
    have hpos := hcut.pos p hp
    have hple := hcut.fin_le hp
    have hhas : p.Has p.off := by
      rw [Seg.Has, Seg.fin]
      omega
    have hcov : Covers (fragq.map Ipqent.part) p.off := by
      rw [covers_flush h.sorted fun a _ => Nat.zero_le a.off, ← hfin, hend]
      exact .inl ⟨Nat.zero_le _, hhas.2.trans_le hple⟩
    obtain ⟨p', hp', hk⟩ := (h.covers p.off).mp hcov
    exact hmiss (hcut.sorted.eq_of_has hp (hR p' hp') hhas hk ▸ hp')
  next => rfl

theorem Holding.complete (hall : ∀ p ∈ P, p ∈ R.map Frag.part) (fp : Ipq) (freed : Nat) :
    ∃ ip, (checkComplete fp fragq freed).m = some (ip, D) := by
  have hcov : ∀ k, 0 ≤ k → k < D.length → Covers (fragq.map Ipqent.part) k := by
    intro k _ hk
    have hP : Covers P k := by
      rw [covers_flush hcut.sorted fun a _ => Nat.zero_le a.off, hcut.flush]
      exact .inl ⟨Nat.zero_le _, hk⟩
    rw [h.covers]
    exact hP.imp fun p hp => ⟨hall p hp.1, hp.2⟩
  obtain ⟨hlen, hrest⟩ := flush_of_covers h.sorted (fun a _ => Nat.zero_le a.off)
    (fun a ha => by have := h.pos a ha; rw [Seg.fin]; omega) (h.fin_le hcut) (Nat.zero_le _) hcov
  have hdata : (flush 0 (fragq.map Ipqent.part)).2.1 = D := by
    have hcarries : ∀ a ∈ fragq.map Ipqent.part, a.Carries fun k d => D[k]? = some d := by
      intro a ha
      obtain ⟨p, hp, -, hwithin⟩ := h.within a ha
      have := carries_of_flush (r := 0) (by rw [hcut.flush]) hp
      simp only [hcut.flush, Nat.sub_zero] at this
      exact hwithin.carries this
    have hlen' := fst_flush 0 (fragq.map Ipqent.part)
    apply ext_getElem
    · omega
    · intro k hk hk'
      have := flush_carries hcarries (getElem?_eq_getElem hk)
      rw [Nat.zero_add, getElem?_eq_getElem hk', some.injEq] at this
      exact this.symm
  have hnext := nextLoop_of_flush h.sized hrest
  rw [hlen] at hnext
  obtain ⟨q, l, rfl⟩ := exists_cons_of_ne_nil h.ne
  have hlast := getLast?_eq_some_getLast (cons_ne_nil q l)
  generalize (q :: l).getLast (cons_ne_nil q l) = last at hlast
  have hmff : last.ipqeMff = false := by
    rw [h.mff_iff hcut (mem_of_getLast? hlast), ← hlen]
    exact fin_getLast_flush hrest (by rw [getLast?_map, hlast]; rfl)
  have hfit : ¬D.length + q.ipqeIp.hlen > ipMaxpacket := by
    obtain ⟨p, hp, -, hwithin⟩ := h.within q.part mem_cons_self
    have hoff : q.part.off = 0 := off_of_flush hrest
    have hle := hcut.length_le p hp (le_zero.mp (hoff ▸ hwithin.off_le))
    have htag : q.ipqeIp.ipHl = p.tag.2 := congrArg Prod.snd hwithin.tag
    rw [Ip.hlen, htag]
    omega
  have hflush := (nextLoop_eq_some h.sized).mp hnext
  rw [IpInput.checkComplete, hnext, hlast]
  simp only [head?_cons, hmff, false_eq_true, if_false, if_neg hfit]
  refine ⟨_, congrArg some (Prod.ext rfl ?_)⟩
  rw [hflush] at hdata
  exact hdata

theorem Holding.checkComplete (hR : ∀ p ∈ R.map Frag.part, p ∈ P) (fp : Ipq) (freed : Nat) :
    PieceOutcome D P R (checkComplete fp fragq freed) := by
  by_cases hmissing : Missing P R
  · rw [h.incomplete hcut hR hmissing]
    exact .waits hmissing rfl rfl h
  · have hall : ∀ p ∈ P, p ∈ R.map Frag.part := by
      intro p hp
      by_contra hno
      exact hmissing ⟨p, hp, hno⟩
    obtain ⟨ip, hm⟩ := h.complete hcut hall fp freed
    exact .complete hall hm

end

theorem Holding.mem_of_unchanged (h : Holding P R fragq) (h' : Holding P (f :: R) fragq)
    (hcut : IsCut D P) (hR : ∀ p ∈ R.map Frag.part, p ∈ P) (hf : f.part ∈ P) :
    f.part ∈ R.map Frag.part := by
  have hhas : f.part.Has f.part.off := by
    have := hcut.pos _ hf
    rw [Seg.Has, Seg.fin]
    omega
  have hcov : Covers ((f :: R).map Frag.part) f.part.off := ⟨f.part, mem_cons_self, hhas⟩
  rw [← h'.covers, h.covers] at hcov
  obtain ⟨p, hp, hk⟩ := hcov
  exact hcut.sorted.eq_of_has hf (hR p hp) hhas hk ▸ hp

theorem Holding.reassFragq (h : Holding P R fp.ipqFragq) (hcut : IsCut D P)
    (hR : ∀ p ∈ R.map Frag.part, p ∈ P) (hmissing : Missing P R) (hf : f.part ∈ P)
    (hecn : ∀ q ∈ fp.ipqFragq.head?, ¬EcnConflict f.ip q.ipqeIp) :
    ∃ out, reassFragq fp f.entry = some out ∧ PieceOutcome D P (f :: R) out := by
  have hR' : ∀ p ∈ (f :: R).map Frag.part, p ∈ P := by
    intro p hp
    rcases mem_cons.mp hp with rfl | hp
    · exact hf
    · exact hR p hp
  rw [IpInput.reassFragq]
  cases hq : fp.ipqFragq with
  | nil => exact absurd hq h.ne
  | cons q l =>
    rw [hq] at h hecn
    have hno : ¬EcnConflict f.entry.ipqeIp q.ipqeIp := hecn q rfl
    dsimp only
    split
    next hconflict => exact absurd hconflict hno
    have hce := h.markCe (f.entry.ipqeIp.ipTos &&& iptosEcnMask)
    have hplaced := hce.placed hcut hf
    rw [IpInput.placed] at hplaced
    cases hplace : placeFrag (IpInput.markCe (f.entry.ipqeIp.ipTos &&& iptosEcnMask) q :: l)
      f.entry with
    | none =>
      rw [hplace] at hplaced
      dsimp only at hplaced
      obtain ⟨p, hp, hmiss⟩ := hmissing
      have hmem := hce.mem_of_unchanged hplaced hcut hR hf
      refine ⟨_, rfl, .waits ⟨p, hp, fun hpf => ?_⟩ rfl rfl hplaced⟩
      rcases mem_cons.mp hpf with rfl | hpf
      · exact hmiss hmem
      · exact hmiss hpf
    | some out =>
      rw [hplace] at hplaced
      dsimp only at hplaced
      exact ⟨_, rfl, hplaced.checkComplete hcut hR' fp out.2⟩

theorem holding_single (hcut : IsCut D P) (hf : f.part ∈ P) : Holding P [f] [f.entry] := by
  refine ⟨cons_ne_nil _ _, fun q hq => ?_, pairwise_singleton _ _, ?_, ?_, fun k => ?_⟩
  · rw [mem_singleton.mp hq]
    exact f.entry_sized
  · rw [map_singleton, f.entry_part]
    exact fun a ha => mem_singleton.mp ha ▸ hcut.pos _ hf
  · rw [map_singleton, f.entry_part]
    intro a ha
    rw [mem_singleton.mp ha]
    exact ⟨f.part, hf, mem_singleton_self _, Seg.Within.refl _⟩
  · rw [map_singleton, f.entry_part, map_singleton]

def queueOf (key : FragKey) (l : List Ipq) : Option Ipq := l.find? (·.key = key)

theorem queueOf_cons (key : FragKey) (fp : Ipq) (l : List Ipq) :
    queueOf key (fp :: l) = if fp.key = key then some fp else queueOf key l := by
  rw [queueOf, find?_cons]
  by_cases h : fp.key = key
  · rw [decide_eq_true h, if_pos h]
  · rw [decide_eq_false h, if_neg h]
    rfl

theorem queueOf_head (h : fp.key = key) : queueOf key (fp :: l) = some fp := by
  rw [queueOf_cons, if_pos h]

theorem find_isFor (ip : Ip) (l : List Ipq) : l.find? (·.isFor ip) = queueOf ip.key l := by
  rw [queueOf]
  congr
  funext fp
  rw [Bool.eq_iff_iff, isFor_iff, decide_eq_true_iff, eq_comm]

theorem queueOf_changeIpq (h : queueOf ip.key l = some fp) (fragq : List Ipqent) :
    queueOf ip.key (changeIpq ip (some fragq) l) = some { fp with ipqFragq := fragq } := by
  induction l with
  | nil => exact absurd h nofun
  | cons q l ih =>
    rw [queueOf_cons] at h
    rw [changeIpq]
    by_cases hkey : q.key = ip.key
    · rw [if_pos hkey] at h
      rw [if_pos (isFor_iff.mpr hkey.symm), map_some, toList_some,
        singleton_append, queueOf_cons, some.inj h]
      exact if_pos (some.inj h ▸ hkey)
    · rw [if_neg hkey] at h
      rw [if_neg fun hfor => hkey (isFor_iff.mp hfor).symm, queueOf_cons, if_neg hkey]
      exact ih h

def Waiting (key : FragKey) (P : List Part) (R : List Frag) (l : List Ipq) : Prop :=
  Missing P R ∧ ∃ fp, queueOf key l = some fp ∧ Holding P R fp.ipqFragq

def Between (key : FragKey) (P : List Part) (R : List Frag) (l : List Ipq) : Prop :=
  R = [] ∧ queueOf key l = none ∨ Waiting key P R l

def Answer (D : Mbuf) (key : FragKey) (P : List Part) (R : List Frag) (l : List Ipq)
    (out : Option (Ip × Mbuf)) : Prop :=
  out = none ∧ Waiting key P R l ∨
    (∀ p ∈ P, p ∈ R.map Frag.part) ∧ ∃ ip, out = some (ip, D)

theorem PieceOutcome.answer {out : ReassOut} (h : PieceOutcome D P R out)
    (hkey : ip.key = key) (hfp : queueOf key l = some fp) :
    Answer D key P R (changeIpq ip out.fragq l) out.m := by
  cases h with
  | @waits fragq hmissing hm hfragq hholding =>
    have hchange := queueOf_changeIpq (hkey.symm ▸ hfp) fragq
    rw [hkey, ← hfragq] at hchange
    exact .inl ⟨hm, hmissing, _, hchange, hholding⟩
  | complete hall hm => exact .inr ⟨hall, _, hm⟩

theorem Between.ipReass (h : Between f.ip.key P R st.ipq) (hcut : IsCut D P)
    (hR : ∀ p ∈ R.map Frag.part, p ∈ P) (hf : f.part ∈ P) (hecn : ∀ fp ∈ st.ipq, fp.key = f.ip.key →
      ∀ q ∈ fp.ipqFragq.head?, ¬EcnConflict f.ip q.ipqeIp) :
    ∃ out st', ipReass st f.entry (queueOf f.ip.key st.ipq) true = some (out, st') ∧
      Answer D f.ip.key P (f :: R) st'.ipq out := by
  rcases h with ⟨rfl, hnone⟩ | ⟨hmissing, fp, hfp, hholding⟩
  · rw [hnone, IpInput.ipReass]
    refine ⟨_, _, rfl, ?_⟩
    have hR : ∀ p ∈ [f].map Frag.part, p ∈ P := by
      rw [map_singleton]
      exact fun p hp => mem_singleton.mp hp ▸ hf
    have hout := (holding_single hcut hf).checkComplete hcut hR
    exact (hout _ 0).answer rfl (queueOf_head rfl)
  · have hmem := mem_of_find?_eq_some hfp
    have hkey : fp.key = f.ip.key := by simpa using find?_some hfp
    obtain ⟨out, hout, hpiece⟩ := hholding.reassFragq hcut hR hmissing hf (hecn fp hmem hkey)
    rw [hfp]
    simp only [IpInput.ipReass, hout, bind_eq_bind, bind_some]
    exact ⟨_, _, rfl, hpiece.answer rfl hfp⟩

theorem IsCut.length_mod (h : IsCut D P) (hp : p ∈ P) (hmff : p.tag.1 = true) :
    p.data.length % 8 = 0 := by
  have hlt : p.fin < D.length := by simpa [hmff] using h.mff p hp
  have hcov : Covers P p.fin := by
    rw [covers_flush h.sorted fun a _ => Nat.zero_le a.off, h.flush]
    exact .inl ⟨Nat.zero_le _, hlt⟩
  obtain ⟨p', hp', hoff, hfin⟩ := hcov
  have hpos := h.pos p hp
  have hpfin : p.fin = p.off + p.data.length := rfl
  have hnext : p.fin ≤ p'.off := by
    by_contra hover
    have heq : p = p' := by
      apply h.sorted.eq_of_has (k := p.fin - 1) hp hp'
      · rw [Seg.Has]
        omega
      · rw [Seg.Has]
        omega
    rw [heq] at hfin
    omega
  have := h.aligned p hp
  have := h.aligned p' hp'
  omega

theorem IsCut.ipLen_ok (h : IsCut D P) (hf : f.part ∈ P) :
    ¬(f.ip.mff = true ∧ (f.ip.forFrag.ipLen = 0 ∨ f.ip.forFrag.ipLen &&& 0x7 ≠ 0)) := by
  rintro ⟨hmff, hbad⟩
  have hlen : f.ip.forFrag.ipLen.toNat = f.m.length := f.entry_sized
  have hpos : 0 < f.m.length := h.pos _ hf
  have hmod : f.m.length % 8 = 0 := h.length_mod hf hmff
  rcases hbad with hzero | hrest
  · have hnil : f.m.length = 0 := hlen.symm.trans (congrArg BitVec.toNat hzero)
    omega
  · apply hrest
    apply BitVec.eq_of_toNat_eq
    have hmask := and_two_pow_sub_one_eq_mod f.ip.forFrag.ipLen.toNat 3
    rw [hlen] at hmask
    rw [BitVec.toNat_and, hlen]
    exact hmask.trans hmod

theorem Between.ipFragcheck (h : Between key P R st.ipq) (hcut : IsCut D P)
    (hR : ∀ p ∈ R.map Frag.part, p ∈ P) (harrival : Arrival key P st f env) :
    ∃ out st', ipFragcheck st f.ip f.m env = some (out, st') ∧
      Answer D key P (f :: R) st'.ipq out := by
  obtain ⟨⟨hoff, rfl⟩, hf, hecn, hlimit, hent, hpool⟩ := harrival
  obtain ⟨out, st', hreass, hanswer⟩ := @Between.ipReass D P R f
    { st with ipFrags := st.ipFrags + 1 } h hcut hR hf hecn
  have hfind := find_isFor f.ip.forFrag st.ipq
  have hkey : f.ip.forFrag.key = f.ip.key := rfl
  rw [IpInput.ipFragcheck, if_neg hoff]
  rw [if_neg (hcut.ipLen_ok hf), if_pos (f.mff_or_off hoff), if_neg (Int.not_lt.mpr hlimit), hent,
    hpool, hfind, hkey]
  rw [Frag.entry] at hreass
  simp only [Bool.not_true, false_eq_true, if_false, hreass, bind_eq_bind, bind_some]
  rcases hanswer with ⟨rfl, hwaiting⟩ | ⟨hall, ip, rfl⟩
  · exact ⟨_, _, rfl, .inl ⟨rfl, hwaiting⟩⟩
  · exact ⟨_, _, rfl, .inr ⟨hall, _, rfl⟩⟩

theorem Arrivals.mem (h : Arrivals key P R st) : ∀ p ∈ R.map Frag.part, p ∈ P := by
  induction h with
  | start _ => exact nofun
  | recv _ harrival _ ih =>
    intro p hp
    rcases mem_cons.mp hp with rfl | hp
    · exact harrival.part
    · exact ih p hp

theorem Arrivals.between (h : Arrivals key P R st) (hcut : IsCut D P) : Between key P R st.ipq := by
  induction h with
  | start hno =>
    refine .inl ⟨rfl, find?_eq_none.mpr fun fp hfp => ?_⟩
    simpa using hno fp hfp
  | recv hrun harrival hcheck ih =>
    obtain ⟨out, st', heq, hanswer⟩ := ih.ipFragcheck hcut hrun.mem harrival
    obtain ⟨hnone, rfl⟩ := Prod.ext_iff.mp (some.inj (heq.symm.trans hcheck))
    rcases hanswer with ⟨-, hwaiting⟩ | ⟨-, ip, hout⟩
    · exact .inr hwaiting
    · exact absurd (hout.symm.trans hnone) nofun

/-- Whatever comes in, a datagram that is returned consists of bytes that fragments carried there,
and ends where one of them ended it.  The pieces of one datagram give it when the last comes. -/
theorem ip_reass_sound_complete : (∀ {R : List Frag} {st : IpqState} {f : Frag} {env : FragEnv},
      FragRun R st → f.Of f.ip.key → ∃ out st', ipFragcheck st f.ip f.m env = some (out, st') ∧
          ∀ ip m, out = some (ip, m) → (∀ k b, m[k]? = some b → Carried (f :: R) f.ip.key k b) ∧
              ∃ r ∈ f :: R, r.Of f.ip.key ∧ r.ip.mff = false ∧ r.part.fin = m.length) ∧
    ∀ {key : FragKey} {D : Mbuf} {P : List Part} {R : List Frag} {st : IpqState} {f : Frag}
      {env : FragEnv}, IsCut D P → Arrivals key P R st → Arrival key P st f env →
        ∃ out st', ipFragcheck st f.ip f.m env = some (out, st') ∧
          ((∀ p ∈ P, p ∈ (f :: R).map Frag.part) → ∃ ip, out = some (ip, D)) ∧
            (Missing P (f :: R) → out = none) := by
  constructor
  · intro R st f env hrun hf
    obtain ⟨out, st', heq, -, hdatagram⟩ := hrun.queues.ipFragcheck hf env
    refine ⟨out, st', heq, fun ip m hout => ?_⟩
    obtain ⟨ip', hd, -⟩ := hdatagram ip m hout
    exact ⟨hd.carried, hd.last⟩
  · intro key D P R st f env hcut hrun harrival
    obtain ⟨out, st', heq, hanswer⟩ := (hrun.between hcut).ipFragcheck hcut hrun.mem harrival
    refine ⟨out, st', heq, ?_⟩
    rcases hanswer with ⟨hnone, ⟨p, hp, hmiss⟩, -⟩ | ⟨hall, hout⟩
    · exact ⟨fun hall => absurd (hall p hp) hmiss, fun _ => hnone⟩
    · exact ⟨fun _ => hout, fun ⟨p, hp, hmiss⟩ => absurd (hall p hp) hmiss⟩

def headPiece : Frag where
  ip := ⟨4, 5, 0, 28, 7, ipMf, 64, 17, 1, 2, []⟩
  m := [1, 2, 3, 4, 5, 6, 7, 8]
  sized := rfl

def tailPiece : Frag where
  ip := ⟨4, 5, 0, 22, 7, 1, 64, 17, 1, 2, []⟩
  m := [9, 10]
  sized := rfl

/-- The second half is there before the first. -/
theorem ip_reass_two_pieces :
    ∃ st ip st', ipFragcheck st headPiece.ip headPiece.m ⟨300, true, true⟩ =
        some (some (ip, headPiece.m ++ tailPiece.m), st') ∧
      ∀ k b, (headPiece.m ++ tailPiece.m)[k]? = some b →
        Carried [headPiece, tailPiece] headPiece.ip.key k b := by
  let env : FragEnv := ⟨300, true, true⟩
  let st : IpqState := {
    ipq := [{
      ipqTtl := ipfragttl
      ipqP := 17
      ipqId := 7
      ipqFragq := [tailPiece.entry]
      ipqSrc := 1
      ipqDst := 2 }]
    ipFrags := 1 }
  have hcheck : ipFragcheck ⟨[], 0⟩ tailPiece.ip tailPiece.m env = some (none, st) := by decide
  have hcut : IsCut (headPiece.m ++ tailPiece.m) [headPiece.part, tailPiece.part] := by
    refine ⟨rfl, ?_, ?_, ?_, ?_⟩ <;> decide
  have hrun : FragRun [tailPiece] st := .recv .start ⟨by decide, rfl⟩ hcheck
  have hstart : Arrivals headPiece.ip.key [headPiece.part, tailPiece.part] [] ⟨[], 0⟩ :=
    .start fun _ h => absurd h not_mem_nil
  have hfirst : Arrival headPiece.ip.key [headPiece.part, tailPiece.part] ⟨[], 0⟩ tailPiece env :=
    ⟨⟨by decide, rfl⟩, mem_cons_of_mem _ mem_cons_self,
      fun _ h => absurd h not_mem_nil, by decide, rfl, rfl⟩
  have harrival : Arrival headPiece.ip.key [headPiece.part, tailPiece.part] st headPiece env := by
    refine ⟨⟨by decide, rfl⟩, mem_cons_self, fun fp hfp _ q hq => ?_, by decide, rfl, rfl⟩
    rw [mem_singleton.mp hfp] at hq
    obtain rfl := some.inj hq
    simp only [EcnConflict]
    decide
  obtain ⟨out, st', heq, hall, -⟩ := ip_reass_sound_complete.2 hcut (hstart.recv hfirst hcheck) harrival
  obtain ⟨ip, rfl⟩ := hall fun p hp => hp
  have hof : headPiece.Of headPiece.ip.key := ⟨by decide, rfl⟩
  obtain ⟨out', st'', heq', hsound⟩ := ip_reass_sound_complete.1 hrun hof
  obtain ⟨rfl, -⟩ := Prod.ext_iff.mp (some.inj (heq.symm.trans heq'))
  exact ⟨st, ip, st', heq, (hsound ip _ rfl).1⟩

end Mbsd.Netinet.IpInput
