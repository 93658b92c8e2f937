import Mbsd.Netinet.IpInput.Reass

/-! A datagram that is returned is made of the fragments that came in. -/

namespace Mbsd.Netinet.IpInput

open Kern.UipcMbuf Lib.SegmentQueue List Option

structure FragKey where
  id : BitVec 16
  src : BitVec 32
  dst : BitVec 32
  p : BitVec 8
  deriving DecidableEq

def Ip.key (ip : Ip) : FragKey := ⟨ip.ipId, ip.ipSrc, ip.ipDst, ip.ipP⟩

def Ipq.key (fp : Ipq) : FragKey := ⟨fp.ipqId, fp.ipqSrc, fp.ipqDst, fp.ipqP⟩

structure Frag where
  ip : Ip
  m : Mbuf
  sized : m.length + ip.hlen = ip.ipLen.toNat

def Frag.part (f : Frag) : Part where
  off := (f.ip.ipOff &&& ipOffmask).toNat * 8
  data := f.m
  tag := (f.ip.mff, f.ip.ipHl)

structure Frag.Of (f : Frag) (key : FragKey) : Prop where
  off_ne : f.ip.ipOff &&& (ipOffmask ||| ipMf) ≠ 0
  key : f.ip.key = key

def Frag.entry (f : Frag) : Ipqent where
  ipqeIp := f.ip.forFrag
  ipqeM := f.m
  ipqeMff := f.ip.mff

def Carried (R : List Frag) (key : FragKey) (k : Nat) (b : BitVec 8) : Prop :=
  ∃ r ∈ R, r.Of key ∧ ∃ i, r.part.off + i = k ∧ r.m[i]? = some b

structure Fragq (R : List Frag) (key : FragKey) (fragq : List Ipqent) : Prop where
  ne : fragq ≠ []
  sized : ∀ q ∈ fragq, q.Sized
  sorted : Sorted (front offLimit (fragq.map Ipqent.part))
  within : ∀ a ∈ front offLimit (fragq.map Ipqent.part),
    ∃ r ∈ R, r.Of key ∧ a.Within r.part

structure Datagram (R : List Frag) (key : FragKey) (ip : Ip) (m : Mbuf) : Prop where
  carried : ∀ k b, m[k]? = some b → Carried R key k b
  last : ∃ r ∈ R, r.Of key ∧ r.ip.mff = false ∧ r.part.fin = m.length
  ipLen : ip.ipLen.toNat = m.length

variable {R : List Frag} {key : FragKey} {f : Frag} {fp : Ipq} {fragq : List Ipqent} {ip : Ip}
  {m : Mbuf} {st : IpqState} {env : FragEnv} {freed : Nat}

theorem isFor_iff : fp.isFor ip = true ↔ ip.key = fp.key := by
  simp [Ipq.isFor, Ip.key, Ipq.key, and_assoc]

theorem Frag.entry_sized (f : Frag) : f.entry.Sized := by
  have hs := f.sized
  rw [Ipqent.Sized, Ipqent.len, Frag.entry, Ip.forFrag]
  simp only [BitVec.toNat_ofInt]
  omega

theorem toNat_off (x : BitVec 16) : (x <<< 3).toNat = (x &&& ipOffmask).toNat * 8 := by
  have hmask : (x &&& ipOffmask).toNat = x.toNat % 2 ^ 13 := by
    rw [BitVec.toNat_and, ← Nat.and_two_pow_sub_one_eq_mod]
    rfl
  rw [hmask, BitVec.toNat_shiftLeft, Nat.shiftLeft_eq]
  omega

theorem Frag.entry_part (f : Frag) : f.entry.part = f.part := by
  have hoff : f.entry.off = (f.ip.ipOff &&& ipOffmask).toNat * 8 := toNat_off f.ip.ipOff
  rw [Ipqent.part, hoff]
  rfl

theorem Frag.mff_or_off (f : Frag) (h : f.ip.ipOff &&& (ipOffmask ||| ipMf) ≠ 0) :
    f.ip.mff = true ∨ f.ip.forFrag.ipOff ≠ 0 := by
  by_contra hnone
  rw [not_or, not_not, Bool.not_eq_true, Ip.mff, decide_eq_false_iff_not, not_not] at hnone
  have hoff : (f.ip.ipOff &&& ipOffmask).toNat * 8 = 0 := by
    rw [← toNat_off]
    exact congrArg BitVec.toNat hnone.2
  have hzero : f.ip.ipOff &&& ipOffmask = 0 :=
    BitVec.eq_of_toNat_eq ((Nat.mul_eq_zero.mp hoff).resolve_right (by decide))
  apply h
  rw [BitVec.and_or_distrib_left, hzero, hnone.1]
  rfl

section

variable (h : Fragq R key fragq)

include h

theorem Fragq.mono (f : Frag) : Fragq (f :: R) key fragq :=
  { h with within := fun a ha =>
      (h.within a ha).imp fun _ hr => ⟨mem_cons_of_mem _ hr.1, hr.2⟩ }

theorem Fragq.carries :
    ∀ a ∈ front offLimit (fragq.map Ipqent.part), a.Carries (Carried R key) := by
  intro a ha
  obtain ⟨r, hr, hof, hwithin⟩ := h.within a ha
  exact hwithin.carries fun i d hd => ⟨r, hr, hof, i, rfl, hd⟩

theorem Fragq.complete {next : Nat} (hnext : nextLoop 0 fragq = some next) (hlt : next < offLimit) :
    (∀ a ∈ fragq.map Ipqent.part, a.fin < offLimit) ∧ next = (fragq.flatMap Ipqent.ipqeM).length ∧
      ∀ k b, (fragq.flatMap Ipqent.ipqeM)[k]? = some b → Carried R key k b := by
  have hflush := (nextLoop_eq_some h.sized).mp hnext
  have hfin : ∀ a ∈ fragq.map Ipqent.part, a.fin < offLimit := fun a ha => by
    have := fin_le_flush (r := 0) (by rw [hflush]) ha
    rw [hflush] at this
    exact Nat.lt_of_le_of_lt this hlt
  refine ⟨hfin, ?_, fun k b hb => ?_⟩
  · have := fst_flush 0 (fragq.map Ipqent.part)
    rwa [hflush, Nat.zero_add] at this
  · have hcarries := h.carries
    rw [front_of_lt hfin] at hcarries
    have := flush_carries (r := 0) (i := k) (d := b) hcarries (by rwa [hflush])
    rwa [Nat.zero_add] at this

theorem Fragq.checkComplete (fp : Ipq) (freed : Nat) :
    (∀ l, (checkComplete fp fragq freed).fragq = some l → l = fragq) ∧
      ∀ ip m, (checkComplete fp fragq freed).m = some (ip, m) → Datagram R key ip m := by
  rw [IpInput.checkComplete]
  split
  next next q p hnext hq hp =>
    split
    next => exact ⟨fun l hl => (some.inj hl).symm, (by simp)⟩
    next hmff =>
      dsimp only
      split
      next => exact ⟨(by simp), (by simp)⟩
      next hlen =>
        rw [ipMaxpacket] at hlen
        have hlt : next < offLimit := by
          rw [offLimit]
          omega
        obtain ⟨hfin, hnextlen, hcarried⟩ := h.complete hnext hlt
        refine ⟨(by simp), fun ip m hm => ?_⟩
        obtain ⟨rfl, rfl⟩ := Prod.ext_iff.mp (some.inj hm)
        refine ⟨hcarried, ?_, ?_⟩
        · have hlast : (fragq.map Ipqent.part).getLast? = some p.part := by
            rw [getLast?_map, hp]
            rfl
          have hflush := (nextLoop_eq_some h.sized).mp hnext
          have hpfin := fin_getLast_flush (r := 0) (by rw [hflush]) hlast
          rw [hflush] at hpfin
          have hmem := mem_of_getLast? hlast
          rw [← front_of_lt hfin] at hmem
          obtain ⟨r, hr, hof, hwithin⟩ := h.within _ hmem
          have htag : p.ipqeMff = r.ip.mff := congrArg Prod.fst hwithin.tag
          refine ⟨r, hr, hof, ?_, ?_⟩
          · rw [← htag]
            exact Bool.eq_false_iff.mpr hmff
          · rw [← hwithin.fin, hpfin]
            exact hnextlen
        · rw [offLimit] at hlt
          simp only [BitVec.toNat_ofNat, ← hnextlen]
          omega
  next => exact ⟨fun l hl => (some.inj hl).symm, (by simp)⟩

theorem Fragq.placed (hf : f.Of key) : Fragq (f :: R) key (placed fragq f.entry) where
  ne := by
    rcases placed_eq fragq f.entry with heq | ⟨_, _, heq⟩
    · rw [heq]
      exact h.ne
    · simp [heq]
  sized := placed_sized h.sized f.entry_sized
  sorted := by
    rw [front_placed h.sized f.entry_sized h.sorted]
    exact (h.sorted.add _).front _
  within a ha := by
    rw [front_placed h.sized f.entry_sized h.sorted, f.entry_part] at ha
    rcases mem_add h.sorted ((front_sublist _ _).subset ha) with hwithin | ⟨b, hb, hab⟩
    · exact ⟨f, mem_cons_self, hf, hwithin⟩
    · obtain ⟨r, hr, hof, hwithin⟩ := h.within b hb
      exact ⟨r, mem_cons_of_mem _ hr, hof, hab.trans hwithin⟩

end

theorem part_markCe (ecn : BitVec 8) (q : Ipqent) :
    (markCe ecn q).part = q.part ∧ ((markCe ecn q).Sized ↔ q.Sized) := by
  rw [markCe]
  split <;> exact ⟨rfl, Iff.rfl⟩

theorem Fragq.markCe {q : Ipqent} {l : List Ipqent} (h : Fragq R key (q :: l)) (ecn : BitVec 8) :
    Fragq R key (markCe ecn q :: l) := by
  obtain ⟨hpart, hsized⟩ := part_markCe ecn q
  have hmap : (IpInput.markCe ecn q :: l).map Ipqent.part = (q :: l).map Ipqent.part := by
    rw [map_cons, hpart, map_cons]
  refine ⟨cons_ne_nil _ l, fun a ha => ?_, hmap ▸ h.sorted, hmap ▸ h.within⟩
  rcases mem_cons.mp ha with rfl | ha
  · exact hsized.mpr (h.sized q mem_cons_self)
  · exact h.sized a (mem_cons_of_mem _ ha)

structure Outcome (R : List Frag) (key : FragKey) (out : ReassOut) : Prop where
  fragq : ∀ l, out.fragq = some l → Fragq R key l
  datagram : ∀ ip m, out.m = some (ip, m) → Datagram R key ip m

theorem Fragq.outcome (h : Fragq R key fragq) (fp : Ipq) (freed : Nat) :
    Outcome R key (IpInput.checkComplete fp fragq freed) := by
  obtain ⟨hfragq, hdatagram⟩ := h.checkComplete fp freed
  exact ⟨fun l hl => hfragq l hl ▸ h, hdatagram⟩

theorem Fragq.kept (h : Fragq R key fragq) (freed : Nat) :
    Outcome R key { m := none, fragq := some fragq, freed } :=
  ⟨fun _ hl => some.inj hl ▸ h, nofun⟩

theorem Fragq.reassFragq (h : Fragq R key fp.ipqFragq) (hf : f.Of key) :
    ∃ out, reassFragq fp f.entry = some out ∧ Outcome (f :: R) key out := by
  rw [IpInput.reassFragq]
  cases hq : fp.ipqFragq with
  | nil => exact absurd hq h.ne
  | cons q l =>
    rw [hq] at h
    dsimp only
    split
    · exact ⟨_, rfl, (h.mono f).kept 1⟩
    · have hce := h.markCe (f.entry.ipqeIp.ipTos &&& iptosEcnMask)
      have hplaced := hce.placed hf
      rw [IpInput.placed] at hplaced
      cases hplace : placeFrag (IpInput.markCe (f.entry.ipqeIp.ipTos &&& iptosEcnMask) q :: l)
        f.entry with
      | none =>
        rw [hplace] at hplaced
        exact ⟨_, rfl, hplaced.kept 1⟩
      | some out =>
        rw [hplace] at hplaced
        exact ⟨_, rfl, hplaced.outcome fp out.2⟩

theorem fragq_single (hf : f.Of key) : Fragq (f :: R) key [f.entry] where
  ne := cons_ne_nil _ _
  sized q hq := mem_singleton.mp hq ▸ f.entry_sized
  sorted := by
    have hsingle : Sorted [f.entry.part] := pairwise_singleton _ _
    exact hsingle.front offLimit
  within a ha := by
    have hmem := (front_sublist _ _).subset ha
    rw [map_singleton, mem_singleton, f.entry_part] at hmem
    exact ⟨f, mem_cons_self, hf, hmem ▸ Seg.Within.refl _⟩

def Queues (R : List Frag) (l : List Ipq) : Prop := ∀ fp ∈ l, Fragq R fp.key fp.ipqFragq

theorem Queues.changeIpq {l : List Ipq} {out : ReassOut} (h : Queues R l)
    (hout : Outcome R ip.key out) : Queues R (changeIpq ip out.fragq l) := by
  induction l with
  | nil => exact h
  | cons fp l ih =>
    have htail : Queues R l := fun a ha => h a (mem_cons_of_mem _ ha)
    rw [IpInput.changeIpq]
    split
    next hfor =>
      have hkey := isFor_iff.mp hfor
      cases hfragq : out.fragq with
      | none => exact htail
      | some fragq =>
        rw [map_some, toList_some, singleton_append]
        intro a ha
        rcases mem_cons.mp ha with rfl | ha
        · have := hout.fragq fragq hfragq
          rwa [hkey] at this
        · exact htail a ha
    next =>
      intro a ha
      rcases mem_cons.mp ha with rfl | ha
      · exact h a mem_cons_self
      · exact ih htail a ha

theorem mem_ipFlush {maxqueue : Int} {n : Nat} : ∀ fp ∈ (ipFlush maxqueue n st).ipq, fp ∈ st.ipq := by
  induction n generalizing st with
  | zero => exact fun fp hfp => hfp
  | succ n ih =>
    rw [ipFlush]
    split
    next h => exact fun fp hfp => hfp
    next fp l h =>
      split
      next =>
        intro a ha
        rw [h]
        exact mem_cons_of_mem _ (ih a ha)
      next => exact fun fp hfp => hfp

theorem Queues.mono {l : List Ipq} (h : Queues R l) (f : Frag) : Queues (f :: R) l :=
  fun fp hfp => (h fp hfp).mono f

theorem Queues.ipReass (h : Queues R st.ipq) (hf : f.Of f.ip.key) (pool : Bool) :
    ∃ out st', ipReass st f.entry (st.ipq.find? (·.isFor f.ip.forFrag)) pool = some (out, st') ∧
      Queues (f :: R) st'.ipq ∧ ∀ ip m, out = some (ip, m) → Datagram (f :: R) f.ip.key ip m := by
  cases hfind : st.ipq.find? (·.isFor f.ip.forFrag) with
  | none =>
    simp only [IpInput.ipReass]
    cases pool with
    | false => exact ⟨_, _, rfl, h.mono f, nofun⟩
    | true =>
      refine ⟨_, _, rfl, ?_, ((fragq_single hf).outcome _ 0).datagram⟩
      have hout := fun fp => ((fragq_single (R := R) hf).outcome fp 0).fragq
      rw [IpInput.changeIpq, if_pos (isFor_iff.mpr rfl)]
      intro a ha
      rcases mem_append.mp ha with ha | ha
      · rw [mem_toList, map_eq_some_iff] at ha
        obtain ⟨fragq, hfragq, rfl⟩ := ha
        exact hout _ fragq hfragq
      · exact h.mono f a ha
  | some fp =>
    have hfor : fp.isFor f.ip.forFrag = true := by simpa using find?_some hfind
    have hkey := isFor_iff.mp hfor
    have hfragq := h fp (mem_of_find?_eq_some hfind)
    rw [← hkey] at hfragq
    obtain ⟨out, hout, houtcome⟩ := hfragq.reassFragq hf
    simp only [IpInput.ipReass, hout, bind_eq_bind, bind_some]
    exact ⟨_, _, rfl, (h.mono f).changeIpq houtcome, houtcome.datagram⟩

theorem Queues.ipFragcheck (h : Queues R st.ipq) (hf : f.Of f.ip.key) (env : FragEnv) :
    ∃ out st', ipFragcheck st f.ip f.m env = some (out, st') ∧ Queues (f :: R) st'.ipq ∧
      ∀ ip m, out = some (ip, m) → ∃ ip', Datagram (f :: R) f.ip.key ip' m ∧
          ip = { ip' with ipLen := BitVec.ofNat 16 (m.length + ip'.hlen) } := by
  rw [IpInput.ipFragcheck, if_neg hf.off_ne]
  dsimp only
  split
  · exact ⟨_, _, rfl, h.mono f, nofun⟩
  split
  · split
    · exact ⟨_, _, rfl, fun fp hfp => h.mono f fp (mem_ipFlush fp hfp), nofun⟩
    split
    · exact ⟨_, _, rfl, h.mono f, nofun⟩
    · obtain ⟨out, st', hreass, hq, hdatagram⟩ := @Queues.ipReass R f
        { st with ipFrags := st.ipFrags + 1 } h hf env.ipqPool
      rw [Frag.entry] at hreass
      rw [hreass, bind_eq_bind, bind_some]
      cases out with
      | none => exact ⟨_, _, rfl, hq, nofun⟩
      | some out =>
        refine ⟨_, _, rfl, hq, fun ip m hm => ?_⟩
        obtain ⟨rfl, rfl⟩ := Prod.ext_iff.mp (some.inj hm)
        have hd := hdatagram _ _ rfl
        refine ⟨out.1, hd, ?_⟩
        rw [hd.ipLen]
  next hno => exact absurd (f.mff_or_off hf.off_ne) hno

/-- Fragments come in, of any datagrams and in any order; the last one is at the head of the list. -/
inductive FragRun : List Frag → IpqState → Prop
  | start : FragRun [] { ipq := [], ipFrags := 0 }
  | recv {R : List Frag} {st st' : IpqState} {f : Frag} {env : FragEnv}
      {out : Option (Ip × Mbuf)} :
      FragRun R st → f.Of f.ip.key → ipFragcheck st f.ip f.m env = some (out, st') →
      FragRun (f :: R) st'

theorem FragRun.queues (h : FragRun R st) : Queues R st.ipq := by
  induction h with
  | start => exact nofun
  | recv _ hf hcheck ih =>
    obtain ⟨out, st', heq, hq, -⟩ := ih.ipFragcheck hf _
    obtain ⟨-, rfl⟩ := Prod.ext_iff.mp (some.inj (heq.symm.trans hcheck))
    exact hq

end Mbsd.Netinet.IpInput
