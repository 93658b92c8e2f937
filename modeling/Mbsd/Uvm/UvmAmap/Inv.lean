import Mbsd.Lib.Grouped
import Mbsd.Uvm.UvmAmap.Model

/-! What the operations keep: the table of the chunks, and the slots that the chunks stand for. -/

namespace Mbsd.Uvm.UvmAmap

open Lib Sys List Option Function Amap Mem

variable {κ ι : Type} {m m' : Mem κ ι} {am am' : Amap κ} {slot : Nat} {c d : κ}

def Amap.chunks (am : Amap κ) : List κ := if am.UVM_AMAP_SMALL then [am.amSmall] else am.amChunks

structure Chunk.Ok (nslot : Nat) (lock : Option Lock) (anLock : ι → Option Lock) (c : Chunk ι) :
    Prop where
  base : AMAP_BASE_SLOT c.acBaseslot = c.acBaseslot
  lt : c.acBaseslot < nslot
  acNslot : c.acNslot = min UVM_AMAP_CHUNK (nslot - c.acBaseslot)
  used : ∀ i < UVM_AMAP_CHUNK, c.acUsedmap.getLsbD i = (c.acAnon i).isSome
  locked : ∀ i < UVM_AMAP_CHUNK, ∀ a, c.acAnon i = some a → anLock a = lock

structure Inv (m : Mem κ ι) (am : Amap κ) : Prop where
  nodup : am.chunks.Nodup
  ok : ∀ c ∈ am.chunks, (m.chunk c).Ok am.amNslot am.amLock m.anLock
  inj : ∀ c ∈ am.chunks, ∀ d ∈ am.chunks,
    (m.chunk c).acBaseslot = (m.chunk d).acBaseslot → c = d
  indexed : ¬am.UVM_AMAP_SMALL →
    Indexed (m.bucketOf am) am.amChunks am.amBuckets (· < am.amNbuckets)
  ncused : ¬am.UVM_AMAP_SMALL → am.amNcused = am.amChunks.length
  inTable : ¬am.UVM_AMAP_SMALL → ∀ slot < am.amNslot, am.UVM_AMAP_BUCKET slot < am.amNbuckets

def chunkAt (m : Mem κ ι) (am : Amap κ) (slot : Nat) : Option κ :=
  am.chunks.find? fun c => (m.chunk c).acBaseslot = AMAP_BASE_SLOT slot

def anonAt (m : Mem κ ι) (am : Amap κ) (slot : Nat) : Option ι :=
  (chunkAt m am slot).bind fun c => (m.chunk c).acAnon (UVM_AMAP_SLOTIDX slot)

theorem AMAP_BASE_SLOT_add (slot : Nat) : AMAP_BASE_SLOT slot + UVM_AMAP_SLOTIDX slot = slot := by
  simp only [AMAP_BASE_SLOT, UVM_AMAP_SLOTIDX, UVM_AMAP_CHUNK]
  omega

theorem AMAP_BASE_SLOT_idem (slot : Nat) :
    AMAP_BASE_SLOT (AMAP_BASE_SLOT slot) = AMAP_BASE_SLOT slot := by
  simp only [AMAP_BASE_SLOT, UVM_AMAP_CHUNK]
  omega

theorem UVM_AMAP_SLOTIDX_lt (slot : Nat) : UVM_AMAP_SLOTIDX slot < UVM_AMAP_CHUNK :=
  Nat.mod_lt _ (by decide)

theorem Amap.UVM_AMAP_BUCKET_base (am : Amap κ) (slot : Nat) :
    am.UVM_AMAP_BUCKET (AMAP_BASE_SLOT slot) = am.UVM_AMAP_BUCKET slot := by
  rw [UVM_AMAP_BUCKET, UVM_AMAP_BUCKET, AMAP_BASE_SLOT, Nat.mul_div_cancel _ (by decide)]

theorem Amap.chunks_small (h : am.UVM_AMAP_SMALL) : am.chunks = [am.amSmall] := if_pos h

theorem Amap.chunks_normal (h : ¬am.UVM_AMAP_SMALL) : am.chunks = am.amChunks := if_neg h

theorem chunkAt_mem (hc : chunkAt m am slot = some c) :
    c ∈ am.chunks ∧ (m.chunk c).acBaseslot = AMAP_BASE_SLOT slot := by
  unfold chunkAt at hc
  exact ⟨mem_of_find?_eq_some hc, by simpa using find?_some hc⟩

theorem find?_bucket (hnormal : ¬am.UVM_AMAP_SMALL) (slot : Nat) :
    (am.amChunks.filter (m.bucketOf am · = am.UVM_AMAP_BUCKET slot)).find?
      (fun c => (m.chunk c).acBaseslot = AMAP_BASE_SLOT slot) = chunkAt m am slot := by
  rw [find?_filter, chunkAt, chunks_normal hnormal]
  congr 1
  funext c
  by_cases hbase : (m.chunk c).acBaseslot = AMAP_BASE_SLOT slot
  · simp [hbase, bucketOf, UVM_AMAP_BUCKET_base]
  · simp [hbase]

theorem findChunk_eq {bucket baseslot : Nat} {p : Option κ} {G Q : List κ}
    (hG : ∀ c ∈ G, m.bucketOf am c = bucket) (hQ : ∀ c ∈ Q, m.bucketOf am c ≠ bucket) :
    findChunk m am bucket baseslot p (G ++ Q) =
      match G.find? (fun c => (m.chunk c).acBaseslot = baseslot) with
      | some c => .inl c
      | none => .inr (G.getLast?.or p) := by
  induction G generalizing p with
  | nil =>
    cases Q with
    | nil => rfl
    | cons c Q => exact if_pos (hQ c mem_cons_self)
  | cons c G ih =>
    rw [cons_append, findChunk, if_neg (not_not.mpr (hG c mem_cons_self))]
    split
    next hbase => rw [find?_cons_of_pos (by simpa using hbase)]
    next hbase =>
      rw [ih fun c hc => hG c (mem_cons_of_mem _ hc), find?_cons_of_neg (by simpa using hbase)]
      cases G with
      | nil => rfl
      | cons d G =>
        rw [getLast?_cons_cons]
        cases hlast : (d :: G).getLast? with
        | none => simp at hlast
        | some x => rfl

section Inv

variable (h : Inv m am)

include h

theorem Inv.chunkAt_eq_some :
    chunkAt m am slot = some c ↔ c ∈ am.chunks ∧ (m.chunk c).acBaseslot = AMAP_BASE_SLOT slot := by
  constructor
  · exact chunkAt_mem
  · rintro ⟨hc, hbase⟩
    cases hd : chunkAt m am slot with
    | none =>
      unfold chunkAt at hd
      exact absurd (decide_eq_true hbase) (find?_eq_none.mp hd c hc)
    | some d =>
      obtain ⟨hd, hdbase⟩ := chunkAt_mem hd
      rw [h.inj d hd c hc (hdbase.trans hbase.symm)]

theorem Inv.chunkAt_small (hsmall : am.UVM_AMAP_SMALL) (hslot : slot < am.amNslot) :
    chunkAt m am slot = some am.amSmall := by
  have hmem : am.amSmall ∈ am.chunks := by
    rw [chunks_small hsmall]
    exact mem_singleton_self _
  refine h.chunkAt_eq_some.mpr ⟨hmem, ?_⟩
  have hok := h.ok _ hmem
  have hbase := hok.base
  have hlt := hok.lt
  simp only [UVM_AMAP_SMALL, AMAP_BASE_SLOT, UVM_AMAP_CHUNK] at hsmall hbase ⊢
  omega

variable [DecidableEq κ]

theorem Inv.fromBucket (hnormal : ¬am.UVM_AMAP_SMALL) (hslot : slot < am.amNslot) :
    ∃ Q, am.fromBucket (am.UVM_AMAP_BUCKET slot) =
        some (am.amChunks.filter (m.bucketOf am · = am.UVM_AMAP_BUCKET slot) ++ Q) ∧
      ∀ x ∈ Q, m.bucketOf am x ≠ am.UVM_AMAP_BUCKET slot := by
  have hlt := h.inTable hnormal slot hslot
  obtain ⟨Q, hwalk, hQ⟩ := (h.indexed hnormal).walk hlt
  exact ⟨Q, (if_pos hlt).trans (congrArg some hwalk), hQ⟩

end Inv

variable [DecidableEq κ]

section ChunkGet

variable (h : Inv m am) (hslot : slot < am.amNslot)

include h hslot

theorem Inv.findChunk (hnormal : ¬am.UVM_AMAP_SMALL) :
    ∃ chunks, am.fromBucket (am.UVM_AMAP_BUCKET slot) = some chunks ∧
      findChunk m am (am.UVM_AMAP_BUCKET slot) (AMAP_BASE_SLOT slot) none chunks =
        match chunkAt m am slot with
        | some c => .inl c
        | none => .inr
          (am.amChunks.filter (m.bucketOf am · = am.UVM_AMAP_BUCKET slot)).getLast? := by
  obtain ⟨Q, hfrom, hQ⟩ := h.fromBucket hnormal hslot
  refine ⟨_, hfrom, ?_⟩
  rw [findChunk_eq (fun c hc => of_decide_eq_true (mem_filter.mp hc).2) hQ,
    find?_bucket hnormal, or_none]

theorem Inv.chunkGet (pool : Option κ) :
    amapChunkGet m am slot false pool = some (m, am, chunkAt m am slot) := by
  rw [amapChunkGet]
  split
  next hsmall => rw [h.chunkAt_small hsmall hslot]
  next hnormal =>
    obtain ⟨chunks, hfrom, hfind⟩ := h.findChunk hslot hnormal
    rw [hfrom, bind_eq_bind, bind_some, hfind]
    cases chunkAt m am slot with
    | none => rfl
    | some c => rfl

theorem Inv.chunkGet_some (create : Bool) (pool : Option κ) (hc : chunkAt m am slot = some c) :
    amapChunkGet m am slot create pool = some (m, am, some c) := by
  rw [amapChunkGet]
  split
  next hsmall => rw [← hc, h.chunkAt_small hsmall hslot]
  next hnormal =>
    obtain ⟨chunks, hfrom, hfind⟩ := h.findChunk hslot hnormal
    rw [hfrom, bind_eq_bind, bind_some, hfind, hc]

theorem Inv.chunkGet_short (hc : chunkAt m am slot = none) :
    amapChunkGet m am slot true none = some (m, am, none) := by
  rw [amapChunkGet]
  split
  next hsmall =>
    rw [h.chunkAt_small hsmall hslot] at hc
    cases hc
  next hnormal =>
    obtain ⟨chunks, hfrom, hfind⟩ := h.findChunk hslot hnormal
    rw [hfrom, bind_eq_bind, bind_some, hfind, hc]
    rfl

end ChunkGet

def Amap.Alike (am am' : Amap κ) : Prop :=
  am' = { am with
    amBuckets := am'.amBuckets, amChunks := am'.amChunks, amNcused := am'.amNcused
    amNused := am'.amNused }

namespace Amap.Alike

omit [DecidableEq κ]

theorem trans {am'' : Amap κ} (h : am.Alike am') (h' : am'.Alike am'') : am.Alike am'' := by
  exact Eq.trans h' (by rw [h])

variable (h : am.Alike am')

include h

theorem amNslot : am'.amNslot = am.amNslot := by rw [h]

theorem amLock : am'.amLock = am.amLock := by rw [h]

theorem amNbuckets : am'.amNbuckets = am.amNbuckets := by rw [h]

theorem UVM_AMAP_BUCKET : am'.UVM_AMAP_BUCKET = am.UVM_AMAP_BUCKET := by
  funext slot
  rw [h]
  rfl

end Amap.Alike

section Create

variable (h : Inv m am) (hslot : slot < am.amNslot) (hnone : chunkAt m am slot = none) {new : κ}

theorem Chunk.Ok.blank {nslot : Nat} {lock : Option Lock} {anLock : ι → Option Lock}
    (hslot : slot < nslot) : Chunk.Ok nslot lock anLock (.blank ι (AMAP_BASE_SLOT slot)
      (if UVM_AMAP_CHUNK ≤ nslot - AMAP_BASE_SLOT slot then UVM_AMAP_CHUNK
        else nslot - AMAP_BASE_SLOT slot)) where
  base := AMAP_BASE_SLOT_idem slot
  lt := Nat.lt_of_le_of_lt (Nat.div_mul_le_self ..) hslot
  acNslot := by
    rw [Chunk.blank, Nat.min_def]
  used i _ := by simp [Chunk.blank]
  locked _ _ _ := nofun

def Amap.newChunk (ι : Type) (am : Amap κ) (slot : Nat) : Chunk ι :=
  .blank ι (AMAP_BASE_SLOT slot)
    (if UVM_AMAP_CHUNK ≤ am.amNslot - AMAP_BASE_SLOT slot then UVM_AMAP_CHUNK
      else am.amNslot - AMAP_BASE_SLOT slot)

theorem Mem.setChunk_of_ne (m : Mem κ ι) (ch : Chunk ι) (hne : d ≠ c) :
    (m.setChunk c ch).chunk d = m.chunk d := update_of_ne hne _ _

theorem Mem.setChunk_self (m : Mem κ ι) (ch : Chunk ι) : (m.setChunk c ch).chunk c = ch :=
  update_self ..

include h hslot hnone

theorem Inv.added (hnew : new ∉ am.chunks) (hnormal : ¬am.UVM_AMAP_SMALL) {l : List κ}
    {first : Nat → Option κ}
    (hindexed : Indexed ((m.setChunk new (am.newChunk ι slot)).bucketOf am) l first
      (· < am.amNbuckets))
    (hmem : ∀ c, c ∈ l ↔ c ∈ am.amChunks ∨ c = new) (hlen : l.length = am.amChunks.length + 1) :
    Inv (m.setChunk new (am.newChunk ι slot))
      { am with amChunks := l, amBuckets := first, amNcused := am.amNcused + 1 } := by
  have hchunks : chunks { am with
      amChunks := l, amBuckets := first, amNcused := am.amNcused + 1 } = l := if_neg hnormal
  have hold {c : κ} (hc : c ∈ am.amChunks) : c ≠ new := by
    rw [chunks_normal hnormal] at hnew
    exact ne_of_mem_of_not_mem hc hnew
  -- no other chunk has its place
  have hother {c : κ} (hc : c ∈ am.amChunks) :
      (m.chunk c).acBaseslot ≠ AMAP_BASE_SLOT slot := fun hbase => by
    rw [h.chunkAt_eq_some.mpr ⟨chunks_normal hnormal ▸ hc, hbase⟩] at hnone
    cases hnone
  refine ⟨by rw [hchunks]; exact hindexed.nodup, fun c hc => ?_, fun c hc d hd hcd => ?_,
    fun _ => hindexed, fun _ => ?_, h.inTable⟩
  · rw [hchunks] at hc
    rcases (hmem c).mp hc with hc | rfl
    · rw [setChunk_of_ne _ _ (hold hc)]
      exact h.ok c (chunks_normal hnormal ▸ hc)
    · rw [setChunk_self]
      exact Chunk.Ok.blank hslot
  · rw [hchunks] at hc hd
    rcases (hmem c).mp hc with hc | rfl
    · rw [setChunk_of_ne _ _ (hold hc)] at hcd
      rcases (hmem d).mp hd with hd | rfl
      · rw [setChunk_of_ne _ _ (hold hd)] at hcd
        exact h.inj c (chunks_normal hnormal ▸ hc) d (chunks_normal hnormal ▸ hd) hcd
      · rw [setChunk_self] at hcd
        exact absurd hcd (hother hc)
    · rcases (hmem d).mp hd with hd | rfl
      · rw [setChunk_self, setChunk_of_ne _ _ (hold hd)] at hcd
        exact absurd hcd.symm (hother hd)
      · rfl
  · dsimp only
    rw [h.ncused hnormal, hlen]
    rfl

theorem Inv.chunkGet_new (hnew : new ∉ am.chunks) : ∃ am', amapChunkGet m am slot true (some new) =
        some (m.setChunk new (am.newChunk ι slot), am', some new) ∧
      Inv (m.setChunk new (am.newChunk ι slot)) am' ∧ am.Alike am' ∧ am'.amNused = am.amNused ∧
      ∀ c, c ∈ am'.chunks ↔ c ∈ am.chunks ∨ c = new := by
  have hnormal : ¬am.UVM_AMAP_SMALL := fun hsmall => by
    rw [h.chunkAt_small hsmall hslot] at hnone
    cases hnone
  have hchunks := chunks_normal hnormal
  obtain ⟨chunks, hfrom, hfind⟩ := h.findChunk hslot hnormal
  rw [hnone] at hfind
  have hsame {c : κ} (hc : c ∈ am.amChunks) :
      (m.setChunk new (am.newChunk ι slot)).bucketOf am c = m.bucketOf am c := by
    rw [bucketOf, bucketOf, setChunk_of_ne]
    exact ne_of_mem_of_not_mem (hchunks ▸ hc) hnew
  have hindexed := (h.indexed hnormal).congr fun c hc => (hsame hc).symm
  have hbucket : (m.setChunk new (am.newChunk ι slot)).bucketOf am new =
      am.UVM_AMAP_BUCKET slot := by
    rw [bucketOf, setChunk_self]
    exact am.UVM_AMAP_BUCKET_base slot
  rw [amapChunkGet]
  simp only [if_neg hnormal, hfrom, hfind, bind_eq_bind, bind_some,
    Bool.not_true, Bool.false_eq_true, if_false]
  cases hlast : (am.amChunks.filter (m.bucketOf am · = am.UVM_AMAP_BUCKET slot)).getLast? with
  | none =>
    have hempty := getLast?_eq_none_iff.mp hlast
    have hnull : am.amBuckets (am.UVM_AMAP_BUCKET slot) = none := by
      rw [(h.indexed hnormal).first_eq _ (h.inTable hnormal slot hslot), hempty, head?_nil]
    have hconcat := hindexed.concat (c := new) fun c hc hcb => by
      rw [hsame hc, hbucket] at hcb
      exact filter_eq_nil_iff.mp hempty c hc (decide_eq_true hcb)
    rw [hbucket] at hconcat
    rw [kassert_true hnull]
    refine ⟨_, rfl, h.added hslot hnone hnew hnormal hconcat (fun c => by simp)
      length_append, rfl, rfl, fun c => ?_⟩
    rw [hchunks, chunks_normal (by exact hnormal), mem_append, mem_singleton]
  | some p =>
    obtain ⟨hp, hpb⟩ := mem_filter.mp (mem_of_getLast? hlast)
    have hinsert := hindexed.insertAfter (p := p) (c := new) (hchunks ▸ hnew)
      (by rw [hbucket, hsame hp, of_decide_eq_true hpb])
    have hmem (c : κ) : c ∈ Tailq.insertAfter p new am.amChunks ↔ c ∈ am.amChunks ∨ c = new := by
      rw [mem_insertAfter, and_iff_right hp]
    refine ⟨_, rfl, h.added hslot hnone hnew hnormal hinsert hmem ?_, rfl, rfl, fun c => ?_⟩
    · exact length_insertAfter hp
    · rw [hchunks, chunks_normal (by exact hnormal), hmem]

end Create

omit [DecidableEq κ] in
theorem chunkAt_congr {slot' : Nat} (h : Inv m am) (h' : Inv m' am')
    (hiff : ∀ c, c ∈ am'.chunks ∧ (m'.chunk c).acBaseslot = AMAP_BASE_SLOT slot' ↔
      c ∈ am.chunks ∧ (m.chunk c).acBaseslot = AMAP_BASE_SLOT slot') :
    chunkAt m' am' slot' = chunkAt m am slot' :=
  ext fun c => by rw [h'.chunkAt_eq_some, h.chunkAt_eq_some, hiff]

theorem Inv.anonAt_new {new : κ} (h : Inv m am) (hnone : chunkAt m am slot = none)
    (hnew : new ∉ am.chunks) (h' : Inv (m.setChunk new (am.newChunk ι slot)) am')
    (hmem : ∀ c, c ∈ am'.chunks ↔ c ∈ am.chunks ∨ c = new) (s : Nat) :
    anonAt (m.setChunk new (am.newChunk ι slot)) am' s = anonAt m am s := by
  by_cases hs : AMAP_BASE_SLOT s = AMAP_BASE_SLOT slot
  · have hat : chunkAt (m.setChunk new (am.newChunk ι slot)) am' s = some new := by
      refine h'.chunkAt_eq_some.mpr ⟨(hmem new).mpr (.inr rfl), ?_⟩
      rw [setChunk_self, hs]
      rfl
    have hold : chunkAt m am s = none := by
      rw [chunkAt, hs]
      exact hnone
    rw [anonAt, anonAt, hat, hold, bind_some, setChunk_self]
    rfl
  · have hat : chunkAt (m.setChunk new (am.newChunk ι slot)) am' s = chunkAt m am s := by
      refine chunkAt_congr h h' fun c => ?_
      rw [hmem]
      by_cases hc : c = new
      · subst hc
        rw [setChunk_self]
        exact iff_of_false (fun hb => hs hb.2.symm) fun hm => hnew hm.1
      · rw [setChunk_of_ne _ _ hc, or_iff_left hc]
    rw [anonAt, anonAt, hat]
    refine Option.bind_congr fun c hc => ?_
    rw [setChunk_of_ne]
    exact ne_of_mem_of_not_mem (chunkAt_mem hc).1 hnew

section SetChunk

variable (h : Inv m am) (hc : c ∈ am.chunks) {ch : Chunk ι}
  (hbase : ch.acBaseslot = (m.chunk c).acBaseslot)

include hbase

theorem setChunk_acBaseslot (d : κ) :
    ((m.setChunk c ch).chunk d).acBaseslot = (m.chunk d).acBaseslot := by
  by_cases hd : d = c
  · subst hd
    rw [setChunk_self, hbase]
  · rw [setChunk_of_ne _ _ hd]

include h hc

theorem Inv.setChunk (hok : ch.Ok am.amNslot am.amLock m.anLock) : Inv (m.setChunk c ch) am where
  nodup := h.nodup
  ok d hd := by
    by_cases hdc : d = c
    · subst hdc
      rwa [setChunk_self]
    · rw [setChunk_of_ne _ _ hdc]
      exact h.ok d hd
  inj d hd e he hde := by
    rw [setChunk_acBaseslot hbase, setChunk_acBaseslot hbase] at hde
    exact h.inj d hd e he hde
  indexed hnormal := (h.indexed hnormal).congr fun d _ => by
    rw [bucketOf, bucketOf, setChunk_acBaseslot hbase]
  ncused := h.ncused
  inTable := h.inTable

theorem Inv.anonAt_setChunk (hok : ch.Ok am.amNslot am.amLock m.anLock) (s : Nat) :
    anonAt (m.setChunk c ch) am s =
      if AMAP_BASE_SLOT s = (m.chunk c).acBaseslot then ch.acAnon (UVM_AMAP_SLOTIDX s)
      else anonAt m am s := by
  have hat : chunkAt (m.setChunk c ch) am s = chunkAt m am s :=
    chunkAt_congr h (h.setChunk hc hbase hok) fun d => by rw [setChunk_acBaseslot hbase]
  rw [anonAt, hat]
  split
  next hs =>
    rw [h.chunkAt_eq_some.mpr ⟨hc, hs.symm⟩, bind_some, setChunk_self]
  next hs =>
    refine Option.bind_congr fun d hd => ?_
    rw [setChunk_of_ne]
    rintro rfl
    exact hs (chunkAt_mem hd).2.symm

end SetChunk

section ChunkFree

variable (h : Inv m am) (c : κ)

theorem amapChunkFree_small (hsmall : am.UVM_AMAP_SMALL) : amapChunkFree m am c = am :=
  if_pos hsmall

theorem amapChunkFree_alike : am.Alike (amapChunkFree m am c) := by
  by_cases hsmall : am.UVM_AMAP_SMALL
  · rw [amapChunkFree_small c hsmall]
    rfl
  · simp only [amapChunkFree, if_neg hsmall]
    rfl

include h

theorem Inv.mem_chunkFree (hnormal : ¬am.UVM_AMAP_SMALL) (d : κ) :
    d ∈ (amapChunkFree m am c).chunks ↔ d ∈ am.chunks ∧ d ≠ c := by
  have hindexed := h.indexed hnormal
  simp only [amapChunkFree, if_neg hnormal]
  rw [chunks_normal (by exact hnormal), chunks_normal hnormal,
    hindexed.nodup.mem_erase_iff, and_comm]

theorem Inv.chunkFree (hc : c ∈ am.chunks) : Inv m (amapChunkFree m am c) := by
  by_cases hsmall : am.UVM_AMAP_SMALL
  · rwa [amapChunkFree_small c hsmall]
  have hmem := h.mem_chunkFree c hsmall
  have hindexed := (h.indexed hsmall).erase c
  have halike : am.Alike (amapChunkFree m am c) := amapChunkFree_alike c
  have hchunks : (amapChunkFree m am c).chunks = am.amChunks.erase c := by
    simp only [amapChunkFree, if_neg hsmall]
    exact chunks_normal hsmall
  refine ⟨?_, fun d hd => ?_, fun d hd e he => ?_, fun _ => ?_, fun _ => ?_, fun _ => ?_⟩
  · rw [hchunks]
    exact hindexed.nodup
  · rw [halike.amNslot, halike.amLock]
    exact h.ok d ((hmem d).mp hd).1
  · exact h.inj d ((hmem d).mp hd).1 e ((hmem e).mp he).1
  · simp only [amapChunkFree, if_neg hsmall]
    exact hindexed
  · rw [chunks_normal hsmall] at hc
    have hpos := length_pos_of_mem hc
    simp only [amapChunkFree, if_neg hsmall]
    rw [h.ncused hsmall, length_erase_of_mem hc]
    omega
  · rw [halike.amNslot, halike.amNbuckets, halike.UVM_AMAP_BUCKET]
    exact h.inTable hsmall

theorem Inv.anonAt_chunkFree (hc : c ∈ am.chunks)
    (hempty : ∀ i < UVM_AMAP_CHUNK, (m.chunk c).acAnon i = none) (s : Nat) :
    anonAt m (amapChunkFree m am c) s = anonAt m am s := by
  by_cases hsmall : am.UVM_AMAP_SMALL
  · rw [amapChunkFree_small c hsmall]
  have h' := h.chunkFree c hc
  have hmem := h.mem_chunkFree c hsmall
  by_cases hat : chunkAt m am s = some c
  · have hnone : chunkAt m (amapChunkFree m am c) s = none := by
      cases hd : chunkAt m (amapChunkFree m am c) s with
      | none => rfl
      | some d =>
        obtain ⟨hd, hbase⟩ := chunkAt_mem hd
        obtain ⟨hd, hne⟩ := (hmem d).mp hd
        exact absurd (h.inj d hd c hc (hbase.trans (chunkAt_mem hat).2.symm)) hne
    rw [anonAt, anonAt, hat, hnone, bind_some, hempty _ (UVM_AMAP_SLOTIDX_lt s)]
    rfl
  · have hsame : chunkAt m (amapChunkFree m am c) s = chunkAt m am s := by
      refine chunkAt_congr h h' fun d => ?_
      rw [hmem]
      refine ⟨fun hd => ⟨hd.1.1, hd.2⟩, fun hd => ⟨⟨hd.1, ?_⟩, hd.2⟩⟩
      rintro rfl
      exact hat (h.chunkAt_eq_some.mpr hd)
    rw [anonAt, anonAt, hsame]

end ChunkFree

end Mbsd.Uvm.UvmAmap
