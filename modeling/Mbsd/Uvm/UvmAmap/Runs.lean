import Mbsd.Uvm.UvmAmap.Wiperange

/-! The slots of an amap over whole runs. -/

namespace Mbsd.Uvm.UvmAmap

open Lib Sys List Option Function Nat Amap

variable {κ ι : Type} [DecidableEq κ] {m m' : Mem κ ι} {am am' : Amap κ} {f f' : Nat → Option ι}
  {slots : Nat} {c : κ}

section Alloc

theorem div_lt_howmany {a b d : Nat} (hd : 0 < d) (hab : a < b) : a / d < (b + (d - 1)) / d := by
  rw [Nat.div_lt_iff_lt_mul hd]
  have hmod := div_add_mod (b + (d - 1)) d
  have hlt := mod_lt (b + (d - 1)) hd
  rw [Nat.mul_comm]
  omega

def Blank (m : Mem κ ι) (am : Amap κ) : Prop := ∀ c ∈ am.chunks, ∃ b n, m.chunk c = .blank ι b n

omit [DecidableEq κ] in
theorem Blank.anonAt (h : Blank m am) (s : Nat) : anonAt m am s = none := by
  rw [UvmAmap.anonAt]
  cases hat : chunkAt m am s with
  | none => rfl
  | some c =>
    obtain ⟨b, n, hc⟩ := h c (chunkAt_mem hat).1
    rw [bind_some, hc]
    rfl

structure Chunks (pool : Nat → Option κ) (i todo : Nat) (l : List κ) : Prop where
  mem : ∀ c, c ∈ l ↔ ∃ j, i ≤ j ∧ j < i + todo ∧ pool j = some c
  all : ∀ j, i ≤ j → j < i + todo → ∃ c, pool j = some c
  nodup : l.Nodup
  length : l.length = todo

variable {pool : Nat → Option κ} (hinj : ∀ i j c, pool i = some c → pool j = some c → i = j)

include hinj

theorem allocChunks_eq {buckets todo i : Nat}
    (hs : allocChunks slots buckets pool todo i m am = some (m', am')) : ∃ l, Chunks pool i todo l ∧
      am' = { am with
        amBuckets := fun b => if i ≤ b ∧ b < i + todo then pool b else am.amBuckets b
        amNcused := am.amNcused + todo, amChunks := am.amChunks ++ l } ∧
      m'.anLock = m.anLock ∧ m'.held = m.held ∧ (∀ c, c ∉ l → m'.chunk c = m.chunk c) ∧
      ∀ j c, i ≤ j → j < i + todo → pool j = some c →
        m'.chunk c = .blank ι (j * UVM_AMAP_CHUNK) (if j = buckets - 1 then
          if slots % UVM_AMAP_CHUNK = 0 then UVM_AMAP_CHUNK else slots % UVM_AMAP_CHUNK
          else UVM_AMAP_CHUNK) := by
  induction todo generalizing i m am with
  | zero =>
    cases hs
    refine ⟨[], ⟨fun c => ?_, fun j h1 h2 => by omega, nodup_nil, rfl⟩, ?_, rfl, rfl,
      fun _ _ => rfl, fun j _ h1 h2 => by omega⟩
    · refine iff_of_false not_mem_nil ?_
      rintro ⟨j, h1, h2, -⟩
      omega
    · have hnone (b : Nat) : ¬(i ≤ b ∧ b < i) := by omega
      simp only [Nat.add_zero, hnone, if_false, Int.natCast_zero, Int.add_zero, append_nil]
  | succ todo ih =>
    rw [allocChunks] at hs
    obtain ⟨chunk, hchunk, hs⟩ := bind_eq_some_iff.mp hs
    obtain ⟨l, hl, ham, hlock, hheld, hother, hblank⟩ := ih hs
    have hout : chunk ∉ l := fun hm => by
      obtain ⟨j, hj, -, hpool⟩ := (hl.mem chunk).mp hm
      have := hinj i j chunk hchunk hpool
      omega
    refine ⟨chunk :: l, ⟨fun c => ?_, fun j h1 h2 => ?_, nodup_cons.mpr ⟨hout, hl.nodup⟩,
      by rw [length_cons, hl.length]⟩, ?_, hlock, hheld, fun c hc => ?_, fun j c h1 h2 hj => ?_⟩
    · rw [mem_cons, hl.mem]
      constructor
      · rintro (rfl | ⟨j, h1, h2, hj⟩)
        · exact ⟨i, Nat.le_refl i, by omega, hchunk⟩
        · exact ⟨j, by omega, by omega, hj⟩
      · rintro ⟨j, h1, h2, hj⟩
        by_cases hji : j = i
        · subst hji
          exact .inl (some.inj (hj.symm.trans hchunk))
        · exact .inr ⟨j, by omega, by omega, hj⟩
    · by_cases hji : j = i
      · exact ⟨chunk, hji ▸ hchunk⟩
      · exact hl.all j (by omega) (by omega)
    · rw [ham]
      simp only [mk.injEq, append_assoc, singleton_append, true_and, and_true]
      refine ⟨funext fun b => ?_, by omega⟩
      by_cases hbi : b = i
      · subst hbi
        rw [if_neg (by omega), if_pos (by omega), update_self, hchunk]
      · rw [update_of_ne hbi]
        exact if_congr (by omega) rfl rfl
    · obtain ⟨hne, hc⟩ := not_or.mp (mt mem_cons.mpr hc)
      rw [hother c hc, Mem.setChunk_of_ne _ _ hne]
    · by_cases hji : j = i
      · subst hji
        rw [hchunk] at hj
        cases hj
        rw [hother _ hout, Mem.setChunk_self]
      · exact hblank j c (by omega) (by omega) hj

theorem Inv.allocChunks (hnormal : ¬am.UVM_AMAP_SMALL) (hchunks : am.amChunks = [])
    (hncused : am.amNcused = 0) (hshift : am.amHashshift = 0)
    (hnbuckets : am.amNbuckets = (am.amNslot + (UVM_AMAP_CHUNK - 1)) / UVM_AMAP_CHUNK)
    (hs : allocChunks am.amNslot am.amNbuckets pool am.amNbuckets 0 m am = some (m', am')) :
    Inv m' am' ∧ Blank m' am' ∧ am.Alike am' ∧ am'.amNused = am.amNused ∧
      m'.anLock = m.anLock ∧ m'.held = m.held := by
  obtain ⟨l, hl, ham, hlock, hheld, -, hblank⟩ := allocChunks_eq hinj hs
  have hchunks' : am'.chunks = l := by
    rw [ham, chunks_normal (by exact hnormal), hchunks, nil_append]
  have hplace {c : κ} (hc : c ∈ l) : ∃ j n, j < am.amNbuckets ∧ pool j = some c ∧
      m'.chunk c = .blank ι (j * UVM_AMAP_CHUNK) n ∧
      n = min UVM_AMAP_CHUNK (am.amNslot - j * UVM_AMAP_CHUNK) := by
    obtain ⟨j, h1, h2, hj⟩ := (hl.mem c).mp hc
    refine ⟨j, _, by omega, hj, hblank j c h1 h2 hj, ?_⟩
    rw [hnbuckets, UVM_AMAP_CHUNK] at *
    split
    · split <;> omega
    · omega
  have hbucket {j : Nat} {c : κ} (hj : j < am.amNbuckets) (hc : pool j = some c) :
      m'.bucketOf am' c = j := by
    rw [Mem.bucketOf, hblank j c (Nat.zero_le j) (by omega) hc, ham, UVM_AMAP_BUCKET,
      hshift, shiftRight_zero]
    exact Nat.mul_div_cancel j (by decide)
  have hinj' {c d : κ} (hc : c ∈ l) (hd : d ∈ l) (hcd : m'.bucketOf am' c = m'.bucketOf am' d) :
      c = d := by
    obtain ⟨j, -, hj, hpj, -⟩ := hplace hc
    obtain ⟨k, -, hk, hpk, -⟩ := hplace hd
    rw [hbucket hj hpj, hbucket hk hpk] at hcd
    rw [hcd] at hpj
    exact some.inj (hpj.symm.trans hpk)
  have hindexed : Indexed (m'.bucketOf am') l (fun b =>
      if 0 ≤ b ∧ b < 0 + am.amNbuckets then pool b else am.amBuckets b) (· < am.amNbuckets) := by
    refine ⟨.of_inj (fun c hc d hd => hinj' hc hd) hl.nodup, hl.nodup, fun b hb => ?_⟩
    obtain ⟨c, hc⟩ := hl.all b (Nat.zero_le b) (by omega)
    have hcl : c ∈ l := (hl.mem c).mpr ⟨b, Nat.zero_le b, by omega, hc⟩
    rw [if_pos ⟨Nat.zero_le b, by omega⟩, hc]
    cases hfirst : (l.filter (m'.bucketOf am' · = b)).head? with
    | none =>
      rw [head?_eq_none_iff, filter_eq_nil_iff] at hfirst
      exact absurd (decide_eq_true (hbucket hb hc)) (hfirst c hcl)
    | some d =>
      obtain ⟨hd, hdb⟩ := mem_filter.mp (mem_of_mem_head? hfirst)
      rw [hinj' hcl hd ((hbucket hb hc).trans (of_decide_eq_true hdb).symm)]
  have halike : am.Alike am' := by rw [ham]; rfl
  have hlist : am'.amChunks = l := by rw [ham, hchunks, nil_append]
  have hbuckets : am'.amBuckets = fun b =>
      if 0 ≤ b ∧ b < 0 + am.amNbuckets then pool b else am.amBuckets b := by rw [ham]
  refine ⟨⟨hchunks' ▸ hl.nodup, fun c hc => ?_, fun c hc d hd hcd => ?_, fun _ => ?_, fun _ => ?_,
    fun _ slot hslot => ?_⟩, fun c hc => ?_, halike, by rw [ham], hlock, hheld⟩
  · rw [hchunks'] at hc
    obtain ⟨j, n, hj, -, hchunk, hn⟩ := hplace hc
    have hlt : j * UVM_AMAP_CHUNK < am.amNslot := by
      rw [hnbuckets, UVM_AMAP_CHUNK] at hj
      rw [UVM_AMAP_CHUNK]
      omega
    rw [hchunk, halike.amNslot]
    refine ⟨?_, hlt, hn, fun i _ => by simp [Chunk.blank], fun _ _ _ hx => by cases hx⟩
    rw [Chunk.blank, AMAP_BASE_SLOT, Nat.mul_div_cancel _ (by decide)]
  · rw [hchunks'] at hc hd
    refine hinj' hc hd ?_
    rw [Mem.bucketOf, Mem.bucketOf, hcd]
  · rw [hlist, hbuckets, halike.amNbuckets]
    exact hindexed
  · rw [hlist, hl.length, ham]
    rw [hncused, Int.zero_add]
  · rw [halike.amNslot] at hslot
    rw [halike.amNbuckets, halike.UVM_AMAP_BUCKET, UVM_AMAP_BUCKET, hshift,
      shiftRight_zero, hnbuckets, UVM_AMAP_CHUNK]
    omega
  · rw [hchunks'] at hc
    obtain ⟨j, n, -, -, hchunk, -⟩ := hplace hc
    exact ⟨_, n, hchunk⟩

omit hinj [DecidableEq κ] in
theorem Inv.setLock (h : Inv m am) (hblank : Blank m am) (lock : Option Lock) :
    Inv m { am with amLock := lock } := by
  refine ⟨h.nodup, fun c hc => ?_, h.inj, h.indexed, h.ncused, h.inTable⟩
  have hok := h.ok c hc
  refine ⟨hok.base, hok.lt, hok.acNslot, hok.used, fun i _ a ha => ?_⟩
  obtain ⟨b, n, hchunk⟩ := hblank c hc
  rw [hchunk] at ha
  cases ha

omit hinj [DecidableEq κ] in
theorem Inv.empty (hnormal : ¬am.UVM_AMAP_SMALL) (hchunks : am.amChunks = [])
    (hncused : am.amNcused = 0) (hbuckets : ∀ b, am.amBuckets b = none)
    (hin : ∀ slot < am.amNslot, am.UVM_AMAP_BUCKET slot < am.amNbuckets) :
    Inv m am ∧ Blank m am := by
  have hnone (c : κ) : c ∉ am.chunks := fun hc => by
    rw [chunks_normal hnormal, hchunks] at hc
    cases hc
  refine ⟨⟨?_, fun c hc => absurd hc (hnone c), fun c hc => absurd hc (hnone c), fun _ => ?_,
    fun _ => ?_, fun _ => hin⟩, fun c hc => absurd hc (hnone c)⟩
  · rw [chunks_normal hnormal, hchunks]
    exact nodup_nil
  · rw [hchunks]
    exact ⟨.nil, nodup_nil, fun b _ => hbuckets b⟩
  · rw [hncused, hchunks]
    rfl

theorem amapAlloc1_inv {supply : Supply κ} (hsupply : supply.chunk = pool) {lazyalloc : Bool}
    (hs : amapAlloc1 m slots lazyalloc supply = some (m', some am)) :
    Inv m' am ∧ Blank m' am ∧ am.amNslot = slots ∧ am.amNused = 0 ∧ am.amRef = 1 ∧
      m'.anLock = m.anLock ∧ m'.held = m.held := by
  rw [amapAlloc1] at hs
  simp only [bind_eq_bind, bind_eq_some_iff] at hs
  obtain ⟨_, hpos, hs⟩ := hs
  replace hpos := of_kassert hpos
  split at hs
  next => cases hs
  next amSmall _ =>
  split at hs
  next hsmall =>
    cases hs
    refine ⟨⟨?_, fun c hc => ?_, fun c hc d hd _ => ?_, fun h => absurd hsmall h,
      fun h => absurd hsmall h, fun h => absurd hsmall h⟩, fun c hc => ?_, rfl, rfl, rfl, rfl, rfl⟩
    · rw [chunks_small (by exact hsmall)]
      exact nodup_singleton _
    · rw [chunks_small (by exact hsmall), mem_singleton] at hc
      subst hc
      rw [Mem.setChunk_self]
      refine ⟨by simp [Chunk.blank, AMAP_BASE_SLOT], hpos, ?_, fun i _ => by simp [Chunk.blank],
        fun _ _ _ hx => by cases hx⟩
      simp only [Chunk.blank, UVM_AMAP_CHUNK] at *
      omega
    · rw [chunks_small (by exact hsmall), mem_singleton] at hc hd
      rw [hc, hd]
    · rw [chunks_small (by exact hsmall), mem_singleton] at hc
      subst hc
      exact ⟨0, slots, Mem.setChunk_self ..⟩
  next hnormal =>
    split at hs
    next => cases hs
    next table _ =>
    cases lazyalloc with
    | true =>
      simp only [if_true, some.injEq, Prod.mk.injEq] at hs
      obtain ⟨rfl, rfl⟩ := hs
      rw [← and_assoc]
      refine ⟨Inv.empty hnormal rfl rfl (fun _ => rfl) fun slot hslot => ?_, rfl, rfl, rfl, rfl,
        rfl⟩
      rw [UVM_AMAP_BUCKET, shiftRight_eq_div_pow, one_shiftLeft]
      refine div_lt_howmany (Nat.two_pow_pos _) ?_
      simp only [UVM_AMAP_CHUNK] at *
      omega
    | false =>
      simp only [Bool.false_eq_true, if_false] at hs
      split at hs
      next => cases hs
      next halloc =>
        cases hs
        rw [hsupply] at halloc
        have hcount : ((slots + (UVM_AMAP_CHUNK - 1)) / UVM_AMAP_CHUNK + (1 <<< 0 - 1)) / 1 <<< 0 =
            (slots + (UVM_AMAP_CHUNK - 1)) / UVM_AMAP_CHUNK := by simp
        rw [hcount] at halloc
        let am₀ : Amap κ := ⟨none, 1, false, false, slots, 0, .null, table, [],
          (slots + (UVM_AMAP_CHUNK - 1)) / UVM_AMAP_CHUNK, 0, 0, amSmall⟩
        obtain ⟨hinv, hblank, halike, hnused, hlock, hheld⟩ :=
          Inv.allocChunks (m := m) hinj (show ¬am₀.UVM_AMAP_SMALL from hnormal) rfl rfl rfl rfl
            halloc
        exact ⟨hinv, hblank, halike.amNslot, hnused, by rw [halike], hlock, hheld⟩

theorem amapAlloc_inv {pageShift sz : Nat} {supply : Supply κ} (hsupply : supply.chunk = pool)
    {lazyalloc : Bool} {lock : Lock}
    (hs : amapAlloc pageShift m sz lazyalloc supply lock = some (m', some am)) :
    Inv m' am ∧ am.amNslot ≤ INT_MAX ∧ ∀ s, anonAt m' am s = none := by
  rw [amapAlloc] at hs
  obtain ⟨slots, -, hs⟩ := bind_eq_some_iff.mp hs
  split at hs
  next => cases hs
  next hmax =>
    obtain ⟨⟨m₁, am₁⟩, halloc, hs⟩ := bind_eq_some_iff.mp hs
    simp only [some.injEq, Prod.mk.injEq, map_eq_some_iff] at hs
    obtain ⟨rfl, am₁, rfl, rfl⟩ := hs
    obtain ⟨hinv, hblank, hnslot, -⟩ := amapAlloc1_inv hinj hsupply halloc
    have hsame : Blank m₁ { am₁ with amLock := some lock } := hblank
    refine ⟨hinv.setLock hblank _, ?_, hsame.anonAt⟩
    dsimp only
    omega

end Alloc

variable [DecidableEq ι]

/-- `other` is what happens elsewhere: to other amaps, to anons that are not in this amap, to locks
and to the references of this amap. -/
inductive Op (κ ι : Type)
  | populate (pageoff offset : Nat) (pool : Option κ)
  | add (pageoff offset : Nat) (anon : ι) (replace : Bool) (pool : Option κ)
  | unadd (pageoff offset : Nat)
  | wiperange (slotoff slots : Nat)
  | chunkGet (slot : Nat) (create : Bool) (pool : Option κ)
  | chunkFree (chunk : κ)
  | other (m : Mem κ ι) (am : Amap κ)

def Op.step (pageShift : Nat) (m : Mem κ ι) (am : Amap κ) (f : Nat → Option ι) :
    Op κ ι → Option (Mem κ ι × Amap κ × (Nat → Option ι))
  | .populate pageoff offset pool =>
    (amapPopulate pageShift m am pageoff offset pool).map fun r => (r.1, r.2, f)
  | .add pageoff offset anon replace pool =>
    (amapAdd pageShift m am pageoff offset anon replace pool).map fun r => (r.1, r.2.1,
      if r.2.2 = 0 then Function.update f (offset >>> pageShift + pageoff) (some anon) else f)
  | .unadd pageoff offset =>
    (amapUnadd pageShift m am pageoff offset).map fun r => (r.1, r.2,
      Function.update f (offset >>> pageShift + pageoff) none)
  | .wiperange slotoff slots =>
    (amapWiperange slotoff slots m am).map fun r => (r.1, r.2,
      fun s => if slotoff ≤ s ∧ s < slotoff + slots then none else f s)
  | .chunkGet slot create pool =>
    (amapChunkGet m am slot create pool).map fun r => (r.1, r.2.1, f)
  | .chunkFree chunk => some (m, amapChunkFree m am chunk, f)
  | .other m am => some (m, am, f)

def Unused (am : Amap κ) (pool : Option κ) : Prop := ∀ c, pool = some c → c ∉ am.chunks

def Op.Allowed (m : Mem κ ι) (am : Amap κ) : Op κ ι → Prop
  | .populate _ _ pool => Unused am pool
  | .add _ _ anon _ pool => Unused am pool ∧ m.anLock anon = am.amLock
  | .unadd _ _ => True
  | .wiperange slotoff slots => slotoff < am.amNslot ∧ slotoff + slots ≤ am.amNslot
  | .chunkGet slot _ pool => slot < am.amNslot ∧ Unused am pool
  | .chunkFree chunk => chunk ∈ am.chunks ∧ (m.chunk chunk).acUsedmap = 0
  | .other m' am' => (∀ c ∈ am.chunks, m'.chunk c = m.chunk c) ∧
    (∀ s a, anonAt m am s = some a → m'.anLock a = m.anLock a) ∧
    am' = { am with
      amRef := am'.amRef, shared := am'.shared, swapoff := am'.swapoff, amPpref := am'.amPpref }

inductive Reach (pageShift : Nat) : Mem κ ι → Amap κ → (Nat → Option ι) → Prop
  | alloc {m m' : Mem κ ι} {am : Amap κ} {sz : Nat} {lazyalloc : Bool} {pool : Supply κ}
      {lock : Lock} (hinj : ∀ i j c, pool.chunk i = some c → pool.chunk j = some c → i = j)
      (hs : amapAlloc pageShift m sz lazyalloc pool lock = some (m', some am)) :
      Reach pageShift m' am fun _ => none
  | step {m m' : Mem κ ι} {am am' : Amap κ} {f f' : Nat → Option ι} {o : Op κ ι}
      (h : Reach pageShift m am f) (hallowed : o.Allowed m am)
      (hs : o.step pageShift m am f = some (m', am', f')) : Reach pageShift m' am' f'

theorem AMAP_B2SLOT_some {pageShift offset k : Nat} (h : AMAP_B2SLOT pageShift offset = some k) :
    k = offset >>> pageShift := by
  obtain ⟨_, -, h⟩ := bind_eq_some_iff.mp h
  exact (some.inj h).symm

omit [DecidableEq κ] [DecidableEq ι] in
theorem Inv.other (h : Inv m am) (hchunk : ∀ c ∈ am.chunks, m'.chunk c = m.chunk c)
    (hlock : ∀ s a, anonAt m am s = some a → m'.anLock a = m.anLock a) (ham : am' = { am with
      amRef := am'.amRef, shared := am'.shared, swapoff := am'.swapoff, amPpref := am'.amPpref }) :
    Inv m' am' ∧ ∀ s, anonAt m' am' s = anonAt m am s := by
  generalize am'.amRef = r, am'.shared = b, am'.swapoff = w, am'.amPpref = p at ham
  subst ham
  have hinv : Inv m' { am with amRef := r, shared := b, swapoff := w, amPpref := p } := by
    refine ⟨h.nodup, fun c hc => ?_, fun c hc d hd hcd => ?_, fun hnormal => ?_, h.ncused,
      h.inTable⟩
    · have hok := h.ok c hc
      rw [hchunk c hc]
      refine ⟨hok.base, hok.lt, hok.acNslot, hok.used, fun i hi a ha => ?_⟩
      obtain ⟨hbase, hidx⟩ := h.slot_of_chunk hc hi
      refine (hlock ((m.chunk c).acBaseslot + i) a ?_).trans (hok.locked i hi a ha)
      rw [h.anonAt_mem hc hbase, hidx, ha]
    · rw [hchunk c hc, hchunk d hd] at hcd
      exact h.inj c hc d hd hcd
    · refine (h.indexed hnormal).congr fun c hc => ?_
      rw [Mem.bucketOf, Mem.bucketOf, hchunk c (chunks_normal hnormal ▸ hc)]
      rfl
  refine ⟨hinv, fun s => ?_⟩
  have hat : chunkAt m' { am with amRef := r, shared := b, swapoff := w, amPpref := p } s =
      chunkAt m am s :=
    chunkAt_congr h hinv fun c => and_congr_right fun hc => by rw [hchunk c hc]
  rw [anonAt, anonAt, hat]
  exact Option.bind_congr fun c hc => by rw [hchunk c (chunkAt_mem hc).1]

theorem Reach.inv {pageShift : Nat} (h : Reach pageShift m am f) :
    Inv m am ∧ am.amNslot ≤ INT_MAX ∧ anonAt m am = f := by
  induction h with
  | alloc hinj hs =>
    obtain ⟨hinv, hmax, hnone⟩ := amapAlloc_inv hinj rfl hs
    exact ⟨hinv, hmax, funext hnone⟩
  | @step m m' am am' f f' o _ hallowed hs ih =>
    obtain ⟨hinv, hmax, rfl⟩ := ih
    have hdone {g : Nat → Option ι} (h : Leaves m am m' am' g) :
        Inv m' am' ∧ am'.amNslot ≤ INT_MAX ∧ anonAt m' am' = g :=
      ⟨h.inv, by rwa [h.alike.amNslot], funext h.slots⟩
    cases o with
    | populate pageoff offset pool =>
      obtain ⟨_, hop, heq⟩ := map_eq_some_iff.mp hs
      cases heq
      obtain ⟨k, hk, -⟩ := bind_eq_some_iff.mp hop
      exact hdone (hinv.amapPopulate hk hallowed hop)
    | add pageoff offset anon replace pool =>
      obtain ⟨_, hop, heq⟩ := map_eq_some_iff.mp hs
      cases heq
      obtain ⟨k, hk, -⟩ := bind_eq_some_iff.mp hop
      have hleaves := hinv.amapAdd hk hallowed.1 hallowed.2 hop
      rw [AMAP_B2SLOT_some hk] at hleaves
      exact hdone hleaves
    | unadd pageoff offset =>
      obtain ⟨_, hop, heq⟩ := map_eq_some_iff.mp hs
      cases heq
      obtain ⟨_, -, hop'⟩ := bind_eq_some_iff.mp hop
      obtain ⟨k, hk, -⟩ := bind_eq_some_iff.mp hop'
      have hleaves := hinv.amapUnadd hk hop
      rw [AMAP_B2SLOT_some hk] at hleaves
      exact hdone hleaves
    | wiperange slotoff slots =>
      obtain ⟨⟨m₁, am₁⟩, hop, heq⟩ := map_eq_some_iff.mp hs
      cases heq
      obtain ⟨_, hheld, -⟩ := bind_eq_some_iff.mp hop
      obtain ⟨_, _, hwipe, hleaves⟩ :=
        hinv.amapWiperange (of_kassert hheld) hallowed.1 hallowed.2
      rw [hop] at hwipe
      cases hwipe
      exact hdone hleaves
    | chunkGet slot create pool =>
      obtain ⟨⟨m₁, am₁, r⟩, hop, heq⟩ := map_eq_some_iff.mp hs
      cases heq
      cases create with
      | false =>
        rw [hinv.chunkGet hallowed.1] at hop
        cases hop
        exact hdone hinv.leaves
      | true => exact hdone (hinv.chunkGet_create hallowed.1 hallowed.2 hop).1
    | chunkFree chunk =>
      cases hs
      have hleaves := hinv.leaves.freeUnused hallowed.1
      rw [if_pos hallowed.2] at hleaves
      exact hdone hleaves
    | other m₁ am₁ =>
      cases hs
      obtain ⟨hchunk, hlock, ham⟩ := hallowed
      obtain ⟨hinv', hsame⟩ := hinv.other hchunk hlock ham
      exact ⟨hinv', by rw [ham]; exact hmax, funext hsame⟩

/-- The slots of every amap are those of an array: of the functions that read or clear them, only
`amap_lookups` fails, and that when it comes to the last chunk that an `int` can count to. -/
theorem amap_slots {pageShift : Nat} (h : Reach pageShift m am f) : (¬am.UVM_AMAP_SMALL →
      (∀ b, am.amChunks.filter (m.bucketOf am · = b) <:+: am.amChunks) ∧
      (∀ b < am.amNbuckets, am.amBuckets b = (am.amChunks.filter (m.bucketOf am · = b)).head?) ∧
      (am.amChunks.map fun c => (m.chunk c).acBaseslot).Nodup ∧
      am.amNcused = am.amChunks.length) ∧
    (∀ pageoff offset k, AMAP_B2SLOT pageShift offset = some k → k + pageoff < am.amNslot →
      amapLookup pageShift m am pageoff offset = some (f (k + pageoff))) ∧
    (∀ pageoff offset npages k, AMAP_B2SLOT pageShift offset = some k →
      k + pageoff + npages ≤ am.amNslot → (amapLookups pageShift m am pageoff offset npages =
          some ((List.range' (k + pageoff) npages).map f) ↔
        npages = 0 ∨ k + pageoff + npages ≤ AMAP_BASE_SLOT INT_MAX)) ∧
    ∀ slotoff slots, m.writeHeld am = true → slotoff < am.amNslot → slotoff + slots ≤ am.amNslot →
      ∃ m' am', amapWiperange slotoff slots m am = some (m', am') ∧
        ∀ s, anonAt m' am' s = if slotoff ≤ s ∧ s < slotoff + slots then none else f s := by
  obtain ⟨hinv, hmax, rfl⟩ := h.inv
  refine ⟨fun hnormal => ?_, fun pageoff offset k hk hslot => hinv.amapLookup hk hslot,
    fun pageoff offset npages k hk hin => ?_, fun slotoff slots hheld hoff hin => ?_⟩
  · have hindexed := hinv.indexed hnormal
    refine ⟨fun b => hindexed.grouped.isInfix b, hindexed.first_eq, ?_, hinv.ncused hnormal⟩
    refine Nodup.map_on (fun c hc d hd hcd => ?_) hindexed.nodup
    rw [← chunks_normal hnormal] at hc hd
    exact hinv.inj c hc d hd hcd
  · rw [hinv.amapLookups hmax hk hin]
    split
    next hcond => exact iff_of_true rfl hcond
    next hcond => exact iff_of_false nofun hcond
  · obtain ⟨m', am', hwipe, hleaves⟩ := hinv.amapWiperange hheld hoff hin
    exact ⟨m', am', hwipe, hleaves.slots⟩

section Run

def unusedMem : Mem Nat Unit :=
  ⟨fun _ => .blank Unit 0 0, fun _ => 1, fun _ => some 7, fun _ => true, []⟩

def unusedPool : Supply Nat := ⟨some 0, some fun _ => none, fun i => some (i + 1)⟩

theorem unusedPool_inj (i j c : Nat) (hi : unusedPool.chunk i = some c)
    (hj : unusedPool.chunk j = some c) : i = j := by
  simp only [unusedPool, some.injEq] at hi hj
  omega

def twoChunksMem : Mem Nat Unit :=
  (unusedMem.setChunk 1 (.blank Unit 0 16)).setChunk 2 (.blank Unit 16 16)

def twoChunks : Amap Nat where
  amLock := some 7
  amRef := 1
  shared := false
  swapoff := false
  amNslot := 32
  amNused := 0
  amPpref := .null
  amBuckets := Function.update (Function.update (fun _ => none) 0 (some 1)) 1 (some 2)
  amChunks := [1, 2]
  amNbuckets := 2
  amNcused := 2
  amHashshift := 0
  amSmall := 0

/-- A slot of an amap with two chunks is set and cleared again. -/
theorem amap_slots_run : ∃ (m : Mem Nat Unit) (am : Amap Nat),
      Reach 12 m am (Function.update (fun _ => none) 17 (some ())) ∧
      amapLookup 12 m am 1 65536 = some (some ()) ∧
      amapLookups 12 m am 0 61440 3 = some [none, none, some ()] ∧
      ∃ m' am', amapWiperange 16 16 m am = some (m', am') ∧ ∀ s, anonAt m' am' s = none := by
  have halloc : amapAlloc 12 unusedMem 131072 false unusedPool 7 =
      some (twoChunksMem, some twoChunks) := rfl
  have hadd : (Op.add 17 0 () false none).step 12 twoChunksMem twoChunks (fun _ => none) =
      some (twoChunksMem.setChunk 2 { twoChunksMem.chunk 2 with
          acUsedmap := 2, acAnon := update (fun _ => none) 1 (some ()) },
        { twoChunks with amNused := 1 }, update (fun _ => none) 17 (some ())) := rfl
  have hreach := (Reach.alloc unusedPool_inj halloc).step
    (o := .add 17 0 () false none) ⟨nofun, rfl⟩ hadd
  obtain ⟨-, hlookup, hlookups, hwipe⟩ := amap_slots hreach
  refine ⟨_, _, hreach, hlookup 1 65536 16 rfl (by decide),
    (hlookups 0 61440 3 15 rfl (by decide)).mpr (by decide), ?_⟩
  obtain ⟨m', am', hwipe, hslots⟩ := hwipe 16 16 rfl (by decide) (by decide)
  refine ⟨m', am', hwipe, fun s => (hslots s).trans ?_⟩
  by_cases hs : s = 17
  · rw [hs, if_pos (by decide)]
  · split
    · rfl
    · exact update_of_ne hs ..

/-- The last slots of the largest amap: `lcv + n` is beyond an `int`. -/
theorem amap_slots_overflow :
    ∃ (m : Mem Nat Unit) (am : Amap Nat), Reach 12 m am (fun _ => none) ∧ am.amNslot = INT_MAX ∧
      amapLookups 12 m am 0 ((INT_MAX - 1) <<< 12) 1 = none := by
  obtain ⟨am, halloc, hnslot⟩ : ∃ am, amapAlloc 12 unusedMem (INT_MAX <<< 12) true unusedPool 7 =
      some (unusedMem, some am) ∧ am.amNslot = INT_MAX := ⟨_, rfl, rfl⟩
  have hreach : Reach 12 unusedMem am fun _ => none := .alloc unusedPool_inj halloc
  obtain ⟨hinv, hmax, -⟩ := hreach.inv
  refine ⟨unusedMem, am, hreach, hnslot, ?_⟩
  rw [hinv.amapLookups hmax (k := INT_MAX - 1) rfl (by rw [hnslot]; decide), if_neg (by decide)]

end Run

end Mbsd.Uvm.UvmAmap
