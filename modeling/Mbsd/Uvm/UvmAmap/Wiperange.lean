import Mbsd.Uvm.UvmAmap.Slots

/-! `amap_wiperange` takes the anons out of the slots of its range, whichever walk it takes. -/

namespace Mbsd.Uvm.UvmAmap

open Lib Sys List Option Function

variable {κ ι : Type} {m m' m'' : Mem κ ι} {am am' am'' : Amap κ} {slot off n : Nat} {c d : κ}

theorem Inv.anonAt_mem (h : Inv m am) (hc : c ∈ am.chunks) {s : Nat}
    (hs : AMAP_BASE_SLOT s = (m.chunk c).acBaseslot) :
    anonAt m am s = (m.chunk c).acAnon (UVM_AMAP_SLOTIDX s) := by
  rw [anonAt, h.chunkAt_eq_some.mpr ⟨hc, hs.symm⟩, bind_some]

theorem getLsbD_mask {k : Nat} (hk : k ≤ UVM_AMAP_CHUNK) (i : Nat) :
    (1#32 <<< k - 1#32).getLsbD i = decide (i < k) := by
  have hones : ∀ k : Fin 17, 1#32 <<< k.val - 1#32 = BitVec.ofNat 32 (2 ^ k.val - 1) := by decide
  simp only [UVM_AMAP_CHUNK] at hk
  rw [hones ⟨k, by omega⟩, BitVec.getLsbD_ofNat, Nat.testBit_two_pow_sub_one,
    Bool.and_eq_right_iff_imp]
  simp only [decide_eq_true_eq]
  omega

theorem getLsbD_wipeMap {base : Nat} {u : BitVec 16} (hbase : AMAP_BASE_SLOT base = base)
    (hlo : off < base + UVM_AMAP_CHUNK) (hhi : base < off + n ∨ base = 0) (i : Nat) :
    (wipeMap off n base u).getLsbD i =
      (u.getLsbD i && decide (off ≤ base + i ∧ base + i < off + n)) := by
  have hlow : (if AMAP_BASE_SLOT off = base then
      u.setWidth 32 &&& ~~~(1#32 <<< (off - AMAP_BASE_SLOT off) - 1#32)
      else u.setWidth 32).getLsbD i = (u.getLsbD i && decide (off ≤ base + i)) := by
    have hoff : off - AMAP_BASE_SLOT off ≤ UVM_AMAP_CHUNK := by
      simp only [AMAP_BASE_SLOT, UVM_AMAP_CHUNK]
      omega
    cases hu : u.getLsbD i with
    | false => split <;> simp [hu]
    | true =>
      have hi := BitVec.lt_of_getLsbD hu
      by_cases hstart : AMAP_BASE_SLOT off = base
      · rw [if_pos hstart, BitVec.getLsbD_and, BitVec.getLsbD_not, getLsbD_mask hoff,
          BitVec.getLsbD_setWidth, hu, Bool.eq_iff_iff]
        simp only [Bool.and_eq_true, Bool.not_eq_true', decide_eq_true_eq,
          decide_eq_false_iff_not, true_and, and_true]
        simp only [AMAP_BASE_SLOT, UVM_AMAP_CHUNK] at *
        omega
      · rw [if_neg hstart, BitVec.getLsbD_setWidth, hu, Bool.eq_iff_iff]
        simp only [Bool.and_eq_true, decide_eq_true_eq, true_and, and_true]
        simp only [AMAP_BASE_SLOT, UVM_AMAP_CHUNK] at *
        omega
  rw [wipeMap]
  cases hu : u.getLsbD i with
  | false =>
    rw [hu, Bool.false_and] at hlow
    split
    · rw [BitVec.getLsbD_and, hlow, Bool.false_and, Bool.false_and]
    · rw [hlow, Bool.false_and]
  | true =>
    have hi := BitVec.lt_of_getLsbD hu
    rw [hu] at hlow
    by_cases hend : AMAP_BASE_SLOT (off + n - 1) = base
    · have hoff : off + n - AMAP_BASE_SLOT (off + n - 1) ≤ UVM_AMAP_CHUNK := by
        simp only [AMAP_BASE_SLOT, UVM_AMAP_CHUNK]
        omega
      rw [if_pos hend, BitVec.getLsbD_and, hlow, getLsbD_mask hoff, Bool.eq_iff_iff]
      simp only [Bool.and_eq_true, decide_eq_true_eq, true_and]
      simp only [AMAP_BASE_SLOT, UVM_AMAP_CHUNK] at *
      omega
    · rw [if_neg hend, hlow, Bool.true_and, Bool.true_and, decide_eq_decide]
      simp only [AMAP_BASE_SLOT, UVM_AMAP_CHUNK] at *
      omega

variable [DecidableEq κ] [DecidableEq ι]

theorem getLsbD_xor_bit {used : BitVec 16} {i : Nat} (hi : i < UVM_AMAP_CHUNK)
    (hused : used.getLsbD i = true) (j : Nat) :
    (used ^^^ 1#16 <<< i).getLsbD j = if j = i then false else used.getLsbD j := by
  rw [BitVec.getLsbD_xor, getLsbD_bit _ _ hi]
  split
  next hji => simp [hji, hused]
  next hji => simp [hji]

structure OnlyChunk (c : κ) (m : Mem κ ι) (am : Amap κ) (m' : Mem κ ι) (am' : Amap κ) : Prop where
  chunks : am'.chunks = am.chunks
  other : ∀ d, d ≠ c → m'.chunk d = m.chunk d
  acBaseslot : (m'.chunk c).acBaseslot = (m.chunk c).acBaseslot

omit [DecidableEq κ] [DecidableEq ι] in
theorem OnlyChunk.trans (h : OnlyChunk c m am m' am') (h' : OnlyChunk c m' am' m'' am'') :
    OnlyChunk c m am m'' am'' :=
  ⟨h'.chunks.trans h.chunks, fun d hd => (h'.other d hd).trans (h.other d hd),
    h'.acBaseslot.trans h.acBaseslot⟩

section Slot

variable {i : Nat} (h : Inv m am) (hc : c ∈ am.chunks) (hi : i < UVM_AMAP_CHUNK)

include h hc hi

omit [DecidableEq κ] [DecidableEq ι] in
theorem Inv.slot_of_chunk : AMAP_BASE_SLOT ((m.chunk c).acBaseslot + i) = (m.chunk c).acBaseslot ∧
      UVM_AMAP_SLOTIDX ((m.chunk c).acBaseslot + i) = i := by
  have hbase := (h.ok c hc).base
  simp only [AMAP_BASE_SLOT, UVM_AMAP_SLOTIDX, UVM_AMAP_CHUNK] at hbase hi ⊢
  omega

theorem Inv.wipeSlot {anon : ι} (hanon : (m.chunk c).acAnon i = some anon) :
    ∃ m' am', wipeSlot c i m am = some (m', am') ∧
      Leaves m am m' am' (update (anonAt m am) ((m.chunk c).acBaseslot + i) none) ∧
      OnlyChunk c m am m' am' ∧ ∀ j, j ≠ i → (m'.chunk c).acAnon j = (m.chunk c).acAnon j := by
  have hok := h.ok c hc
  obtain ⟨hbase, hidx⟩ := h.slot_of_chunk hc hi
  have hused : (m.chunk c).acUsedmap.getLsbD i = true := by
    rw [hok.used i hi, hanon, isSome_some]
  have hset := h.set (a := none) (u := (m.chunk c).acUsedmap ^^^ 1#16 <<< i) hc hbase.symm
    (fun j _ => by rw [hidx, getLsbD_xor_bit hi hused, isSome_none]) nofun
  rw [hidx] at hset
  let ch : Chunk ι := { m.chunk c with
    acUsedmap := (m.chunk c).acUsedmap ^^^ 1#16 <<< i
    acAnon := update (m.chunk c).acAnon i none }
  let m₁ : Mem κ ι := { m.setChunk c ch with
    anRef := update m.anRef anon (m.anRef anon - 1)
    freed := if m.anRef anon - 1 = 0 then anon :: m.freed else m.freed }
  have hself : m₁.chunk c = ch := update_self ..
  have hinv := hset.of_nused (am.amNused - 1)
  refine ⟨m₁, { am with amNused := am.amNused - 1 }, ?_, ?_, ⟨rfl, fun d hd => ?_, ?_⟩,
    fun j hj => ?_⟩
  · rw [UvmAmap.wipeSlot]
    simp only [hanon, bind_eq_bind, bind_some, kassert_true (hok.locked i hi anon hanon)]
    rfl
  · exact ⟨⟨hinv.inv.nodup, hinv.inv.ok, hinv.inv.inj, hinv.inv.indexed, hinv.inv.ncused,
      hinv.inv.inTable⟩, rfl, rfl, rfl, hinv.slots⟩
  · exact m.setChunk_of_ne ch hd
  · rw [hself]
  · rw [hself]
    exact update_of_ne hj _ _

end Slot

theorem Inv.wipeSlots {is : List Nat} {map : BitVec 32} (h : Inv m am) (hc : c ∈ am.chunks)
    (his : is.Nodup) (hmap : ∀ i ∈ is, map.getLsbD i = true →
      i < UVM_AMAP_CHUNK ∧ ((m.chunk c).acAnon i).isSome) :
    ∃ m' am', wipeSlots c map is m am = some (m', am') ∧ Leaves m am m' am' (fun s =>
        if AMAP_BASE_SLOT s = (m.chunk c).acBaseslot ∧ UVM_AMAP_SLOTIDX s ∈ is ∧
          map.getLsbD (UVM_AMAP_SLOTIDX s) then none else anonAt m am s) ∧
      OnlyChunk c m am m' am' := by
  induction is generalizing m am with
  | nil =>
    refine ⟨m, am, rfl, ?_, rfl, fun _ _ => rfl, rfl⟩
    simpa using h.leaves
  | cons i is ih =>
    obtain ⟨hi, his⟩ := nodup_cons.mp his
    rw [UvmAmap.wipeSlots]
    by_cases hbit : map.getLsbD i = true
    · obtain ⟨hlt, hsome⟩ := hmap i mem_cons_self hbit
      obtain ⟨anon, hanon⟩ := isSome_iff_exists.mp hsome
      obtain ⟨m₁, am₁, hwipe, hleaves, honly, hother⟩ := h.wipeSlot hc hlt hanon
      obtain ⟨hbase, hidx⟩ := h.slot_of_chunk hc hlt
      obtain ⟨m', am', hrest, hleaves', honly'⟩ := ih hleaves.inv (by rwa [honly.chunks]) his
        fun j hj hjb => by
          rw [hother j (ne_of_mem_of_not_mem hj hi)]
          exact hmap j (mem_cons_of_mem _ hj) hjb
      refine ⟨m', am', ?_, ?_, honly.trans honly'⟩
      · rw [if_pos hbit, hwipe]
        exact hrest
      · refine (hleaves.trans hleaves').congr fun s => ?_
        rw [hleaves.slots s, honly.acBaseslot]
        by_cases hs : s = (m.chunk c).acBaseslot + i
        · subst hs
          rw [update_self, ite_self, hbase, hidx, if_pos ⟨rfl, mem_cons_self, hbit⟩]
        · rw [update_of_ne hs]
          refine if_congr (and_congr_right fun hsb => and_congr_left fun _ => ?_) rfl rfl
          have hne : UVM_AMAP_SLOTIDX s ≠ i := fun heq =>
            hs (by rw [← hsb, ← heq, AMAP_BASE_SLOT_add])
          rw [mem_cons, or_iff_right hne]
    · rw [if_neg hbit]
      obtain ⟨m', am', hrest, hleaves, honly⟩ := ih h hc his fun j hj =>
        hmap j (mem_cons_of_mem _ hj)
      refine ⟨m', am', hrest, hleaves.congr fun s => ?_, honly⟩
      refine if_congr (and_congr_right fun _ => and_congr_left fun hsb => ?_) rfl rfl
      have hne : UVM_AMAP_SLOTIDX s ≠ i := fun heq => hbit (heq ▸ hsb)
      rw [mem_cons, or_iff_right hne]

theorem Inv.amapWiperangeChunk (off n : Nat) (h : Inv m am) (hc : c ∈ am.chunks)
    (hlo : off < (m.chunk c).acBaseslot + UVM_AMAP_CHUNK)
    (hhi : (m.chunk c).acBaseslot < off + n ∨ (m.chunk c).acBaseslot = 0) :
    ∃ m' am', amapWiperangeChunk off n m am c = some (m', am') ∧ Leaves m am m' am' (fun s =>
        if AMAP_BASE_SLOT s = (m.chunk c).acBaseslot ∧ off ≤ s ∧ s < off + n then none
        else anonAt m am s) ∧ OnlyChunk c m am m' am' := by
  have hok := h.ok c hc
  have hbits := getLsbD_wipeMap (u := (m.chunk c).acUsedmap) hok.base hlo hhi
  have hused {i : Nat} (hi : (wipeMap off n (m.chunk c).acBaseslot
      (m.chunk c).acUsedmap).getLsbD i = true) :
      i < UVM_AMAP_CHUNK ∧ ((m.chunk c).acAnon i).isSome := by
    rw [hbits, Bool.and_eq_true] at hi
    have hlt : i < UVM_AMAP_CHUNK := BitVec.lt_of_getLsbD hi.1
    exact ⟨hlt, by rw [← hok.used i hlt, hi.1]⟩
  obtain ⟨m', am', hwipe, hleaves, honly⟩ := h.wipeSlots hc nodup_range
    fun i _ hi => hused hi
  refine ⟨m', am', hwipe, hleaves.congr fun s => ?_, honly⟩
  by_cases hs : AMAP_BASE_SLOT s = (m.chunk c).acBaseslot
  · have hsum := AMAP_BASE_SLOT_add s
    have hlt := UVM_AMAP_SLOTIDX_lt s
    have hbit := hbits (UVM_AMAP_SLOTIDX s)
    rw [← hs, hsum] at hbit
    by_cases hr : off ≤ s ∧ s < off + n
    · refine Eq.trans ?_ (if_pos ⟨hs, hr⟩).symm
      split
      next => rfl
      next hnot =>
        rw [h.anonAt_mem hc hs]
        by_contra hsome
        refine hnot ⟨hs, mem_range.mpr (Nat.lt_trans hlt (by decide)), ?_⟩
        rw [← hs, hbit, hok.used _ hlt, decide_eq_true hr, Bool.and_true]
        exact isSome_iff_ne_none.mpr hsome
    · refine (if_neg ?_).trans (if_neg fun hand => hr hand.2).symm
      rintro ⟨-, -, hmap⟩
      rw [← hs, hbit, decide_eq_false hr, Bool.and_false] at hmap
      cases hmap
  · rw [if_neg fun hand => hs hand.1, if_neg fun hand => hs hand.1]

/-- The slots of the range in the chunks at the places `B` are emptied, and these chunks may be
freed. -/
structure Cleared (off n : Nat) (B : List Nat) (m : Mem κ ι) (am : Amap κ) (m' : Mem κ ι)
    (am' : Amap κ) : Prop where
  leaves : Leaves m am m' am' fun s =>
    if AMAP_BASE_SLOT s ∈ B ∧ off ≤ s ∧ s < off + n then none else anonAt m am s
  acBaseslot : ∀ c, (m'.chunk c).acBaseslot = (m.chunk c).acBaseslot
  keeps : ∀ c ∈ am.chunks, (m.chunk c).acBaseslot ∉ B → c ∈ am'.chunks
  fewer : ∀ c ∈ am'.chunks, c ∈ am.chunks

omit [DecidableEq κ] [DecidableEq ι] in
theorem Inv.cleared_nil (h : Inv m am) (off n : Nat) : Cleared off n [] m am m am where
  leaves := h.leaves.congr fun s => by rw [if_neg fun hand => absurd hand.1 not_mem_nil]
  acBaseslot _ := rfl
  keeps _ hc _ := hc
  fewer _ hc := hc

omit [DecidableEq κ] [DecidableEq ι] in
theorem Cleared.trans {B B' : List Nat} (h : Cleared off n B m am m' am')
    (h' : Cleared off n B' m' am' m'' am'') : Cleared off n (B ++ B') m am m'' am'' where
  leaves := (h.leaves.trans h'.leaves).congr fun s => by
    rw [h.leaves.slots s]
    by_cases hr : off ≤ s ∧ s < off + n
    · simp only [hr, and_self, and_true, List.mem_append]
      by_cases hB : AMAP_BASE_SLOT s ∈ B
      · rw [if_pos hB, ite_self, if_pos (.inl hB)]
      · simp only [hB, if_false, false_or]
    · rw [if_neg fun hand => hr hand.2, if_neg fun hand => hr hand.2, if_neg fun hand => hr hand.2]
  acBaseslot c := (h'.acBaseslot c).trans (h.acBaseslot c)
  keeps c hc hB := by
    rw [List.mem_append, not_or] at hB
    refine h'.keeps c (h.keeps c hc hB.1) ?_
    rw [h.acBaseslot c]
    exact hB.2
  fewer c hc := h.fewer c (h'.fewer c hc)

omit [DecidableEq ι] in
theorem OnlyChunk.base (h : OnlyChunk c m am m' am') (d : κ) :
    (m'.chunk d).acBaseslot = (m.chunk d).acBaseslot := by
  by_cases hd : d = c
  · subst hd
    exact h.acBaseslot
  · rw [h.other d hd]

theorem Inv.wipeChunk (h : Inv m am) (hc : c ∈ am.chunks) (hnormal : ¬am.UVM_AMAP_SMALL)
    (hrange : off + n ≤ am.amNslot) : ∃ m' am', wipeChunk off n c m am = some (m', am') ∧
      Cleared off n [(m.chunk c).acBaseslot] m am m' am' := by
  have hok := h.ok c hc
  have hskip (hout : ∀ s, AMAP_BASE_SLOT s = (m.chunk c).acBaseslot → ¬(off ≤ s ∧ s < off + n)) :
      Cleared off n [(m.chunk c).acBaseslot] m am m am :=
    ⟨h.leaves.congr fun s => by
      rw [if_neg fun hand => hout s (mem_singleton.mp hand.1) hand.2], fun _ => rfl,
      fun _ hd _ => hd, fun _ hd => hd⟩
  have hnslot := hok.acNslot
  rw [UvmAmap.wipeChunk]
  split
  next hlow =>
    refine ⟨m, am, rfl, hskip fun s hs => ?_⟩
    simp only [AMAP_BASE_SLOT, UVM_AMAP_CHUNK] at hs hnslot
    omega
  next hlow =>
    split
    next hhigh =>
      refine ⟨m, am, rfl, hskip fun s hs => ?_⟩
      simp only [AMAP_BASE_SLOT, UVM_AMAP_CHUNK] at hs
      omega
    next hhigh =>
      obtain ⟨m', am', hwipe, hleaves, honly⟩ := h.amapWiperangeChunk off n hc
        (by omega) (by omega)
      have hc' : c ∈ am'.chunks := by rwa [honly.chunks]
      have hnormal' : ¬am'.UVM_AMAP_SMALL := by rwa [Amap.UVM_AMAP_SMALL, hleaves.alike.amNslot]
      have hmem (d : κ) := hleaves.inv.mem_chunkFree c hnormal' d
      refine ⟨m', _, by rw [hwipe]; rfl, (hleaves.freeUnused hc').congr fun s => ?_, honly.base,
        fun d hd hne => ?_, fun d hd => ?_⟩
      · simp only [mem_singleton]
      · rw [← honly.chunks] at hd
        split
        · refine (hmem d).mpr ⟨hd, ?_⟩
          rintro rfl
          exact hne (mem_singleton_self _)
        · exact hd
      · rw [← honly.chunks]
        split at hd
        · exact ((hmem d).mp hd).1
        · exact hd

theorem Inv.wipeBucket {bucket : Nat} {G Q : List κ} (h : Inv m am) (hnormal : ¬am.UVM_AMAP_SMALL)
    (hrange : off + n ≤ am.amNslot) (hG : ∀ c ∈ G, c ∈ am.chunks ∧ m.bucketOf am c = bucket)
    (hnodup : G.Nodup) (hQ : ∀ c ∈ Q, m.bucketOf am c ≠ bucket) :
    ∃ m' am', wipeBucket off n bucket (G ++ Q) m am = some (m', am') ∧
      Cleared off n (G.map fun c => (m.chunk c).acBaseslot) m am m' am' := by
  induction G generalizing m am with
  | nil =>
    refine ⟨m, am, ?_, h.cleared_nil off n⟩
    cases Q with
    | nil => rfl
    | cons c Q => exact if_pos (hQ c mem_cons_self)
  | cons c G ih =>
    obtain ⟨hc, hbucket⟩ := hG c mem_cons_self
    obtain ⟨hcG, hnodup⟩ := nodup_cons.mp hnodup
    obtain ⟨m₁, am₁, hwipe, hcleared⟩ := h.wipeChunk hc hnormal hrange
    have hsame (d : κ) : m₁.bucketOf am₁ d = m.bucketOf am d := by
      rw [Mem.bucketOf, Mem.bucketOf, hcleared.acBaseslot, hcleared.leaves.alike.UVM_AMAP_BUCKET]
    have hG' : ∀ d ∈ G, d ∈ am₁.chunks ∧ m₁.bucketOf am₁ d = bucket := fun d hd => by
      obtain ⟨hdc, hdb⟩ := hG d (mem_cons_of_mem _ hd)
      refine ⟨hcleared.keeps d hdc fun hm => hcG ?_, (hsame d).trans hdb⟩
      rwa [← h.inj d hdc c hc (mem_singleton.mp hm)]
    obtain ⟨m', am', hrest, hcleared'⟩ := ih hcleared.leaves.inv
      (by rwa [Amap.UVM_AMAP_SMALL, hcleared.leaves.alike.amNslot])
      (by rwa [hcleared.leaves.alike.amNslot]) hG' hnodup
      (fun d hd => by rw [hsame]; exact hQ d hd)
    refine ⟨m', am', ?_, ?_⟩
    · rw [List.cons_append, UvmAmap.wipeBucket, if_neg (not_not.mpr hbucket), hwipe]
      exact hrest
    · have htrans := hcleared.trans hcleared'
      simp only [hcleared.acBaseslot] at htrans
      exact htrans

theorem Inv.wipeChunks (off n : Nat) {G : List κ} (h : Inv m am)
    (hnormal : ¬am.UVM_AMAP_SMALL) (hrange : off + n ≤ am.amNslot) (hG : ∀ c ∈ G, c ∈ am.chunks)
    (hnodup : G.Nodup) : ∃ m' am', wipeChunks off n G m am = some (m', am') ∧
      Cleared off n (G.map fun c => (m.chunk c).acBaseslot) m am m' am' := by
  induction G generalizing m am with
  | nil => exact ⟨m, am, rfl, h.cleared_nil off n⟩
  | cons c G ih =>
    have hc := hG c mem_cons_self
    obtain ⟨hcG, hnodup⟩ := nodup_cons.mp hnodup
    obtain ⟨m₁, am₁, hwipe, hcleared⟩ := h.wipeChunk hc hnormal hrange
    have hG' : ∀ d ∈ G, d ∈ am₁.chunks := fun d hd => by
      have hdc := hG d (mem_cons_of_mem _ hd)
      refine hcleared.keeps d hdc fun hm => hcG ?_
      rwa [← h.inj d hdc c hc (mem_singleton.mp hm)]
    obtain ⟨m', am', hrest, hcleared'⟩ := ih hcleared.leaves.inv
      (by rwa [Amap.UVM_AMAP_SMALL, hcleared.leaves.alike.amNslot])
      (by rwa [hcleared.leaves.alike.amNslot]) hG' hnodup
    refine ⟨m', am', ?_, ?_⟩
    · rw [UvmAmap.wipeChunks, hwipe]
      exact hrest
    · have htrans := hcleared.trans hcleared'
      simp only [hcleared.acBaseslot] at htrans
      exact htrans

theorem Inv.wipeBuckets (off n : Nat) (bs : List Nat) (h : Inv m am)
    (hnormal : ¬am.UVM_AMAP_SMALL) (hrange : off + n ≤ am.amNslot)
    (hbs : ∀ b ∈ bs, b < am.amNbuckets) :
    ∃ m' am' B, wipeBuckets off n bs m am = some (m', am') ∧ Cleared off n B m am m' am' ∧
      ∀ c ∈ am.chunks, m.bucketOf am c ∈ bs → (m.chunk c).acBaseslot ∈ B := by
  induction bs generalizing m am with
  | nil => exact ⟨m, am, [], rfl, h.cleared_nil off n, fun _ _ hb => absurd hb not_mem_nil⟩
  | cons b bs ih =>
    have hindexed := h.indexed hnormal
    have hb := hbs b mem_cons_self
    obtain ⟨Q, hwalk, hQ⟩ := hindexed.walk hb
    have hfrom : am.fromBucket b = some (am.amChunks.filter (m.bucketOf am · = b) ++ Q) :=
      (if_pos hb).trans (congrArg some hwalk)
    obtain ⟨m₁, am₁, hwipe, hcleared⟩ := h.wipeBucket (Q := Q) hnormal hrange
      (fun c hc => by
        rw [Amap.chunks_normal hnormal]
        exact ⟨mem_of_mem_filter hc, of_decide_eq_true (mem_filter.mp hc).2⟩)
      (hindexed.nodup.filter _) hQ
    have hsame (d : κ) : m₁.bucketOf am₁ d = m.bucketOf am d := by
      rw [Mem.bucketOf, Mem.bucketOf, hcleared.acBaseslot, hcleared.leaves.alike.UVM_AMAP_BUCKET]
    obtain ⟨m', am', B, hrest, hcleared', hall⟩ := ih hcleared.leaves.inv
      (by rwa [Amap.UVM_AMAP_SMALL, hcleared.leaves.alike.amNslot])
      (by rwa [hcleared.leaves.alike.amNslot]) fun b hb => by
        rw [hcleared.leaves.alike.amNbuckets]
        exact hbs b (mem_cons_of_mem _ hb)
    refine ⟨m', am', _, ?_, hcleared.trans hcleared', fun c hc hcb => ?_⟩
    · rw [UvmAmap.wipeBuckets, hfrom, bind_eq_bind, bind_some, hwipe]
      exact hrest
    · rw [mem_append, or_iff_not_imp_left]
      intro hout
      have hc' := hcleared.keeps c hc hout
      rw [← hcleared.acBaseslot c]
      refine hall c hc' ?_
      rw [hsame]
      refine (mem_cons.mp hcb).resolve_left fun hcb => hout ?_
      rw [Amap.chunks_normal hnormal] at hc
      exact mem_map.mpr ⟨c, mem_filter.mpr ⟨hc, decide_eq_true hcb⟩, rfl⟩

omit [DecidableEq κ] [DecidableEq ι] in
theorem Cleared.all {B : List Nat} (hcleared : Cleared off n B m am m' am')
    (hB : ∀ s, off ≤ s → s < off + n → ∀ c ∈ am.chunks,
      (m.chunk c).acBaseslot = AMAP_BASE_SLOT s → (m.chunk c).acBaseslot ∈ B) :
    Leaves m am m' am' fun s => if off ≤ s ∧ s < off + n then none else anonAt m am s := by
  refine hcleared.leaves.congr fun s => ?_
  by_cases hr : off ≤ s ∧ s < off + n
  · rw [if_pos hr]
    split
    next => rfl
    next hnot =>
      cases hat : chunkAt m am s with
      | none => rw [anonAt, hat, bind_none]
      | some c =>
        obtain ⟨hc, hbase⟩ := chunkAt_mem hat
        exact absurd ⟨hbase ▸ hB s hr.1 hr.2 c hc hbase, hr⟩ hnot
  · rw [if_neg hr, if_neg fun hand => hr hand.2]

omit [DecidableEq κ] in
theorem Amap.UVM_AMAP_BUCKET_mono (am : Amap κ) {s t : Nat} (hst : s ≤ t) :
    am.UVM_AMAP_BUCKET s ≤ am.UVM_AMAP_BUCKET t := by
  rw [Amap.UVM_AMAP_BUCKET, Amap.UVM_AMAP_BUCKET, Nat.shiftRight_eq_div_pow,
    Nat.shiftRight_eq_div_pow]
  exact Nat.div_le_div_right (Nat.div_le_div_right hst)

theorem Inv.amapWiperange (h : Inv m am) (hheld : m.writeHeld am = true) (hoff : off < am.amNslot)
    (hrange : off + n ≤ am.amNslot) : ∃ m' am', amapWiperange off n m am = some (m', am') ∧
      Leaves m am m' am' fun s => if off ≤ s ∧ s < off + n then none else anonAt m am s := by
  rw [UvmAmap.amapWiperange, kassert_true hheld, bind_eq_bind, bind_some]
  split
  next hsmall =>
    have hc : am.amSmall ∈ am.chunks := by
      rw [Amap.chunks_small hsmall]
      exact mem_singleton_self _
    have hbase : (m.chunk am.amSmall).acBaseslot = 0 := by
      rw [(chunkAt_mem (h.chunkAt_small hsmall hoff)).2]
      simp only [Amap.UVM_AMAP_SMALL, AMAP_BASE_SLOT, UVM_AMAP_CHUNK] at hsmall ⊢
      omega
    obtain ⟨m', am', hwipe, hleaves, -⟩ := h.amapWiperangeChunk off n hc
      (by rw [hbase]; exact Nat.lt_of_lt_of_le hoff (by omega)) (.inr hbase)
    refine ⟨m', am', hwipe, hleaves.congr fun s => if_congr ⟨And.right, fun hr => ⟨?_, hr⟩⟩ rfl rfl⟩
    rw [hbase]
    simp only [Amap.UVM_AMAP_SMALL, AMAP_BASE_SLOT, UVM_AMAP_CHUNK] at hsmall ⊢
    omega
  next hnormal =>
    have hchunks := Amap.chunks_normal hnormal
    dsimp only
    split
    · obtain ⟨m', am', hwipe, hcleared⟩ := h.wipeChunks off n hnormal hrange
        (fun c hc => by rwa [hchunks]) (h.indexed hnormal).nodup
      refine ⟨m', am', hwipe, hcleared.all fun s _ _ c hc _ => ?_⟩
      rw [hchunks] at hc
      exact mem_map.mpr ⟨c, hc, rfl⟩
    · obtain ⟨m', am', B, hwipe, hcleared, hall⟩ := h.wipeBuckets off n
        (range' (am.UVM_AMAP_BUCKET off)
          (am.UVM_AMAP_BUCKET (off + n - 1) + 1 - am.UVM_AMAP_BUCKET off)) hnormal hrange
        fun b hb => by
          have hlast := h.inTable hnormal (off + n - 1) (by omega)
          have hb := mem_range'_1.mp hb
          omega
      refine ⟨m', am', hwipe, hcleared.all fun s hlo hhi c hc hbase => hall c hc ?_⟩
      have hlow := am.UVM_AMAP_BUCKET_mono hlo
      have hhigh := am.UVM_AMAP_BUCKET_mono (show s ≤ off + n - 1 by omega)
      rw [Mem.bucketOf, hbase, Amap.UVM_AMAP_BUCKET_base, mem_range'_1]
      omega

end Mbsd.Uvm.UvmAmap
