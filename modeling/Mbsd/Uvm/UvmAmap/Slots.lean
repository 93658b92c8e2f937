import Mbsd.Uvm.UvmAmap.Inv

/-! What the operations on single slots do. -/

namespace Mbsd.Uvm.UvmAmap

open Lib Sys List Option BitVec Function

variable {κ ι : Type} {m m' m'' : Mem κ ι} {am am' am'' : Amap κ}
  {f g : Nat → Option ι} {slot : Nat} {c : κ} {pool : Option κ} {a : Option ι}

structure Leaves (m : Mem κ ι) (am : Amap κ) (m' : Mem κ ι) (am' : Amap κ)
    (f : Nat → Option ι) : Prop where
  inv : Inv m' am'
  alike : am.Alike am'
  anLock : m'.anLock = m.anLock
  held : m'.held = m.held
  slots : ∀ s, anonAt m' am' s = f s

theorem Inv.leaves (h : Inv m am) : Leaves m am m am (anonAt m am) :=
  ⟨h, rfl, rfl, rfl, fun _ => rfl⟩

theorem Leaves.trans (h : Leaves m am m' am' f) (h' : Leaves m' am' m'' am'' g) :
    Leaves m am m'' am'' g :=
  ⟨h'.inv, h.alike.trans h'.alike, h'.anLock.trans h.anLock, h'.held.trans h.held, h'.slots⟩

theorem Leaves.congr (h : Leaves m am m' am' f) (hfg : ∀ s, f s = g s) : Leaves m am m' am' g :=
  funext hfg ▸ h

theorem slot_eq_iff {s : Nat} : s = slot ↔
    AMAP_BASE_SLOT s = AMAP_BASE_SLOT slot ∧ UVM_AMAP_SLOTIDX s = UVM_AMAP_SLOTIDX slot := by
  simp only [AMAP_BASE_SLOT, UVM_AMAP_SLOTIDX, UVM_AMAP_CHUNK]
  omega

variable [DecidableEq κ]

theorem Inv.chunkGet_create {r : Option κ} (h : Inv m am) (hslot : slot < am.amNslot)
    (hpool : ∀ c, pool = some c → c ∉ am.chunks)
    (hs : amapChunkGet m am slot true pool = some (m', am', r)) :
    Leaves m am m' am' (anonAt m am) ∧ (r = none → m' = m ∧ am' = am) ∧
      ∀ c, r = some c → c ∈ am'.chunks ∧ (m'.chunk c).acBaseslot = AMAP_BASE_SLOT slot := by
  cases hc : chunkAt m am slot with
  | some c =>
    rw [h.chunkGet_some hslot true pool hc] at hs
    cases hs
    refine ⟨h.leaves, nofun, fun d hd => ?_⟩
    cases hd
    exact chunkAt_mem hc
  | none =>
    cases pool with
    | none =>
      rw [h.chunkGet_short hslot hc] at hs
      cases hs
      exact ⟨h.leaves, fun _ => ⟨rfl, rfl⟩, nofun⟩
    | some new =>
      have hnew := hpool new rfl
      obtain ⟨_, hget, hinv, halike, -, hmem⟩ := h.chunkGet_new hslot hc hnew
      rw [hget] at hs
      cases hs
      refine ⟨⟨hinv, halike, rfl, rfl, h.anonAt_new hc hnew hinv hmem⟩, nofun, fun d hd => ?_⟩
      cases hd
      refine ⟨(hmem new).mpr (.inr rfl), ?_⟩
      rw [Mem.setChunk_self]
      rfl

theorem Chunk.Ok.set {nslot i : Nat} {lock : Option Lock} {anLock : ι → Option Lock} {ch : Chunk ι}
    (h : ch.Ok nslot lock anLock) {used : BitVec 16} (hused : ∀ j < UVM_AMAP_CHUNK,
      used.getLsbD j = if j = i then a.isSome else ch.acUsedmap.getLsbD j)
    (hlock : ∀ b, a = some b → anLock b = lock) : Chunk.Ok nslot lock anLock
      { ch with acUsedmap := used, acAnon := update ch.acAnon i a } where
  base := h.base
  lt := h.lt
  acNslot := h.acNslot
  used j hj := by
    rw [hused j hj]
    dsimp only
    by_cases hji : j = i
    · subst hji
      rw [if_pos rfl, update_self]
    · rw [if_neg hji, update_of_ne hji, h.used j hj]
  locked j hj b hb := by
    dsimp only at hb
    by_cases hji : j = i
    · subst hji
      rw [update_self] at hb
      exact hlock b hb
    · rw [update_of_ne hji] at hb
      exact h.locked j hj b hb

omit [DecidableEq κ] in
theorem Leaves.of_nused (h : Leaves m am m' am' f) (n : Int) :
    Leaves m am m' { am' with amNused := n } f :=
  ⟨⟨h.inv.nodup, h.inv.ok, h.inv.inj, h.inv.indexed, h.inv.ncused, h.inv.inTable⟩,
    h.alike.trans rfl, h.anLock, h.held, h.slots⟩

theorem Inv.set {u : BitVec 16} (h : Inv m am) (hc : c ∈ am.chunks)
    (hbase : (m.chunk c).acBaseslot = AMAP_BASE_SLOT slot)
    (hused : ∀ j < UVM_AMAP_CHUNK, u.getLsbD j =
      if j = UVM_AMAP_SLOTIDX slot then a.isSome else (m.chunk c).acUsedmap.getLsbD j)
    (hlock : ∀ b, a = some b → m.anLock b = am.amLock) : Leaves m am (m.setChunk c { m.chunk c with
      acUsedmap := u
      acAnon := update (m.chunk c).acAnon (UVM_AMAP_SLOTIDX slot) a }) am
      (update (anonAt m am) slot a) := by
  have hok := (h.ok c hc).set hused hlock
  refine ⟨h.setChunk hc rfl hok, rfl, rfl, rfl, fun s => ?_⟩
  rw [h.anonAt_setChunk hc (by rfl) hok]
  by_cases hs : s = slot
  · subst hs
    rw [if_pos hbase.symm, update_self]
    exact update_self ..
  · rw [update_of_ne hs]
    split
    next hsb =>
      have hidx : UVM_AMAP_SLOTIDX s ≠ UVM_AMAP_SLOTIDX slot := fun hidx =>
        hs (slot_eq_iff.mpr ⟨hsb.trans hbase, hidx⟩)
      rw [anonAt, h.chunkAt_eq_some.mpr ⟨hc, hsb.symm⟩, bind_some]
      exact update_of_ne hidx _ _
    next => rfl

theorem Leaves.freeUnused (h : Leaves m am m' am' f) (hc : c ∈ am'.chunks) :
    Leaves m am m' (if (m'.chunk c).acUsedmap = 0 then amapChunkFree m' am' c else am') f := by
  split
  next hunused =>
    have hempty : ∀ i < UVM_AMAP_CHUNK, (m'.chunk c).acAnon i = none := fun i hi => by
      have hused := (h.inv.ok c hc).used i hi
      rw [hunused, ofNat_eq_ofNat, getLsbD_zero] at hused
      exact isSome_eq_false_iff.mp hused.symm |> isNone_iff_eq_none.mp
    exact h.trans ⟨h.inv.chunkFree c hc, amapChunkFree_alike c, rfl, rfl, fun s =>
      (h.inv.anonAt_chunkFree c hc hempty s).trans (h.slots s)⟩
  next => exact h

theorem getLsbD_bit (i j : Nat) (hi : i < UVM_AMAP_CHUNK) :
    (1#16 <<< i).getLsbD j = decide (j = i) := by
  simp only [UVM_AMAP_CHUNK] at hi
  rw [getLsbD_shiftLeft, getLsbD_one, Bool.eq_iff_iff]
  simp only [Bool.and_eq_true, Bool.not_eq_true', decide_eq_true_eq, decide_eq_false_iff_not]
  omega

section Ops

variable {pageShift pageoff offset k : Nat} (h : Inv m am)
  (hoff : AMAP_B2SLOT pageShift offset = some k)

include h hoff

theorem Inv.amapLookup (hslot : k + pageoff < am.amNslot) :
    amapLookup pageShift m am pageoff offset = some (anonAt m am (k + pageoff)) := by
  rw [UvmAmap.amapLookup, hoff, bind_eq_bind, bind_some]
  simp only [kassert_true hslot, bind_eq_bind, bind_some, h.chunkGet hslot]
  rfl

theorem Inv.amapPopulate (hpool : ∀ c, pool = some c → c ∉ am.chunks)
    (hs : amapPopulate pageShift m am pageoff offset pool = some (m', am')) :
    Leaves m am m' am' (anonAt m am) := by
  rw [UvmAmap.amapPopulate, hoff, bind_eq_bind, bind_some] at hs
  simp only [bind_eq_bind, bind_eq_some_iff] at hs
  obtain ⟨_, hslot, ⟨m₁, am₁, r⟩, hget, _, -, hs⟩ := hs
  cases hs
  exact (h.chunkGet_create (of_kassert hslot) hpool hget).1

theorem Inv.amapAdd {anon : ι} {replace : Bool} {ret : Nat}
    (hpool : ∀ c, pool = some c → c ∉ am.chunks) (hlock : m.anLock anon = am.amLock)
    (hs : amapAdd pageShift m am pageoff offset anon replace pool = some (m', am', ret)) :
    Leaves m am m' am' (if ret = 0 then update (anonAt m am) (k + pageoff) (some anon)
        else anonAt m am) := by
  rw [UvmAmap.amapAdd, hoff, bind_eq_bind, bind_some] at hs
  simp only [bind_eq_bind, bind_eq_some_iff] at hs
  obtain ⟨_, hslot, ⟨m₁, am₁, r⟩, hget, hs⟩ := hs
  obtain ⟨hleaves, -, hmem⟩ := h.chunkGet_create (of_kassert hslot) hpool hget
  cases r with
  | none =>
    cases hs
    exact hleaves
  | some c =>
    obtain ⟨hc, hbase⟩ := hmem c rfl
    have hi := UVM_AMAP_SLOTIDX_lt (k + pageoff)
    have hused := (hleaves.inv.ok c hc).used
    have hsame : anonAt m am = anonAt m₁ am₁ := (funext hleaves.slots).symm
    have hanon : m₁.anLock anon = am₁.amLock := by rw [hleaves.anLock, hleaves.alike.amLock, hlock]
    dsimp only at hs
    split at hs
    · simp only [bind_eq_some_iff] at hs
      obtain ⟨_, hin, hs⟩ := hs
      cases hs
      have hset := hleaves.inv.set (a := some anon) (u := (m₁.chunk c).acUsedmap) hc hbase
        (fun j hj => ?_) (fun b hb => some.inj hb ▸ hanon)
      · rw [if_pos rfl, hsame]
        exact hleaves.trans hset
      · split
        next hji =>
          rw [hji, hused _ hi, isSome_some, isSome_iff_ne_none]
          exact of_kassert hin
        next => rfl
    · simp only [bind_eq_some_iff] at hs
      obtain ⟨_, hout, hs⟩ := hs
      cases hs
      have hset := hleaves.inv.set (a := some anon) hc hbase
        (u := (m₁.chunk c).acUsedmap ||| 1#16 <<< UVM_AMAP_SLOTIDX (k + pageoff))
        (fun j hj => ?_) (fun b hb => some.inj hb ▸ hanon)
      · rw [if_pos rfl, hsame]
        exact (hleaves.trans hset).of_nused _
      · rw [getLsbD_or, getLsbD_bit _ _ hi]
        split
        next hji => simp [hji]
        next hji => simp [hji]

theorem Inv.amapUnadd (hs : amapUnadd pageShift m am pageoff offset = some (m', am')) :
    Leaves m am m' am' (update (anonAt m am) (k + pageoff) none) := by
  rw [UvmAmap.amapUnadd, hoff] at hs
  simp only [bind_eq_bind, bind_eq_some_iff] at hs
  obtain ⟨_, -, _, hk, _, hslot, ⟨m₁, am₁, r⟩, hget, c, rfl, hs⟩ := hs
  cases hk
  rw [h.chunkGet (of_kassert hslot)] at hget
  simp only [some.injEq, Prod.mk.injEq] at hget
  obtain ⟨rfl, rfl, hat⟩ := hget
  obtain ⟨hc, hbase⟩ := chunkAt_mem hat
  obtain ⟨_, -, hs⟩ := hs
  have hset := h.set (a := none) hc hbase
    (u := (m.chunk c).acUsedmap &&& ~~~(1#16 <<< UVM_AMAP_SLOTIDX (k + pageoff)))
    (fun j hj => ?_) (by simp)
  · cases hs
    exact (hset.of_nused _).freeUnused hc
  · rw [getLsbD_and, getLsbD_not, getLsbD_bit _ _ (UVM_AMAP_SLOTIDX_lt _)]
    split
    next hji => simp [hji]
    next hji => simp [hji, show j < 16 from hj]

end Ops

section Lookups

omit [DecidableEq κ] in
theorem anonAt_row {lcv n : Nat} (hn : n ≤ UVM_AMAP_CHUNK - UVM_AMAP_SLOTIDX lcv) :
    chunkAnons m lcv n (chunkAt m am lcv) = (range' lcv n).map (anonAt m am) := by
  have hsame {i : Nat} (hi : i < n) : chunkAt m am (lcv + i) = chunkAt m am lcv ∧
      UVM_AMAP_SLOTIDX (lcv + i) = UVM_AMAP_SLOTIDX lcv + i := by
    have hbase : AMAP_BASE_SLOT (lcv + i) = AMAP_BASE_SLOT lcv := by
      simp only [AMAP_BASE_SLOT, UVM_AMAP_SLOTIDX, UVM_AMAP_CHUNK] at hn ⊢
      omega
    refine ⟨by rw [chunkAt, hbase, chunkAt], ?_⟩
    simp only [UVM_AMAP_SLOTIDX, UVM_AMAP_CHUNK] at hn ⊢
    omega
  have hmap (j : Nat) {β : Type} (g : Nat → β) :
      (range' j n).map g = (range n).map fun i => g (j + i) := by
    rw [List.range'_eq_map_range, List.map_map]
    rfl
  rw [hmap]
  cases hat : chunkAt m am lcv with
  | none =>
    rw [chunkAnons, eq_comm, eq_replicate_iff]
    refine ⟨by simp, fun b hb => ?_⟩
    obtain ⟨i, hi, rfl⟩ := mem_map.mp hb
    rw [anonAt, (hsame (mem_range.mp hi)).1, hat, bind_none]
  | some c =>
    rw [chunkAnons, hmap]
    refine map_congr_left fun i hi => ?_
    obtain ⟨hchunk, hidx⟩ := hsame (mem_range.mp hi)
    rw [anonAt, hchunk, hat, bind_some, hidx]

theorem intAdd_next (lcv : Nat) : intAdd lcv (UVM_AMAP_CHUNK - UVM_AMAP_SLOTIDX lcv) =
      if lcv < AMAP_BASE_SLOT INT_MAX then
        some (lcv + (UVM_AMAP_CHUNK - UVM_AMAP_SLOTIDX lcv)) else none := by
  have hlast : AMAP_BASE_SLOT INT_MAX = INT_MAX - 15 := by decide
  rw [intAdd, hlast]
  simp only [UVM_AMAP_SLOTIDX, UVM_AMAP_CHUNK, INT_MAX]
  refine if_congr ?_ rfl rfl
  omega

theorem Inv.lookupsFrom (h : Inv m am) {stop turns lcv : Nat} (hstop : stop ≤ am.amNslot)
    (hmax : stop ≤ INT_MAX) (hturns : stop - lcv ≤ turns) : lookupsFrom m am stop turns lcv =
      if stop ≤ lcv ∨ stop ≤ AMAP_BASE_SLOT INT_MAX then
        some ((List.range' lcv (stop - lcv)).map (anonAt m am)) else none := by
  induction turns generalizing lcv with
  | zero =>
    have hle : stop ≤ lcv := by omega
    rw [if_pos (.inl hle), Nat.sub_eq_zero_of_le hle]
    rfl
  | succ turns ih =>
    rw [UvmAmap.lookupsFrom]
    by_cases hlt : lcv < stop
    · have hidx := UVM_AMAP_SLOTIDX_lt lcv
      rw [if_pos hlt]
      dsimp only
      rw [intAdd_next]
      by_cases hfits : lcv < AMAP_BASE_SLOT INT_MAX
      · simp only [if_pos hfits, bind_eq_bind, bind_some, h.chunkGet (Nat.lt_of_lt_of_le hlt hstop)]
        generalize hn : (if stop < lcv + (UVM_AMAP_CHUNK - UVM_AMAP_SLOTIDX lcv) then stop - lcv
          else UVM_AMAP_CHUNK - UVM_AMAP_SLOTIDX lcv) = n
        have hle : n ≤ UVM_AMAP_CHUNK - UVM_AMAP_SLOTIDX lcv := by split at hn <;> omega
        have hpos : 0 < n := by split at hn <;> omega
        have hin : lcv + n ≤ stop := by split at hn <;> omega
        have hrest : (stop ≤ lcv + n ∨ stop ≤ AMAP_BASE_SLOT INT_MAX) ↔
            (stop ≤ lcv ∨ stop ≤ AMAP_BASE_SLOT INT_MAX) := by
          have hlast : AMAP_BASE_SLOT INT_MAX = INT_MAX - 15 := by decide
          rw [hlast] at hfits ⊢
          simp only [UVM_AMAP_SLOTIDX, UVM_AMAP_CHUNK, INT_MAX] at hle hfits hn ⊢
          omega
        rw [ih (by omega), anonAt_row hle]
        by_cases hall : stop ≤ lcv ∨ stop ≤ AMAP_BASE_SLOT INT_MAX
        · rw [if_pos (hrest.mpr hall), if_pos hall, bind_some, ← map_append,
            range'_append_1, show n + (stop - (lcv + n)) = stop - lcv by omega]
        · rw [if_neg (mt hrest.mp hall), if_neg hall]
          rfl
      · rw [if_neg hfits, if_neg (by omega)]
        rfl
    · rw [if_neg hlt, if_pos (.inl (Nat.le_of_not_lt hlt)),
        Nat.sub_eq_zero_of_le (Nat.le_of_not_lt hlt)]
      rfl

theorem Inv.amapLookups {pageShift pageoff offset k npages : Nat} (h : Inv m am)
    (hmax : am.amNslot ≤ INT_MAX) (hoff : AMAP_B2SLOT pageShift offset = some k)
    (hin : k + pageoff + npages ≤ am.amNslot) : amapLookups pageShift m am pageoff offset npages =
      if npages = 0 ∨ k + pageoff + npages ≤ AMAP_BASE_SLOT INT_MAX then
        some ((range' (k + pageoff) npages).map (anonAt m am)) else none := by
  have hassert : ((k + pageoff : Nat) : Int) + (npages - 1) < am.amNslot := by omega
  have hadd : intAdd (k + pageoff) npages = some (k + pageoff + npages) :=
    if_pos (hin.trans hmax)
  rw [UvmAmap.amapLookups, hoff, bind_eq_bind, bind_some]
  simp only [kassert_true hassert, hadd, bind_eq_bind, bind_some]
  rw [h.lookupsFrom hin (hin.trans hmax) (by omega), Nat.add_sub_cancel_left]
  refine if_congr ?_ rfl rfl
  omega

end Lookups

end Mbsd.Uvm.UvmAmap
