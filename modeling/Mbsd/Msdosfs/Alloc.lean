import Mbsd.Lib.Run
import Mbsd.Msdosfs.Usemap

/-! How `fatchain` links clusters, and what sets an entry. -/

namespace Mbsd.Msdosfs

open Lib.Fuel Sys

variable {v : Layout} {fat fat' fat'' : Nat → Byte} {cn start count e a b c bn bsize bo : Nat}
  {fillwith newc : Word} {s : Mount} {r : Nat}

theorem fatmask_and {x : Nat} (h : x ≤ v.type.fatmask.toNat) :
    (BitVec.ofNat 32 x &&& v.type.fatmask).toNat = x := by
  have hpow : ∀ t : FatType, t.fatmask.toNat = 2 ^ t.width - 1 := fun t => by cases t <;> decide
  have hpos : 0 < 2 ^ v.type.width := Nat.two_pow_pos _
  rw [BitVec.toNat_and, BitVec.toNat_ofNat, Nat.mod_eq_of_lt (by omega), hpow,
    Nat.and_two_pow_sub_one_eq_mod]
  rw [hpow] at h
  exact Nat.mod_eq_of_lt (by omega)

theorem cluster_ne_zero {v : Volume} (h : v.InRange cn) :
    BitVec.ofNat 32 cn &&& v.type.fatmask ≠ 0 := by
  intro hzero
  have hand := fatmask_and (v := v.toLayout) (Nat.le_trans h.2 v.numbers)
  have hfirst : 2 ≤ cn := h.1
  rw [hzero] at hand
  change 0 = cn at hand
  omega

theorem eofe_ne_zero (v : Layout) : clustEofe &&& v.type.fatmask ≠ 0 := by
  cases v.type <;> decide

theorem entry_set (h : cn ≤ v.maxcluster) (h' : a ≤ v.maxcluster) :
    v.entry (v.writeEntry fat cn (v.fatofs cn) newc) a =
      if a = cn then newc &&& v.type.fatmask else v.entry fat a :=
  Layout.entry_writeEntry h h' fat newc

theorem Tracks.set_entry (h : Tracks v s (Used v fat)) (hcn : v.InRange cn)
    (hused : v.entry fat cn ≠ 0) (hnew : newc &&& v.type.fatmask ≠ 0) :
    Tracks v s (Used v (v.writeEntry fat cn (v.fatofs cn) newc)) := by
  refine h.congr fun d _ => forall_congr' fun hin => ?_
  rw [entry_set hcn.2 hin.2]
  split
  · next heq =>
    rw [heq]
    exact ⟨fun _ => hnew, fun _ => hused⟩
  · rfl

theorem Tracks.clear_entry (h : Tracks v s fun d => d ≠ cn ∧ Used v fat d)
    (hcn : v.InRange cn) : Tracks v s (Used v (v.writeEntry fat cn (v.fatofs cn) msdosfsfree)) := by
  refine h.congr fun d _ => ?_
  constructor
  · rintro ⟨hne, hd⟩ hin
    rw [entry_set hcn.2 hin.2, if_neg hne]
    exact hd hin
  · intro hd
    have hne : d ≠ cn := fun heq => by
      subst heq
      refine hd hcn ?_
      rw [entry_set hcn.2 hcn.2, if_pos rfl]
      exact BitVec.zero_and
    refine ⟨hne, fun hin => ?_⟩
    have hentry := hd hin
    rwa [entry_set hcn.2 hin.2, if_neg hne] at hentry

def link (fillwith : Word) (e cn : Nat) : Word :=
  if cn + 1 < e then BitVec.ofNat 32 (cn + 1) else fillwith

def Linked (v : Layout) (fillwith : Word) (e : Nat) (fat fat' : Nat → Byte) (a b : Nat) : Prop :=
  ∀ cn ≤ v.maxcluster, v.entry fat' cn =
    if a ≤ cn ∧ cn < b then link fillwith e cn &&& v.type.fatmask else v.entry fat cn

theorem Linked.refl (a : Nat) : Linked v fillwith e fat fat a a := fun cn _ => by
  rw [if_neg (by omega)]

theorem Linked.trans (h : Linked v fillwith e fat fat' a b)
    (h' : Linked v fillwith e fat' fat'' b c) (hab : a ≤ b) (hbc : b ≤ c) :
    Linked v fillwith e fat fat'' a c := fun cn hcn => by
  rw [h' cn hcn]
  by_cases hb : b ≤ cn ∧ cn < c
  · rw [if_pos hb, if_pos (by omega)]
  · rw [if_neg hb, h cn hcn]
    by_cases ha : a ≤ cn ∧ cn < b
    · rw [if_pos ha, if_pos (by omega)]
    · rw [if_neg ha, if_neg (by omega)]

theorem Linked.one (h : a ≤ v.maxcluster) :
    Linked v fillwith e fat (v.writeEntry fat a (v.fatofs a) (link fillwith e a)) a (a + 1) :=
  fun cn hcn => by
    rw [entry_set h hcn]
    by_cases heq : cn = a
    · rw [if_pos heq, if_pos (by omega), heq]
    · rw [if_neg heq, if_neg (by omega)]

theorem fatofs_succ (h : cn + 1 ≤ v.maxcluster) :
    v.fatofs (cn + 1) = v.fatofs cn + v.step (cn + 1) := by
  rw [Layout.fatofs_eq h, Layout.fatofs_eq (by omega), Layout.step]
  cases v.type with
  | fat12 =>
    simp only [FatType.fatmult, FatType.fatdiv]
    split <;> omega
  | fat16 =>
    simp only [FatType.fatmult, FatType.fatdiv]
    omega
  | fat32 =>
    simp only [FatType.fatmult, FatType.fatdiv]
    omega

theorem fatchainBlock_linked (fillwith : Word) (fat : Nat → Byte) (bsize : Nat)
    (hbo : Layout.place bn bo = v.fatofs start) (hmax : start + count ≤ v.maxcluster + 1) :
    ∃ k ≤ count, (0 < count → 0 < k) ∧ ∃ fat',
      v.fatchainBlock fillwith bn bsize count start bo fat = (start + k, count - k, fat') ∧
        Linked v fillwith (start + count) fat fat' start (start + k) := by
  induction count generalizing start bo fat with
  | zero => exact ⟨0, Nat.le_refl 0, id, fat, rfl, .refl start⟩
  | succ count ih =>
    have hlink : (if count > 0 then BitVec.ofNat 32 (start + 1) else fillwith) =
        link fillwith (start + (count + 1)) start := by
      rw [link]
      congr 1
      exact propext ⟨fun h => by omega, fun h => by omega⟩
    have hone : Linked v fillwith (start + (count + 1)) fat _ start (start + 1) :=
      .one (by omega : start ≤ v.maxcluster)
    rw [Layout.fatchainBlock]
    rw [hlink, hbo]
    by_cases hblock : bo + v.step (start + 1) ≥ bsize
    · rw [if_pos hblock]
      exact ⟨1, by omega, fun _ => by omega, _, rfl, hone⟩
    · rw [if_neg hblock]
      cases count with
      | zero => exact ⟨1, Nat.le_refl 1, id, _, rfl, hone⟩
      | succ count =>
        have hplace : Layout.place bn (bo + v.step (start + 1)) = v.fatofs (start + 1) := by
          rw [fatofs_succ (by omega), ← hbo, Layout.place, Layout.place, Nat.add_assoc]
        obtain ⟨k, hk, -, fat', heq, hlinked⟩ := @ih _ _
          (v.writeEntry fat start (v.fatofs start) (link fillwith (start + (count + 1 + 1)) start))
          hplace (by omega)
        have hend : start + 1 + (count + 1) = start + (count + 1 + 1) := by omega
        have hnext : start + 1 + k = start + (k + 1) := by omega
        rw [hend, hnext] at hlinked
        refine ⟨k + 1, by omega, fun _ => by omega, fat', ?_,
          hone.trans hlinked (by omega) (by omega)⟩
        rw [heq, Nat.add_sub_add_right, hnext]

theorem fatchainLoop_returns (fillwith : Word) (fat : Nat → Byte)
    (hmax : start + count ≤ v.maxcluster + 1) :
    ∃ fat', Returns (fun n => v.fatchainLoop fillwith n start count fat) fat' ∧
      Linked v fillwith (start + count) fat fat' start (start + count) := by
  induction hcount : count using Nat.strongRecOn generalizing start count fat with
  | ind x ih =>
    subst hcount
    by_cases hpos : count > 0
    · obtain ⟨k, hk, hk', fat₁, heq, hlinked⟩ := fatchainBlock_linked fillwith fat
        (v.fatblock (v.fatofs start)).2.1 (v.place_fatblock (v.fatofs start)) hmax
      have hend : start + k + (count - k) = start + count := by omega
      obtain ⟨fat', hreturns, hlinked'⟩ := @ih (count - k) (by omega) (start + k) _ fat₁
        (by omega) rfl
      rw [hend] at hlinked'
      refine ⟨fat', hreturns.round fun n => ?_, hlinked.trans hlinked' (by omega) (by omega)⟩
      rw [Layout.fatchainLoop, if_pos hpos]
      dsimp only
      rw [heq]
    · have hzero : count = 0 := by omega
      subst hzero
      exact ⟨fat, (Returns.some fat).round fun n => by rw [Layout.fatchainLoop, if_neg hpos],
        .refl start⟩

theorem fatchain_returns (fillwith : Word) (fat : Nat → Byte) (hstart : clustFirst ≤ start)
    (hcount : 0 < count) (hmax : start + count ≤ v.maxcluster + 1) :
    ∃ fat', Returns (fun n => v.fatchain n fat start count fillwith) (.ok fat') ∧
      Linked v fillwith (start + count) fat fat' start (start + count) := by
  obtain ⟨fat', hreturns, hlinked⟩ := fatchainLoop_returns fillwith fat hmax
  have hsub : sub32 (start + count) 1 = start + count - 1 := by
    have hlt := v.maxcluster_lt
    rw [sub32]
    omega
  refine ⟨fat', (hreturns.map Except.ok).congr fun n => ?_, hlinked⟩
  rw [Layout.fatchain, hsub, if_neg (by omega)]

/-! Runs of free clusters: how they are measured, found and allocated. -/

open Lib.Bitmap Layout

variable {v : Layout} {s s' : Mount} {map : Array Word} {U : Nat → Prop}
  {cn start count len idx bound foundcn foundl i j k l n : Nat} {fillwith : Word}

def FreeRun (map : Array Word) (start len : Nat) : Prop :=
  ∀ i < len, start + i < map.size * nInusebits ∧ bit map (start + i) = false

theorem FreeRun.zero (map : Array Word) (start : Nat) : FreeRun map start 0 :=
  fun _ h => absurd h (Nat.not_lt_zero _)

theorem FreeRun.mono (h : FreeRun map start len) (hle : l ≤ len) : FreeRun map start l :=
  fun i hi => h i (Nat.lt_of_lt_of_le hi hle)

theorem FreeRun.item (h : FreeRun map start len) (hidx : idx < map.size)
    (hplace : start + len = idx * nInusebits + j) (hk : j + k ≤ nInusebits)
    (hclear : ∀ i, j ≤ i → i < j + k → (item map idx).getLsbD i = false) :
    FreeRun map start (len + k) := fun i hi => by
  by_cases hlt : i < len
  · exact h i hlt
  · have hword : map[idx]? = some (Layout.item map idx) := by
      rw [Layout.item, Array.getElem?_eq_getElem hidx]
      rfl
    have hat : start + i = idx * 32 + (j + (i - len)) := by
      rw [nInusebits] at hplace
      omega
    have hin : j + (i - len) < 32 := by
      rw [nInusebits] at hk
      omega
    rw [hat, bit_word hword hin]
    refine ⟨?_, hclear _ (by omega) (by omega)⟩
    rw [nInusebits]
    omega

theorem lowBits_bit (hk : k < 32) (j : Nat) : (1#32 <<< k - 1).getLsbD j = decide (j < k) := by
  have hpow : 2 ^ k < 2 ^ 32 := Nat.pow_lt_pow_right (by decide) hk
  have hpos : 0 < 2 ^ k := Nat.two_pow_pos k
  have hshift : (1#32 <<< k).toNat = 2 ^ k := by
    rw [BitVec.toNat_shiftLeft, BitVec.toNat_ofNat, Nat.one_mod, Nat.shiftLeft_eq, Nat.one_mul,
      Nat.mod_eq_of_lt hpow]
  have hones : (1#32 <<< k - 1).toNat = 2 ^ k - 1 := by
    rw [BitVec.toNat_sub_of_le (by rw [BitVec.le_def, hshift]; exact hpos), hshift]
    rfl
  rw [BitVec.getLsbD, hones, Nat.testBit_two_pow_sub_one]

section Length

theorem not_freeRun_of_bit (h : bit map (start + len) = true) : ¬FreeRun map start (len + 1) :=
  fun hrun => by
    rw [(hrun len (Nat.lt_succ_self len)).2] at h
    exact Bool.false_ne_true h

theorem not_freeRun_of_size (h : map.size * nInusebits ≤ start + len) :
    ¬FreeRun map start (len + 1) :=
  fun hrun => Nat.not_lt.mpr h (hrun len (Nat.lt_succ_self len)).1

theorem not_freeRun_item (hidx : idx < map.size) (hk : k < nInusebits)
    (hplace : start + len = idx * nInusebits + k) (hset : (item map idx).getLsbD k = true) :
    ¬FreeRun map start (len + 1) := by
  have hword : map[idx]? = some (item map idx) := by
    rw [item, Array.getElem?_eq_getElem hidx]
    rfl
  refine not_freeRun_of_bit ?_
  rw [hplace]
  exact (bit_word hword hk).trans hset

theorem chainlengthLoop_free (hsize : idx + r < map.size)
    (hplace : start + len = (idx + 1) * nInusebits) (h : FreeRun map start len) :
    FreeRun map start (chainlengthLoop map count r idx len) := by
  induction r generalizing idx len with
  | zero => exact h
  | succ r ih =>
    have hbegin : start + len = (idx + 1) * nInusebits + 0 := hplace
    rw [chainlengthLoop]
    split
    · exact h
    · split
      · next hne =>
        obtain ⟨k, hk, hffs, -, hclear⟩ := ffs_spec hne
        rw [hffs, Nat.add_sub_cancel]
        refine h.item (by omega) hbegin ?_ fun i _ hi => ?_
        · rw [nInusebits]
          omega
        · exact hclear i (by omega)
      · next hzero =>
        have hzero := not_not.mp hzero
        refine ih (by omega) ?_ (h.item (by omega) hbegin ?_ ?_)
        · rw [nInusebits] at hplace ⊢
          omega
        · rw [Nat.zero_add]
        · intro i _ _
          rw [hzero]
          exact BitVec.getLsbD_zero

theorem chainlengthLoop_stops (hsize : idx + r + 1 = map.size)
    (hplace : start + len = (idx + 1) * nInusebits) : count ≤ chainlengthLoop map count r idx len ∨
      ¬FreeRun map start (chainlengthLoop map count r idx len + 1) := by
  induction r generalizing idx len with
  | zero =>
    refine .inr (not_freeRun_of_size ?_)
    rw [chainlengthLoop, hplace, ← hsize]
  | succ r ih =>
    rw [chainlengthLoop]
    split
    · next hge => exact .inl hge
    · split
      · next hne =>
        obtain ⟨k, hk, hffs, hset, -⟩ := ffs_spec hne
        rw [hffs, Nat.add_sub_cancel]
        exact .inr (not_freeRun_item (by omega) hk (by omega) hset)
      · refine ih (by omega) ?_
        rw [nInusebits] at hplace ⊢
        omega

theorem chainlength_le (v : Layout) (map : Array Word) (start count : Nat) :
    v.chainlength map start count ≤ count := by
  rw [chainlength]
  split
  · exact Nat.zero_le _
  · dsimp only
    split
    · exact Nat.le_trans (Nat.min_le_left _ _) (Nat.min_le_right _ _)
    · split
      · exact Nat.min_le_left _ _
      · exact Nat.le_trans (Nat.min_le_left _ _) (Nat.min_le_right _ _)

theorem chainlength_uncut (hsize : map.size = v.mapSize) (hmax : start ≤ v.maxcluster)
    (count : Nat) : ∃ len, FreeRun map start len ∧ (count ≤ len ∨ ¬FreeRun map start (len + 1)) ∧
      v.chainlength map start count =
        min (min len count) (v.maxcluster - start % nInusebits + 1) := by
  have hsize' : map.size = v.maxcluster / nInusebits + 1 := by
    rw [hsize, mapSize, nInusebits]
    omega
  have hle : start / nInusebits ≤ v.maxcluster / nInusebits := Nat.div_le_div_right hmax
  have hmod : start % nInusebits < 32 := Nat.mod_lt start (by decide)
  have hplace : start + 0 = start / nInusebits * nInusebits + start % nInusebits :=
    (Nat.div_add_mod' start nInusebits).symm
  have hword : ∀ i < 32,
      (item map (start / nInusebits) &&& ~~~(1#32 <<< (start % nInusebits) - 1)).getLsbD i =
        (decide (start % nInusebits ≤ i) && (item map (start / nInusebits)).getLsbD i) :=
    fun i hlt => by
      rw [BitVec.getLsbD_and, BitVec.getLsbD_not, lowBits_bit hmod]
      by_cases hi : i < start % nInusebits
      · simp [hi]
      · simp [hlt, hi, Nat.le_of_not_lt hi]
  have hclear : ∀ i, start % nInusebits ≤ i → i < 32 →
      (item map (start / nInusebits) &&& ~~~(1#32 <<< (start % nInusebits) - 1)).getLsbD i =
        false → (item map (start / nInusebits)).getLsbD i = false := fun i hi hlt hbit => by
    rwa [hword i hlt, decide_eq_true hi, Bool.true_and] at hbit
  rw [chainlength, if_neg (Nat.not_lt.mpr hmax)]
  dsimp only
  split
  · next hne =>
    obtain ⟨k, hk, hffs, hset, hbelow⟩ := ffs_spec hne
    rw [hword k hk, Bool.and_eq_true, decide_eq_true_iff] at hset
    have hrun := (FreeRun.zero map start).item (k := k - start % nInusebits) (by omega) hplace
      (by rw [nInusebits] at hmod ⊢; omega) fun i hi hlt => hclear i hi (by omega)
        (hbelow i (by omega))
    rw [Nat.zero_add] at hrun
    refine ⟨k - start % nInusebits, hrun, .inr ?_, by rw [hffs, Nat.add_sub_cancel]⟩
    exact not_freeRun_item (by omega) hk (by omega) hset.2
  · next hzero =>
    have hzero := not_not.mp hzero
    have hrun := (FreeRun.zero map start).item (k := nInusebits - start % nInusebits)
      (by omega) hplace (by rw [nInusebits] at hmod ⊢; omega) fun i hi hlt => by
        rw [nInusebits] at hlt hmod
        exact hclear i hi (by omega) (by rw [hzero]; exact BitVec.getLsbD_zero)
    rw [Nat.zero_add] at hrun
    have hnext : start + (nInusebits - start % nInusebits) =
        (start / nInusebits + 1) * nInusebits := by
      rw [Nat.add_zero] at hplace
      rw [nInusebits] at hplace hmod ⊢
      omega
    split
    · next hcount =>
      exact ⟨_, hrun, .inl hcount, by rw [Nat.min_eq_right hcount]⟩
    · exact ⟨_, chainlengthLoop_free (by omega) hnext hrun,
        chainlengthLoop_stops (by omega) hnext, rfl⟩

theorem chainlength_free (hsize : map.size = v.mapSize) (start count : Nat) :
    FreeRun map start (v.chainlength map start count) := by
  by_cases hmax : start ≤ v.maxcluster
  · obtain ⟨len, hrun, -, heq⟩ := chainlength_uncut hsize hmax count
    rw [heq]
    exact hrun.mono (Nat.le_trans (Nat.min_le_left _ _) (Nat.min_le_left _ _))
  · rw [chainlength, if_pos (Nat.lt_of_not_le hmax)]
    exact .zero map start

end Length

section Alloc

theorem FreeRun.not_used (h : Mirrored v s) (hrun : FreeRun s.inusemap start len) (hi : i < len) :
    v.InRange (start + i) ∧ v.entry s.fat (start + i) = 0 := by
  obtain ⟨hlt, hclear⟩ := hrun i hi
  rw [h.size] at hlt
  have hfree := ((mirrored_iff.mp h).clear_iff hlt).mp hclear
  rw [Used, Classical.not_imp, not_not] at hfree
  exact hfree

theorem usemapAllocRun_tracks (h : Tracks v s U)
    (hfree : ∀ i < n, start + i ≤ v.maxcluster ∧ ¬U (start + i)) :
    ∃ s', v.usemapAllocRun s start n = some s' ∧ s'.fat = s.fat ∧
      Tracks v s' fun d => (start ≤ d ∧ d < start + n) ∨ U d := by
  induction n generalizing s start U with
  | zero => exact ⟨s, rfl, rfl, h.congr fun d _ => ⟨.inr, fun hd => hd.elim (by omega) id⟩⟩
  | succ n ih =>
    obtain ⟨hmax, hnot⟩ := hfree 0 (by omega)
    rw [Nat.add_zero] at hmax hnot
    obtain ⟨s₁, hs₁, hfat₁, h₁⟩ := h.alloc hmax hnot
    have hrest : ∀ i < n, start + 1 + i ≤ v.maxcluster ∧
        ¬(start + 1 + i = start ∨ U (start + 1 + i)) := fun i hi => by
      obtain ⟨hmax', hnot'⟩ := hfree (i + 1) (by omega)
      rw [Nat.add_assoc, Nat.add_comm 1 i]
      exact ⟨hmax', fun hor => hor.elim (fun heq => by omega) hnot'⟩
    obtain ⟨s', hs', hfat', h'⟩ := ih h₁ hrest
    refine ⟨s', ?_, hfat'.trans hfat₁, h'.congr fun d _ => ?_⟩
    · rw [usemapAllocRun, hs₁]
      exact hs'
    · constructor
      · rintro (hd | rfl | hd)
        · exact .inl ⟨by omega, by omega⟩
        · exact .inl ⟨Nat.le_refl _, by omega⟩
        · exact .inr hd
      · rintro (hd | hd)
        · by_cases heq : d = start
          · exact .inr (.inl heq)
          · exact .inl ⟨by omega, by omega⟩
        · exact .inr (.inr hd)

/-- What an allocation leaves: the clusters that it gives are used, and so are those that were. -/
structure Allocated (v : Layout) (s : Mount) (count : Nat) (r : Ret × Nat × Nat × Mount) :
    Prop where
  mirrored : Mirrored v r.2.2.2
  kept : ∀ cn, v.InRange cn → v.entry s.fat cn ≠ 0 → v.entry r.2.2.2.fat cn ≠ 0
  returns : r.1 ≠ .panic
  run : r.1 = .ok → 0 < count → 0 < r.2.2.1 ∧ r.2.2.1 ≤ count ∧
    ∀ i < r.2.2.1, v.InRange (r.2.1 + i) ∧ v.entry r.2.2.2.fat (r.2.1 + i) ≠ 0

theorem Allocated.failed (h : Mirrored v s) (count cn got : Nat) (e : Errno) :
    Allocated v s count (.error e, cn, got, s) :=
  ⟨h, fun _ _ hne => hne, Ret.noConfusion, Ret.noConfusion⟩

theorem link_ne_zero {v : Volume} (hcn : v.InRange cn) (hmax : l ≤ v.maxcluster + 1) :
    link clustEofe l cn &&& v.type.fatmask ≠ 0 := by
  rw [link]
  split
  · exact cluster_ne_zero ⟨Nat.le_succ_of_le hcn.1, by omega⟩
  · exact eofe_ne_zero v

theorem chainalloc_eq (hs : v.usemapAllocRun s start len = some s') (n : Nat) :
    v.chainalloc n s start len fillwith =
      (v.fatchain n s'.fat start len fillwith).bind fun r => match r with
        | .error e => some (.error e, 0, 0, s')
        | .ok fat => some (.ok, start, len, { s' with fat }) := by
  rw [chainalloc, hs]
  rfl

theorem chainalloc_zero (h : Mirrored v s) (start : Nat) :
    ∃ r, Returns (fun n => v.chainalloc n s start 0 clustEofe) r ∧ Allocated v s 0 r := by
  by_cases hin : start < clustFirst ∨ sub32 (start + 0) 1 > v.maxcluster
  · have hfails : Returns (fun n => v.fatchain n s.fat start 0 clustEofe) (.error .EINVAL) :=
      (Returns.some _).congr fun n => by rw [fatchain, if_pos hin]
    exact ⟨(.error .EINVAL, 0, 0, s), Returns.congr (hfails.bind (Returns.some _))
      (chainalloc_eq rfl), .failed h 0 0 0 .EINVAL⟩
  · have hloop : Returns (fun n => v.fatchainLoop clustEofe n start 0 s.fat) s.fat :=
      (Returns.some s.fat).round fun n => by rw [fatchainLoop, if_neg (Nat.lt_irrefl 0)]
    have hkeeps : Returns (fun n => v.fatchain n s.fat start 0 clustEofe) (.ok s.fat) :=
      (hloop.map Except.ok).congr fun n => by rw [fatchain, if_neg hin]
    exact ⟨(.ok, start, 0, s), Returns.congr (hkeeps.bind (Returns.some _)) (chainalloc_eq rfl),
      h, fun _ _ hne => hne, Ret.noConfusion, fun _ hlt => absurd hlt (Nat.lt_irrefl 0)⟩

theorem chainalloc_allocated {v : Volume} (h : Mirrored v s) (hrun : FreeRun s.inusemap start len)
    (hlen : 0 < len) (hcount : len ≤ count) :
    ∃ r, Returns (fun n => v.chainalloc n s start len clustEofe) r ∧ Allocated v s count r := by
  have hfree := fun i (hi : i < len) => hrun.not_used h hi
  have hfirst : clustFirst ≤ start := (hfree 0 hlen).1.1
  have hlast := (hfree (len - 1) (by omega)).1.2
  have htracks := mirrored_iff.mp h
  have hnot : ∀ i < len, start + i ≤ v.maxcluster ∧ ¬Used v s.fat (start + i) := fun i hi =>
    ⟨(hfree i hi).1.2, fun hused => hused (hfree i hi).1 (hfree i hi).2⟩
  obtain ⟨s₁, hs₁, hfat₁, h₁⟩ := usemapAllocRun_tracks htracks hnot
  obtain ⟨fat', hfat', hlinked⟩ := fatchain_returns (v := v) clustEofe s.fat hfirst hlen
    (by omega : start + len ≤ v.maxcluster + 1)
  have hentry : ∀ cn, v.InRange cn → start ≤ cn ∧ cn < start + len → v.entry fat' cn ≠ 0 :=
    fun cn hcn hin => by
      rw [hlinked cn hcn.2, if_pos hin]
      exact link_ne_zero hcn (by omega)
  refine ⟨(.ok, start, len, { s₁ with fat := fat' }),
    Returns.congr (hfat'.bind (Returns.some _)) (hfat₁ ▸ chainalloc_eq hs₁), ?_,
    fun cn hcn hne => ?_, Ret.noConfusion, fun _ _ => ⟨hlen, hcount, fun i (hi : i < len) => ?_⟩⟩
  · refine mirrored_iff.mpr ((h₁.withFat fat').congr fun d _ => ?_)
    constructor
    · rintro (hd | hd) hin
      · exact hentry d hin hd
      · by_cases hmem : start ≤ d ∧ d < start + len
        · exact hentry d hin hmem
        · rw [hlinked d hin.2, if_neg hmem]
          exact hd hin
    · intro hd
      by_cases hmem : start ≤ d ∧ d < start + len
      · exact .inl hmem
      · refine .inr fun hin => ?_
        have hne := hd hin
        rwa [hlinked d hin.2, if_neg hmem] at hne
  · by_cases hmem : start ≤ cn ∧ cn < start + len
    · exact hentry cn hcn hmem
    · change v.entry fat' cn ≠ 0
      rw [hlinked cn hcn.2, if_neg hmem]
      exact hne
  · have hin := (hfree i hi).1
    exact ⟨hin, hentry (start + i) hin ⟨by omega, by omega⟩⟩

def Found (map : Array Word) (count : Nat) : Option Nat × Nat × Nat → Prop
  | (some cn, _, _) => FreeRun map cn count
  | (none, cn, l) => FreeRun map cn l ∧ l ≤ count

theorem next_free {word : Word} (hk : k < 32) (hne : word ||| 1#32 <<< k - 1 ≠ BitVec.allOnes 32) :
    k + 1 ≤ ffs ((word ||| 1#32 <<< k - 1) ^^^ BitVec.allOnes 32) := by
  have hne' : (word ||| 1#32 <<< k - 1) ^^^ BitVec.allOnes 32 ≠ 0 := fun hzero => hne (by
    have hxor := congrArg (· ^^^ BitVec.allOnes 32) hzero
    simpa [BitVec.xor_assoc] using hxor)
  obtain ⟨i, hi, hffs, hset, -⟩ := ffs_spec hne'
  rw [BitVec.getLsbD_xor, BitVec.getLsbD_or, lowBits_bit hk, BitVec.getLsbD_allOnes] at hset
  have hge : ¬i < k := fun hlt => by simp [hlt, hi] at hset
  omega

theorem clusterallocLoop_returns (hsize : map.size = v.mapSize)
    (hfound : FreeRun map foundcn foundl) (hle : foundl ≤ count) (bound cn : Nat) :
    ∃ r, Returns (fun n => v.clusterallocLoop map count bound n cn foundcn foundl) r ∧
      Found map count r := by
  induction hfuel : bound - cn using Nat.strongRecOn generalizing cn foundcn foundl with
  | ind d ih =>
    subst hfuel
    by_cases hcn : cn < bound
    · by_cases hfull : item map (cn / nInusebits) ||| 1#32 <<< (cn % nInusebits) - 1 ≠
          BitVec.allOnes 32
      · -- The first free cluster from here on.
        obtain ⟨c, hcdef⟩ : ∃ c, c = cn / nInusebits * nInusebits + ffs ((item map
          (cn / nInusebits) ||| 1#32 <<< (cn % nInusebits) - 1) ^^^ BitVec.allOnes 32) - 1 :=
          ⟨_, rfl⟩
        have hc : cn ≤ c := by
          have hnext : cn % nInusebits + 1 ≤ ffs ((item map (cn / nInusebits) |||
            1#32 <<< (cn % nInusebits) - 1) ^^^ BitVec.allOnes 32) :=
            next_free (Nat.mod_lt cn (by decide)) hfull
          have hdiv := Nat.div_add_mod' cn nInusebits
          omega
        have hrun := chainlength_free hsize c count
        have hlen := chainlength_le v map c count
        by_cases hall : v.chainlength map c count ≥ count
        · refine ⟨(some c, foundcn, foundl), (Returns.some _).round fun n => ?_, hrun.mono hall⟩
          rw [clusterallocLoop, if_pos hcn]
          simp only [if_pos hfull, ← hcdef]
          exact if_pos hall
        · by_cases hbest : v.chainlength map c count > foundl
          · obtain ⟨r, hr, hfound'⟩ := ih _ (by omega) hrun hlen
              (c + v.chainlength map c count + 1) rfl
            refine ⟨r, hr.round fun n => ?_, hfound'⟩
            rw [clusterallocLoop, if_pos hcn]
            simp only [if_pos hfull, ← hcdef]
            exact (if_neg hall).trans (if_pos hbest)
          · obtain ⟨r, hr, hfound'⟩ := ih _ (by omega) hfound hle
              (c + v.chainlength map c count + 1) rfl
            refine ⟨r, hr.round fun n => ?_, hfound'⟩
            rw [clusterallocLoop, if_pos hcn]
            simp only [if_pos hfull, ← hcdef]
            exact (if_neg hall).trans (if_neg hbest)
      · have hmod : cn % nInusebits < nInusebits := Nat.mod_lt cn (by decide)
        obtain ⟨r, hr, hfound'⟩ := ih _ (by omega) hfound hle
          (cn + (nInusebits - cn % nInusebits)) rfl
        refine ⟨r, hr.round fun n => ?_, hfound'⟩
        rw [clusterallocLoop, if_pos hcn]
        simp only [if_neg hfull]
    · exact ⟨(none, foundcn, foundl), (Returns.some _).round fun n => by
        rw [clusterallocLoop, if_neg hcn], hfound, hle⟩

theorem chainalloc_found {v : Volume} (h : Mirrored v s) (hrun : FreeRun s.inusemap start len)
    (hle : len ≤ count) (hzero : len = 0 → count = 0) :
    ∃ r, Returns (fun n => v.chainalloc n s start len clustEofe) r ∧ Allocated v s count r := by
  rcases Nat.eq_zero_or_pos len with rfl | hlen
  · rw [hzero rfl]
    exact chainalloc_zero h start
  · exact chainalloc_allocated h hrun hlen hle

theorem clusterallocFrom_allocated {v : Volume} (h : Mirrored v s)
    (hrun : FreeRun s.inusemap start len) (hle : len ≤ count) :
    ∃ r, Returns (fun n => v.clusterallocFrom n s start count len) r ∧ Allocated v s count r := by
  let newst := (start * 1103515245 + 12345) % 2 ^ 32 % (v.maxcluster + 1)
  have hall : ∀ cn, FreeRun s.inusemap cn count → ∃ r,
      Returns (fun n => v.chainalloc n s cn count clustEofe) r ∧ Allocated v s count r :=
    fun cn hcn => chainalloc_found h hcn (Nat.le_refl _) id
  obtain ⟨r₁, hr₁, hfound₁⟩ := clusterallocLoop_returns h.size
    (.zero s.inusemap 0) (Nat.zero_le count) (v.maxcluster + 1) newst
  obtain ⟨_ | cn, foundcn, foundl⟩ := r₁
  · obtain ⟨hfree₁, hle₁⟩ := hfound₁
    obtain ⟨r₂, hr₂, hfound₂⟩ := clusterallocLoop_returns h.size hfree₁ hle₁ newst 0
    obtain ⟨_ | cn, foundcn, foundl⟩ := r₂
    · obtain ⟨hfree₂, hle₂⟩ := hfound₂
      have hlast : ∃ r, Returns (fun n => if foundl = 0 then some (.error .ENOSPC, 0, 0, s)
          else if len ≠ 0 then v.chainalloc n s start len clustEofe
          else v.chainalloc n s foundcn foundl clustEofe) r ∧ Allocated v s count r := by
        by_cases hnone : foundl = 0
        · exact ⟨_, (Returns.some _).congr fun n => if_pos hnone, .failed h count 0 0 .ENOSPC⟩
        · by_cases hlen : len ≠ 0
          · obtain ⟨r, hr, hallocated⟩ := chainalloc_found h hrun hle fun hz => absurd hz hlen
            exact ⟨r, hr.congr fun n => by rw [if_neg hnone, if_pos hlen], hallocated⟩
          · obtain ⟨r, hr, hallocated⟩ := chainalloc_found h hfree₂ hle₂ fun hz => absurd hz hnone
            exact ⟨r, hr.congr fun n => by rw [if_neg hnone, if_neg hlen], hallocated⟩
      obtain ⟨r, hr, hallocated⟩ := hlast
      exact ⟨r, (hr₁.bind (hr₂.bind hr)).congr fun n => by rw [Layout.clusterallocFrom]; rfl, hallocated⟩
    · obtain ⟨r, hr, hallocated⟩ := hall cn hfound₂
      exact ⟨r, (hr₁.bind (hr₂.bind hr)).congr fun n => by rw [Layout.clusterallocFrom]; rfl, hallocated⟩
  · obtain ⟨r, hr, hallocated⟩ := hall cn hfound₁
    exact ⟨r, (hr₁.bind hr).congr fun n => by rw [Layout.clusterallocFrom]; rfl, hallocated⟩

theorem clusteralloc_allocated {v : Volume} (h : Mirrored v s) (usec start count : Nat) :
    ∃ r, Returns (fun n => v.clusteralloc n s usec start count) r ∧ Allocated v s count r := by
  by_cases hstart : start ≠ 0
  · have hrun := chainlength_free (v := v) h.size start count
    have hle := chainlength_le v s.inusemap start count
    by_cases hall : v.chainlength s.inusemap start count ≥ count
    · obtain ⟨r, hr, hallocated⟩ := chainalloc_found h (hrun.mono hall) (Nat.le_refl _) id
      refine ⟨r, hr.congr fun n => ?_, hallocated⟩
      rw [clusteralloc, if_pos hstart]
      exact if_pos hall
    · obtain ⟨r, hr, hallocated⟩ := clusterallocFrom_allocated h hrun hle
      refine ⟨r, hr.congr fun n => ?_, hallocated⟩
      rw [clusteralloc, if_pos hstart]
      exact if_neg hall
  · obtain ⟨r, hr, hallocated⟩ := clusterallocFrom_allocated h
      (.zero s.inusemap (usec >>> 10 ||| usec)) (Nat.zero_le count)
    exact ⟨r, hr.congr fun n => by rw [clusteralloc, if_neg hstart], hallocated⟩

end Alloc

end Mbsd.Msdosfs
