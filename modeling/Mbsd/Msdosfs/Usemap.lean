import Mbsd.Msdosfs.Model

/-! The entries of the FAT as runs of its bits: each has its own, and is read and written there. -/

namespace Mbsd.Msdosfs

open BitVec

variable {m : Nat → Byte} {p q k j cn cn' : Nat} {x newc : Word} {v : Layout} {bp : Option Nat}

def fatBit (m : Nat → Byte) (k : Nat) : Bool := (m (k / 8)).getLsbD (k % 8)

theorem fatBit_add (hj : j < 8) : fatBit m (8 * p + j) = (m p).getLsbD j := by
  rw [fatBit, Nat.mul_add_div (by omega), Nat.mul_add_mod, Nat.div_eq_of_lt hj,
    Nat.mod_eq_of_lt hj, Nat.add_zero]

theorem getushort_bit (m : Nat → Byte) (p j : Nat) :
    (getushort m p).getLsbD j = (decide (j < 16) && fatBit m (8 * p + j)) := by
  rw [getushort, getLsbD_or, getLsbD_setWidth, getLsbD_shiftLeft, getLsbD_setWidth]
  by_cases h8 : j < 8
  · rw [fatBit_add h8]
    simp [h8, show j < 16 by omega, show j < 32 by omega]
  · have hlow : (m p).getLsbD j = false := getLsbD_of_ge _ _ (by omega)
    by_cases h16 : j < 16
    · rw [show 8 * p + j = 8 * (p + 1) + (j - 8) by omega, fatBit_add (by omega)]
      simp [h8, h16, hlow, show j < 32 by omega, show j - 8 < 32 by omega]
    · have hhigh : (m (p + 1)).getLsbD (j - 8) = false := getLsbD_of_ge _ _ (by omega)
      simp [h16, hlow, hhigh]

theorem getulong_bit (m : Nat → Byte) (p j : Nat) :
    (getulong m p).getLsbD j = (decide (j < 32) && fatBit m (8 * p + j)) := by
  rw [getulong, getLsbD_or, getLsbD_shiftLeft, getushort_bit, getushort_bit]
  by_cases h16 : j < 16
  · simp [h16, show j < 32 by omega]
  · rw [show 8 * (p + 2) + (j - 16) = 8 * p + j by omega]
    by_cases h32 : j < 32
    · simp [h16, h32, show j - 16 < 16 by omega]
    · simp [h16, h32]

theorem putushort_bit (m : Nat → Byte) (p : Nat) (x : Word) (k : Nat) : fatBit (putushort m p x) k =
      if 8 * p ≤ k ∧ k < 8 * p + 16 then x.getLsbD (k - 8 * p) else fatBit m k := by
  rw [fatBit, putushort]
  have hmod : k % 8 < 8 := Nat.mod_lt k (by decide)
  by_cases h0 : k / 8 = p
  · rw [if_pos h0, if_pos (by omega), getLsbD_setWidth, show k - 8 * p = k % 8 by omega]
    simp [hmod]
  · by_cases h1 : k / 8 = p + 1
    · rw [if_neg h0, if_pos h1, if_pos (by omega), getLsbD_setWidth,
        getLsbD_ushiftRight, show k - 8 * p = 8 + k % 8 by omega]
      simp [hmod]
    · rw [if_neg h0, if_neg h1, if_neg (by omega), fatBit]

theorem putulong_bit (m : Nat → Byte) (p : Nat) (x : Word) (k : Nat) : fatBit (putulong m p x) k =
      if 8 * p ≤ k ∧ k < 8 * p + 32 then x.getLsbD (k - 8 * p) else fatBit m k := by
  rw [putulong, putushort_bit, putushort_bit, getLsbD_ushiftRight]
  by_cases hhigh : 8 * (p + 2) ≤ k ∧ k < 8 * (p + 2) + 16
  · rw [if_pos hhigh, if_pos (by omega), show 16 + (k - 8 * (p + 2)) = k - 8 * p by omega]
  · rw [if_neg hhigh]
    by_cases hlow : 8 * p ≤ k ∧ k < 8 * p + 16
    · rw [if_pos hlow, if_pos (by omega)]
    · rw [if_neg hlow, if_neg (by omega)]

namespace FatType

def stride : FatType → Nat
  | fat12 => 12
  | fat16 => 16
  | fat32 => 32

def width : FatType → Nat
  | fat12 => 12
  | fat16 => 16
  | fat32 => 28

theorem width_le_stride (t : FatType) : t.width ≤ t.stride := by cases t <;> decide

theorem fatmask_bit (t : FatType) (j : Nat) : t.fatmask.getLsbD j = decide (j < t.width) := by
  by_cases hj : j < 32
  · revert j
    cases t <;> decide
  · rw [getLsbD_of_ge _ _ (by omega)]
    have hw : t.width ≤ 28 := by cases t <;> decide
    exact (decide_eq_false (by omega)).symm

end FatType

namespace Layout

theorem fatblocksize_pos (v : Layout) : 0 < v.fatblocksize := by
  rw [fatblocksize]
  split
  · exact Nat.mul_pos (by decide) v.sector.1
  · decide

theorem fatblocksec_eq (v : Layout) : v.fatblocksec * devBsize = v.fatblocksize := by
  rw [fatblocksec, Nat.div_mul_cancel]
  rw [fatblocksize]
  split
  · exact Nat.dvd_mul_left_of_dvd v.sector.2 3
  · decide

theorem place_fatblock (v : Layout) (ofs : Nat) :
    place (v.fatblock ofs).1 (v.fatblock ofs).2.2 = ofs := by
  rw [place, fatblock]
  rw [Nat.mul_assoc, v.fatblocksec_eq, Nat.div_add_mod']

theorem entryPlace_eq (v : Layout) (cn : Nat) : v.entryPlace cn = v.fatofs cn :=
  v.place_fatblock (v.fatofs cn)

theorem maxcluster_lt (v : Layout) : v.maxcluster < 2 ^ 31 := by
  have hmult : 2 ≤ v.type.fatmult := by cases v.type <;> decide
  have hle := Nat.mul_le_mul_left v.maxcluster hmult
  have hlt := v.offsets
  omega

theorem fatofs_eq (h : cn ≤ v.maxcluster) : v.fatofs cn = cn * v.type.fatmult / v.type.fatdiv := by
  rw [fatofs, Nat.mod_eq_of_lt (Nat.lt_of_le_of_lt (Nat.mul_le_mul_right _ h) v.offsets)]

theorem fatofs_bits (h : cn ≤ v.maxcluster) :
    8 * v.fatofs cn + (if v.type = .fat12 ∧ cn % 2 = 1 then 4 else 0) = cn * v.type.stride := by
  rw [fatofs_eq h]
  cases v.type <;> simp only [FatType.fatmult, FatType.fatdiv, FatType.stride] <;> split <;>
    simp_all <;> omega

def entry (v : Layout) (fat : Nat → Byte) (cn : Nat) : Word :=
  v.readEntry fat cn (v.fatofs cn)

theorem entry_bit (h : cn ≤ v.maxcluster) (j : Nat) : (v.entry m cn).getLsbD j =
      (decide (j < v.type.width) && fatBit m (cn * v.type.stride + j)) := by
  have hbits := fatofs_bits h
  rw [← hbits, entry, readEntry, getLsbD_and, FatType.fatmask_bit, Bool.and_comm]
  by_cases hj : j < v.type.width
  · rw [decide_eq_true hj, Bool.true_and, Bool.true_and]
    cases ht : v.type with
    | fat12 =>
      rw [ht] at hj
      have hj : j < 12 := hj
      by_cases hodd : cn % 2 = 1
      · simp [hodd, getushort_bit, show 4 + j < 16 by omega, Nat.add_assoc]
      · simp [hodd, getushort_bit, show j < 16 by omega]
    | fat16 =>
      rw [ht] at hj
      have hj : j < 16 := hj
      simp [getushort_bit, hj]
    | fat32 =>
      rw [ht] at hj
      have hj : j < 28 := hj
      rw [if_pos rfl, if_neg (by simp), if_neg (by simp), getulong_bit,
        decide_eq_true (by omega : j < 32), Bool.true_and, Nat.add_zero]
  · rw [decide_eq_false hj, Bool.false_and, Bool.false_and]

theorem ones_bit {a b : Nat} (hx : ∀ j < 32, x.getLsbD j = decide (a ≤ j ∧ j < b))
    (hb : b ≤ 32) (j : Nat) : x.getLsbD j = decide (a ≤ j ∧ j < b) := by
  by_cases hj : j < 32
  · exact hx j hj
  · rw [getLsbD_of_ge _ _ (by omega)]
    exact (decide_eq_false (by omega)).symm

/-- The low bits of a masked write are the new value's and the rest of the read ones stay. -/
theorem masked_bit {old keep mask : Word} {a b : Nat} (hab : a ≤ b) (hb : b ≤ 32)
    (hkeep : ∀ j < 32, keep.getLsbD j = decide (a ≤ j ∧ j < b))
    (hmask : ∀ j < 32, mask.getLsbD j = decide (0 ≤ j ∧ j < a))
    (hold : ∀ j, old.getLsbD j = (decide (j < b) && fatBit m (q + j))) :
    (if q ≤ k ∧ k < q + b then (old &&& keep ||| newc &&& mask).getLsbD (k - q) else fatBit m k) =
      if q ≤ k ∧ k < q + a then newc.getLsbD (k - q) else fatBit m k := by
  by_cases hin : q ≤ k ∧ k < q + b
  · rw [if_pos hin, getLsbD_or, getLsbD_and, getLsbD_and, hold, ones_bit hkeep hb,
      ones_bit hmask (hab.trans hb), Nat.add_sub_cancel' hin.1]
    by_cases hlow : k < q + a
    · rw [if_pos (by omega)]
      simp [show k - q < a by omega]
    · rw [if_neg (by omega)]
      simp [show ¬k - q < a by omega, show a ≤ k - q by omega, show k - q < b by omega]
  · rw [if_neg hin, if_neg (by omega)]

theorem writeEntry_bit (h : cn ≤ v.maxcluster) (m : Nat → Byte) (newc : Word) (k : Nat) :
    fatBit (v.writeEntry m cn (v.fatofs cn) newc) k =
      if cn * v.type.stride ≤ k ∧ k < cn * v.type.stride + v.type.width then
        newc.getLsbD (k - cn * v.type.stride) else fatBit m k := by
  have hbits := fatofs_bits h
  rw [← hbits, writeEntry]
  generalize v.fatofs cn = p
  cases ht : v.type with
  | fat12 =>
    simp only [FatType.width, true_and]
    rw [putushort_bit]
    by_cases hodd : cn % 2 = 1
    · simp only [hodd, if_true]
      by_cases hin : 8 * p ≤ k ∧ k < 8 * p + 16
      · have hmask := ones_bit (show ∀ j < 32, (0x000f : Word).getLsbD j = decide (0 ≤ j ∧ j < 4)
          by decide) (by decide) (k - 8 * p)
        rw [if_pos hin, getLsbD_or, getLsbD_and, getLsbD_shiftLeft,
          getushort_bit, hmask, Nat.add_sub_cancel' hin.1]
        by_cases hlow : k < 8 * p + 4
        · rw [if_neg (by omega)]
          simp [show k - 8 * p < 4 by omega, show k - 8 * p < 16 by omega]
        · rw [if_pos (by omega), show k - 8 * p - 4 = k - (8 * p + 4) by omega]
          simp [show ¬k - 8 * p < 4 by omega, show k - 8 * p < 32 by omega]
      · rw [if_neg hin, if_neg (by omega)]
    · simp only [hodd, if_false, Nat.add_zero]
      exact masked_bit (by decide) (by decide) (by decide) (by decide) (getushort_bit m p)
  | fat16 =>
    simp only [FatType.width, Nat.add_zero, reduceCtorEq, false_and, if_false]
    rw [putushort_bit]
  | fat32 =>
    simp only [FatType.width, Nat.add_zero, reduceCtorEq, false_and, if_false]
    rw [putulong_bit]
    exact masked_bit (by decide) (by decide) (by decide) (by decide) (getulong_bit m p)

theorem entry_writeEntry (h : cn ≤ v.maxcluster) (h' : cn' ≤ v.maxcluster)
    (m : Nat → Byte) (newc : Word) : v.entry (v.writeEntry m cn (v.fatofs cn) newc) cn' =
      if cn' = cn then newc &&& v.type.fatmask else v.entry m cn' := by
  refine eq_of_getLsbD_eq fun j _ => ?_
  rw [entry_bit h', writeEntry_bit h]
  have hwidth := v.type.width_le_stride
  by_cases hcn : cn' = cn
  · subst hcn
    rw [if_pos rfl, getLsbD_and, FatType.fatmask_bit, Nat.add_sub_cancel_left]
    by_cases hj : j < v.type.width
    · rw [if_pos (by omega), Bool.and_comm]
    · rw [decide_eq_false hj, Bool.false_and, Bool.and_false]
  · rw [if_neg hcn, entry_bit h']
    by_cases hj : j < v.type.width
    · rw [if_neg]
      rintro ⟨hle, hlt⟩
      rcases Nat.lt_or_gt_of_ne hcn with hlt' | hgt
      · have hmul := Nat.mul_le_mul_right v.type.stride hlt'
        rw [Nat.succ_mul] at hmul
        omega
      · have hmul := Nat.mul_le_mul_right v.type.stride hgt
        rw [Nat.succ_mul] at hmul
        omega
    · rw [decide_eq_false hj, Bool.false_and, Bool.false_and]

end Layout

/-! What the map of used clusters and the count of free ones say, and how a cluster is marked. -/

open Lib.Bitmap Bool

variable {v : Layout} {s s' : Mount} {U U' : Nat → Prop} {cn d : Nat}

namespace Layout

def mapSize (v : Layout) : Nat := (v.maxcluster + 1 + (nInusebits - 1)) / nInusebits

theorem lt_mapBits (v : Layout) (h : cn ≤ v.maxcluster) : cn < v.mapSize * nInusebits := by
  rw [mapSize, nInusebits]
  omega

theorem mapBits_lt (v : Layout) : v.mapSize * nInusebits < 2 ^ 31 + 32 := by
  have hmax := v.maxcluster_lt
  rw [mapSize, nInusebits]
  omega

end Layout

def clearBits (map : Array Word) : Finset Nat :=
  (Finset.range (map.size * nInusebits)).filter fun d => bit map d = false

structure Tracks (v : Layout) (s : Mount) (U : Nat → Prop) : Prop where
  size : s.inusemap.size = v.mapSize
  bits : ∀ d < v.mapSize * nInusebits, bit s.inusemap d = true ↔ U d
  count : s.freeclustercount = (clearBits s.inusemap).card

namespace Tracks

section

variable (h : Tracks v s U)

include h

theorem clear_iff (hd : d < v.mapSize * nInusebits) : bit s.inusemap d = false ↔ ¬U d := by
  rw [← h.bits d hd, not_eq_true]

theorem congr (hU : ∀ d < v.mapSize * nInusebits, U d ↔ U' d) : Tracks v s U' where
  size := h.size
  bits d hd := (h.bits d hd).trans (hU d hd)
  count := h.count

theorem withFat (fat : Nat → Byte) : Tracks v { s with fat } U where
  size := h.size
  bits := h.bits
  count := h.count

theorem count_lt : s.freeclustercount < 2 ^ 31 + 32 := by
  rw [h.count]
  have hcard : (clearBits s.inusemap).card ≤ _ := Finset.card_filter_le _ _
  rw [Finset.card_range, h.size] at hcard
  exact Nat.lt_of_le_of_lt hcard v.mapBits_lt

theorem item_eq (hcn : cn ≤ v.maxcluster) : cn / nInusebits < s.inusemap.size ∧
      s.inusemap[cn / nInusebits]? = some (Layout.item s.inusemap (cn / nInusebits)) := by
  have hlt : cn / nInusebits < s.inusemap.size := by
    rw [h.size]
    exact (Nat.div_lt_iff_lt_mul (by decide)).mpr (v.lt_mapBits hcn)
  refine ⟨hlt, ?_⟩
  rw [Layout.item, Array.getElem?_eq_getElem hlt]
  rfl

theorem mem_clearBits : d ∈ clearBits s.inusemap ↔ d < v.mapSize * nInusebits ∧ ¬U d := by
  rw [clearBits, Finset.mem_filter, Finset.mem_range, h.size]
  exact and_congr_right fun hd => h.clear_iff hd

theorem alloc (hcn : cn ≤ v.maxcluster) (hfree : ¬U cn) :
    ∃ s', v.usemapAlloc s cn = some s' ∧ s'.fat = s.fat ∧ Tracks v s' fun d => d = cn ∨ U d := by
  obtain ⟨hlt, hitem⟩ := h.item_eq hcn
  have hbit : ∀ e, bit (s.inusemap.setIfInBounds (cn / nInusebits)
      (Layout.item s.inusemap (cn / nInusebits) ||| 1#32 <<< (cn % nInusebits))) e =
        (decide (e = cn) || bit s.inusemap e) := fun e => bit_set_or hlt hitem (by decide)
  have hmem : cn ∈ clearBits s.inusemap := h.mem_clearBits.mpr ⟨v.lt_mapBits hcn, hfree⟩
  refine ⟨_, if_pos hcn, rfl, ?_, fun d hd => ?_, ?_⟩
  · rw [Array.size_setIfInBounds]
    exact h.size
  · rw [hbit, or_eq_true, decide_eq_true_iff, h.bits d hd]
  · have herase : clearBits (s.inusemap.setIfInBounds (cn / nInusebits)
        (Layout.item s.inusemap (cn / nInusebits) ||| 1#32 <<< (cn % nInusebits))) =
          (clearBits s.inusemap).erase cn := by
      ext d
      rw [Finset.mem_erase, clearBits, Finset.mem_filter, Array.size_setIfInBounds, hbit,
        or_eq_false_iff, decide_eq_false_iff_not, clearBits, Finset.mem_filter]
      exact and_left_comm
    have hpos := Finset.card_pos.mpr ⟨cn, hmem⟩
    have hlt := h.count_lt
    rw [← h.count] at hpos
    have hcount : sub32 s.freeclustercount 1 = s.freeclustercount - 1 := by
      rw [sub32]
      omega
    exact hcount.trans (by rw [herase, Finset.card_erase_of_mem hmem, ← h.count])

theorem free (hcn : cn ≤ v.maxcluster) (hused : U cn) :
    ∃ s', v.usemapFree s cn = some s' ∧ s'.fat = s.fat ∧ Tracks v s' fun d => d ≠ cn ∧ U d := by
  obtain ⟨hlt, hitem⟩ := h.item_eq hcn
  have hbit : ∀ e, bit (s.inusemap.setIfInBounds (cn / nInusebits)
      (Layout.item s.inusemap (cn / nInusebits) &&& ~~~(1#32 <<< (cn % nInusebits)))) e =
        (!decide (e = cn) && bit s.inusemap e) := fun e => bit_set_and hlt hitem (by decide)
  have hmem : cn ∉ clearBits s.inusemap := fun hmem => (h.mem_clearBits.mp hmem).2 hused
  refine ⟨_, if_pos hcn, rfl, ?_, fun d hd => ?_, ?_⟩
  · rw [Array.size_setIfInBounds]
    exact h.size
  · rw [hbit, and_eq_true, not_eq_true', decide_eq_false_iff_not, h.bits d hd]
  · have hinsert : clearBits (s.inusemap.setIfInBounds (cn / nInusebits)
        (Layout.item s.inusemap (cn / nInusebits) &&& ~~~(1#32 <<< (cn % nInusebits)))) =
          insert cn (clearBits s.inusemap) := by
      ext d
      rw [Finset.mem_insert, clearBits, Finset.mem_filter, Array.size_setIfInBounds, hbit,
        and_eq_false_iff, not_eq_false', decide_eq_true_iff, clearBits,
        Finset.mem_filter, Finset.mem_range]
      have hcn' := v.lt_mapBits hcn
      rw [← h.size] at hcn'
      constructor
      · rintro ⟨hd, rfl | hd'⟩
        · exact .inl rfl
        · exact .inr ⟨hd, hd'⟩
      · rintro (rfl | ⟨hd, hd'⟩)
        · exact ⟨hcn', .inl rfl⟩
        · exact ⟨hd, .inr hd'⟩
    have hlt := h.count_lt
    rw [hinsert, Finset.card_insert_of_notMem hmem, ← h.count]
    exact Nat.mod_eq_of_lt (by omega)

end

end Tracks

structure Mirrored (v : Layout) (s : Mount) : Prop where
  size : s.inusemap.size = v.mapSize
  used : ∀ cn, v.InRange cn → (bit s.inusemap cn = true ↔ v.entry s.fat cn ≠ 0)
  others : ∀ d < s.inusemap.size * nInusebits, ¬v.InRange d → bit s.inusemap d = true
  count : s.freeclustercount = (clearBits s.inusemap).card

def Used (v : Layout) (fat : Nat → Byte) (d : Nat) : Prop := v.InRange d → v.entry fat d ≠ 0

theorem mirrored_iff : Mirrored v s ↔ Tracks v s (Used v s.fat) := by
  constructor
  · refine fun h => ⟨h.size, fun d hd => ?_, h.count⟩
    by_cases hin : v.InRange d
    · rw [h.used d hin]
      exact ⟨fun hne _ => hne, fun hne => hne hin⟩
    · rw [h.others d (by rw [h.size]; exact hd) hin]
      exact ⟨fun _ hin' => absurd hin' hin, fun _ => rfl⟩
  · refine fun h => ⟨h.size, fun cn hin => ?_, fun d hd hin => ?_, h.count⟩
    · rw [h.bits cn (v.lt_mapBits hin.2)]
      exact ⟨fun hne => hne hin, fun hne _ => hne⟩
    · rw [h.size] at hd
      exact (h.bits d hd).mpr fun hin' => absurd hin' hin

section Fill

theorem fatofs_block (h : cn + 1 ≤ v.maxcluster) (hbo : v.fatofs (cn + 1) % v.fatblocksize ≠ 0) :
    v.fatofs (cn + 1) / v.fatblocksize = v.fatofs cn / v.fatblocksize := by
  have hpos := v.fatblocksize_pos
  rw [Layout.fatofs_eq h] at hbo ⊢
  rw [Layout.fatofs_eq (by omega)]
  have hmono : cn * v.type.fatmult / v.type.fatdiv ≤ (cn + 1) * v.type.fatmult / v.type.fatdiv :=
    Nat.div_le_div_right (Nat.mul_le_mul_right _ (Nat.le_succ cn))
  refine Nat.le_antisymm (Nat.le_of_not_lt fun hlt => hbo ?_) (Nat.div_le_div_right hmono)
  -- The start of the later block is behind the one entry and not behind the other.
  have hle := Nat.div_mul_le_self ((cn + 1) * v.type.fatmult / v.type.fatdiv) v.fatblocksize
  have hgt := (Nat.div_lt_iff_lt_mul hpos).mp hlt
  have hstart : (cn + 1) * v.type.fatmult / v.type.fatdiv =
      (cn + 1) * v.type.fatmult / v.type.fatdiv / v.fatblocksize * v.fatblocksize := by
    generalize (cn + 1) * v.type.fatmult / v.type.fatdiv / v.fatblocksize = k at hle hgt
    rw [Layout.fatblocksize] at hle hgt ⊢
    cases ht : v.type with
    | fat12 =>
      simp only [ht, FatType.fatmult, FatType.fatdiv, if_true] at hle hgt ⊢
      rw [Nat.mul_left_comm] at hle hgt ⊢
      omega
    | fat16 =>
      simp only [ht, FatType.fatmult, FatType.fatdiv, reduceCtorEq, if_false, maxbsize]
        at hle hgt ⊢
      omega
    | fat32 =>
      simp only [ht, FatType.fatmult, FatType.fatdiv, reduceCtorEq, if_false, maxbsize]
        at hle hgt ⊢
      omega
  rw [hstart]
  exact Nat.mul_mod_left _ _

def BlockOf (v : Layout) (cn : Nat) (bp : Option Nat) : Prop :=
  ∀ bn ∈ bp, ∃ before, cn = before + 1 ∧ bn = (v.fatblock (v.fatofs before)).1

theorem place_of_blockOf (h : BlockOf v cn bp) (hcn : cn ≤ v.maxcluster) :
    (if v.fatofs cn % v.fatblocksize = 0 then (v.fatblock (v.fatofs cn)).1
      else bp.getD (v.fatblock (v.fatofs cn)).1) = (v.fatblock (v.fatofs cn)).1 := by
  split
  · rfl
  · next hbo =>
    cases hbp : bp with
    | none => rfl
    | some bn =>
      obtain ⟨before, rfl, rfl⟩ := h bn hbp
      simp only [Option.getD_some, Layout.fatblock, fatofs_block hcn hbo]

def Seen (v : Layout) (fat : Nat → Byte) (cn d : Nat) : Prop :=
  clustFirst ≤ d → d < cn → v.entry fat d ≠ 0

end Fill

end Mbsd.Msdosfs
