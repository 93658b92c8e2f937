import Mbsd.Kern.SubrBlist.Sublevel

/-! What holds of a `blist_t`, and that `blist_create` makes one with all blocks allocated. -/

namespace Mbsd.Kern.SubrBlist

open Lib.CountIn Lib.Yields Nat BlMem Blist

def Blist.height (bl : Blist) : Nat := (bl.blRadix.log2 - 6) / 5

def Blist.isFree (bl : Blist) (x : Nat) : Bool := SubrBlist.isFree bl.blRoot bl.height 0 x

structure Blist.Ok (bl : Blist) : Prop where
  radix : bl.blRadix = radixOf bl.height
  skip : bl.blSkip = skipOf bl.height
  blocks : bl.blBlocks ≤ blistMaxblks
  shape : Shape bl.blRoot bl.height 0 bl.blBlocks
  good : Good bl.blRoot bl.height 0 bl.blBlocks
  free : bl.blFree = countIn bl.isFree 0 bl.blBlocks

structure Fresh (mem mem' : BlMem) (h scan cnt : Nat) : Prop where
  apart : Apart mem mem' scan h
  shape : Shape mem' h scan cnt
  good : Good mem' h scan cnt
  allocated : ∀ x, isFree mem' h scan x = false

variable {mem memk : BlMem} {h levels scan cnt i j n c memindex blocks : Nat}

theorem skipOf_lt_radixOf (h : Nat) : skipOf h + 2 ≤ radixOf h := by
  induction h with
  | zero => decide
  | succ h ih =>
    rw [skipOf, radixOf]
    simp only [metaRadix] at *
    omega

theorem radixOf_lt (hij : i < j) : radixOf i * metaRadix ≤ radixOf j := by
  rw [← radixOf, radixOf_eq_pow, radixOf_eq_pow]
  exact Nat.pow_le_pow_right (by decide) (by omega)

theorem radixOf_eleven : radixOf 11 = blistMaxblks := by rw [radixOf_eq_pow]; rfl

structure Creating (mem memk : BlMem) (h scan cnt j : Nat) : Prop where
  apart : Apart mem memk scan (h + 1)
  head : memk scan = mem scan
  shape : ∀ i < j, i * radixOf h < cnt → Shape memk h (sub scan h i) (subCnt h cnt i)
  sofar : ∀ i < j, i * radixOf h < cnt

theorem Creating.start (mem : BlMem) (h scan cnt : Nat) : Creating mem mem h scan cnt 0 :=
  ⟨.refl _ _ _, rfl, fun i hi => absurd hi (Nat.not_lt_zero i),
    fun i hi => absurd hi (Nat.not_lt_zero i)⟩

theorem Creating.ended (hC : Creating mem memk h scan cnt j) (hj : j < metaRadix)
    (hcnt : cnt ≤ j * radixOf h) :
    let m : BlMeta := { memk (sub scan h j) with bmBighint := terminator }
    Creating mem (memk.set (sub scan h j) m) h scan cnt j ∧
      ∀ i, i + 1 < metaRadix → i * radixOf h < cnt → cnt ≤ (i + 1) * radixOf h →
        (memk.set (sub scan h j) m (sub scan h (i + 1))).bmBighint = terminator := by
  have hset := Apart.set memk (sub scan h j) h { memk (sub scan h j) with bmBighint := terminator }
  refine ⟨⟨hC.apart.trans (.of_sub hj hset), hset.head.trans hC.head,
    fun i hi hlt => (hC.shape i hi hlt).same (hset.same (by omega)), hC.sofar⟩,
    fun i hi hlt hle => ?_⟩
  have hij : i + 1 = j := by
    have hupper : i < j := Nat.lt_of_mul_lt_mul_right (a := radixOf h) (by omega)
    by_contra hne
    have hnext := hC.sofar (i + 1) (by omega)
    omega
  rw [hij, set_self]

theorem radixInitLoop_spec (child : BlMem → (i count : Nat) → BlMem × Nat) (memindex : Nat)
    (hchild : ∀ memk j c, j < metaRadix → 0 < c → c ≤ radixOf h →
      Fresh memk (child memk (j * (skipOf h + 1) + 1) c).1 h (sub scan h j) c)
    (hn : n + j = metaRadix) (hc : c = cnt - j * radixOf h)
    (hC : Creating mem memk h scan cnt j) :
    let after := (radixInitLoop child scan (radixOf h) (skipOf (h + 1)) (skipOf h + 1) n memk
      (j * (skipOf h + 1) + 1) c memindex).1
    Apart mem after scan (h + 1) ∧ after scan = mem scan ∧
      (∀ i < metaRadix, i * radixOf h < cnt → Shape after h (sub scan h i) (subCnt h cnt i)) ∧
      ∀ i, i + 1 < metaRadix → i * radixOf h < cnt → cnt ≤ (i + 1) * radixOf h →
        (after (sub scan h (i + 1))).bmBighint = terminator := by
  induction n generalizing memk j c memindex with
  | zero =>
    obtain rfl : j = metaRadix := by omega
    refine ⟨hC.apart, hC.head, hC.shape, fun i hi hlt hle => ?_⟩
    have hnext := hC.sofar (i + 1) hi
    omega
  | succ n ih =>
    have hj : j < metaRadix := by omega
    have hi : j * (skipOf h + 1) + 1 + (skipOf h + 1) = (j + 1) * (skipOf h + 1) + 1 := by
      rw [succ_mul]
      omega
    have hrad := radixOf_pos h
    -- a node is made for `subCnt` blocks
    have hnext : ∀ v, v = subCnt h cnt j → 0 < c →
        Creating mem (child memk (j * (skipOf h + 1) + 1) v).1 h scan cnt (j + 1) := by
      intro v hv hcpos
      have hfresh := hchild memk j v hj (by rw [subCnt] at hv; omega) (hv ▸ subCnt_le)
      refine ⟨hC.apart.trans (.of_sub hj hfresh.apart), hfresh.apart.head.trans hC.head,
        fun i hij hlt => ?_, fun i hij => ?_⟩
      · rcases Nat.lt_succ_iff_lt_or_eq.mp hij with hlt' | rfl
        · exact (hC.shape i hlt' hlt).same (hfresh.apart.same (by omega))
        · exact hv ▸ hfresh.shape
      · rcases Nat.lt_succ_iff_lt_or_eq.mp hij with hlt' | rfl
        · exact hC.sofar i hlt'
        · omega
    rw [radixInitLoop, if_pos (index_le_skipOf.mpr hj)]
    split
    next hall =>
      rw [hi]
      exact ih _ (by omega) (by rw [succ_mul]; omega)
        (hnext _ (by rw [subCnt]; omega) (by omega))
    next =>
      split
      next hsome =>
        rw [hi]
        exact ih _ (by omega) (by rw [succ_mul]; omega)
          (hnext _ (by rw [subCnt]; omega) hsome)
      next =>
        obtain ⟨hC', hterm⟩ := hC.ended hj (by omega)
        refine ⟨hC'.apart, hC'.head, fun i hi hlt => hC'.shape i ?_ hlt, hterm⟩
        exact Nat.lt_of_mul_lt_mul_right (a := radixOf h) (by omega)

theorem blstRadixInit_fresh (mem : BlMem) (scan : Nat) (hlevels : h ≤ levels) (hpos : 0 < cnt)
    (hcnt : cnt ≤ radixOf h) :
    Fresh mem (blstRadixInit levels mem scan (radixOf h) (skipOf h) cnt).1 h scan cnt := by
  induction h generalizing levels mem scan cnt with
  | zero =>
    have hfree : ∀ x, isFree (mem.set scan { mem scan with bmuBitmap := 0, bmBighint := 0 }) 0 scan
        x = false := fun x => by
      rw [isFree, set_self]
      exact BitVec.getLsbD_zero
    have hinit : (blstRadixInit levels mem scan (radixOf 0) (skipOf 0) cnt).1 =
        mem.set scan { mem scan with bmuBitmap := 0, bmBighint := 0 } := by
      cases levels <;> rw [blstRadixInit, if_pos (radixOf_eq_bmapRadix.mpr rfl)]
    rw [hinit]
    refine ⟨.set _ _ _ _, ⟨?_, hpos, hcnt⟩, ⟨fun x _ => hfree x, fun n hrun => ?_⟩, hfree⟩
    · rw [set_self]
      exact (by decide : 0 ≠ terminator)
    · rw [not_leafRun_false hrun fun x _ => hfree x]
      exact Nat.zero_le _
  | succ h ih =>
    obtain ⟨levels, rfl⟩ := exists_level hlevels
    rw [blstRadixInit, if_neg (radixOf_eq_bmapRadix.not.mpr (succ_ne_zero h))]
    rw [skipOf_succ_div, radixOf_succ_div]
    have hset : Apart mem (mem.set scan { mem scan with bmuAvail := 0, bmBighint := 0 }) scan
        (h + 1) := .set _ _ _ _
    have hloop := radixInitLoop_spec (n := metaRadix) (c := cnt)
      (fun mem i count => blstRadixInit levels mem (scan + i) (radixOf h) (skipOf h + 1 - 1) count)
      0 (fun memk j c _ hcpos hc => by
        rw [Nat.add_sub_cancel]
        exact ih _ _ (le_of_succ_le_succ hlevels) hcpos hc)
      rfl (by omega)
      (Creating.start (mem.set scan { mem scan with bmuAvail := 0, bmBighint := 0 }) h scan cnt)
    rw [Nat.zero_mul, Nat.zero_add, set_self] at hloop
    generalize radixInitLoop _ scan _ _ _ metaRadix _ 1 cnt 0 = r at hloop ⊢
    obtain ⟨hapart, hhead, hshape, hterm⟩ := hloop
    have hfree : ∀ x, isFree r.1 (h + 1) scan x = false := fun x => by
      rw [isFree, hhead, if_pos rfl]
    refine ⟨hset.trans hapart, ⟨?_, hpos, hcnt, hshape, hterm⟩,
      ⟨?_, fun n hrun => ?_, fun hzero => absurd (by rw [hhead]) hzero⟩, hfree⟩
    · rw [hhead]
      exact (by decide : 0 ≠ terminator)
    · rw [countIn_eq_zero_iff.mpr fun x _ _ => hfree x, hhead]
    · rw [not_leafRun_false hrun fun x _ => hfree x]
      exact Nat.zero_le _

theorem createLoop_next (hi : i < 11) :
    radixOf i * metaRadix % 2 ^ 64 = radixOf (i + 1) ∧
      (skipOf i + 1) * metaRadix % 2 ^ 64 = skipOf (i + 1) := by
  have hmax : radixOf (i + 1) ≤ blistMaxblks := radixOf_eleven ▸ radixOf_lt hi
  have hskip := skipOf_lt_radixOf (i + 1)
  have hword : blistMaxblks < 2 ^ 64 := by decide
  refine ⟨mod_eq_of_lt ?_, mod_eq_of_lt ?_⟩
  · show radixOf (i + 1) < 2 ^ 64
    omega
  · show skipOf (i + 1) < 2 ^ 64
    omega

theorem createLoop_spec (hi : i ≤ 11) (hblocks : blocks ≤ blistMaxblks) :
    Yields (n + i < 12) (fun r => ∃ h ≤ 11, r = (radixOf h, skipOf h) ∧ blocks ≤ radixOf h)
      (createLoop blocks n (radixOf i) (skipOf i)) := by
  induction n generalizing i with
  | zero => exact Nat.lt_of_le_of_lt (Nat.zero_add i ▸ hi) (by decide)
  | succ n ih =>
    rw [createLoop]
    split
    next hlt =>
      have hlt' : i < 11 := by
        refine Nat.lt_of_le_of_ne hi fun heq => ?_
        rw [heq, radixOf_eleven] at hlt
        omega
      obtain ⟨hradix, hskip⟩ := createLoop_next hlt'
      rw [hradix, hskip, if_neg (skipOf_eq_zero.not.mpr (succ_ne_zero i))]
      exact (ih hlt').mono fun hfew => by omega
    next hge => exact ⟨i, hi, rfl, Nat.le_of_not_lt hge⟩

theorem createLoop_zero (n skip : Nat) (hblocks : 0 < blocks) :
    createLoop blocks n 0 skip = none := by
  induction n generalizing skip with
  | zero => rfl
  | succ n ih =>
    rw [createLoop, if_pos hblocks]
    dsimp only
    rw [Nat.zero_mul, zero_mod, ih, ite_self]

theorem createLoop_overflow (n : Nat) (hi : i ≤ 11) (hblocks : blistMaxblks < blocks) :
    createLoop blocks n (radixOf i) (skipOf i) = none := by
  induction n generalizing i with
  | zero => rfl
  | succ n ih =>
    have hmax : radixOf i ≤ blistMaxblks := by
      rw [← radixOf_eleven, radixOf_eq_pow, radixOf_eq_pow]
      exact Nat.pow_le_pow_right (by decide) (by omega)
    rw [createLoop, if_pos (by omega)]
    dsimp only
    split
    · rfl
    rcases Nat.lt_or_eq_of_le hi with hlt | rfl
    · obtain ⟨hradix, hskip⟩ := createLoop_next hlt
      rw [hradix, hskip]
      exact ih hlt
    · rw [radixOf_eleven]
      exact createLoop_zero n _ (by omega)

theorem height_mk {r : Nat} (hr : r = radixOf h) : (r.log2 - 6) / 5 = h := by
  rw [hr, log2_radixOf]
  omega

theorem blistCreate_ok (turns : Nat) (memory : BlMem) (hpos : 0 < blocks)
    (hblocks : blocks ≤ blistMaxblks) :
    Yields (turns < 12) (fun bl => bl.Ok ∧ bl.blBlocks = blocks ∧ ∀ x, bl.isFree x = false)
      (blistCreate turns memory blocks) := by
  rw [blistCreate, if_neg (Nat.ne_of_gt hpos)]
  refine Yields.map (createLoop_spec (i := 0) (Nat.zero_le _) hblocks) fun r hr => ?_
  obtain ⟨h, hh, rfl, hle⟩ := hr
  have hfresh := blstRadixInit_fresh memory 0 (show h ≤ (radixOf h).log2 by
    rw [log2_radixOf]
    omega) hpos hle
  dsimp only
  generalize blstRadixInit _ memory 0 _ _ blocks = r at hfresh ⊢
  have hfree : ∀ x, SubrBlist.isFree r.1 (((radixOf h).log2 - 6) / 5) 0 x = false := by
    rw [height_mk rfl]
    exact hfresh.allocated
  refine ⟨⟨?_, ?_, hblocks, ?_, ?_, ?_⟩, rfl, hfree⟩
  · rw [height, height_mk rfl]
  · rw [height, height_mk rfl]
  · rw [height, height_mk rfl]
    exact hfresh.shape
  · rw [height, height_mk rfl]
    exact hfresh.good
  · exact (countIn_eq_zero_iff.mpr fun x _ _ => hfree x).symm

theorem blistCreate_overflow (turns : Nat) (memory : BlMem) (hblocks : blistMaxblks < blocks) :
    blistCreate turns memory blocks = none := by
  rw [blistCreate, if_neg (Nat.ne_of_gt (Nat.lt_of_le_of_lt (Nat.zero_le _) hblocks))]
  have hloop := createLoop_overflow (i := 0) turns (Nat.zero_le _) hblocks
  rw [show createLoop blocks turns bmapRadix 0 = none from hloop]
  rfl

end Mbsd.Kern.SubrBlist
