import Mbsd.Kern.SubrBlist.Runs
import Mbsd.Lib.LongestRun

/-! `blist_gapfind`: the largest gap is the longest run of leaves that are all free. -/

namespace Mbsd.Kern.SubrBlist

open Lib.CountIn Lib.Yields Lib.LongestRun BitVec Nat Option

def gapfindLoop (child : (i blk : Nat) → Scan → Option Scan) (mem : BlMem)
    (scan radix skip nextSkip : Nat) : Nat → (i blk : Nat) → Scan → Option Scan
  | 0, _, _, state => some state
  | n + 1, i, blk, state =>
    if i ≤ skip ∧ (mem (scan + i)).bmBighint ≠ terminator then
      (child i blk state).bind fun state =>
        gapfindLoop child mem scan radix skip nextSkip n (i + nextSkip) (blk + radix) state
    else some state

/-- In a run, the state is `GAPFIND_FIRSTUSED`: the first used block is searched. -/
def blstRadixGapfind : Nat → BlMem → (scan blk radix skip : Nat) → Scan → Option Scan
  | levels, mem, scan, blk, radix, skip, state =>
    if radix = bmapRadix then
      if (mem scan).bmuBitmap = BitVec.allOnes 64 then some (state.free blk)
      else some (state.used blk)
    else if (mem scan).bmuAvail = 0 then some (state.used blk)
    else if (mem scan).bmuAvail = radix then some (state.free blk)
    else
      match levels with
      | 0 => none
      | levels + 1 =>
        let radix := radix / metaRadix
        let nextSkip := skip / metaRadix
        gapfindLoop (fun i blk state =>
          blstRadixGapfind levels mem (scan + i) blk radix (nextSkip - 1) state) mem scan radix
          skip nextSkip metaRadix 1 blk state

def blistGapfind (bl : Blist) : Option (Nat × Nat) :=
  (blstRadixGapfind bl.levels bl.blRoot 0 0 bl.blRadix bl.blSkip ⟨false, 0, 0, 0, 0⟩).bind
    fun state =>
      let state := state.used bl.blBlocks
      if state.maxb ≤ state.maxe ∧ state.maxb < bl.blBlocks ∧ state.maxe ≤ bl.blBlocks then
        some (state.maxb, state.maxe)
      else none

def leaves (cnt : Nat) : Nat := (cnt + (bmapRadix - 1)) / bmapRadix

def leafFree (free : Nat → Bool) (cnt q : Nat) : Bool :=
  decide ((q + 1) * bmapRadix ≤ cnt ∧ ∀ i < bmapRadix, free (q * bmapRadix + i) = true)

variable {mem : BlMem} {scan h cnt j n levels b : Nat} {f g : Nat → Bool} {state : Scan}

theorem lt_leaves : n < leaves cnt ↔ n * bmapRadix < cnt := by
  rw [leaves, bmapRadix, Nat.lt_div_iff_mul_lt (by decide)]
  omega

theorem leaves_pos (hcnt : 0 < cnt) : 0 < leaves cnt :=
  lt_leaves.mpr (by rwa [Nat.zero_mul])

theorem leafFree_iff : leafFree f cnt n = true ↔
    (n + 1) * bmapRadix ≤ cnt ∧ ∀ i < bmapRadix, f (n * bmapRadix + i) = true :=
  decide_eq_true_iff

theorem scan_leaves_free (hdvd : bmapRadix ∣ cnt) (hcnt : 0 < cnt) (hall : ∀ x < cnt, g x = true)
    (hf : ∀ q < leaves cnt, f (b + q) = leafFree g cnt q) :
    Lib.LongestRun.scan f bmapRadix b (leaves cnt) state = state.free (b * bmapRadix) := by
  refine scan_of_free (leaves_pos hcnt) fun k hlo hhi => ?_
  obtain ⟨q, rfl⟩ := Nat.exists_eq_add_of_le hlo
  rw [hf q (by omega)]
  obtain ⟨L, rfl⟩ := hdvd
  have hlt := lt_leaves.mp (show q < leaves (bmapRadix * L) by omega)
  rw [Nat.mul_comm] at hlt
  have hle : (q + 1) * bmapRadix ≤ bmapRadix * L := by
    rw [Nat.mul_comm]
    exact Nat.mul_le_mul_left _ (Nat.lt_of_mul_lt_mul_left hlt)
  refine leafFree_iff.mpr ⟨hle, fun i hi => hall _ ?_⟩
  rw [Nat.succ_mul] at hle
  omega

theorem scan_leaves_used (hcnt : 0 < cnt) (hall : ∀ x < cnt, g x = false)
    (hf : ∀ q < leaves cnt, f (b + q) = leafFree g cnt q) :
    Lib.LongestRun.scan f bmapRadix b (leaves cnt) state = state.used (b * bmapRadix) := by
  refine scan_of_used (leaves_pos hcnt) fun k hlo hhi => ?_
  obtain ⟨q, rfl⟩ := Nat.exists_eq_add_of_le hlo
  rw [hf q (by omega)]
  refine decide_eq_false fun ⟨hle, hfree⟩ => ?_
  have hpos : 0 < bmapRadix := by decide
  rw [Nat.succ_mul] at hle
  have hfirst := hfree 0 hpos
  rw [hall _ (by omega)] at hfirst
  exact Bool.false_ne_true hfirst

theorem leafFree_sub {L q : Nat} (hL : radixOf h = bmapRadix * L)
    (hq : q < leaves (subCnt h cnt j)) (hfg : ∀ x < subCnt h cnt j, g x = f (j * radixOf h + x)) :
    leafFree f cnt (j * L + q) = leafFree g (subCnt h cnt j) q := by
  have hlt := lt_leaves.mp hq
  have hq : (j * L + q) * bmapRadix = j * radixOf h + q * bmapRadix := by
    rw [hL, Nat.add_mul, Nat.mul_assoc, Nat.mul_comm L]
  have hin : (q + 1) * bmapRadix ≤ radixOf h := by
    have hle : subCnt h cnt j ≤ radixOf h := subCnt_le
    rw [hL, Nat.mul_comm _ L]
    refine Nat.mul_le_mul_right _ (Nat.lt_of_mul_lt_mul_right (a := bmapRadix) ?_)
    rw [Nat.mul_comm L, ← hL]
    omega
  refine decide_eq_decide.mpr ?_
  rw [Nat.succ_mul, hq]
  rw [Nat.succ_mul] at hin ⊢
  have hle : j * radixOf h + q * bmapRadix + bmapRadix ≤ cnt ↔
      q * bmapRadix + bmapRadix ≤ subCnt h cnt j := by
    rw [subCnt] at hlt ⊢
    omega
  rw [hle]
  refine and_congr_right fun hle => forall₂_congr fun i hi => ?_
  rw [hfg _ (by omega), Nat.add_assoc]

theorem leaves_zero : leaves 0 = 0 := by decide

theorem leaves_radixOf {L : Nat} (hL : radixOf h = bmapRadix * L) (cnt : Nat) :
    leaves (radixOf h + cnt) = L + leaves cnt := by
  rw [leaves, leaves, hL, Nat.add_assoc, mul_add_div (by decide)]

theorem gapfindLoop_scan {L : Nat} (state : Scan) (hs : Shape mem (h + 1) scan cnt)
    (hL : radixOf h = bmapRadix * L) (child : (i blk : Nat) → Scan → Option Scan)
    (hchild : ∀ j state, j < metaRadix → j * radixOf h < cnt →
      child (j * (skipOf h + 1) + 1) ((b + j * L) * bmapRadix) state =
        some (Lib.LongestRun.scan f bmapRadix (b + j * L) (leaves (subCnt h cnt j)) state))
    (hn : n + j = metaRadix) (hprev : ∀ i, i + 1 = j → i * radixOf h < cnt) :
    gapfindLoop child mem scan (radixOf h) (skipOf (h + 1)) (skipOf h + 1) n
        (j * (skipOf h + 1) + 1) ((b + j * L) * bmapRadix) state =
      some (Lib.LongestRun.scan f bmapRadix (b + j * L) (leaves (cnt - j * radixOf h)) state) := by
  induction n generalizing j state with
  | zero =>
    have hle := hs.cnt_le
    rw [radixOf, Nat.mul_comm, ← hn, Nat.zero_add] at hle
    rw [Nat.sub_eq_zero_of_le hle, leaves_zero]
    rfl
  | succ n ih =>
    have hj : j < metaRadix := by omega
    rw [gapfindLoop, ← sub]
    by_cases hmore : j * radixOf h < cnt
    · rw [if_pos ⟨index_le_skipOf.mpr hj, (hs.sub hj hmore).bighint_ne⟩, hchild j state hj hmore,
        bind_some]
      have hnext := ih (j := j + 1) (Lib.LongestRun.scan f bmapRadix (b + j * L)
        (leaves (subCnt h cnt j)) state) (by omega) fun i hi => succ.inj hi ▸ hmore
      have hblk : (b + (j + 1) * L) * bmapRadix = (b + j * L) * bmapRadix + radixOf h := by
        rw [Nat.succ_mul, ← Nat.add_assoc, Nat.add_mul, hL, Nat.mul_comm L]
      rw [succ_mul j (skipOf h + 1), Nat.add_right_comm _ (skipOf h + 1), hblk] at hnext
      rw [hnext, succ_mul j (radixOf h), ← Nat.sub_sub]
      rcases Nat.lt_or_ge (j * radixOf h + radixOf h) cnt with hlt | hge
      · -- the node of the sublevel has all its leaves
        have hsub : leaves (subCnt h cnt j) = L := by
          rw [subCnt, Nat.min_eq_left (by omega)]
          exact leaves_radixOf hL 0
        have hcnt : leaves (cnt - j * radixOf h) =
            L + leaves (cnt - j * radixOf h - radixOf h) := by
          rw [← leaves_radixOf hL, Nat.add_sub_cancel' (by omega)]
        rw [hsub, hcnt, scan_append, Nat.succ_mul, Nat.add_assoc]
      · have hsub : subCnt h cnt j = cnt - j * radixOf h := Nat.min_eq_right (by omega)
        rw [hsub, show cnt - j * radixOf h - radixOf h = 0 by omega, leaves_zero]
        rfl
    · -- a terminator, or the end of the array
      have hstop : ¬(j * (skipOf h + 1) + 1 ≤ skipOf (h + 1) ∧
          (mem (sub scan h j)).bmBighint ≠ terminator) := by
        rintro ⟨-, hne⟩
        cases j with
        | zero =>
          have hpos := hs.cnt_pos
          omega
        | succ j => exact hne (hs.ended hj (hprev j rfl) (Nat.le_of_not_lt hmore))
      rw [if_neg hstop, Nat.sub_eq_zero_of_le (Nat.le_of_not_lt hmore), leaves_zero]
      rfl

theorem leafFree_allOnes (hg : Good mem 0 scan cnt) (hall : (mem scan).bmuBitmap = allOnes 64) :
    leafFree (isFree mem 0 scan) cnt 0 = true := by
  have hcnt : bmapRadix ≤ cnt := by
    by_contra hlt
    have hlast := hg.1 (bmapRadix - 1) (le_sub_one_of_lt (Nat.lt_of_not_le hlt))
    rw [hall] at hlast
    exact absurd hlast (by decide)
  refine leafFree_iff.mpr ⟨by rwa [Nat.zero_add, Nat.one_mul], fun i hi => ?_⟩
  rw [isFree, hall, Nat.zero_mul, Nat.zero_add, getLsbD_allOnes]
  exact decide_eq_true hi

theorem allOnes_of_leafFree (hall : leafFree (isFree mem 0 scan) cnt 0 = true) :
    (mem scan).bmuBitmap = allOnes 64 := by
  refine eq_of_getLsbD_eq fun i hi => ?_
  have hbit := (leafFree_iff.mp hall).2 i hi
  rw [isFree, Nat.zero_mul, Nat.zero_add] at hbit
  rw [hbit, getLsbD_allOnes, decide_eq_true hi]

theorem blstRadixGapfind_scan (state : Scan) (hlevels : h ≤ levels) (hs : Shape mem h scan cnt)
    (hg : Good mem h scan cnt)
    (hf : ∀ q < leaves cnt, f (b + q) = leafFree (isFree mem h scan) cnt q) :
    blstRadixGapfind levels mem scan (b * bmapRadix) (radixOf h) (skipOf h) state =
      some (Lib.LongestRun.scan f bmapRadix b (leaves cnt) state) := by
  induction h generalizing levels scan cnt b state with
  | zero =>
    have hfind : blstRadixGapfind levels mem scan (b * bmapRadix) (radixOf 0) (skipOf 0) state =
        if (mem scan).bmuBitmap = allOnes 64 then some (state.free (b * bmapRadix))
        else some (state.used (b * bmapRadix)) := by
      cases levels <;> rw [blstRadixGapfind, if_pos (radixOf_eq_bmapRadix.mpr rfl)]
    have hone : leaves cnt = 1 := by
      have hpos := hs.cnt_pos
      have hle := hs.cnt_le
      rw [radixOf] at hle
      simp only [leaves, bmapRadix] at hle ⊢
      omega
    have hb : f b = leafFree (isFree mem 0 scan) cnt 0 := hf 0 (leaves_pos hs.cnt_pos)
    rw [hfind, hone, scan_succ, hb]
    split
    next hall =>
      rw [if_pos (leafFree_allOnes hg hall)]
      rfl
    next hpart =>
      rw [if_neg fun hall => hpart (allOnes_of_leafFree hall)]
      rfl
  | succ h ih =>
    obtain ⟨levels, rfl⟩ := exists_level hlevels
    rw [blstRadixGapfind, if_neg (radixOf_eq_bmapRadix.not.mpr (succ_ne_zero h))]
    split
    next hzero =>
      rw [scan_leaves_used hs.cnt_pos (fun x _ => by rw [isFree, if_pos hzero]) hf]
    next hzero =>
      split
      next hfull =>
        have hcnt : cnt = radixOf (h + 1) := by
          have hle := hs.cnt_le
          have hcount := countIn_le (isFree mem (h + 1) scan) 0 cnt
          rw [← hg.1, hfull] at hcount
          omega
        rw [scan_leaves_free (hcnt ▸ bmapRadix_dvd_radixOf _) hs.cnt_pos
          (fun x _ => by rw [isFree, if_neg hzero, if_pos hfull]) hf]
      next hpart =>
        have hlevel := Level.opened hzero hpart hg
        obtain ⟨L, hL⟩ := bmapRadix_dvd_radixOf h
        rw [skipOf_succ_div, radixOf_succ_div]
        have hloop := gapfindLoop_scan (n := metaRadix) (j := 0) (b := b) (f := f) state hs hL
          (fun i blk state => blstRadixGapfind levels mem (scan + i) blk (radixOf h)
            (skipOf h + 1 - 1) state) (fun j state hj hcnt => by
            refine ih state (le_of_succ_le_succ hlevels) (hs.sub hj hcnt) (hlevel.good j hj hcnt)
              fun q hq => ?_
            have hlt := lt_leaves.mp hq
            rw [subCnt] at hlt
            have hin : j * L + q < leaves cnt := by
              rw [lt_leaves, Nat.add_mul, Nat.mul_assoc, Nat.mul_comm L, ← hL]
              omega
            rw [Nat.add_assoc, hf _ hin, leafFree_sub hL hq (hlevel.free j hj)]
            rfl) rfl (by simp)
        rwa [Nat.zero_mul, Nat.zero_mul, Nat.zero_mul, Nat.zero_add, Nat.add_zero,
          Nat.sub_zero] at hloop

theorem used_leaves (hk : Knows (leafFree g cnt) bmapRadix (leaves cnt) state) :
    state.used cnt = state.used (leaves cnt * bmapRadix) := by
  cases hrun : state.inRun with
  | true =>
    obtain ⟨c, hc, -, hrow, -⟩ := hk.run hrun
    obtain ⟨hle, -⟩ := leafFree_iff.mp (hrow (leaves cnt - 1) (by omega) (by omega))
    have hlt := lt_leaves.not.mp (Nat.lt_irrefl (leaves cnt))
    rw [Nat.sub_add_cancel (by omega)] at hle
    rw [Nat.le_antisymm hle (Nat.le_of_not_lt hlt)]
  | false => rw [Scan.used, Scan.used, hrun, if_neg Bool.false_ne_true, if_neg Bool.false_ne_true]

/-- The gap is free, and no run of leaves that are all free is longer. -/
theorem blistGapfind_longest {bl : Blist} (hr : Reach bl) :
    ∃ maxb maxe, blistGapfind bl = some (maxb, maxe) ∧ maxb ≤ maxe ∧ maxe ≤ bl.blBlocks ∧
      (∀ x, maxb ≤ x → x < maxe → bl.isFree x = true) ∧
      (∀ i j, (∀ q, i ≤ q → q < j → leafFree bl.isFree bl.blBlocks q = true) →
        (j - i) * bmapRadix ≤ maxe - maxb) ∧
      (maxb = maxe ↔ ∀ q, leafFree bl.isFree bl.blBlocks q = false) := by
  have ho := hr.ok
  have hpos : 0 < bl.blBlocks := ho.shape.cnt_pos
  have hscan := blstRadixGapfind_scan (b := 0) (f := leafFree bl.isFree bl.blBlocks)
    ⟨false, 0, 0, 0, 0⟩ ho.levels ho.shape ho.good
    fun q _ => by rw [Nat.zero_add]; rfl
  rw [Nat.zero_mul, ← ho.radix, ← ho.skip] at hscan
  have hknows := (knows_zero (leafFree bl.isFree bl.blBlocks) bmapRadix).scan (leaves bl.blBlocks)
  rw [Nat.zero_add] at hknows
  obtain ⟨hbest, hlongest⟩ := hknows.finish
  rw [← used_leaves hknows] at hbest hlongest
  obtain ⟨i, j, hmaxb, hmaxe, hij, hj, hrow⟩ := hbest
  have hrange : i * bmapRadix ≤ j * bmapRadix := Nat.mul_le_mul_right _ (by omega)
  have hend : j * bmapRadix ≤ bl.blBlocks := by
    rcases hij with hlt | ⟨-, rfl⟩
    · have hlast := (leafFree_iff.mp (hrow (j - 1) (by omega) (by omega))).1
      rwa [Nat.sub_add_cancel (by omega)] at hlast
    · rw [Nat.zero_mul]
      exact Nat.zero_le _
  have hbegin : i * bmapRadix < bl.blBlocks := by
    rcases hij with hlt | ⟨rfl, -⟩
    · exact Nat.lt_of_lt_of_le (Nat.mul_lt_mul_of_pos_right hlt (by decide)) hend
    · rwa [Nat.zero_mul]
  rw [hmaxb, hmaxe] at hlongest
  have hlongest' (i' j' : Nat)
      (hall : ∀ q, i' ≤ q → q < j' → leafFree bl.isFree bl.blBlocks q = true) :
      (j' - i') * bmapRadix ≤ j * bmapRadix - i * bmapRadix := by
    rcases Nat.lt_or_ge i' j' with hlt | hge
    · have hlast := (leafFree_iff.mp (hall (j' - 1) (by omega) (by omega))).1
      rw [Nat.succ_mul] at hlast
      have hin : j' - 1 < leaves bl.blBlocks := lt_leaves.mpr (Nat.lt_of_lt_of_le
        (Nat.lt_add_of_pos_right (by decide)) hlast)
      exact hlongest i' j' (by omega) hall
    · rw [Nat.sub_eq_zero_of_le hge, Nat.zero_mul]
      exact Nat.zero_le _
  refine ⟨i * bmapRadix, j * bmapRadix, ?_, hrange, hend, fun x hlo hhi => ?_, hlongest', ?_⟩
  · rw [blistGapfind, hscan, bind_some]
    dsimp only
    rw [hmaxb, hmaxe, if_pos ⟨hrange, hbegin, hend⟩]
  · have hleaf := (leafFree_iff.mp (hrow (x / bmapRadix)
      ((Nat.le_div_iff_mul_le (by decide)).mpr hlo)
      (Nat.div_lt_of_lt_mul (by rwa [Nat.mul_comm])))).2
      (x % bmapRadix) (mod_lt _ (by decide))
    rwa [div_add_mod'] at hleaf
  · constructor
    · intro heq q
      by_contra hfree
      have hone := hlongest' q (q + 1) fun k hlo hhi => by
        rw [Nat.le_antisymm (le_of_lt_succ hhi) hlo]
        exact (Bool.not_eq_false _).mp hfree
      rw [heq, Nat.sub_self, Nat.add_sub_cancel_left] at hone
      exact absurd hone (by decide)
    · intro hnone
      rcases hij with hlt | ⟨rfl, rfl⟩
      · exact absurd (hrow i (Nat.le_refl i) hlt) (by rw [hnone]; exact Bool.false_ne_true)
      · rfl

theorem blistGapfind_longest_freed : ∃ bl, (Reach bl ∧ ∀ x < 2048, bl.isFree x = true) ∧
    ∃ maxb maxe, blistGapfind bl = some (maxb, maxe) ∧ 2048 ≤ maxe - maxb := by
  obtain ⟨-, bl, -, -, hreach, hblocks, hall⟩ := exists_freed
  obtain ⟨maxb, maxe, hfind, -, -, -, hlongest, -⟩ := blistGapfind_longest hreach
  refine ⟨bl, ⟨hreach, hall⟩, maxb, maxe, hfind, hlongest 0 32 fun q _ hq => ?_⟩
  have hin : (q + 1) * 64 ≤ bl.blBlocks := by omega
  exact leafFree_iff.mpr ⟨hin, fun i (hi : i < 64) => hall (q * 64 + i) (by omega)⟩

end Mbsd.Kern.SubrBlist
