import Mbsd.Kern.SubrBlist.Leaf
import Mbsd.Kern.SubrBlist.Sublevel

/-! Blocks are allocated, from the first node whose hint lets hope for them. -/

namespace Mbsd.Kern.SubrBlist

open Lib.CountIn Lib.Yields Nat BlMem

def nodeAlloc (levels : Nat) (mem : BlMem) (h scan blk count : Nat) : Option (Option Nat × BlMem) :=
  if h = 0 then some (blstLeafAlloc mem scan blk count)
  else blstMetaAlloc levels mem scan 0 blk count (radixOf h) (skipOf h)

theorem nodeAlloc_sub (levels : Nat) (mem : BlMem) (h scan blk count : Nat) :
    (if skipOf h + 1 = 1 then some (blstLeafAlloc mem scan blk count)
      else blstMetaAlloc levels mem scan 0 blk count (radixOf h) (skipOf h + 1 - 1)) =
    nodeAlloc levels mem h scan blk count := by
  cases h with
  | zero => rfl
  | succ h => rw [if_neg nextSkip_succ, nodeAlloc, if_neg (succ_ne_zero h), Nat.add_sub_cancel]

variable {mem memk : BlMem} {h levels scan cnt blk count j : Nat} {f : Nat → Bool} {m : BlMeta}

/-- The state of the loop in `blst_meta_alloc` when the nodes before `j` have nothing to offer. -/
structure Allocating (mem memk : BlMem) (h scan cnt count j : Nat) (f : Nat → Bool) (m : BlMeta) :
    Prop where
  level : Level mem memk h scan cnt f
  head : memk scan = m
  tried : ∀ i < j, i < metaRadix → i * radixOf h < cnt →
    ¬LeafRun (fun x => f (i * radixOf h + x)) (subCnt h cnt i) count

def lessen (m : BlMeta) (count : Nat) : BlMeta :=
  let avail := m.bmuAvail - count
  { m with
    bmuAvail := avail
    bmBighint := if m.bmBighint > avail then avail else m.bmBighint }

/-- What the loop comes to: all of the sublevel was tried, or there is an allocation below it. -/
def Tried (mem : BlMem) (h scan cnt blk count : Nat) (f : Nat → Bool) (m : BlMeta) :
    Option Nat × BlMem → Prop
  | (some r, mem') => ∃ x, r = blk + x ∧ x + count ≤ cnt ∧
      (∀ y, x ≤ y → y < x + count → f y = true) ∧
      ∃ memk, Level mem memk h scan cnt (fun y => f y && !inRange x count y) ∧
        memk scan = m ∧ mem' = memk.set scan (lessen m count)
  | (none, mem') => Allocating mem mem' h scan cnt count metaRadix f m

theorem Allocating.all (hs : Shape mem (h + 1) scan cnt)
    (hA : Allocating mem memk h scan cnt count metaRadix f m) (hcount : 0 < count) :
    ¬LeafRun f cnt count := by
  intro hrun
  obtain ⟨j, hj, hcnt, hsub⟩ := hrun.sub hs.cnt_le hcount
  exact hA.tried j hj hj hcnt hsub

theorem Allocating.next {mem' : BlMem} (hA : Allocating mem memk h scan cnt count j f m)
    (hl : Level mem mem' h scan cnt f) (hhead : mem' scan = memk scan)
    (hnone : ¬LeafRun (fun x => f (j * radixOf h + x)) (subCnt h cnt j) count) :
    Allocating mem mem' h scan cnt count (j + 1) f m := by
  refine ⟨hl, hhead.trans hA.head, fun i hij hi hcnt => ?_⟩
  rcases Nat.lt_succ_iff_lt_or_eq.mp hij with hlt | rfl
  · exact hA.tried i hlt hi hcnt
  · exact hnone

theorem allocLoop_tried (child : BlMem → (i blk : Nat) → Option (Option Nat × BlMem)) {n : Nat}
    (blk : Nat) (hs : Shape mem (h + 1) scan cnt)
    (hchild : ∀ memk j, j < metaRadix → j * radixOf h < cnt →
      Shape memk h (sub scan h j) (subCnt h cnt j) → Good memk h (sub scan h j) (subCnt h cnt j) →
      Yields (bmapRadix < count)
        (Allocated memk h (sub scan h j) (subCnt h cnt j) (blk + j * radixOf h) count)
        (child memk (j * (skipOf h + 1) + 1) (blk + j * radixOf h)))
    (hn : n + j = metaRadix) (hj : j * radixOf h < cnt + radixOf h)
    (hA : Allocating mem memk h scan cnt count j f m) :
    Yields (bmapRadix < count) (Tried mem h scan cnt blk count f m)
      (allocLoop child scan 0 count (radixOf h) (skipOf (h + 1)) (skipOf h + 1) n memk
        (j * (skipOf h + 1) + 1) (blk + j * radixOf h)) := by
  have hpos := radixOf_pos h
  induction n generalizing memk j with
  | zero =>
    obtain rfl : j = metaRadix := by omega
    exact hA
  | succ n ih =>
    have hjlt : j < metaRadix := by omega
    have hnexti : j * (skipOf h + 1) + 1 + (skipOf h + 1) = (j + 1) * (skipOf h + 1) + 1 := by
      rw [succ_mul]
      omega
    have hnextblk : blk + j * radixOf h + radixOf h = blk + (j + 1) * radixOf h := by
      rw [succ_mul, Nat.add_assoc]
    have hsk := hs.congr hA.level.terms
    rw [allocLoop, ← sub, hnexti, hnextblk]
    by_cases hcnt : j * radixOf h < cnt
    · have hsub := hsk.sub hjlt hcnt
      have hgood := hA.level.good j hjlt hcnt
      have hfree := hA.level.free j hjlt
      have hjnext : (j + 1) * radixOf h < cnt + radixOf h := by
        rw [succ_mul]
        omega
      rw [if_pos ⟨index_le_skipOf.mpr hjlt, hsub.bighint_ne⟩]
      split
      next htry =>
        have hr := hchild memk j hjlt hcnt hsub hgood
        cases hc : child memk (j * (skipOf h + 1) + 1) (blk + j * radixOf h) with
        | none =>
          rw [hc] at hr
          exact hr
        | some result =>
          rw [hc] at hr
          obtain ⟨r | r, mem'⟩ := result
          · obtain ⟨hb, hno⟩ := hr
            have hl := hA.level.change (g := f) hjlt (hb.congr hfree) fun x _ _ => rfl
            refine ih (by omega) hjnext (hA.next hl hb.apart.head fun hrun => hno ?_)
            exact hrun.congr fun x hx hx' => (hfree x hx).trans hx'
          · obtain ⟨x, rfl, hle, hall, hb⟩ := hr
            refine ⟨j * radixOf h + x, by rw [Nat.add_assoc], ?_, fun y hlo hhi => ?_, mem', ?_,
              hb.apart.head.trans hA.head, ?_⟩
            · rw [subCnt] at hle
              omega
            · have hy := hall (y - j * radixOf h) (by omega) (by omega)
              rwa [hfree _ (by omega), Nat.add_sub_cancel' (by omega)] at hy
            · refine hA.level.change hjlt (hb.congr fun y hy => ?_) fun y _ hy => ?_
              · rw [hfree y hy, inRange_sub (Nat.le_add_right _ _), Nat.add_sub_cancel_left]
              · have hout : inRange (j * radixOf h + x) count y = false := by
                  rw [← Bool.not_eq_true]
                  refine fun hin => hy (div_eq_of_inRange (Nat.le_add_right _ _) ?_ hin)
                  rw [succ_mul]
                  rw [subCnt] at hle
                  omega
                rw [hout, Bool.not_false, Bool.and_true]
            · rw [hb.apart.head, hA.head]
              rfl
      next hskip =>
        split
        next htoo =>
          have hle := bmapRadix_le_radixOf h
          exact Nat.lt_of_le_of_lt hle htoo
        next =>
          refine ih (by omega) hjnext (hA.next hA.level rfl fun hrun => hskip ⟨?_, by omega⟩)
          exact hgood.hint _ (hrun.congr fun x hx hx' => (hfree x hx).trans hx')
    · -- a terminator, or the end of the array
      have hstop : ¬(j * (skipOf h + 1) + 1 ≤ skipOf (h + 1) ∧
          (memk (sub scan h j)).bmBighint ≠ terminator) := by
        rintro ⟨-, hne⟩
        cases j with
        | zero =>
          have hcntpos := hs.cnt_pos
          omega
        | succ j =>
          rw [succ_mul] at hj
          exact hne (hsk.ended hjlt (by omega) (Nat.le_of_not_lt hcnt))
      rw [if_neg hstop]
      refine ⟨hA.level, hA.head, fun i hi _ hicnt => hA.tried i ?_ hi hicnt⟩
      by_contra hge
      have hmul := Nat.mul_le_mul_right (radixOf h) (Nat.le_of_not_lt hge)
      omega

theorem allocHead_level (count : Nat) (hs : Shape mem (h + 1) scan cnt)
    (hg : Good mem (h + 1) scan cnt) (hzero : (mem scan).bmuAvail ≠ 0) :
    ∃ m, Allocating mem (if (mem scan).bmuAvail = radixOf (h + 1) then
        initFree (mem.set scan { mem scan with bmBighint := radixOf (h + 1) }) scan (radixOf h)
          (skipOf (h + 1)) (skipOf h + 1) else mem) h scan cnt count 0 (isFree mem (h + 1) scan) m ∧
      m.bmuAvail = (mem scan).bmuAvail ∧ m.bmBighint ≠ terminator ∧
      ∀ n, LeafRun (isFree mem (h + 1) scan) cnt n → n ≤ m.bmBighint := by
  split
  next hfull =>
    have hcnt : cnt = radixOf (h + 1) := by
      have hle := countIn_le (isFree mem (h + 1) scan) 0 cnt
      have havail := hg.1
      have hradix := hs.cnt_le
      omega
    have hset : Terms mem (mem.set scan { mem scan with bmBighint := radixOf (h + 1) }) :=
      .set hs.bighint_ne (radixOf_ne_terminator _)
    obtain ⟨hlevel, hhead⟩ := initFree_level (hs.congr hset) hcnt
    refine ⟨_, ⟨⟨(Apart.set _ _ _ _).trans hlevel.apart, hset.trans hlevel.terms, hlevel.good,
      fun j hj x hx => ?_⟩, hhead, fun i hi => absurd hi (Nat.not_lt_zero i)⟩, ?_, ?_,
      fun n hrun => ?_⟩
    · rw [hlevel.free j hj x hx, isFree, if_neg hzero, if_pos hfull]
    · rw [set_self]
    · rw [set_self]
      exact radixOf_ne_terminator _
    · rw [set_self]
      exact Nat.le_trans hrun.le_bmapRadix (bmapRadix_le_radixOf _)
  next hpart =>
    exact ⟨_, ⟨Level.opened hzero hpart hg, rfl, fun i hi => absurd hi (Nat.not_lt_zero i)⟩, rfl,
      hs.bighint_ne, hg.hint⟩

section Done

variable {mem' : BlMem} (hs : Shape mem (h + 1) scan cnt) (hg : Good mem (h + 1) scan cnt)
  (havail : m.bmuAvail = (mem scan).bmuAvail) (hne : m.bmBighint ≠ terminator)
  (hhint : ∀ n, LeafRun (isFree mem (h + 1) scan) cnt n → n ≤ m.bmBighint)

include hs hg havail hne hhint

theorem tried_none (blk : Nat) (hcount : 0 < count) (hlt : count ≤ terminator)
    (hA : Allocating mem mem' h scan cnt count metaRadix (isFree mem (h + 1) scan) m) :
    Allocated mem (h + 1) scan cnt blk count (none, if (mem' scan).bmBighint ≥ count then
        mem'.set scan { mem' scan with bmBighint := count - 1 } else mem') := by
  have hno := hA.all hs hcount
  have hmem : (mem' scan).bmuAvail = countIn (isFree mem (h + 1) scan) 0 cnt := by
    rw [hA.head, havail, hg.1]
  refine ⟨?_, hno⟩
  split
  next hge =>
    refine Level.closed (hA.level.setHead (hA.head ▸ hne) ?_) hs.cnt_le ?_ fun n hrun => ?_
    · dsimp only
      omega
    · rw [set_self]
      exact hmem
    · rw [set_self]
      dsimp only
      by_contra hgt
      exact hno (hrun.le (by omega))
  next =>
    exact hA.level.closed hs.cnt_le hmem fun n hrun => hA.head ▸ hhint n hrun

theorem tried_some {r : Nat} (hmax : cnt < terminator)
    (hT : Tried mem h scan cnt blk count (isFree mem (h + 1) scan) m (some r, mem')) :
    Allocated mem (h + 1) scan cnt blk count (some r, mem') := by
  obtain ⟨x, rfl, hle, hall, memk, hlevel, hhead, rfl⟩ := hT
  have herase := countIn_erase (f := isFree mem (h + 1) scan)
    (g := fun y => isFree mem (h + 1) scan y && !inRange x count y) hle fun y _ => rfl
  rw [countIn_of_all hall, ← hg.1, ← havail] at herase
  refine ⟨x, rfl, hle, hall, Level.closed (hlevel.setHead (hhead ▸ hne) ?_) hs.cnt_le ?_
    fun n hrun => ?_⟩
  · have hcnt := countIn_le (fun y => isFree mem (h + 1) scan y && !inRange x count y) 0 cnt
    rw [lessen]
    dsimp only
    split
    · omega
    · exact hne
  · rw [set_self, lessen]
    dsimp only
    omega
  · have hold := hhint n (hrun.congr fun y _ hy => by
      rw [Bool.and_eq_true] at hy
      exact hy.1)
    have hnew := hrun.le_countIn
    rw [set_self, lessen]
    dsimp only
    split <;> omega

end Done

theorem nodeAlloc_allocated (blk : Nat) (hlevels : h ≤ levels) (hs : Shape mem h scan cnt)
    (hg : Good mem h scan cnt) (hmax : cnt < terminator) (hcount : 0 < count)
    (hlt : count ≤ terminator) : Yields (bmapRadix < count) (Allocated mem h scan cnt blk count)
      (nodeAlloc levels mem h scan blk count) := by
  induction h generalizing levels mem scan cnt blk with
  | zero => exact blstLeafAlloc_allocated hs hg hcount hlt
  | succ h ih =>
    obtain ⟨levels, rfl⟩ := exists_level hlevels
    rw [nodeAlloc, if_neg (succ_ne_zero h), blstMetaAlloc, skipOf_succ_div, radixOf_succ_div]
    dsimp only
    split
    next hzero =>
      have hnone : ∀ x, isFree mem (h + 1) scan x = false := fun x => by rw [isFree, if_pos hzero]
      refine ⟨Becomes.allAllocated (.set _ _ _ _) (.set hs.bighint_ne ?_) (fun x _ => hnone x) ?_,
        fun hrun => ?_⟩
      · exact (by decide : 0 ≠ terminator)
      · rw [set_self]
        exact hzero
      · have hle := not_leafRun_false hrun fun x _ => hnone x
        omega
    next hzero =>
      obtain ⟨m, hA, havail, hne, hhint⟩ := allocHead_level count hs hg hzero
      generalize (if (mem scan).bmuAvail = radixOf (h + 1) then
        initFree (mem.set scan { mem scan with bmBighint := radixOf (h + 1) }) scan (radixOf h)
          (skipOf (h + 1)) (skipOf h + 1) else mem) = mem₁ at hA ⊢
      have hloop := allocLoop_tried (n := metaRadix)
        (fun mem i blk => if skipOf h + 1 = 1 then some (blstLeafAlloc mem (scan + i) blk count)
          else blstMetaAlloc levels mem (scan + i) 0 blk count (radixOf h) (skipOf h + 1 - 1))
        blk hs (fun memk j hj hcnt hsub hgood => ?_) rfl (by have := hs.cnt_pos; omega) hA
      · rw [Nat.zero_mul, Nat.zero_mul, Nat.zero_add, Nat.add_zero] at hloop
        generalize allocLoop _ scan 0 count _ _ _ metaRadix mem₁ 1 blk = result at hloop ⊢
        obtain _ | ⟨_ | r, mem'⟩ := result
        · exact hloop
        · have hdone := tried_none hs hg havail hne hhint blk hcount hlt hloop
          dsimp only
          split
          next hboth => rwa [if_pos hboth.2] at hdone
          next hno => rwa [if_neg fun hge => hno ⟨Nat.zero_le _, hge⟩] at hdone
        · exact tried_some hs hg havail hne hhint hmax hloop
      · rw [nodeAlloc_sub]
        exact ih _ (le_of_succ_le_succ hlevels) hsub hgood
          (Nat.lt_of_le_of_lt subCnt_le_cnt hmax)

end Mbsd.Kern.SubrBlist
