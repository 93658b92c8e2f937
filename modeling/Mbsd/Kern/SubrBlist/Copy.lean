import Mbsd.Kern.SubrBlist.Runs

/-! `blist_resize`: the free blocks of the old tree are freed in a new one. -/

namespace Mbsd.Kern.SubrBlist

open Lib.CountIn Lib.Yields Option BitVec Nat Bool

variable {dest dest₁ dest₂ : Blist} {blk count cnt p v n i j h levels scan total : Nat}
  {f g : Nat → Bool} {mem : BlMem} {bits : BitVec 64}

structure Copied (dest dest' : Blist) (blk p : Nat) (f : Nat → Bool) : Prop where
  ok : dest'.Ok
  blocks : dest'.blBlocks = dest.blBlocks
  free : ∀ x < dest.blBlocks, dest'.isFree x = (dest.isFree x || (inRange blk p x && f (x - blk)))

structure Room (dest : Blist) (blk count : Nat) : Prop where
  ok : dest.Ok
  le : blk + count ≤ dest.blBlocks
  allocated : ∀ x, blk ≤ x → x < blk + count → dest.isFree x = false

theorem Copied.nothing (ho : dest.Ok) (hf : ∀ y < p, f y = false) : Copied dest dest blk p f := by
  refine ⟨ho, rfl, fun x _ => ?_⟩
  cases hin : inRange blk p x with
  | false => rw [Bool.false_and, Bool.or_false]
  | true =>
    obtain ⟨hlo, hhi⟩ := inRange_iff.mp hin
    rw [hf _ (by omega), Bool.and_false, Bool.or_false]

theorem Copied.congr (hc : Copied dest dest₁ blk p f) (hfg : ∀ y < p, f y = g y) :
    Copied dest dest₁ blk p g := by
  refine ⟨hc.ok, hc.blocks, fun x hx => ?_⟩
  rw [hc.free x hx]
  cases hin : inRange blk p x with
  | false => rfl
  | true =>
    obtain ⟨hlo, hhi⟩ := inRange_iff.mp hin
    rw [hfg _ (by omega)]

theorem Copied.append (hc : Copied dest dest₁ blk p f)
    (hc' : Copied dest₁ dest₂ (blk + p) v fun y => f (p + y)) :
    Copied dest dest₂ blk (p + v) f := by
  refine ⟨hc'.ok, hc'.blocks.trans hc.blocks, fun x hx => ?_⟩
  rw [hc'.free x (hc.blocks ▸ hx), hc.free x hx, Bool.or_assoc]
  congr 1
  rcases Nat.lt_or_ge x (blk + p) with hlt | hge
  · rw [inRange_eq_false.mpr (by omega : ¬(blk + p ≤ x ∧ x < blk + p + v)), Bool.false_and,
      Bool.or_false]
    congr 1
    exact decide_eq_decide.mpr (by omega)
  · rw [inRange_eq_false.mpr (by omega : ¬(blk ≤ x ∧ x < blk + p)), Bool.false_and, Bool.false_or,
      show p + (x - (blk + p)) = x - blk by omega]
    congr 1
    exact decide_eq_decide.mpr (by omega)

theorem Room.rest (hr : Room dest blk count) (hc : Copied dest dest₁ blk p f)
    (hle : p + v ≤ count) : Room dest₁ (blk + p) v := by
  have hblocks := hr.le
  refine ⟨hc.ok, by rw [hc.blocks]; omega, fun x hlo hhi => ?_⟩
  rw [hc.free x (by omega), hr.allocated x (by omega) (by omega),
    inRange_eq_false.mpr (by omega), Bool.false_and, Bool.or_false]

theorem Room.freed (hr : Room dest blk count) (hcount : 0 < count) (hf : ∀ y < count, f y = true) :
    ∃ dest', blistFree dest blk count = some dest' ∧ Copied dest dest' blk count f := by
  obtain ⟨dest', hfreed, hok, hblocks, hfree⟩ := blistFree_ok hr.ok hcount hr.le hr.allocated
  refine ⟨dest', hfreed, hok, hblocks, fun x hx => ?_⟩
  rw [hfree x hx]
  cases hin : inRange blk count x with
  | false => rw [Bool.false_and]
  | true =>
    obtain ⟨hlo, hhi⟩ := inRange_iff.mp hin
    rw [hf _ (by omega), Bool.and_true]

theorem copyBits_copied (hr : Room dest blk count) (hcount : count ≤ bmapRadix)
    (hn : bmapRadix ≤ n + i) (hi : i ≤ count) (hc : Copied dest dest₁ blk i bits.getLsbD) :
    ∃ dest', copyBits bits blk count n i dest₁ = some dest' ∧
      Copied dest dest' blk count bits.getLsbD := by
  induction n generalizing i dest₁ with
  | zero =>
    obtain rfl : i = count := by omega
    exact ⟨dest₁, rfl, hc⟩
  | succ n ih =>
    rw [copyBits]
    split
    next hmore =>
      have hroom := hr.rest (v := 1) hc (by omega)
      split
      next hset =>
        obtain ⟨dest₂, hfreed, hc'⟩ := hroom.freed (f := fun y => bits.getLsbD (i + y)) (by decide)
          fun y hy => by rwa [show y = 0 by omega, Nat.add_zero]
        rw [hfreed, bind_some]
        exact ih (by omega) (by omega) (hc.append hc')
      next hclear =>
        have hc' : Copied dest₁ dest₁ (blk + i) 1 fun y => bits.getLsbD (i + y) :=
          .nothing hc.ok fun y hy => by
            rw [show y = 0 by omega, Nat.add_zero]
            exact (not_eq_true _).mp hclear
        exact ih (by omega) (by omega) (hc.append hc')
    next hdone =>
      obtain rfl : i = count := by omega
      exact ⟨dest₁, rfl, hc⟩

theorem copyLoop_copied (blk : Nat) (f : Nat → Bool)
    (child : (i blk count : Nat) → Blist → Option Blist) (hs : Shape mem (h + 1) scan cnt)
    (htotal : total ≤ cnt)
    (hchild : ∀ j dest v, j < metaRadix → j * radixOf h < cnt → 0 < v → v ≤ subCnt h cnt j →
      Room dest (blk + j * radixOf h) v →
      ∃ dest', child (j * (skipOf h + 1) + 1) (blk + j * radixOf h) v dest = some dest' ∧
        Copied dest dest' (blk + j * radixOf h) v fun y => f (j * radixOf h + y))
    (hr : Room dest blk total) (hn : n + j = metaRadix)
    (hc : Copied dest dest₁ blk (min total (j * radixOf h)) f) :
    ∃ dest', copyLoop child mem scan (radixOf h) (skipOf (h + 1)) (skipOf h + 1) n
        (j * (skipOf h + 1) + 1) (blk + j * radixOf h) (total - j * radixOf h) dest₁ = some dest' ∧
      Copied dest dest' blk total f := by
  have hpos := radixOf_pos h
  have hcnt : cnt ≤ metaRadix * radixOf h := by
    have hle := hs.cnt_le
    rwa [radixOf, Nat.mul_comm] at hle
  induction n generalizing j dest₁ with
  | zero =>
    rw [show j = metaRadix by omega, Nat.min_eq_left (by omega)] at hc
    exact ⟨dest₁, rfl, hc⟩
  | succ n ih =>
    have hj : j < metaRadix := by omega
    rw [copyLoop, ← sub]
    by_cases hmore : j * radixOf h < total
    · have hsub := hs.sub hj (by omega)
      rw [if_pos ⟨by omega, index_le_skipOf.mpr hj, hsub.bighint_ne⟩]
      rw [Nat.min_eq_right (Nat.le_of_lt hmore)] at hc
      -- the node gets what is left, and at most all it can hold
      obtain ⟨dest₂, hcopied, hc'⟩ := hchild j dest₁ (min (radixOf h) (total - j * radixOf h)) hj
        (by omega) (by omega) (by rw [subCnt]; omega) (hr.rest hc (by omega))
      have hnext := ih (j := j + 1) (by omega) (by
        rw [Nat.succ_mul, show min total (j * radixOf h + radixOf h) =
          j * radixOf h + min (radixOf h) (total - j * radixOf h) by omega]
        exact hc.append hc')
      rw [Nat.succ_mul, Nat.succ_mul, Nat.add_right_comm _ (skipOf h + 1), ← Nat.add_assoc blk]
        at hnext
      split
      next hall =>
        rw [Nat.min_eq_left hall] at hcopied
        rw [hcopied, Option.bind_some, Nat.sub_sub]
        exact hnext
      next hless =>
        rw [Nat.min_eq_right (by omega)] at hcopied
        rw [hcopied, Option.bind_some]
        rwa [show total - (j * radixOf h + radixOf h) = 0 by omega] at hnext
    · rw [if_neg fun hall => hall.1 (by omega)]
      rw [Nat.min_eq_left (by omega)] at hc
      exact ⟨dest₁, rfl, hc⟩

theorem blstCopy_copied (hlevels : h ≤ levels) (hs : Shape mem h scan cnt)
    (hg : Good mem h scan cnt) (hcount : 0 < count) (hle : count ≤ cnt) (hr : Room dest blk count) :
    ∃ dest', blstCopy levels mem scan blk (radixOf h) (skipOf h) dest count = some dest' ∧
      Copied dest dest' blk count (isFree mem h scan) := by
  induction h generalizing levels scan cnt blk count dest with
  | zero =>
    have hcopy : blstCopy levels mem scan blk (radixOf 0) (skipOf 0) dest count =
        if (mem scan).bmuBitmap = allOnes 64 then blistFree dest blk count
        else if (mem scan).bmuBitmap ≠ 0 then
          copyBits (mem scan).bmuBitmap blk count bmapRadix 0 dest
        else some dest := by
      cases levels <;> rw [blstCopy, if_pos (radixOf_eq_bmapRadix.mpr rfl)]
    have hcnt : count ≤ bmapRadix := Nat.le_trans hle hs.cnt_le
    rw [hcopy]
    split
    next hall =>
      refine hr.freed hcount fun y hy => ?_
      rw [isFree, hall, getLsbD_allOnes]
      exact decide_eq_true (Nat.lt_of_lt_of_le hy hcnt)
    next =>
      split
      next =>
        exact copyBits_copied hr hcnt (Nat.le_refl _) (Nat.zero_le _)
          (.nothing hr.ok fun y hy => absurd hy (Nat.not_lt_zero y))
      next hzero =>
        refine ⟨dest, rfl, .nothing hr.ok fun y _ => ?_⟩
        rw [isFree, Decidable.not_not.mp hzero]
        exact getLsbD_zero
  | succ h ih =>
    obtain ⟨levels, rfl⟩ := exists_level hlevels
    rw [blstCopy, if_neg (radixOf_eq_bmapRadix.not.mpr (succ_ne_zero h))]
    split
    next hzero =>
      exact ⟨dest, rfl, .nothing hr.ok fun y _ => by rw [isFree, if_pos hzero]⟩
    next hzero =>
      split
      next hfull =>
        have hfree : ∀ y < count, isFree mem (h + 1) scan y = true := fun y _ => by
          rw [isFree, if_neg hzero, if_pos hfull]
        have hcnt := hs.cnt_le
        split
        next => exact hr.freed hcount hfree
        next hge =>
          rw [show radixOf (h + 1) = count by omega]
          exact hr.freed hcount hfree
      next hpart =>
        have hlevel := Level.opened hzero hpart hg
        rw [skipOf_succ_div, radixOf_succ_div]
        have hloop := copyLoop_copied (n := metaRadix) (j := 0) blk (isFree mem (h + 1) scan)
          (fun i blk count dest => blstCopy levels mem (scan + i) blk (radixOf h)
            (skipOf h + 1 - 1) dest count) hs hle (fun j dest v hj hcnt hv hvle hroom => by
            obtain ⟨dest', hcopied, hc⟩ := ih (le_of_succ_le_succ hlevels) (hs.sub hj hcnt)
              (hlevel.good j hj hcnt) hv hvle hroom
            exact ⟨dest', hcopied, hc.congr fun y hy => hlevel.free j hj y (by omega)⟩) hr rfl
          (.nothing hr.ok fun y hy => by omega)
        rwa [Nat.zero_mul, Nat.zero_mul, Nat.zero_add, Nat.add_zero, Nat.sub_zero] at hloop

/-- The map of the old blocks is kept, and the new blocks are free if they are to be. -/
theorem blistResize_map {save : Blist} {m : Nat} (ho : save.Ok) (turns : Nat) (memory : BlMem)
    (hturns : 12 ≤ turns) (hpos : 0 < m) (hmax : m ≤ blistMaxblks) (freenew : Bool) :
    ∃ bl, blistResize turns memory save m freenew = some bl ∧ bl.Ok ∧ bl.blBlocks = m ∧
      (∀ x < m, bl.isFree x = true ↔ x < min save.blBlocks m ∧ save.isFree x = true ∨
          freenew = true ∧ save.blBlocks ≤ x) ∧ bl.blFree = countIn bl.isFree 0 m := by
  obtain ⟨newbl, hcreate, hok, hblocks, hnone⟩ :=
    (blistCreate_ok turns memory hpos hmax).result (Nat.not_lt.mpr hturns)
  have hn := ho.shape.cnt_pos
  have hcount : (if m > save.blBlocks then save.blBlocks else m) = min save.blBlocks m := by
    split <;> omega
  have hroom : Room newbl 0 (min save.blBlocks m) :=
    ⟨hok, by rw [hblocks]; omega, fun x _ _ => hnone x⟩
  obtain ⟨dest, hcopied, hc⟩ := blstCopy_copied ho.levels ho.shape ho.good (by omega)
    (Nat.min_le_left _ _) hroom
  rw [← ho.radix, ← ho.skip] at hcopied
  have hdest : ∀ x < m, dest.isFree x = (decide (x < min save.blBlocks m) && save.isFree x) := by
    intro x hx
    rw [hc.free x (by omega), hnone, Bool.false_or, inRange, Nat.sub_zero, Nat.zero_add]
    congr 1
    exact decide_eq_decide.mpr (by omega)
  have hdblocks : dest.blBlocks = m := hc.blocks.trans hblocks
  rw [blistResize, hcreate, bind_some]
  dsimp only
  rw [hcount, hcopied, bind_some, hdblocks]
  split
  next hnew =>
    obtain ⟨hfree, hlt⟩ := hnew
    have hmin : min save.blBlocks m = save.blBlocks := by omega
    rw [hmin] at hdest ⊢
    have hin : save.blBlocks + (m - save.blBlocks) ≤ dest.blBlocks := by omega
    obtain ⟨bl, hfreed, hblok, hblblocks, hblfree⟩ := blistFree_ok hc.ok (by omega) hin
      fun x hlo hhi => by rw [hdest x (by omega), decide_eq_false (by omega), Bool.false_and]
    refine ⟨bl, hfreed, hblok, hblblocks.trans hdblocks, fun x hx => ?_, ?_⟩
    · rw [hblfree x (by omega), hdest x hx, or_eq_true, and_eq_true, decide_eq_true_iff,
        inRange_iff]
      constructor
      · exact Or.imp_right fun hin => ⟨hfree, hin.1⟩
      · exact Or.imp_right fun hin => ⟨hin.2, by omega⟩
    · rw [← hdblocks, ← hblblocks]
      exact hblok.free
  next hnew =>
    refine ⟨dest, rfl, hc.ok, hdblocks, fun x hx => ?_, ?_⟩
    · rw [hdest x hx, and_eq_true, decide_eq_true_iff]
      constructor
      · exact .inl
      · rintro (hold | ⟨hfree, hge⟩)
        · exact hold
        · exact absurd ⟨hfree, by omega⟩ hnew
    · rw [← hdblocks]
      exact hc.ok.free

theorem blistResize_map_freed : ∃ save bl, Reach save ∧ save.blBlocks = 2048 ∧
    blistResize 12 zeroed save 3000 true = some bl ∧ ∀ x < 3000, bl.isFree x = true := by
  obtain ⟨-, save, -, -, hreach, hblocks, hall⟩ := exists_freed
  obtain ⟨bl, hrun, -, -, hmap, -⟩ :=
    blistResize_map hreach.ok 12 zeroed (m := 3000) (Nat.le_refl 12) (by decide) (by decide) true
  refine ⟨save, bl, hreach, hblocks, hrun, fun x hx => (hmap x hx).mpr ?_⟩
  rcases Nat.lt_or_ge x 2048 with hlt | hge
  · exact .inl ⟨by omega, hall x hlt⟩
  · exact .inr ⟨rfl, by omega⟩

/-- Above `BLIST_MAXBLKS` the radix overflows, and `blist_create` does not come to an end. -/
theorem blistResize_overflow : ∃ save, Reach save ∧ ∃ m, 0 < m ∧
    ∀ turns memory freenew, blistResize turns memory save m freenew = none := by
  have hcreated := blistCreate_ok 12 zeroed (show 0 < 100 by decide) (by decide)
  obtain ⟨save, hcreate, -⟩ := hcreated.result (by decide)
  refine ⟨save, .create hcreate, blistMaxblks + 1, succ_pos _, fun turns memory freenew => ?_⟩
  rw [blistResize, blistCreate_overflow turns memory (lt_succ_self _), bind_none]

end Mbsd.Kern.SubrBlist
