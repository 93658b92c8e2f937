import Mathlib.Order.Interval.Finset.Nat
import Mbsd.Kern.SubrBlist.Alloc
import Mbsd.Kern.SubrBlist.Create
import Mbsd.Kern.SubrBlist.Free

/-! The calls on a `blist_t`, what each does to the free blocks, and what holds in any run of them:
no hint is too low, and where a leaf has the blocks an allocation finds some. -/

namespace Mbsd.Kern.SubrBlist

open Lib.CountIn Lib.Yields Option

variable {bl bl' : Blist} {blkno count filled n x : Nat} {mem' : BlMem} {f : Nat → Bool}

theorem blistMaxblks_lt : blistMaxblks < terminator := by decide

section

variable (ho : bl.Ok)

include ho

theorem Blist.Ok.becomes (hb : Becomes bl.blRoot mem' bl.height 0 bl.blBlocks f)
    (hn : n = countIn f 0 bl.blBlocks) : Blist.Ok { bl with blRoot := mem', blFree := n } ∧
      ∀ x < bl.blBlocks, Blist.isFree { bl with blRoot := mem', blFree := n } x = f x := by
  refine ⟨⟨ho.radix, ho.skip, ho.blocks, ho.shape.congr hb.terms, hb.good, ?_⟩, hb.free⟩
  rw [hn]
  exact (countIn_congr fun x _ hx => hb.free x (by omega)).symm

theorem Blist.Ok.levels : bl.height ≤ bl.levels := by
  rw [Blist.levels, ho.radix, log2_radixOf]
  omega

theorem Blist.Ok.max : bl.blBlocks < terminator :=
  Nat.lt_of_le_of_lt ho.blocks blistMaxblks_lt

theorem Blist.Ok.leaf_iff : bl.blRadix = bmapRadix ↔ bl.height = 0 := by
  rw [ho.radix]
  exact radixOf_eq_bmapRadix

theorem blistFree_ok (hcount : 0 < count) (hle : blkno + count ≤ bl.blBlocks)
    (halloc : ∀ x, blkno ≤ x → x < blkno + count → bl.isFree x = false) :
    ∃ bl', blistFree bl blkno count = some bl' ∧ bl'.Ok ∧ bl'.blBlocks = bl.blBlocks ∧
      ∀ x < bl.blBlocks, bl'.isFree x = (bl.isFree x || inRange blkno count x) := by
  obtain ⟨mem', hfreed, hb⟩ := nodeFree_becomes ho.levels (Nat.dvd_zero _) ho.shape ho.good ho.max
    hcount hle halloc
  rw [nodeFree, Nat.zero_add, ← ho.radix, ← ho.skip] at hfreed
  have hcount' : bl.blFree + count =
      countIn (fun x => bl.isFree x || inRange blkno count x) 0 bl.blBlocks := by
    rw [ho.free]
    exact (countIn_insert hle halloc fun x _ => rfl).symm
  obtain ⟨hok, hfree⟩ := ho.becomes hb hcount'
  refine ⟨_, ?_, hok, rfl, hfree⟩
  rw [blistFree]
  simp only [ho.leaf_iff, hfreed, map_some]

theorem blistAlloc_ok (hcount : 0 < count) (hlt : count ≤ terminator) :
    Yields (bmapRadix < count) (fun (r, bl') => bl'.Ok ∧ bl'.blBlocks = bl.blBlocks ∧ match r with
        | some blk => blk + count ≤ bl.blBlocks ∧
            (∀ x, blk ≤ x → x < blk + count → bl.isFree x = true) ∧
            ∀ x < bl.blBlocks, bl'.isFree x = (bl.isFree x && !inRange blk count x)
        | none => ¬LeafRun bl.isFree bl.blBlocks count ∧
            ∀ x < bl.blBlocks, bl'.isFree x = bl.isFree x) (blistAlloc bl count) := by
  have hnode := nodeAlloc_allocated 0 ho.levels ho.shape ho.good ho.max hcount hlt
  rw [nodeAlloc, ← ho.radix, ← ho.skip] at hnode
  rw [blistAlloc, blistAllocat]
  simp only [ho.leaf_iff]
  refine Yields.map hnode fun r hr => ?_
  obtain ⟨_ | blk, mem'⟩ := r
  · obtain ⟨hok, hfree⟩ := ho.becomes hr.1 ho.free
    exact ⟨hok, rfl, hr.2, hfree⟩
  · obtain ⟨x, hx, hle, hall, hb⟩ := hr
    rw [Nat.zero_add] at hx
    subst hx
    have herase : bl.blFree - count =
        countIn (fun y => bl.isFree y && !inRange blk count y) 0 bl.blBlocks := by
      have h := countIn_erase (f := bl.isFree) (g := fun y => bl.isFree y && !inRange blk count y)
        hle fun y _ => rfl
      rw [show countIn bl.isFree blk count = count from countIn_of_all hall, ← ho.free] at h
      omega
    obtain ⟨hok, hfree⟩ := ho.becomes hb herase
    exact ⟨hok, rfl, hle, hall, hfree⟩

theorem blistFill_ok (hcount : 0 < count) (hle : blkno + count ≤ bl.blBlocks) :
    Yields (¬FillFits bl.isFree bl.blBlocks bl.height blkno count)
      (fun (filled, bl') => bl'.Ok ∧ bl'.blBlocks = bl.blBlocks ∧
        FillFits bl.isFree bl.blBlocks bl.height blkno count ∧
        filled = countIn bl.isFree blkno count ∧
        ∀ x < bl.blBlocks, bl'.isFree x = (bl.isFree x && !inRange blkno count x))
      (blistFill bl blkno count) := by
  have hnode := nodeFill_fills ho.levels (Nat.dvd_zero _) ho.shape ho.good ho.max hcount hle
  rw [nodeFill, Nat.zero_add, ← ho.radix, ← ho.skip] at hnode
  rw [blistFill]
  simp only [ho.leaf_iff]
  refine Yields.map hnode fun r hr => ?_
  have herase : bl.blFree - r.2 =
      countIn (fun y => bl.isFree y && !inRange blkno count y) 0 bl.blBlocks := by
    have h := countIn_erase (f := bl.isFree) (g := fun y => bl.isFree y && !inRange blkno count y)
      hle fun y _ => rfl
    have hn : r.2 = countIn bl.isFree blkno count := hr.nblks
    rw [← ho.free] at h
    omega
  obtain ⟨hok, hfree⟩ := ho.becomes hr.becomes herase
  exact ⟨hok, rfl, hr.fits, hr.nblks, hfree⟩

end

/-- The states of a `blist_t`.  Blocks that are freed are allocated, as `blist_free` demands. -/
inductive Reach : Blist → Prop
  | create {turns blocks : Nat} {memory : BlMem} {bl : Blist} :
    blistCreate turns memory blocks = some bl → Reach bl
  | free {bl bl' : Blist} {blkno count : Nat} : Reach bl → 0 < count →
    blkno + count ≤ bl.blBlocks → (∀ x, blkno ≤ x → x < blkno + count → bl.isFree x = false) →
    blistFree bl blkno count = some bl' → Reach bl'
  | alloc {bl bl' : Blist} {count : Nat} {r : Option Nat} : Reach bl → 0 < count →
    count ≤ terminator → blistAlloc bl count = some (r, bl') → Reach bl'
  | fill {bl bl' : Blist} {blkno count filled : Nat} : Reach bl → 0 < count →
    blkno + count ≤ bl.blBlocks → blistFill bl blkno count = some (filled, bl') → Reach bl'

theorem Reach.ok (hr : Reach bl) : bl.Ok := by
  induction hr with
  | @create turns blocks memory bl hcreate =>
    rcases Nat.eq_zero_or_pos blocks with rfl | hpos
    · cases hcreate
    rcases Nat.lt_or_ge blistMaxblks blocks with hover | hblocks
    · rw [blistCreate_overflow turns memory hover] at hcreate
      cases hcreate
    · have hok := blistCreate_ok turns memory hpos hblocks
      rw [hcreate] at hok
      exact hok.1
  | free _ hcount hle halloc hfree ih =>
    obtain ⟨bl', hfree', hok, -⟩ := blistFree_ok ih hcount hle halloc
    rw [hfree] at hfree'
    cases hfree'
    exact hok
  | alloc _ hcount hlt halloc ih =>
    have hok := blistAlloc_ok ih hcount hlt
    rw [halloc] at hok
    exact hok.1
  | fill _ hcount hle hfill ih =>
    have hok := blistFill_ok ih hcount hle
    rw [hfill] at hok
    exact hok.1

/-- A node of the tree, by its level, its place in the array and its first block.  `enter` says
which nodes are looked below. -/
inductive Node (bl : Blist) (enter : Nat → Nat → Prop) : (h scan base : Nat) → Prop
  | root : Node bl enter bl.height 0 0
  | sub {h scan base j : Nat} : Node bl enter (h + 1) scan base → enter h scan → j < metaRadix →
    base + j * radixOf h < bl.blBlocks →
    Node bl enter h (SubrBlist.sub scan h j) (base + j * radixOf h)

def HintsOk (bl : Blist) (enter : Nat → Nat → Prop) : Prop :=
  ∀ h scan base, Node bl enter h scan base →
    ∀ n, LeafRun (fun x => bl.isFree (base + x)) (min (radixOf h) (bl.blBlocks - base)) n →
      n ≤ (bl.blRoot scan).bmBighint

def NotAllFree (bl : Blist) (h scan : Nat) : Prop := (bl.blRoot scan).bmuAvail ≠ radixOf (h + 1)

theorem Node.good {h scan base : Nat} (ho : bl.Ok) (hnode : Node bl (NotAllFree bl) h scan base) :
    (Good bl.blRoot h scan (min (radixOf h) (bl.blBlocks - base)) ∧
      ∀ x < min (radixOf h) (bl.blBlocks - base),
        bl.isFree (base + x) = SubrBlist.isFree bl.blRoot h scan x) ∨
    ∀ x < min (radixOf h) (bl.blBlocks - base), bl.isFree (base + x) = false := by
  induction hnode with
  | root =>
    rw [Nat.sub_zero, Nat.min_eq_right ho.shape.cnt_le]
    exact .inl ⟨ho.good, fun x _ => by rw [Nat.zero_add]; rfl⟩
  | @sub h scan base j _ henter hj hlt ih =>
    have hmul := mul_add_le_radixOf (h := h) hj
    have hpos := radixOf_pos h
    have hcnt : min (radixOf h) (bl.blBlocks - (base + j * radixOf h)) =
        subCnt h (min (radixOf (h + 1)) (bl.blBlocks - base)) j := by
      rw [subCnt]
      omega
    rw [hcnt]
    have hin : ∀ x < subCnt h (min (radixOf (h + 1)) (bl.blBlocks - base)) j,
        bl.isFree (base + j * radixOf h + x) = bl.isFree (base + (j * radixOf h + x)) :=
      fun x _ => by rw [Nat.add_assoc]
    rcases ih with ⟨hgood, hfree⟩ | hnone
    · by_cases hzero : (bl.blRoot scan).bmuAvail = 0
      · refine .inr fun x hx => ?_
        rw [hin x hx, hfree _ (lt_of_lt_subCnt hx).1, SubrBlist.isFree, if_pos hzero]
      · have hlevel := Level.opened hzero henter hgood
        refine .inl ⟨hlevel.good j hj (by omega), fun x hx => ?_⟩
        rw [hin x hx, hfree _ (lt_of_lt_subCnt hx).1, hlevel.free j hj x hx]
    · exact .inr fun x hx => by rw [hin x hx, hnone _ (lt_of_lt_subCnt hx).1]

theorem Blist.Ok.hintsOk (ho : bl.Ok) : HintsOk bl (NotAllFree bl) := by
  intro h scan base hnode n hrun
  rcases hnode.good ho with ⟨hgood, hfree⟩ | hnone
  · exact hgood.hint n (hrun.congr fun x hx hx' => hfree x hx ▸ hx')
  · rw [not_leafRun_false hrun hnone]
    exact Nat.zero_le _

/-- Where a leaf has the blocks, the allocation does not come back without any. -/
theorem blistAlloc_finds (hr : Reach bl) :
    HintsOk bl (NotAllFree bl) ∧ ∀ count, 0 < count → count ≤ blistMaxAlloc →
      ∃ r bl', blistAlloc bl count = some (r, bl') ∧
        (r = none → ¬LeafRun bl.isFree bl.blBlocks count) := by
  refine ⟨hr.ok.hintsOk, fun count hcount hmax => ?_⟩
  have hlt : count ≤ terminator := Nat.le_trans hmax (by decide)
  obtain ⟨⟨r, bl'⟩, halloc, -, -, hpost⟩ :=
    (blistAlloc_ok hr.ok hcount hlt).result (Nat.not_lt.mpr hmax)
  refine ⟨r, bl', halloc, fun hnone => ?_⟩
  subst hnone
  exact hpost.1

def zeroed : BlMem := fun _ => ⟨0, 0, 0⟩

theorem exists_freed : ∃ bl bl', blistCreate 12 zeroed 2048 = some bl ∧
    blistFree bl 0 2048 = some bl' ∧ Reach bl' ∧ bl'.blBlocks = 2048 ∧
    ∀ x < 2048, bl'.isFree x = true := by
  have hcreated := blistCreate_ok 12 zeroed (show 0 < 2048 by decide) (by decide)
  obtain ⟨bl, hcreate, hok, hblocks, hnone⟩ := hcreated.result (by decide)
  have hin : 0 + 2048 ≤ bl.blBlocks := by rw [hblocks]
  obtain ⟨bl', hfreed, -, hblocks', hfree⟩ := blistFree_ok hok (by decide) hin
    fun x _ _ => hnone x
  refine ⟨bl, bl', hcreate, hfreed, .free (.create hcreate) (by decide) hin (fun x _ _ => hnone x)
    hfreed, hblocks'.trans hblocks, fun x hx => ?_⟩
  rw [hfree x (by omega), inRange_iff.mpr (by omega), Bool.or_true]

theorem blistAlloc_finds_freed : ∃ bl, (Reach bl ∧ ∀ x < 2048, bl.isFree x = true) ∧
    HintsOk bl (NotAllFree bl) ∧
      ∀ count, 0 < count → count ≤ blistMaxAlloc → ∃ r bl', blistAlloc bl count = some (r, bl') ∧
        (r = none → ¬LeafRun bl.isFree bl.blBlocks count) := by
  obtain ⟨-, bl, -, -, hreach, -, hall⟩ := exists_freed
  exact ⟨bl, ⟨hreach, hall⟩, blistAlloc_finds hreach⟩

/-- Below a node that is all free, the hints are old: the first leaf has a hint of 0. -/
theorem hint_of_free_leaf : ∃ bl, Reach bl ∧ ¬HintsOk bl fun _ _ => True := by
  obtain ⟨bl, bl', hcreate, hfreed, hreach, hblocks, hall⟩ := exists_freed
  refine ⟨bl', hreach, fun hints => ?_⟩
  have heval : ((blistCreate 12 zeroed 2048).bind fun bl => blistFree bl 0 2048).map
      (fun bl => (bl.height, (bl.blRoot 1).bmBighint)) = some (1, 0) := by decide +kernel
  rw [hcreate, bind_some, hfreed, map_some] at heval
  obtain ⟨hheight, hhint⟩ := Prod.mk.inj (some.inj heval)
  have hroot : Node bl' (fun _ _ => True) 1 0 0 := hheight ▸ .root
  have hleaf : Node bl' (fun _ _ => True) 0 1 0 := .sub (j := 0) hroot trivial (by decide)
    (by rw [hblocks]; decide)
  have hrow := hints 0 1 0 hleaf 64 ⟨0, 0, by decide, by rw [hblocks]; decide,
    fun i hi => hall _ (by rw [Nat.zero_mul]; omega)⟩
  rw [hhint] at hrow
  exact absurd hrow (by decide)

/-- The range is taken and its free blocks are counted, unless it is more than a node of the
sublevel could hold and less than the node, and the node has free blocks. -/
theorem blistFill_iff (ho : bl.Ok) (hcount : 0 < count) (hle : blkno + count ≤ bl.blBlocks) :
    (∃ filled bl', blistFill bl blkno count = some (filled, bl') ∧ bl'.blBlocks = bl.blBlocks ∧
      filled = countIn bl.isFree blkno count ∧
      ∀ x < bl.blBlocks, bl'.isFree x = (bl.isFree x && !inRange blkno count x)) ↔
    FillFits bl.isFree bl.blBlocks bl.height blkno count := by
  have hfill := blistFill_ok ho hcount hle
  constructor
  · rintro ⟨filled, bl', heq, -⟩
    rw [heq] at hfill
    exact hfill.2.2.1
  · intro hfits
    obtain ⟨⟨filled, bl'⟩, heq, -, hblocks, -, hfilled, hfree⟩ :=
      hfill.result (not_not_intro hfits)
    exact ⟨filled, bl', heq, hblocks, hfilled, hfree⟩

theorem blistFill_iff_freed : ∃ bl, (Reach bl ∧ ∀ x < 2048, bl.isFree x = true) ∧
    ((∃ filled bl', blistFill bl 10 50 = some (filled, bl') ∧ bl'.blBlocks = bl.blBlocks ∧
      filled = countIn bl.isFree 10 50 ∧
      ∀ x < bl.blBlocks, bl'.isFree x = (bl.isFree x && !inRange 10 50 x)) ↔
    FillFits bl.isFree bl.blBlocks bl.height 10 50) := by
  obtain ⟨-, bl, -, -, hreach, hblocks, hall⟩ := exists_freed
  exact ⟨bl, ⟨hreach, hall⟩, blistFill_iff hreach.ok (by decide) (by rw [hblocks]; decide)⟩

/-- The first 100 of 2048 free blocks are too many for `blst_meta_fill`. -/
theorem blistFill_too_large : ∃ bl, Reach bl ∧ 0 + 100 ≤ bl.blBlocks ∧
    blistFill bl 0 100 = none := by
  obtain ⟨bl, bl', hcreate, hfreed, hreach, hblocks, -⟩ := exists_freed
  refine ⟨bl', hreach, by omega, ?_⟩
  have heval : ((blistCreate 12 zeroed 2048).bind fun bl => blistFree bl 0 2048).map
      (fun bl => (blistFill bl 0 100).isNone) = some true := by decide +kernel
  rw [hcreate, bind_some, hfreed, map_some] at heval
  exact isNone_iff_eq_none.mp (some.inj heval)

def Blist.freeSet (bl : Blist) : Finset Nat :=
  (Finset.range bl.blBlocks).filter fun x => bl.isFree x

theorem Blist.mem_freeSet : x ∈ bl.freeSet ↔ x < bl.blBlocks ∧ bl.isFree x = true := by
  rw [freeSet, Finset.mem_filter, Finset.mem_range]

theorem Blist.card_freeSet (bl : Blist) : bl.freeSet.card = countIn bl.isFree 0 bl.blBlocks := by
  rw [countIn, Nat.count_eq_card_filter_range]
  simp only [Nat.zero_add]
  rfl

theorem freeSet_sdiff (hblocks : bl'.blBlocks = bl.blBlocks)
    (hfree : ∀ x < bl.blBlocks, bl'.isFree x = (bl.isFree x && !inRange blkno count x)) :
    bl'.freeSet = bl.freeSet \ Finset.Ico blkno (blkno + count) := by
  ext x
  rw [Finset.mem_sdiff, Blist.mem_freeSet, Blist.mem_freeSet, Finset.mem_Ico, hblocks, and_assoc]
  refine and_congr_right fun hx => ?_
  rw [hfree x hx, Bool.and_eq_true, Bool.not_eq_true', ← Bool.not_eq_true, inRange_iff]

/-- `F` is the set of the free blocks: each call does to it what it is to do, and the count of the
free blocks is its size. -/
theorem blistCalls_refine (hr : Reach bl) :
    (∀ turns memory n, blistCreate turns memory n = some bl → bl.blBlocks = n ∧ bl.freeSet = ∅) ∧
    bl.blFree = bl.freeSet.card ∧ (∀ blkno count, 0 < count → blkno + count ≤ bl.blBlocks →
      Disjoint bl.freeSet (Finset.Ico blkno (blkno + count)) →
      ∃ bl', blistFree bl blkno count = some bl' ∧ bl'.blBlocks = bl.blBlocks ∧
        bl'.freeSet = bl.freeSet ∪ Finset.Ico blkno (blkno + count)) ∧
    (∀ count r bl', 0 < count → count ≤ blistMaxAlloc → blistAlloc bl count = some (r, bl') →
      bl'.blBlocks = bl.blBlocks ∧ match r with
        | some blk => Finset.Ico blk (blk + count) ⊆ bl.freeSet ∧
            bl'.freeSet = bl.freeSet \ Finset.Ico blk (blk + count)
        | none => bl'.freeSet = bl.freeSet) ∧
    ∀ blkno count filled bl', 0 < count → blkno + count ≤ bl.blBlocks →
      blistFill bl blkno count = some (filled, bl') →
      bl'.blBlocks = bl.blBlocks ∧
        filled = (bl.freeSet ∩ Finset.Ico blkno (blkno + count)).card ∧
        bl'.freeSet = bl.freeSet \ Finset.Ico blkno (blkno + count) := by
  have ho := hr.ok
  refine ⟨fun turns memory n hcreate => ?_, ?_, fun blkno count hcount hle hdisj => ?_,
    fun count r bl' hcount hmax halloc => ?_, fun blkno count filled bl' hcount hle hfill => ?_⟩
  · rcases Nat.eq_zero_or_pos n with rfl | hpos
    · cases hcreate
    rcases Nat.lt_or_ge blistMaxblks n with hover | hblocks
    · rw [blistCreate_overflow turns memory hover] at hcreate
      cases hcreate
    have hok := blistCreate_ok turns memory hpos hblocks
    rw [hcreate] at hok
    obtain ⟨-, hn, hnone⟩ := hok
    refine ⟨hn, Finset.eq_empty_of_forall_notMem fun x hx => ?_⟩
    rw [Blist.mem_freeSet, hnone x] at hx
    exact Bool.false_ne_true hx.2
  · rw [bl.card_freeSet, ho.free]
  · obtain ⟨bl', hfreed, -, hblocks, hfree⟩ := blistFree_ok ho hcount hle fun x hx hx' => by
      refine Bool.not_eq_true _ ▸ fun htrue => ?_
      exact Finset.disjoint_left.mp hdisj (Blist.mem_freeSet.mpr ⟨by omega, htrue⟩)
        (Finset.mem_Ico.mpr ⟨hx, hx'⟩)
    refine ⟨bl', hfreed, hblocks, ?_⟩
    ext x
    rw [Finset.mem_union, Blist.mem_freeSet, Blist.mem_freeSet, Finset.mem_Ico, hblocks]
    rcases Nat.lt_or_ge x bl.blBlocks with hx | hx
    · rw [hfree x hx, Bool.or_eq_true, inRange_iff]
      simp only [hx, true_and]
    · exact iff_of_false (fun h => by omega) fun h => by omega
  · have hok := blistAlloc_ok ho hcount (Nat.le_trans hmax (by decide))
    rw [halloc] at hok
    obtain ⟨-, hblocks, hpost⟩ := hok
    refine ⟨hblocks, ?_⟩
    cases r with
    | some blk =>
      obtain ⟨hle, hall, hfree⟩ := hpost
      refine ⟨fun x hx => ?_, freeSet_sdiff hblocks hfree⟩
      obtain ⟨hlo, hhi⟩ := Finset.mem_Ico.mp hx
      exact Blist.mem_freeSet.mpr ⟨by omega, hall x hlo hhi⟩
    | none =>
      ext x
      rw [Blist.mem_freeSet, Blist.mem_freeSet, hblocks]
      exact and_congr_right fun hx => by rw [hpost.2 x hx]
  · have hok := blistFill_ok ho hcount hle
    rw [hfill] at hok
    obtain ⟨-, hblocks, -, hfilled, hfree⟩ := hok
    have hrest := freeSet_sdiff hblocks hfree
    refine ⟨hblocks, ?_, hrest⟩
    have herase := countIn_erase (g := bl'.isFree) hle hfree
    have hcard := Finset.card_sdiff_add_card_inter bl.freeSet (Finset.Ico blkno (blkno + count))
    rw [← hrest, bl'.card_freeSet, bl.card_freeSet, hblocks] at hcard
    omega

theorem blistCalls_refine_created : ∃ bl bl', blistCreate 12 zeroed 100 = some bl ∧
    blistFree bl 10 50 = some bl' ∧ bl'.freeSet = Finset.Ico 10 60 := by
  have hcreate : blistCreate 12 zeroed 100 = some _ := rfl
  obtain ⟨hinit, -, hfree, -⟩ := blistCalls_refine (.create hcreate)
  obtain ⟨hblocks, hnone⟩ := hinit 12 zeroed 100 hcreate
  obtain ⟨bl', hfreed, -, hset⟩ := hfree 10 50 (by decide) (by rw [hblocks]; decide)
    (hnone ▸ Finset.disjoint_empty_left _)
  exact ⟨_, bl', hcreate, hfreed, by rw [hset, hnone, Finset.empty_union]⟩

end Mbsd.Kern.SubrBlist
