import Mbsd.Kern.SubrBlist.Bounds
import Mbsd.Kern.SubrBlist.Erase
import Mbsd.Kern.SubrBlist.Runs

/-! What any sequence of calls leaves of a `blist_t`: its terminators.  So every call touches
entries of `bl_root` only, and none of them is behind a terminator. -/

namespace Mbsd.Kern.SubrBlist.Access

open Lib.CellProg Option Nat Access

def Inside (bl : Blist) (a : Nat) : Prop := a < bl.blRootblks ∧ ¬Past bl.blRoot bl.height 0 a

structure Walled (bl : Blist) : Prop where
  radix : bl.blRadix = radixOf bl.height
  skip : bl.blSkip = skipOf bl.height
  height : bl.height ≤ 11
  pos : 0 < bl.blBlocks
  blocks : bl.blBlocks ≤ radixOf bl.height
  fenced : Fenced bl.blRoot bl.height 0 bl.blBlocks
  room : ∀ a, Entry bl.height 0 bl.blBlocks a → a < bl.blRootblks

variable {bl dest : Blist} {k : Counter} {P : Nat → Prop} {mem : BlMem} {count blkno n : Nat}

namespace Walled

theorem inside (hw : Walled bl) {a : Nat} (he : Entry bl.height 0 bl.blBlocks a) : Inside bl a :=
  ⟨hw.room a he, hw.fenced.not_past he⟩

theorem keeps (hw : Walled bl) (hk : Keeps bl.blRoot mem) (n : Nat) :
    Walled { bl with blRoot := mem, blFree := n } :=
  ⟨hw.radix, hw.skip, hw.height, hw.pos, hw.blocks, hw.fenced.keeps hk, hw.room⟩

theorem levels (hw : Walled bl) : bl.height ≤ bl.levels := by
  rw [Blist.levels, hw.radix, log2_radixOf]
  omega

theorem leaf_iff (hw : Walled bl) : bl.blRadix = bmapRadix ↔ bl.blSkip + 1 = 1 := by
  rw [hw.radix, radixOf_eq_bmapRadix, ← skipOf_eq_zero, hw.skip]
  omega

variable (hw : Walled bl) (hP : ∀ a, Entry bl.height 0 bl.blBlocks a → P a)

include hw hP

theorem blistAlloc (hcount : 0 < count) (hmax : count ≤ terminator) :
    Guarded P bl.blRoot (blistAlloc k bl count) bl.blRoot := by
  have hnode := allocNode_guarded (k := k) hw.height hw.levels hw.fenced hP hw.pos hcount hmax 0 0
  rw [Nat.add_sub_cancel, ← hw.radix, ← hw.skip] at hnode
  rw [Access.blistAlloc]
  simp only [hw.leaf_iff]
  exact hnode.bind fun _ _ hk => .pure hk _

theorem blistFree (hlt : blkno < bl.blBlocks) (hle : blkno + count ≤ bl.blBlocks) :
    Guarded P bl.blRoot (blistFree k bl blkno count) bl.blRoot := by
  have hnode := freeNode_guarded (k := k) hw.height hw.levels hw.fenced hP (Nat.zero_le _)
    (by omega) (show blkno + count ≤ 0 + bl.blBlocks by omega) hw.blocks
  rw [Nat.add_sub_cancel, ← hw.radix, ← hw.skip] at hnode
  rw [Access.blistFree]
  simp only [hw.leaf_iff]
  exact hnode.bind fun _ _ hk => .pure hk _

theorem blistFill (hlt : blkno < bl.blBlocks) (hle : blkno + count ≤ bl.blBlocks) :
    Guarded P bl.blRoot (blistFill k bl blkno count) bl.blRoot := by
  have hnode := fillNode_guarded (k := k) hw.height hw.levels hw.fenced hP (Nat.zero_le _)
    (by omega) (show blkno + count ≤ 0 + bl.blBlocks by omega) hw.blocks
  rw [Nat.add_sub_cancel, ← hw.radix, ← hw.skip] at hnode
  rw [Access.blistFill]
  simp only [hw.leaf_iff]
  exact hnode.bind fun _ _ hk => .pure hk _

theorem blistGapfind : Guarded P bl.blRoot (blistGapfind bl) bl.blRoot := by
  have hnode := blstRadixGapfind_guarded hw.levels hw.fenced hP hw.pos 0
    (.firstfree, ⟨0, 0, 0, 0⟩)
  rw [← hw.radix, ← hw.skip] at hnode
  refine hnode.bind fun r _ hk => ?_
  dsimp only
  split <;> exact hk

end Walled

section Copy

variable {src both : Nat → BlMeta} {root d : BlMem} {Ps : Nat → Prop}
  {blk cnt h i levels scan : Nat}

def GuardedCopy (Ps P : Nat → Prop) (src root : BlMem) (p : CopyProg Nat) (d : BlMem) : Prop :=
  p.Runs (Sum.elim Ps P) (fun _ both => ∃ d', both = Sum.elim src d' ∧ Keeps root d')
    (Sum.elim src d)

theorem GuardedCopy.bind {p : CopyProg Nat} {f : Nat → CopyProg Nat}
    (hp : GuardedCopy Ps P src root p d)
    (hf : ∀ a d', Keeps root d' → GuardedCopy Ps P src root (f a) d') :
    GuardedCopy Ps P src root (p >>= f) d := by
  refine Prog.runs_bind.mpr (hp.mono ?_)
  rintro a _ ⟨d', rfl, hk⟩
  exact hf a d' hk

theorem GuardedCopy.stop (hk : Keeps root d) (n : Nat) : GuardedCopy Ps P src root (pure n) d :=
  ⟨d, rfl, hk⟩

theorem GuardedCopy.get {f : BlMeta → CopyProg Nat} {a : Nat} (ha : Ps a)
    (hf : GuardedCopy Ps P src root (f (src a)) d) :
    GuardedCopy Ps P src root (Prog.get (.inl a) >>= f) d := ⟨ha, hf⟩

section Loop

variable {child : (i blk count : Nat) → Blist → CopyProg Nat}
  (hPs : ∀ a, Entry (h + 1) scan cnt a → Ps a)
  (hchild : ∀ j blk c d free, j < metaRadix → j * radixOf h < cnt → 0 < c → c ≤ subCnt h cnt j →
    blk + c ≤ dest.blBlocks → Keeps dest.blRoot d →
    GuardedCopy Ps P src dest.blRoot
      (child (j * (skipOf h + 1) + 1) blk c { dest with blFree := free }) d)

include hPs hchild

theorem copyLoop_guarded {j : Nat} (hj : j ≤ metaRadix) (hn : metaRadix < n + j)
    (hcount : count ≠ 0 → j * radixOf h + count ≤ cnt ∧ blk + count ≤ dest.blBlocks)
    (hk : Keeps dest.blRoot d) (free : Nat) : GuardedCopy Ps P src dest.blRoot
      (copyLoop child scan (radixOf h) (skipOf (h + 1)) (skipOf h + 1) n
        (j * (skipOf h + 1) + 1) blk count { dest with blFree := free }) d := by
  induction n generalizing j blk count d free with
  | zero => omega
  | succ n ih =>
    rw [copyLoop]
    split
    next hgo =>
      have hj' := index_le_skipOf.mp hgo.2
      obtain ⟨hcnt, hle⟩ := hcount hgo.1
      have hlt : j * radixOf h < cnt := by omega
      refine .get (hPs _ (.sub hj' hlt (.head _ _ _))) ?_
      split
      next => exact .stop hk _
      next =>
        rw [index_succ]
        split
        next hall =>
          refine (hchild j blk _ d free hj' hlt (radixOf_pos h) (by rw [subCnt]; omega) (by omega)
            hk).bind fun free' d' hk' => ?_
          exact ih hj' (by omega) (fun _ => by rw [succ_mul]; omega) hk' free'
        next =>
          refine (hchild j blk _ d free hj' hlt (by omega) (by rw [subCnt]; omega) hle
            hk).bind fun free' d' hk' => ?_
          exact ih hj' (by omega) (fun hne => absurd rfl hne) hk' free'
    next => exact .stop hk _

theorem copyLoop_first_guarded
    (hcount : count ≤ cnt) (hle : blk + count ≤ dest.blBlocks) (hk : Keeps dest.blRoot d)
    (free : Nat) : GuardedCopy Ps P src dest.blRoot
      (copyLoop child scan (radixOf h) (skipOf (h + 1)) (skipOf h + 1) turns 1 blk count
        { dest with blFree := free }) d := by
  have hloop := copyLoop_guarded (j := 0) (n := turns) hPs hchild (Nat.zero_le _) (by decide)
    (fun _ => ⟨by omega, hle⟩) hk free
  rwa [Nat.zero_mul] at hloop

end Loop

variable (hw : Walled dest) (hP : ∀ a, Entry dest.height 0 dest.blBlocks a → P a)

include hw hP

theorem Walled.copyFree (hk : Keeps dest.blRoot d) (n : Nat) (hlt : blkno < dest.blBlocks)
    (hle : blkno + count ≤ dest.blBlocks) : GuardedCopy Ps P src dest.blRoot
      (Access.blistFree k { dest with blFree := n } blkno count).inr d := by
  have hfree := (hw.keeps hk n).blistFree (k := k) hP hlt hle
  exact Prog.runs_inr.mpr (hfree.mono fun _ d' hk' => ⟨d', rfl, hk.trans hk'⟩)

theorem Walled.copyBits {v : BitVec 64} (hle : blk + count ≤ dest.blBlocks)
    (hn : bmapRadix < n + i) (hi : i ≤ bmapRadix) (hk : Keeps dest.blRoot d) (free : Nat) :
    GuardedCopy Ps P src dest.blRoot
      (Access.copyBits k v blk count n i { dest with blFree := free }) d := by
  induction n generalizing i d free with
  | zero => omega
  | succ n ih =>
    rw [Access.copyBits]
    split
    next hin =>
      split
      next =>
        refine (hw.copyFree hP hk free (by omega) (by omega)).bind fun free' d' hk' => ?_
        exact ih (by omega) (by omega) hk' free'
      next => exact ih (by omega) (by omega) hk free
    next => exact .stop hk _

theorem Walled.blstCopy (hlevels : h ≤ levels) (hf : Fenced src h scan cnt)
    (hPs : ∀ a, Entry h scan cnt a → Ps a) (hcnt : cnt ≤ radixOf h) (hpos : 0 < count)
    (hcount : count ≤ cnt) (hle : blk + count ≤ dest.blBlocks) (hk : Keeps dest.blRoot d)
    (free : Nat) : GuardedCopy Ps P src dest.blRoot
      (Access.blstCopy k levels scan blk (radixOf h) (skipOf h) { dest with blFree := free } count)
      d := by
  induction h generalizing levels scan blk cnt count d free with
  | zero =>
    rw [Access.blstCopy.eq_def]
    dsimp only
    rw [if_pos (radixOf_eq_bmapRadix.mpr rfl)]
    refine .get (hPs _ (.head _ _ _)) ?_
    split
    next => exact hw.copyFree hP hk free (by omega) hle
    next =>
      split
      next => exact hw.copyBits hP hle (by decide) (Nat.zero_le _) hk free
      next => exact .stop hk _
  | succ h ih =>
    obtain ⟨levels, rfl⟩ := exists_level hlevels
    rw [Access.blstCopy, if_neg (radixOf_eq_bmapRadix.not.mpr (succ_ne_zero h))]
    refine .get (hPs _ (.head _ _ _)) ?_
    dsimp only
    split
    next => exact .stop hk _
    next =>
      split
      next =>
        refine hw.copyFree hP hk free (by omega) ?_
        split <;> omega
      next =>
        rw [radixOf_succ_div, skipOf_succ_div, Nat.add_sub_cancel]
        refine copyLoop_first_guarded hPs (fun j blk c d free hj hlt hpos hc hle hk => ?_) hcount
          hle hk free
        exact ih (le_of_succ_le_succ hlevels) ((hf.2 j hj).1 hlt)
          (fun a ha => hPs a (.sub hj hlt ha)) subCnt_le hpos hc hle hk free

end Copy

theorem blistCreate_walled {turns blocks : Nat} (hpos : 0 < blocks)
    (hblocks : blocks ≤ blistMaxblks) (hloop : createLoop blocks turns bmapRadix 0 ≠ none)
    (mem : BlMem) : ∃ h, (blistCreate turns blocks).Runs (Entry h 0 blocks)
      (fun bl mem' => Walled (bl mem') ∧ (bl mem').height = h ∧ (bl mem').blBlocks = blocks)
      mem := by
  obtain ⟨r, hcreate⟩ := ne_none_iff_exists'.mp hloop
  have hspec := createLoop_spec (n := turns) (i := 0) (Nat.zero_le _) hblocks
  rw [show createLoop blocks turns (radixOf 0) (skipOf 0) = some r from hcreate] at hspec
  obtain ⟨h, hh, rfl, hle⟩ := hspec
  have hlevels : h ≤ (radixOf h).log2 := by
    rw [log2_radixOf]
    omega
  refine ⟨h, ?_⟩
  rw [blistCreate, if_neg (Nat.ne_of_gt hpos),
    show createLoop blocks turns bmapRadix 0 = some (radixOf h, skipOf h) from hcreate]
  refine Prog.runs_bind.mpr ((blstRadixInit_size hlevels hpos).mono ?_)
  rintro memindex _ ⟨rfl, -, hreach⟩
  refine Prog.runs_bind.mpr ((blstRadixInit_fences hlevels hpos fun a ha => ha).mono ?_)
  rintro _ mem' ⟨-, hfenced⟩
  have hheight : ∀ bl : Blist, bl.blRadix = radixOf h → bl.height = h := fun bl hr => height_mk hr
  refine ⟨⟨?_, ?_, ?_, hpos, ?_, ?_, ?_⟩, hheight _ rfl, rfl⟩
  all_goals rw [hheight _ rfl]
  · exact hh
  · exact hle
  · exact hfenced
  · exact fun a ha => lt_one_add_iff.mpr (Nat.zero_add memindex ▸ hreach 0 a ha)

inductive Reach (k : Counter) : Blist → Prop
  | create {turns blocks : Nat} {memory mem : BlMem} {bl : BlMem → Blist} : 0 < blocks →
    blocks ≤ blistMaxblks → (blistCreate turns blocks).run memory = some (some (bl, mem)) →
    Reach k (bl mem)
  | alloc {bl : Blist} {count free : Nat} {r : Option Nat} {mem : BlMem} : Reach k bl →
    0 < count → count ≤ terminator →
    (blistAlloc k bl count).run bl.blRoot = some (some ((r, free), mem)) →
    Reach k { bl with blRoot := mem, blFree := free }
  | free {bl : Blist} {blkno count free : Nat} {mem : BlMem} : Reach k bl →
    blkno < bl.blBlocks → blkno + count ≤ bl.blBlocks →
    (blistFree k bl blkno count).run bl.blRoot = some (some (free, mem)) →
    Reach k { bl with blRoot := mem, blFree := free }
  | fill {bl : Blist} {blkno count filled free : Nat} {mem : BlMem} : Reach k bl →
    blkno < bl.blBlocks → blkno + count ≤ bl.blBlocks →
    (blistFill k bl blkno count).run bl.blRoot = some (some ((filled, free), mem)) →
    Reach k { bl with blRoot := mem, blFree := free }
  | gapfind {bl : Blist} {gap : Nat × Nat} {mem : BlMem} : Reach k bl →
    (blistGapfind bl).run bl.blRoot = some (some (gap, mem)) → Reach k { bl with blRoot := mem }
  | copy {bl dest : Blist} {count free : Nat} {both : Nat ⊕ Nat → BlMeta} : Reach k bl →
    Reach k dest → 0 < count → count ≤ bl.blBlocks → count ≤ dest.blBlocks →
    (blstCopy k bl.levels 0 0 bl.blRadix bl.blSkip dest count).run
      (Sum.elim bl.blRoot dest.blRoot) = some (some (free, both)) →
    Reach k { dest with blRoot := both ∘ Sum.inr, blFree := free }

theorem Walled.copy {bl dest : Blist} (hbl : Walled bl) (hdest : Walled dest) (hpos : 0 < count)
    (hsrc : count ≤ bl.blBlocks) (hle : count ≤ dest.blBlocks) :
    GuardedCopy (Inside bl) (Inside dest) bl.blRoot dest.blRoot
      (Access.blstCopy k bl.levels 0 0 bl.blRadix bl.blSkip dest count) dest.blRoot := by
  rw [hbl.radix, hbl.skip]
  exact hdest.blstCopy (fun _ ha => hdest.inside ha) hbl.levels hbl.fenced
    (fun _ ha => hbl.inside ha) hbl.blocks hpos hsrc (by omega) (.refl _) dest.blFree

theorem Reach.walled (hr : Reach k bl) : Walled bl := by
  induction hr with
  | @create turns blocks memory mem bl hpos hblocks hrun =>
    have hloop : createLoop blocks turns bmapRadix 0 ≠ none := fun hnone => by
      rw [blistCreate, if_neg (Nat.ne_of_gt hpos), hnone] at hrun
      cases hrun
    obtain ⟨h, hcreate⟩ := blistCreate_walled hpos hblocks hloop memory
    exact (hcreate.result hrun).1
  | alloc _ hpos hmax hrun ih =>
    exact ih.keeps ((ih.blistAlloc (fun _ ha => ha) hpos hmax).result hrun) _
  | free _ hlt hle hrun ih => exact ih.keeps ((ih.blistFree (fun _ ha => ha) hlt hle).result hrun) _
  | fill _ hlt hle hrun ih => exact ih.keeps ((ih.blistFill (fun _ ha => ha) hlt hle).result hrun) _
  | gapfind _ hrun ih => exact ih.keeps ((ih.blistGapfind fun _ ha => ha).result hrun) _
  | copy _ _ hpos hsrc hle hrun ih ih' =>
    obtain ⟨d, rfl, hk⟩ := (ih.copy ih' hpos hsrc hle).result hrun
    exact ih'.keeps hk _

structure Bounded (k : Counter) (bl : Blist) : Prop where
  alloc : ∀ count, 0 < count → count ≤ terminator →
    (blistAlloc k bl count).Touches (Inside bl) bl.blRoot
  free : ∀ blkno count, blkno < bl.blBlocks → blkno + count ≤ bl.blBlocks →
    (blistFree k bl blkno count).Touches (Inside bl) bl.blRoot
  fill : ∀ blkno count, blkno < bl.blBlocks → blkno + count ≤ bl.blBlocks →
    (blistFill k bl blkno count).Touches (Inside bl) bl.blRoot
  gapfind : (blistGapfind bl).Touches (Inside bl) bl.blRoot
  copy : ∀ dest, Reach k dest → ∀ count, 0 < count → count ≤ bl.blBlocks → count ≤ dest.blBlocks →
    (blstCopy k bl.levels 0 0 bl.blRadix bl.blSkip dest count).Touches
      (Sum.elim (Inside bl) (Inside dest)) (Sum.elim bl.blRoot dest.blRoot)

theorem Reach.bounded (hr : Reach k bl) : Bounded k bl where
  alloc _ hpos hmax := (hr.walled.blistAlloc (fun _ ha => hr.walled.inside ha) hpos hmax).touches
  free _ _ hlt hle := (hr.walled.blistFree (fun _ ha => hr.walled.inside ha) hlt hle).touches
  fill _ _ hlt hle := (hr.walled.blistFill (fun _ ha => hr.walled.inside ha) hlt hle).touches
  gapfind := (hr.walled.blistGapfind fun _ ha => hr.walled.inside ha).touches
  copy _ hd _ hpos hsrc hle := (hr.walled.copy hd.walled hpos hsrc hle).touches

theorem blistCreate_touches {turns blocks : Nat} (hturns : 12 ≤ turns) (hpos : 0 < blocks)
    (hblocks : blocks ≤ blistMaxblks) (memory : BlMem) :
    ∃ bl mem, (blistCreate turns blocks).run memory = some (some (bl, mem)) ∧
      (bl mem).blBlocks = blocks ∧ (blistCreate turns blocks).Touches (Inside (bl mem)) memory := by
  obtain ⟨r, hcreate, -⟩ :=
    (createLoop_spec (n := turns) (i := 0) (Nat.zero_le _) hblocks).result (by omega)
  have hloop : createLoop blocks turns bmapRadix 0 ≠ none :=
    ne_none_iff_exists'.mpr ⟨r, hcreate⟩
  obtain ⟨h, hruns⟩ := blistCreate_walled hpos hblocks hloop memory
  obtain ⟨r, hrun⟩ := ne_none_iff_exists'.mp hruns.run_ne_none
  -- it comes to an end, and not with a panic
  obtain ⟨bl', hbl, -⟩ := (blistCreate_ok turns memory hpos hblocks).result (by omega)
  have hgives := gives_blistCreate hpos hblocks r hrun
  rw [hbl] at hgives
  obtain ⟨⟨bl, mem⟩, rfl, -⟩ := map_eq_some_iff.mp hgives
  obtain ⟨hw, hheight, hcount⟩ := hruns.result hrun
  refine ⟨bl, mem, hrun, hcount, hruns.touches.within fun a ha => hw.inside ?_⟩
  rw [hheight, hcount]
  exact ha

/-- The array is large enough for every call, and no call looks behind a terminator. -/
theorem blRoot_bounds (k : Counter) :
    (∀ turns blocks memory, 12 ≤ turns → 0 < blocks → blocks ≤ blistMaxblks →
      ∃ bl mem, (blistCreate turns blocks).run memory = some (some (bl, mem)) ∧
        (bl mem).blBlocks = blocks ∧ (blistCreate turns blocks).Touches (Inside (bl mem)) memory) ∧
    ∀ bl, Reach k bl → Bounded k bl :=
  ⟨fun _ _ memory hturns hpos hblocks => blistCreate_touches hturns hpos hblocks memory,
    fun _ hr => hr.bounded⟩

/-- A `blist_t` of 2500 blocks, in the arithmetic of the source. -/
theorem blRoot_bounds_created : ∃ bl, Reach .word bl ∧ bl.blBlocks = 2500 ∧ Bounded .word bl := by
  obtain ⟨bl, mem, hrun, hblocks, -⟩ :=
    (blRoot_bounds .word).1 12 2500 zeroed (by decide) (by decide) (by decide)
  have hr : Reach .word (bl mem) := .create (by decide) (by decide) hrun
  exact ⟨bl mem, hr, hblocks, (blRoot_bounds .word).2 _ hr⟩

end Mbsd.Kern.SubrBlist.Access
