import Mbsd.Kern.SubrBlist.Leaf
import Mbsd.Kern.SubrBlist.Sublevel

/-! A range of allocated blocks is freed. -/

namespace Mbsd.Kern.SubrBlist

open Lib.CountIn Lib.Yields Nat BlMem

variable {r a b sum : Nat}

def nodeFree (levels : Nat) (mem : BlMem) (h scan freeBlk count blk : Nat) : Option BlMem :=
  if h = 0 then blstLeafFree mem scan freeBlk count
  else blstMetaFree levels mem scan freeBlk count (radixOf h) (skipOf h) blk

theorem nodeFree_sub (levels : Nat) (mem : BlMem) (h scan freeBlk count blk : Nat) :
    (if skipOf h + 1 = 1 then blstLeafFree mem scan freeBlk count
      else blstMetaFree levels mem scan freeBlk count (radixOf h) (skipOf h + 1 - 1) blk) =
    nodeFree levels mem h scan freeBlk count blk := by
  cases h with
  | zero => rfl
  | succ h => rw [if_neg nextSkip_succ, nodeFree, if_neg (succ_ne_zero h), Nat.add_sub_cancel]

variable {mem memk : BlMem} {h levels scan cnt base lo count j p v : Nat} {f : Nat → Bool}

/-- The state of the loop in `blst_meta_free` when the part of the range before `p` is free. -/
structure Freeing (mem memk : BlMem) (h scan cnt lo p avail : Nat) (f : Nat → Bool) : Prop where
  level : Level mem memk h scan cnt fun x => f x || inRange lo (p - lo) x
  avail : (memk scan).bmuAvail = avail
  hint : ∀ n, LeafRun (fun x => f x || inRange lo (p - lo) x) cnt n → n ≤ (memk scan).bmBighint

theorem Freeing.next {mem' : BlMem} {avail : Nat} (hs : Shape mem (h + 1) scan cnt)
    (hF : Freeing mem memk h scan cnt lo p avail f) (hj : j < metaRadix)
    (hpiece : Piece h cnt lo count j p v)
    (hb : Becomes memk mem' h (sub scan h j) (subCnt h cnt j) fun x =>
      isFree memk h (sub scan h j) x || inRange (p - j * radixOf h) v x) :
    Freeing mem (if (mem' scan).bmBighint < (mem' (sub scan h j)).bmBighint then
      mem'.set scan { mem' scan with bmBighint := (mem' (sub scan h j)).bmBighint } else mem')
      h scan cnt lo (p + v) avail f := by
  obtain ⟨hlo, -, hjp, hv, hcnt, -⟩ := hpiece
  have hnew : Becomes memk mem' h (sub scan h j) (subCnt h cnt j) fun x =>
      f (j * radixOf h + x) || inRange lo (p + v - lo) (j * radixOf h + x) :=
    hb.congr fun x hx => by
      rw [hF.level.free j hj x hx, ← inRange_sub hjp, Bool.or_assoc, inRange_extend hlo]
  have hlevel : Level mem mem' h scan cnt fun x => f x || inRange lo (p + v - lo) x :=
    hF.level.change hj hnew fun x _ hx => by rw [inRange_succ hlo hjp hv hx]
  have hhead : mem' scan = memk scan := hb.apart.head
  -- a leaf with free blocks is under this node, or was there before
  have hrow : ∀ n, LeafRun (fun x => f x || inRange lo (p + v - lo) x) cnt n →
      n ≤ (mem' scan).bmBighint ∨ n ≤ (mem' (sub scan h j)).bmBighint := by
    intro n hrun
    rcases Nat.eq_zero_or_pos n with rfl | hn
    · exact .inl (Nat.zero_le _)
    · obtain ⟨i, hi, hicnt, hsub⟩ := hrun.sub hs.cnt_le hn
      by_cases hij : i = j
      · subst hij
        exact .inr (hnew.good.hint n (hsub.congr fun x hx hx' => (hnew.free x hx).trans hx'))
      · refine .inl (hhead ▸ hF.hint n (LeafRun.lift (hsub.congr fun x hx hx' => ?_) hn))
        rwa [inRange_succ hlo hjp hv (by rwa [mul_add_div_radixOf (lt_of_lt_subCnt hx).2])] at hx'
  have hheadNe : (mem' scan).bmBighint ≠ terminator := (hlevel.terms scan).not.mpr hs.bighint_ne
  split
  next hlt =>
    refine ⟨hlevel.setHead hheadNe ?_, ?_, fun n hrun => ?_⟩
    · exact (hlevel.terms _).not.mpr (hs.sub hj hcnt).bighint_ne
    · rw [set_self]
      exact hhead ▸ hF.avail
    · rw [set_self]
      have hle := hrow n hrun
      dsimp only
      omega
  next hge =>
    refine ⟨hlevel, hhead ▸ hF.avail, fun n hrun => ?_⟩
    have hle := hrow n hrun
    omega

def freeHead (mem : BlMem) (scan count radix skip nextSkip : Nat) : BlMem :=
  if (mem scan).bmuAvail = 0 then
    let mem := mem.set scan { mem scan with bmuAvail := count, bmBighint := count }
    if count ≠ radix then initAllocated mem scan skip nextSkip else mem
  else mem.set scan { mem scan with bmuAvail := (mem scan).bmuAvail + count }

theorem freeHead_spec (lo : Nat) (hs : Shape mem (h + 1) scan cnt) (hg : Good mem (h + 1) scan cnt)
    (hmax : count < terminator) (hle : (mem scan).bmuAvail + count ≤ radixOf (h + 1)) :
    let mem₁ := freeHead mem scan count (radixOf (h + 1)) (skipOf (h + 1)) (skipOf h + 1)
    Apart mem mem₁ scan (h + 1) ∧ Terms mem mem₁ ∧
      (mem₁ scan).bmuAvail = (mem scan).bmuAvail + count ∧
      ((mem scan).bmuAvail + count ≠ radixOf (h + 1) →
        Freeing mem mem₁ h scan cnt lo lo ((mem scan).bmuAvail + count)
          (isFree mem (h + 1) scan)) := by
  have hempty : ∀ x, (isFree mem (h + 1) scan x || inRange lo (lo - lo) x) =
      isFree mem (h + 1) scan x := fun x => by
    rw [inRange_eq_false.mpr (by omega), Bool.or_false]
  have hbase : ∀ n, LeafRun (fun x => isFree mem (h + 1) scan x || inRange lo (lo - lo) x) cnt n →
      n ≤ (mem scan).bmBighint :=
    fun n hrun => hg.hint n (hrun.congr fun x _ hx => by rwa [hempty] at hx)
  dsimp only
  rw [freeHead]
  split
  next hzero =>
    have hset : Terms mem (mem.set scan
        { mem scan with bmuAvail := count, bmBighint := count }) :=
      .set hs.bighint_ne (Nat.ne_of_lt hmax)
    have hnone : ∀ x, isFree mem (h + 1) scan x = false := fun x => by
      rw [isFree, if_pos hzero]
    split
    next hne =>
      obtain ⟨hlevel, hhead⟩ := initAllocated_level (hs.congr hset)
      rw [hhead, set_self, hzero, Nat.zero_add]
      refine ⟨(Apart.set _ _ _ _).trans hlevel.apart, hset.trans hlevel.terms, rfl, fun _ =>
        ⟨⟨(Apart.set _ _ _ _).trans hlevel.apart, hset.trans hlevel.terms, hlevel.good,
          fun j hj x hx => ?_⟩, by rw [hhead, set_self], fun n hrun => ?_⟩⟩
      · rw [hempty, hnone]
        exact hlevel.free j hj x hx
      · rw [not_leafRun_false hrun fun x _ => (hempty x).trans (hnone x)]
        exact Nat.zero_le _
    next heq =>
      dsimp only
      rw [set_self, hzero, Nat.zero_add]
      exact ⟨.set _ _ _ _, hset, rfl, fun hne => absurd (Decidable.not_not.mp heq) hne⟩
  next hzero =>
    have hset : Terms mem (mem.set scan
        { mem scan with bmuAvail := (mem scan).bmuAvail + count }) :=
      .set hs.bighint_ne hs.bighint_ne
    rw [set_self]
    refine ⟨.set _ _ _ _, hset, rfl, fun hne => ⟨?_, by rw [set_self], fun n hrun => ?_⟩⟩
    · have hpos : (mem scan).bmuAvail ≠ radixOf (h + 1) := by omega
      refine Level.congr ((Level.opened hzero hpos hg).setHead hs.bighint_ne ?_)
        fun x _ => (hempty x).symm
      exact hs.bighint_ne
    · rw [set_self]
      exact hbase n hrun

theorem nodeFree_becomes (hlevels : h ≤ levels) (hbase : bmapRadix ∣ base)
    (hs : Shape mem h scan cnt) (hg : Good mem h scan cnt) (hmax : cnt < terminator)
    (hcount : 0 < count) (hle : lo + count ≤ cnt)
    (hfree : ∀ x, lo ≤ x → x < lo + count → isFree mem h scan x = false) :
    ∃ mem', nodeFree levels mem h scan (base + lo) count base = some mem' ∧
      Becomes mem mem' h scan cnt fun x => isFree mem h scan x || inRange lo count x := by
  induction h generalizing levels mem scan cnt base lo count with
  | zero => exact blstLeafFree_becomes hs hg hbase hcount hle hfree
  | succ h ih =>
    obtain ⟨levels, rfl⟩ := exists_level hlevels
    have hcount' : countIn (fun x => isFree mem (h + 1) scan x || inRange lo count x) 0 cnt =
        (mem scan).bmuAvail + count := by
      rw [hg.1]
      exact countIn_insert hle hfree fun x _ => rfl
    have hfits : (mem scan).bmuAvail + count ≤ radixOf (h + 1) := by
      have hall := countIn_le (fun x => isFree mem (h + 1) scan x || inRange lo count x) 0 cnt
      have hcnt := hs.cnt_le
      omega
    obtain ⟨hapart, hterms, havail, hopen⟩ :=
      freeHead_spec lo hs hg (by omega : count < terminator) hfits
    rw [nodeFree, if_neg (succ_ne_zero h), blstMetaFree, skipOf_succ_div, radixOf_succ_div]
    dsimp only
    rw [← freeHead]
    generalize freeHead mem scan count (radixOf (h + 1)) (skipOf (h + 1)) (skipOf h + 1) = mem₁
      at hapart hterms havail hopen ⊢
    rw [havail]
    by_cases hfull : (mem scan).bmuAvail + count = radixOf (h + 1)
    · -- all of it is free now
      rw [if_pos hfull]
      have hcnt : cnt = radixOf (h + 1) := by
        have hall := countIn_le (fun x => isFree mem (h + 1) scan x || inRange lo count x) 0 cnt
        have hcnt := hs.cnt_le
        omega
      refine ⟨_, rfl, Becomes.allFree (hapart.trans (.set _ _ _ _))
        (hterms.trans (.set ((hterms scan).not.mpr hs.bighint_ne) (radixOf_ne_terminator _))) hcnt
        (fun x hx => ?_) ?_ ?_⟩
      · exact all_of_countIn (hcount'.trans (hfull.trans hcnt.symm)) x (Nat.zero_le _) (by omega)
      · rw [set_self]
        exact hfull
      · rw [set_self]
    · rw [if_neg hfull, if_neg (by omega : ¬(mem scan).bmuAvail + count > radixOf (h + 1))]
      refine Yields.result (Yields.map (rangeLoop_rule (I := fun p memk _ => Freeing mem memk h
        scan cnt lo p ((mem scan).bmuAvail + count) (isFree mem (h + 1) scan)) hcount
        ?_ (Nat.le_trans hle hs.cnt_le) (hopen hfull)) fun r hF => ?_) not_false
      · intro j p v memk sum hj hp hv hend hF
        have hpiece := Piece.of_step hle hp hv hend
        have hsk := hs.congr hF.level.terms
        obtain ⟨mem', hfreed, hb⟩ := ih (le_of_succ_le_succ hlevels)
          ((Nat.dvd_add_right hbase).mpr (Nat.dvd_mul_left_of_dvd (bmapRadix_dvd_radixOf h) j))
          (hsk.sub hj hpiece.base_lt) (hF.level.good j hj hpiece.base_lt)
          (Nat.lt_of_le_of_lt subCnt_le_cnt hmax) hv hpiece.le_subCnt fun x hxlo hxhi => by
            have hin := hpiece.le_subCnt
            rw [hF.level.free j hj x (by omega), hfree _ (by omega) (by omega), Bool.false_or]
            exact inRange_eq_false.mpr (by omega)
        rw [Nat.add_assoc base, Nat.add_sub_cancel' hpiece.base_le] at hfreed
        rw [if_neg hsk.bighint_ne, nodeFree_sub, ← sub, hfreed]
        have hnext := hF.next hs hj hpiece hb
        rw [Option.map_some]
        split
        next hlt => rwa [if_pos hlt] at hnext
        next hge => rwa [if_neg hge] at hnext
      · have hend := hF.hint
        have hlevel := hF.level
        rw [Nat.add_sub_cancel_left] at hend hlevel
        exact hlevel.closed hs.cnt_le (hF.avail.trans hcount'.symm) hend

/-! A range of blocks is taken, whatever is free in it: when `blst_meta_fill` gets through, and what
is free afterwards. -/

def nodeFill (levels : Nat) (mem : BlMem) (h scan fillBlk count blk : Nat) :
    Option (BlMem × Nat) :=
  if h = 0 then some (blstLeafFill mem scan fillBlk count)
  else blstMetaFill levels mem scan fillBlk count (radixOf h) (skipOf h) blk

theorem nodeFill_sub (levels : Nat) (mem : BlMem) (h scan fillBlk count blk : Nat) :
    (if skipOf h + 1 = 1 then some (blstLeafFill mem scan fillBlk count)
      else blstMetaFill levels mem scan fillBlk count (radixOf h) (skipOf h + 1 - 1) blk) =
    nodeFill levels mem h scan fillBlk count blk := by
  cases h with
  | zero => rfl
  | succ h => rw [if_neg nextSkip_succ, nodeFill, if_neg (succ_ne_zero h), Nat.add_sub_cancel]

def part (lo count a n : Nat) : Nat := min (lo + count) (a + n) - max lo a

/-- Of a node that has free blocks, the range covers all or at most what one node of its sublevel
could hold. -/
def FillFits (free : Nat → Bool) (cnt h lo count : Nat) : Prop :=
  ∀ k < h, ∀ a, radixOf (k + 1) ∣ a →
    part lo count a (radixOf (k + 1)) = radixOf (k + 1) ∨
    part lo count a (radixOf (k + 1)) ≤ radixOf k ∨
    ∀ x, a ≤ x → x < a + radixOf (k + 1) → x < cnt → free x = false

variable {mem memk : BlMem} {h k levels scan cnt base lo count j p v : Nat} {f g : Nat → Bool}

theorem radixOf_dvd (hk : k ≤ h) : radixOf k ∣ radixOf h := by
  induction hk with
  | refl => exact Nat.dvd_refl _
  | step _ ih => exact Nat.dvd_mul_right_of_dvd ih _

theorem add_le_of_dvd (ha : r ∣ a) (hb : r ∣ b) (hlt : a < b) : a + r ≤ b := by
  obtain ⟨c, rfl⟩ := ha
  obtain ⟨d, rfl⟩ := hb
  have hcd : c + 1 ≤ d := Nat.lt_of_mul_lt_mul_left hlt
  have hmul := Nat.mul_le_mul_left r hcd
  rwa [mul_succ] at hmul

theorem FillFits.congr (hfits : FillFits f cnt h lo count) (hfg : ∀ x < cnt, f x = g x) :
    FillFits g cnt h lo count := fun k hk a ha =>
  (hfits k hk a ha).imp_right (Or.imp_right fun hnone x hlo hhi hx =>
    hfg x hx ▸ hnone x hlo hhi hx)

theorem FillFits.empty : FillFits f cnt h lo 0 := fun k _ a _ => by
  refine .inr (.inl ?_)
  rw [part]
  omega

theorem FillFits.none (hf : ∀ x < cnt, f x = false) : FillFits f cnt h lo count :=
  fun _ _ _ _ => .inr (.inr fun x _ _ hx => hf x hx)

theorem FillFits.whole : FillFits f cnt h 0 (radixOf h) := by
  intro k hk a ha
  have hdvd : radixOf (k + 1) ∣ radixOf h := radixOf_dvd hk
  rw [part]
  rcases Nat.lt_or_ge a (radixOf h) with hlt | hge
  · have hle := add_le_of_dvd ha hdvd hlt
    omega
  · omega

theorem FillFits.succ (hfits : FillFits f cnt h lo count) (hcount : count ≤ radixOf h) :
    FillFits f cnt (h + 1) lo count := by
  intro k hk a ha
  rcases Nat.lt_succ_iff_lt_or_eq.mp hk with hlt | rfl
  · exact hfits k hlt a ha
  · refine .inr (.inl ?_)
    rw [part]
    omega

theorem part_shift (hb : b ≤ p) : part (p - b) v a r = part p v (b + a) r := by
  have hmin : min (p + v) (b + a + r) = b + min (p - b + v) (a + r) := by omega
  have hmax : max p (b + a) = b + max (p - b) a := by omega
  rw [part, part, hmin, hmax, Nat.add_sub_add_left]

theorem part_clip {m : Nat} (hp : p = max lo b) (hend : p + v = min (lo + count) (b + m))
    (hle : a + r ≤ m) : part p v (b + a) r = part lo count (b + a) r := by
  have hmin : min (p + v) (b + a + r) = min (lo + count) (b + a + r) := by
    rw [hend, Nat.min_assoc, Nat.min_eq_right (by omega : b + a + r ≤ b + m)]
  have hmax : max p (b + a) = max lo (b + a) := by
    rw [hp, Nat.max_assoc, Nat.max_eq_right (Nat.le_add_right b a)]
  rw [part, part, hmin, hmax]

theorem part_initial {q q' : Nat} (hlo : lo ≤ q) (hq : q ≤ q') (hle : a + r ≤ q) :
    part lo (q' - lo) a r = part lo (q - lo) a r := by
  rw [part, part, Nat.add_sub_cancel' hlo, Nat.add_sub_cancel' (Nat.le_trans hlo hq),
    Nat.min_eq_right hle, Nat.min_eq_right (Nat.le_trans hle hq)]

theorem part_suffix (hp : p = max lo b) (hb : b ≤ a) : part lo (p + v - lo) a r = part p v a r := by
  have hlo : lo ≤ p + v := Nat.le_trans (hp ▸ Nat.le_max_left lo b) (Nat.le_add_right p v)
  rw [part, part, Nat.add_sub_cancel' hlo, hp, Nat.max_assoc, Nat.max_eq_right hb]

theorem FillFits.sub (hp : p = max lo (j * radixOf h))
    (hend : p + v = min (lo + count) ((j + 1) * radixOf h))
    (hfits : FillFits f cnt (h + 1) lo count) :
    FillFits (fun x => f (j * radixOf h + x)) (subCnt h cnt j) h (p - j * radixOf h) v := by
  intro k hk a ha
  rw [succ_mul] at hend
  rcases Nat.lt_or_ge a (radixOf h) with hlt | hge
  · have hdvd : radixOf (k + 1) ∣ radixOf h := radixOf_dvd hk
    have hle := add_le_of_dvd ha hdvd hlt
    rw [part_shift (hp ▸ Nat.le_max_right lo _), part_clip hp hend hle]
    refine (hfits k (lt_succ_of_lt hk) _
      (Nat.dvd_add (Nat.dvd_mul_left_of_dvd hdvd j) ha)).imp_right (Or.imp_right
        fun hnone x hlo hhi hx => hnone _ (by omega) (by omega) (lt_of_lt_subCnt hx).1)
  · refine .inr (.inl ?_)
    rw [part]
    omega

theorem FillFits.add (hp : p = max lo (j * radixOf h)) (hend : p + v ≤ (j + 1) * radixOf h)
    (hfits : FillFits f cnt h lo (p - lo))
    (hsub : FillFits (fun x => f (j * radixOf h + x)) (subCnt h cnt j) h (p - j * radixOf h) v) :
    FillFits f cnt h lo (p + v - lo) := by
  intro k hk a ha
  have hdvd : radixOf (k + 1) ∣ radixOf h := radixOf_dvd hk
  have hstart : radixOf (k + 1) ∣ j * radixOf h := Nat.dvd_mul_left_of_dvd hdvd j
  have hstop : radixOf (k + 1) ∣ (j + 1) * radixOf h := Nat.dvd_mul_left_of_dvd hdvd (j + 1)
  rcases Nat.lt_or_ge a (j * radixOf h) with hbefore | hge
  · -- before the node
    have hle := add_le_of_dvd ha hstart hbefore
    rw [part_initial (hp ▸ Nat.le_max_left lo _) (Nat.le_add_right p v)
      (Nat.le_trans hle (hp ▸ Nat.le_max_right lo _))]
    exact hfits k hk a ha
  rcases Nat.lt_or_ge a ((j + 1) * radixOf h) with hlt | hafter
  · -- in the node
    have hle := add_le_of_dvd ha hstop hlt
    have hpart : part lo (p + v - lo) a (radixOf (k + 1)) =
        part (p - j * radixOf h) v (a - j * radixOf h) (radixOf (k + 1)) := by
      rw [part_suffix hp hge, part_shift (hp ▸ Nat.le_max_right lo _), Nat.add_sub_cancel' hge]
    rw [hpart]
    refine (hsub k hk (a - j * radixOf h) (Nat.dvd_sub ha hstart)).imp_right (Or.imp_right
      fun hnone x hlo hhi hx => ?_)
    rw [succ_mul] at hle
    have hfree := hnone (x - j * radixOf h) (by omega) (by omega) (by rw [subCnt]; omega)
    dsimp only at hfree
    rwa [Nat.add_sub_cancel' (by omega)] at hfree
  · refine .inr (.inl ?_)
    rw [part]
    omega

/-- The state of the loop in `blst_meta_fill` when the part of the range before `p` is taken. -/
structure Filling (mem memk : BlMem) (h scan cnt lo p sum : Nat) (f : Nat → Bool) : Prop where
  level : Level mem memk h scan cnt fun x => f x && !inRange lo (p - lo) x
  head : memk scan = mem scan
  counted : sum = countIn f lo (p - lo)
  fits : FillFits f cnt h lo (p - lo)

structure Fills (mem : BlMem) (h scan cnt lo count : Nat) (r : BlMem × Nat) : Prop where
  becomes : Becomes mem r.1 h scan cnt fun x => isFree mem h scan x && !inRange lo count x
  nblks : r.2 = countIn (isFree mem h scan) lo count
  fits : FillFits (isFree mem h scan) cnt h lo count

section

variable (hF : Filling mem memk h scan cnt lo p sum f) (hj : j < metaRadix)
  (hp : p = max lo (j * radixOf h))

include hF hj hp

theorem Filling.sub_free {x : Nat} (hx : x < subCnt h cnt j) :
    isFree memk h (sub scan h j) x = f (j * radixOf h + x) := by
  rw [hF.level.free j hj x hx, inRange_eq_false.mpr (by omega), Bool.not_false, Bool.and_true]

theorem Filling.next {r : BlMem × Nat} (hpiece : Piece h cnt lo count j p v)
    (hr : Fills memk h (sub scan h j) (subCnt h cnt j) (p - j * radixOf h) v r) :
    Filling mem r.1 h scan cnt lo (p + v) (sum + r.2) f := by
  obtain ⟨hlo, -, hjp, hend, -, hin⟩ := hpiece
  have hsame : ∀ x < subCnt h cnt j, isFree memk h (sub scan h j) x = f (j * radixOf h + x) :=
    fun x hx => hF.sub_free hj hp hx
  refine ⟨hF.level.change hj (hr.becomes.congr fun x hx => ?_) fun x _ hx => ?_,
    hr.becomes.apart.head.trans hF.head, ?_, hF.fits.add hp hend (hr.fits.congr hsame)⟩
  · rw [← inRange_extend hlo, ← inRange_sub hjp, Bool.not_or, ← Bool.and_assoc,
      hF.level.free j hj x hx]
  · rw [inRange_succ hlo hjp hend hx]
  · rw [hr.nblks, hF.counted, countIn_congr fun x _ hx => hsame x (by omega),
      countIn_shift f (j * radixOf h), Nat.add_sub_cancel' hjp,
      show p + v - lo = p - lo + v by omega, countIn_add, Nat.add_sub_cancel' hlo]

end

theorem fillHead_level (hs : Shape mem (h + 1) scan cnt) (hg : Good mem (h + 1) scan cnt)
    (hzero : (mem scan).bmuAvail ≠ 0) : Filling mem (if (mem scan).bmuAvail = radixOf (h + 1) then
      initFree mem scan (radixOf h) (skipOf (h + 1)) (skipOf h + 1) else mem)
      h scan cnt lo lo 0 (isFree mem (h + 1) scan) := by
  have hempty : ∀ x, isFree mem (h + 1) scan x =
      (isFree mem (h + 1) scan x && !inRange lo (lo - lo) x) := fun x => by
    rw [inRange_eq_false.mpr (by omega), Bool.not_false, Bool.and_true]
  have hsum : 0 = countIn (isFree mem (h + 1) scan) lo (lo - lo) := by
    rw [Nat.sub_self, countIn_zero]
  have hfits : FillFits (isFree mem (h + 1) scan) cnt h lo (lo - lo) :=
    Nat.sub_self lo ▸ FillFits.empty
  split
  next hfull =>
    have hcnt : cnt = radixOf (h + 1) := by
      have hle := countIn_le (isFree mem (h + 1) scan) 0 cnt
      have havail := hg.1
      have hradix := hs.cnt_le
      omega
    obtain ⟨hlevel, hhead⟩ := initFree_level hs hcnt
    refine ⟨hlevel.congr fun x _ => ?_, hhead, hsum, hfits⟩
    rw [← hempty, isFree, if_neg hzero, if_pos hfull]
  next hpart => exact ⟨(Level.opened hzero hpart hg).congr fun x _ => hempty x, rfl, hsum, hfits⟩

theorem nodeFill_fills (hlevels : h ≤ levels) (hbase : bmapRadix ∣ base)
    (hs : Shape mem h scan cnt) (hg : Good mem h scan cnt) (hmax : cnt < terminator)
    (hcount : 0 < count) (hle : lo + count ≤ cnt) :
    Yields (¬FillFits (isFree mem h scan) cnt h lo count) (Fills mem h scan cnt lo count)
      (nodeFill levels mem h scan (base + lo) count base) := by
  induction h generalizing levels mem scan cnt base lo count with
  | zero =>
    obtain ⟨hb, hn⟩ := blstLeafFill_becomes hs hg hbase hcount hle
    exact ⟨hb, hn, fun k hk => absurd hk (Nat.not_lt_zero k)⟩
  | succ h ih =>
    obtain ⟨levels, rfl⟩ := exists_level hlevels
    have hradix := hs.cnt_le
    rw [nodeFill, if_neg (succ_ne_zero h), blstMetaFill, skipOf_succ_div, radixOf_succ_div]
    dsimp only
    have hclear : Terms mem (mem.set scan { mem scan with bmuAvail := 0, bmBighint := count }) := by
      refine .set hs.bighint_ne (Nat.ne_of_lt ?_)
      dsimp only
      omega
    have hclean : (mem.set scan { mem scan with bmuAvail := 0, bmBighint := count } scan).bmuAvail =
        0 := by rw [BlMem.set_self]
    by_cases hwhole : count = radixOf (h + 1)
    · -- the range is all of the node
      have hlo : lo = 0 := by omega
      have hcnt : cnt = count := by omega
      rw [if_pos (.inl hwhole), hlo]
      refine ⟨Becomes.allAllocated (.set _ _ _ _) hclear (fun x hx => ?_) hclean,
        ?_, hwhole ▸ FillFits.whole⟩
      · rw [inRange_iff.mpr (by omega), Bool.not_true, Bool.and_false]
      · rw [hg.1, hcnt]
    by_cases hzero : (mem scan).bmuAvail = 0
    · have hnone : ∀ x, isFree mem (h + 1) scan x = false := fun x => by rw [isFree, if_pos hzero]
      rw [if_pos (.inr hzero)]
      refine ⟨Becomes.allAllocated (.set _ _ _ _) hclear (fun x hx => ?_) hclean,
        ?_, FillFits.none fun x _ => hnone x⟩
      · rw [hnone, Bool.false_and]
      · rw [hzero, countIn_eq_zero_iff.mpr fun x _ _ => hnone x]
    rw [if_neg (not_or.mpr ⟨hwhole, hzero⟩)]
    have hfree : ∃ x < cnt, isFree mem (h + 1) scan x = true := by
      by_contra hnone
      refine hzero (hg.1.trans (countIn_eq_zero_iff.mpr fun x _ hx => ?_))
      rw [← Bool.not_eq_true]
      exact fun hx' => hnone ⟨x, by omega, hx'⟩
    split
    next htoo =>
      -- `allocation too large`
      obtain ⟨x, hx, hxfree⟩ := hfree
      intro hfits
      rcases hfits h (lt_succ_self h) 0 (Nat.dvd_zero _) with hall | hsmall | hnone
      · rw [part] at hall
        omega
      · rw [part] at hsmall
        omega
      · rw [hnone x (Nat.zero_le _) (by omega) hx] at hxfree
        cases hxfree
    next hsmall =>
      refine Yields.map (rangeLoop_rule (I := fun p memk sum => Filling mem memk h scan cnt lo p sum
        (isFree mem (h + 1) scan)) hcount ?_ (Nat.le_trans hle hs.cnt_le)
        (fillHead_level hs hg hzero)) fun r hF => ?_
      · intro j p v memk sum hj hp hv hend hF
        have hpiece := Piece.of_step hle hp hv hend
        have hsk := hs.congr hF.level.terms
        have hchild := ih (le_of_succ_le_succ hlevels)
          ((Nat.dvd_add_right hbase).mpr (Nat.dvd_mul_left_of_dvd (bmapRadix_dvd_radixOf h) j))
          (hsk.sub hj hpiece.base_lt) (hF.level.good j hj hpiece.base_lt)
          (Nat.lt_of_le_of_lt subCnt_le_cnt hmax) hv hpiece.le_subCnt
        rw [Nat.add_assoc base, Nat.add_sub_cancel' hpiece.base_le] at hchild
        rw [if_neg hsk.bighint_ne, nodeFill_sub, ← sub]
        refine ((hchild.mono fun hno hfits => hno ?_).imp fun r hr =>
          hF.next hj hp hpiece hr)
        exact (hfits.sub hp hend).congr fun x hx => (hF.sub_free hj hp hx).symm
      · have hlevel := hF.level
        have hcounted := hF.counted
        have hfits := hF.fits
        rw [Nat.add_sub_cancel_left] at hlevel hcounted hfits
        have herase := countIn_erase (f := isFree mem (h + 1) scan)
          (g := fun x => isFree mem (h + 1) scan x && !inRange lo count x) hle fun x _ => rfl
        have hne : (r.1 scan).bmBighint ≠ terminator := hF.head ▸ hs.bighint_ne
        refine ⟨Level.closed (hlevel.setHead hne ?_) hs.cnt_le ?_ fun n hrun => ?_, hcounted,
          hfits.succ (Nat.le_of_not_gt hsmall)⟩
        · exact hne
        · dsimp only
          rw [BlMem.set_self, hF.head, hg.1]
          dsimp only
          omega
        · dsimp only
          rw [BlMem.set_self, hF.head]
          refine hg.hint n (hrun.congr fun x _ hx => ?_)
          rw [Bool.and_eq_true] at hx
          exact hx.1

end Mbsd.Kern.SubrBlist
