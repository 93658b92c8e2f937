import Mbsd.Kern.SubrBlist.Model
import Mbsd.Lib.CountIn

/-! The tree in the array: its layout, the free blocks it stands for, and its invariant. -/

namespace Mbsd.Kern.SubrBlist

open Lib.CountIn Function Nat BlMem

variable {h a n lo count : Nat} {f g : Nat → Bool}

def radixOf : Nat → Nat
  | 0 => bmapRadix
  | h + 1 => radixOf h * metaRadix

def skipOf : Nat → Nat
  | 0 => 0
  | h + 1 => (skipOf h + 1) * metaRadix

def sub (scan h j : Nat) : Nat := scan + (j * (skipOf h + 1) + 1)

def subCnt (h cnt j : Nat) : Nat := min (radixOf h) (cnt - j * radixOf h)

theorem radixOf_pos (h : Nat) : 0 < radixOf h := by
  induction h with
  | zero => decide
  | succ h ih => exact Nat.mul_pos ih (by decide)

theorem exists_level {levels : Nat} (h' : h + 1 ≤ levels) : ∃ l, levels = l + 1 :=
  exists_eq_succ_of_ne_zero (Nat.ne_zero_of_lt h')

theorem radixOf_succ_div (h : Nat) : radixOf (h + 1) / metaRadix = radixOf h :=
  Nat.mul_div_cancel _ (by decide)

theorem skipOf_succ_div (h : Nat) : skipOf (h + 1) / metaRadix = skipOf h + 1 :=
  Nat.mul_div_cancel _ (by decide)

theorem skipOf_eq_zero : skipOf h = 0 ↔ h = 0 := by
  cases h with
  | zero => exact iff_of_true rfl rfl
  | succ h => exact iff_of_false (Nat.mul_ne_zero (succ_ne_zero _) (by decide)) (by simp)

theorem skipOf_succ_ne_one (h : Nat) : skipOf (h + 1) + 1 ≠ 1 := by
  have := skipOf_eq_zero (h := h + 1)
  omega

theorem mul_add_le_radixOf {j : Nat} (hj : j < metaRadix) :
    j * radixOf h + radixOf h ≤ radixOf (h + 1) := by
  have hmul := Nat.mul_le_mul_left (radixOf h) (succ_le_of_lt hj)
  rwa [mul_succ, Nat.mul_comm (radixOf h) j] at hmul

theorem bmapRadix_dvd_radixOf (h : Nat) : bmapRadix ∣ radixOf h := by
  induction h with
  | zero => exact Nat.dvd_refl _
  | succ h ih => exact Nat.dvd_mul_right_of_dvd ih _

theorem bmapRadix_le_radixOf (h : Nat) : bmapRadix ≤ radixOf h :=
  le_of_dvd (radixOf_pos h) (bmapRadix_dvd_radixOf h)

theorem radixOf_eq_bmapRadix : radixOf h = bmapRadix ↔ h = 0 := by
  cases h with
  | zero => exact iff_of_true rfl rfl
  | succ h =>
    refine iff_of_false (fun heq => ?_) (by simp)
    have hle := bmapRadix_le_radixOf h
    rw [radixOf] at heq
    simp only [bmapRadix, metaRadix] at *
    omega

theorem radixOf_eq_pow (h : Nat) : radixOf h = 2 ^ (6 + 5 * h) := by
  induction h with
  | zero => rfl
  | succ h ih => rw [radixOf, ih, mul_succ, ← Nat.add_assoc, Nat.pow_add _ _ 5]; rfl

theorem log2_radixOf (h : Nat) : (radixOf h).log2 = 6 + 5 * h := by
  rw [radixOf_eq_pow, log2_two_pow]

theorem radixOf_ne_terminator (h : Nat) : radixOf h ≠ terminator := by
  obtain ⟨r, hr⟩ := bmapRadix_dvd_radixOf h
  simp only [bmapRadix, terminator] at *
  omega

section Layout

variable (scan h : Nat) {i j : Nat}

theorem sub_gt (j : Nat) : scan < sub scan h j := by
  rw [sub]
  omega

theorem sub_le (hj : j < metaRadix) : sub scan h j + skipOf h ≤ scan + skipOf (h + 1) := by
  have hmul : (j + 1) * (skipOf h + 1) ≤ metaRadix * (skipOf h + 1) := Nat.mul_le_mul_right _ hj
  rw [Nat.add_mul, Nat.one_mul] at hmul
  rw [sub, skipOf, Nat.mul_comm (skipOf h + 1)]
  omega

theorem sub_lt_sub (hij : i < j) : sub scan h i + skipOf h < sub scan h j := by
  have hmul : (i + 1) * (skipOf h + 1) ≤ j * (skipOf h + 1) := Nat.mul_le_mul_right _ hij
  rw [Nat.add_mul, Nat.one_mul] at hmul
  rw [sub, sub]
  omega

end Layout

def Apart (mem mem' : BlMem) (scan h : Nat) : Prop :=
  ∀ a, a < scan ∨ scan + skipOf h < a → mem' a = mem a

def Same (mem mem' : BlMem) (scan h : Nat) : Prop :=
  ∀ a, scan ≤ a → a ≤ scan + skipOf h → mem' a = mem a

variable {mem mem' mem'' : BlMem} {scan h i j cnt x : Nat} {m : BlMeta}

@[simp] theorem BlMem.set_self : mem.set scan m scan = m := by
  rw [set, update_self]

@[simp] theorem BlMem.set_of_ne (hne : a ≠ scan) : mem.set scan m a = mem a := by
  rw [set, update_of_ne hne]

theorem Apart.refl (mem : BlMem) (scan h : Nat) : Apart mem mem scan h := fun _ _ => rfl

theorem Apart.trans (hm : Apart mem mem' scan h) (hm' : Apart mem' mem'' scan h) :
    Apart mem mem'' scan h := fun a ha => (hm' a ha).trans (hm a ha)

theorem Apart.set (mem : BlMem) (scan h : Nat) (m : BlMeta) :
    Apart mem (mem.set scan m) scan h := fun a ha => set_of_ne (by omega)

theorem Apart.of_sub (hj : j < metaRadix) (hm : Apart mem mem' (sub scan h j) h) :
    Apart mem mem' scan (h + 1) := by
  intro a ha
  have hgt := sub_gt scan h j
  have hle := sub_le scan h hj
  exact hm a (by omega)

theorem Apart.head (hm : Apart mem mem' (sub scan h j) h) : mem' scan = mem scan :=
  hm scan (.inl (sub_gt _ _ _))

theorem Apart.same (hm : Apart mem mem' (sub scan h j) h) (hne : i ≠ j) :
    Same mem mem' (sub scan h i) h := by
  intro a hlo hhi
  rcases Nat.lt_or_gt_of_ne hne with hlt | hgt
  · have := sub_lt_sub scan h hlt
    exact hm a (.inl (by omega))
  · have := sub_lt_sub scan h hgt
    exact hm a (.inr (by omega))

theorem Same.head (hm : Same mem mem' scan h) : mem' scan = mem scan :=
  hm scan (Nat.le_refl _) (Nat.le_add_right _ _)

theorem Same.sub (hm : Same mem mem' scan (h + 1)) (hj : j < metaRadix) :
    Same mem mem' (sub scan h j) h := by
  intro a hlo hhi
  have hgt := sub_gt scan h j
  have hle := sub_le scan h hj
  exact hm a (by omega) (by omega)

theorem Same.of_set (mem : BlMem) (m : BlMeta) :
    Same mem (mem.set scan m) (SubrBlist.sub scan h j) h := by
  intro a hlo hhi
  have hgt := sub_gt scan h j
  exact BlMem.set_of_ne (by omega)

def isFree (mem : BlMem) : (h scan x : Nat) → Bool
  | 0, scan, x => (mem scan).bmuBitmap.getLsbD x
  | h + 1, scan, x =>
    if (mem scan).bmuAvail = 0 then false
    else if (mem scan).bmuAvail = radixOf (h + 1) then true
    else isFree mem h (sub scan h (x / radixOf h)) (x % radixOf h)

theorem isFree_same (hm : Same mem mem' scan h) (hx : x < radixOf h) :
    isFree mem' h scan x = isFree mem h scan x := by
  induction h generalizing scan x with
  | zero => rw [isFree, isFree, hm.head]
  | succ h ih =>
    have hj : x / radixOf h < metaRadix := Nat.div_lt_of_lt_mul hx
    rw [isFree, isFree, hm.head, ih (hm.sub hj) (mod_lt _ (radixOf_pos h))]

/-- The nodes of the tree exist down to the leaves, and terminators stand behind the last ones. -/
def Shape (mem : BlMem) : (h scan cnt : Nat) → Prop
  | 0, scan, cnt => (mem scan).bmBighint ≠ terminator ∧ 0 < cnt ∧ cnt ≤ bmapRadix
  | h + 1, scan, cnt =>
    (mem scan).bmBighint ≠ terminator ∧ 0 < cnt ∧ cnt ≤ radixOf (h + 1) ∧
      (∀ j < metaRadix, j * radixOf h < cnt → Shape mem h (sub scan h j) (subCnt h cnt j)) ∧
      ∀ j, j + 1 < metaRadix → j * radixOf h < cnt → cnt ≤ (j + 1) * radixOf h →
        (mem (sub scan h (j + 1))).bmBighint = terminator

theorem Shape.bighint_ne (hs : Shape mem h scan cnt) : (mem scan).bmBighint ≠ terminator := by
  cases h with
  | zero => exact hs.1
  | succ h => exact hs.1

theorem Shape.cnt_pos (hs : Shape mem h scan cnt) : 0 < cnt := by
  cases h with
  | zero => exact hs.2.1
  | succ h => exact hs.2.1

theorem Shape.cnt_le (hs : Shape mem h scan cnt) : cnt ≤ radixOf h := by
  cases h with
  | zero => exact hs.2.2
  | succ h => exact hs.2.2.1

theorem Shape.sub (hs : Shape mem (h + 1) scan cnt) (hj : j < metaRadix)
    (hcnt : j * radixOf h < cnt) : Shape mem h (sub scan h j) (subCnt h cnt j) :=
  hs.2.2.2.1 j hj hcnt

theorem Shape.ended (hs : Shape mem (h + 1) scan cnt) (hj : j + 1 < metaRadix)
    (hlt : j * radixOf h < cnt) (hle : cnt ≤ (j + 1) * radixOf h) :
    (mem (SubrBlist.sub scan h (j + 1))).bmBighint = terminator :=
  hs.2.2.2.2 j hj hlt hle

def Terms (mem mem' : BlMem) : Prop :=
  ∀ a, (mem' a).bmBighint = terminator ↔ (mem a).bmBighint = terminator

theorem Terms.refl (mem : BlMem) : Terms mem mem := fun _ => Iff.rfl

theorem Terms.trans (hm : Terms mem mem') (hm' : Terms mem' mem'') : Terms mem mem'' :=
  fun a => (hm' a).trans (hm a)

theorem Terms.set (hold : (mem a).bmBighint ≠ terminator)
    (hnew : m.bmBighint ≠ terminator) : Terms mem (mem.set a m) := by
  intro b
  by_cases hb : b = a
  · subst hb
    rw [set_self]
    exact iff_of_false hnew hold
  · rw [set_of_ne hb]

theorem Shape.of_terms (hm : ∀ a, scan ≤ a → a ≤ scan + skipOf h →
      ((mem' a).bmBighint = terminator ↔ (mem a).bmBighint = terminator))
    (hs : Shape mem h scan cnt) : Shape mem' h scan cnt := by
  induction h generalizing scan cnt with
  | zero => exact ⟨(hm scan (Nat.le_refl _) (Nat.le_add_right _ _)).not.mpr hs.bighint_ne, hs.2⟩
  | succ h ih =>
    have hin : ∀ j < metaRadix, ∀ a, SubrBlist.sub scan h j ≤ a →
        a ≤ SubrBlist.sub scan h j + skipOf h →
        ((mem' a).bmBighint = terminator ↔ (mem a).bmBighint = terminator) := by
      intro j hj a hlo hhi
      have hgt := sub_gt scan h j
      have hle := sub_le scan h hj
      exact hm a (by omega) (by omega)
    refine ⟨(hm scan (Nat.le_refl _) (Nat.le_add_right _ _)).not.mpr hs.bighint_ne, hs.2.1,
      hs.2.2.1, fun j hj hcnt => ih (hin j hj) (hs.sub hj hcnt), fun j hj hlt hle => ?_⟩
    exact (hin (j + 1) hj _ (Nat.le_refl _) (Nat.le_add_right _ _)).mpr (hs.ended hj hlt hle)

theorem Shape.congr (hm : Terms mem mem') (hs : Shape mem h scan cnt) : Shape mem' h scan cnt :=
  hs.of_terms fun a _ _ => hm a

theorem Shape.same (hm : Same mem mem' scan h) (hs : Shape mem h scan cnt) :
    Shape mem' h scan cnt :=
  hs.of_terms fun a hlo hhi => by rw [hm a hlo hhi]

def LeafRun (free : Nat → Bool) (cnt n : Nat) : Prop :=
  ∃ q s, s + n ≤ bmapRadix ∧ q * bmapRadix + s + n ≤ cnt ∧
    ∀ i < n, free (q * bmapRadix + s + i) = true

def HintOk (mem : BlMem) (h scan cnt : Nat) : Prop :=
  ∀ n, LeafRun (isFree mem h scan) cnt n → n ≤ (mem scan).bmBighint

def Good (mem : BlMem) : (h scan cnt : Nat) → Prop
  | 0, scan, cnt =>
    (∀ x, cnt ≤ x → (mem scan).bmuBitmap.getLsbD x = false) ∧ HintOk mem 0 scan cnt
  | h + 1, scan, cnt =>
    (mem scan).bmuAvail = countIn (isFree mem (h + 1) scan) 0 cnt ∧ HintOk mem (h + 1) scan cnt ∧
      ((mem scan).bmuAvail ≠ 0 → (mem scan).bmuAvail ≠ radixOf (h + 1) →
        ∀ j < metaRadix, j * radixOf h < cnt → Good mem h (sub scan h j) (subCnt h cnt j))

theorem LeafRun.congr (hfg : ∀ x < cnt, f x = true → g x = true)
    (hrun : LeafRun f cnt n) : LeafRun g cnt n := by
  obtain ⟨q, s, hs, hcnt, hall⟩ := hrun
  exact ⟨q, s, hs, hcnt, fun i hi => hfg _ (by omega) (hall i hi)⟩

theorem LeafRun.le {k : Nat} (hrun : LeafRun f cnt n) (hk : k ≤ n) : LeafRun f cnt k := by
  obtain ⟨q, s, hs, hcnt, hall⟩ := hrun
  exact ⟨q, s, by omega, by omega, fun i hi => hall i (by omega)⟩

theorem LeafRun.le_bmapRadix (hrun : LeafRun f cnt n) : n ≤ bmapRadix := by
  obtain ⟨q, s, hs, -⟩ := hrun
  omega

theorem LeafRun.le_countIn (hrun : LeafRun f cnt n) : n ≤ countIn f 0 cnt := by
  obtain ⟨q, s, hs, hcnt, hall⟩ := hrun
  have hrow : countIn f (q * bmapRadix + s) n = n := by
    refine countIn_of_all fun x hlo hhi => ?_
    have hx := hall (x - (q * bmapRadix + s)) (by omega)
    rwa [Nat.add_sub_cancel' hlo] at hx
  rw [countIn_split f hcnt, hrow]
  omega

theorem LeafRun.sub (hcnt : cnt ≤ radixOf (h + 1)) (hn : 0 < n)
    (hrun : LeafRun f cnt n) : ∃ j < metaRadix, j * radixOf h < cnt ∧
      LeafRun (fun x => f (j * radixOf h + x)) (subCnt h cnt j) n := by
  obtain ⟨q, s, hs, hle, hall⟩ := hrun
  obtain ⟨r, hr⟩ := bmapRadix_dvd_radixOf h
  have hrpos : 0 < r := Nat.pos_of_mul_pos_left (hr ▸ radixOf_pos h)
  -- the node, and the leaf under it
  have hq : q * bmapRadix = q / r * radixOf h + q % r * bmapRadix := by
    rw [hr, Nat.mul_comm bmapRadix r, ← Nat.mul_assoc, ← Nat.add_mul, Nat.mul_comm (q / r),
      div_add_mod]
  have hmod : q % r + 1 ≤ r := mod_lt q hrpos
  have hlast : q % r * bmapRadix + bmapRadix ≤ radixOf h := by
    have hmul := Nat.mul_le_mul_right bmapRadix hmod
    rw [Nat.add_mul, Nat.one_mul] at hmul
    rwa [hr, Nat.mul_comm bmapRadix r]
  have hlt : q / r * radixOf h < cnt := by omega
  have hj : q / r < metaRadix := by
    rw [radixOf] at hcnt
    exact Nat.lt_of_mul_lt_mul_left (a := radixOf h)
      (by rw [Nat.mul_comm (radixOf h)]; exact Nat.lt_of_lt_of_le hlt hcnt)
  refine ⟨q / r, hj, hlt, q % r, s, hs, ?_, fun i hi => ?_⟩
  · rw [subCnt]
    omega
  · have hx := hall i hi
    rwa [hq, Nat.add_assoc, Nat.add_assoc, ← Nat.add_assoc _ s i] at hx

theorem LeafRun.lift
    (hrun : LeafRun (fun x => f (j * radixOf h + x)) (subCnt h cnt j) n) (hn : 0 < n) :
    LeafRun f cnt n := by
  obtain ⟨q, s, hs, hle, hall⟩ := hrun
  obtain ⟨r, hr⟩ := bmapRadix_dvd_radixOf h
  have hq : (j * r + q) * bmapRadix = j * radixOf h + q * bmapRadix := by
    rw [hr, Nat.add_mul, Nat.mul_assoc, Nat.mul_comm r]
  rw [subCnt] at hle
  refine ⟨j * r + q, s, hs, by omega, fun i hi => ?_⟩
  rw [hq, Nat.add_assoc, Nat.add_assoc, ← Nat.add_assoc _ s i]
  exact hall i hi

theorem hintOk_same (hm : Same mem mem' scan h) (hcnt : cnt ≤ radixOf h)
    (hhint : HintOk mem h scan cnt) : HintOk mem' h scan cnt := by
  intro n hrun
  rw [hm.head]
  exact hhint n (hrun.congr fun x hx hfree => isFree_same hm (Nat.lt_of_lt_of_le hx hcnt) ▸ hfree)

theorem Good.hint (hg : Good mem h scan cnt) : HintOk mem h scan cnt := by
  cases h with
  | zero => exact hg.2
  | succ h => exact hg.2.1

theorem subCnt_le : subCnt h cnt j ≤ radixOf h := Nat.min_le_left _ _

theorem subCnt_le_cnt : subCnt h cnt j ≤ cnt :=
  Nat.le_trans (Nat.min_le_right _ _) (Nat.sub_le _ _)

theorem Good.same (hm : Same mem mem' scan h) (hcnt : cnt ≤ radixOf h)
    (hg : Good mem h scan cnt) : Good mem' h scan cnt := by
  induction h generalizing scan cnt with
  | zero => exact ⟨hm.head ▸ hg.1, hintOk_same hm hcnt hg.2⟩
  | succ h ih =>
    refine ⟨?_, hintOk_same hm hcnt hg.2.1, fun hzero hfull j hj hlt => ?_⟩
    · rw [hm.head, hg.1]
      exact countIn_congr fun x _ hx => (isFree_same hm (by omega)).symm
    · rw [hm.head] at hzero hfull
      exact ih (hm.sub hj) subCnt_le (hg.2.2 hzero hfull j hj hlt)

structure Becomes (mem mem' : BlMem) (h scan cnt : Nat) (f : Nat → Bool) : Prop where
  apart : Apart mem mem' scan h
  terms : Terms mem mem'
  good : Good mem' h scan cnt
  free : ∀ x < cnt, isFree mem' h scan x = f x

theorem Becomes.congr (hb : Becomes mem mem' h scan cnt f)
    (hfg : ∀ x < cnt, f x = g x) : Becomes mem mem' h scan cnt g :=
  ⟨hb.apart, hb.terms, hb.good, fun x hx => (hb.free x hx).trans (hfg x hx)⟩

section Collapsed

variable {f : Nat → Bool} (ha : Apart mem mem' scan (h + 1)) (ht : Terms mem mem')

include ha ht

theorem Becomes.allFree (hcnt : cnt = radixOf (h + 1)) (hf : ∀ x < cnt, f x = true)
    (havail : (mem' scan).bmuAvail = radixOf (h + 1))
    (hhint : radixOf (h + 1) ≤ (mem' scan).bmBighint) : Becomes mem mem' (h + 1) scan cnt f := by
  have hfree : ∀ x, isFree mem' (h + 1) scan x = true := fun x => by
    rw [isFree, havail, if_neg (Nat.ne_of_gt (radixOf_pos _)), if_pos rfl]
  refine ⟨ha, ht, ⟨?_, fun n hrun => ?_, fun _ hpart => absurd havail hpart⟩,
    fun x hx => (hfree x).trans (hf x hx).symm⟩
  · rw [countIn_of_all fun x _ _ => hfree x, havail, hcnt]
  · have hrow := hrun.le_bmapRadix
    have hle := bmapRadix_le_radixOf (h + 1)
    omega

theorem Becomes.allAllocated (hf : ∀ x < cnt, f x = false) (havail : (mem' scan).bmuAvail = 0) :
    Becomes mem mem' (h + 1) scan cnt f := by
  have hfree : ∀ x, isFree mem' (h + 1) scan x = false := fun x => by
    rw [isFree, havail, if_pos rfl]
  have hnone : countIn (isFree mem' (h + 1) scan) 0 cnt = 0 :=
    countIn_eq_zero_iff.mpr fun x _ _ => hfree x
  refine ⟨ha, ht, ⟨by rw [hnone, havail], fun n hrun => ?_, fun hzero => absurd havail hzero⟩,
    fun x hx => (hfree x).trans (hf x hx).symm⟩
  have hle := hrun.le_countIn
  omega

end Collapsed

def inRange (lo count x : Nat) : Bool := decide (lo ≤ x ∧ x < lo + count)

theorem inRange_iff : inRange lo count x = true ↔ lo ≤ x ∧ x < lo + count :=
  decide_eq_true_iff

theorem inRange_eq_false : inRange lo count x = false ↔ ¬(lo ≤ x ∧ x < lo + count) :=
  decide_eq_false_iff_not

end Mbsd.Kern.SubrBlist
