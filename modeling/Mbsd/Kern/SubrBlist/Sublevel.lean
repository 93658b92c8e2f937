import Mbsd.Kern.SubrBlist.Tree
import Mbsd.Lib.Run

/-! The sublevel of a node: how it is opened, changed node by node, and closed again. -/

namespace Mbsd.Kern.SubrBlist

open Lib.CountIn Lib.Yields Nat

variable {mem mem' mem'' : BlMem} {scan h i j cnt x n : Nat} {m : BlMeta} {f g : Nat → Bool}
  {p v sum : Nat}

structure Level (mem mem' : BlMem) (h scan cnt : Nat) (f : Nat → Bool) : Prop where
  apart : Apart mem mem' scan (h + 1)
  terms : Terms mem mem'
  good : ∀ j < metaRadix, j * radixOf h < cnt → Good mem' h (sub scan h j) (subCnt h cnt j)
  free : ∀ j < metaRadix, ∀ x < subCnt h cnt j,
    isFree mem' h (sub scan h j) x = f (j * radixOf h + x)

theorem subCnt_pos (hj : j * radixOf h < cnt) : 0 < subCnt h cnt j := by
  have hpos := radixOf_pos h
  rw [subCnt]
  omega

theorem lt_of_lt_subCnt (hx : x < subCnt h cnt j) : j * radixOf h + x < cnt ∧ x < radixOf h := by
  rw [subCnt] at hx
  omega

theorem lt_subCnt (hx : x < cnt) : x % radixOf h < subCnt h cnt (x / radixOf h) := by
  have hmod := mod_lt x (radixOf_pos h)
  have hdiv := div_add_mod' x (radixOf h)
  rw [subCnt]
  omega

theorem div_lt_metaRadix (hx : x < radixOf (h + 1)) : x / radixOf h < metaRadix :=
  Nat.div_lt_of_lt_mul hx

theorem mul_add_div_radixOf (hx : x < radixOf h) : (j * radixOf h + x) / radixOf h = j := by
  rw [Nat.mul_comm, mul_add_div (radixOf_pos h), div_eq_of_lt hx, Nat.add_zero]

theorem mul_add_mod_radixOf (hx : x < radixOf h) : (j * radixOf h + x) % radixOf h = x := by
  rw [Nat.mul_comm, mul_add_mod, mod_eq_of_lt hx]

theorem Level.opened (hzero : (mem scan).bmuAvail ≠ 0)
    (hfull : (mem scan).bmuAvail ≠ radixOf (h + 1)) (hg : Good mem (h + 1) scan cnt) :
    Level mem mem h scan cnt (isFree mem (h + 1) scan) := by
  refine ⟨.refl _ _ _, .refl _, hg.2.2 hzero hfull, fun j hj x hx => ?_⟩
  obtain ⟨-, hlt⟩ := lt_of_lt_subCnt hx
  rw [isFree, if_neg hzero, if_neg hfull, mul_add_div_radixOf hlt, mul_add_mod_radixOf hlt]

section

variable (hl : Level mem mem' h scan cnt f)

include hl

theorem Level.congr (hfg : ∀ x < cnt, f x = g x) : Level mem mem' h scan cnt g :=
  ⟨hl.apart, hl.terms, hl.good,
    fun j hj x hx => (hl.free j hj x hx).trans (hfg _ (lt_of_lt_subCnt hx).1)⟩

theorem Level.setHead (hold : (mem' scan).bmBighint ≠ terminator)
    (hnew : m.bmBighint ≠ terminator) : Level mem (mem'.set scan m) h scan cnt f := by
  refine ⟨hl.apart.trans (.set _ _ _ _), hl.terms.trans (.set hold hnew),
    fun j hj hcnt => (hl.good j hj hcnt).same (.of_set _ _) subCnt_le, fun j hj x hx => ?_⟩
  rw [isFree_same (.of_set _ _) (lt_of_lt_subCnt hx).2, hl.free j hj x hx]

theorem Level.change (hj : j < metaRadix)
    (hb : Becomes mem' mem'' h (sub scan h j) (subCnt h cnt j) fun x => g (j * radixOf h + x))
    (hfg : ∀ x < cnt, x / radixOf h ≠ j → f x = g x) : Level mem mem'' h scan cnt g := by
  refine ⟨hl.apart.trans (.of_sub hj hb.apart), hl.terms.trans hb.terms, fun i hi hcnt => ?_,
    fun i hi x hx => ?_⟩
  · by_cases hij : i = j
    · exact hij ▸ hb.good
    · exact (hl.good i hi hcnt).same (hb.apart.same hij) subCnt_le
  · obtain ⟨hlt, hradix⟩ := lt_of_lt_subCnt hx
    by_cases hij : i = j
    · subst hij
      exact hb.free x hx
    · rw [isFree_same (hb.apart.same hij) hradix, hl.free i hi x hx,
        hfg _ hlt (by rwa [mul_add_div_radixOf hradix])]

theorem Level.closed (hcnt : cnt ≤ radixOf (h + 1))
    (havail : (mem' scan).bmuAvail = countIn f 0 cnt)
    (hhint : ∀ n, LeafRun f cnt n → n ≤ (mem' scan).bmBighint) :
    Becomes mem mem' (h + 1) scan cnt f := by
  have hfree : ∀ x < cnt, isFree mem' (h + 1) scan x = f x := by
    intro x hx
    rw [isFree]
    split
    next hzero =>
      rw [hzero] at havail
      exact (countIn_eq_zero_iff.mp havail.symm x (Nat.zero_le _) (by omega)).symm
    next hzero =>
      split
      next hfull =>
        have hall : countIn f 0 cnt = cnt := by
          have hle := countIn_le f 0 cnt
          omega
        exact (all_of_countIn hall x (Nat.zero_le _) (by omega)).symm
      next hfull =>
        rw [hl.free _ (div_lt_metaRadix (by omega)) _ (lt_subCnt hx), div_add_mod']
  refine ⟨hl.apart, hl.terms, ⟨?_, fun n hrun => ?_, fun _ _ => hl.good⟩, hfree⟩
  · rw [havail]
    exact countIn_congr fun x _ hx => (hfree x (by omega)).symm
  · exact hhint n (hrun.congr fun x hx hx' => hfree x hx ▸ hx')

end

theorem inRange_sub (hp : j * radixOf h ≤ p) :
    inRange p v (j * radixOf h + x) = inRange (p - j * radixOf h) v x :=
  decide_eq_decide.mpr (by omega)

section Init

variable {init : BlMeta → BlMeta}

theorem sub_ne_sub (hij : i ≠ j) : sub scan h i ≠ sub scan h j := by
  rcases Nat.lt_or_gt_of_ne hij with hlt | hgt
  · have := sub_lt_sub scan h hlt
    omega
  · have := sub_lt_sub scan h hgt
    omega

theorem index_le_skipOf : j * (skipOf h + 1) + 1 ≤ skipOf (h + 1) ↔ j < metaRadix := by
  rw [skipOf, Nat.mul_comm (skipOf h + 1)]
  constructor
  · intro hle
    exact Nat.lt_of_mul_lt_mul_right (a := skipOf h + 1) (by omega)
  · intro hlt
    have hmul : (j + 1) * (skipOf h + 1) ≤ metaRadix * (skipOf h + 1) := Nat.mul_le_mul_right _ hlt
    rw [Nat.add_mul, Nat.one_mul] at hmul
    omega

theorem initLoop_spec (mem : BlMem) (scan : Nat) (init : BlMeta → BlMeta) (hn : n + j = metaRadix)
    (hheads : ∀ i, j ≤ i → i < metaRadix → i * radixOf h < cnt →
      (mem (sub scan h i)).bmBighint ≠ terminator) (hnext : j < metaRadix → cnt ≤ j * radixOf h →
      (mem (sub scan h j)).bmBighint = terminator)
    (hterm : ∀ i, j ≤ i → i + 1 < metaRadix → i * radixOf h < cnt →
      cnt ≤ (i + 1) * radixOf h → (mem (sub scan h (i + 1))).bmBighint = terminator) :
    let after := initLoop scan (skipOf (h + 1)) (skipOf h + 1) init n mem (j * (skipOf h + 1) + 1)
    (∀ i, j ≤ i → i < metaRadix → i * radixOf h < cnt →
      after (sub scan h i) = init (mem (sub scan h i))) ∧
    ∀ a, (∀ i, j ≤ i → i < metaRadix → i * radixOf h < cnt → a ≠ sub scan h i) →
      after a = mem a := by
  induction n generalizing mem j with
  | zero => exact ⟨fun i hji hi => by omega, fun a _ => rfl⟩
  | succ n ih =>
    have hj : j < metaRadix := by omega
    rw [initLoop]
    by_cases hcnt : j * radixOf h < cnt
    · -- the node exists
      rw [if_pos ⟨index_le_skipOf.mpr hj, hheads j (Nat.le_refl _) hj hcnt⟩, ← sub,
        show j * (skipOf h + 1) + 1 + (skipOf h + 1) = (j + 1) * (skipOf h + 1) + 1 by
          rw [succ_mul]; omega]
      have hset : ∀ i, i ≠ j →
          mem.set (sub scan h j) (init (mem (sub scan h j))) (sub scan h i) =
            mem (sub scan h i) := fun i hij => BlMem.set_of_ne (sub_ne_sub hij)
      obtain ⟨hwrite, hkeep⟩ := ih (j := j + 1)
        (mem.set (sub scan h j) (init (mem (sub scan h j)))) (by omega)
        (fun i hji hi hicnt => by rw [hset i (by omega)]; exact hheads i (by omega) hi hicnt)
        (fun hj' hle => by
          rw [hset _ (by omega)]
          exact hterm j (Nat.le_refl _) hj' hcnt hle)
        (fun i hji hi hicnt hle => by
          rw [hset _ (by omega)]
          exact hterm i (by omega) hi hicnt hle)
      refine ⟨fun i hji hi hicnt => ?_, fun a ha => ?_⟩
      · rcases Nat.eq_or_lt_of_le hji with rfl | hlt
        · rw [hkeep _ fun i hji' _ _ => sub_ne_sub (by omega), BlMem.set_self]
        · rw [hwrite i hlt hi hicnt, hset i (by omega)]
      · rw [hkeep a fun i hji hi hicnt => ha i (by omega) hi hicnt,
          BlMem.set_of_ne (ha j (Nat.le_refl _) hj hcnt)]
    · -- a terminator, and no node behind it
      rw [if_neg fun hboth => hboth.2 (hnext hj (by omega))]
      refine ⟨fun i hji hi hicnt => absurd hicnt ?_, fun a _ => rfl⟩
      have hmul := Nat.mul_le_mul_right (radixOf h) hji
      omega

theorem Level.initialized (hs : Shape mem (h + 1) scan cnt)
    (hne : ∀ m : BlMeta, m.bmBighint ≠ terminator → (init m).bmBighint ≠ terminator)
    (hsub : ∀ mem' : BlMem, ∀ j < metaRadix, j * radixOf h < cnt →
      mem' (sub scan h j) = init (mem (sub scan h j)) →
        Good mem' h (sub scan h j) (subCnt h cnt j) ∧
        ∀ x < subCnt h cnt j, isFree mem' h (sub scan h j) x = f (j * radixOf h + x)) :
    Level mem (initLoop scan (skipOf (h + 1)) (skipOf h + 1) init metaRadix mem 1) h scan cnt f ∧
      initLoop scan (skipOf (h + 1)) (skipOf h + 1) init metaRadix mem 1 scan = mem scan := by
  obtain ⟨hwrite, hkeep⟩ := initLoop_spec mem scan init (n := metaRadix) (j := 0) rfl
    (fun i _ hi hcnt => (hs.sub hi hcnt).bighint_ne)
    (fun _ hle => absurd hs.cnt_pos (by omega))
    (fun i _ hi hcnt hle => hs.ended hi hcnt hle)
  rw [Nat.zero_mul, Nat.zero_add] at hwrite hkeep
  refine ⟨⟨fun a ha => hkeep a fun i _ hi _ heq => ?_, fun a => ?_, fun j hj hcnt => ?_,
    fun j hj x hx => ?_⟩, hkeep scan fun i _ _ _ => Nat.ne_of_lt (sub_gt _ _ _)⟩
  · have hgt := sub_gt scan h i
    have hle := sub_le scan h hi
    omega
  · by_cases hhead : ∃ i < metaRadix, i * radixOf h < cnt ∧ a = sub scan h i
    · obtain ⟨i, hi, hcnt, rfl⟩ := hhead
      rw [hwrite i (Nat.zero_le _) hi hcnt]
      have hold := (hs.sub hi hcnt).bighint_ne
      exact iff_of_false (hne _ hold) hold
    · rw [hkeep a fun i _ hi hcnt heq => hhead ⟨i, hi, hcnt, heq⟩]
  · exact (hsub _ j hj hcnt (hwrite j (Nat.zero_le _) hj hcnt)).1
  · have hcnt : j * radixOf h < cnt := by
      have := (lt_of_lt_subCnt hx).1
      omega
    exact (hsub _ j hj hcnt (hwrite j (Nat.zero_le _) hj hcnt)).2 x hx

theorem nextSkip_zero : skipOf 0 + 1 = 1 := rfl

theorem nextSkip_succ : ¬skipOf (h + 1) + 1 = 1 := fun heq =>
  succ_ne_zero h (skipOf_eq_zero.mp (succ.inj heq))

theorem not_leafRun_false (hrun : LeafRun f cnt n) (hf : ∀ x < cnt, f x = false) : n = 0 := by
  obtain ⟨q, s, -, hle, hall⟩ := hrun
  by_contra hpos
  have htrue := hall 0 (by omega)
  rw [hf _ (by omega)] at htrue
  cases htrue

theorem initFree_level (hs : Shape mem (h + 1) scan cnt) (hcnt : cnt = radixOf (h + 1)) :
    Level mem (initFree mem scan (radixOf h) (skipOf (h + 1)) (skipOf h + 1)) h scan cnt
      (fun _ => true) ∧
    initFree mem scan (radixOf h) (skipOf (h + 1)) (skipOf h + 1) scan = mem scan := by
  refine Level.initialized hs (fun m _ => ?_) fun mem' j hj _ hwrite => ?_
  · split
    · exact (by decide : bmapRadix ≠ terminator)
    · exact radixOf_ne_terminator h
  · have hmul := mul_add_le_radixOf (h := h) hj
    have hfull : subCnt h cnt j = radixOf h := by
      rw [subCnt]
      omega
    rw [hfull]
    cases h with
    | zero =>
      rw [if_pos nextSkip_zero] at hwrite
      have hbits : ∀ x, isFree mem' 0 (sub scan 0 j) x = decide (x < 64) := fun x => by
        rw [isFree, hwrite, BitVec.getLsbD_allOnes]
      refine ⟨⟨fun x hx => ?_, fun n hrun => ?_⟩, fun x hx => ?_⟩
      · exact (hbits x).trans (decide_eq_false (Nat.not_lt.mpr hx))
      · rw [hwrite]
        exact hrun.le_bmapRadix
      · exact (hbits x).trans (decide_eq_true hx)
    | succ h =>
      rw [if_neg nextSkip_succ] at hwrite
      have hfree : ∀ x, isFree mem' (h + 1) (sub scan (h + 1) j) x = true := fun x => by
        rw [isFree, hwrite, if_neg (Nat.ne_of_gt (radixOf_pos _)), if_pos rfl]
      refine ⟨⟨?_, fun n hrun => ?_, fun _ hpart => absurd (by rw [hwrite]) hpart⟩,
        fun x _ => hfree x⟩
      · rw [countIn_of_all fun x _ _ => hfree x, hwrite]
      · rw [hwrite]
        exact Nat.le_trans hrun.le_bmapRadix (bmapRadix_le_radixOf _)

theorem initAllocated_level (hs : Shape mem (h + 1) scan cnt) :
    Level mem (initAllocated mem scan (skipOf (h + 1)) (skipOf h + 1)) h scan cnt (fun _ => false) ∧
    initAllocated mem scan (skipOf (h + 1)) (skipOf h + 1) scan = mem scan := by
  refine Level.initialized hs (fun m _ => ?_) fun mem' j _ _ hwrite => ?_
  · split <;> exact (by decide : 0 ≠ terminator)
  · have hfree : ∀ x, isFree mem' h (sub scan h j) x = false := by
      intro x
      cases h with
      | zero =>
        rw [isFree, hwrite, if_pos nextSkip_zero]
        exact BitVec.getLsbD_zero
      | succ h =>
        rw [isFree, hwrite, if_neg nextSkip_succ, if_pos rfl]
    have hhint : HintOk mem' h (sub scan h j) (subCnt h cnt j) := fun n hrun =>
      (not_leafRun_false hrun fun x _ => hfree x) ▸ Nat.zero_le _
    refine ⟨?_, fun x _ => hfree x⟩
    cases h with
    | zero => exact ⟨fun x _ => hfree x, hhint⟩
    | succ h =>
      rw [if_neg nextSkip_succ] at hwrite
      refine ⟨?_, hhint, fun hzero => absurd (by rw [hwrite]) hzero⟩
      rw [countIn_eq_zero_iff.mpr fun x _ _ => hfree x, hwrite]

end Init

section Range

variable {step : BlMem → (i from_ v blk : Nat) → Option (BlMem × Nat)} {base lo count : Nat}
  {I : Nat → BlMem → Nat → Prop} {bad : Prop}

section Loop

variable (hcount : 0 < count)
  (hstep : ∀ j p v mem sum, j < metaRadix → p = max lo (j * radixOf h) → 0 < v →
    p + v = min (lo + count) ((j + 1) * radixOf h) → I p mem sum →
    Yields bad (fun r => I (p + v) r.1 (sum + r.2))
      (step mem (j * (skipOf h + 1) + 1) (base + p) v (base + j * radixOf h)))

include hcount hstep

theorem rangeLoop_from {c : Nat} (hin : lo + count ≤ metaRadix * radixOf h)
    (hn : metaRadix ≤ n + j) (hj : lo < (j + 1) * radixOf h)
    (hp : p = min (lo + count) (max lo (j * radixOf h))) (hc : p + c = lo + count)
    (hI : I p mem sum) : Yields bad (fun r => I (lo + count) r.1 r.2)
      (rangeLoop step (radixOf h) (skipOf (h + 1)) (skipOf h + 1) n mem sum
        (j * (skipOf h + 1) + 1) (base + j * radixOf h) (base + p) c) := by
  induction n generalizing mem sum j p c with
  | zero =>
    have hmul := Nat.mul_le_mul_right (radixOf h) (show metaRadix ≤ j by omega)
    have hend : p = lo + count := by omega
    exact hend ▸ hI
  | succ n ih =>
    rw [succ_mul] at hj
    by_cases hmore : j * radixOf h < lo + count
    · have hjlt : j < metaRadix := Nat.lt_of_mul_lt_mul_right (a := radixOf h) (by omega)
      have hpmax : p = max lo (j * radixOf h) := by omega
      rw [rangeLoop, if_pos ⟨index_le_skipOf.mpr hjlt, by omega⟩,
        show base + j * radixOf h + radixOf h - (base + p) = j * radixOf h + radixOf h - p by omega]
      have hv : p + min (j * radixOf h + radixOf h - p) c =
          min (lo + count) ((j + 1) * radixOf h) := by
        rw [succ_mul]
        omega
      have hvpos : 0 < min (j * radixOf h + radixOf h - p) c := by
        have hpos := radixOf_pos h
        omega
      refine (hstep j p _ mem sum hjlt hpmax hvpos hv hI).bind fun r hr => ?_
      have hrest := ih (j := j + 1) (p := p + min (j * radixOf h + radixOf h - p) c)
        (c := c - min (j * radixOf h + radixOf h - p) c) (by omega)
        (by rw [succ_mul, succ_mul]; omega) (by omega) (by omega) hr
      rwa [succ_mul, succ_mul, Nat.add_right_comm _ (skipOf h + 1) 1, ← Nat.add_assoc base,
        ← Nat.add_assoc base] at hrest
    · have hend : p = lo + count := by omega
      rw [rangeLoop, if_neg fun hboth => hmore (by omega)]
      exact hend ▸ hI

theorem rangeLoop_rule (hin : lo + count ≤ radixOf (h + 1)) (hI : I lo mem sum) :
    Yields bad (fun r => I (lo + count) r.1 r.2)
      (rangeLoop step (radixOf h) (skipOf (h + 1)) (skipOf h + 1) metaRadix mem sum
        ((base + lo - base) / radixOf h * (skipOf h + 1) + 1)
        (base + (base + lo - base) / radixOf h * radixOf h) (base + lo) count) := by
  rw [Nat.add_sub_cancel_left]
  have hdiv := div_mul_le_self lo (radixOf h)
  refine rangeLoop_from hcount hstep (by rwa [radixOf, Nat.mul_comm] at hin)
    (Nat.le_add_right _ _) ?_ (by omega) rfl hI
  rw [Nat.mul_comm]
  exact lt_mul_div_succ lo (radixOf_pos h)

end Loop

structure Piece (h cnt lo count j p v : Nat) : Prop where
  lo_le : lo ≤ p
  le_hi : p + v ≤ lo + count
  base_le : j * radixOf h ≤ p
  le_end : p + v ≤ (j + 1) * radixOf h
  base_lt : j * radixOf h < cnt
  le_subCnt : p - j * radixOf h + v ≤ subCnt h cnt j

theorem Piece.of_step (hle : lo + count ≤ cnt) (hp : p = max lo (j * radixOf h))
    (hv : 0 < v) (hend : p + v = min (lo + count) ((j + 1) * radixOf h)) :
    Piece h cnt lo count j p v := by
  refine ⟨by omega, by omega, by omega, by omega, by omega, ?_⟩
  rw [succ_mul] at hend
  rw [subCnt]
  omega

theorem inRange_extend (hlo : lo ≤ p) :
    (inRange lo (p - lo) x || inRange p v x) = inRange lo (p + v - lo) x := by
  rw [inRange, inRange, inRange, ← Bool.decide_or]
  exact decide_eq_decide.mpr (by omega)

theorem div_eq_of_inRange (hlo : j * radixOf h ≤ p) (hhi : p + v ≤ (j + 1) * radixOf h)
    (hx : inRange p v x = true) : x / radixOf h = j := by
  obtain ⟨hge, hlt⟩ := inRange_iff.mp hx
  rw [succ_mul] at hhi
  have hsub := mul_add_div_radixOf (h := h) (j := j) (x := x - j * radixOf h) (by omega)
  rwa [Nat.add_sub_cancel' (by omega)] at hsub

theorem inRange_succ (hlo : lo ≤ p) (hj : j * radixOf h ≤ p)
    (hv : p + v ≤ (j + 1) * radixOf h) (hx : x / radixOf h ≠ j) :
    inRange lo (p + v - lo) x = inRange lo (p - lo) x := by
  have hout : inRange p v x = false := by
    rw [← Bool.not_eq_true]
    exact fun hin => hx (div_eq_of_inRange hj hv hin)
  rw [← inRange_extend hlo, hout, Bool.or_false]

end Range

end Mbsd.Kern.SubrBlist
