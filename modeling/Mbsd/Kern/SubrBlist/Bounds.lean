import Mbsd.Kern.SubrBlist.Create
import Mbsd.Kern.SubrBlist.Fence

/-! No function of `kern/subr_blist.c` leaves `bl_root` or looks behind a terminator, whatever was
done to the `blist_t` before. -/

namespace Mbsd.Kern.SubrBlist.Access

open Lib.CellProg Function Nat Guarded

variable {mem mem' : BlMem} {h levels scan cnt j count blk : Nat} {P : Nat → Prop} {k : Counter}

theorem radixOf_lt_terminator (hh : h ≤ 11) : radixOf h < terminator := by
  have hmax : radixOf h ≤ blistMaxblks := by
    rw [← radixOf_eleven, radixOf_eq_pow, radixOf_eq_pow]
    exact Nat.pow_le_pow_right (by decide) (by omega)
  exact Nat.lt_of_le_of_lt hmax (by decide)

section Leaf

variable (hP : P scan) (hlive : (mem scan).bmBighint < terminator)

include hP hlive

theorem blstLeafAlloc_guarded (hcount : 0 < count) (hmax : count ≤ terminator) :
    Guarded P mem (blstLeafAlloc scan blk count) mem := by
  have hhint : count - 1 < terminator := by omega
  refine .get hP ?_
  dsimp only
  split
  next => exact ⟨hP, hP, .update hlive (by decide : 0 < terminator)⟩
  next =>
    split
    next => exact ⟨hP, hP, .update hlive hlive⟩
    next =>
      split
      next =>
        split
        next => exact ⟨hP, hP, .update hlive hlive⟩
        next => exact ⟨hP, hP, .update hlive hhint⟩
      next => exact ⟨hP, hP, .update hlive hhint⟩

theorem blstLeafFree_guarded : Guarded P mem (blstLeafFree scan blk count) mem := by
  refine .get hP ?_
  split
  next => trivial
  next => exact ⟨hP, hP, .update hlive (by decide : bmapRadix < terminator)⟩

theorem blstLeafFill_guarded : Guarded P mem (blstLeafFill scan blk count) mem :=
  ⟨hP, hP, hP, .update hlive hlive⟩

end Leaf

section Init

variable (hf : Fenced mem (h + 1) scan cnt) (hk : Keeps mem mem')
  (hP : ∀ a, Entry (h + 1) scan cnt a → P a) (hcnt : 0 < cnt)

include hf hk hP hcnt

theorem initLoop_guarded {init : BlMeta → BlMeta} (hinit : ∀ m, (init m).bmBighint < terminator) :
    Guarded P mem (initLoop scan (skipOf (h + 1)) (skipOf h + 1) init) mem' := by
  refine subLoop_first_guarded hf hP (fun j _ mem' hj hlt hk => ?_) hcnt hk ()
  have hnode := (hf.2 j hj).1 hlt
  exact (hint hk (hP _ (.sub hj hlt (.head _ _ _))) hnode.head (hinit _)).bind
    fun _ _ hk' => .pure hk' _

theorem initFree_guarded (hh : h ≤ 11) :
    Guarded P mem (initFree scan (radixOf h) (skipOf (h + 1)) (skipOf h + 1)) mem' := by
  refine initLoop_guarded hf hk hP hcnt fun m => ?_
  split
  next => exact (by decide : bmapRadix < terminator)
  next => exact radixOf_lt_terminator hh

theorem initAllocated_guarded :
    Guarded P mem (initAllocated scan (skipOf (h + 1)) (skipOf h + 1)) mem' := by
  refine initLoop_guarded hf hk hP hcnt fun m => ?_
  split <;> exact (by decide : 0 < terminator)

end Init

theorem allocNode_guarded (hh : h ≤ 11) (hlevels : h ≤ levels) (hf : Fenced mem h scan cnt)
    (hP : ∀ a, Entry h scan cnt a → P a) (hcnt : 0 < cnt) (hcount : 0 < count)
    (hmax : count ≤ terminator) (blkat blk : Nat) : Guarded P mem
      (if skipOf h + 1 = 1 then blstLeafAlloc scan blk count
        else blstMetaAlloc k levels scan blkat blk count (radixOf h) (skipOf h + 1 - 1)) mem := by
  induction h generalizing levels scan cnt mem blk with
  | zero =>
    rw [if_pos (by rfl)]
    exact blstLeafAlloc_guarded (hP _ (.head _ _ _)) hf.head hcount hmax
  | succ h ih =>
    have hscan := hP scan (.head _ _ _)
    have hlive := hf.head
    have hradix := radixOf_lt_terminator hh
    obtain ⟨levels, rfl⟩ := exists_level hlevels
    rw [if_neg (skipOf_succ_ne_one h), Nat.add_sub_cancel, blstMetaAlloc, radixOf_succ_div,
      skipOf_succ_div]
    refine .get hscan ?_
    dsimp only
    split
    next =>
      exact (hint (.refl _) hscan hlive (by decide : 0 < terminator)).bind fun _ _ hk => hk
    next =>
      refine (when (.refl _) fun _ => ?_).bind fun _ mem₁ hk₁ => ?_
      · exact (hint (.refl _) hscan hlive hradix).bind fun _ _ hk =>
          initFree_guarded hf hk hP hcnt (by omega)
      · refine (subLoop_first_guarded hf hP (fun j s mem' hj hlt hk => ?_) hcnt hk₁ _).bind
          fun r mem₂ hk₂ => ?_
        rotate_left
        · split
          next => exact hk₂
          next =>
            refine .get hscan ((when hk₂ fun _ => ?_).bind fun _ _ hk => hk)
            exact .hint hk₂ hscan hlive (by show count - 1 < _; omega)
        · have hnode := (hf.keeps hk).2 j hj
          have hentry : ∀ a, Entry h (sub scan h j) (subCnt h cnt j) a → P a := fun a ha =>
            hP a (.sub hj hlt ha)
          obtain ⟨blk', r⟩ := s
          refine .get (hentry _ (.head _ _ _)) ?_
          split
          next =>
            refine bind (.after hk (ih (by omega) (by omega) (hnode.1 hlt) hentry
              (subCnt_pos hlt) blk')) fun r mem₂ hk₂ => ?_
            split
            next =>
              refine (hint hk₂ hscan hlive ?_).bind fun _ _ hk => hk
              have hhint := (hk₂ scan).2 hlive
              dsimp only
              split <;> omega
            next => exact hk₂
          next =>
            split
            next => trivial
            next => exact hk

theorem freeHead_guarded (hf : Fenced mem (h + 1) scan cnt)
    (hP : ∀ a, Entry (h + 1) scan cnt a → P a) (hcnt : 0 < cnt) (hcount : count < terminator) :
    Guarded P mem (freeHead k scan count (radixOf (h + 1)) (skipOf (h + 1)) (skipOf h + 1))
      mem := by
  have hscan := hP scan (.head _ _ _)
  refine .get hscan ?_
  split
  next =>
    refine (hint (.refl _) hscan hf.head hcount).bind fun _ mem₁ hk₁ => ?_
    exact .when hk₁ fun _ => initAllocated_guarded hf hk₁ hP hcnt
  next => exact .hint (.refl _) hscan hf.head hf.head

section

variable (hh : h ≤ 11) (hlevels : h ≤ levels) (hf : Fenced mem h scan cnt)
  (hP : ∀ a, Entry h scan cnt a → P a)

include hh hlevels hf hP

theorem freeNode_guarded {base freeBlk : Nat} (hlo : base ≤ freeBlk)
    (hhi : freeBlk < base + cnt) (hle : freeBlk + count ≤ base + cnt) (hcnt : cnt ≤ radixOf h) :
    Guarded P mem (if skipOf h + 1 = 1 then blstLeafFree scan freeBlk count
        else blstMetaFree k levels scan freeBlk count (radixOf h) (skipOf h + 1 - 1) base) mem := by
  induction h generalizing levels scan cnt mem base freeBlk count with
  | zero =>
    rw [if_pos (by rfl)]
    exact blstLeafFree_guarded (hP _ (.head _ _ _)) hf.head
  | succ h ih =>
    have hscan := hP scan (.head _ _ _)
    have hlive := hf.head
    have hradix := radixOf_lt_terminator hh
    obtain ⟨levels, rfl⟩ := exists_level hlevels
    rw [if_neg (skipOf_succ_ne_one h), Nat.add_sub_cancel, blstMetaFree, radixOf_succ_div,
      skipOf_succ_div]
    refine (freeHead_guarded hf hP (by omega) (by omega)).bind fun _ mem₁ hk₁ => ?_
    refine .get hscan ?_
    split
    next => exact .hint hk₁ hscan hlive hradix
    next =>
      split
      next => trivial
      next =>
        refine (rangeLoop_first_guarded (fun j from_ v mem' hj hlt hk hlo hhi hle => ?_) hlo hhi
          hle hcnt hk₁).bind fun _ _ hk => hk
        have hnode := ((hf.keeps hk).2 j hj).1 hlt
        have hentry : ∀ a, Entry h (sub scan h j) (subCnt h cnt j) a → P a := fun a ha =>
          hP a (.sub hj hlt ha)
        refine .get hscan ?_
        split
        next => trivial
        next =>
          refine bind (.after hk (ih (by omega) (by omega) hnode hentry hlo hhi hle
            subCnt_le)) fun _ mem₂ hk₂ => ?_
          refine .get hscan (.get (hentry _ (.head _ _ _)) ?_)
          refine (when hk₂ fun _ => ?_).bind fun _ _ hk => hk
          exact .hint hk₂ hscan hlive ((hf.keeps hk₂).2 j hj |>.1 hlt).head

theorem fillNode_guarded {base fillBlk : Nat} (hlo : base ≤ fillBlk)
    (hhi : fillBlk < base + cnt) (hle : fillBlk + count ≤ base + cnt) (hcnt : cnt ≤ radixOf h) :
    Guarded P mem (if skipOf h + 1 = 1 then blstLeafFill scan fillBlk count
        else blstMetaFill k levels scan fillBlk count (radixOf h) (skipOf h + 1 - 1) base) mem := by
  induction h generalizing levels scan cnt mem base fillBlk count with
  | zero =>
    rw [if_pos (by rfl)]
    exact blstLeafFill_guarded (hP _ (.head _ _ _)) hf.head
  | succ h ih =>
    have hscan := hP scan (.head _ _ _)
    have hlive := hf.head
    have hradix := radixOf_lt_terminator hh
    obtain ⟨levels, rfl⟩ := exists_level hlevels
    rw [if_neg (skipOf_succ_ne_one h), Nat.add_sub_cancel, blstMetaFill, radixOf_succ_div,
      skipOf_succ_div]
    refine .get hscan ?_
    split
    next =>
      exact (hint (.refl _) hscan hlive (by show count < _; omega)).bind fun _ _ hk => hk
    next =>
      refine (when (.refl _) fun _ =>
        initFree_guarded hf (.refl _) hP (by omega) (by omega)).bind fun _ mem₁ hk₁ => ?_
      dsimp only
      split
      next => trivial
      next =>
        refine (rangeLoop_first_guarded (fun j from_ v mem' hj hlt hk hlo hhi hle => ?_) hlo hhi
          hle hcnt hk₁).bind fun nblks mem₂ hk₂ => ?_
        · have hnode := ((hf.keeps hk).2 j hj).1 hlt
          refine .get hscan ?_
          split
          next => trivial
          next =>
            exact .after hk (ih (by omega) (by omega) hnode (fun a ha => hP a (.sub hj hlt ha)) hlo
              hhi hle subCnt_le)
        · exact (hint hk₂ hscan hlive ((hk₂ scan).2 hlive)).bind fun _ _ hk => hk

end

theorem blstRadixGapfind_guarded (hlevels : h ≤ levels) (hf : Fenced mem h scan cnt)
    (hP : ∀ a, Entry h scan cnt a → P a) (hcnt : 0 < cnt) (blk : Nat) (s : GapfindState × Gaps) :
    Guarded P mem (blstRadixGapfind levels scan blk (radixOf h) (skipOf h) s) mem := by
  induction h generalizing levels scan cnt mem blk s with
  | zero =>
    rw [blstRadixGapfind.eq_def]
    dsimp only
    rw [if_pos (radixOf_eq_bmapRadix.mpr rfl)]
    exact .get (hP _ (.head _ _ _)) (.pure (.refl _) _)
  | succ h ih =>
    obtain ⟨levels, rfl⟩ := exists_level hlevels
    rw [blstRadixGapfind, if_neg (radixOf_eq_bmapRadix.not.mpr (succ_ne_zero h))]
    refine .get (hP scan (.head _ _ _)) ?_
    dsimp only
    rw [radixOf_succ_div, skipOf_succ_div, Nat.add_sub_cancel]
    split
    next => exact .pure (.refl _) _
    next =>
      split
      next => exact .pure (.refl _) _
      next =>
        refine (subLoop_first_guarded hf hP (fun j s mem' hj hlt hk => ?_) hcnt (.refl _) _).bind
          fun _ _ hk => .pure hk _
        have hnode := ((hf.keeps hk).2 j hj).1 hlt
        exact (after hk (ih (by omega) hnode (fun a ha => hP a (.sub hj hlt ha))
          (subCnt_pos hlt) s.1 s.2)).bind fun _ _ hk => .pure hk _

section Create

section Loop

variable {child : (i count : Nat) → BlProg Nat} {scan : Option Nat}
  {J : (j memindex : Nat) → BlMem → Prop} {Q : Nat → BlMem → Prop}
  (hchild : ∀ j memindex mem, j < metaRadix → j * radixOf h < cnt → J j memindex mem →
    (child (j * (skipOf h + 1) + 1) (subCnt h cnt j)).Runs P
      (fun m mem' => J (j + 1) (j * (skipOf h + 1) + 1 + m) mem') mem)
  (hend : ∀ j memindex mem, j < metaRadix → IsEnd h cnt j → J j memindex mem →
    (initNode (scan.map (· + (j * (skipOf h + 1) + 1)))
        fun m => { m with bmBighint := terminator }).Runs P
      (fun _ mem' => Q (max memindex (j * (skipOf h + 1) + 1)) mem') mem)
  (hfull : ∀ memindex mem, metaRadix * radixOf h < cnt + radixOf h → J metaRadix memindex mem →
    Q (max memindex (skipOf (h + 1) + 1)) mem)

include hchild hend hfull

theorem radixInitLoop_runs {n c memindex : Nat}
    (hj : j ≤ metaRadix) (hn : metaRadix < n + j) (hlast : j * radixOf h < cnt + radixOf h)
    (hc : c = cnt - j * radixOf h) (hJ : J j memindex mem) :
    (radixInitLoop child scan (radixOf h) (skipOf (h + 1)) (skipOf h + 1) n
      (j * (skipOf h + 1) + 1) c memindex).Runs P Q mem := by
  induction n generalizing j c memindex mem with
  | zero => omega
  | succ n ih =>
    rw [radixInitLoop]
    split
    next hi =>
      have hj' := index_le_skipOf.mp hi
      split
      next hall =>
        have hv : subCnt h cnt j = radixOf h := by
          rw [subCnt]
          omega
        have hrun := hchild j memindex mem hj' (by omega) hJ
        rw [hv] at hrun
        rw [Prog.runs_bind]
        refine hrun.mono fun m mem' hJ' => ?_
        rw [index_succ]
        exact ih hj' (by omega) (by rw [succ_mul]; omega) (by rw [succ_mul]; omega) hJ'
      next =>
        split
        next =>
          have hv : c = subCnt h cnt j := by
            rw [subCnt]
            omega
          rw [Prog.runs_bind, hv]
          refine (hchild j memindex mem hj' (by omega) hJ).mono fun m mem' hJ' => ?_
          rw [index_succ]
          exact ih hj' (by omega) (by rw [succ_mul]; omega) (by rw [succ_mul]; omega) hJ'
        next =>
          rw [Prog.runs_bind]
          exact hend j memindex mem hj' ⟨by omega, hlast⟩ hJ
    next hi =>
      obtain rfl : j = metaRadix := by
        have := index_le_skipOf.not.mp hi
        omega
      have hindex : metaRadix * (skipOf h + 1) + 1 = skipOf (h + 1) + 1 := by
        rw [skipOf, Nat.mul_comm]
      rw [hindex]
      exact hfull memindex mem hlast hJ

theorem radixInitLoop_first_runs (hcnt : 0 < cnt) (hJ : J 0 0 mem) :
    (radixInitLoop child scan (radixOf h) (skipOf (h + 1)) (skipOf h + 1) turns 1 cnt 0).Runs P Q
      mem := by
  have hloop := radixInitLoop_runs (j := 0) (n := turns) (c := cnt) hchild hend hfull
    (Nat.zero_le _) (by decide) (by omega) (by omega) hJ
  rwa [Nat.zero_mul] at hloop

end Loop

theorem isEnd_unique {i : Nat} (hi : IsEnd h cnt i) (hj : IsEnd h cnt j) : i = j := by
  have hlt : i < j + 1 := by
    refine Nat.lt_of_mul_lt_mul_right (a := radixOf h) ?_
    rw [succ_mul]
    exact Nat.lt_of_lt_of_le hi.2 (Nat.add_le_add_right hj.1 _)
  have hgt : j < i + 1 := by
    refine Nat.lt_of_mul_lt_mul_right (a := radixOf h) ?_
    rw [succ_mul]
    exact Nat.lt_of_lt_of_le hj.2 (Nat.add_le_add_right hi.1 _)
  omega

theorem blstRadixInit_size (hlevels : h ≤ levels) (hcnt : 0 < cnt) :
    (blstRadixInit levels none (radixOf h) (skipOf h) cnt).Runs P
      (fun memindex mem' => mem' = mem ∧ memindex ≤ skipOf h + 1 ∧
        ∀ scan a, Entry h scan cnt a → a ≤ scan + memindex) mem := by
  induction h generalizing levels cnt mem with
  | zero =>
    rw [blstRadixInit.eq_def]
    dsimp only
    rw [if_pos (radixOf_eq_bmapRadix.mpr rfl)]
    exact ⟨rfl, Nat.zero_le _, fun scan a he => Nat.le_of_eq he⟩
  | succ h ih =>
    obtain ⟨levels, rfl⟩ := exists_level hlevels
    rw [blstRadixInit, if_neg (radixOf_eq_bmapRadix.not.mpr (succ_ne_zero h))]
    dsimp only
    rw [radixOf_succ_div, skipOf_succ_div, Nat.add_sub_cancel, Prog.runs_bind]
    refine radixInitLoop_first_runs
      (J := fun j memindex mem' => mem' = mem ∧ memindex ≤ j * (skipOf h + 1) + 1 ∧
        ∀ i < j, ∀ scan a, Entry h (sub scan h i) (subCnt h cnt i) a → a ≤ scan + memindex)
      ?_ ?_ ?_ hcnt ⟨rfl, Nat.zero_le _, fun i hi => absurd hi (Nat.not_lt_zero i)⟩
    · rintro j memindex _ hj hlt ⟨rfl, hmem, hsofar⟩
      refine (ih (by omega) (subCnt_pos hlt)).mono fun m mem' ⟨hsame, hm, hreach⟩ => ?_
      refine ⟨hsame, by rw [succ_mul]; omega, fun i hi scan a he => ?_⟩
      rcases Nat.lt_succ_iff_lt_or_eq.mp hi with hlt' | rfl
      · have := hsofar i hlt' scan a he
        omega
      · have := hreach _ a he
        rw [sub] at this
        omega
    · rintro j memindex _ hj hends ⟨rfl, hmem, hsofar⟩
      have hindex := (index_le_skipOf (h := h)).mpr hj
      refine ⟨rfl, by omega, fun scan a he => ?_⟩
      rcases he with rfl | ⟨i, hi, ⟨hlt, he⟩ | ⟨hend, rfl⟩⟩
      · exact Nat.le_add_right _ _
      · have := hsofar i (lt_of_mul_radix hlt hends.1) scan a he
        omega
      · obtain rfl := isEnd_unique hend hends
        rw [sub]
        omega
    · rintro memindex _ hfull ⟨rfl, hmem, hsofar⟩
      have hindex : metaRadix * (skipOf h + 1) = skipOf (h + 1) := by rw [skipOf, Nat.mul_comm]
      refine ⟨rfl, by omega, fun scan a he => ?_⟩
      rcases he with rfl | ⟨i, hi, ⟨-, he⟩ | ⟨-, rfl⟩⟩
      · exact Nat.le_add_right _ _
      · have := hsofar i hi scan a he
        omega
      · have := sub_le scan h hi
        omega

theorem blstRadixInit_fences (hlevels : h ≤ levels) (hcnt : 0 < cnt)
    (hP : ∀ a, Entry h scan cnt a → P a) :
    (blstRadixInit levels (some scan) (radixOf h) (skipOf h) cnt).Runs P
      (fun _ mem' => Apart mem mem' scan h ∧ Fenced mem' h scan cnt) mem := by
  induction h generalizing levels cnt mem scan with
  | zero =>
    rw [blstRadixInit.eq_def]
    dsimp only
    rw [if_pos (radixOf_eq_bmapRadix.mpr rfl)]
    have hscan := hP _ (.head _ _ _)
    refine ⟨hscan, hscan, .set _ _ _ _, ?_⟩
    show (update mem scan _ scan).bmBighint < terminator
    rw [update_self]
    exact (by decide : 0 < terminator)
  | succ h ih =>
    obtain ⟨levels, rfl⟩ := exists_level hlevels
    rw [blstRadixInit, if_neg (radixOf_eq_bmapRadix.not.mpr (succ_ne_zero h))]
    dsimp only
    rw [radixOf_succ_div, skipOf_succ_div, Nat.add_sub_cancel, Prog.runs_bind]
    have hscan := hP _ (.head _ _ _)
    refine ⟨hscan, hscan, ?_⟩
    refine radixInitLoop_first_runs
      (J := fun j _ mem' => Apart mem mem' scan (h + 1) ∧ (mem' scan).bmBighint < terminator ∧
        ∀ i < j, Fenced mem' h (sub scan h i) (subCnt h cnt i))
      ?_ ?_ ?_ hcnt ⟨.set _ _ _ _, ?_, fun i hi => absurd hi (Nat.not_lt_zero i)⟩
    rotate_left 3
    · show (update mem scan _ scan).bmBighint < terminator
      rw [update_self]
      exact (by decide : 0 < terminator)
    · rintro j _ mem' hj hlt ⟨hapart, hlive, hsofar⟩
      refine (ih (by omega) (subCnt_pos hlt) fun a ha => hP a (.sub hj hlt ha)).mono
        fun _ mem'' ⟨hapart', hfenced⟩ => ?_
      refine ⟨hapart.trans (.of_sub hj hapart'), hapart'.head ▸ hlive, fun i hi => ?_⟩
      rcases Nat.lt_succ_iff_lt_or_eq.mp hi with hlt' | rfl
      · exact (hsofar i hlt').same (hapart'.same (Nat.ne_of_lt hlt'))
      · exact hfenced
    · rintro j _ mem' hj hends ⟨hapart, hlive, hsofar⟩
      have hentry := hP _ (.inr ⟨j, hj, .inr ⟨hends, rfl⟩⟩)
      have hset := Apart.set mem' (sub scan h j) h
        { mem' (sub scan h j) with bmBighint := terminator }
      have hsame := congrArg BlMeta.bmBighint hset.head
      refine ⟨hentry, hentry, hapart.trans (.of_sub hj hset), hsame.trans_lt hlive,
        fun i hi => ⟨fun hlt => ?_, fun hend => ?_⟩⟩
      · have hij := lt_of_mul_radix hlt hends.1
        exact (hsofar i hij).same (hset.same (Nat.ne_of_lt hij))
      · rw [isEnd_unique hend hends]
        show (update mem' (sub scan h j) _ (sub scan h j)).bmBighint = terminator
        rw [update_self]
    · rintro _ mem' hfull ⟨hapart, hlive, hsofar⟩
      refine ⟨hapart, hlive, fun i hi => ⟨fun _ => hsofar i hi, fun hend => ?_⟩⟩
      have hmul := Nat.mul_le_mul_right (radixOf h) (succ_le_of_lt hi)
      have := hend.1
      rw [succ_mul] at hmul
      omega

end Create

end Mbsd.Kern.SubrBlist.Access
