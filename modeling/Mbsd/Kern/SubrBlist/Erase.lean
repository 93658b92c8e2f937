import Mbsd.Kern.SubrBlist.Access
import Mbsd.Kern.SubrBlist.Create

/-! With the accesses left out, `blist_create` computes what the function of the model does. -/

namespace Mbsd.Kern.SubrBlist.Access

open Lib.CellProg Prog Nat

variable {mem : BlMem} {scan skip nextSkip radix n i : Nat} {child : (i count : Nat) → BlProg Nat}
  {child' : BlMem → (i count : Nat) → BlMem × Nat}

theorem turns_enough (h : Nat) (hi : 0 < i) :
    skipOf (h + 1) < i + metaRadix * (skipOf h + 1) := by
  rw [skipOf, Nat.mul_comm]
  omega

section Init

variable {c memindex levels h : Nat} {mem' : BlMem}

theorem gives_radixInitLoop
    (hchild : ∀ mem i c, (child i c).Gives mem (· = some (child' mem i c).swap))
    (hn : skip < i + n * nextSkip) :
    (radixInitLoop child (some scan) radix skip nextSkip (n + 1) i c memindex).Gives mem
      (· = some (SubrBlist.radixInitLoop child' scan radix skip nextSkip n mem i c
        memindex).swap) := by
  induction n generalizing mem i c memindex with
  | zero =>
    rw [radixInitLoop, if_neg (by omega), SubrBlist.radixInitLoop]
    exact gives_pure.mpr rfl
  | succ n ih =>
    have hnext : skip < i + nextSkip + n * nextSkip := by
      rw [succ_mul] at hn
      omega
    have hrec : ∀ v c', (child i v >>= fun m => radixInitLoop child (some scan) radix skip nextSkip
        (n + 1) (i + nextSkip) c' (i + m)).Gives mem
        (· = some (SubrBlist.radixInitLoop child' scan radix skip nextSkip n (child' mem i v).1
          (i + nextSkip) c' (i + (child' mem i v).2)).swap) := fun v c' =>
      (hchild mem i v).bind (by simp) fun m mem' hr => by
        cases hr
        exact ih hnext
    rw [radixInitLoop, SubrBlist.radixInitLoop]
    split
    next =>
      split
      next => exact hrec radix _
      next =>
        split
        next => exact hrec c 0
        next => exact gives_modify_bind.mpr (gives_pure.mpr rfl)
    next => exact gives_pure.mpr rfl

theorem gives_blstRadixInit : (blstRadixInit levels (some scan) (radixOf h) (skipOf h) c).Gives mem
      (· = some (SubrBlist.blstRadixInit levels mem scan (radixOf h) (skipOf h) c).swap) := by
  induction levels generalizing h mem scan c with
  | zero =>
    rw [blstRadixInit, SubrBlist.blstRadixInit]
    split
    next => exact gives_modify_bind.mpr (gives_pure.mpr rfl)
    next => exact gives_outOfFuel
  | succ levels ih =>
    rw [blstRadixInit, SubrBlist.blstRadixInit]
    split
    next => exact gives_modify_bind.mpr (gives_pure.mpr rfl)
    next hradix =>
      obtain ⟨h, rfl⟩ := exists_eq_succ_of_ne_zero (radixOf_eq_bmapRadix.not.mp hradix)
      dsimp only
      rw [radixOf_succ_div, skipOf_succ_div, Nat.add_sub_cancel]
      exact gives_modify_bind.mpr (gives_radixInitLoop (n := metaRadix) (fun mem i c => ih)
        (turns_enough h Nat.one_pos))

theorem gives_radixInitLoop_size
    (hchild : ∀ mem mem' i c, (child i c).Gives mem (· = some ((child' mem' i c).2, mem)))
    (hn : skip < i + n * nextSkip) :
    (radixInitLoop child none radix skip nextSkip (n + 1) i c memindex).Gives mem
      (· = some ((SubrBlist.radixInitLoop child' scan radix skip nextSkip n mem' i c memindex).2,
        mem)) := by
  induction n generalizing mem' i c memindex with
  | zero =>
    rw [radixInitLoop, if_neg (by omega), SubrBlist.radixInitLoop]
    exact gives_pure.mpr rfl
  | succ n ih =>
    have hnext : skip < i + nextSkip + n * nextSkip := by
      rw [succ_mul] at hn
      omega
    have hrec : ∀ v c', (child i v >>= fun m => radixInitLoop child none radix skip nextSkip
        (n + 1) (i + nextSkip) c' (i + m)).Gives mem
        (· = some ((SubrBlist.radixInitLoop child' scan radix skip nextSkip n (child' mem' i v).1
          (i + nextSkip) c' (i + (child' mem' i v).2)).2, mem)) := fun v c' =>
      (hchild mem mem' i v).bind (by simp) fun m mem₁ hr => by
        cases hr
        exact ih hnext
    rw [radixInitLoop, SubrBlist.radixInitLoop]
    split
    next =>
      split
      next => exact hrec radix _
      next =>
        split
        next => exact hrec c 0
        next => exact gives_pure.mpr rfl
    next => exact gives_pure.mpr rfl

theorem gives_blstRadixInit_size (mem' : BlMem) (scan : Nat) :
    (blstRadixInit levels none (radixOf h) (skipOf h) c).Gives mem
      (· = some ((SubrBlist.blstRadixInit levels mem' scan (radixOf h) (skipOf h) c).2, mem)) := by
  induction levels generalizing h mem mem' scan c with
  | zero =>
    rw [blstRadixInit, SubrBlist.blstRadixInit]
    split
    next => exact gives_pure.mpr rfl
    next => exact gives_outOfFuel
  | succ levels ih =>
    rw [blstRadixInit, SubrBlist.blstRadixInit]
    split
    next => exact gives_pure.mpr rfl
    next hradix =>
      obtain ⟨h, rfl⟩ := exists_eq_succ_of_ne_zero (radixOf_eq_bmapRadix.not.mp hradix)
      dsimp only
      rw [radixOf_succ_div, skipOf_succ_div, Nat.add_sub_cancel]
      show (radixInitLoop (fun i c => blstRadixInit levels none (radixOf h) (skipOf h) c) none
        (radixOf h) (skipOf (h + 1)) (skipOf h + 1) turns 1 c 0).Gives mem _
      exact gives_radixInitLoop_size (n := metaRadix) (fun mem mem' i c => ih mem' (scan + i))
        (turns_enough h Nat.one_pos)

end Init

theorem gives_blistCreate {turns blocks : Nat} (hpos : 0 < blocks)
    (hblocks : blocks ≤ blistMaxblks) : (blistCreate turns blocks).Gives mem (fun r =>
      r.map (fun (bl, mem) => bl mem) = SubrBlist.blistCreate turns mem blocks) := by
  rw [blistCreate, SubrBlist.blistCreate, if_neg (Nat.ne_of_gt hpos), if_neg (Nat.ne_of_gt hpos)]
  have hcreate := createLoop_spec (n := turns) (i := 0) (Nat.zero_le _) hblocks
  cases hloop : createLoop blocks turns bmapRadix 0 with
  | none => exact gives_outOfFuel
  | some r =>
    rw [show createLoop blocks turns (radixOf 0) (skipOf 0) = some r from hloop] at hcreate
    obtain ⟨h, -, rfl, -⟩ := hcreate
    refine (gives_blstRadixInit_size mem 0).bind (by simp) fun memindex mem₁ hs => ?_
    cases hs
    refine gives_blstRadixInit.bind (by simp) fun memindex mem₁ hs => ?_
    cases hs
    exact gives_pure.mpr rfl


end Mbsd.Kern.SubrBlist.Access
