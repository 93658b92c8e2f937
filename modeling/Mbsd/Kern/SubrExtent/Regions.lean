import Mathlib.Data.List.Pairwise
import Mathlib.Order.Basic
import Mbsd.Kern.SubrExtent.Model

/-! Region lists that are in order: insertion into a gap, and `extent_free`. -/

namespace Mbsd.Kern.SubrExtent

open List

namespace Region

def lo (r : Region) : Nat := r.erStart.toNat

def hi (r : Region) : Nat := r.erEnd.toNat

end Region

def Region.Before (a b : Region) : Prop := a.hi < b.lo

def Held (l : List Region) (x : Nat) : Prop := ∃ r ∈ l, r.lo ≤ x ∧ x ≤ r.hi

structure Extent.Ok (ex : Extent) : Prop where
  sorted : ex.exRegions.Pairwise Region.Before
  valid : ∀ r ∈ ex.exRegions, r.lo ≤ r.hi
  inside : ∀ r ∈ ex.exRegions, ex.exStart.toNat ≤ r.lo ∧ r.hi ≤ ex.exEnd.toNat

structure Gap (ex : Extent) (start size : BitVec 64) (before rest : List Region) : Prop where
  regions : ex.exRegions = before ++ rest
  size_pos : 1 ≤ size.toNat
  start_le : ex.exStart.toNat ≤ start.toNat
  le_end : start.toNat + (size.toNat - 1) ≤ ex.exEnd.toNat
  before_lt : ∀ r ∈ before, r.hi < start.toNat
  lt_rest : ∀ r ∈ rest, start.toNat + (size.toNat - 1) < r.lo

variable {ex : Extent} {start size stop : BitVec 64} {before rest l p m s : List Region}
  {r after nextr : Region} {x : Nat}

theorem held_append : Held (p ++ s) x ↔ Held p x ∨ Held s x := by
  simp only [Held, mem_append, or_and_right, exists_or]

theorem held_cons : Held (r :: l) x ↔ (r.lo ≤ x ∧ x ≤ r.hi) ∨ Held l x := by
  simp only [Held, mem_cons, or_and_right, exists_or, exists_eq_left]

theorem held_merge {P : Prop} (h : r.lo ≤ x ∧ x ≤ r.hi ↔ Held m x ∨ P) :
    Held (p ++ r :: s) x ↔ Held (p ++ (m ++ s)) x ∨ P := by
  rw [held_append, held_cons, h, held_append, held_append]
  tauto

theorem held_nil : ¬Held [] x := by
  rintro ⟨r, hr, -⟩
  exact not_mem_nil hr

theorem Extent.Ok.replace (h : ex.Ok) (hl : ex.exRegions = p ++ m ++ s) (hvalid : r.lo ≤ r.hi)
    (hstart : ex.exStart.toNat ≤ r.lo) (hend : r.hi ≤ ex.exEnd.toNat) (hp : ∀ a ∈ p, a.hi < r.lo)
    (hs : ∀ a ∈ s, r.hi < a.lo) : { ex with exRegions := p ++ r :: s }.Ok := by
  obtain ⟨hsorted, hvalids, hinside⟩ := h
  rw [hl] at hsorted hvalids hinside
  obtain ⟨hpm, hsorted_s, hps⟩ := pairwise_append.mp hsorted
  have hmem : ∀ a ∈ p ++ r :: s, a = r ∨ a ∈ p ++ m ++ s := by
    intro a ha
    rcases mem_append.mp ha with ha | ha
    · exact .inr (mem_append_left _ (mem_append_left _ ha))
    · rcases mem_cons.mp ha with rfl | ha
      · exact .inl rfl
      · exact .inr (mem_append_right _ ha)
  refine ⟨?_, fun a ha => ?_, fun a ha => ?_⟩
  · refine pairwise_append.mpr ⟨(pairwise_append.mp hpm).1,
      pairwise_cons.mpr ⟨hs, hsorted_s⟩, fun a ha b hb => ?_⟩
    rcases mem_cons.mp hb with rfl | hb
    · exact hp a ha
    · exact hps a (mem_append_left _ ha) b hb
  · rcases hmem a ha with rfl | ha
    · exact hvalid
    · exact hvalids a ha
  · rcases hmem a ha with rfl | ha
    · exact ⟨hstart, hend⟩
    · exact hinside a ha

theorem toNat_stop (h : 1 ≤ size.toNat) (hlt : start.toNat + (size.toNat - 1) < 2 ^ 64) :
    (start + (size - 1)).toNat = start.toNat + (size.toNat - 1) := by
  have hone : (size - 1).toNat = size.toNat - 1 :=
    BitVec.toNat_sub_of_le (BitVec.le_def.mpr h)
  rw [BitVec.toNat_add, hone]
  exact Nat.mod_eq_of_lt hlt

theorem toNat_stop_of_le (h : 1 ≤ size.toNat) (hle : start.toNat ≤ (start + (size - 1)).toNat) :
    (start + (size - 1)).toNat = start.toNat + (size.toNat - 1) := by
  apply toNat_stop h
  by_contra hwrap
  have hone : (size - 1).toNat = size.toNat - 1 :=
    BitVec.toNat_sub_of_le (BitVec.le_def.mpr h)
  rw [BitVec.toNat_add, hone] at hle
  omega

theorem toNat_add_one (h : start.toNat + 1 < 2 ^ 64) : (start + 1).toNat = start.toNat + 1 := by
  rw [BitVec.toNat_add]
  exact Nat.mod_eq_of_lt h

inductive Inserted (start size : BitVec 64) (before rest : List Region) : List Region → Prop
  | alone : Inserted start size before rest (before ++ ⟨start, start + (size - 1)⟩ :: rest)
  | appended {p : List Region} {after : Region} :
      before = p ++ [after] → after.erEnd + 1 = start →
      Inserted start size before rest (p ++ ⟨after.erStart, start + (size - 1)⟩ :: rest)
  | prepended {nextr : Region} {s : List Region} :
      rest = nextr :: s → start + size = nextr.erStart →
      Inserted start size before rest (before ++ ⟨start, nextr.erEnd⟩ :: s)
  | joined {p s : List Region} {after nextr : Region} :
      before = p ++ [after] → rest = nextr :: s → after.erEnd + 1 = start →
      start + size = nextr.erStart →
      Inserted start size before rest (p ++ ⟨after.erStart, nextr.erEnd⟩ :: s)

theorem inserted (ex : Extent) (start size : BitVec 64) (before rest : List Region) :
    Inserted start size before rest (extentInsertAndOptimize ex start size before rest) := by
  unfold extentInsertAndOptimize
  cases hbefore : before.getLast? with
  | none =>
    obtain rfl := getLast?_eq_none_iff.mp hbefore
    cases rest with
    | nil => exact .alone
    | cons nextr s =>
      dsimp only
      split
      next h =>
        rw [Bool.and_eq_true, decide_eq_true_iff] at h
        exact .prepended rfl h.2
      next => exact .alone
  | some after =>
    obtain ⟨p, rfl⟩ := getLast?_eq_some_iff.mp hbefore
    rw [dropLast_concat]
    dsimp only
    split
    next => exact .alone
    next =>
      cases rest with
      | nil =>
        dsimp only
        split
        next h => exact .appended rfl (of_decide_eq_true h)
        next => exact .alone
      | cons nextr s =>
        dsimp only
        split
        next hnext =>
          split
          next h => exact .joined rfl rfl (of_decide_eq_true h) hnext
          next => exact .prepended rfl hnext
        next =>
          split
          next h => exact .appended rfl (of_decide_eq_true h)
          next => exact .alone

theorem Extent.Ok.before_of_append (h : ex.Ok) (hl : ex.exRegions = p ++ r :: s) :
    (∀ a ∈ p, a.hi < r.lo) ∧ (∀ a ∈ s, r.hi < a.lo) ∧ r.lo ≤ r.hi ∧
      ex.exStart.toNat ≤ r.lo ∧ r.hi ≤ ex.exEnd.toNat := by
  have hsorted := h.sorted
  rw [hl] at hsorted
  obtain ⟨-, htail, hp⟩ := pairwise_append.mp hsorted
  have hmem : r ∈ ex.exRegions := hl ▸ mem_append_right _ mem_cons_self
  exact ⟨fun a ha => hp a ha r mem_cons_self, (pairwise_cons.mp htail).1,
    h.valid r hmem, h.inside r hmem⟩

theorem Extent.Ok.insert (h : ex.Ok) (g : Gap ex start size before rest) :
    { ex with exRegions := extentInsertAndOptimize ex start size before rest }.Ok ∧
      ∀ x, Held (extentInsertAndOptimize ex start size before rest) x ↔
        Held ex.exRegions x ∨ start.toNat ≤ x ∧ x ≤ start.toNat + (size.toNat - 1) := by
  obtain ⟨hl, hpos, hstart, hend, hbefore, hrest⟩ := g
  have hstop : (start + (size - 1)).toNat = start.toNat + (size.toNat - 1) :=
    toNat_stop hpos (by omega)
  have hprev : ∀ a : Region, a.hi < start.toNat → a.erEnd + 1 = start →
      a.hi + 1 = start.toNat := by
    intro a ha heq
    rw [← heq]
    exact (toNat_add_one (by rw [Region.hi] at ha; omega)).symm
  have hnext : ∀ a : Region, start.toNat + (size.toNat - 1) < a.lo → start + size = a.erStart →
      start.toNat + size.toNat = a.lo := by
    intro a ha heq
    rw [Region.lo] at ha ⊢
    rw [← heq, BitVec.toNat_add, Nat.mod_eq_of_lt (by omega)]
  have hins := inserted ex start size before rest
  generalize extentInsertAndOptimize ex start size before rest = l at hins
  cases hins with
  | alone =>
    refine ⟨?_, fun x => ?_⟩
    · apply h.replace (m := []) (by rw [List.append_nil, hl])
      · simp only [Region.lo, Region.hi, hstop]
        omega
      · exact hstart
      · exact hstop.trans_le hend
      · exact hbefore
      · exact fun a ha => hstop.trans_lt (hrest a ha)
    · rw [hl, held_append, held_append, held_cons]
      simp only [Region.lo, Region.hi, hstop]
      rw [or_left_comm, or_comm]
  | @appended p after hp heq =>
    subst hp
    rw [List.append_assoc, List.singleton_append] at hl
    obtain ⟨hpafter, -, hvalid, hlow, -⟩ := h.before_of_append hl
    have hmem : after ∈ p ++ [after] := List.mem_append_right _ List.mem_cons_self
    have hadj := hprev after (hbefore after hmem) heq
    refine ⟨?_, fun x => ?_⟩
    · apply h.replace (m := [after]) (by rw [hl, List.append_assoc, List.singleton_append])
      · simp only [Region.lo, Region.hi, hstop] at *
        omega
      · exact hlow
      · exact hstop.trans_le hend
      · exact hpafter
      · exact fun a ha => hstop.trans_lt (hrest a ha)
    · rw [hl]
      refine held_merge (m := [after]) ?_
      simp only [Held, mem_singleton, exists_eq_left, Region.lo, Region.hi, hstop] at *
      omega
  | @prepended nextr s hs heq =>
    subst hs
    obtain ⟨-, hnexts, hvalid, -, hhigh⟩ := h.before_of_append hl
    have hadj := hnext nextr (hrest nextr List.mem_cons_self) heq
    refine ⟨?_, fun x => ?_⟩
    · apply h.replace (m := [nextr]) (by rw [hl, List.append_assoc, List.singleton_append])
      · simp only [Region.lo, Region.hi] at *
        omega
      · exact hstart
      · exact hhigh
      · exact hbefore
      · exact hnexts
    · rw [hl]
      refine held_merge (m := [nextr]) ?_
      simp only [Held, mem_singleton, exists_eq_left, Region.lo, Region.hi] at *
      omega
  | @joined p s after nextr hp hs hafter heq =>
    subst hp hs
    have hl' : ex.exRegions = (p ++ [after]) ++ nextr :: s := hl
    rw [List.append_assoc, List.singleton_append] at hl
    obtain ⟨hpafter, -, hvalid, hlow, -⟩ := h.before_of_append hl
    obtain ⟨-, hnexts, hvalid', -, hhigh⟩ := h.before_of_append hl'
    have hmem : after ∈ p ++ [after] := List.mem_append_right _ List.mem_cons_self
    have hadj := hprev after (hbefore after hmem) hafter
    have hadj' := hnext nextr (hrest nextr List.mem_cons_self) heq
    refine ⟨?_, fun x => ?_⟩
    · apply h.replace (m := [after, nextr]) (by rw [hl, List.append_assoc]; rfl)
      · simp only [Region.lo, Region.hi] at *
        omega
      · exact hlow
      · exact hhigh
      · exact hpafter
      · exact hnexts
    · rw [hl]
      refine held_merge (m := [after, nextr]) ?_
      simp only [Held, mem_cons, not_mem_nil, or_false, exists_eq_or_imp, exists_eq_left,
        Region.lo, Region.hi] at *
      omega

structure Shrunk (l l' : List Region) : Prop where
  sorted : l'.Pairwise Region.Before
  valid : ∀ r ∈ l', r.lo ≤ r.hi
  within : ∀ r ∈ l', ∃ a ∈ l, a.lo ≤ r.lo ∧ r.hi ≤ a.hi

theorem Shrunk.refl (hsorted : l.Pairwise Region.Before) (hvalid : ∀ r ∈ l, r.lo ≤ r.hi) :
    Shrunk l l :=
  ⟨hsorted, hvalid, fun r hr => ⟨r, hr, Nat.le_refl _, Nat.le_refl _⟩⟩

variable {l' : List Region} {r' : Region}

theorem Shrunk.skip (h : Shrunk l l') (r : Region) : Shrunk (r :: l) l' :=
  { h with within := fun a ha =>
      (h.within a ha).imp fun _ hb => ⟨mem_cons_of_mem _ hb.1, hb.2⟩ }

theorem Shrunk.cons (h : Shrunk l l') (hr : ∀ a ∈ l, r.Before a) (hvalid : r'.lo ≤ r'.hi)
    (hlo : r.lo ≤ r'.lo) (hhi : r'.hi ≤ r.hi) : Shrunk (r :: l) (r' :: l') := by
  refine ⟨pairwise_cons.mpr ⟨fun a ha => ?_, h.sorted⟩, fun a ha => ?_, fun a ha => ?_⟩
  · obtain ⟨b, hb, hlob, -⟩ := h.within a ha
    have hrb := hr b hb
    rw [Region.Before] at hrb ⊢
    omega
  · rcases mem_cons.mp ha with rfl | ha
    · exact hvalid
    · exact h.valid a ha
  · rcases mem_cons.mp ha with rfl | ha
    · exact ⟨r, mem_cons_self, hlo, hhi⟩
    · exact (h.skip r).within a ha

inductive Rest (r : Region) : List Region → Prop
  | none : Rest r []
  | one {r' : Region} : r.lo ≤ r'.lo → r'.lo ≤ r'.hi → r'.hi ≤ r.hi → Rest r [r']
  | two {a b : Region} : r.lo ≤ a.lo → a.lo ≤ a.hi → a.Before b → b.lo ≤ b.hi → b.hi ≤ r.hi →
      Rest r [a, b]

theorem Shrunk.keep {kept : List Region} (h : Shrunk l l') (hr : ∀ a ∈ l, r.Before a)
    (hrest : Rest r kept) : Shrunk (r :: l) (kept ++ l') := by
  cases hrest with
  | none => exact h.skip r
  | one hlo hvalid hhi => exact h.cons hr hvalid hlo hhi
  | @two a b hlo hvalid hab hvalid' hhi =>
    rw [Region.Before] at hab
    have hb := h.cons hr hvalid' (by omega) hhi
    refine ⟨pairwise_cons.mpr ⟨fun c hc => ?_, hb.sorted⟩, fun c hc => ?_, fun c hc => ?_⟩
    · rcases mem_cons.mp hc with rfl | hc
      · exact hab
      · have := (pairwise_cons.mp hb.sorted).1 c hc
        rw [Region.Before] at this ⊢
        omega
    · rcases mem_cons.mp hc with rfl | hc
      · exact hvalid
      · exact hb.valid c hc
    · rcases mem_cons.mp hc with rfl | hc
      · exact ⟨r, mem_cons_self, hlo, by omega⟩
      · exact hb.within c hc

theorem toNat_sub_one (h : 0 < start.toNat) : (start - 1).toNat = start.toNat - 1 :=
  BitVec.toNat_sub_of_le (BitVec.le_def.mpr h)

def FreeStep.All (C : List Region → Prop) : FreeStep → Prop
  | .next kept => C kept
  | .stop => True
  | .done kept => C kept

theorem FreeStep.All.ite {C : List Region → Prop} {c : Prop} [Decidable c] {t e : FreeStep}
    (ht : c → t.All C) (he : ¬c → e.All C) : (if c then t else e).All C := by
  by_cases h : c
  · rw [if_pos h]
    exact ht h
  · rw [if_neg h]
    exact he h

theorem rest_right (hlo : r.lo ≤ stop.toNat) (hhi : stop.toNat < r.hi) :
    Rest r [{ r with erStart := stop + 1 }] := by
  rw [Region.hi] at hhi
  have hnew : (stop + 1).toNat = stop.toNat + 1 := toNat_add_one (by omega)
  refine .one ?_ ?_ ?_ <;> simp only [Region.lo, Region.hi, hnew] at * <;> omega

theorem rest_left (hlo : r.lo < start.toNat) (hhi : start.toNat ≤ r.hi) :
    Rest r [{ r with erEnd := start - 1 }] := by
  have hnew : (start - 1).toNat = start.toNat - 1 := toNat_sub_one (by omega)
  refine .one ?_ ?_ ?_ <;> simp only [Region.lo, Region.hi, hnew] at * <;> omega

theorem rest_split (hlo : r.lo < start.toNat) (hle : start.toNat ≤ stop.toNat)
    (hhi : stop.toNat < r.hi) :
    Rest r [{ r with erEnd := start - 1 }, { erStart := stop + 1, erEnd := r.erEnd }] := by
  rw [Region.hi] at hhi
  have hnew : (stop + 1).toNat = stop.toNat + 1 := toNat_add_one (by omega)
  have hnew' : (start - 1).toNat = start.toNat - 1 := toNat_sub_one (by omega)
  refine .two ?_ ?_ ?_ ?_ ?_ <;>
    simp only [Region.Before, Region.lo, Region.hi, hnew, hnew'] at * <;> omega

theorem freeRegion_rest (nocoalesce conflictok : Bool) (hstop : start.toNat ≤ stop.toNat)
    (hvalid : r.lo ≤ r.hi) : (freeRegion nocoalesce conflictok start stop r).All (Rest r) := by
  have hself : Rest r [r] := .one (Nat.le_refl _) hvalid (Nat.le_refl _)
  rw [freeRegion]
  refine .ite (fun _ => hself) fun hbefore => ?_
  rw [BitVec.lt_def, Nat.not_lt] at hbefore
  refine .ite (fun _ => trivial) fun hbehind => ?_
  rw [gt_iff_lt, BitVec.lt_def, Nat.not_lt] at hbehind
  refine .ite (fun _ => .none) fun hone => .ite (fun _ => hself) fun _ => ?_
  rw [← BitVec.toNat_inj, ← BitVec.toNat_inj] at hone
  refine .ite (fun htwo => rest_right hbehind (BitVec.lt_def.mp htwo.2)) fun htwo => ?_
  rw [← BitVec.toNat_inj, BitVec.lt_def] at htwo
  refine .ite (fun hthree => rest_left (BitVec.lt_def.mp hthree.1) hbefore) fun hthree => ?_
  rw [gt_iff_lt, BitVec.lt_def, ← BitVec.toNat_inj] at hthree
  refine .ite (fun hfour => rest_split (BitVec.lt_def.mp hfour.1) hstop (BitVec.lt_def.mp hfour.2))
    fun hfour => ?_
  rw [gt_iff_lt, BitVec.lt_def, BitVec.lt_def] at hfour
  refine .ite (fun _ => hself) fun _ => .ite (fun _ => .none) fun hpart => ?_
  rw [ge_iff_le, BitVec.le_def, BitVec.le_def] at hpart
  -- a region that reaches out on one side only
  by_cases hleft : start.toNat ≤ r.erStart.toNat
  · have hin : start ≤ r.erStart ∧ stop ≥ r.erStart :=
      ⟨BitVec.le_def.mpr hleft, BitVec.le_def.mpr hbehind⟩
    have hout : ¬(start ≤ r.erEnd ∧ stop ≥ r.erEnd) := by
      rw [ge_iff_le, BitVec.le_def, BitVec.le_def]
      omega
    simp only [if_pos hin, if_neg hout]
    exact rest_right hbehind (by rw [Region.hi]; omega)
  · have hout : ¬(start ≤ r.erStart ∧ stop ≥ r.erStart) := fun h => hleft (BitVec.le_def.mp h.1)
    have hin : start ≤ r.erEnd ∧ stop ≥ r.erEnd := by
      rw [ge_iff_le, BitVec.le_def, BitVec.le_def]
      omega
    simp only [if_pos hin, if_neg hout]
    exact rest_left (Nat.lt_of_not_le hleft) hbefore

theorem freeLoop_shrunk (nocoalesce conflictok : Bool) (hstop : start.toNat ≤ stop.toNat)
    (hsorted : l.Pairwise Region.Before) (hvalid : ∀ r ∈ l, r.lo ≤ r.hi) :
    Shrunk l (freeLoop nocoalesce conflictok start stop l).1 := by
  induction l with
  | nil => exact .refl hsorted hvalid
  | cons r l ih =>
    have hself := Shrunk.refl hsorted hvalid
    obtain ⟨hr, hsorted⟩ := pairwise_cons.mp hsorted
    have hrest := freeRegion_rest nocoalesce conflictok hstop (hvalid r mem_cons_self)
    have hvalid : ∀ a ∈ l, a.lo ≤ a.hi := fun a ha => hvalid a (mem_cons_of_mem _ ha)
    rw [freeLoop]
    cases hstep : freeRegion nocoalesce conflictok start stop r with
    | next kept =>
      rw [hstep] at hrest
      exact (ih hsorted hvalid).keep hr hrest
    | stop => exact hself
    | done kept =>
      rw [hstep] at hrest
      exact (Shrunk.refl hsorted hvalid).keep hr hrest

end Mbsd.Kern.SubrExtent
