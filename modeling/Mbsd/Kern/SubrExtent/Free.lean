import Mbsd.Kern.SubrExtent.Conflict

/-! What `extent_free` leaves allocated, and `extent_free` behind `extent_alloc_region`. -/

namespace Mbsd.Kern.SubrExtent

open List BitVec Region

variable {ex ex' : Extent} {start size stop : BitVec 64} {before rest l : List Region} {r : Region} {x : Nat}
  {flags flags' : BitVec 32} {descr descr' conflictok : Bool}

theorem held_singleton : Held [r] x ↔ r.lo ≤ x ∧ x ≤ r.hi :=
  held_cons.trans (or_iff_left held_nil)

/-- What stays of the region is what lies outside the range; the loop ends only where it may. -/
def FreeStep.Frees (start stop : BitVec 64) (r : Region) : FreeStep → Prop
  | .next kept =>
    ¬(r.lo ≤ start.toNat ∧ stop.toNat ≤ r.hi) ∧
      ∀ x, Held kept x ↔ (r.lo ≤ x ∧ x ≤ r.hi) ∧ ¬(start.toNat ≤ x ∧ x ≤ stop.toNat)
  | .stop => stop.toNat < r.lo
  | .done kept =>
    (r.lo ≤ start.toNat ∧ stop.toNat ≤ r.hi) ∧
      ∀ x, Held kept x ↔ (r.lo ≤ x ∧ x ≤ r.hi) ∧ ¬(start.toNat ≤ x ∧ x ≤ stop.toNat)

theorem held_right (hlo : start.toNat ≤ r.lo) (hin : r.lo ≤ stop.toNat) (hhi : stop.toNat < r.hi) :
    Held [{ r with erStart := stop + 1 }] x ↔
      (r.lo ≤ x ∧ x ≤ r.hi) ∧ ¬(start.toNat ≤ x ∧ x ≤ stop.toNat) := by
  have hnew : (stop + 1).toNat = stop.toNat + 1 := toNat_add_one (by rw [hi] at hhi; omega)
  rw [held_singleton]
  simp only [lo, hi, hnew] at *
  omega

theorem held_left (hlo : r.lo < start.toNat) (hin : start.toNat ≤ r.hi) (hhi : r.hi ≤ stop.toNat) :
    Held [{ r with erEnd := start - 1 }] x ↔
      (r.lo ≤ x ∧ x ≤ r.hi) ∧ ¬(start.toNat ≤ x ∧ x ≤ stop.toNat) := by
  have hnew : (start - 1).toNat = start.toNat - 1 := toNat_sub_one (by omega)
  rw [held_singleton]
  simp only [lo, hi, hnew] at *
  omega

theorem held_split (hlo : r.lo < start.toNat) (hstop : start.toNat ≤ stop.toNat)
    (hhi : stop.toNat < r.hi) :
    Held [{ r with erEnd := start - 1 }, { erStart := stop + 1, erEnd := r.erEnd }] x ↔
      (r.lo ≤ x ∧ x ≤ r.hi) ∧ ¬(start.toNat ≤ x ∧ x ≤ stop.toNat) := by
  have hnew : (stop + 1).toNat = stop.toNat + 1 := toNat_add_one (by rw [hi] at hhi; omega)
  have hnew' : (start - 1).toNat = start.toNat - 1 := toNat_sub_one (by omega)
  rw [held_cons, held_singleton]
  simp only [lo, hi, hnew, hnew'] at *
  omega

theorem freeRegion_frees (hstop : start.toNat ≤ stop.toNat)
    (hr : conflictok = true ∨ r.hi < start.toNat ∨ r.lo ≤ start.toNat ∧ stop.toNat ≤ r.hi) :
    (freeRegion false conflictok start stop r).Frees start stop r := by
  have hnone : start.toNat ≤ r.lo → r.hi ≤ stop.toNat → ∀ x, Held [] x ↔
      (r.lo ≤ x ∧ x ≤ r.hi) ∧ ¬(start.toNat ≤ x ∧ x ≤ stop.toNat) := by
    intro hlo hhi x
    refine iff_of_false held_nil ?_
    omega
  rw [freeRegion]
  refine iteInduction (fun hbefore => ?_) fun hbefore => ?_
  · rw [lt_def] at hbefore
    have hends : r.hi < start.toNat := hbefore
    refine ⟨by omega, fun x => held_singleton.trans (and_iff_left_of_imp ?_).symm⟩
    omega
  rw [lt_def, Nat.not_lt] at hbefore
  refine iteInduction (fun hbehind => lt_def.mp hbehind) fun hbehind => ?_
  rw [gt_iff_lt, lt_def, Nat.not_lt] at hbehind
  refine iteInduction (fun hone => ?_) fun hone => ?_
  · rw [hone.1, hone.2]
    rw [hone.1, hone.2] at hnone
    exact ⟨⟨Nat.le_refl _, Nat.le_refl _⟩, hnone (Nat.le_refl _) (Nat.le_refl _)⟩
  rw [if_neg Bool.false_ne_true]
  refine iteInduction (fun htwo => ?_) fun htwo => ?_
  · rw [← toNat_inj, lt_def] at htwo
    exact ⟨⟨Nat.le_of_eq htwo.1.symm, Nat.le_of_lt htwo.2⟩,
      fun x => held_right (Nat.le_of_eq htwo.1) hbehind htwo.2⟩
  refine iteInduction (fun hthree => ?_) fun hthree => ?_
  · rw [← toNat_inj, gt_iff_lt, lt_def] at hthree
    exact ⟨⟨Nat.le_of_lt hthree.1, Nat.le_of_eq hthree.2⟩,
      fun x => held_left hthree.1 hbefore (Nat.le_of_eq hthree.2.symm)⟩
  refine iteInduction (fun hfour => ?_) fun hfour => ?_
  · rw [gt_iff_lt, lt_def, lt_def] at hfour
    exact ⟨⟨Nat.le_of_lt hfour.1, Nat.le_of_lt hfour.2⟩, fun x => held_split hfour.1 hstop hfour.2⟩
  -- the region overlaps the range, but does not contain it
  rw [← toNat_inj, ← toNat_inj] at hone
  rw [← toNat_inj, lt_def] at htwo
  rw [← toNat_inj, gt_iff_lt, lt_def] at hthree
  rw [gt_iff_lt, lt_def, lt_def] at hfour
  have hconflictok : conflictok = true := by
    rcases hr with hr | hr | hr
    · exact hr
    · rw [hi] at hr
      omega
    · rw [lo, hi] at hr
      omega
  have hin : ¬(r.lo ≤ start.toNat ∧ stop.toNat ≤ r.hi) := by
    rw [lo, hi]
    omega
  rw [hconflictok, Bool.not_true, if_neg Bool.false_ne_true]
  refine iteInduction (fun hcover => ?_) fun hcover => ?_
  · rw [ge_iff_le, le_def, le_def] at hcover
    exact ⟨hin, hnone hcover.1 hcover.2⟩
  rw [ge_iff_le, le_def, le_def] at hcover
  by_cases hleft : start.toNat ≤ r.erStart.toNat
  · have hfirst : start ≤ r.erStart ∧ stop ≥ r.erStart :=
      ⟨le_def.mpr hleft, le_def.mpr hbehind⟩
    have hlast : ¬(start ≤ r.erEnd ∧ stop ≥ r.erEnd) := by
      rw [ge_iff_le, le_def, le_def]
      omega
    simp only [if_pos hfirst, if_neg hlast]
    exact ⟨hin, fun x => held_right hleft hbehind (by rw [hi]; omega)⟩
  · have hfirst : ¬(start ≤ r.erStart ∧ stop ≥ r.erStart) :=
      fun h => hleft (le_def.mp h.1)
    have hlast : start ≤ r.erEnd ∧ stop ≥ r.erEnd := by
      rw [ge_iff_le, le_def, le_def]
      omega
    simp only [if_neg hfirst, if_pos hlast]
    exact ⟨hin, fun x => held_left (Nat.lt_of_not_le hleft) hbefore (by rw [hi]; omega)⟩

theorem freeLoop_frees (hstop : start.toNat ≤ stop.toNat) (hsorted : l.Pairwise Before)
    (hvalid : ∀ r ∈ l, r.lo ≤ r.hi)
    (hl : conflictok = true ∨ ∃ r ∈ l, r.lo ≤ start.toNat ∧ stop.toNat ≤ r.hi) :
    ((freeLoop false conflictok start stop l).2 = true ∨ conflictok = true) ∧
      ∀ x, Held (freeLoop false conflictok start stop l).1 x ↔
        Held l x ∧ ¬(start.toNat ≤ x ∧ x ≤ stop.toNat) := by
  induction l with
  | nil =>
    have hconflictok : conflictok = true := by
      rcases hl with hl | ⟨r, hr, -⟩
      · exact hl
      · exact absurd hr not_mem_nil
    exact ⟨.inr hconflictok, fun x => iff_of_false held_nil fun hx => held_nil hx.1⟩
  | cons r l ih =>
    obtain ⟨hr, hsorted⟩ := pairwise_cons.mp hsorted
    have hself := hvalid r mem_cons_self
    have hlater : ∀ a ∈ l, a.lo ≤ a.hi := fun a ha => hvalid a (mem_cons_of_mem _ ha)
    have hcase : (conflictok = true ∨ ∃ r ∈ l, r.lo ≤ start.toNat ∧ stop.toNat ≤ r.hi) ∨
        r.lo ≤ start.toNat ∧ stop.toNat ≤ r.hi := by
      rcases hl with hl | ⟨a, ha, hin⟩
      · exact .inl (.inl hl)
      · rcases mem_cons.mp ha with rfl | ha
        · exact .inr hin
        · exact .inl (.inr ⟨a, ha, hin⟩)
    have hstep : (freeRegion false conflictok start stop r).Frees start stop r := by
      refine freeRegion_frees hstop ?_
      rcases hcase with (hc | ⟨a, ha, hin⟩) | hin
      · exact .inl hc
      · exact .inr (.inl (Nat.lt_of_lt_of_le (hr a ha) hin.1))
      · exact .inr (.inr hin)
    -- the regions behind one that reaches to the end of the range
    have hbehind : stop.toNat ≤ r.hi → ∀ x, Held l x ↔
        Held l x ∧ ¬(start.toNat ≤ x ∧ x ≤ stop.toNat) := by
      intro hhi x
      refine (and_iff_left_of_imp ?_).symm
      rintro ⟨a, ha, hlo, -⟩
      have hlt := hr a ha
      rw [Before] at hlt
      omega
    rw [freeLoop]
    cases hfree : freeRegion false conflictok start stop r with
    | next kept =>
      rw [hfree] at hstep
      obtain ⟨hdone, hheld⟩ := ih hsorted hlater (hcase.resolve_right hstep.1)
      refine ⟨hdone, fun x => ?_⟩
      rw [held_append, held_cons, hstep.2, hheld, or_and_right]
    | stop =>
      rw [hfree] at hstep
      have hlo : ∀ a ∈ r :: l, stop.toNat < a.lo := by
        intro a ha
        rcases mem_cons.mp ha with rfl | ha
        · exact hstep
        · exact Nat.lt_trans (Nat.lt_of_lt_of_le hstep hself) (hr a ha)
      refine ⟨.inr ?_, fun x => (and_iff_left_of_imp ?_).symm⟩
      · rcases hl with hl | ⟨a, ha, hin⟩
        · exact hl
        · have := hlo a ha
          omega
      · rintro ⟨a, ha, hx⟩
        have := hlo a ha
        omega
    | done kept =>
      rw [hfree] at hstep
      obtain ⟨hin, hstep⟩ := hstep
      refine ⟨.inl rfl, fun x => ?_⟩
      rw [held_append, held_cons, hstep, or_and_right]
      exact or_congr_right (hbehind hin.2 x)

structure Freed (ex ex' : Extent) (start stop : BitVec 64) : Prop where
  ok : ex'.Ok
  held : ∀ x, Held ex'.exRegions x ↔
    Held ex.exRegions x ∧ ¬(start.toNat ≤ x ∧ x ≤ stop.toNat)

theorem extentFree_freed (flags : BitVec 32) (h : ex.Ok) (hcoalesce : ex.nocoalesce = false)
    (hstart : ex.exStart ≤ start) (hle : start ≤ start + (size - 1))
    (hend : start + (size - 1) ≤ ex.exEnd) (hheld : isset flags exConflictok = true ∨
      ∃ r ∈ ex.exRegions, r.lo ≤ start.toNat ∧ (start + (size - 1)).toNat ≤ r.hi) :
    ∃ ex', extentFree ex start size flags true = some (.done (), ex') ∧
      Freed ex ex' start (start + (size - 1)) := by
  obtain ⟨hdone, hfrees⟩ := freeLoop_frees (le_def.mp hle) h.sorted h.valid hheld
  have hargs : ¬(start < ex.exStart ∨ start + (size - 1) > ex.exEnd ∨
      start + (size - 1) < start) := by
    rw [gt_iff_lt, lt_def, lt_def, lt_def]
    rw [le_def] at hstart hle hend
    omega
  have hfound : (!(freeLoop false (isset flags exConflictok) start (start + (size - 1))
      ex.exRegions).2 && !isset flags exConflictok) = false := by
    rcases hdone with hdone | hdone
    · rw [hdone, Bool.not_true, Bool.false_and]
    · rw [hdone, Bool.not_true, Bool.and_false]
  have hcall : extentFree ex start size flags true = some (.done (), { ex with
      exRegions := (freeLoop false (isset flags exConflictok) start (start + (size - 1))
        ex.exRegions).1
      exFlags := ex.exFlags &&& ~~~exfWanted }) := by
    rw [extentFree]
    dsimp only
    rw [if_neg hargs, hcoalesce, if_neg (by decide), hfound, if_neg Bool.false_ne_true]
  exact ⟨_, hcall, extentFree_ok h hcall, hfrees⟩

theorem Gap.contains (g : Gap ex start size before rest) (h : ex.Ok) :
    ∃ r ∈ extentInsertAndOptimize ex start size before rest,
      r.lo ≤ start.toNat ∧ start.toNat + (size.toNat - 1) ≤ r.hi := by
  obtain ⟨hl, hpos, -, hend, hbefore, hrest⟩ := g
  have hstop : (start + (size - 1)).toNat = start.toNat + (size.toNat - 1) :=
    toNat_stop hpos (by omega)
  have hlo : ∀ a ∈ before, a.lo ≤ start.toNat := by
    intro a ha
    have := hbefore a ha
    have := h.valid a (hl ▸ mem_append_left _ ha)
    omega
  have hhi : ∀ a ∈ rest, start.toNat + (size.toNat - 1) ≤ a.hi := by
    intro a ha
    have := hrest a ha
    have := h.valid a (hl ▸ mem_append_right _ ha)
    omega
  have hins := inserted ex start size before rest
  generalize extentInsertAndOptimize ex start size before rest = l at hins
  cases hins with
  | alone => exact ⟨_, mem_append_right _ mem_cons_self, Nat.le_refl _, Nat.le_of_eq hstop.symm⟩
  | @appended p after hp =>
    have hmem : after ∈ before := hp ▸ mem_append_right _ mem_cons_self
    exact ⟨_, mem_append_right _ mem_cons_self, hlo after hmem, Nat.le_of_eq hstop.symm⟩
  | @prepended nextr s hs =>
    have hmem : nextr ∈ rest := hs ▸ mem_cons_self
    exact ⟨_, mem_append_right _ mem_cons_self, Nat.le_refl _, hhi nextr hmem⟩
  | @joined p s after nextr hp hs =>
    have hmem : after ∈ before := hp ▸ mem_append_right _ mem_cons_self
    have hmem' : nextr ∈ rest := hs ▸ mem_cons_self
    exact ⟨_, mem_append_right _ mem_cons_self, hlo after hmem, hhi nextr hmem'⟩

theorem extentFree_undoes (h : ex.Ok) (hcoalesce : ex.nocoalesce = false)
    (hcall : extentAllocRegion ex start size flags descr = some (.done (), ex'))
    (hfree : isset flags exConflictok = false ∨
      ∀ x, start.toNat ≤ x → x ≤ start.toNat + (size.toNat - 1) → ¬Held ex.exRegions x)
    (flags' : BitVec 32) : ∃ ex'', extentFree ex' start size flags' true = some (.done (), ex'') ∧
      ex''.Ok ∧ ∀ x, Held ex''.exRegions x ↔ Held ex.exRegions x := by
  rcases extentAllocRegion_cases h hfree hcall with ⟨before, rest, hg, rfl⟩ | ⟨hout, -⟩
  · have htook := hg.took h
    have hlt := ex.exEnd.isLt
    have hstop : (start + (size - 1)).toNat = start.toNat + (size.toNat - 1) :=
      toNat_stop hg.size_pos (Nat.lt_of_le_of_lt hg.le_end hlt)
    obtain ⟨r, hr, hlo, hhi⟩ := hg.contains h
    obtain ⟨ex'', hcall', hfreed⟩ := extentFree_freed flags' htook.ok hcoalesce
      (le_def.mpr hg.start_le) (le_def.mpr (by omega))
      (le_def.mpr (hstop.trans_le hg.le_end)) (.inr ⟨r, hr, hlo, hstop.trans_le hhi⟩)
    refine ⟨ex'', hcall', hfreed.ok, fun x => ?_⟩
    rw [hfreed.held, htook.held, hstop, or_and_right, and_not_self_iff, or_false]
    exact and_iff_left_of_imp fun hx hin => htook.free x hin.1 hin.2 hx
  · exact absurd rfl hout

/-- `extent_free` removes exactly its range, and takes back an allocation that met no conflict. -/
theorem extent_free_exact (h : ex.Ok) (hcoalesce : ex.nocoalesce = false) :
    (∀ start size flags, ex.exStart ≤ start → start ≤ start + (size - 1) →
      start + (size - 1) ≤ ex.exEnd → (isset flags exConflictok = true ∨
        ∃ r ∈ ex.exRegions, r.lo ≤ start.toNat ∧ (start + (size - 1)).toNat ≤ r.hi) →
      extentFree ex start size flags false = some (.error .ENOMEM, ex) ∧
        ∃ ex', extentFree ex start size flags true = some (.done (), ex') ∧
          Freed ex ex' start (start + (size - 1))) ∧ ∀ start size flags descr ex',
      extentAllocRegion ex start size flags descr = some (.done (), ex') →
      (isset flags exConflictok = false ∨
        ∀ x, start.toNat ≤ x → x ≤ start.toNat + (size.toNat - 1) → ¬Held ex.exRegions x) →
      ∀ flags', ∃ ex'', extentFree ex' start size flags' true = some (.done (), ex'') ∧
        ex''.Ok ∧ ∀ x, Held ex''.exRegions x ↔ Held ex.exRegions x := by
  refine ⟨fun start size flags hstart hle hend hheld => ⟨?_, ?_⟩,
    fun start size flags descr ex' hcall hfree flags' =>
      extentFree_undoes h hcoalesce hcall hfree flags'⟩
  · have hargs : ¬(start < ex.exStart ∨ start + (size - 1) > ex.exEnd ∨
        start + (size - 1) < start) := by
      rw [gt_iff_lt, lt_def, lt_def, lt_def]
      rw [le_def] at hstart hle hend
      omega
    rw [extentFree]
    rw [if_neg hargs, hcoalesce, if_pos (by decide)]
  · exact extentFree_freed flags h hcoalesce hstart hle hend hheld

/-- With `EX_CONFLICTOK` the range may hold what was allocated before, and is freed with it. -/
theorem tolerated_region_freed : extentAllocRegion (smallExtent [⟨5, 9⟩]) 3 5 exConflictok true =
        some (.done (), smallExtent [⟨3, 9⟩]) ∧
      extentFree (smallExtent [⟨3, 9⟩]) 3 5 0 true = some (.done (), smallExtent [⟨8, 9⟩]) ∧
      Held [⟨5, 9⟩] 5 ∧ ¬Held [⟨8, 9⟩] 5 := by
  decide

/-- The middle of a region, and a range across its end. -/
theorem region_split_and_undone :
    (∃ ex', extentFree (smallExtent [⟨5, 9⟩]) 6 2 0 true = some (.done (), ex') ∧
        Freed (smallExtent [⟨5, 9⟩]) ex' 6 7) ∧
      ∃ ex'', extentFree (smallExtent [⟨5, 20⟩]) 10 11 0 true = some (.done (), ex'') ∧
        ex''.Ok ∧ ∀ x, Held ex''.exRegions x ↔ Held [⟨5, 9⟩] x := by
  have hexact := extent_free_exact smallExtent_ok rfl
  exact ⟨(hexact.1 6 2 0 (by decide) (by decide) (by decide) (.inr (by decide))).2,
    hexact.2 10 11 0 true _ (by decide) (.inl (by decide)) 0⟩

end Mbsd.Kern.SubrExtent
