import Mbsd.Kern.SubrExtent.Runs

/-! `extent_alloc_region` where regions are in the way and `EX_CONFLICTOK` tolerates them. -/

namespace Mbsd.Kern.SubrExtent

open List

variable {ex ex' : Extent} {start size stop : BitVec 64} {before rest l : List Region}
  {r rp : Region} {x : Nat} {flags : BitVec 32} {descr : Bool} {s e : Nat}
  {result : Option (Outcome Unit × Extent)}

theorem findPlace_eq_free {p : List Region} (hp : ∀ r ∈ p, r.lo ≤ stop.toNat ∧ r.hi < start.toNat)
    (hrest : ∀ r ∈ rest, stop.toNat < r.lo) :
    findPlace start stop before (p ++ rest) = .free (before ++ p) rest := by
  induction p generalizing before with
  | nil =>
    rw [append_nil, nil_append]
    cases rest with
    | nil => rw [findPlace]
    | cons r l => rw [findPlace, if_pos (BitVec.lt_def.mpr (hrest r mem_cons_self))]
  | cons a p ih =>
    obtain ⟨hlo, hhi⟩ := hp a mem_cons_self
    rw [List.cons_append, findPlace, if_neg (Nat.not_lt.mpr hlo ∘ BitVec.lt_def.mp),
      if_neg (Nat.not_le.mpr hhi ∘ BitVec.le_def.mp),
      ih fun r hr => hp r (List.mem_cons_of_mem _ hr), List.append_assoc, List.singleton_append]

def Covers (ex : Extent) (start stop : Nat) (result : Option (Outcome Unit × Extent)) : Prop :=
  ∃ l, result = some (.done (), { ex with exRegions := l }) ∧ { ex with exRegions := l }.Ok ∧
    ∀ x, Held l x ↔ Held ex.exRegions x ∨ start ≤ x ∧ x ≤ stop

def Loses (ex : Extent) (start stop : Nat) (result : Option (Outcome Unit × Extent)) : Prop :=
  ∃ l, result = some (.done (), { ex with exRegions := l }) ∧
    ∃ x, (Held ex.exRegions x ∨ start ≤ x ∧ x ≤ stop) ∧ ¬Held l x

/-- If all of the range is allocated, no region reaches out behind it, up to the end of the extent;
otherwise none begins with its last number. -/
structure Tolerable (ex : Extent) (start stop : Nat) : Prop where
  full : (∀ x, start ≤ x → x ≤ stop → Held ex.exRegions x) →
    ∀ r ∈ ex.exRegions, r.lo ≤ stop → stop < r.hi → r.hi = ex.exEnd.toNat
  part : (∃ x, start ≤ x ∧ x ≤ stop ∧ ¬Held ex.exRegions x) → ∀ r ∈ ex.exRegions, r.lo ≠ stop

theorem tolerable_of_full (h : ∀ x, s ≤ x → x ≤ e → Held ex.exRegions x) :
    Tolerable ex s e ↔ ∀ r ∈ ex.exRegions, r.lo ≤ e → e < r.hi → r.hi = ex.exEnd.toNat :=
  ⟨fun hfits => hfits.full h,
    fun hall => ⟨fun _ => hall, fun ⟨x, hlo, hhi, hx⟩ => absurd (h x hlo hhi) hx⟩⟩

theorem tolerable_of_part (hlo : s ≤ x) (hhi : x ≤ e) (hx : ¬Held ex.exRegions x) :
    Tolerable ex s e ↔ ∀ r ∈ ex.exRegions, r.lo ≠ e :=
  ⟨fun hfits => hfits.part ⟨x, hlo, hhi, hx⟩,
    fun hall => ⟨fun hfull => absurd (hfull x hlo hhi) hx, fun _ => hall⟩⟩

theorem Covers.not_loses (h : Covers ex s e result) : ¬Loses ex s e result := by
  rintro ⟨l', hl', x, hx, hlost⟩
  obtain ⟨l, hl, -, hheld⟩ := h
  have heq := Option.some.inj (hl.symm.trans hl')
  obtain rfl : l = l' := congrArg (fun p => p.2.exRegions) heq
  exact hlost ((hheld x).mpr hx)

structure Settles (ex : Extent) (start stop : Nat) (result : Option (Outcome Unit × Extent)) :
    Prop where
  covers : Tolerable ex start stop → Covers ex start stop result
  loses : ¬Tolerable ex start stop → Loses ex start stop result

theorem Settles.of_restart {s' e' : Nat} (h : Settles { ex with exRegions := l } s' e' result)
    (hsame : ∀ x, (Held l x ∨ s' ≤ x ∧ x ≤ e') ↔ Held ex.exRegions x ∨ s ≤ x ∧ x ≤ e)
    (hfits : Tolerable { ex with exRegions := l } s' e' ↔ Tolerable ex s e) :
    Settles ex s e result := by
  refine ⟨fun hok => ?_, fun hnot => ?_⟩
  · obtain ⟨l', hl', hok', hheld⟩ := h.covers (hfits.mpr hok)
    exact ⟨l', hl', hok', fun x => (hheld x).trans (hsame x)⟩
  · obtain ⟨l', hl', x, hx, hlost⟩ := h.loses (hnot ∘ hfits.mp)
    exact ⟨l', hl', x, (hsame x).mp hx, hlost⟩

theorem Settles.of_covers
    (hfits : Tolerable ex s e) (h : Covers ex s e result) : Settles ex s e result :=
  ⟨fun _ => h, fun hnot => absurd hfits hnot⟩

theorem Settles.of_loses
    (hfits : ¬Tolerable ex s e) (h : Loses ex s e result) : Settles ex s e result :=
  ⟨fun hok => absurd hok hfits, fun _ => h⟩

theorem extentInsertAndOptimize_behind (hcoalesce : ex.nocoalesce = false) :
    extentInsertAndOptimize ex (rp.erEnd + 1) (stop - (rp.erEnd + 1) + 1) (before ++ [rp]) rest =
      match rest with
      | [] => before ++ [{ rp with erEnd := stop }]
      | nextr :: l =>
        if stop + 1 = nextr.erStart then before ++ { rp with erEnd := nextr.erEnd } :: l
        else before ++ { rp with erEnd := stop } :: nextr :: l := by
  have hlast : rp.erEnd + 1 + (stop - (rp.erEnd + 1) + 1 - 1) = stop := by
    rw [BitVec.add_sub_cancel, BitVec.add_comm, BitVec.sub_add_cancel]
  have hnext : rp.erEnd + 1 + (stop - (rp.erEnd + 1) + 1) = stop + 1 := by
    rw [← BitVec.add_assoc, BitVec.add_comm (rp.erEnd + 1), BitVec.sub_add_cancel]
  unfold extentInsertAndOptimize
  rw [getLast?_concat, dropLast_concat, hlast, hnext, hcoalesce]
  cases rest with
  | nil => simp
  | cons nextr l => simp

theorem Extent.Ok.other (h : ex.Ok) (hl : ex.exRegions = before ++ rp :: rest) :
    ∀ r ∈ ex.exRegions, r = rp ∨ r.hi < rp.lo ∨ rp.hi < r.lo := by
  intro r hr
  obtain ⟨hbefore, hrest, -⟩ := h.before_of_append hl
  rw [hl] at hr
  rcases mem_append.mp hr with hr | hr
  · exact .inr (.inl (hbefore r hr))
  · rcases mem_cons.mp hr with rfl | hr
    · exact .inl rfl
    · exact .inr (.inr (hrest r hr))

theorem Extent.Ok.join (h : ex.Ok) (hl : ex.exRegions = before ++ rp :: r :: rest)
    (htouch : rp.hi + 1 = r.lo) :
    { ex with exRegions := before ++ { rp with erEnd := r.erEnd } :: rest }.Ok ∧
      ∀ x, Held (before ++ { rp with erEnd := r.erEnd } :: rest) x ↔ Held ex.exRegions x := by
  obtain ⟨hbefore, -, hvalid, hlow, -⟩ := h.before_of_append hl
  have hl' : ex.exRegions = (before ++ [rp]) ++ r :: rest := by
    rw [hl, List.append_assoc, List.singleton_append]
  obtain ⟨-, hrest, hvalid', -, hhigh⟩ := h.before_of_append hl'
  refine ⟨?_, fun x => ?_⟩
  · apply h.replace (m := [rp, r]) (by rw [hl, List.append_assoc]; rfl)
    · simp only [Region.lo, Region.hi] at *
      omega
    · exact hlow
    · exact hhigh
    · exact hbefore
    · exact hrest
  · rw [hl, held_append, held_append, held_cons, held_cons, held_cons, ← or_assoc (a := _ ∧ _)]
    refine or_congr_right (or_congr_left ?_)
    simp only [Region.lo, Region.hi] at *
    omega

theorem settles_behind (h : ex.Ok) (hcoalesce : ex.nocoalesce = false)
    (hl : ex.exRegions = before ++ rp :: rest) (hlo : rp.lo ≤ start.toNat)
    (hle : start.toNat ≤ stop.toNat) (hhi : stop.toNat ≤ rp.hi) (hend : rp.hi < ex.exEnd.toNat)
    (fuel : Nat) :
    Settles ex start.toNat stop.toNat (allocRegionLoop flags (fuel + 1) ex (rp.erEnd + 1)
      (stop - (rp.erEnd + 1) + 1) stop) := by
  obtain ⟨hbefore, hrest, hvalid, hlow, hhigh⟩ := h.before_of_append hl
  have hmem : rp ∈ ex.exRegions := hl ▸ mem_append_right _ mem_cons_self
  have hone : (rp.erEnd + 1).toNat = rp.hi + 1 := toNat_add_one (by rw [Region.hi] at hend; omega)
  have hfull : ∀ x, start.toNat ≤ x → x ≤ stop.toNat → Held ex.exRegions x :=
    fun x hxlo hxhi => ⟨rp, hmem, by omega, by omega⟩
  have hplace : findPlace (rp.erEnd + 1) stop [] ex.exRegions = .free (before ++ [rp]) rest := by
    have hl' : ex.exRegions = (before ++ [rp]) ++ rest := by
      rw [hl, List.append_assoc, List.singleton_append]
    rw [hl', findPlace_eq_free, nil_append]
    · intro r hr
      rcases mem_append.mp hr with hr | hr
      · have hself := h.valid r (hl ▸ mem_append_left _ hr)
        have := hbefore r hr
        omega
      · rw [mem_singleton.mp hr]
        omega
    · intro r hr
      have := hrest r hr
      omega
  rw [allocRegionLoop, hplace]
  dsimp only
  rw [extentInsertAndOptimize_behind hcoalesce]
  rcases Nat.eq_or_lt_of_le hhi with heq | hover
  · -- the range ends with the region
    have heq' : stop = rp.erEnd := BitVec.toNat_inj.mp heq
    have hfits : Tolerable ex start.toNat stop.toNat := by
      refine (tolerable_of_full hfull).mpr fun r hr hrlo hrhi => ?_
      rcases h.other hl r hr with rfl | hr | hr <;> omega
    refine .of_covers hfits ⟨_, rfl, ?_⟩
    have hsame : ∀ x, Held ex.exRegions x ↔
        Held ex.exRegions x ∨ start.toNat ≤ x ∧ x ≤ stop.toNat :=
      fun x => (or_iff_left_of_imp fun hx => hfull x hx.1 hx.2).symm
    have hkept : before ++ { rp with erEnd := stop } :: rest = ex.exRegions := by rw [hl, heq']
    cases rest with
    | nil =>
      rw [hkept]
      exact ⟨h, hsame⟩
    | cons nextr l =>
      dsimp only
      split
      next hjoin =>
        have htouch : rp.hi + 1 = nextr.lo := by
          rw [← hone, ← heq', hjoin]
          rfl
        obtain ⟨hok, hheld⟩ := h.join hl htouch
        exact ⟨hok, fun x => (hheld x).trans (hsame x)⟩
      next =>
        rw [hkept]
        exact ⟨h, hsame⟩
  · -- the region is cut off behind the range
    have hfits : ¬Tolerable ex start.toNat stop.toNat := fun hfits =>
      Nat.ne_of_lt hend ((tolerable_of_full hfull).mp hfits rp hmem (by omega) hover)
    refine .of_loses hfits ⟨_, rfl, rp.hi, .inl ⟨rp, hmem, hvalid, Nat.le_refl _⟩, ?_⟩
    have hcut : ¬Held (before ++ { rp with erEnd := stop } :: rest) rp.hi := by
      rw [held_append, held_cons]
      rintro (⟨r, hr, -, hx⟩ | ⟨-, hx⟩ | ⟨r, hr, hx, -⟩)
      · have := hbefore r hr
        omega
      · have hx : rp.hi ≤ stop.toNat := hx
        omega
      · have := hrest r hr
        omega
    cases rest with
    | nil => exact hcut
    | cons nextr l =>
      dsimp only
      split
      next hjoin =>
        have hgap := hrest nextr mem_cons_self
        rw [Region.lo, ← hjoin, toNat_add_one (by omega)] at hgap
        omega
      next => exact hcut

def conflicts (start stop : Nat) (l : List Region) : Nat :=
  l.countP fun r => start ≤ r.hi && r.lo ≤ stop

theorem conflicts_lt (s' e' : Nat) {l' : List Region} (hl : l = before ++ rp :: rest)
    (hsub : l' = before ++ rest ∨ l' = before ++ rp :: rest ∧ ¬(s' ≤ rp.hi ∧ rp.lo ≤ e'))
    (hrp : s ≤ rp.hi ∧ rp.lo ≤ e) (hs : s ≤ s') (he : e' ≤ e) :
    conflicts s' e' l' < conflicts s e l := by
  have hmono : ∀ l : List Region, conflicts s' e' l ≤ conflicts s e l := by
    intro l
    refine countP_mono_left fun r _ hr => ?_
    rw [Bool.and_eq_true, decide_eq_true_iff, decide_eq_true_iff] at hr ⊢
    omega
  have hcons : conflicts s e l = conflicts s e before + (conflicts s e rest + 1) := by
    rw [hl, conflicts, countP_append, countP_cons_of_pos]
    · rfl
    · rw [Bool.and_eq_true, decide_eq_true_iff, decide_eq_true_iff]
      exact hrp
  have hless : conflicts s' e' l' = conflicts s' e' before + conflicts s' e' rest := by
    rcases hsub with rfl | ⟨rfl, hnot⟩
    · exact countP_append
    · rw [conflicts, countP_append, countP_cons_of_neg]
      · rfl
      · rw [Bool.and_eq_true, decide_eq_true_iff, decide_eq_true_iff]
        exact hnot
  have := hmono before
  have := hmono rest
  omega

theorem toNat_sub_add_one (hle : start.toNat ≤ stop.toNat)
    (hlt : stop.toNat - start.toNat + 1 < 2 ^ 64) :
    (stop - start + 1).toNat = stop.toNat - start.toNat + 1 := by
  have hsub : (stop - start).toNat = stop.toNat - start.toNat :=
    BitVec.toNat_sub_of_le (BitVec.le_def.mpr hle)
  rw [toNat_add_one (by omega), hsub]

theorem Extent.Ok.sublist (h : ex.Ok) (hl : l.Sublist ex.exRegions) :
    { ex with exRegions := l }.Ok :=
  ⟨h.sorted.sublist hl, fun r hr => h.valid r (hl.subset hr), fun r hr => h.inside r (hl.subset hr)⟩

section Restart

variable {s e : Nat} {result : Option (Outcome Unit × Extent)}

theorem settles_skip (hmem : rp ∈ ex.exRegions) (hlo : rp.lo ≤ s) (hin : s ≤ rp.hi)
    (h : Settles ex (rp.hi + 1) e result) : Settles ex s e result := by
  have hheld : ∀ x, s ≤ x → x ≤ rp.hi → Held ex.exRegions x :=
    fun x hxlo hxhi => ⟨rp, hmem, Nat.le_trans hlo hxlo, hxhi⟩
  refine .of_restart (l := ex.exRegions) h (fun x => ?_) ?_
  · constructor
    · rintro (hx | hx)
      · exact .inl hx
      · exact .inr (by omega)
    · rintro (hx | hx)
      · exact .inl hx
      · by_cases hhi : x ≤ rp.hi
        · exact .inl (hheld x hx.1 hhi)
        · exact .inr (by omega)
  · by_cases hfull : ∀ x, s ≤ x → x ≤ e → Held ex.exRegions x
    · have hfull' : ∀ x, rp.hi + 1 ≤ x → x ≤ e → Held ex.exRegions x :=
        fun x hxlo => hfull x (by omega)
      exact (tolerable_of_full hfull').trans (tolerable_of_full hfull).symm
    · push Not at hfull
      obtain ⟨x, hxlo, hxhi, hx⟩ := hfull
      have hbehind : rp.hi + 1 ≤ x := Nat.lt_of_not_le (hx ∘ hheld x hxlo)
      exact (tolerable_of_part hbehind hxhi hx).trans (tolerable_of_part hxlo hxhi hx).symm

theorem settles_end (h : ex.Ok) (hl : ex.exRegions = before ++ rp :: rest) (hlo : rp.lo ≤ s)
    (hse : s ≤ e) (he : e ≤ rp.hi) (hend : rp.hi = ex.exEnd.toNat) : Settles ex s e (some (.done (), ex)) := by
  have hmem : rp ∈ ex.exRegions := hl ▸ mem_append_right _ mem_cons_self
  have hfull : ∀ x, s ≤ x → x ≤ e → Held ex.exRegions x :=
    fun x hxlo hxhi => ⟨rp, hmem, Nat.le_trans hlo hxlo, Nat.le_trans hxhi he⟩
  refine .of_covers ((tolerable_of_full hfull).mpr fun r hr hrlo hrhi => ?_)
    ⟨ex.exRegions, rfl, h, fun x => (or_iff_left_of_imp fun hx => hfull x hx.1 hx.2).symm⟩
  rcases h.other hl r hr with rfl | hr | hr
  · exact hend
  · omega
  · omega

theorem not_held_start (h : ex.Ok) (hl : ex.exRegions = before ++ rp :: rest)
    (hbefore : ∀ r ∈ before, r.hi < s) (hlo : s < rp.lo) : ¬Held ex.exRegions s := by
  obtain ⟨-, hrest, hvalid, -⟩ := h.before_of_append hl
  rw [hl, held_append, held_cons]
  rintro (⟨r, hr, -, hx⟩ | hx | ⟨r, hr, hx, -⟩)
  · have := hbefore r hr
    omega
  · omega
  · have := hrest r hr
    omega

theorem settles_remove (hl : ex.exRegions = before ++ rp :: rest) (hfree : ¬Held ex.exRegions s)
    (hlo : s < rp.lo) (hvalid : rp.lo ≤ rp.hi) (hin : rp.hi < e)
    (h : Settles { ex with exRegions := before ++ rest } s e result) : Settles ex s e result := by
  have hheld : ∀ x, Held ex.exRegions x ↔ Held (before ++ rest) x ∨ rp.lo ≤ x ∧ x ≤ rp.hi := by
    intro x
    rw [hl, held_append, held_append, held_cons, or_assoc, or_comm (a := rp.lo ≤ x ∧ x ≤ rp.hi)]
  have hmem : ∀ r, r ∈ ex.exRegions ↔ r = rp ∨ r ∈ before ++ rest := by
    intro r
    rw [hl, List.mem_append, List.mem_cons, List.mem_append, or_left_comm]
  have hfree' : ¬Held (before ++ rest) s := fun hx => hfree ((hheld s).mpr (Or.inl hx))
  refine .of_restart h (fun x => ?_) ?_
  · rw [hheld, or_assoc]
    refine or_congr_right ?_
    omega
  · rw [tolerable_of_part (Nat.le_refl _) (by omega) hfree,
      tolerable_of_part (Nat.le_refl _) (by omega) hfree']
    constructor
    · intro hall r hr
      rcases (hmem r).mp hr with rfl | hr
      · omega
      · exact hall r hr
    · exact fun hall r hr => hall r ((hmem r).mpr (Or.inr hr))

theorem settles_shorten (h : ex.Ok) (hl : ex.exRegions = before ++ rp :: rest)
    (hbefore : ∀ r ∈ before, r.hi < s) (hlo : s < rp.lo) (hin : rp.lo < e) (hhi : e ≤ rp.hi)
    (hrec : Settles ex s (rp.lo - 1) result) : Settles ex s e result := by
  obtain ⟨-, hrest, hvalid, -⟩ := h.before_of_append hl
  have hfree := not_held_start h hl hbefore hlo
  have hmem : rp ∈ ex.exRegions := hl ▸ mem_append_right _ mem_cons_self
  refine .of_restart (l := ex.exRegions) hrec (fun x => ?_) ?_
  · constructor
    · rintro (hx | hx)
      · exact .inl hx
      · exact .inr (by omega)
    · rintro (hx | hx)
      · exact .inl hx
      · by_cases hxlo : rp.lo ≤ x
        · exact .inl ⟨rp, hmem, hxlo, by omega⟩
        · exact .inr (by omega)
  · refine (tolerable_of_part (Nat.le_refl _) (by omega) hfree).trans
      (Iff.trans ?_ (tolerable_of_part (Nat.le_refl _) (by omega) hfree).symm)
    refine iff_of_true (fun r hr => ?_) fun r hr => ?_
    all_goals
      have hself := h.valid r hr
      rw [hl] at hr
      rcases mem_append.mp hr with hr | hr
      · have := hbefore r hr
        omega
      · rcases mem_cons.mp hr with rfl | hr
        · omega
        · have := hrest r hr
          omega

theorem settles_touch (hmem : rp ∈ ex.exRegions) (hfree : ¬Held ex.exRegions s) (hlo : s < rp.lo)
    (htouch : rp.lo = e) : Settles ex s e (some (.done (), ex)) := by
  refine .of_loses (fun hok => ?_)
    ⟨ex.exRegions, rfl, s, .inr ⟨Nat.le_refl _, by omega⟩, hfree⟩
  exact (tolerable_of_part (Nat.le_refl _) (by omega) hfree).mp hok rp hmem htouch

end Restart

theorem allocRegionLoop_settles (fuel : Nat) (h : ex.Ok) (hcoalesce : ex.nocoalesce = false)
    (hflags : isset flags exConflictok = true) (hwait : isset flags exWaitspace = false)
    (hstart : ex.exStart.toNat ≤ start.toNat) (hle : start.toNat ≤ stop.toNat)
    (hstop : stop.toNat ≤ ex.exEnd.toNat) (hsize : size.toNat + start.toNat = stop.toNat + 1)
    (hfuel : conflicts start.toNat stop.toNat ex.exRegions < fuel) :
    Settles ex start.toNat stop.toNat (allocRegionLoop flags fuel ex start size stop) := by
  induction fuel generalizing ex start size stop with
  | zero => omega
  | succ fuel ih =>
    rw [allocRegionLoop]
    cases hplace : findPlace start stop [] ex.exRegions with
    | free before rest =>
      obtain ⟨hl, hbefore, hrest⟩ := h.findPlace_free hplace
      have hg : Gap ex start size before rest := by
        refine ⟨hl, by omega, hstart, by omega, hbefore, fun r hr => ?_⟩
        have := hrest r hr
        omega
      have hfits : Tolerable ex start.toNat stop.toNat := by
        refine (tolerable_of_part (Nat.le_refl _) hle ((hg.took h).free _ (Nat.le_refl _)
          (by omega))).mpr fun r hr => ?_
        rw [hl] at hr
        rcases mem_append.mp hr with hr | hr
        · have := hbefore r hr
          have := h.valid r (hl ▸ mem_append_left _ hr)
          omega
        · have := hrest r hr
          omega
      refine .of_covers hfits ⟨_, rfl, (hg.took h).ok, fun x => ?_⟩
      rw [(hg.took h).held, show start.toNat + (size.toNat - 1) = stop.toNat by omega]
    | conflict before rp rest =>
      obtain ⟨hl, hbefore, hrplo, hrphi⟩ := findPlace_conflict hplace
      obtain ⟨-, hrest, hvalid, hlow, hhigh⟩ := h.before_of_append hl
      have hmem : rp ∈ ex.exRegions := hl ▸ mem_append_right _ mem_cons_self
      dsimp only
      rw [hwait, if_neg Bool.false_ne_true, hflags, if_pos rfl]
      by_cases hfirst : rp.erStart ≤ start
      · rw [if_pos hfirst]
        have hlo : rp.lo ≤ start.toNat := BitVec.le_def.mp hfirst
        by_cases hend : rp.erEnd < ex.exEnd
        · rw [if_pos hend]
          have hend : rp.hi < ex.exEnd.toNat := BitVec.lt_def.mp hend
          have hone : (rp.erEnd + 1).toNat = rp.hi + 1 :=
            toNat_add_one (by rw [Region.hi] at hend; omega)
          rcases Nat.lt_or_ge rp.hi stop.toNat with hmore | hdone
          · have hless := conflicts_lt (rp.erEnd + 1).toNat stop.toNat hl
              (.inr ⟨hl, by omega⟩)
              ⟨hrphi, hrplo⟩ (by omega) (Nat.le_refl _)
            have hsize : (stop - (rp.erEnd + 1) + 1).toNat + (rp.erEnd + 1).toNat =
                stop.toNat + 1 := by
              rw [toNat_sub_add_one (by omega) (by omega)]
              omega
            have hrec := ih h hcoalesce (by omega) (by omega) hstop hsize (by omega)
            exact settles_skip hmem hlo hrphi (hone ▸ hrec)
          · obtain ⟨fuel, rfl⟩ : ∃ n, fuel = n + 1 := by
              refine Nat.exists_eq_succ_of_ne_zero fun hzero => ?_
              have hless := conflicts_lt start.toNat stop.toNat hl (.inl rfl)
                ⟨hrphi, hrplo⟩ (Nat.le_refl _) (Nat.le_refl _)
              omega
            exact settles_behind h hcoalesce hl hlo hle hdone hend fuel
        · rw [if_neg hend]
          have hend : ex.exEnd.toNat ≤ rp.hi := Nat.le_of_not_lt (hend ∘ BitVec.lt_def.mpr)
          exact settles_end h hl hlo hle (by omega) (by omega)
      · rw [if_neg hfirst]
        have hlo : start.toNat < rp.lo := Nat.lt_of_not_le (hfirst ∘ BitVec.le_def.mpr)
        have hfree := not_held_start h hl hbefore hlo
        by_cases hinner : rp.erEnd < stop
        · rw [if_pos hinner]
          have hless := conflicts_lt start.toNat stop.toNat hl (.inl rfl) ⟨hrphi, hrplo⟩
            (Nat.le_refl _) (Nat.le_refl _)
          have hok : { ex with exRegions := before ++ rest }.Ok :=
            h.sublist (hl ▸ (sublist_cons_self rp rest).append_left before)
          exact settles_remove hl hfree hlo hvalid (BitVec.lt_def.mp hinner)
            (ih hok hcoalesce hstart hle hstop hsize
              (Nat.lt_of_lt_of_le hless (Nat.le_of_lt_succ hfuel)))
        · rw [if_neg hinner]
          have hreach : stop.toNat ≤ rp.hi := Nat.le_of_not_lt (hinner ∘ BitVec.lt_def.mpr)
          by_cases hlast : rp.erStart < stop ∧ rp.erStart > ex.exStart
          · rw [if_pos hlast]
            have hin : rp.lo < stop.toNat := BitVec.lt_def.mp hlast.1
            have hone : (rp.erStart - 1).toNat = rp.lo - 1 :=
              toNat_sub_one (Nat.lt_of_le_of_lt (Nat.zero_le _) hlo)
            have hless := conflicts_lt start.toNat (rp.erStart - 1).toNat hl
              (.inr ⟨hl, by omega⟩) ⟨hrphi, hrplo⟩ (Nat.le_refl _) (by omega)
            have hsize : (rp.erStart - 1 - start + 1).toNat + start.toNat =
                (rp.erStart - 1).toNat + 1 := by
              rw [toNat_sub_add_one (by omega) (by omega)]
              omega
            have hrec := ih h hcoalesce hstart (by omega) (by omega) hsize (by omega)
            exact settles_shorten h hl hbefore hlo hin hreach (hone ▸ hrec)
          · rw [if_neg hlast]
            have htouch : rp.lo = stop.toNat := by
              rw [gt_iff_lt, BitVec.lt_def, BitVec.lt_def] at hlast
              simp only [Region.lo] at *
              omega
            exact settles_touch hmem hfree hlo htouch

/-- With `EX_CONFLICTOK` a call gives the whole range exactly if what is in its way is tolerable. -/
theorem extent_alloc_region_conflictok_iff (h : ex.Ok) (hcoalesce : ex.nocoalesce = false)
    (hflags : isset flags exConflictok = true) (hpos : 1 ≤ size.toNat)
    (hstart : ex.exStart.toNat ≤ start.toNat)
    (hend : start.toNat + (size.toNat - 1) ≤ ex.exEnd.toNat) :
    Covers ex start.toNat (start.toNat + (size.toNat - 1))
        (extentAllocRegion ex start size flags descr) ↔
      descr = true ∧ isset flags exWaitspace = false ∧
        Tolerable ex start.toNat (start.toNat + (size.toNat - 1)) := by
  have hstop : (start + (size - 1)).toNat = start.toNat + (size.toNat - 1) :=
    toNat_stop hpos (by omega)
  rw [extentAllocRegion]
  cases descr with
  | false =>
    rw [Bool.not_false, if_pos rfl]
    refine iff_of_false ?_ fun hnot => Bool.false_ne_true hnot.1
    rintro ⟨l, hl, -⟩
    exact absurd (congrArg (Option.map Prod.fst) hl) (by simp)
  | true =>
    rw [Bool.not_true, if_neg Bool.false_ne_true, extentDoAllocRegion, hflags, ← hstop]
    cases hwait : isset flags exWaitspace with
    | true =>
      rw [if_pos (.inr (.inr ⟨rfl, rfl⟩))]
      refine iff_of_false ?_ fun hnot => Bool.false_ne_true hnot.2.1.symm
      rintro ⟨l, hl, -⟩
      exact absurd hl (by simp)
    | false =>
      have hargs : ¬(size < 1 ∨ start + (size - 1) < start ∨ true = true ∧ false = true) := by
        rw [BitVec.lt_def, BitVec.lt_def, hstop]
        rintro (hone | hless | ⟨-, hno⟩)
        · exact Nat.not_lt.mpr hpos hone
        · omega
        · exact Bool.false_ne_true hno
      have hinside : ¬(start < ex.exStart ∨ start + (size - 1) > ex.exEnd) := by
        rw [gt_iff_lt, BitVec.lt_def, BitVec.lt_def, hstop]
        omega
      rw [if_neg hargs, if_neg hinside]
      have hfuel : conflicts start.toNat (start + (size - 1)).toNat ex.exRegions <
          ex.exRegions.length + 1 := Nat.lt_succ_of_le countP_le_length
      have hsettles := allocRegionLoop_settles _ h hcoalesce hflags hwait hstart (by omega)
        (by omega) (by omega : size.toNat + _ = _) hfuel
      refine ⟨fun hcovers => ⟨rfl, rfl, ?_⟩, fun hfits => hsettles.covers hfits.2.2⟩
      by_contra hfits
      exact hcovers.not_loses (hsettles.loses hfits)

def smallExtent (regions : List Region) : Extent where
  exRegions := regions
  exStart := 0
  exEnd := 100
  exFlags := 0

instance (l : List Region) (x : Nat) : Decidable (Held l x) :=
  inferInstanceAs (Decidable (∃ r ∈ l, r.lo ≤ x ∧ x ≤ r.hi))

/-- A region that contains the range is cut off behind it; one that begins with its last number
keeps all of it from being allocated. -/
theorem conflicting_region_lost : (extentCreate 0 100 0 true = some (some (smallExtent [])) ∧
      extentAllocRegion (smallExtent []) 0 10 0 true = some (.done (), smallExtent [⟨0, 9⟩]) ∧
      extentAllocRegion (smallExtent [⟨0, 9⟩]) 2 2 exConflictok true =
        some (.done (), smallExtent [⟨0, 3⟩]) ∧ Held [⟨0, 9⟩] 4 ∧ ¬Held [⟨0, 3⟩] 4) ∧
    extentAllocRegion (smallExtent []) 5 5 0 true = some (.done (), smallExtent [⟨5, 9⟩]) ∧
      extentAllocRegion (smallExtent [⟨5, 9⟩]) 2 4 exConflictok true =
        some (.done (), smallExtent [⟨5, 9⟩]) ∧ ¬Held [⟨5, 9⟩] 2 := by
  decide

theorem smallExtent_ok : (smallExtent [⟨5, 9⟩]).Ok := by
  have hrun : ExtentRun (smallExtent []) :=
    .create (by decide : extentCreate 0 100 0 true = some (some (smallExtent [])))
  exact (hrun.allocRegion (by decide : isset 0 exConflictok = false)
    (by decide : extentAllocRegion (smallExtent []) 5 5 0 true =
      some (.done (), smallExtent [⟨5, 9⟩]))).ok

/-- A region that ends within the range. -/
theorem conflicting_region_covered :
    Covers (smallExtent [⟨5, 9⟩]) 7 20 (extentAllocRegion (smallExtent [⟨5, 9⟩]) 7 14 exConflictok
      true) := by
  have htolerable : Tolerable (smallExtent [⟨5, 9⟩]) 7 20 :=
    (tolerable_of_part (x := 20) (by decide) (by decide) (by decide)).mpr (by decide)
  exact (extent_alloc_region_conflictok_iff smallExtent_ok rfl (by decide) (by decide) (by decide)
    (by decide)).mpr ⟨rfl, by decide, htolerable⟩

end Mbsd.Kern.SubrExtent
