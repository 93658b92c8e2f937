import Mbsd.Kern.SubrExtent.Runs

/-! The constraints on what `extent_alloc_subregion` finds: subregion, alignment and boundary. -/

namespace Mbsd.Kern.SubrExtent

open List BitVec Nat Bool

variable {ex ex' : Extent} {a : AllocArgs} {newstart x : BitVec 64} {before rest l : List Region}
  {rp : Region} {b : Best} {found : Fit} {j : Nat}

def Aligned (a : AllocArgs) (r : Nat) : Prop :=
  r % a.alignment.toNat = a.skew.toNat % a.alignment.toNat

def boundaryBase (ex : Extent) (a : AllocArgs) : BitVec 64 :=
  if isset a.flags exBoundzero then 0 else ex.exStart

def Uncrossed (ex : Extent) (a : AllocArgs) (r : Nat) : Prop :=
  a.boundary ≠ 0 → ∀ k, ¬(r < (boundaryBase ex a).toNat + k * a.boundary.toNat ∧
    (boundaryBase ex a).toNat + k * a.boundary.toNat ≤ r + (a.size.toNat - 1))

structure Meets (ex : Extent) (a : AllocArgs) (r : Nat) : Prop where
  start_le : a.substart.toNat ≤ r
  le_end : r + (a.size.toNat - 1) ≤ a.subend.toNat
  aligned : Aligned a r
  uncrossed : Uncrossed ex a r

structure AllocArgs.Valid (a : AllocArgs) : Prop where
  size_pos : 1 ≤ a.size.toNat
  alignment : ∃ j, a.alignment.toNat = 2 ^ j
  boundary : a.boundary ≠ 0 → (∃ j, a.boundary.toNat = 2 ^ j) ∧ a.size.toNat ≤ a.boundary.toNat

section Align

variable {start alignment skew : BitVec 64} {j r : Nat}

theorem extentAlign_mod (halign : alignment.toNat = 2 ^ j) :
    (extentAlign start alignment skew).toNat % alignment.toNat = skew.toNat % alignment.toNat :=
  Lib.AlignUp.toNat_alignUp_mod halign start skew

theorem extentAlign_least (start : BitVec 64) (halign : alignment.toNat = 2 ^ j)
    (hr : start.toNat ≤ r)
    (hlt : r < 2 ^ 64) (hmod : r % alignment.toNat = skew.toNat % alignment.toNat) :
    start.toNat ≤ (extentAlign start alignment skew).toNat ∧
      (extentAlign start alignment skew).toNat ≤ r := by
  obtain ⟨N, hN, -, -, heq, hleast⟩ := Lib.AlignUp.alignUp_least (k := skew) halign
    (mod_eq_of_lt start.isLt).symm
  have hsame : extentAlign start alignment skew = Lib.AlignUp.alignUp start alignment skew := rfl
  have hNr := hleast r hr hmod
  rw [hsame, heq, mod_eq_of_lt (Nat.lt_of_le_of_lt hNr hlt)]
  exact ⟨hN, hNr⟩

theorem ne_zero_of_two_pow (halign : alignment.toNat = 2 ^ j) : alignment ≠ 0 := by
  rintro rfl
  exact Nat.ne_of_lt (Nat.two_pow_pos j) halign

end Align

def OnBoundary (ex : Extent) (a : AllocArgs) (p : Nat) : Prop :=
  p % a.boundary.toNat = (boundaryBase ex a).toNat % a.boundary.toNat

theorem dontcross_cases (ex : Extent) (newstart : BitVec 64)
    (hboundary : a.boundary.toNat = 2 ^ j) : ((dontcross ex a newstart).toNat < ex.exStart.toNat ∧
        ∀ p, newstart.toNat < p → OnBoundary ex a p → 2 ^ 64 ≤ p) ∨
      newstart.toNat ≤ (dontcross ex a newstart).toNat ∧
        OnBoundary ex a ((dontcross ex a newstart).toNat + 1) ∧
        ∀ p, newstart.toNat < p → OnBoundary ex a p → (dontcross ex a newstart).toNat < p := by
  have hone : (newstart + 1).toNat = (newstart.toNat + 1) % 2 ^ 64 := toNat_add _ _
  obtain ⟨N, hN, hless, hmod, heq, hleast⟩ := Lib.AlignUp.alignUp_least
    (k := boundaryBase ex a) hboundary hone
  have hsame : dontcross ex a newstart =
    Lib.AlignUp.alignUp (newstart + 1) a.boundary (boundaryBase ex a) - 1 := rfl
  have hcross : (dontcross ex a newstart).toNat = (N + (2 ^ 64 - 1)) % 2 ^ 64 := by
    rw [hsame, toNat_sub, heq]
    have : (1 : BitVec 64).toNat = 1 := rfl
    omega
  rcases Nat.lt_or_ge (2 ^ 64) N with hwrap | hnowrap
  · -- the next boundary is out of reach, and what is left of it comes before the base
    obtain ⟨q, hq⟩ := Lib.AlignUp.toNat_dvd hboundary
    have hrest : N - 2 ^ 64 = (boundaryBase ex a).toNat % a.boundary.toNat := by
      rw [← hmod, show N = a.boundary.toNat * q + (N - 2 ^ 64) by omega, mul_add_mod,
        mod_eq_of_lt (by omega)]
      omega
    have hbase : boundaryBase ex a = ex.exStart := by
      rw [boundaryBase] at hrest ⊢
      split
      next hzero =>
        have hzero' : (0 : BitVec 64).toNat % a.boundary.toNat = 0 := zero_mod _
        rw [if_pos hzero, hzero'] at hrest
        omega
      next => rfl
    have hle := mod_le (boundaryBase ex a).toNat a.boundary.toNat
    rw [hbase] at hrest hle
    refine .inl ⟨by omega, fun p hp hon => ?_⟩
    have := hleast p hp hon
    omega
  · have hsucc : (dontcross ex a newstart).toNat + 1 = N := by omega
    refine .inr ⟨by omega, ?_, fun p hp hon => ?_⟩
    · rw [OnBoundary, hsucc]
      exact hmod
    · have := hleast p hp hon
      omega

/-- A chunk in which what starts at `newstart` is moved to the next boundary: that is aligned. -/
def ChunkAligned (ex : Extent) (a : AllocArgs) (fit : BitVec 64 → Bool) (newstart : BitVec 64) :
    Prop :=
  fit newstart = true → a.boundary ≠ 0 → ex.exStart ≤ dontcross ex a newstart →
    dontcross ex a newstart < newstart + (a.size - 1) →
    fit (dontcross ex a newstart + 1) = true → Aligned a (dontcross ex a newstart + 1).toNat

def ScanAligned (ex : Extent) (a : AllocArgs) (newstart : BitVec 64) : List Region → Prop
  | [] => ChunkAligned ex a (fun x => leOv x (a.size - 1) a.subend) newstart
  | rp :: l =>
    if rp.erStart > a.subend then
      ChunkAligned ex a (fun x => leOv x (a.size - 1) a.subend) newstart
    else
      let newstart' := extentAlign (rp.erEnd + 1) a.alignment a.skew
      ChunkAligned ex a (fun x => leOv x a.size rp.erStart) newstart ∧
        ((checkChunk ex a (fun x => leOv x a.size rp.erStart) newstart).goesOn a rp →
          ¬newstart' < rp.erEnd → ScanAligned ex a newstart' l)

theorem uncrossed_of_onBoundary {r : Nat}
    (h : a.boundary ≠ 0 → ∀ p, r < p → OnBoundary ex a p → r + (a.size.toNat - 1) < p) :
    Uncrossed ex a r := by
  rintro hboundary k ⟨hlt, hle⟩
  have := h hboundary _ hlt (add_mul_mod_self_right _ _ _)
  omega

theorem OnBoundary.add_le {p q : Nat} (hp : OnBoundary ex a p) (hq : OnBoundary ex a q)
    (h : p < q) : p + a.boundary.toNat ≤ q := by
  by_contra hlt
  have hdiff := sub_mod_eq_zero_of_mod_eq (Eq.trans hq hp.symm)
  rw [mod_eq_of_lt (by omega)] at hdiff
  omega

theorem checkChunk_constrained {fit : BitVec 64 → Bool} (hv : a.Valid)
    (hlow : ex.exStart.toNat ≤ newstart.toNat) (haligned : Aligned a newstart.toNat)
    (hfit : ∀ y, fit y = true → y.toNat + (a.size.toNat - 1) < 2 ^ 64)
    (hsafe : ChunkAligned ex a fit newstart) (h : checkChunk ex a fit newstart = .fits x) :
    fit x = true ∧ newstart.toNat ≤ x.toNat ∧ Aligned a x.toNat ∧ Uncrossed ex a x.toNat := by
  rw [checkChunk] at h
  split at h
  next hin =>
    have hnewend := toNat_stop hv.size_pos (hfit newstart hin)
    rw [checkBoundary] at h
    split at h
    next hzero =>
      obtain rfl := Chunk.fits.inj h
      exact ⟨hin, Nat.le_refl _, haligned, fun hboundary => absurd hzero hboundary⟩
    next hboundary =>
      obtain ⟨⟨j, hj⟩, hsize⟩ := hv.boundary hboundary
      have hcases := dontcross_cases ex newstart hj
      dsimp only at h
      split at h
      next hover =>
        rw [lt_def] at hover
        obtain rfl := checkEnd_fits h
        refine ⟨hin, Nat.le_refl _, haligned, uncrossed_of_onBoundary fun _ p hp hon => ?_⟩
        rcases hcases with ⟨-, hnone⟩ | ⟨hle, -⟩
        · have := hnone p hp hon
          omega
        · omega
      next hunder =>
        have hbase : ex.exStart ≤ dontcross ex a newstart := BitVec.not_lt.mp hunder
        obtain ⟨hle, hon, hnone⟩ := hcases.resolve_left fun hleft =>
          hunder (lt_def.mpr hleft.1)
        split at h
        next hcross =>
          split at h
          next => exact absurd h (by simp)
          next hmoved =>
            rw [not_eq_true, not_eq_false'] at hmoved
            have hnext : (dontcross ex a newstart + 1).toNat =
                (dontcross ex a newstart).toNat + 1 :=
              toNat_add_one (by rw [gt_iff_lt, lt_def] at hcross; omega)
            obtain rfl := checkEnd_fits h
            refine ⟨hmoved, by omega, hsafe hin hboundary hbase hcross hmoved,
              uncrossed_of_onBoundary fun _ p hp hon' => ?_⟩
            rw [hnext] at hp ⊢
            have := hon.add_le hon' hp
            omega
        next hbelow =>
          rw [gt_iff_lt, lt_def, Nat.not_lt, hnewend] at hbelow
          obtain rfl := checkEnd_fits h
          refine ⟨hin, Nat.le_refl _, haligned, uncrossed_of_onBoundary fun _ p hp hon' => ?_⟩
          have := hnone p hp hon'
          omega
  next => exact absurd h (by simp)

theorem scan_meets (hok : ex.Ok) (c : Candidate ex newstart before rest) (hv : a.Valid)
    (hsub : a.substart.toNat ≤ newstart.toNat) (hrest : ∀ r ∈ rest, a.substart.toNat ≤ r.lo)
    (haligned : Aligned a newstart.toNat) (hsafe : ScanAligned ex a newstart rest)
    (hb : b.bestovh = 0)
    (h : scan ex a newstart before b rest = some found) : Meets ex a found.newstart.toNat := by
  obtain ⟨j, hj⟩ := hv.alignment
  have halign := ne_zero_of_two_pow hj
  refine scan_rule (I := fun newstart before rest => Candidate ex newstart before rest ∧
      a.substart.toNat ≤ newstart.toNat ∧ (∀ r ∈ rest, a.substart.toNat ≤ r.lo) ∧
      Aligned a newstart.toNat ∧ ScanAligned ex a newstart rest)
    (Q := fun fit => Meets ex a fit.newstart.toNat) ?_ ?_ ?_ ⟨c, hsub, hrest, haligned, hsafe⟩
    (fun hbest => absurd hb hbest) h
  · rintro newstart before rest x ⟨c, hsub, -, haligned, hsafe⟩ hrest hchunk
    have hsafe : ChunkAligned ex a (fun x => leOv x (a.size - 1) a.subend) newstart := by
      cases rest with
      | nil => exact hsafe
      | cons rp l =>
        rw [ScanAligned, if_pos (hrest rp rfl)] at hsafe
        exact hsafe
    have hin : ∀ y : BitVec 64, leOv y (a.size - 1) a.subend = true →
        y.toNat + (a.size.toNat - 1) ≤ a.subend.toNat := by
      intro y hy
      rwa [leOv_iff, toNat_sub_one hv.size_pos] at hy
    obtain ⟨hfit, hle, hal, hun⟩ := checkChunk_constrained hv c.start_le haligned
      (fun y hy => Nat.lt_of_le_of_lt (hin y hy) a.subend.isLt) hsafe hchunk
    exact ⟨Nat.le_trans hsub hle, hin x hfit, hal, hun⟩
  · rintro newstart before rp l x ⟨c, hsub, -, haligned, hsafe⟩ hbehind hchunk
    rw [ScanAligned, if_neg hbehind] at hsafe
    rw [gt_iff_lt, lt_def, Nat.not_lt] at hbehind
    have hin : ∀ y : BitVec 64, leOv y a.size rp.erStart = true →
        y.toNat + (a.size.toNat - 1) ≤ a.subend.toNat := by
      intro y hy
      rw [leOv_iff] at hy
      omega
    obtain ⟨hfit, hle, hal, hun⟩ := checkChunk_constrained hv c.start_le haligned
      (fun y hy => Nat.lt_of_le_of_lt (hin y hy) a.subend.isLt) hsafe.1 hchunk
    exact ⟨Nat.le_trans hsub hle, hin x hfit, hal, hun⟩
  · rintro newstart before rp l ⟨c, hsub, hrest, haligned, hsafe⟩ hbehind hgo hwrap
    rw [ScanAligned, if_neg hbehind] at hsafe
    have hmore := hsafe.2 hgo hwrap
    obtain ⟨-, -, hvalid, -⟩ := hok.before_of_append c.regions
    have hlt := lt_extentAlign halign hwrap
    have hlo := hrest rp mem_cons_self
    exact ⟨c.next hok halign hwrap, by omega, fun r hr => hrest r (mem_cons_of_mem _ hr),
      extentAlign_mod hj, hmore⟩

theorem drop_lastBefore_le (hok : ex.Ok) :
    ∀ r ∈ ex.exRegions.drop (lastBefore newstart ex.exRegions).length, newstart.toNat ≤ r.lo := by
  have hdrop : ex.exRegions.drop (lastBefore newstart ex.exRegions).length =
      ex.exRegions.dropWhile fun rp => !(rp.erStart ≥ newstart) :=
    append_cancel_left ((prefix_iff_eq_append.mp ( takeWhile_prefix _)).trans
      takeWhile_append_dropWhile.symm)
  have hsorted : (ex.exRegions.dropWhile fun rp => !(rp.erStart ≥ newstart)).Pairwise
      Region.Before := hok.sorted.sublist (dropWhile_sublist _)
  have hhead := head?_dropWhile_not (fun rp : Region => !(rp.erStart ≥ newstart)) ex.exRegions
  have hvalid : ∀ r ∈ ex.exRegions.dropWhile fun rp => !(rp.erStart ≥ newstart), r.lo ≤ r.hi :=
    fun r hr => hok.valid r ((dropWhile_sublist _).subset hr)
  rw [hdrop]
  generalize ex.exRegions.dropWhile (fun rp => !(rp.erStart ≥ newstart)) = l
    at hsorted hhead hvalid
  cases l with
  | nil => exact fun r hr => absurd hr not_mem_nil
  | cons rp l =>
    have hfirst : newstart.toNat ≤ rp.lo := by
      rw [head?_cons] at hhead
      dsimp only at hhead
      rw [not_eq_false', decide_eq_true_iff] at hhead
      exact le_def.mp hhead
    intro r hr
    rcases mem_cons.mp hr with rfl | hr
    · exact hfirst
    · have hlt := (pairwise_cons.mp hsorted).1 r hr
      have hself := hvalid rp mem_cons_self
      rw [Region.Before] at hlt
      omega

/-- The addresses that the search computes before the first chunk do not exceed `ULONG_MAX`. -/
structure NoOverflow (ex : Extent) (a : AllocArgs) : Prop where
  start : a.substart ≤ extentAlign a.substart a.alignment a.skew
  relocated : ∀ last, (lastBefore (extentAlign a.substart a.alignment a.skew)
      ex.exRegions).getLast? = some last →
    extentAlign a.substart a.alignment a.skew ≤ last.erEnd →
    last.erEnd < extentAlign (last.erEnd + 1) a.alignment a.skew

/-- The search does not start at a place that has wrapped, and is moved to no boundary that is not
aligned. -/
structure AllocAligned (ex : Extent) (a : AllocArgs) : Prop extends NoOverflow ex a where
  moved : ScanAligned ex a
    (relocate a (extentAlign a.substart a.alignment a.skew)
      (lastBefore (extentAlign a.substart a.alignment a.skew) ex.exRegions))
    (ex.exRegions.drop
      (lastBefore (extentAlign a.substart a.alignment a.skew) ex.exRegions).length)

theorem relocate_le (halign : a.alignment.toNat = 2 ^ j) (l : List Region)
    (hstart : Aligned a newstart.toNat)
    (hrelocate : ∀ last, l.getLast? = some last → newstart ≤ last.erEnd →
      last.erEnd < extentAlign (last.erEnd + 1) a.alignment a.skew) :
    newstart.toNat ≤ (relocate a newstart l).toNat ∧ Aligned a (relocate a newstart l).toNat := by
  rw [relocate]
  cases hlast : l.getLast? with
  | none => exact ⟨Nat.le_refl _, hstart⟩
  | some last =>
    dsimp only
    split
    next hover =>
      have hless := hrelocate last hlast hover
      rw [lt_def] at hless
      rw [ge_iff_le, le_def] at hover
      exact ⟨by omega, extentAlign_mod halign⟩
    next => exact ⟨Nat.le_refl _, hstart⟩

theorem search_meets (hok : ex.Ok) (hv : a.Valid) (hadmitted : Admitted ex a)
    (hsafe : AllocAligned ex a) (hsearch : search ex a = some found) :
    Meets ex a found.newstart.toNat := by
  obtain ⟨j, hj⟩ := hv.alignment
  have hc := candidate_start hok hadmitted.alignment_ne hadmitted.start
    fun last hlast hle => BitVec.lt_asymm (hsafe.relocated last hlast hle)
  have hstart := le_def.mp hsafe.start
  obtain ⟨hle, haligned⟩ := relocate_le hj _ (extentAlign_mod hj) hsafe.relocated
  exact scan_meets hok hc hv (Nat.le_trans hstart hle)
    (fun r hr => Nat.le_trans hstart (drop_lastBefore_le hok r hr)) haligned hsafe.moved rfl hsearch

/-- A place that is given meets the constraints, as long as no address wraps and no boundary that
a candidate is moved to lies off the alignment. -/
theorem extent_alloc_subregion_meets {descr : Bool} {result : BitVec 64} (hok : ex.Ok)
    (halignment : ∃ j, a.alignment.toNat = 2 ^ j) (hboundary : a.boundary ≠ 0 →
      (∃ j, a.boundary.toNat = 2 ^ j) ∧ a.size.toNat ≤ a.boundary.toNat) (hsafe : AllocAligned ex a)
    (hcall : extentAllocSubregion ex a descr = some (.done result, ex')) :
    Meets ex a result.toNat := by
  rcases extentAllocSubregion_cases hcall with
    ⟨-, hout, -⟩ | ⟨-, hadmitted, ⟨fit, hsearch, hout, -⟩ | ⟨-, hout, -⟩⟩
  · exact absurd hout nofun
  · rw [Outcome.done.inj hout]
    exact search_meets hok ⟨hadmitted.size_pos, halignment, hboundary⟩ hadmitted hsafe hsearch
  · exact absurd rfl (hout result)

instance (a : AllocArgs) (r : Nat) : Decidable (Aligned a r) :=
  inferInstanceAs (Decidable (_ = _))

/-- A candidate that is moved to a boundary is not aligned again, and the first one may wrap. -/
theorem place_off_constraints :
    (extentAllocSubregion (wholeExtent []) ⟨17, 100, 16, 16, 4, 32, 0⟩ true =
        some (.done 32, wholeExtent [⟨32, 47⟩]) ∧ ¬Aligned ⟨17, 100, 16, 16, 4, 32, 0⟩ 32) ∧
    extentAllocSubregion (wholeExtent [])
        ⟨0xffffffffffffffff, 0xffffffffffffffff, 1, 16, 0, 0, 0⟩ true =
      some (.done 0, wholeExtent [⟨0, 0⟩]) := by
  decide

/-- A candidate that is moved to a boundary on the alignment. -/
theorem place_on_boundary : Meets (wholeExtent []) ⟨10, 100, 32, 16, 0, 32, 0⟩ 32 := by
  have hok : (wholeExtent []).Ok :=
    extentCreate_ok (by decide : extentCreate 0 0xffffffffffffffff 0 true =
      some (some (wholeExtent [])))
  have haligned : AllocAligned (wholeExtent []) ⟨10, 100, 32, 16, 0, 32, 0⟩ :=
    ⟨⟨by decide, nofun⟩, fun _ _ _ _ _ => by decide⟩
  exact extent_alloc_subregion_meets (a := ⟨10, 100, 32, 16, 0, 32, 0⟩) hok ⟨4, rfl⟩ (fun _ => ⟨⟨5, rfl⟩, by decide⟩)
    haligned (by decide : extentAllocSubregion (wholeExtent []) ⟨10, 100, 32, 16, 0, 32, 0⟩ true =
      some (.done 32, wholeExtent [⟨32, 63⟩]))

end Mbsd.Kern.SubrExtent

/-! A call of `extent_alloc_subregion` without a boundary fails only if there is no place. -/

namespace Mbsd.Kern.SubrExtent

open List Option Best

variable {ex ex' : Extent} {a : AllocArgs} {newstart : BitVec 64} {before rest l : List Region}
  {rp : Region} {b : Best} {found : Fit} {j r : Nat}

structure Fits (ex : Extent) (a : AllocArgs) (r : Nat) : Prop where
  start_le : a.substart.toNat ≤ r
  le_end : r + (a.size.toNat - 1) ≤ a.subend.toNat
  aligned : Aligned a r
  free : ∀ x, r ≤ x → x ≤ r + (a.size.toNat - 1) → ¬Held ex.exRegions x

structure Plain (ex : Extent) (a : AllocArgs) : Prop where
  ok : ex.Ok
  size_pos : 1 ≤ a.size.toNat
  alignment : ∃ j, a.alignment.toNat = 2 ^ j
  boundary : a.boundary = 0

theorem Fits.lt (h : Fits ex a r) : r < 2 ^ 64 :=
  Nat.lt_of_le_of_lt (Nat.le_trans (Nat.le_add_right _ _) h.le_end) a.subend.isLt

theorem Fits.hi_lt (h : Fits ex a r) (hmem : rp ∈ ex.exRegions) (hvalid : rp.lo ≤ rp.hi)
    (hlo : rp.lo ≤ r + (a.size.toNat - 1)) : rp.hi < r := by
  by_contra hle
  refine h.free (max r rp.lo) ?_ ?_ ⟨rp, hmem, ?_, ?_⟩ <;> omega

theorem Fits.next_le (h : Fits ex a r) (halign : a.alignment.toNat = 2 ^ j) (hhi : rp.hi < r) :
    ¬extentAlign (rp.erEnd + 1) a.alignment a.skew < rp.erEnd ∧
      (extentAlign (rp.erEnd + 1) a.alignment a.skew).toNat ≤ r := by
  have hlt := h.lt
  have hone : (rp.erEnd + 1).toNat = rp.hi + 1 := toNat_add_one (by rw [Region.hi] at hhi; omega)
  obtain ⟨hle, hleast⟩ := extentAlign_least (rp.erEnd + 1) halign (by omega) hlt h.aligned
  refine ⟨?_, hleast⟩
  rw [BitVec.lt_def, Nat.not_lt]
  rw [Region.hi] at hone
  omega

theorem checkChunk_plain {fit : BitVec 64 → Bool} (hboundary : a.boundary = 0) :
    checkChunk ex a fit newstart = if fit newstart then .fits newstart else .skip := by
  rw [checkChunk, checkBoundary, if_pos hboundary]

theorem Best.giveUp_ne_none {flags : BitVec 32} (hfast : isset flags exFast = false)
    (hb : b.bestovh ≠ 0) : b.giveUp flags ≠ none := by
  rw [giveUp, hfast, if_pos]
  · simp
  · rw [Bool.not_false, Bool.true_and, decide_eq_true_iff]
    exact hb

theorem Best.update_ne_zero {ovh : BitVec 64} (hovh : ovh ≠ 0) (fit : Fit) :
    (b.update ovh fit).bestovh ≠ 0 := by
  rw [update]
  split
  next => exact hovh
  next h => exact fun hzero => h (.inl hzero)

theorem scanEnd_ne_none {exend : BitVec 64} (hfast : isset a.flags exFast = false)
    (hb : b.bestovh ≠ 0) : scanEnd ex a newstart before rest exend b ≠ none := by
  rw [scanEnd]
  split
  next =>
    dsimp only
    split
    next => simp
    next hovh =>
      exact giveUp_ne_none hfast (update_ne_zero (hovh ∘ .inr) _)
  next => exact giveUp_ne_none hfast hb

theorem scan_ne_none (hfast : isset a.flags exFast = false) (hb : b.bestovh ≠ 0) :
    scan ex a newstart before b rest ≠ none := by
  induction rest generalizing newstart before b with
  | nil => exact scanEnd_ne_none hfast hb
  | cons rp l ih =>
    rw [scan]
    split
    next => exact scanEnd_ne_none hfast hb
    next =>
      have hnext : ∀ b : Best, b.bestovh ≠ 0 →
          (if extentAlign (rp.erEnd + 1) a.alignment a.skew < rp.erEnd then b.giveUp a.flags
            else scan ex a (extentAlign (rp.erEnd + 1) a.alignment a.skew) (before ++ [rp]) b l) ≠
              none := by
        intro b hb
        split
        next => exact giveUp_ne_none hfast hb
        next => exact ih hb
      dsimp only
      split
      next =>
        split
        next => simp
        next hovh => exact hnext _ (update_ne_zero (hovh ∘ .inr) _)
      next => exact hnext b hb
      next => exact giveUp_ne_none hfast hb

theorem scanEnd_complete {exend : BitVec 64} (hp : Plain ex a) (hr : Fits ex a r)
    (hle : newstart.toNat ≤ r) : ∃ found, scanEnd ex a newstart before rest exend b = some found ∧
      (isset a.flags exFast = true → found.newstart.toNat ≤ r) := by
  have hfit : leOv newstart (a.size - 1) a.subend = true := by
    have := hr.le_end
    rw [leOv_iff, toNat_sub_one hp.size_pos]
    omega
  rw [scanEnd, checkChunk_plain hp.boundary, hfit, if_pos rfl]
  dsimp only
  split
  next => exact ⟨_, rfl, fun _ => hle⟩
  next hgoes =>
    rw [not_or, Bool.not_eq_true] at hgoes
    obtain ⟨hfast, hovh⟩ := hgoes
    obtain ⟨found, hfound⟩ := ne_none_iff_exists'.mp
      (giveUp_ne_none hfast (update_ne_zero (b := b) hovh
        { newstart, before, rest }))
    exact ⟨found, hfound, fun h => absurd (hfast.symm.trans h) Bool.false_ne_true⟩

theorem scan_complete (hp : Plain ex a) (c : Candidate ex newstart before rest)
    (hr : Fits ex a r) (hle : newstart.toNat ≤ r) :
    ∃ found, scan ex a newstart before b rest = some found ∧
      (isset a.flags exFast = true → found.newstart.toNat ≤ r) := by
  obtain ⟨j, hj⟩ := hp.alignment
  have halign := ne_zero_of_two_pow hj
  induction rest generalizing newstart before b with
  | nil => exact scanEnd_complete hp hr hle
  | cons rp l ih =>
    obtain ⟨-, -, hvalid, -⟩ := hp.ok.before_of_append c.regions
    have hmem : rp ∈ ex.exRegions := c.regions ▸ mem_append_right _ mem_cons_self
    rw [scan]
    split
    next => exact scanEnd_complete hp hr hle
    next =>
      rw [checkChunk_plain hp.boundary]
      cases hfit : leOv newstart a.size rp.erStart with
      | true =>
        rw [if_pos rfl]
        dsimp only
        split
        next => exact ⟨_, rfl, fun _ => hle⟩
        next hgoes =>
          rw [not_or, Bool.not_eq_true] at hgoes
          obtain ⟨hfast, hovh⟩ := hgoes
          have hbest := update_ne_zero (b := b) hovh { newstart, before, rest := rp :: l }
          have hsome : (if extentAlign (rp.erEnd + 1) a.alignment a.skew < rp.erEnd then
              (b.update (rp.erStart - newstart - a.size)
                { newstart, before, rest := rp :: l }).giveUp a.flags
              else scan ex a (extentAlign (rp.erEnd + 1) a.alignment a.skew) (before ++ [rp])
                (b.update (rp.erStart - newstart - a.size)
                  { newstart, before, rest := rp :: l }) l) ≠ none := by
            split
            next => exact giveUp_ne_none hfast hbest
            next => exact scan_ne_none hfast hbest
          obtain ⟨found, hfound⟩ := ne_none_iff_exists'.mp hsome
          exact ⟨found, hfound, fun h => absurd (hfast.symm.trans h) Bool.false_ne_true⟩
      | false =>
        rw [if_neg Bool.false_ne_true]
        dsimp only
        have hlo : rp.lo ≤ r + (a.size.toNat - 1) := by
          have hnot : ¬newstart.toNat + a.size.toNat ≤ rp.erStart.toNat :=
            fun h => Bool.false_ne_true (hfit.symm.trans (leOv_iff.mpr h))
          rw [Region.lo]
          omega
        obtain ⟨hwrap, hnext⟩ := hr.next_le hj (hr.hi_lt hmem hvalid hlo)
        rw [if_neg hwrap]
        exact ih (c.next hp.ok halign hwrap) hnext

theorem relocate_le_fits (hok : ex.Ok) (halign : a.alignment.toNat = 2 ^ j) (hr : Fits ex a r) :
    (relocate a (extentAlign a.substart a.alignment a.skew)
      (lastBefore (extentAlign a.substart a.alignment a.skew) ex.exRegions)).toNat ≤ r := by
  have hstart := (extentAlign_least a.substart halign hr.start_le hr.lt hr.aligned).2
  generalize extentAlign a.substart a.alignment a.skew = newstart at hstart
  rw [relocate]
  cases hlast : (lastBefore newstart ex.exRegions).getLast? with
  | none => exact hstart
  | some last =>
    dsimp only
    split
    next =>
      have hmem := mem_of_getLast? hlast
      have hin : last ∈ ex.exRegions := (takeWhile_sublist _).subset hmem
      have hlt := all_eq_true.mp all_takeWhile last hmem
      rw [Bool.not_eq_true', decide_eq_false_iff_not, ge_iff_le, BitVec.le_def, Nat.not_le] at hlt
      have hlo : last.lo ≤ r + (a.size.toNat - 1) := by
        rw [Region.lo]
        omega
      exact (hr.next_le halign (hr.hi_lt hin (hok.valid last hin) hlo)).2
    next => exact hstart

theorem scanSafe_of_boundary (hboundary : a.boundary = 0) : ScanSafe ex a newstart l := by
  have hchunk : ∀ fit newstart, ChunkSafe ex a fit newstart :=
    fun _ _ _ hne => absurd hboundary hne
  induction l generalizing newstart with
  | nil => exact hchunk _ _
  | cons rp l ih =>
    rw [ScanSafe]
    split
    next => exact hchunk _ _
    next => exact ⟨hchunk _ _, fun _ _ => ih⟩

theorem scanAligned_of_boundary (hboundary : a.boundary = 0) : ScanAligned ex a newstart l := by
  have hchunk : ∀ fit newstart, ChunkAligned ex a fit newstart :=
    fun _ _ _ hne => absurd hboundary hne
  induction l generalizing newstart with
  | nil => exact hchunk _ _
  | cons rp l ih =>
    rw [ScanAligned]
    split
    next => exact hchunk _ _
    next => exact ⟨hchunk _ _, fun _ _ => ih⟩

theorem search_fits (hp : Plain ex a) (hadmitted : Admitted ex a) (hno : NoOverflow ex a)
    (hsearch : search ex a = some found) : Fits ex a found.newstart.toNat := by
  have hsafe : AllocSafe ex a :=
    ⟨fun last hlast hle => BitVec.lt_asymm (hno.relocated last hlast hle),
      scanSafe_of_boundary hp.boundary⟩
  have hgap := search_gap hp.ok hadmitted hsafe hsearch
  have hmeets := search_meets hp.ok
    ⟨hp.size_pos, hp.alignment, fun hne => absurd hp.boundary hne⟩ hadmitted
    ⟨hno, scanAligned_of_boundary hp.boundary⟩ hsearch
  exact ⟨hmeets.start_le, hmeets.le_end, hmeets.aligned, (hgap.took hp.ok).free⟩

theorem search_complete (hp : Plain ex a) (hadmitted : Admitted ex a) (hno : NoOverflow ex a)
    (hr : Fits ex a r) : ∃ found, search ex a = some found ∧
      (isset a.flags exFast = true → found.newstart.toNat ≤ r) := by
  obtain ⟨j, hj⟩ := hp.alignment
  have hc := candidate_start hp.ok hadmitted.alignment_ne hadmitted.start
    fun last hlast hle => BitVec.lt_asymm (hno.relocated last hlast hle)
  exact scan_complete hp hc hr (relocate_le_fits hp.ok hj hr)

/-- Without a boundary a call fails only if nothing fits, and with `EX_FAST` gives the least place
that does. -/
theorem extent_alloc_subregion_complete {descr : Bool} {out : Outcome (BitVec 64)} (hok : ex.Ok)
    (halignment : ∃ j, a.alignment.toNat = 2 ^ j) (hboundary : a.boundary = 0)
    (hno : NoOverflow ex a) (hcall : extentAllocSubregion ex a descr = some (out, ex')) :
    (out = .error .EAGAIN → ∀ r, ¬Fits ex a r) ∧
      ∀ result, out = .done result → Fits ex a result.toNat ∧
        (isset a.flags exFast = true → ∀ r, Fits ex a r → result.toNat ≤ r) := by
  rcases extentAllocSubregion_cases hcall with
    ⟨-, rfl, -⟩ | ⟨-, hadmitted, ⟨found, hsearch, rfl, -⟩ | ⟨hnone, hout, -⟩⟩
  · exact ⟨nofun, nofun⟩
  · have hp : Plain ex a := ⟨hok, hadmitted.size_pos, halignment, hboundary⟩
    refine ⟨nofun, fun result hresult => ?_⟩
    rw [← Outcome.done.inj hresult]
    refine ⟨search_fits hp hadmitted hno hsearch, fun hfast r hr => ?_⟩
    obtain ⟨found', hfound', hleast⟩ := search_complete hp hadmitted hno hr
    rw [some.inj (hsearch.symm.trans hfound')]
    exact hleast hfast
  · have hp : Plain ex a := ⟨hok, hadmitted.size_pos, halignment, hboundary⟩
    refine ⟨fun _ r hr => ?_, fun result hresult => absurd hresult (hout result)⟩
    obtain ⟨found, hfound, -⟩ := search_complete hp hadmitted hno hr
    exact absurd (hnone.symm.trans hfound) nofun

/-- The gap before the first region is too small, and the next one is behind the subregion. -/
theorem nothing_fits :
    ¬∃ r, Fits (wholeExtent [⟨8, 0xfffffffffffffff0⟩]) ⟨2, 40, 8, 4, 1, 0, exFast⟩ r := by
  have hcreate : (wholeExtent []).Ok :=
    extentCreate_ok (by decide : extentCreate 0 0xffffffffffffffff 0 true =
      some (some (wholeExtent [])))
  have hok : (wholeExtent [⟨8, 0xfffffffffffffff0⟩]).Ok :=
    (extentAllocRegion_took hcreate (by decide : isset 0 exConflictok = false)
      (by decide : extentAllocRegion (wholeExtent []) 8 0xffffffffffffffe9 0 true =
        some (.done (), wholeExtent [⟨8, 0xfffffffffffffff0⟩]))).1
  have hno : NoOverflow (wholeExtent [⟨8, 0xfffffffffffffff0⟩]) ⟨2, 40, 8, 4, 1, 0, exFast⟩ :=
    ⟨by decide, fun last hlast => absurd (hlast : none = some last) nofun⟩
  rintro ⟨r, hr⟩
  exact (extent_alloc_subregion_complete hok ⟨2, rfl⟩ rfl hno
    (by decide : extentAllocSubregion (wholeExtent [⟨8, 0xfffffffffffffff0⟩])
      ⟨2, 40, 8, 4, 1, 0, exFast⟩ true =
        some (.error .EAGAIN, wholeExtent [⟨8, 0xfffffffffffffff0⟩]))).1 rfl r hr

end Mbsd.Kern.SubrExtent
