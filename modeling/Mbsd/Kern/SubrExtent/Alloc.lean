import Mbsd.Kern.SubrExtent.Regions
import Mbsd.Lib.Bitmap

/-! The search for a place: `extent_alloc_region` and `extent_alloc_subregion` find gaps, as long as
the start of the search does not wrap. -/

namespace Mbsd.Kern.SubrExtent

open List Option

variable {ex ex' : Extent} {a : AllocArgs} {start size stop newstart : BitVec 64}
  {before rest l : List Region} {r rp : Region} {b : Best} {fit : Fit} {before' rest' : List Region}
  {x : BitVec 64} {flags : BitVec 32} {descr : Bool} {out : Outcome Unit}

/-- What a place tells of the regions that it was found in. -/
def Place.Found (start stop : BitVec 64) (l : List Region) : Place → Prop
  | .free before rest =>
    l = before ++ rest ∧ (∀ r ∈ before, r.hi < start.toNat) ∧ ∀ r ∈ rest.head?, stop.toNat < r.lo
  | .conflict before rp rest => l = before ++ rp :: rest ∧ (∀ r ∈ before, r.hi < start.toNat) ∧
    rp.lo ≤ stop.toNat ∧ start.toNat ≤ rp.hi

theorem findPlace_found (hbefore : ∀ r ∈ before, r.hi < start.toNat) :
    (findPlace start stop before rest).Found start stop (before ++ rest) := by
  induction rest generalizing before with
  | nil => exact ⟨rfl, hbefore, nofun⟩
  | cons a l ih =>
    rw [findPlace]
    split
    next hbehind =>
      refine ⟨rfl, hbefore, ?_⟩
      rintro r ⟨⟩
      exact BitVec.lt_def.mp hbehind
    next hbehind =>
      rw [gt_iff_lt, BitVec.lt_def, Nat.not_lt] at hbehind
      split
      next hin => exact ⟨rfl, hbefore, hbehind, BitVec.le_def.mp hin⟩
      next hahead =>
        rw [ge_iff_le, BitVec.le_def, Nat.not_le] at hahead
        have hbefore : ∀ r ∈ before ++ [a], r.hi < start.toNat := by
          intro r hr
          rcases mem_append.mp hr with hr | hr
          · exact hbefore r hr
          · exact mem_singleton.mp hr ▸ hahead
        have hfound := ih hbefore
        rwa [List.append_assoc, List.singleton_append] at hfound

theorem findPlace_conflict (h : findPlace start stop [] l = .conflict before rp rest) :
    l = before ++ rp :: rest ∧ (∀ r ∈ before, r.hi < start.toNat) ∧
      rp.lo ≤ stop.toNat ∧ start.toNat ≤ rp.hi := by
  have hfound : (findPlace start stop [] l).Found start stop l := findPlace_found nofun
  rwa [h] at hfound

theorem Extent.Ok.findPlace_free (h : ex.Ok)
    (hplace : findPlace start stop [] ex.exRegions = .free before rest) :
    ex.exRegions = before ++ rest ∧ (∀ r ∈ before, r.hi < start.toNat) ∧
      ∀ r ∈ rest, stop.toNat < r.lo := by
  have hfound : (findPlace start stop [] ex.exRegions).Found start stop ex.exRegions :=
    findPlace_found nofun
  rw [hplace] at hfound
  obtain ⟨hl, hbefore, hhead⟩ := hfound
  refine ⟨hl, hbefore, fun r hr => ?_⟩
  cases rest with
  | nil => cases hr
  | cons a rest =>
    have ha := hhead a rfl
    obtain ⟨-, hbeyond, hvalid, -⟩ := h.before_of_append hl
    rcases mem_cons.mp hr with rfl | hr
    · exact ha
    · exact ha.trans_le (hvalid.trans (hbeyond r hr).le)

structure Took (ex ex' : Extent) (start size : BitVec 64) : Prop where
  ok : ex'.Ok
  inside : ex.exStart.toNat ≤ start.toNat ∧ start.toNat + (size.toNat - 1) ≤ ex.exEnd.toNat
  free : ∀ x, start.toNat ≤ x → x ≤ start.toNat + (size.toNat - 1) → ¬Held ex.exRegions x
  held : ∀ x, Held ex'.exRegions x ↔
    Held ex.exRegions x ∨ start.toNat ≤ x ∧ x ≤ start.toNat + (size.toNat - 1)

theorem Gap.took (g : Gap ex start size before rest) (h : ex.Ok) :
    Took ex { ex with exRegions := extentInsertAndOptimize ex start size before rest } start size := by
  obtain ⟨hok, hheld⟩ := h.insert g
  refine ⟨hok, ⟨g.start_le, g.le_end⟩, fun x hlo hhi hx => ?_, hheld⟩
  rw [g.regions, held_append] at hx
  rcases hx with ⟨r, hr, hrlo, hrhi⟩ | ⟨r, hr, hrlo, hrhi⟩
  · have := g.before_lt r hr
    omega
  · have := g.lt_rest r hr
    omega

theorem Extent.Ok.of_flags (h : ex.Ok) (flags : BitVec 32) : { ex with exFlags := flags }.Ok :=
  ⟨h.sorted, h.valid, h.inside⟩

theorem extentAllocRegion_cases
    (h : ex.Ok)
    (hfree : isset flags exConflictok = false ∨
      ∀ x, start.toNat ≤ x → x ≤ start.toNat + (size.toNat - 1) → ¬Held ex.exRegions x)
    (hcall : extentAllocRegion ex start size flags descr = some (out, ex')) :
    (∃ before rest, Gap ex start size before rest ∧
        ex' = { ex with exRegions := extentInsertAndOptimize ex start size before rest }) ∨
      out ≠ .done () ∧ ∃ flags, ex' = { ex with exFlags := flags } := by
  rw [extentAllocRegion] at hcall
  split at hcall
  next =>
    obtain ⟨rfl, rfl⟩ := Prod.ext_iff.mp (Option.some.inj hcall)
    exact Or.inr ⟨nofun, _, rfl⟩
  next =>
    rw [extentDoAllocRegion] at hcall
    split at hcall
    next => exact absurd hcall nofun
    next hargs =>
      split at hcall
      next => exact absurd hcall nofun
      next hinside =>
        rw [not_or, not_or, BitVec.lt_def, BitVec.lt_def] at hargs
        rw [not_or, BitVec.lt_def, gt_iff_lt, BitVec.lt_def] at hinside
        have hpos : 1 ≤ size.toNat := Nat.le_of_not_lt hargs.1
        have hstop := toNat_stop_of_le hpos (Nat.le_of_not_lt hargs.2.1)
        rw [hstop] at hinside
        rw [allocRegionLoop] at hcall
        split at hcall
        next before rest hplace =>
          obtain ⟨-, rfl⟩ := Prod.ext_iff.mp (Option.some.inj hcall)
          obtain ⟨hl, hbefore, hrest⟩ := h.findPlace_free hplace
          rw [hstop] at hrest
          exact Or.inl ⟨before, rest,
            ⟨hl, hpos, Nat.le_of_not_lt hinside.1, Nat.le_of_not_lt hinside.2, hbefore, hrest⟩, rfl⟩
        next before rp rest hplace =>
          obtain ⟨hl, -, hlo, hhi⟩ := findPlace_conflict hplace
          have hmem : rp ∈ ex.exRegions := hl ▸ List.mem_append_right _ List.mem_cons_self
          have hvalid := h.valid rp hmem
          rw [hstop] at hlo
          split at hcall
          next =>
            obtain ⟨rfl, rfl⟩ := Prod.ext_iff.mp (Option.some.inj hcall)
            exact Or.inr ⟨nofun, _, rfl⟩
          next =>
            rcases hfree with hflags | hfree
            · rw [hflags, if_neg Bool.false_ne_true] at hcall
              obtain ⟨rfl, rfl⟩ := Prod.ext_iff.mp (Option.some.inj hcall)
              exact Or.inr ⟨nofun, _, rfl⟩
            · -- the first number that the range and the region share
              refine absurd ⟨rp, hmem, ?_, ?_⟩ (hfree (max start.toNat rp.lo) ?_ ?_) <;> omega

theorem extentAllocRegion_took
    (h : ex.Ok) (hflags : isset flags exConflictok = false)
    (hcall : extentAllocRegion ex start size flags descr = some (out, ex')) :
    ex'.Ok ∧ (out = .done () → Took ex ex' start size) := by
  rcases extentAllocRegion_cases h (.inl hflags) hcall with
    ⟨before, rest, hg, rfl⟩ | ⟨hout, flags, rfl⟩
  · exact ⟨(hg.took h).ok, fun _ => hg.took h⟩
  · exact ⟨h.of_flags _, fun hdone => absurd hdone hout⟩

def ChunkSafe (ex : Extent) (a : AllocArgs) (fit : BitVec 64 → Bool) (newstart : BitVec 64) :
    Prop :=
  fit newstart = true → a.boundary ≠ 0 → ex.exStart ≤ dontcross ex a newstart →
    newstart ≤ dontcross ex a newstart

def Chunk.goesOn (a : AllocArgs) (rp : Region) : Chunk → Prop
  | .fits newstart => ¬(isset a.flags exFast ∨ rp.erStart - newstart - a.size = 0)
  | .skip => True
  | .fail => False

def ScanSafe (ex : Extent) (a : AllocArgs) (newstart : BitVec 64) : List Region → Prop
  | [] => ChunkSafe ex a (fun x => leOv x (a.size - 1) a.subend) newstart
  | rp :: l =>
    if rp.erStart > a.subend then
      ChunkSafe ex a (fun x => leOv x (a.size - 1) a.subend) newstart
    else
      let newstart' := extentAlign (rp.erEnd + 1) a.alignment a.skew
      ChunkSafe ex a (fun x => leOv x a.size rp.erStart) newstart ∧
        ((checkChunk ex a (fun x => leOv x a.size rp.erStart) newstart).goesOn a rp →
          ¬newstart' < rp.erEnd → ScanSafe ex a newstart' l)

theorem leOv_iff {y z : BitVec 64} : leOv x y z = true ↔ x.toNat + y.toNat ≤ z.toNat := by
  rw [leOv, Bool.and_eq_true, decide_eq_true_iff, decide_eq_true_iff, ge_iff_le, BitVec.le_def,
    BitVec.le_def, BitVec.toNat_add]
  omega

theorem checkEnd_fits {d : BitVec 64} (h : checkEnd ex size newstart d = .fits x) :
    x = newstart := by
  rw [checkEnd] at h
  split at h
  next => exact absurd h nofun
  next => exact (Chunk.fits.inj h).symm

theorem checkChunk_fits {fit : BitVec 64 → Bool}
    (hsafe : ChunkSafe ex a fit newstart) (h : checkChunk ex a fit newstart = .fits x) :
    fit x = true ∧ newstart.toNat ≤ x.toNat := by
  rw [checkChunk] at h
  split at h
  next hfit =>
    rw [checkBoundary] at h
    split at h
    next =>
      obtain rfl := Chunk.fits.inj h
      exact ⟨hfit, Nat.le_refl _⟩
    next hboundary =>
      have hsafe := hsafe hfit hboundary
      dsimp only at h
      split at h
      next =>
        obtain rfl := checkEnd_fits h
        exact ⟨hfit, Nat.le_refl _⟩
      next hcross =>
        rw [BitVec.lt_def, Nat.not_lt, ← BitVec.le_def] at hcross
        split at h
        next hover =>
          split at h
          next => exact absurd h nofun
          next hfit' =>
            rw [Bool.not_eq_true, Bool.not_eq_false'] at hfit'
            rw [gt_iff_lt, BitVec.lt_def] at hover
            have hle := BitVec.le_def.mp (hsafe hcross)
            have hnext := @toNat_add_one (dontcross ex a newstart) (by omega)
            rw [checkEnd_fits h]
            exact ⟨hfit', by omega⟩
        next =>
        obtain rfl := checkEnd_fits h
        exact ⟨hfit, Nat.le_refl _⟩
  next => exact absurd h nofun

/-- A place to search from: it lies in the extent and behind the regions that were passed. -/
structure Candidate (ex : Extent) (newstart : BitVec 64) (before rest : List Region) : Prop where
  regions : ex.exRegions = before ++ rest
  start_le : ex.exStart.toNat ≤ newstart.toNat
  before_lt : ∀ r ∈ before, r.hi < newstart.toNat

theorem Candidate.gap (c : Candidate ex newstart before rest)
    (hle : newstart.toNat ≤ x.toNat) (hpos : 1 ≤ size.toNat)
    (hend : x.toNat + (size.toNat - 1) ≤ ex.exEnd.toNat)
    (hrest : ∀ r ∈ rest, x.toNat + (size.toNat - 1) < r.lo) : Gap ex x size before rest := by
  refine ⟨c.regions, hpos, Nat.le_trans c.start_le hle, hend, fun r hr => ?_, hrest⟩
  have := c.before_lt r hr
  omega

theorem lt_extentAlign {alignment skew : BitVec 64} (halign : alignment ≠ 0)
    (hnext : ¬extentAlign (rp.erEnd + 1) alignment skew < rp.erEnd) :
    rp.hi < (extentAlign (rp.erEnd + 1) alignment skew).toNat := by
  have hpos : 0 < alignment.toNat := Nat.pos_of_ne_zero fun h => halign (BitVec.toNat_inj.mp h)
  obtain ⟨d, hd, heq⟩ := Lib.AlignUp.toNat_alignUp hpos (rp.erEnd + 1) skew
  have hsame : extentAlign (rp.erEnd + 1) alignment skew =
    Lib.AlignUp.alignUp (rp.erEnd + 1) alignment skew := rfl
  have hone : (rp.erEnd + 1).toNat = (rp.erEnd.toNat + 1) % 2 ^ 64 := BitVec.toNat_add _ _
  rw [hsame, BitVec.lt_def, heq, hone] at hnext
  rw [hsame, heq, hone, Region.hi]
  omega

theorem Candidate.next (h : ex.Ok) (c : Candidate ex newstart before (rp :: l))
    (halign : a.alignment ≠ 0)
    (hnext : ¬extentAlign (rp.erEnd + 1) a.alignment a.skew < rp.erEnd) :
    Candidate ex (extentAlign (rp.erEnd + 1) a.alignment a.skew) (before ++ [rp]) l := by
  obtain ⟨hbefore, -, hvalid, hlow, -⟩ := h.before_of_append c.regions
  have hlt := lt_extentAlign halign hnext
  refine ⟨?_, ?_, fun r hr => ?_⟩
  · rw [c.regions, List.append_assoc, List.singleton_append]
  · omega
  · rcases mem_append.mp hr with hr | hr
    · have := hbefore r hr
      omega
    · rw [mem_singleton.mp hr]
      exact hlt

def Best.All (Q : Fit → Prop) (b : Best) : Prop := b.bestovh ≠ 0 → Q b.best

section Search

variable {I : BitVec 64 → List Region → List Region → Prop} {Q : Fit → Prop}

theorem Best.All.update (hb : b.All Q) (hfit : Q fit) (ovh : BitVec 64) :
    (b.update ovh fit).All Q := by
  rw [Best.update]
  split
  next => exact fun _ => hfit
  next => exact hb

theorem Best.All.giveUp (hb : b.All Q) (h : b.giveUp flags = some fit) :
    Q fit := by
  rw [Best.giveUp] at h
  split at h
  next hbest =>
    rw [Bool.and_eq_true, decide_eq_true_iff] at hbest
    exact some.inj h ▸ hb hbest.2
  next => exact absurd h nofun

theorem scanEnd_rule {exend : BitVec 64}
    (hend : ∀ x, checkChunk ex a (fun x => leOv x (a.size - 1) a.subend) newstart = .fits x →
      Q ⟨x, before, rest⟩)
    (hb : b.All Q) (h : scanEnd ex a newstart before rest exend b = some fit) : Q fit := by
  rw [scanEnd] at h
  cases hchunk : checkChunk ex a (fun x => leOv x (a.size - 1) a.subend) newstart with
  | fits x =>
    rw [hchunk] at h
    dsimp only at h
    split at h
    next => exact some.inj h ▸ hend x hchunk
    next => exact (hb.update (hend x hchunk) _).giveUp h
  | skip =>
    rw [hchunk] at h
    exact hb.giveUp h
  | fail =>
    rw [hchunk] at h
    exact hb.giveUp h

theorem scan_rule
    (hend : ∀ newstart before rest x, I newstart before rest →
      (∀ rp ∈ rest.head?, rp.erStart > a.subend) →
      checkChunk ex a (fun x => leOv x (a.size - 1) a.subend) newstart = .fits x →
      Q ⟨x, before, rest⟩)
    (hchunk : ∀ newstart before rp l x, I newstart before (rp :: l) → ¬rp.erStart > a.subend →
      checkChunk ex a (fun x => leOv x a.size rp.erStart) newstart = .fits x →
      Q ⟨x, before, rp :: l⟩)
    (hnext : ∀ newstart before rp l, I newstart before (rp :: l) → ¬rp.erStart > a.subend →
      (checkChunk ex a (fun x => leOv x a.size rp.erStart) newstart).goesOn a rp →
      ¬extentAlign (rp.erEnd + 1) a.alignment a.skew < rp.erEnd →
      I (extentAlign (rp.erEnd + 1) a.alignment a.skew) (before ++ [rp]) l)
    (hI : I newstart before rest) (hb : b.All Q)
    (h : scan ex a newstart before b rest = some fit) : Q fit := by
  induction rest generalizing newstart before b with
  | nil =>
    exact scanEnd_rule (hend newstart before [] · hI (fun rp hrp => absurd hrp nofun)) hb h
  | cons rp l ih =>
    rw [scan] at h
    by_cases hbehind : rp.erStart > a.subend
    · rw [if_pos hbehind] at h
      refine scanEnd_rule (hend newstart before (rp :: l) · hI fun rp' hrp' => ?_) hb h
      exact mem_some.mp hrp' ▸ hbehind
    · rw [if_neg hbehind] at h
      -- what happens when the search goes on behind `rp`
      have hgo : ∀ b : Best, b.All Q →
          (checkChunk ex a (fun x => leOv x a.size rp.erStart) newstart).goesOn a rp →
          (if extentAlign (rp.erEnd + 1) a.alignment a.skew < rp.erEnd then b.giveUp a.flags
            else scan ex a (extentAlign (rp.erEnd + 1) a.alignment a.skew) (before ++ [rp]) b l) =
              some fit → Q fit := by
        intro b hb hgo h
        split at h
        next => exact hb.giveUp h
        next hwrap => exact ih (hnext newstart before rp l hI hbehind hgo hwrap) hb h
      dsimp only at h
      cases hfits : checkChunk ex a (fun x => leOv x a.size rp.erStart) newstart with
      | fits x =>
        rw [hfits] at h hgo
        have hQ := hchunk newstart before rp l x hI hbehind hfits
        dsimp only at h
        split at h
        next => exact some.inj h ▸ hQ
        next hgoes => exact hgo _ (hb.update hQ _) hgoes h
      | skip =>
        rw [hfits] at h hgo
        exact hgo b hb trivial h
      | fail =>
        rw [hfits] at h
        exact hb.giveUp h

end Search

def Best.Good (ex : Extent) (size : BitVec 64) (b : Best) : Prop :=
  b.bestovh ≠ 0 → Gap ex b.best.newstart size b.best.before b.best.rest

theorem scan_gap (hok : ex.Ok) (c : Candidate ex newstart before rest) (halign : a.alignment ≠ 0)
    (hpos : 1 ≤ a.size.toNat) (hsub : a.subend.toNat ≤ ex.exEnd.toNat) (hb : b.Good ex a.size)
    (hsafe : ScanSafe ex a newstart rest) (h : scan ex a newstart before b rest = some fit) :
    Gap ex fit.newstart a.size fit.before fit.rest := by
  refine scan_rule (I := fun newstart before rest =>
      Candidate ex newstart before rest ∧ ScanSafe ex a newstart rest)
    (Q := fun fit => Gap ex fit.newstart a.size fit.before fit.rest) ?_ ?_ ?_ ⟨c, hsafe⟩ hb h
  · rintro newstart before rest x ⟨c, hsafe⟩ hrest hchunk
    have hchunksafe : ChunkSafe ex a (fun x => leOv x (a.size - 1) a.subend) newstart := by
      cases rest with
      | nil => exact hsafe
      | cons rp l =>
        rw [ScanSafe, if_pos (hrest rp rfl)] at hsafe
        exact hsafe
    obtain ⟨hfit, hle⟩ := checkChunk_fits hchunksafe hchunk
    rw [leOv_iff, toNat_sub_one hpos] at hfit
    change Gap ex x a.size before rest
    refine c.gap hle hpos (Nat.le_trans hfit hsub) fun r hr => ?_
    cases rest with
    | nil => exact absurd hr not_mem_nil
    | cons rp l =>
      have hbehind := BitVec.lt_def.mp (hrest rp rfl)
      obtain ⟨-, hrest, hvalid, -⟩ := hok.before_of_append c.regions
      rcases mem_cons.mp hr with rfl | hr
      · rw [Region.lo]
        omega
      · have := hrest r hr
        rw [Region.lo] at hvalid
        omega
  · rintro newstart before rp l x ⟨c, hsafe⟩ hbehind hchunk
    rw [ScanSafe, if_neg hbehind] at hsafe
    obtain ⟨-, hrest, hvalid, -, hhigh⟩ := hok.before_of_append c.regions
    obtain ⟨hfit, hle⟩ := checkChunk_fits hsafe.1 hchunk
    rw [leOv_iff] at hfit
    rw [Region.lo] at hvalid
    change Gap ex x a.size before (rp :: l)
    refine c.gap hle hpos (by omega) fun r hr => ?_
    rcases mem_cons.mp hr with rfl | hr
    · rw [Region.lo]
      omega
    · have := hrest r hr
      omega
  · rintro newstart before rp l ⟨c, hsafe⟩ hbehind hgo hwrap
    rw [ScanSafe, if_neg hbehind] at hsafe
    exact ⟨c.next hok halign hwrap, hsafe.2 hgo hwrap⟩

/-- The search does not start at a place that has wrapped, and meets no boundary that has. -/
structure AllocSafe (ex : Extent) (a : AllocArgs) : Prop where
  relocated : ∀ last, (lastBefore (extentAlign a.substart a.alignment a.skew)
      ex.exRegions).getLast? = some last →
    extentAlign a.substart a.alignment a.skew ≤ last.erEnd →
    ¬extentAlign (last.erEnd + 1) a.alignment a.skew < last.erEnd
  boundaries : ScanSafe ex a
    (relocate a (extentAlign a.substart a.alignment a.skew)
      (lastBefore (extentAlign a.substart a.alignment a.skew) ex.exRegions))
    (ex.exRegions.drop
      (lastBefore (extentAlign a.substart a.alignment a.skew) ex.exRegions).length)

theorem candidate_start (h : ex.Ok) (halign : a.alignment ≠ 0)
    (hstart : ¬extentAlign a.substart a.alignment a.skew < ex.exStart)
    (hrelocate : ∀ last, (lastBefore (extentAlign a.substart a.alignment a.skew)
        ex.exRegions).getLast? = some last →
      extentAlign a.substart a.alignment a.skew ≤ last.erEnd →
      ¬extentAlign (last.erEnd + 1) a.alignment a.skew < last.erEnd) :
    Candidate ex
      (relocate a (extentAlign a.substart a.alignment a.skew)
        (lastBefore (extentAlign a.substart a.alignment a.skew) ex.exRegions))
      (lastBefore (extentAlign a.substart a.alignment a.skew) ex.exRegions)
      (ex.exRegions.drop
        (lastBefore (extentAlign a.substart a.alignment a.skew) ex.exRegions).length) := by
  generalize extentAlign a.substart a.alignment a.skew = newstart at hstart hrelocate ⊢
  rw [BitVec.lt_def, Nat.not_lt] at hstart
  have hl : ex.exRegions = lastBefore newstart ex.exRegions ++
      ex.exRegions.drop (lastBefore newstart ex.exRegions).length :=
    (prefix_iff_eq_append.mp ( takeWhile_prefix _)).symm
  generalize ex.exRegions.drop (lastBefore newstart ex.exRegions).length = rest at hl ⊢
  generalize lastBefore newstart ex.exRegions = before at hl hrelocate ⊢
  rw [relocate]
  cases hlast : before.getLast? with
  | none =>
    obtain rfl := getLast?_eq_none_iff.mp hlast
    exact ⟨hl, hstart, fun r hr => absurd hr not_mem_nil⟩
  | some last =>
    obtain ⟨p, rfl⟩ := getLast?_eq_some_iff.mp hlast
    have hl' := hl
    rw [List.append_assoc, List.singleton_append] at hl'
    obtain ⟨hp, -, hvalid, hlow, -⟩ := h.before_of_append hl'
    have hbehind : ∀ x : BitVec 64, last.hi < x.toNat →
        Candidate ex x (p ++ [last]) rest := by
      intro x hx
      refine ⟨hl, by omega, fun r hr => ?_⟩
      rcases mem_append.mp hr with hr | hr
      · have := hp r hr
        omega
      · exact mem_singleton.mp hr ▸ hx
    dsimp only
    split
    next hover => exact hbehind _ (lt_extentAlign halign (hrelocate last hlast hover))
    next hfree =>
      rw [ge_iff_le, BitVec.le_def, Nat.not_le] at hfree
      exact hbehind _ hfree

def search (ex : Extent) (a : AllocArgs) : Option Fit :=
  scan ex a
    (relocate a (extentAlign a.substart a.alignment a.skew)
      (lastBefore (extentAlign a.substart a.alignment a.skew) ex.exRegions))
    (lastBefore (extentAlign a.substart a.alignment a.skew) ex.exRegions)
    { bestovh := 0, best := { newstart := 0, before := [], rest := ex.exRegions } }
    (ex.exRegions.drop
      (lastBefore (extentAlign a.substart a.alignment a.skew) ex.exRegions).length)

structure Admitted (ex : Extent) (a : AllocArgs) : Prop where
  start_le : ex.exStart.toNat ≤ a.substart.toNat
  le_end : a.subend.toNat ≤ ex.exEnd.toNat
  size_pos : 1 ≤ a.size.toNat
  alignment_ne : a.alignment ≠ 0
  start : ¬extentAlign a.substart a.alignment a.skew < ex.exStart

theorem extentAllocSubregion_cases {out : Outcome (BitVec 64)}
    (hcall : extentAllocSubregion ex a descr = some (out, ex')) :
    descr = false ∧ out = .error .ENOMEM ∧ ex' = ex ∨
      descr = true ∧ Admitted ex a ∧
        ((∃ fit, search ex a = some fit ∧ out = .done fit.newstart ∧
            ex' = { ex with exRegions :=
              extentInsertAndOptimize ex fit.newstart a.size fit.before fit.rest }) ∨
          search ex a = none ∧ (∀ result, out ≠ .done result) ∧
            ∃ flags, ex' = { ex with exFlags := flags }) := by
  rw [extentAllocSubregion] at hcall
  cases descr with
  | false =>
    rw [Bool.not_false, if_pos rfl] at hcall
    obtain ⟨rfl, rfl⟩ := Prod.ext_iff.mp (Option.some.inj hcall)
    exact Or.inl ⟨rfl, rfl, rfl⟩
  | true =>
    rw [Bool.not_true, if_neg Bool.false_ne_true, extentDoAlloc] at hcall
    split at hcall
    next => exact absurd hcall (by simp)
    next hsub =>
    split at hcall
    next => exact absurd hcall (by simp)
    next hsize =>
    split at hcall
    next => exact absurd hcall (by simp)
    next halign =>
    split at hcall
    next => exact absurd hcall (by simp)
    next =>
    dsimp only at hcall
    by_cases hstart : extentAlign a.substart a.alignment a.skew < ex.exStart
    · rw [if_pos hstart] at hcall
      exact absurd hcall (by simp)
    rw [if_neg hstart] at hcall
    have hadmitted : Admitted ex a := by
      rw [not_or, not_or, not_or, gt_iff_lt, gt_iff_lt, BitVec.lt_def, BitVec.lt_def, BitVec.lt_def,
        BitVec.lt_def] at hsub
      rw [not_or, BitVec.lt_def] at hsize
      exact ⟨Nat.le_of_not_lt hsub.1, Nat.le_of_not_lt hsub.2.2.1, Nat.le_of_not_lt hsize.1, halign,
        hstart⟩
    refine Or.inr ⟨rfl, hadmitted, ?_⟩
    cases hsearch : search ex a with
    | some fit =>
      rw [search] at hsearch
      rw [hsearch] at hcall
      obtain ⟨rfl, rfl⟩ := Prod.ext_iff.mp (Option.some.inj hcall)
      exact Or.inl ⟨fit, rfl, rfl, rfl⟩
    | none =>
      rw [search] at hsearch
      rw [hsearch] at hcall
      dsimp only at hcall
      split at hcall
      next =>
        obtain ⟨rfl, rfl⟩ := Prod.ext_iff.mp (Option.some.inj hcall)
        exact Or.inr ⟨rfl, fun _ => (by simp), _, rfl⟩
      next =>
        obtain ⟨rfl, rfl⟩ := Prod.ext_iff.mp (Option.some.inj hcall)
        exact Or.inr ⟨rfl, fun _ => (by simp), _, rfl⟩

theorem search_gap (h : ex.Ok) (hadmitted : Admitted ex a) (hsafe : AllocSafe ex a)
    (hsearch : search ex a = some fit) : Gap ex fit.newstart a.size fit.before fit.rest :=
  scan_gap h (candidate_start h hadmitted.alignment_ne hadmitted.start hsafe.relocated)
    hadmitted.alignment_ne hadmitted.size_pos hadmitted.le_end (fun hbest => absurd rfl hbest)
    hsafe.boundaries hsearch

theorem extentAllocSubregion_took {out : Outcome (BitVec 64)} (h : ex.Ok)
    (hsafe : descr = true → AllocSafe ex a)
    (hcall : extentAllocSubregion ex a descr = some (out, ex')) :
    ex'.Ok ∧ ∀ result, out = .done result → Took ex ex' result a.size := by
  rcases extentAllocSubregion_cases hcall with
    ⟨-, rfl, rfl⟩ | ⟨hdescr, hadmitted, ⟨fit, hsearch, rfl, rfl⟩ | ⟨-, hout, flags, rfl⟩⟩
  · exact ⟨h, fun _ hresult => nomatch hresult⟩
  · have hgap := search_gap h hadmitted (hsafe hdescr) hsearch
    refine ⟨(hgap.took h).ok, fun result hresult => ?_⟩
    rw [← Outcome.done.inj hresult]
    exact hgap.took h
  · exact ⟨h.of_flags _, fun result hresult => absurd hresult (hout result)⟩

end Mbsd.Kern.SubrExtent
