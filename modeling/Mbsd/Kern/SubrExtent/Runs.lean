import Mbsd.Kern.SubrExtent.Alloc

/-! Any sequence of calls on an extent. -/

namespace Mbsd.Kern.SubrExtent

open List Option BitVec

variable {ex ex' : Extent} {a : AllocArgs} {start size stop : BitVec 64} {flags : BitVec 32}
  {descr : Bool}

/-- The extents that calls lead to.  A call that sleeps is followed by a new attempt with its
arguments; no search starts at a place that has wrapped. -/
inductive ExtentRun : Extent → Prop
  | create {ex : Extent} {start stop : BitVec 64} {flags : BitVec 32} {descr : Bool} :
      extentCreate start stop flags descr = some (some ex) → ExtentRun ex
  | allocRegion {ex ex' : Extent} {start size : BitVec 64} {flags : BitVec 32} {descr : Bool}
      {out : Outcome Unit} :
      ExtentRun ex → isset flags exConflictok = false →
      extentAllocRegion ex start size flags descr = some (out, ex') → ExtentRun ex'
  | allocSubregion {ex ex' : Extent} {a : AllocArgs} {descr : Bool} {out : Outcome (BitVec 64)} :
      ExtentRun ex → (descr = true → AllocSafe ex a) →
      extentAllocSubregion ex a descr = some (out, ex') → ExtentRun ex'
  | free {ex ex' : Extent} {start size : BitVec 64} {flags : BitVec 32} {descr : Bool}
      {out : Outcome Unit} :
      ExtentRun ex → extentFree ex start size flags descr = some (out, ex') → ExtentRun ex'

theorem extentCreate_ok (h : extentCreate start stop flags descr = some (some ex)) : ex.Ok := by
  rw [extentCreate] at h
  split at h
  next => exact absurd h nofun
  next hle =>
    rw [lt_def, Nat.not_lt] at hle
    dsimp only at h
    split at h
    next =>
      split at h
      next =>
        obtain rfl := some.inj (some.inj h)
        refine ⟨pairwise_singleton _ _, fun r hr => ?_, fun r hr => ?_⟩
        · rw [mem_singleton.mp hr]
          exact hle
        · rw [mem_singleton.mp hr]
          exact ⟨Nat.le_refl _, Nat.le_refl _⟩
      next => exact absurd (some.inj h) nofun
    next =>
      obtain rfl := some.inj (some.inj h)
      exact ⟨.nil, fun r hr => absurd hr not_mem_nil, fun r hr => absurd hr not_mem_nil⟩

theorem extentFree_ok {out : Outcome Unit} (h : ex.Ok)
    (hcall : extentFree ex start size flags descr = some (out, ex')) : ex'.Ok := by
  rw [extentFree] at hcall
  dsimp only at hcall
  split at hcall
  next => exact absurd hcall nofun
  next hargs =>
    have hstop : start.toNat ≤ (start + (size - 1)).toNat := Nat.le_of_not_lt fun hlt =>
      hargs (.inr (.inr (lt_def.mpr hlt)))
    split at hcall
    next =>
      obtain ⟨rfl, rfl⟩ := Prod.ext_iff.mp (some.inj hcall)
      exact h
    next =>
      have hfreed := freeLoop_shrunk ex.nocoalesce (isset flags exConflictok) hstop h.sorted h.valid
      split at hcall
      next => exact absurd hcall nofun
      next =>
        obtain ⟨-, rfl⟩ := Prod.ext_iff.mp (some.inj hcall)
        refine ⟨hfreed.sorted, hfreed.valid, fun r hr => ?_⟩
        obtain ⟨b, hb, hlo, hhi⟩ := hfreed.within r hr
        obtain ⟨hlow, hhigh⟩ := h.inside b hb
        exact ⟨Nat.le_trans hlow hlo, Nat.le_trans hhi hhigh⟩

theorem ExtentRun.ok (h : ExtentRun ex) : ex.Ok := by
  induction h with
  | create h => exact extentCreate_ok h
  | allocRegion _ hflags hcall ih => exact (extentAllocRegion_took ih hflags hcall).1
  | allocSubregion _ hsafe hcall ih => exact (extentAllocSubregion_took ih hsafe hcall).1
  | free _ hcall ih => exact extentFree_ok ih hcall

/-- The regions stay in order, disjoint and inside the extent, and nothing is allocated twice. -/
theorem extent_exclusive (h : ExtentRun ex) : ex.Ok ∧
      (∀ start size flags descr ex', isset flags exConflictok = false →
        extentAllocRegion ex start size flags descr = some (.done (), ex') →
          Took ex ex' start size) ∧ ∀ a descr result ex', (descr = true → AllocSafe ex a) →
        extentAllocSubregion ex a descr = some (.done result, ex') → Took ex ex' result a.size := by
  refine ⟨h.ok, fun start size flags descr ex' hflags hcall => ?_,
    fun a descr result ex' hsafe hcall => ?_⟩
  · exact (extentAllocRegion_took h.ok hflags hcall).2 rfl
  · exact (extentAllocSubregion_took h.ok hsafe hcall).2 result rfl

def wholeExtent (regions : List Region) : Extent where
  exRegions := regions
  exStart := 0
  exEnd := 0xffffffffffffffff
  exFlags := 0

/-- All is allocated, and the search starts over at 0; or the next multiple of the boundary wraps. -/
theorem extent_handed_out_twice :
    (extentCreate 0 0xffffffffffffffff 0 true = some (some (wholeExtent [])) ∧
      extentAllocRegion (wholeExtent []) 0 0xffffffffffffffff 0 true =
        some (.done (), wholeExtent [⟨0, 0xfffffffffffffffe⟩]) ∧
      extentAllocRegion (wholeExtent [⟨0, 0xfffffffffffffffe⟩]) 0xffffffffffffffff 1 0 true =
        some (.done (), wholeExtent [⟨0, 0xffffffffffffffff⟩]) ∧
      extentAllocSubregion (wholeExtent [⟨0, 0xffffffffffffffff⟩])
          ⟨1, 0xffffffffffffffff, 1, 1, 0, 0, 0⟩ true = some (.done 0, wholeExtent [⟨0, 0⟩])) ∧
    extentAllocRegion (wholeExtent []) 0 0xfffffffffffffffe 0 true =
        some (.done (), wholeExtent [⟨0, 0xfffffffffffffffd⟩]) ∧
      extentAllocSubregion (wholeExtent [⟨0, 0xfffffffffffffffd⟩])
          ⟨0xfffffffffffffffe, 0xffffffffffffffff, 1, 1, 0, 3, 0⟩ true =
        some (.done 1, wholeExtent [⟨0, 0xfffffffffffffffd⟩, ⟨1, 1⟩]) := by
  decide

/-- Two allocations at the top of the range. -/
theorem extent_exclusive_top : ∃ ex', extentAllocSubregion (wholeExtent [⟨0, 0xfffffffffffffffd⟩])
        ⟨0xfffffffffffffffd, 0xffffffffffffffff, 2, 2, 0, 0, 0⟩ true =
          some (.done 0xfffffffffffffffe, ex') ∧
      Took (wholeExtent [⟨0, 0xfffffffffffffffd⟩]) ex' 0xfffffffffffffffe 2 := by
  have hrun : ExtentRun (wholeExtent []) :=
    .create (by decide : extentCreate 0 0xffffffffffffffff 0 true = some (some (wholeExtent [])))
  have hrun := hrun.allocRegion (by decide : isset 0 exConflictok = false)
    (by decide : extentAllocRegion (wholeExtent []) 0 0xfffffffffffffffe 0 true =
      some (.done (), wholeExtent [⟨0, 0xfffffffffffffffd⟩]))
  have hcall : extentAllocSubregion (wholeExtent [⟨0, 0xfffffffffffffffd⟩])
      ⟨0xfffffffffffffffd, 0xffffffffffffffff, 2, 2, 0, 0, 0⟩ true =
        some (.done 0xfffffffffffffffe, wholeExtent [⟨0, 0xffffffffffffffff⟩]) := by decide
  refine ⟨_, hcall, (extent_exclusive hrun).2.2 _ _ _ _ (fun _ => ⟨?_, ?_⟩) hcall⟩
  · intro last hlast hle
    obtain rfl : ⟨0, 0xfffffffffffffffd⟩ = last := some.inj hlast
    exact absurd hle (by decide)
  · exact fun _ hboundary => absurd rfl hboundary

end Mbsd.Kern.SubrExtent
