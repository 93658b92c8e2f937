import Mbsd.Net.Art.Walk

/-! Whole runs of the iterator. -/

namespace Mbsd.Net.Allotment

open Lib Lib.HeapIndex Lib.LongestPrefix Lib.Visit Sys List Option ArtNode

variable {pool : Ptr → Bool} {alen plen : Nat} {art₀ art art' : Art} {R₀ R : Routes}
  {tab : Tables} {π : List Bool} {p : Ptr} {ai ai' : ArtIter} {returned : List ArtNode}
  {addr : List UInt8} {r : Option ArtNode} {A : List Bool → Prop} {fuel : Nat}

/-- A run of an iterator, with what it has returned so far.  Between its calls routes may be
deleted, those that it has returned and others. -/
inductive Iteration (art₀ : Art) (R₀ : Routes) :
    Art → Routes → ArtIter → List ArtNode → Prop
  | start {ai ai' : ArtIter} {art : Art} {r : Option ArtNode}
      (hrun : artIterOpen ai art₀ = some (r, ai', art)) : Iteration art₀ R₀ art R₀ ai' r.toList
  | next {art art' : Art} {R : Routes} {ai ai' : ArtIter} {returned : List ArtNode}
      {r : Option ArtNode} (h : Iteration art₀ R₀ art R ai returned)
      (hrun : artIterNext ai art = some (r, ai', art')) :
      Iteration art₀ R₀ art' R ai' (returned ++ r.toList)
  | delete {art art' : Art} {R : Routes} {ai : ArtIter} {returned : List ArtNode}
      {addr : List UInt8} {plen : Nat} {r : Option ArtNode}
      (h : Iteration art₀ R₀ art R ai returned) (hR : R (bitsOf addr plen) ≠ none)
      (hrun : artDelete art addr plen = some (r, art')) :
      Iteration art₀ R₀ art' (Function.update R (bitsOf addr plen) none) ai returned

inductive Ongoing (R₀ : Routes) (art : Art) (R : Routes) (ai : ArtIter)
    (returned : List ArtNode) : Prop
  | ended {tab : Tables} (closed : ai.aiTable = none) (sound : SoundWith art tab R noneHeld)
      (visiting : Visiting ArtNode.bits R₀ R (fun _ => False) returned)
  | paused {tab : Tables} {π : List Bool} {p : Ptr} (paused : Paused art tab R π p ai)
      (visiting : Visiting ArtNode.bits R₀ R (ahead art π p ai) returned)

theorem Outcome.ongoing (h : Outcome art R A r ai' art')
    (hv : Visiting bits R₀ R A returned) :
    Kept art art' ∧ Ongoing R₀ art' R ai' (returned ++ r.toList) := by
  cases h with
  | done kept closed sound rest =>
    refine ⟨kept, .ended closed sound ?_⟩
    rw [toList_none, append_nil]
    exact hv.skips ⟨nofun, fun κ hκ hR => hR (rest κ hκ)⟩
  | found kept paused takes => exact ⟨kept, .paused paused (hv.takes takes)⟩

theorem Outcome.closed_iff (h : Outcome art R A r ai' art') :
    r = none ↔ ai'.aiTable = none := by
  cases h with
  | done kept closed sound rest => exact iff_of_true rfl closed
  | found kept paused takes => exact iff_of_false nofun (by rw [paused.here]; nofun)

theorem Paused.delete (h : Paused art tab R π p ai) (hle : plen ≤ art.artAlen)
    (hR : R (bitsOf addr plen) ≠ none) :
    ∃ r art' tab', artDelete art addr plen = some (r, art') ∧ Kept art art' ∧
      Paused art' tab' (Function.update R (bitsOf addr plen) none) π p ai ∧
      ahead art' π p ai = ahead art π p ai := by
  obtain ⟨an, han⟩ := ne_none_iff_exists'.mp hR
  obtain ⟨art', tab', hrun, hs, hpruned⟩ := artDelete_held h.sound hle han
  have hp := hpruned.held h.table (onPath_pos h.table prefix_rfl)
  have hbits : (art'.mem p).atBits = (art.mem p).atBits :=
    congrArg Place.bits (hpruned.place hp)
  refine ⟨some an, art', tab', hrun, hpruned.kept, ⟨hp, h.here, ?_, ?_⟩, ?_⟩
  · rwa [hpruned.onPath]
  · rw [hbits]
    exact h.spot
  · rw [ahead, ahead, hbits, hpruned.kept.levels]

theorem artDelete_le (hrun : artDelete art addr plen = some (r, art')) : plen ≤ art.artAlen := by
  obtain ⟨_, hle, -⟩ := bind_eq_some_iff.mp hrun
  by_contra hgt
  rw [kassert, if_neg hgt] at hle
  cases hle

theorem Iteration.ongoing {tab₀ : Tables} (h₀ : SoundWith art₀ tab₀ R₀ noneHeld)
    (h : Iteration art₀ R₀ art R ai returned) : Kept art₀ art ∧ Ongoing R₀ art R ai returned := by
  induction h with
  | start hrun =>
    obtain ⟨r', ai', art', hrun', hout⟩ := artIterOpen_ok h₀ _
    rw [hrun', some.injEq] at hrun
    cases hrun
    exact hout.ongoing (.start h₀.values.keyed fun _ _ => trivial)
  | next _ hrun ih =>
    obtain ⟨hkept, hon⟩ := ih
    cases hon with
    | ended closed sound visiting =>
      rw [artIterNext, closed] at hrun
      cases hrun
    | paused paused visiting =>
      obtain ⟨r', ai', art', hrun', hout⟩ := artIterNext_ok paused
      rw [hrun', some.injEq] at hrun
      cases hrun
      obtain ⟨hkept', hon'⟩ := hout.ongoing visiting
      exact ⟨hkept.trans hkept', hon'⟩
  | delete _ hR hrun ih =>
    obtain ⟨hkept, hon⟩ := ih
    have hle := artDelete_le hrun
    cases hon with
    | ended closed sound visiting =>
      obtain ⟨an, han⟩ := ne_none_iff_exists'.mp hR
      obtain ⟨art', tab', hrun', hs, hpruned⟩ := artDelete_held sound hle han
      rw [hrun', some.injEq] at hrun
      cases hrun
      exact ⟨hkept.trans hpruned.kept, .ended closed hs (visiting.remove _)⟩
    | paused paused visiting =>
      obtain ⟨r', art', tab', hrun', hkept', hpaused', hahead⟩ := paused.delete hle hR
      rw [hrun', some.injEq] at hrun
      cases hrun
      exact ⟨hkept.trans hkept', .paused hpaused' (hahead ▸ visiting.remove _)⟩

theorem artIterCloseLoop_ok (hs : SoundWith art tab R (onPath tab π))
    (hp : tab π = some p) (hfuel : (art.mem p).atLevel < fuel) :
    ∃ art' tab', artIterCloseLoop fuel (some p) art = some art' ∧
      SoundWith art' tab' R noneHeld ∧ Kept art art' := by
  induction fuel generalizing art tab π p with
  | zero => omega
  | succ fuel ih =>
    have h := hs.shape
    by_cases hπ : π = []
    · subst hπ
      rw [onPath_root hp] at hs
      obtain ⟨art', tab', hfree, hs', hpruned⟩ := artTableFree_ok hs hp
      refine ⟨art', tab', ?_, hs', hpruned.kept⟩
      rw [artIterCloseLoop, (h.top hp).1, hfree, bind_eq_bind, bind_some]
      cases fuel <;> rfl
    · obtain ⟨π₀, l, q, hq, hlen, rfl⟩ := h.parent hp hπ
      obtain ⟨hparent, -, hlvl⟩ := h.child hq hlen hp
      rw [onPath_child h hq hlen hp] at hs
      obtain ⟨art1, tab1, hfree, hs1, hpruned⟩ := artTableFree_ok hs hp
      have hq1 : tab1 π₀ = some q := hpruned.held hq (onPath_pos hq prefix_rfl)
      have hlvl1 : (art1.mem q).atLevel = (art.mem q).atLevel :=
        congrArg Place.level (hpruned.place hq1)
      rw [← hpruned.onPath] at hs1
      obtain ⟨art', tab', hloop, hs', hkept⟩ := ih hs1 hq1 (by omega)
      refine ⟨art', tab', ?_, hs', hpruned.kept.trans hkept⟩
      rw [artIterCloseLoop, hparent, hfree, bind_eq_bind, bind_some, hloop]

theorem artIterClose_ok (h : Ongoing R₀ art R ai returned) :
    ∃ ai' art' tab', artIterClose ai art = some (ai', art') ∧ ai'.aiTable = none ∧
      SoundWith art' tab' R noneHeld ∧ Kept art art' := by
  rw [artIterClose]
  cases h with
  | ended closed sound visiting =>
    refine ⟨{ ai with aiTable := none }, art, _, ?_, rfl, sound, .refl art⟩
    rw [closed]
    cases art.artLevels.length <;> rfl
  | paused paused visiting =>
    have hlevel := (paused.sound.shape.table paused.table).level
    obtain ⟨art', tab', hloop, hs', hkept⟩ :=
      artIterCloseLoop_ok paused.sound paused.table hlevel
    refine ⟨{ ai with aiTable := none }, art', tab', ?_, rfl, hs', hkept⟩
    rw [paused.here, hloop]
    rfl

inductive Maintained (pool : Ptr → Bool) (alen : Nat) : Art → Routes → Prop
  | init {art : Art} (h : artInit pool alen = some art) : Maintained pool alen art fun _ => none
  | insert {art art' : Art} {R : Routes} {an : ArtNode} {r : Option ArtNode}
      (h : Maintained pool alen art R) (hle : an.anPlen ≤ alen)
      (hrun : artInsert art an = some (r, art')) : Maintained pool alen art' (R.insert an r)
  | delete {art art' : Art} {R : Routes} {addr : List UInt8} {plen : Nat} {r : Option ArtNode}
      (h : Maintained pool alen art R) (hle : plen ≤ alen) (hR : R (bitsOf addr plen) ≠ none)
      (hrun : artDelete art addr plen = some (r, art')) :
      Maintained pool alen art' (Function.update R (bitsOf addr plen) none)
  | ended {art art' : Art} {R R' : Routes} {ai : ArtIter} {returned : List ArtNode}
      (h : Maintained pool alen art R) (hiter : Iteration art R art' R' ai returned)
      (hend : ai.aiTable = none) : Maintained pool alen art' R'
  | closed {art art' art'' : Art} {R R' : Routes} {ai ai' : ArtIter} {returned : List ArtNode}
      (h : Maintained pool alen art R) (hiter : Iteration art R art' R' ai returned)
      (hclose : artIterClose ai art' = some (ai', art'')) : Maintained pool alen art'' R'

theorem Maintained.good (h : Maintained pool alen art R) : Good pool alen art R := by
  induction h with
  | init h => exact good_init h
  | insert _ hle hrun ih => exact ih.inserted hle hrun
  | delete _ hle hR hrun ih => exact ih.deleted hle hR hrun
  | ended _ hiter hend ih =>
    obtain ⟨tab, hs⟩ := ih.sound
    obtain ⟨hkept, hon⟩ := hiter.ongoing (sound_none_iff.mp hs)
    cases hon with
    | ended closed sound visiting => exact ih.kept hkept ⟨_, sound_none_iff.mpr sound⟩
    | paused paused visiting =>
      rw [paused.here] at hend
      cases hend
  | closed _ hiter hclose ih =>
    obtain ⟨tab, hs⟩ := ih.sound
    obtain ⟨hkept, hon⟩ := hiter.ongoing (sound_none_iff.mp hs)
    obtain ⟨ai', art', tab', hclose', -, hs', hkept'⟩ := artIterClose_ok hon
    rw [hclose', some.injEq] at hclose
    cases hclose
    exact ih.kept (hkept.trans hkept') ⟨tab', sound_none_iff.mpr hs'⟩

theorem Ongoing.visiting (h : Ongoing R₀ art R ai returned) :
    ∃ A, Visiting bits R₀ R A returned := by
  cases h with
  | ended closed sound visiting => exact ⟨_, visiting⟩
  | paused paused visiting => exact ⟨_, visiting⟩

theorem Sound.routes_finite (hs : Sound art tab R none) : {κ | R κ ≠ none}.Finite := by
  refine (finite_length_le Bool art.artAlen).subset fun κ hκ => ?_
  obtain ⟨an, han⟩ := ne_none_iff_exists'.mp hκ
  obtain ⟨π, p, hp, -, hle, -⟩ := hs.values.stored han
  exact hle.trans (hs.shape.covers_le hp)

/-- What an iterator returns: no node twice, and in the end every node that has stayed.  It comes
to an end, as it returns no more nodes than there were routes, and leaves no references. -/
theorem art_iter_complete (h₀ : Maintained pool alen art₀ R₀) :
    (∀ ai, ∃ r ai' art, artIterOpen ai art₀ = some (r, ai', art) ∧
      (r = none ↔ ai'.aiTable = none)) ∧ ∀ art R ai returned, Iteration art₀ R₀ art R ai returned →
      returned.Nodup ∧ (∀ an ∈ returned, R₀ an.bits = some an) ∧
      returned.length ≤ {κ | R₀ κ ≠ none}.ncard ∧
      (ai.aiTable ≠ none → ∃ r ai' art', artIterNext ai art = some (r, ai', art') ∧
        (r = none ↔ ai'.aiTable = none)) ∧
      (ai.aiTable = none → (∀ κ an, R κ = some an → returned.count an = 1) ∧
        ∃ tab, Sound art tab R none) ∧
      ∃ ai' art', artIterClose ai art = some (ai', art') ∧ ai'.aiTable = none ∧
        ∃ tab, Sound art' tab R none := by
  obtain ⟨tab₀, hs₀⟩ := h₀.good.sound
  refine ⟨fun ai => ?_, fun art R ai returned hiter => ?_⟩
  · obtain ⟨r, ai', art, hrun, hout⟩ := artIterOpen_ok (sound_none_iff.mp hs₀) ai
    exact ⟨r, ai', art, hrun, hout.closed_iff⟩
  obtain ⟨-, hon⟩ := hiter.ongoing (sound_none_iff.mp hs₀)
  obtain ⟨A, hvisiting⟩ := hon.visiting
  refine ⟨hvisiting.nodup, hvisiting.source, ?_, fun hopen => ?_, fun hend => ?_, ?_⟩
  · -- different nodes have different prefixes
    have hsub : (returned.map bits).toFinset ⊆ hs₀.routes_finite.toFinset := by
      intro κ hκ
      obtain ⟨an, han, rfl⟩ := mem_map.mp (mem_toFinset.mp hκ)
      rw [Set.Finite.mem_toFinset, Set.mem_ofPred_eq, hvisiting.source an han]
      nofun
    have hnodup : (returned.map bits).Nodup := by
      refine Nodup.map_on (fun a ha b hb heq => ?_) hvisiting.nodup
      have hval := hvisiting.source a ha
      rw [heq, hvisiting.source b hb] at hval
      exact (some.inj hval).symm
    have hcard := Finset.card_le_card hsub
    rwa [toFinset_card_of_nodup hnodup, length_map,
      ← Set.ncard_eq_toFinset_card _ hs₀.routes_finite] at hcard
  · cases hon with
    | ended closed sound visiting => exact absurd closed hopen
    | paused paused visiting =>
      obtain ⟨r, ai', art', hrun, hout⟩ := artIterNext_ok paused
      exact ⟨r, ai', art', hrun, hout.closed_iff⟩
  · cases hon with
    | ended closed sound visiting =>
      exact ⟨fun κ an hR => visiting.finish (fun _ => False.elim) hR, _, sound_none_iff.mpr sound⟩
    | paused paused visiting =>
      rw [paused.here] at hend
      cases hend
  · obtain ⟨ai', art', tab', hclose, hclosed, hs', -⟩ := artIterClose_ok hon
    exact ⟨ai', art', hclose, hclosed, tab', sound_none_iff.mpr hs'⟩

theorem art_iter_complete_tenSlashSeven :
    ∃ art₀ r ai art, artInsert emptyArt tenSlashSeven = some (some tenSlashSeven, art₀) ∧
      artIterOpen ⟨none, 0, 0⟩ art₀ = some (r, ai, art) ∧ (r = none ↔ ai.aiTable = none) ∧
      r.toList.Nodup ∧
      (ai.aiTable = none → (∀ κ an, noRoutes.insert tenSlashSeven (some tenSlashSeven) κ = some an →
        r.toList.count an = 1) ∧
        ∃ tab, Sound art tab (noRoutes.insert tenSlashSeven (some tenSlashSeven)) none) := by
  obtain ⟨art₀, hrun⟩ := exists_tenSlashSeven
  have h₀ : Maintained (fun _ => true) 32 emptyArt noRoutes := .init rfl
  have h₁ := h₀.insert (by decide) hrun
  obtain ⟨r, ai, art, hopen, hclosed⟩ := (art_iter_complete h₁).1 ⟨none, 0, 0⟩
  obtain ⟨hnodup, -, -, -, hend, -⟩ := (art_iter_complete h₁).2 _ _ _ _ (.start hopen)
  exact ⟨art₀, r, ai, art, hrun, hopen, hclosed, hnodup, hend⟩

/-! Which tables stay and which are collected, with any number of iterators. -/

open Nat

variable {art art' : Art} {tab tab' : Tables} {R : Routes} {π ρ κ l : List Bool} {p q c : Ptr}
  {held others : Ptr → Nat} {ai ai' : ArtIter} {r : Option ArtNode}

structure Standing (art : Art) (tab : Tables) (π : List Bool) (p : Ptr) (ai : ArtIter) : Prop where
  table : tab π = some p
  here : ai.aiTable = some p
  low : 2 ^ (art.mem p).atBits ≤ ai.aiJ → 2 ^ (art.mem p).atBits ≤ ai.aiI

noncomputable def withPath (others : Ptr → Nat) (tab : Tables) (π : List Bool) : Ptr → Nat :=
  fun q => others q + onPath tab π q

theorem withPath_root (hp : tab [] = some p) : withPath others tab [] = hold others p := by
  funext q
  rw [withPath, onPath_root hp, hold, noneHeld, hold, Nat.zero_add]

theorem withPath_child (h : Shape art tab) (hp : tab π = some p)
    (hl : l.length = (art.mem p).atBits) (hc : tab (π ++ l) = some c) :
    withPath others tab (π ++ l) = hold (withPath others tab π) c := by
  funext q
  rw [withPath, onPath_child h hp hl hc, hold, hold, withPath, Nat.add_assoc]

theorem Trimmed.mono (h : Trimmed art tab held art' tab') (hle : ∀ q, others q ≤ held q) :
    Trimmed art tab others art' tab' where
  kept := h.kept
  old := h.old
  place := h.place
  held := fun hp hpos => h.held hp (hpos.trans_le (hle _))
  next := h.next
  live := h.live
  gone := h.gone

theorem withPath_trimmed (h : Trimmed art tab (withPath others tab π) art' tab') :
    withPath others tab' π = withPath others tab π := by
  funext q
  rw [withPath, withPath, onPath, onPath]
  congr 2
  apply propext
  constructor
  · rintro ⟨π₀, hq, hpre⟩
    exact ⟨π₀, h.old hq, hpre⟩
  · rintro ⟨π₀, hq, hpre⟩
    exact ⟨π₀, h.held hq (Nat.lt_add_left _ (onPath_pos hq hpre)), hpre⟩

theorem sameTables_ref (art : Art) (c : Ptr) : SameTables art (artTableRef art c) :=
  sameTables_modify (f := (· + 1))

theorem trimmed_ref (art : Art) (tab : Tables) (held : Ptr → Nat) (c : Ptr) :
    Trimmed art tab held (artTableRef art c) tab := by
  refine (sameTables_ref art c).trimmed rfl tab held fun hlive ρ q hq => ?_
  have hpos := hlive ρ q hq
  rw [artTableRef, Art.mem_modify]
  split
  next heq =>
    rw [← heq]
    exact Int.lt_add_one_of_le (Int.le_of_lt hpos)
  · exact hpos

inductive Leaves (R : Routes) (others : Ptr → Nat) (art : Art) (tab : Tables) (ai : ArtIter) : Prop
  | closed (here : ai.aiTable = none) (sound : SoundWith art tab R others)
  | standing {π : List Bool} {p : Ptr} (standing : Standing art tab π p ai)
      (sound : SoundWith art tab R (withPath others tab π))

theorem standing_ref (h : Shape art tab) (hc : tab π = some c) :
    Standing (artTableRef art c) tab π c ⟨some c, 1, 2⟩ := by
  refine ⟨hc, rfl, fun hge => ?_⟩
  rw [(sameTables_ref art c).bits] at hge
  exact absurd hge (Nat.not_le.mpr (Nat.one_lt_two_pow (Nat.ne_of_gt (h.bits_pos hc))))

theorem artIterFrom_leaves {pc : IterPc}
    (hrun : artIterFrom fuel pc p ai art = some (r, ai', art')) (h : Standing art tab π p ai)
    (hs : SoundWith art tab R (withPath others tab π))
    (hnon : pc = .nonfringe → ai.aiJ < 2 ^ (art.mem p).atBits)
    (hfringe : pc = .fringe → 2 ^ (art.mem p).atBits ≤ ai.aiI) :
    ∃ tab', Leaves R others art' tab' ai' ∧ Trimmed art tab others art' tab' := by
  induction fuel generalizing art tab π p pc ai with
  | zero => cases hrun
  | succ fuel ih =>
    have hh := hs.shape
    have hmin := (hh.table h.table).minfringe
    have hsame : Trimmed art tab others art tab :=
      (SameTables.refl art).trimmed rfl tab others id
    cases pc with
    | descend =>
      rw [artIterFrom, hmin] at hrun
      split at hrun
      next hlt => exact ih hrun h hs (fun _ => hlt) (by simp)
      next hge => exact ih hrun h hs (by simp) fun _ => h.low (Nat.not_lt.mp hge)
    | nonfringe =>
      have hj := hnon rfl
      rw [artIterFrom, hmin] at hrun
      have hmoved (i : Nat) : Standing art tab π p { ai with aiI := i } :=
        ⟨h.table, h.here, fun hge => absurd hj (Nat.not_lt.mpr hge)⟩
      split at hrun
      · simp only at hrun
        split at hrun
        · cases hrun
          exact ⟨tab, .standing (hmoved _) hs, hsame⟩
        · exact ih hrun (hmoved _) hs (fun _ => hj) (by simp)
      · simp only at hrun
        split at hrun
        next hlt =>
          exact ih hrun ⟨h.table, h.here, fun hge => absurd hlt (Nat.not_lt.mpr hge)⟩ hs
            (fun _ => hlt) (by simp)
        · exact ih hrun ⟨h.table, h.here, fun _ => Nat.le_refl _⟩ hs (by simp) fun _ => Nat.le_refl _
    | fringe =>
      have hi := hfringe rfl
      rw [artIterFrom, hmin, shiftLeft_eq, Nat.pow_one, ← Nat.pow_succ] at hrun
      split at hrun
      next hlt =>
        have hmoved : Standing art tab π p { ai with aiI := ai.aiI + 1 } :=
          ⟨h.table, h.here, fun _ => le_succ_of_le hi⟩
        simp only at hrun
        cases hent : art.entry p ai.aiI with
        | node an =>
          simp only [hent] at hrun
          split at hrun
          · cases hrun
            exact ⟨tab, .standing hmoved hs, hsame⟩
          · exact ih hrun hmoved hs (by simp) fun _ => le_succ_of_le hi
        | heap c =>
          obtain ⟨l, hl⟩ := exists_idx (show 0 < ai.aiI from Nat.lt_of_lt_of_le
            (Nat.two_pow_pos _) hi)
          have hlen : l.length = (art.mem p).atBits := by
            have hup := (idx_lt_iff l ((art.mem p).atBits + 1)).mp (hl ▸ hlt)
            have hdown := mt (idx_lt_iff l (art.mem p).atBits).mpr (by omega)
            omega
          have hc : tab (π ++ l) = some c := (hh.link h.table hlen c).mp (hl ▸ hent)
          have hbelow := standing_ref hh hc
          have hs' : SoundWith (artTableRef art c) tab R (withPath others tab (π ++ l)) := by
            rw [withPath_child hh h.table hlen hc]
            exact hs.ref c
          have href := trimmed_ref art tab others c
          simp only [hent, artIterDescend_eq] at hrun
          split at hrun
          next hfound =>
            simp only [some.injEq, Prod.mk.injEq] at hrun hfound
            obtain ⟨-, rfl, rfl⟩ := hfound
            obtain ⟨-, rfl, rfl⟩ := hrun
            exact ⟨tab, .standing hbelow hs', href⟩
          next hnot =>
            simp only [Prod.mk.injEq] at hnot
            obtain ⟨-, rfl, rfl⟩ := hnot
            obtain ⟨tab', hleaves, htrimmed⟩ := ih hrun hbelow hs' (by simp) (by simp)
            exact ⟨tab', hleaves, href.trans htrimmed⟩
      next hge =>
        simp only [bind_eq_bind] at hrun
        obtain ⟨art1, hfree, hrun⟩ := bind_eq_some_iff.mp hrun
        by_cases hπ : π = []
        · subst hπ
          rw [withPath_root h.table] at hs
          obtain ⟨art2, tab2, hfree', hs', htrimmed⟩ := artTableFree_trims hs h.table
          rw [hfree, some.injEq] at hfree'
          subst hfree'
          simp only [(hh.top h.table).1] at hrun
          cases hrun
          exact ⟨tab2, .closed rfl hs', htrimmed⟩
        · obtain ⟨π₀, l, q, hq, hlen, rfl⟩ := hh.parent h.table hπ
          obtain ⟨hparent, hindex, -⟩ := hh.child hq hlen h.table
          rw [withPath_child hh hq hlen h.table] at hs
          obtain ⟨art2, tab2, hfree', hs', htrimmed⟩ := artTableFree_trims hs h.table
          rw [hfree, some.injEq] at hfree'
          subst hfree'
          have hq' : tab2 π₀ = some q :=
            htrimmed.held hq (Nat.lt_add_left _ (onPath_pos hq prefix_rfl))
          have hbits : (art1.mem q).atBits = (art.mem q).atBits :=
            congrArg Place.bits (htrimmed.place hq')
          have hlow := (idx_bounds l).1
          have hwrap : (idx l + 1) % 2 ^ 32 = idx l + 1 := by
            have hup := (idx_lt_iff l 9).mpr (by rcases hh.bits_cases hq with h4 | h8 <;> omega)
            omega
          have hgo : 2 ^ (art1.mem q).atBits ≤ idx l + 1 := by
            rw [hbits, ← hlen]
            exact le_succ_of_le hlow
          simp only [hparent, hindex, hwrap] at hrun
          rw [← withPath_trimmed htrimmed] at hs'
          obtain ⟨tab', hleaves, htrimmed'⟩ :=
            ih hrun ⟨hq', rfl, fun _ => hgo⟩ hs' (by simp) fun _ => hgo
          exact ⟨tab', hleaves, (htrimmed.mono fun _ => Nat.le_add_right ..).trans htrimmed'⟩

theorem artIterNext_leaves (h : Standing art tab π p ai)
    (hs : SoundWith art tab R (withPath others tab π))
    (hrun : artIterNext ai art = some (r, ai', art')) :
    ∃ tab', Leaves R others art' tab' ai' ∧ Trimmed art tab others art' tab' := by
  rw [artIterNext, h.here] at hrun
  exact artIterFrom_leaves hrun h hs (by simp) (by simp)

theorem artIterOpen_leaves (hs : SoundWith art tab R others)
    (hrun : artIterOpen ai art = some (r, ai', art')) :
    ∃ tab', Leaves R others art' tab' ai' ∧ Trimmed art tab others art' tab' := by
  have hh := hs.shape
  rw [artIterOpen, hh.root] at hrun
  cases hroot : tab [] with
  | none =>
    rw [hroot] at hrun
    cases hrun
    exact ⟨tab, .closed rfl hs, (SameTables.refl art).trimmed rfl tab others id⟩
  | some root =>
    have hstart := standing_ref hh hroot
    have hs' : SoundWith (artTableRef art root) tab R (withPath others tab []) := by
      rw [withPath_root hroot]
      exact hs.ref root
    have href := trimmed_ref art tab others root
    simp only [hroot, artIterDescend_eq] at hrun
    split at hrun
    next hfound =>
      simp only [some.injEq, Prod.mk.injEq] at hrun hfound
      obtain ⟨-, rfl, rfl⟩ := hfound
      obtain ⟨-, rfl, rfl⟩ := hrun
      exact ⟨tab, .standing hstart hs', href⟩
    next hnot =>
      simp only [Prod.mk.injEq] at hnot
      obtain ⟨-, rfl, rfl⟩ := hnot
      obtain ⟨tab', hleaves, htrimmed⟩ := artIterNext_leaves hstart hs' hrun
      exact ⟨tab', hleaves, href.trans htrimmed⟩

theorem artIterCloseLoop_leaves (hp : tab π = some p)
    (hs : SoundWith art tab R (withPath others tab π))
    (hrun : artIterCloseLoop fuel (some p) art = some art') :
    ∃ tab', SoundWith art' tab' R others ∧ Trimmed art tab others art' tab' := by
  induction fuel generalizing art tab π p with
  | zero => cases hrun
  | succ fuel ih =>
    have hh := hs.shape
    rw [artIterCloseLoop] at hrun
    obtain ⟨art1, hfree, hrun⟩ := bind_eq_some_iff.mp hrun
    by_cases hπ : π = []
    · subst hπ
      rw [withPath_root hp] at hs
      obtain ⟨art2, tab2, hfree', hs', htrimmed⟩ := artTableFree_trims hs hp
      rw [hfree, some.injEq] at hfree'
      subst hfree'
      rw [(hh.top hp).1] at hrun
      obtain rfl : art1 = art' := by cases fuel <;> exact some.inj hrun
      exact ⟨tab2, hs', htrimmed⟩
    · obtain ⟨π₀, l, q, hq, hlen, rfl⟩ := hh.parent hp hπ
      rw [withPath_child hh hq hlen hp] at hs
      obtain ⟨art2, tab2, hfree', hs', htrimmed⟩ := artTableFree_trims hs hp
      rw [hfree, some.injEq] at hfree'
      subst hfree'
      rw [(hh.child hq hlen hp).1] at hrun
      have hq' : tab2 π₀ = some q :=
        htrimmed.held hq (Nat.lt_add_left _ (onPath_pos hq prefix_rfl))
      rw [← withPath_trimmed htrimmed] at hs'
      obtain ⟨tab', hs'', htrimmed'⟩ := ih hq' hs' hrun
      exact ⟨tab', hs'', (htrimmed.mono fun _ => Nat.le_add_right ..).trans htrimmed'⟩

end Mbsd.Net.Allotment
