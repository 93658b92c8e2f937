import Mathlib.Order.Interval.Set.Nat
import Mbsd.Net.Art.Ahead
import Mbsd.Net.Art.Runs

/-! One call of the iterator. -/

namespace Mbsd.Net.Allotment

open Lib Lib.HeapIndex Lib.LongestPrefix Lib.Visit List Function

variable {art art' : Art} {tab tab' : Tables} {R : Routes} {π κ l : List Bool} {p q c : Ptr}
  {held : Ptr → Nat} {ai ai' : ArtIter} {an : ArtNode} {A A' : List Bool → Prop} {pc : IterPc}

section Path

open Classical in
/-- The references of an iterator: one for each table from the root to the one for `π`. -/
noncomputable def onPath (tab : Tables) (π : List Bool) (p : Ptr) : Nat :=
  if ∃ π₀, tab π₀ = some p ∧ π₀ <+: π then 1 else 0

theorem onPath_pos {π₀ : List Bool} (hp : tab π₀ = some p) (hpre : π₀ <+: π) :
    0 < onPath tab π p := by
  rw [onPath, if_pos ⟨π₀, hp, hpre⟩]
  exact Nat.one_pos

theorem onPath_root (hp : tab [] = some p) : onPath tab [] = hold noneHeld p := by
  funext q
  rw [onPath, hold, noneHeld]
  by_cases hq : q = p
  · subst hq
    rw [if_pos ⟨[], hp, prefix_rfl⟩, if_pos rfl]
  · rw [if_neg hq, if_neg]
    rintro ⟨π₀, hq', hpre⟩
    rw [prefix_nil.mp hpre, hp, Option.some.injEq] at hq'
    exact hq hq'.symm

theorem onPath_child (h : Shape art tab) (hp : tab π = some p) (hl : l.length = (art.mem p).atBits)
    (hc : tab (π ++ l) = some c) : onPath tab (π ++ l) = hold (onPath tab π) c := by
  funext q
  rw [onPath, hold, onPath]
  by_cases hq : q = c
  · subst hq
    rw [if_pos ⟨π ++ l, hc, prefix_rfl⟩, if_pos rfl, if_neg]
    rintro ⟨π₀, hq', hpre⟩
    have hle := hpre.length_le
    have hbits := h.bits_pos hp
    rw [h.inj hq' hc, length_append] at hle
    omega
  · rw [if_neg hq, Nat.add_zero]
    congr 1
    apply propext
    constructor
    · rintro ⟨π₀, hq', hpre⟩
      refine ⟨π₀, hq', h.prefix_fringe hp hl hq' hpre ?_⟩
      rintro rfl
      exact hq (Option.some.inj (hq'.symm.trans hc))
    · rintro ⟨π₀, hq', hpre⟩
      exact ⟨π₀, hq', hpre.trans (prefix_append π l)⟩

theorem Pruned.onPath (hpr : Pruned art tab (onPath tab π) art' tab') :
    onPath tab' π = onPath tab π := by
  funext q
  rw [Allotment.onPath, Allotment.onPath]
  congr 1
  refine propext ⟨fun ⟨π₀, hq, hpre⟩ => ⟨π₀, hpr.old hq, hpre⟩, fun ⟨π₀, hq, hpre⟩ => ?_⟩
  exact ⟨π₀, hpr.held hq (onPath_pos hq hpre), hpre⟩

theorem SoundWith.ref (hs : SoundWith art tab R held) (p : Ptr) :
    SoundWith (artTableRef art p) tab R (hold held p) := by
  have hsame : SameTables art (artTableRef art p) := sameTables_modify (f := (· + 1))
  refine ⟨hs.shape.of_same hsame, hs.values.congr hsame (art.entry_modify p fun _ => rfl),
    fun {ρ c} hc => ?_⟩
  rw [hsame.bits, artTableRef, Art.mem_modify, hold]
  by_cases hcp : c = p
  · subst hcp
    rw [if_pos rfl, if_pos rfl]
    simp only [hs.counted hc]
    push_cast
    omega
  · rw [if_neg hcp, if_neg hcp, hs.counted hc, Nat.add_zero]

end Path

section Own

theorem Values.default_short (h : Shape art tab) (hv : Values art tab R) (hp : tab π = some p) :
    ∃ x, art.entry p artHeapIdxDefault = .node x ∧
      ∀ an, x = some an → an.bits.length ≤ π.length := by
  by_cases hπ : π = []
  · subst hπ
    refine ⟨R [], hv.default hp, fun an han => ?_⟩
    rw [hv.keyed _ _ han]
  · obtain ⟨π₀, l, q, hq, hl, rfl⟩ := h.parent hp hπ
    have hpos : l ≠ [] := length_pos_iff.mp (by rw [hl]; exact h.bits_pos hq)
    have hslot := hv.slot hq hpos (Nat.le_of_eq hl)
    rw [Art.slotVal, Art.slot, (h.link hq hl p).mpr hp] at hslot
    refine ⟨routeAt R π₀ l, hslot, fun an han => ?_⟩
    obtain ⟨m, -, hlt, hval, -⟩ := longest_eq_some.mp han
    rw [hv.keyed _ _ hval, length_take]
    exact Nat.min_le_right _ _

theorem Values.own_route (h : Shape art tab) (hv : Values art tab R) (hp : tab π = some p)
    (hpos : l ≠ []) (hl : l.length ≤ (art.mem p).atBits) :
    (ArtHeapEntry.node (routeAt R π l) ≠ .node none ∧
      ArtHeapEntry.node (routeAt R π l) ≠ art.entry p (idx l >>> 1)) ↔ R (π ++ l) ≠ none := by
  have hnext := next_route h hv hp hpos hl
  have hlen : π.length + 1 ≤ (π ++ l).length := by
    have := length_pos_iff.mpr hpos
    rw [length_append]
    omega
  have hroute : routeAt R π l =
      (R (π ++ l)).or (routeAt (update R (π ++ l) none) π l) := by
    rw [routeAt_update_self hpos, Option.none_or, ← routeAt_update_self hpos, update_eq_self]
  cases hR : R (π ++ l) with
  | none =>
    rw [hroute, hR, Option.none_or, ← hnext]
    refine iff_of_false ?_ (by simp)
    rintro ⟨hnone, hne⟩
    split at hnone
    next hgt => rw [if_pos hgt] at hne; exact hne rfl
    · exact hnone rfl
  | some an =>
    rw [hroute, hR, Option.some_or]
    refine iff_of_true ⟨nofun, fun heq => ?_⟩ nofun
    have hbits := congrArg length (hv.keyed _ _ hR)
    by_cases hgt : idx l >>> 1 > 1
    · rw [if_pos hgt] at hnext
      rw [hnext, ArtHeapEntry.node.injEq, routeAt_update_self hpos, Option.none_or] at heq
      obtain ⟨m, -, hlt, hval, -⟩ := longest_eq_some.mp heq.symm
      rw [hv.keyed _ _ hval, length_take] at hbits
      omega
    · have hone : idx l >>> 1 = artHeapIdxDefault := by
        have htwo := two_le_idx hpos
        rw [Nat.shiftRight_eq_div_pow] at hgt ⊢
        rw [artHeapIdxDefault]
        omega
      obtain ⟨x, hx, hshort⟩ := hv.default_short h hp
      rw [hone, hx, ArtHeapEntry.node.injEq] at heq
      have hle := hshort an heq.symm
      omega

end Own

structure Paused (art : Art) (tab : Tables) (R : Routes) (π : List Bool) (p : Ptr) (ai : ArtIter) :
    Prop where
  table : tab π = some p
  here : ai.aiTable = some p
  sound : SoundWith art tab R (onPath tab π)
  spot : Spot (art.mem p).atBits ai.aiJ ai.aiI

def ahead (art : Art) (π : List Bool) (p : Ptr) (ai : ArtIter) : List Bool → Prop :=
  AheadAt art.artLevels π (art.mem p).atBits ai.aiJ ai.aiI

inductive Outcome (art : Art) (R : Routes) (A : List Bool → Prop) :
    Option ArtNode → ArtIter → Art → Prop
  | done {ai' : ArtIter} {art' : Art} {tab' : Tables} (kept : Kept art art')
      (closed : ai'.aiTable = none) (sound : SoundWith art' tab' R noneHeld)
      (rest : ∀ κ, A κ → R κ = none) : Outcome art R A none ai' art'
  | found {ai' : ArtIter} {art' : Art} {tab' : Tables} {π' : List Bool} {p' : Ptr} {an : ArtNode}
      (kept : Kept art art') (paused : Paused art' tab' R π' p' ai')
      (takes : Takes R A (ahead art' π' p' ai') an.bits an) : Outcome art R A (some an) ai' art'

theorem Outcome.after {r : Option ArtNode} {art'' : Art}
    (h : Outcome art' R A' r ai' art'') (hkept : Kept art art') (hskips : Skips R A A') :
    Outcome art R A r ai' art'' := by
  cases h with
  | done kept closed sound rest =>
    refine .done (hkept.trans kept) closed sound fun κ hκ => ?_
    by_contra hne
    exact hne (rest κ (hskips.rest κ hκ hne))
  | found kept paused takes => exact .found (hkept.trans kept) paused (hskips.takes takes)

section Left

variable {A A' : List Bool → Prop} {n : Nat}

noncomputable def left (A : List Bool → Prop) (n : Nat) : Nat := {κ | A κ ∧ κ.length ≤ n}.ncard

theorem left_finite (A : List Bool → Prop) (n : Nat) : {κ | A κ ∧ κ.length ≤ n}.Finite :=
  (finite_length_le Bool n).subset fun _ h => h.2

theorem left_le (h : ∀ κ, A' κ → A κ) : left A' n ≤ left A n :=
  Set.ncard_le_ncard (fun _ hκ => ⟨h _ hκ.1, hκ.2⟩) (left_finite A n)

theorem left_lt (h : ∀ κ, A' κ → A κ) (hκ : A κ) (hgone : ¬A' κ) (hlen : κ.length ≤ n) :
    left A' n < left A n := by
  refine Set.ncard_lt_ncard ⟨fun _ hκ => ⟨h _ hκ.1, hκ.2⟩, fun hsub => ?_⟩ (left_finite A n)
  exact hgone (hsub ⟨hκ, hlen⟩).1

theorem left_le_pow (A : List Bool → Prop) (n : Nat) : left A n ≤ 2 ^ (n + 1) := by
  have himage : idx '' {κ | A κ ∧ κ.length ≤ n} ⊆ Set.Iio (2 ^ (n + 1)) := by
    rintro _ ⟨κ, ⟨-, hlen⟩, rfl⟩
    exact (idx_lt_iff κ (n + 1)).mpr (Nat.lt_succ_of_le hlen)
  have hcard := Set.ncard_le_ncard himage (Set.finite_Iio _)
  rwa [Set.ncard_image_of_injective _ idx_injective, Set.ncard_Iio_nat] at hcard

end Left

structure AtLoop (art : Art) (tab : Tables) (R : Routes) (π : List Bool) (p : Ptr) (pc : IterPc)
    (ai : ArtIter) : Prop extends Paused art tab R π p ai where
  nonfringe : pc = .nonfringe → ai.aiJ < 2 ^ (art.mem p).atBits
  fringe : pc = .fringe → ¬ai.aiJ < 2 ^ (art.mem p).atBits

def pcRank (b i : Nat) : IterPc → Nat
  | .fringe => 0
  | .nonfringe => if i < 2 ^ b then 1 else 2
  | .descend => 3

theorem pcRank_nonfringe_le (b i : Nat) : pcRank b i .nonfringe ≤ 2 := by
  rw [pcRank]
  split <;> omega

noncomputable def stepsLeft (art : Art) (π : List Bool) (p : Ptr) (pc : IterPc) (ai : ArtIter) :
    Nat :=
  6 * left (ahead art π p ai) art.artAlen + (art.mem p).atLevel +
    pcRank (art.mem p).atBits ai.aiI pc

def Progress (art : Art) (R : Routes) (π : List Bool) (p : Ptr) (pc : IterPc) (ai : ArtIter) :
    Prop :=
  (∃ r ai' art', (∀ fuel, artIterFrom (fuel + 1) pc p ai art = some (r, ai', art')) ∧
    Outcome art R (ahead art π p ai) r ai' art') ∨
  ∃ art' tab' π' p' pc' ai', (∀ fuel, artIterFrom (fuel + 1) pc p ai art =
      artIterFrom fuel pc' p' ai' art') ∧
    AtLoop art' tab' R π' p' pc' ai' ∧ Kept art art' ∧
    Skips R (ahead art π p ai) (ahead art' π' p' ai') ∧
    stepsLeft art' π' p' pc' ai' < stepsLeft art π p pc ai

theorem Kept.refl (art : Art) : Kept art art := ⟨rfl, rfl, rfl⟩

theorem AtLoop.descend (h : AtLoop art tab R π p .descend ai) : Progress art R π p .descend ai := by
  have hmin := (h.sound.shape.table h.table).minfringe
  have hrank := pcRank_nonfringe_le (art.mem p).atBits ai.aiI
  right
  by_cases hj : ai.aiJ < 2 ^ (art.mem p).atBits
  · refine ⟨art, tab, π, p, .nonfringe, ai, fun fuel => ?_, ⟨h.toPaused, fun _ => hj, nofun⟩,
      .refl art, .refl R _, ?_⟩
    · rw [artIterFrom, if_pos (hmin ▸ hj)]
    · simp only [stepsLeft, pcRank] at hrank ⊢
      omega
  · refine ⟨art, tab, π, p, .fringe, ai, fun fuel => ?_, ⟨h.toPaused, nofun, fun _ => hj⟩,
      .refl art, .refl R _, ?_⟩
    · rw [artIterFrom, if_neg (hmin ▸ hj)]
    · simp only [stepsLeft, pcRank]
      omega

theorem AtLoop.nonfringe_done (h : AtLoop art tab R π p .nonfringe ai)
    (hi : ¬ai.aiI < 2 ^ (art.mem p).atBits) : Progress art R π p .nonfringe ai := by
  have hmin := (h.sound.shape.table h.table).minfringe
  have hj := h.nonfringe rfl
  obtain ⟨hdoubled, -⟩ := h.spot.nonfringe hj
  have hodd : (ai.aiJ + 2) % 2 = 1 := by rw [Nat.add_mod_right, hdoubled.1]
  right
  by_cases hnext : ai.aiJ + 2 < 2 ^ (art.mem p).atBits
  · have hiff (κ : List Bool) : ahead art π p ai κ ↔
        ahead art π p ⟨ai.aiTable, ai.aiJ + 2, ai.aiJ + 2⟩ κ :=
      or_congr_left (here_next hj hdoubled (Nat.not_lt.mp hi) hnext)
    refine ⟨art, tab, π, p, .nonfringe, ⟨ai.aiTable, ai.aiJ + 2, ai.aiJ + 2⟩, fun fuel => ?_,
      ⟨⟨h.table, h.here, h.sound, ⟨fun _ => ⟨.self hodd, by simp⟩, fun hge => ?_⟩⟩,
        fun _ => hnext, nofun⟩, .refl art, .of_iff hiff, ?_⟩
    · rw [artIterFrom, if_neg (hmin ▸ hi)]
      simp only [if_pos (hmin ▸ hnext)]
    · exact hge
    · have hle := left_le (n := art.artAlen) fun κ => (hiff κ).mpr
      simp only [stepsLeft, pcRank, if_neg hi, if_pos hnext]
      omega
  · have hiff (κ : List Bool) : ahead art π p ai κ ↔
        ahead art π p ⟨ai.aiTable, ai.aiJ + 2, 2 ^ (art.mem p).atBits⟩ κ :=
      or_congr_left (here_last hj hdoubled (Nat.not_lt.mp hi) hnext)
    refine ⟨art, tab, π, p, .fringe, ⟨ai.aiTable, ai.aiJ + 2, 2 ^ (art.mem p).atBits⟩,
      fun fuel => ?_, ⟨⟨h.table, h.here, h.sound, ⟨fun hlt => absurd hlt hnext, fun _ =>
        Nat.le_refl _⟩⟩, nofun, fun _ => hnext⟩, .refl art, .of_iff hiff, ?_⟩
    · rw [artIterFrom, if_neg (hmin ▸ hi)]
      simp only [hmin, if_neg hnext]
    · have hle := left_le (n := art.artAlen) fun κ => (hiff κ).mpr
      simp only [stepsLeft, pcRank, if_neg hi]
      omega

theorem left_skip {n : Nat} (hiff : ∀ κ', A κ' ↔ κ' = κ ∨ A' κ')
    (hgone : ¬A' κ) (hlen : κ.length ≤ n) : left A' n < left A n :=
  left_lt (fun κ' h => (hiff κ').mpr (.inr h)) ((hiff κ).mpr (.inl rfl)) hgone hlen

theorem takes_of_iff (hiff : ∀ κ', A κ' ↔ κ' = κ ∨ A' κ')
    (hgone : ¬A' κ) (hR : R κ = some an) (hkey : an.bits = κ) : Takes R A A' an.bits an where
  found := by rw [hkey, hR]
  ahead := by
    rw [hkey]
    exact (hiff κ).mpr (.inl rfl)
  gone := by rwa [hkey]
  sub := fun κ' h => (hiff κ').mpr (.inr h)
  rest := by
    intro κ' h _
    rw [hkey]
    exact (hiff κ').mp h

theorem AtLoop.nonfringe_slot (h : AtLoop art tab R π p .nonfringe ai)
    (hi : ai.aiI < 2 ^ (art.mem p).atBits) : Progress art R π p .nonfringe ai := by
  have hh := h.sound.shape
  have hv := h.sound.values
  have hmin := (hh.table h.table).minfringe
  have hj := h.nonfringe rfl
  obtain ⟨hdoubled, htwo⟩ := h.spot.nonfringe hj
  obtain ⟨l, hl⟩ := exists_idx (show 0 < ai.aiI by omega)
  have hpos : l ≠ [] := by
    rintro rfl
    rw [idx_nil] at hl
    omega
  have hlen : l.length < (art.mem p).atBits := (idx_lt_iff l _).mp (hl ▸ hi)
  have hent : art.entry p ai.aiI = .node (routeAt R π l) := by
    have hslot := hv.slot h.table hpos (Nat.le_of_lt hlen)
    rwa [Art.slotVal, hh.slot_inner h.table hlen, hl] at hslot
  have hown := hv.own_route hh h.table hpos (Nat.le_of_lt hlen)
  rw [hl] at hown
  have hiff (κ : List Bool) : ahead art π p ai κ ↔
      κ = π ++ l ∨ ahead art π p ⟨ai.aiTable, ai.aiJ, 2 * ai.aiI⟩ κ := by
    rw [ahead, AheadAt, here_double hj hpos hlen hl, or_assoc]
    rfl
  have hgone : ¬ahead art π p ⟨ai.aiTable, ai.aiJ, 2 * ai.aiI⟩ (π ++ l) := by
    rintro (hhere | habove)
    · exact not_here_double hj hdoubled hlen hl hhere
    · exact not_above_below (List.prefix_append π l) habove
  have hpaused : Paused art tab R π p ⟨ai.aiTable, ai.aiJ, 2 * ai.aiI⟩ :=
    ⟨h.table, h.here, h.sound, ⟨fun _ => ⟨hdoubled.double, by simp only; omega⟩,
      fun hge => absurd hj (Nat.not_lt.mpr hge)⟩⟩
  have hshift : ai.aiI <<< 1 = 2 * ai.aiI := by
    rw [Nat.shiftLeft_eq, Nat.pow_one, Nat.mul_comm]
  cases hR : R (π ++ l) with
  | some an =>
    refine .inl ⟨some an, ⟨ai.aiTable, ai.aiJ, 2 * ai.aiI⟩, art, fun fuel => ?_,
      .found (.refl art) hpaused (takes_of_iff hiff hgone hR (hv.keyed _ _ hR))⟩
    have hcond := hown.mpr (by rw [hR]; simp)
    rw [routeAt_of_some hpos hR] at hent hcond
    rw [artIterFrom, if_pos (hmin ▸ hi)]
    simp only [hent, if_pos hcond, hshift, ArtHeapEntry.toNode]
  | none =>
    have hcond := fun hc => hown.mp hc hR
    have hcover := hh.covers_le h.table
    have hlt := left_skip hiff hgone (n := art.artAlen) (by rw [List.length_append]; omega)
    have hrank := pcRank_nonfringe_le (art.mem p).atBits (2 * ai.aiI)
    refine .inr ⟨art, tab, π, p, .nonfringe, ⟨ai.aiTable, ai.aiJ, 2 * ai.aiI⟩, fun fuel => ?_,
      ⟨hpaused, fun _ => hj, (by simp)⟩, .refl art,
      .of_none (fun κ hκ => (hiff κ).mpr (.inr hκ)) (fun κ hκ _ => (hiff κ).mp hκ) hR, ?_⟩
    · rw [artIterFrom, if_pos (hmin ▸ hi)]
      simp only [hent, if_neg hcond, hshift]
    · simp only [stepsLeft]
      omega

theorem artIterDescend_eq (ai : ArtIter) (c : Ptr) (pahe : ArtHeapEntry) (art : Art) :
    artIterDescend ai c pahe art =
      (if art.entry c artHeapIdxDefault ≠ .node none ∧ art.entry c artHeapIdxDefault ≠ pahe then
          (art.entry c artHeapIdxDefault).toNode else none, ⟨some c, 1, 2⟩, artTableRef art c) := by
  have hent : (artTableRef art c).entry c artHeapIdxDefault = art.entry c artHeapIdxDefault := by
    rw [artTableRef, Art.entry_modify]
    exact fun _ => rfl
  rw [artIterDescend, hent]
  split <;> rfl

theorem AtLoop.into (h : AtLoop art tab R π p .fringe ai)
    (hlen : l.length = (art.mem p).atBits) (hl : idx l = ai.aiI) (hc : tab (π ++ l) = some c) :
    Paused (artTableRef art c) tab R (π ++ l) c ⟨some c, 1, 2⟩ ∧ (∀ κ, ahead art π p ai κ ↔
      κ = π ++ l ∨ ahead (artTableRef art c) (π ++ l) c ⟨some c, 1, 2⟩ κ) ∧
    ¬ahead (artTableRef art c) (π ++ l) c ⟨some c, 1, 2⟩ (π ++ l) := by
  have hh := h.sound.shape
  have hj := h.fringe rfl
  have hsame : SameTables art (artTableRef art c) := sameTables_modify (f := (· + 1))
  have hbits := hh.bits_pos hc
  have hahead (κ : List Bool) : ahead (artTableRef art c) (π ++ l) c ⟨some c, 1, 2⟩ κ ↔
      (π ++ l <+: κ ∧ κ ≠ π ++ l) ∨
        (∃ l', l'.length = (art.mem p).atBits ∧ π ++ l' <+: κ ∧ idx l < idx l') ∨
          AheadAbove art.artLevels π κ := by
    rw [ahead, AheadAt, hsame.levels, hsame.bits, here_start hbits, above_child hh h.table hlen]
  refine ⟨⟨hc, rfl, ?_, spot_start⟩, fun κ => ?_, ?_⟩
  · rw [onPath_child hh h.table hlen hc]
    exact h.sound.ref c
  · rw [hahead, ahead, AheadAt, here_fringe hj hlen hl, AheadHere, if_neg hj, hl]
    by_cases heq : κ = π ++ l
    · exact iff_of_true (.inl (.inl (by rw [heq]))) (.inl heq)
    · simp only [heq, ne_eq, not_false_eq_true, and_true, false_or, or_assoc]
      rfl
  · rintro (hhere | habove)
    · rw [hsame.bits, here_start hbits] at hhere
      exact hhere.2 rfl
    · exact not_above_below List.prefix_rfl habove

/-- What is left of a round when the iterator has gone down to the table `c`. -/
def descended (fuel : Nat) (c : Ptr) :
    Option ArtNode × ArtIter × Art → Option (Option ArtNode × ArtIter × Art)
  | (some an, ai, art) => some (some an, ai, art)
  | (none, ai, art) => artIterFrom fuel .descend c ai art

theorem AtLoop.fringe_slot (h : AtLoop art tab R π p .fringe ai)
    (hi : ai.aiI < 2 ^ ((art.mem p).atBits + 1)) : Progress art R π p .fringe ai := by
  have hh := h.sound.shape
  have hv := h.sound.values
  have hmin := (hh.table h.table).minfringe
  have hj := h.fringe rfl
  have hlow := h.spot.fringe (Nat.not_lt.mp hj)
  have hshift : (art.mem p).atMinfringe <<< 1 = 2 ^ ((art.mem p).atBits + 1) := by
    rw [hmin, Nat.shiftLeft_eq, Nat.pow_one, Nat.pow_succ]
  obtain ⟨l, hl⟩ := exists_idx (show 0 < ai.aiI by
    omega)
  have hlen : l.length = (art.mem p).atBits := by
    have hup := (idx_lt_iff l ((art.mem p).atBits + 1)).mp (hl ▸ hi)
    have hdown := mt (idx_lt_iff l (art.mem p).atBits).mpr (by omega)
    omega
  have hpos : l ≠ [] := List.length_pos_iff.mp (by rw [hlen]; exact hh.bits_pos h.table)
  have hslot := hv.slot h.table hpos (Nat.le_of_eq hlen)
  have hown := hv.own_route hh h.table hpos (Nat.le_of_eq hlen)
  have hcover := hh.covers_le h.table
  have hwithin : (π ++ l).length ≤ art.artAlen := by rw [List.length_append]; omega
  have hhere (κ : List Bool) : ahead art π p ai κ ↔
      π ++ l <+: κ ∨ ahead art π p ⟨ai.aiTable, ai.aiJ, ai.aiI + 1⟩ κ := by
    rw [ahead, AheadAt, here_fringe hj hlen hl, or_assoc]
    rfl
  rw [Art.slotVal, Art.slot, hl] at hslot
  rw [hl] at hown
  cases hent : art.entry p ai.aiI with
  | node an =>
    rw [hent] at hslot
    simp only [hent, ArtHeapEntry.node.injEq] at hslot
    subst hslot
    have hnone : tab (π ++ l) = none := by
      cases hc : tab (π ++ l) with
      | none => rfl
      | some c =>
        rw [← hl, (hh.link h.table hlen c).mpr hc] at hent
        cases hent
    have hgone {κ : List Bool} (hpre : π ++ l <+: κ) :
        ¬ahead art π p ⟨ai.aiTable, ai.aiJ, ai.aiI + 1⟩ κ := by
      rintro (hhere | habove)
      · exact not_here_fringe hj hlen hl hpre hhere
      · exact not_above_below ((List.prefix_append π l).trans hpre) habove
    have hsub (κ : List Bool) (hκ : ahead art π p ⟨ai.aiTable, ai.aiJ, ai.aiI + 1⟩ κ) :
        ahead art π p ai κ := (hhere κ).mpr (.inr hκ)
    -- without a table there are no routes further down
    have hrest (κ : List Bool) (hκ : ahead art π p ai κ) (hR : R κ ≠ none) :
        κ = π ++ l ∨ ahead art π p ⟨ai.aiTable, ai.aiJ, ai.aiI + 1⟩ κ := by
      rcases (hhere κ).mp hκ with hpre | hκ
      · refine .inl ?_
        by_contra hne
        refine hR (hv.home_missing hh h.table hlen hnone hpre ?_)
        exact lt_of_le_of_ne hpre.length_le fun heq => hne (hpre.eq_of_length heq).symm
      · exact .inr hκ
    have hpaused : Paused art tab R π p ⟨ai.aiTable, ai.aiJ, ai.aiI + 1⟩ :=
      ⟨h.table, h.here, h.sound, ⟨fun hlt => absurd hlt hj, fun _ => by simp only; omega⟩⟩
    cases hR : R (π ++ l) with
    | some an =>
      have hkey := hv.keyed _ _ hR
      refine .inl ⟨some an, ⟨ai.aiTable, ai.aiJ, ai.aiI + 1⟩, art, fun fuel => ?_,
        .found (.refl art) hpaused ⟨?_, ?_, ?_, hsub, ?_⟩⟩
      · have hcond := hown.mpr (by rw [hR]; simp)
        rw [routeAt_of_some hpos hR] at hent hcond
        rw [artIterFrom, hshift, if_pos hi]
        simp only [hent, ne_eq, reduceCtorEq, not_false_eq_true, true_and] at hcond ⊢
        rw [if_pos hcond.2]
      · rw [hkey, hR]
      · rw [hkey]
        exact (hhere _).mpr (.inl List.prefix_rfl)
      · rw [hkey]
        exact hgone List.prefix_rfl
      · rw [hkey]
        exact hrest
    | none =>
      have hlt := left_lt (n := art.artAlen) hsub ((hhere _).mpr (.inl List.prefix_rfl))
        (hgone List.prefix_rfl) hwithin
      refine .inr ⟨art, tab, π, p, .fringe, ⟨ai.aiTable, ai.aiJ, ai.aiI + 1⟩, fun fuel => ?_,
        ⟨hpaused, (by simp), fun _ => hj⟩, .refl art, .of_none hsub hrest hR, ?_⟩
      · have hcond := fun hc => hown.mp hc hR
        rw [artIterFrom, hshift, if_pos hi]
        simp only [hent]
        rw [if_neg]
        rintro ⟨hne, hne'⟩
        exact hcond ⟨by simpa using hne, hne'⟩
      · simp only [stepsLeft, pcRank]
        omega
  | heap c =>
    rw [hent] at hslot
    simp only at hslot
    have hc : tab (π ++ l) = some c := (hh.link h.table hlen c).mp (hl ▸ hent)
    obtain ⟨hpaused, hiff, hgone⟩ := h.into hlen hl hc
    have hstep (fuel : Nat) : artIterFrom (fuel + 1) .fringe p ai art =
        descended fuel c (artIterDescend ⟨ai.aiTable, ai.aiJ, ai.aiI + 1⟩ c
          (art.entry p (ai.aiI >>> 1)) art) := by
      cases hdesc : artIterDescend ⟨ai.aiTable, ai.aiJ, ai.aiI + 1⟩ c
        (art.entry p (ai.aiI >>> 1)) art with
      | mk found rest =>
        cases found <;> simp only [artIterFrom, hshift, if_pos hi, hent, hdesc, descended]
    cases hR : R (π ++ l) with
    | some an =>
      refine .inl ⟨some an, ⟨some c, 1, 2⟩, artTableRef art c, fun fuel => ?_,
        .found ⟨rfl, rfl, rfl⟩ hpaused (takes_of_iff hiff hgone hR (hv.keyed _ _ hR))⟩
      rw [hstep, artIterDescend_eq, hslot, if_pos (hown.mpr (by rw [hR]; simp)),
        routeAt_of_some hpos hR]
      rfl
    | none =>
      have hlt := left_skip hiff hgone hwithin
      have hsame : SameTables art (artTableRef art c) := sameTables_modify (f := (· + 1))
      have hlvl := (hh.child h.table hlen hc).2.2
      have hlvl1 := hsame.level c
      refine .inr ⟨artTableRef art c, tab, π ++ l, c, .descend, ⟨some c, 1, 2⟩, fun fuel => ?_,
        ⟨hpaused, (by simp), (by simp)⟩, ⟨rfl, rfl, rfl⟩,
        .of_none (fun κ hκ => (hiff κ).mpr (.inr hκ)) (fun κ hκ _ => (hiff κ).mp hκ) hR, ?_⟩
      · rw [hstep, artIterDescend_eq, hslot, if_neg fun hcond => hown.mp hcond hR]
        rfl
      · have halen : (artTableRef art c).artAlen = art.artAlen := rfl
        simp only [stepsLeft, pcRank, halen]
        omega

theorem AtLoop.ascend (h : AtLoop art tab R π p .fringe ai)
    (hi : ¬ai.aiI < 2 ^ ((art.mem p).atBits + 1)) : Progress art R π p .fringe ai := by
  have hh := h.sound.shape
  have hmin := (hh.table h.table).minfringe
  have hj := h.fringe rfl
  have hshift : (art.mem p).atMinfringe <<< 1 = 2 ^ ((art.mem p).atBits + 1) := by
    rw [hmin, Nat.shiftLeft_eq, Nat.pow_one, Nat.pow_succ]
  have hhere (κ : List Bool) : ahead art π p ai κ ↔ AheadAbove art.artLevels π κ :=
    or_iff_right (not_here_end hj (Nat.not_lt.mp hi))
  by_cases hπ : π = []
  · subst hπ
    have hs := h.sound
    rw [onPath_root h.table] at hs
    obtain ⟨art', tab', hfree, hs', hpruned⟩ := artTableFree_ok hs h.table
    have hparent := (hh.top h.table).1
    refine .inl ⟨none, ⟨none, ai.aiJ, ((art.mem p).atIndex + 1) % 2 ^ 32⟩, art', fun fuel => ?_,
      .done hpruned.kept rfl hs' fun κ hκ => ?_⟩
    · rw [artIterFrom, hshift, if_neg hi]
      simp only [hparent, hfree, Option.bind_eq_bind, Option.bind_some]
    · exact absurd ((hhere κ).mp hκ) (not_above_root hh.strides)
  · obtain ⟨π₀, l, q, hq, hlen, rfl⟩ := hh.parent h.table hπ
    obtain ⟨hparent, hindex, hlvl⟩ := hh.child hq hlen h.table
    have hs := h.sound
    rw [onPath_child hh hq hlen h.table] at hs
    obtain ⟨art', tab', hfree, hs', hpruned⟩ := artTableFree_ok hs h.table
    have hq' : tab' π₀ = some q := hpruned.held hq (onPath_pos hq prefix_rfl)
    have hplace := hpruned.place hq'
    have hbits : (art'.mem q).atBits = (art.mem q).atBits := congrArg Place.bits hplace
    have hlvl' : (art'.mem q).atLevel = (art.mem q).atLevel := congrArg Place.level hplace
    have hmin' := (hs'.shape.table hq').minfringe
    have hwrap : (idx l + 1) % 2 ^ 32 = idx l + 1 := by
      have hlt := (idx_lt_iff l 9).mpr (by rcases hh.bits_cases hq with h4 | h8 <;> omega)
      omega
    have hlow := (idx_bounds l).1
    rw [hlen] at hlow
    rw [← hpruned.onPath] at hs'
    have hahead (κ : List Bool) : ahead art (π₀ ++ l) p ai κ ↔
        ahead art' π₀ q ⟨some q, (art'.mem q).atMinfringe, idx l + 1⟩ κ := by
      rw [hhere, above_child hh hq hlen, ahead, AheadAt, AheadHere, hpruned.kept.levels, hbits,
        if_neg (by rw [hmin', hbits]; exact Nat.lt_irrefl _)]
      rfl
    refine .inr ⟨art', tab', π₀, q, .fringe, ⟨some q, (art'.mem q).atMinfringe, idx l + 1⟩,
      fun fuel => ?_, ⟨⟨hq', rfl, hs', ⟨fun hlt => ?_, fun _ => ?_⟩⟩, (by simp), fun _ => ?_⟩,
      hpruned.kept, .of_iff hahead, ?_⟩
    · rw [artIterFrom, hshift, if_neg hi]
      simp only [hparent, hindex, hfree, hwrap, Option.bind_eq_bind, Option.bind_some]
    · rw [hmin'] at hlt
      exact absurd hlt (Nat.lt_irrefl _)
    · rw [hbits]
      exact Nat.le_succ_of_le hlow
    · rw [hmin']
      exact Nat.lt_irrefl _
    · have hle := left_le (n := art.artAlen) fun κ => (hahead κ).mpr
      simp only [stepsLeft, pcRank, hpruned.kept.alen]
      omega

theorem AtLoop.progress (h : AtLoop art tab R π p pc ai) :
    Progress art R π p pc ai := by
  cases pc with
  | descend => exact h.descend
  | nonfringe =>
    by_cases hi : ai.aiI < 2 ^ (art.mem p).atBits
    · exact h.nonfringe_slot hi
    · exact h.nonfringe_done hi
  | fringe =>
    by_cases hi : ai.aiI < 2 ^ ((art.mem p).atBits + 1)
    · exact h.fringe_slot hi
    · exact h.ascend hi

theorem artIterFrom_ok {fuel : Nat} (h : AtLoop art tab R π p pc ai)
    (hfuel : stepsLeft art π p pc ai < fuel) :
    ∃ r ai' art', artIterFrom fuel pc p ai art = some (r, ai', art') ∧
      Outcome art R (ahead art π p ai) r ai' art' := by
  induction fuel generalizing art tab π p pc ai with
  | zero => omega
  | succ fuel ih =>
    rcases h.progress with ⟨r, ai', art', hrun, hout⟩ |
      ⟨art1, tab1, π1, p1, pc1, ai1, hrun, h1, hkept, hskips, hlt⟩
    · exact ⟨r, ai', art', hrun fuel, hout⟩
    · obtain ⟨r, ai', art', hrun', hout⟩ := ih h1 (by omega)
      exact ⟨r, ai', art', (hrun fuel).trans hrun', hout.after hkept hskips⟩

theorem artIterNext_ok (h : Paused art tab R π p ai) :
    ∃ r ai' art', artIterNext ai art = some (r, ai', art') ∧
      Outcome art R (ahead art π p ai) r ai' art' := by
  have hlevel := (h.sound.shape.table h.table).level
  have hleft := left_le_pow (ahead art π p ai) art.artAlen
  have hloop : AtLoop art tab R π p .descend ai := ⟨h, nofun, nofun⟩
  rw [artIterNext, h.here]
  refine artIterFrom_ok hloop ?_
  simp only [stepsLeft, pcRank, iterFuel]
  omega

theorem artIterOpen_ok (hs : SoundWith art tab R noneHeld) (ai : ArtIter) :
    ∃ r ai' art', artIterOpen ai art = some (r, ai', art') ∧
      Outcome art R (fun _ => True) r ai' art' := by
  have h := hs.shape
  rw [artIterOpen, h.root]
  cases hroot : tab [] with
  | none =>
    refine ⟨none, _, art, rfl, .done (.refl art) rfl hs fun κ _ => ?_⟩
    by_contra hne
    obtain ⟨an, han⟩ := Option.ne_none_iff_exists'.mp hne
    obtain ⟨π, p, hp, -⟩ := hs.values.stored han
    exact h.rooted hp hroot
  | some root =>
    have hsame : SameTables art (artTableRef art root) := sameTables_modify (f := (· + 1))
    have hpaused : Paused (artTableRef art root) tab R [] root ⟨some root, 1, 2⟩ :=
      ⟨hroot, rfl, onPath_root hroot ▸ hs.ref root, spot_start⟩
    have hiff (κ : List Bool) : True ↔
        κ = [] ∨ ahead (artTableRef art root) [] root ⟨some root, 1, 2⟩ κ := by
      rw [ahead, AheadAt, hsame.bits, here_start (h.bits_pos hroot), true_iff]
      by_cases hnil : κ = []
      · exact .inl hnil
      · exact .inr (.inl ⟨ nil_prefix, hnil⟩)
    have hgone : ¬ahead (artTableRef art root) [] root ⟨some root, 1, 2⟩ [] := by
      rintro (hhere | habove)
      · rw [hsame.bits, here_start (h.bits_pos hroot)] at hhere
        exact hhere.2 rfl
      · exact not_above_below prefix_rfl habove
    simp only [artIterDescend_eq, hs.values.default hroot, ArtHeapEntry.toNode]
    cases hR : R [] with
    | some an =>
      exact ⟨some an, _, _, rfl, .found ⟨rfl, rfl, rfl⟩ hpaused
        (takes_of_iff hiff hgone hR (hs.values.keyed _ _ hR))⟩
    | none =>
      obtain ⟨r, ai', art', hrun, hout⟩ := artIterNext_ok hpaused
      refine ⟨r, ai', art', ?_, hout.after ⟨rfl, rfl, rfl⟩
        (.of_none (fun κ _ => trivial) (fun κ hκ _ => (hiff κ).mp hκ) hR)⟩
      simpa using hrun

end Mbsd.Net.Allotment
