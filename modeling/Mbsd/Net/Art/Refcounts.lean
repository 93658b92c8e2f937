import Mbsd.Net.Art.Iteration

/-! The references of a routing table over whole runs, with any number of iterators. -/

namespace Mbsd.Net.Allotment

open Lib.HeapIndex Sys List Option

variable {art art' : Art} {tab tab' : Tables} {R R' : Routes} {π ρ κ l : List Bool} {p q : Ptr}
  {ai ai' : ArtIter} {its before after : List ArtIter} {freed : Set Ptr}

inductive Linked (art : Art) : List Bool → Ptr → Prop
  | root {p : Ptr} (h : art.artRoot = some p) : Linked art [] p
  | child {π l : List Bool} {p q : Ptr} (hp : Linked art π p) (hl : l.length ≤ (art.mem p).atBits)
      (h : art.entry p (idx l) = .heap q) : Linked art (π ++ l) q

theorem Shape.linked_iff (h : Shape art tab) : Linked art π p ↔ tab π = some p := by
  constructor
  · intro hp
    induction hp with
    | root hroot => exact h.root ▸ hroot
    | child _ hl hent ih =>
      rcases Nat.lt_or_eq_of_le hl with hlt | heq
      · exact absurd hent (h.inner ih hlt _)
      · exact (h.link ih heq _).mp hent
  · intro hp
    induction hn : π.length using Nat.strong_induction_on generalizing π p with
    | _ n ih =>
      by_cases hπ : π = []
      · subst hπ
        exact .root (h.root.trans hp)
      · obtain ⟨π₀, l, q, hq, hl, rfl⟩ := h.parent hp hπ
        have hbits := h.bits_pos hq
        have hshort : π₀.length < n := by
          rw [← hn, length_append]
          omega
        exact .child (ih _ hshort hq rfl) (Nat.le_of_eq hl) ((h.link hq hl p).mpr hp)

def Holds (tab : Tables) (ai : ArtIter) (p : Ptr) : Prop :=
  ∃ π ρ q, ai.aiTable = some q ∧ tab π = some q ∧ tab ρ = some p ∧ ρ <+: π

section Held

open Classical

noncomputable def heldBy (tab : Tables) (its : List ArtIter) (p : Ptr) : Nat :=
  its.countP fun ai => decide (Holds tab ai p)

theorem heldBy_congr (h : ∀ ai ∈ its, ∀ p, Holds tab' ai p ↔ Holds tab ai p) :
    heldBy tab' its = heldBy tab its := by
  funext p
  refine countP_congr fun ai hai => ?_
  rw [decide_eq_true_iff, decide_eq_true_iff]
  exact h ai hai p

theorem heldBy_pos (hai : ai ∈ its) (h : Holds tab ai p) : 0 < heldBy tab its p :=
  countP_pos_iff.mpr ⟨ai, hai, decide_eq_true h⟩

theorem heldBy_eq_zero : heldBy tab its p = 0 ↔ ∀ ai ∈ its, ¬Holds tab ai p := by
  simp only [heldBy, countP_eq_zero, decide_eq_true_iff]

theorem heldBy_middle : heldBy tab (before ++ ai :: after) p =
    heldBy tab (before ++ after) p + if Holds tab ai p then 1 else 0 := by
  rw [heldBy, heldBy, countP_append, countP_append, countP_cons]
  simp only [decide_eq_true_iff]
  omega

theorem heldBy_closed (h : ai.aiTable = none) :
    heldBy tab (before ++ ai :: after) = heldBy tab (before ++ after) := by
  funext p
  rw [heldBy_middle, if_neg, Nat.add_zero]
  rintro ⟨π, ρ, q, hq, -⟩
  rw [h] at hq
  cases hq

theorem Standing.holds_iff (hs : Standing art tab π q ai) (h : Shape art tab) :
    Holds tab ai p ↔ ∃ ρ, tab ρ = some p ∧ ρ <+: π := by
  constructor
  · rintro ⟨π', ρ, q', hq', hπ', hρ, hpre⟩
    rw [hs.here, some.injEq] at hq'
    subst hq'
    rw [h.inj hπ' hs.table] at hpre
    exact ⟨ρ, hρ, hpre⟩
  · rintro ⟨ρ, hρ, hpre⟩
    exact ⟨π, ρ, q, hs.here, hs.table, hρ, hpre⟩

theorem Standing.heldBy_eq (hs : Standing art tab π q ai) (h : Shape art tab) :
    heldBy tab (before ++ ai :: after) = withPath (heldBy tab (before ++ after)) tab π := by
  funext p
  rw [heldBy_middle, withPath, onPath]
  simp only [hs.holds_iff h]

end Held

theorem heldBy_trimmed (h : Trimmed art tab (heldBy tab its) art' tab') :
    heldBy tab' its = heldBy tab its := by
  refine heldBy_congr fun ai hai p => ⟨fun ⟨π, ρ, q, hq, hπ, hρ, hpre⟩ =>
    ⟨π, ρ, q, hq, h.old hπ, h.old hρ, hpre⟩, fun hp => ?_⟩
  obtain ⟨π, ρ, q, hq, hπ, hρ, hpre⟩ := id hp
  have hown : Holds tab ai q := ⟨π, π, q, hq, hπ, hπ, prefix_rfl⟩
  exact ⟨π, ρ, q, hq, h.held hπ (heldBy_pos hai hown), h.held hρ (heldBy_pos hai hp), hpre⟩

theorem heldBy_extended (h : Extended art tab art' tab') (hh : Shape art' tab')
    (hits : ∀ ai ∈ its, ∀ q, ai.aiTable = some q → ∃ π, tab π = some q) :
    heldBy tab' its = heldBy tab its := by
  refine heldBy_congr fun ai hai p => ⟨fun ⟨π, ρ, q, hq, hπ, hρ, hpre⟩ => ?_,
    fun ⟨π, ρ, q, hq, hπ, hρ, hpre⟩ => ⟨π, ρ, q, hq, h.old hπ, h.old hρ, hpre⟩⟩
  obtain ⟨π₀, hπ₀⟩ := hits ai hai q hq
  obtain rfl := hh.inj hπ (h.old hπ₀)
  refine ⟨π, ρ, q, hq, hπ₀, ?_, hpre⟩
  cases hold : tab ρ with
  | none =>
    have hnone := h.above hold (by rw [hρ]; nofun) hpre
    rw [hπ₀] at hnone
    cases hnone
  | some p' => rw [← hρ, h.old hold]

def EnoughTables (art : Art) (an : ArtNode) : Prop :=
  art.pool art.next = true → ∀ k < missing art an, art.pool (art.next + k) = true

theorem Refused.none_made {n : Nat} (h : Refused art tab n art' tab')
    (henough : art.pool art.next = true → ∀ k < n, art.pool (art.next + k) = true) :
    tab' = tab ∧ art'.mem = art.mem := by
  obtain ⟨k, hk, hfail, hbefore, hsame⟩ := h
  refine hsame ?_
  by_contra hpos
  have hfirst := hbefore 0 (Nat.pos_of_ne_zero hpos)
  rw [henough hfirst k hk] at hfail
  cases hfail

structure Orderly (ok : Art → ArtNode → Prop) (art : Art) (R : Routes) (its : List ArtIter)
    (freed : Set Ptr) (tab : Tables) : Prop where
  sound : SoundWith art tab R (heldBy tab its)
  levels : 0 < art.artLevels.length
  iters : ∀ ai ∈ its, ∀ q, ai.aiTable = some q → ∃ π, Standing art tab π q ai
  unfreed : ∀ q, q ∈ freed → q < art.next ∧ ∀ π, tab π ≠ some q
  collected : ∀ q, Collected art q → q ∈ freed
  live : (∀ art an, ok art an → EnoughTables art an) → Live art tab

variable {ok : Art → ArtNode → Prop}

section

variable (h : Orderly ok art R its freed tab)

include h

theorem Orderly.trimmed {stay its' : List ArtIter}
    (ht : Trimmed art tab (heldBy tab stay) art' tab') (hs : SoundWith art' tab' R' (heldBy tab' its'))
    (hits : ∀ ai ∈ its', (ai ∈ stay ∧ ai ∈ its) ∨
      ∀ q, ai.aiTable = some q → ∃ π, Standing art' tab' π q ai) :
    Orderly ok art' R' its' (freed ∪ {q | Collected art' q}) tab' where
  sound := hs
  levels := by rw [ht.kept.levels]; exact h.levels
  iters := by
    intro ai hai q hq
    rcases hits ai hai with ⟨hstay, hold⟩ | hnew
    · obtain ⟨π, hst⟩ := h.iters ai hold q hq
      have hq' := ht.held hst.table
        (heldBy_pos hstay ⟨π, π, q, hq, hst.table, hst.table, prefix_rfl⟩)
      have hbits : (art'.mem q).atBits = (art.mem q).atBits :=
        congrArg Place.bits (ht.place hq')
      exact ⟨π, hq', hq, hbits ▸ hst.low⟩
    · exact hnew q hq
  unfreed := by
    have hfreed (q : Ptr) (hq : q ∈ freed) : q < art'.next ∧ ∀ π, tab' π ≠ some q := by
      obtain ⟨hlt, hno⟩ := h.unfreed q hq
      exact ⟨ht.next ▸ hlt, fun π hπ => hno π (ht.old hπ)⟩
    rintro q (hq | hq)
    · exact hfreed q hq
    · rcases ht.gone hq with hq | ⟨⟨π, hπ⟩, hno⟩
      · exact hfreed q (h.collected q hq)
      · exact ⟨ht.next ▸ h.sound.shape.lt_next hπ, hno⟩
  collected := fun q hq => .inr hq
  live := fun hok => ht.live (h.live hok)

theorem Orderly.leaves (hstay : ∀ ai ∈ before ++ after, ai ∈ its)
    (hl : Leaves R (heldBy tab (before ++ after)) art' tab' ai')
    (ht : Trimmed art tab (heldBy tab (before ++ after)) art' tab') :
    Orderly ok art' R (before ++ ai' :: after) (freed ∪ {q | Collected art' q}) tab' := by
  have hmem (ai : ArtIter) (hai : ai ∈ before ++ ai' :: after) : ai = ai' ∨ ai ∈ before ++ after := by
    rw [mem_append, mem_cons] at hai
    rw [mem_append]
    tauto
  rw [← heldBy_trimmed ht] at hl
  cases hl with
  | closed here sound =>
    refine h.trimmed ht (by rwa [heldBy_closed here]) fun ai hai => ?_
    rcases hmem ai hai with rfl | hai
    · exact .inr fun q hq => by rw [here] at hq; cases hq
    · exact .inl ⟨hai, hstay ai hai⟩
  | standing standing sound =>
    refine h.trimmed ht (by rwa [standing.heldBy_eq sound.shape]) fun ai hai => ?_
    rcases hmem ai hai with rfl | hai
    · refine .inr fun q hq => ?_
      rw [standing.here, some.injEq] at hq
      exact ⟨_, hq ▸ standing⟩
    · exact .inl ⟨hai, hstay ai hai⟩

theorem Orderly.extended (he : Extended art tab art' tab')
    (hs : SoundWith art' tab' R' (heldBy tab its))
    (hlive : (∀ art an, ok art an → EnoughTables art an) → Live art' tab') :
    Orderly ok art' R' its (freed ∪ {q | Collected art' q}) tab' where
  sound := by
    rwa [heldBy_extended he hs.shape fun ai hai q hq => ?_]
    obtain ⟨π, hst⟩ := h.iters ai hai q hq
    exact ⟨π, hst.table⟩
  levels := by rw [he.kept.levels]; exact h.levels
  iters := by
    intro ai hai q hq
    obtain ⟨π, hst⟩ := h.iters ai hai q hq
    have hbits : (art'.mem q).atBits = (art.mem q).atBits :=
      congrArg Place.bits (he.place q (h.sound.shape.lt_next hst.table))
    exact ⟨π, he.old hst.table, hq, hbits ▸ hst.low⟩
  unfreed := by
    have hfreed (q : Ptr) (hq : q ∈ freed) : q < art'.next ∧ ∀ π, tab' π ≠ some q := by
      obtain ⟨hlt, hno⟩ := h.unfreed q hq
      refine ⟨hlt.trans_le he.next, fun π hπ => ?_⟩
      cases hold : tab π with
      | none => exact absurd hlt (Nat.not_lt.mpr (he.fresh hπ hold))
      | some p => exact hno π (hold.trans ((he.old hold).symm.trans hπ))
    rintro q (hq | hq)
    · exact hfreed q hq
    · refine hfreed q (h.collected q (Collected.of_same hq he.gcList fun c hc => ?_))
      exact congrArg Place.parent (he.place c (h.unfreed c (h.collected c hc)).1)
  collected := fun q hq => .inr hq
  live := hlive

end

/-- A routing table after any calls, with its routes, the iterators that are open or have come to
their end, and the tables that have been given up to be freed. -/
inductive Running (pool : Ptr → Bool) (alen : Nat) (ok : Art → ArtNode → Prop) :
    Art → Routes → List ArtIter → Set Ptr → Prop
  | init {art : Art} (h : artInit pool alen = some art) :
      Running pool alen ok art (fun _ => none) [] ∅
  | insert {art art' : Art} {R : Routes} {its : List ArtIter} {freed : Set Ptr} {an : ArtNode}
      {r : Option ArtNode} (h : Running pool alen ok art R its freed) (hok : ok art an)
      (hrun : artInsert art an = some (r, art')) :
      Running pool alen ok art' (R.insert an r) its (freed ∪ {q | Collected art' q})
  | delete {art art' : Art} {R : Routes} {its : List ArtIter} {freed : Set Ptr}
      {addr : List UInt8} {plen : Nat} {r : Option ArtNode}
      (h : Running pool alen ok art R its freed) (hR : R (bitsOf addr plen) ≠ none)
      (hrun : artDelete art addr plen = some (r, art')) :
      Running pool alen ok art' (Function.update R (bitsOf addr plen) none) its
        (freed ∪ {q | Collected art' q})
  | opened {art art' : Art} {R : Routes} {its : List ArtIter} {freed : Set Ptr} {ai ai' : ArtIter}
      {r : Option ArtNode} (h : Running pool alen ok art R its freed)
      (hrun : artIterOpen ai art = some (r, ai', art')) :
      Running pool alen ok art' R (ai' :: its) (freed ∪ {q | Collected art' q})
  | next {art art' : Art} {R : Routes} {before after : List ArtIter} {freed : Set Ptr}
      {ai ai' : ArtIter} {r : Option ArtNode}
      (h : Running pool alen ok art R (before ++ ai :: after) freed)
      (hrun : artIterNext ai art = some (r, ai', art')) :
      Running pool alen ok art' R (before ++ ai' :: after) (freed ∪ {q | Collected art' q})
  | closed {art art' : Art} {R : Routes} {before after : List ArtIter} {freed : Set Ptr}
      {ai ai' : ArtIter} (h : Running pool alen ok art R (before ++ ai :: after) freed)
      (hrun : artIterClose ai art = some (ai', art')) :
      Running pool alen ok art' R (before ++ after) (freed ∪ {q | Collected art' q})
  | gc {art : Art} {R : Routes} {its : List ArtIter} {freed : Set Ptr}
      (h : Running pool alen ok art R its freed) :
      Running pool alen ok { art with artTableGcList := none } R its freed

variable {pool : Ptr → Bool} {alen plen : Nat} {an : ArtNode} {r : Option ArtNode}
  {addr : List UInt8}

theorem not_collected (h : art.artTableGcList = none) : ¬Collected art q := by
  intro hq
  induction hq with
  | first hq =>
    rw [h] at hq
    cases hq
  | next _ _ ih => exact ih

theorem orderly_init (h : artInit pool alen = some art) :
    Orderly ok art (fun _ => none) [] ∅ fun _ => none := by
  rw [artInit] at h
  obtain ⟨levels, hlevels, h⟩ := bind_eq_some_iff.mp h
  obtain ⟨-, -, h⟩ := bind_eq_some_iff.mp h
  obtain ⟨hstrides, hsum, hpos⟩ := artLevelsOf_strides hlevels
  obtain rfl := some.inj h
  refine ⟨⟨⟨hstrides, hsum, rfl, ?_, ?_, ?_, ?_, ?_, ?_, ?_, ?_, ?_⟩,
    ⟨?_, ?_, ?_, fun _ _ hkey => by cases hkey⟩, fun hp => by cases hp⟩, hpos, ?_, ?_,
    fun q hq => absurd hq (not_collected rfl), fun _ π p hp => ?_⟩
  all_goals
    intros
    contradiction

theorem artInsert_le (hrun : artInsert art an = some (r, art')) : an.anPlen ≤ art.artAlen := by
  obtain ⟨_, hle, -⟩ := bind_eq_some_iff.mp hrun
  by_contra hgt
  rw [kassert, if_neg hgt] at hle
  cases hle

theorem Orderly.insert (h : Orderly ok art R its freed tab) (hok : ok art an)
    (hrun : artInsert art an = some (r, art')) :
    ∃ tab', Orderly ok art' (R.insert an r) its (freed ∪ {q | Collected art' q}) tab' := by
  have hfree (q : Ptr) (hq : art.next ≤ q) : heldBy tab its q = 0 := by
    rw [heldBy_eq_zero]
    rintro ai - ⟨π, ρ, p, -, -, hρ, -⟩
    exact absurd hq (Nat.not_le.mpr (h.sound.shape.lt_next hρ))
  obtain ⟨r', art'', hrun', hins⟩ := artInsert_held h.sound hfree h.levels (artInsert_le hrun)
  rw [hrun, some.injEq, Prod.mk.injEq] at hrun'
  obtain ⟨rfl, rfl⟩ := hrun'
  rw [Routes.insert]
  cases hins with
  | present hR =>
    rw [if_neg fun hc => by rw [hR] at hc; cases hc.1]
    exact ⟨tab, h.extended (.refl art tab) h.sound h.live⟩
  | added hR sound extended live =>
    rw [if_pos ⟨hR, (by simp)⟩]
    exact ⟨_, h.extended extended sound fun himp => live (h.live himp)⟩
  | refused hR sound extended refused =>
    rw [if_neg fun hc => hc.2 rfl]
    refine ⟨_, h.extended extended sound fun himp => ?_⟩
    obtain ⟨rfl, hmem⟩ := refused.none_made (himp _ _ hok)
    intro π p hp
    rw [hmem]
    exact h.live himp π p hp

theorem Orderly.delete (h : Orderly ok art R its freed tab) (hR : R (bitsOf addr plen) ≠ none)
    (hrun : artDelete art addr plen = some (r, art')) :
    ∃ tab', Orderly ok art' (Function.update R (bitsOf addr plen) none) its
      (freed ∪ {q | Collected art' q}) tab' := by
  obtain ⟨an, han⟩ := ne_none_iff_exists'.mp hR
  obtain ⟨art'', tab', hrun', hs, ht⟩ := artDelete_trims h.sound (artDelete_le hrun) han
  rw [hrun, some.injEq, Prod.mk.injEq] at hrun'
  obtain ⟨rfl, rfl⟩ := hrun'
  exact ⟨tab', h.trimmed ht (by rwa [heldBy_trimmed ht]) fun ai hai => .inl ⟨hai, hai⟩⟩

theorem artIterCloseLoop_none (fuel : Nat) : artIterCloseLoop fuel none art = some art := by
  cases fuel <;> rfl

theorem Orderly.close (h : Orderly ok art R (before ++ ai :: after) freed tab)
    (hrun : artIterClose ai art = some (ai', art')) :
    ∃ tab', Orderly ok art' R (before ++ after) (freed ∪ {q | Collected art' q}) tab' := by
  obtain ⟨art'', hloop, hrun⟩ := bind_eq_some_iff.mp hrun
  cases hrun
  have hmem (ai' : ArtIter) (hai' : ai' ∈ before ++ after) : ai' ∈ before ++ ai :: after := by
    rw [mem_append] at hai'
    rw [mem_append, mem_cons]
    tauto
  have hs := h.sound
  cases hq : ai.aiTable with
  | none =>
    rw [hq, artIterCloseLoop_none, some.injEq] at hloop
    subst hloop
    rw [heldBy_closed hq] at hs
    exact ⟨tab, h.trimmed ((SameTables.refl art).trimmed rfl tab _ id) hs fun ai' hai' =>
      .inl ⟨hai', hmem ai' hai'⟩⟩
  | some q =>
    obtain ⟨π, hst⟩ := h.iters ai (mem_append_right _ mem_cons_self) q hq
    rw [hst.heldBy_eq hs.shape] at hs
    rw [hq] at hloop
    obtain ⟨tab', hs', ht⟩ := artIterCloseLoop_leaves hst.table hs hloop
    exact ⟨tab', h.trimmed ht (by rwa [heldBy_trimmed ht]) fun ai' hai' =>
      .inl ⟨hai', hmem ai' hai'⟩⟩

theorem Running.orderly (h : Running pool alen ok art R its freed) :
    ∃ tab, Orderly ok art R its freed tab := by
  induction h with
  | init h => exact ⟨_, orderly_init h⟩
  | insert _ hok hrun ih =>
    obtain ⟨tab, h⟩ := ih
    exact h.insert hok hrun
  | delete _ hR hrun ih =>
    obtain ⟨tab, h⟩ := ih
    exact h.delete hR hrun
  | @opened art art' R its freed ai ai' r _ hrun ih =>
    obtain ⟨tab, h⟩ := ih
    obtain ⟨tab', hl, ht⟩ := artIterOpen_leaves h.sound hrun
    have hstay : ∀ ai ∈ [] ++ its, ai ∈ its := fun _ hai => hai
    exact ⟨tab', h.leaves hstay hl ht⟩
  | @next art art' R before after freed ai ai' r _ hrun ih =>
    obtain ⟨tab, h⟩ := ih
    cases hq : ai.aiTable with
    | none =>
      rw [artIterNext, hq] at hrun
      cases hrun
    | some q =>
      obtain ⟨π, hst⟩ := h.iters ai (mem_append_right _ mem_cons_self) q hq
      have hs := h.sound
      rw [hst.heldBy_eq hs.shape] at hs
      obtain ⟨tab', hl, ht⟩ := artIterNext_leaves hst hs hrun
      refine ⟨tab', h.leaves (fun ai' hai' => ?_) hl ht⟩
      rw [mem_append] at hai'
      rw [mem_append, mem_cons]
      tauto
  | closed _ hrun ih =>
    obtain ⟨tab, h⟩ := ih
    exact h.close hrun
  | @gc art R its freed _ ih =>
    obtain ⟨tab, h⟩ := ih
    have hsame : SameTables art { art with artTableGcList := none } :=
      ⟨rfl, rfl, rfl, rfl, rfl, fun _ => rfl, fun _ _ _ => Iff.rfl⟩
    refine ⟨tab, ⟨h.sound.shape.of_same hsame, h.sound.values.congr hsame fun _ _ => rfl,
      h.sound.counted⟩, h.levels, fun ai hai q hq => ?_, h.unfreed,
      fun q hq => absurd hq (not_collected rfl), h.live⟩
    obtain ⟨π, hst⟩ := h.iters ai hai q hq
    exact ⟨π, hst.table, hst.here, hst.low⟩

theorem Live.empty (hlive : Live art tab) (hs : SoundWith art tab R noneHeld)
    (hR : ∀ κ, R κ = none) : tab π = none := by
  by_contra hne
  obtain ⟨p, hp⟩ := ne_none_iff_exists'.mp hne
  -- a table has another below it, which is longer, and none is longer than the address
  induction hn : art.artAlen - π.length using Nat.strong_induction_on generalizing π p with
  | _ n ih =>
    have hpos := hlive π p hp
    rw [hs.counted hp] at hpos
    have hrefs : ¬refs tab R π (art.mem p).atBits = 0 := by
      rw [noneHeld] at hpos
      omega
    rw [refs_eq_zero, not_and] at hrefs
    have hchild := hrefs fun ρ _ => hR ρ
    simp only [not_forall] at hchild
    obtain ⟨κ, ⟨-, hlen⟩, hκ⟩ := hchild
    obtain ⟨c, hc⟩ := ne_none_iff_exists'.mp hκ
    have hbits := hs.shape.bits_pos hp
    have hcover := hs.shape.covers_le hc
    exact ih _ (by omega) hκ c hc rfl

/-- The tables `tab` of a routing table are in order: the references of each are its routes, the
tables below it and the iterators that hold it, and what nothing refers to has been given up. -/
structure Tidy (art : Art) (R : Routes) (its : List ArtIter) (freed : Set Ptr) (tab : Tables) :
    Prop where
  linked : ∀ {π p}, tab π = some p ↔ Linked art π p
  counted : CountedWith art tab R (heldBy tab its)
  used : ∀ {π p}, tab π = some p → (∀ ai ∈ its, ¬Holds tab ai p) → 0 < (art.mem p).atRefcnt
  unfreed : ∀ {π p}, tab π = some p → p ∉ freed
  root : art.artRoot = none ↔ (∀ κ, R κ = none) ∧ ∀ ai ∈ its, ai.aiTable = none

theorem Orderly.tidy (h : Orderly EnoughTables art R its freed tab) : Tidy art R its freed tab where
  linked := h.sound.shape.linked_iff.symm
  counted := h.sound.counted
  used := fun hp _ => h.live (fun _ _ => id) _ _ hp
  unfreed := fun hp hmem => (h.unfreed _ hmem).2 _ hp
  root := by
    have hh := h.sound.shape
    rw [hh.root]
    constructor
    · intro hnone
      refine ⟨fun κ => ?_, fun ai hai => ?_⟩
      · by_contra hne
        obtain ⟨an, han⟩ := ne_none_iff_exists'.mp hne
        obtain ⟨π, p, hp, -⟩ := h.sound.values.stored han
        rw [hh.empty hnone] at hp
        cases hp
      · by_contra hne
        obtain ⟨q, hq⟩ := ne_none_iff_exists'.mp hne
        obtain ⟨π, hst⟩ := h.iters ai hai q hq
        have hp := hst.table
        rw [hh.empty hnone] at hp
        cases hp
    · rintro ⟨hR, hits⟩
      have hheld : heldBy tab its = noneHeld := by
        funext p
        refine heldBy_eq_zero.mpr fun ai hai ⟨π, ρ, q, hq, _⟩ => ?_
        rw [hits ai hai] at hq
        cases hq
      have hs := h.sound
      rw [hheld] at hs
      exact Live.empty (h.live fun _ _ => id) hs hR

/-- If each insertion can make all the tables it needs, or not even the first of them, the tables
are in order at all times. -/
theorem art_refcounts (h : Running pool alen EnoughTables art R its freed) :
    ∃ tab, Tidy art R its freed tab := by
  obtain ⟨tab, htab⟩ := h.orderly
  exact ⟨tab, htab.tidy⟩

theorem art_refcounts_tenSlashSeven :
    ∃ art, artInsert emptyArt tenSlashSeven = some (some tenSlashSeven, art) ∧
      ∃ tab, Tidy art (noRoutes.insert tenSlashSeven (some tenSlashSeven)) []
        (∅ ∪ {q | Collected art q}) tab := by
  obtain ⟨art, hrun⟩ := exists_tenSlashSeven
  have hstart : Running (fun _ => true) 32 EnoughTables emptyArt noRoutes [] ∅ := .init rfl
  have henough : EnoughTables emptyArt tenSlashSeven := fun _ _ _ => rfl
  exact ⟨art, hrun, art_refcounts (hstart.insert henough hrun)⟩

/-- A root is made, and no table below it. -/
theorem art_insert_leaves_table :
    ¬∀ pool alen art R its freed, Running pool alen (fun _ _ => True) art R its freed →
      ∃ tab, Tidy art R its freed tab := by
  intro htidy
  have hinit : ∃ art, artInit (fun n => n == 0) 32 = some art ∧
      (artInsert art ⟨1, [10, 0, 0, 0], 9⟩).map (fun r => (r.1, r.2.artRoot)) =
        some (none, some 0) := ⟨_, rfl, by decide⟩
  obtain ⟨art, hinit, hins⟩ := hinit
  obtain ⟨⟨r, art'⟩, hrun, hres⟩ := map_eq_some_iff.mp hins
  simp only [Prod.mk.injEq] at hres
  obtain ⟨rfl, hroot⟩ := hres
  obtain ⟨tab, h⟩ := htidy _ _ _ _ _ _ ((Running.init hinit).insert trivial hrun)
  have hnone := h.root.mpr ⟨fun κ => by rw [Routes.insert, if_neg fun hc => hc.2 rfl], nofun⟩
  rw [hroot] at hnone
  cases hnone

theorem art_references_counted (h : Running pool alen (fun _ _ => True) art R its freed) :
    ∃ tab, (∀ {π p}, tab π = some p ↔ Linked art π p) ∧ CountedWith art tab R (heldBy tab its) ∧
      ∀ {π p}, tab π = some p → p ∉ freed := by
  obtain ⟨tab, htab⟩ := h.orderly
  exact ⟨tab, htab.sound.shape.linked_iff.symm, htab.sound.counted, fun hp hmem =>
    (htab.unfreed _ hmem).2 _ hp⟩

theorem art_references_counted_nested : ∃ art, Reachable (fun _ => true) 32 art nestedRoutes ∧
    ∃ tab : Tables, (∀ {π p}, tab π = some p ↔ Linked art π p) ∧
      CountedWith art tab nestedRoutes (heldBy tab []) := by
  obtain ⟨art₁, art, hrun₁, hrun, h⟩ := exists_nested
  have hstart : Running (fun _ => true) 32 (fun _ _ => True) emptyArt noRoutes [] ∅ := .init rfl
  obtain ⟨tab, hlinked, hcounted, -⟩ :=
    art_references_counted ((hstart.insert trivial hrun₁).insert trivial hrun)
  exact ⟨art, h, tab, hlinked, hcounted⟩

end Mbsd.Net.Allotment
