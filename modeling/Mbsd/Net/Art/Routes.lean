import Mbsd.Lib.LongestPrefix
import Mbsd.Net.Art.Tables

/-! `art_allot` floods a part of a heap. -/

namespace Mbsd.Net.Allotment

open Lib.HeapIndex Lib.TreeFill Sys List Function

variable {κ : List Bool}

structure Painted (art : Art) (tab : Tables) (p : Ptr) (f : List Bool → Option ArtNode)
    (art' : Art) : Prop where
  same : SameTables art art'
  refcnt : ∀ q, (art'.mem q).atRefcnt = (art.mem q).atRefcnt
  here : ∀ l, l ≠ [] → l.length ≤ (art.mem p).atBits → art'.slotVal p (idx l) = .node (f l)
  other : ∀ {π' p' l'}, tab π' = some p' → l' ≠ [] → l'.length ≤ (art.mem p').atBits → p' ≠ p →
    art'.slotVal p' (idx l') = art.slotVal p' (idx l')
  default : ∀ {r}, tab [] = some r →
    art'.entry r artHeapIdxDefault = art.entry r artHeapIdxDefault

section Painted

variable {art art' : Art} {tab : Tables} {π : List Bool} {p : Ptr}
  {f : List Bool → Option ArtNode}

theorem Painted.setSlot {l : List Bool} (h : Shape art tab) (hp : tab π = some p)
    (an : Option ArtNode) (ha : Painted art tab p f art') (hpos : l ≠ [])
    (hl : l.length ≤ (art.mem p).atBits) :
    Painted art tab p (update f l an) (art'.setSlot p (idx l) (.node an)) := by
  have h' : Shape art' tab := h.of_same ha.same
  have hl' : l.length ≤ (art'.mem p).atBits := by rwa [ha.same.bits]
  constructor
  case same => exact ha.same.trans (h'.same_setSlot hp hl')
  case refcnt =>
    intro q
    rw [Art.setSlot, Art.atRefcnt_setEntry, ha.refcnt]
  case here =>
    intro m hm hmlen
    rw [h'.slotVal_setSlot hp hpos hl' hp hm (by rwa [ha.same.bits])]
    by_cases heq : m = l
    · rw [if_pos ⟨rfl, heq⟩, heq, update_self]
    · rw [if_neg (fun h => heq h.2), update_of_ne heq, ha.here m hm hmlen]
  case other =>
    intro π' p' l' hp' hpos' hlen' hne
    rw [h'.slotVal_setSlot hp hpos hl' hp' hpos' (by rwa [ha.same.bits]),
      if_neg (fun h => hne h.1), ha.other hp' hpos' hlen' hne]
  case default =>
    intro r hr
    rw [h'.default_setSlot hp hpos hl' hr, ha.default hr]

end Painted

section Allot

variable {art : Art} {tab : Tables} {π : List Bool} {p : Ptr} {i : Nat} {old new : Option ArtNode}

def labelAt : Nat → AllotPc
  | 0 => .fringe
  | _ + 1 => .nonfringe

def afterNode (p : Ptr) (i : Nat) (oahe nahe : ArtHeapEntry) (fuel d k : Nat) (art : Art) :
    Option Art :=
  if k % 2 ≠ 0 then artAllotFrom p i oahe nahe fuel .moveup k art
  else artAllotFrom p i oahe nahe fuel (labelAt d) (k + 1) art

def flood (p : Ptr) (oahe nahe : ArtHeapEntry) : Nat → Nat → Art → Art
  | 0, k, art => if art.slotVal p k = oahe then art.setSlot p k nahe else art
  | d + 1, k, art =>
    if art.entry p k = oahe then
      (flood p oahe nahe d (2 * k + 1) (flood p oahe nahe d (2 * k) art)).setEntry p k nahe
    else art

section Loop

variable {oahe nahe : ArtHeapEntry} {l : List Bool} {d : Nat}

theorem afterNode_false (l : List Bool) (fuel d : Nat) (art : Art) :
    afterNode p i oahe nahe fuel d (idx (l ++ [false])) art =
      artAllotFrom p i oahe nahe fuel (labelAt d) (idx (l ++ [true])) art := by
  simp [afterNode]

theorem afterNode_true (l : List Bool) (fuel d : Nat) (art : Art) :
    afterNode p i oahe nahe fuel d (idx (l ++ [true])) art =
      artAllotFrom p i oahe nahe fuel .moveup (idx (l ++ [true])) art := by
  simp [afterNode]

theorem place_flood (d k : Nat) (art : Art) (q : Ptr) :
    ((flood p oahe nahe d k art).mem q).place = (art.mem q).place := by
  induction d generalizing k art with
  | zero =>
    rw [flood]
    split
    · exact art.place_setEntry ..
    · rfl
  | succ d ih =>
    rw [flood]
    split
    · rw [Art.place_setEntry, ih, ih]
    · rfl

theorem minfringe_flood (d k : Nat) (art : Art) :
    ((flood p oahe nahe d k art).mem p).atMinfringe = (art.mem p).atMinfringe :=
  congrArg Place.minfringe (place_flood d k art p)

theorem allot_again (hm : (art.mem p).atMinfringe = 2 ^ (l.length + (d + 1))) (fuel : Nat) :
    artAllotFrom p i oahe nahe (fuel + 1) .again (idx l) art =
      artAllotFrom p i oahe nahe fuel (labelAt d) (idx (l ++ [false])) art := by
  have hchild : idx l <<< 1 = idx (l ++ [false]) := by
    rw [idx_snoc, Nat.shiftLeft_eq, Nat.pow_one, Nat.mul_comm]
    rfl
  have hlt : idx (l ++ [false]) < (art.mem p).atMinfringe ↔ d ≠ 0 := by
    rw [hm, idx_lt_iff, length_append, length_singleton]
    omega
  rw [artAllotFrom, hchild]
  cases d with
  | zero => rw [if_neg (by rw [hlt]; exact not_not.mpr rfl), labelAt]
  | succ d => rw [if_pos (hlt.mpr (Nat.succ_ne_zero d)), labelAt]

theorem allot_moveup (l : List Bool) (fuel : Nat) (art : Art) :
    artAllotFrom p i oahe nahe (fuel + 1) .moveup (idx (l ++ [true])) art =
      if idx l ≠ i then artAllotFrom p i oahe nahe fuel .moveon (idx l)
        (art.setEntry p (idx l) nahe) else some (art.setEntry p (idx l) nahe) := by
  rw [artAllotFrom, idx_snoc_shiftRight]

theorem allot_moveon (d k fuel : Nat) (art : Art) :
    artAllotFrom p i oahe nahe (fuel + 1) .moveon k art =
      afterNode p i oahe nahe fuel (d + 1) k art := by
  rw [artAllotFrom]
  rfl

theorem flood_succ_idx (hold : art.entry p (idx l) = oahe) : flood p oahe nahe (d + 1) (idx l) art =
      (flood p oahe nahe d (idx (l ++ [true]))
        (flood p oahe nahe d (idx (l ++ [false])) art)).setEntry p (idx l) nahe := by
  rw [flood, if_pos hold, idx_snoc, idx_snoc]
  rfl

theorem allot_subtree (d : Nat) : ∀ {l : List Bool} {art : Art}, i < idx l →
    (art.mem p).atMinfringe = 2 ^ (l.length + d) → ∃ c, c + 4 ≤ 5 * 2 ^ d ∧
      ∀ fuel, artAllotFrom p i oahe nahe (fuel + c) (labelAt d) (idx l) art =
        afterNode p i oahe nahe fuel d (idx l) (flood p oahe nahe d (idx l) art) := by
  induction d with
  | zero =>
    intro l art _ _
    refine ⟨1, by simp, fun fuel => ?_⟩
    rw [labelAt, artAllotFrom, flood]
    rfl
  | succ d ih =>
    intro l art hi hm
    by_cases hold : art.entry p (idx l) = oahe
    case neg =>
      refine ⟨2, by rw [Nat.pow_succ]; have := Nat.two_pow_pos d; omega, fun fuel => ?_⟩
      rw [flood, if_neg hold, labelAt, artAllotFrom, if_neg hold, allot_moveon d]
    case pos =>
      have hi' (b : Bool) : i < idx (l ++ [b]) := by
        rw [idx_snoc]
        omega
      have hm' (b : Bool) : (art.mem p).atMinfringe = 2 ^ ((l ++ [b]).length + d) := by
        rw [hm, length_append, length_singleton, Nat.add_assoc, Nat.add_comm 1]
      obtain ⟨c₁, hc₁, hrun₁⟩ := ih (hi' false) (hm' false)
      obtain ⟨c₂, hc₂, hrun₂⟩ := ih (hi' true) ((minfringe_flood ..).trans (hm' true))
      refine ⟨c₁ + c₂ + 4, ?_, fun fuel => ?_⟩
      · rw [Nat.pow_succ]
        omega
      · have hfuel : fuel + (c₁ + c₂ + 4) = fuel + 1 + 1 + c₂ + c₁ + 1 + 1 := by omega
        rw [hfuel, labelAt, artAllotFrom, if_pos hold, allot_again hm, hrun₁, afterNode_false,
          hrun₂, afterNode_true, allot_moveup, if_pos (Nat.ne_of_gt hi), allot_moveon d,
          flood_succ_idx hold]

theorem artAllot_flood (hm : (art.mem p).atMinfringe = 2 ^ (l.length + (d + 1)))
    (hold : art.entry p (idx l) = oahe) :
    artAllot art p (idx l) oahe nahe = some (flood p oahe nahe (d + 1) (idx l) art) := by
  have hi' (b : Bool) : idx l < idx (l ++ [b]) := by
    have := idx_pos l
    rw [idx_snoc]
    omega
  have hm' (b : Bool) : (art.mem p).atMinfringe = 2 ^ ((l ++ [b]).length + d) := by
    rw [hm, length_append, length_singleton, Nat.add_assoc, Nat.add_comm 1]
  obtain ⟨c₁, hc₁, hrun₁⟩ : ∃ c, c + 4 ≤ 5 * 2 ^ d ∧ ∀ fuel,
      artAllotFrom p (idx l) oahe nahe (fuel + c) (labelAt d) (idx (l ++ [false])) art =
        afterNode p (idx l) oahe nahe fuel d (idx (l ++ [false]))
          (flood p oahe nahe d (idx (l ++ [false])) art) :=
    allot_subtree d (hi' false) (hm' false)
  obtain ⟨c₂, hc₂, hrun₂⟩ := allot_subtree d (hi' true) ((minfringe_flood ..).trans (hm' true))
  have hfringe : idx l < (art.mem p).atMinfringe := by
    rw [hm, idx_lt_iff]
    omega
  have hsteps : 5 * 2 ^ (d + 1) ≤ 5 * (art.mem p).atMinfringe := by
    rw [hm]
    exact Nat.mul_le_mul_left 5 (Nat.pow_le_pow_right (by omega) (by omega))
  obtain ⟨fuel, hfuel⟩ : ∃ fuel, 5 * (art.mem p).atMinfringe = fuel + 1 + c₂ + c₁ + 1 := by
    rw [Nat.pow_succ] at hsteps
    exact ⟨5 * (art.mem p).atMinfringe - (c₁ + c₂ + 2), by omega⟩
  rw [artAllot, kassert_true hfringe, hfuel]
  simp only [Option.bind_eq_bind, Option.bind_some]
  rw [allot_again hm, hrun₁, afterNode_false, hrun₂, afterNode_true, allot_moveup,
    if_neg (not_not.mpr rfl), flood_succ_idx hold]

end Loop

variable {art₀ : Art} {f : List Bool → Option ArtNode} {l : List Bool}

section

variable (h : Shape art₀ tab) (hp : tab π = some p)

include h hp

section

variable (ha : Painted art₀ tab p f art) (hpos : l ≠ []) (hl : l.length < (art₀.mem p).atBits)

include ha hpos hl

theorem Painted.entry_inner : art.entry p (idx l) = .node (f l) := by
  have hslot := (h.of_same ha.same).slot_inner (l := l) hp (by rwa [ha.same.bits])
  rw [← ha.here l hpos (Nat.le_of_lt hl), Art.slotVal, hslot]

theorem Painted.setEntry_inner :
    Painted art₀ tab p (update f l new) (art.setEntry p (idx l) (.node new)) := by
  have hslot := (h.of_same ha.same).slot_inner (l := l) hp (by rwa [ha.same.bits])
  have hset := ha.setSlot h hp new hpos (Nat.le_of_lt hl)
  rwa [Art.setSlot, hslot] at hset

end

theorem Painted.flood (d : Nat) :
    ∀ {l : List Bool} {f : List Bool → Option ArtNode} {art : Art}, l ≠ [] →
      l.length + d = (art₀.mem p).atBits → Painted art₀ tab p f art →
      Painted art₀ tab p (fill old new d l f) (flood p (.node old) (.node new) d (idx l) art) := by
  induction d with
  | zero =>
    intro l f art hpos hl ha
    rw [Allotment.flood, fill_zero, ha.here l hpos (Nat.le_of_eq hl)]
    simp only [ArtHeapEntry.node.injEq]
    split
    · exact ha.setSlot h hp _ hpos (Nat.le_of_eq hl)
    · exact ha
  | succ d ih =>
    intro l f art hpos hl ha
    have hent := ha.entry_inner h hp hpos (by omega)
    have hl' (b : Bool) : (l ++ [b]).length + d = (art₀.mem p).atBits := by
      rw [length_append, length_singleton]
      omega
    have hpos' (b : Bool) : l ++ [b] ≠ [] := append_ne_nil_of_right_ne_nil l (by simp)
    rw [fill_succ]
    by_cases hold : f l = old
    · rw [flood_succ_idx (by rw [hent, hold]), if_pos hold]
      exact (ih (hpos' true) (hl' true) (ih (hpos' false) (hl' false) ha)).setEntry_inner h hp
        hpos (by omega)
    · rw [Allotment.flood, hent, if_neg hold, if_neg (by rwa [ArtHeapEntry.node.injEq])]
      exact ha

end

/-- `art_allot` gives a new route to an index and to every index below it that had its old route
and is not cut off from it by another one. -/
theorem artAllot_eq (new : Option ArtNode) (h : Shape art tab)
    (hp : tab π = some p) (hpos : l ≠ []) (hl : l.length < (art.mem p).atBits)
    (hf : Painted art tab p f art) (hold : f l = old) :
    ∃ art', artAllot art p (idx l) (.node old) (.node new) = some art' ∧
      Painted art tab p (fill old new ((art.mem p).atBits - l.length) l f) art' := by
  obtain ⟨d, hd⟩ : ∃ d, l.length + (d + 1) = (art.mem p).atBits :=
    ⟨(art.mem p).atBits - l.length - 1, by omega⟩
  have hdepth : (art.mem p).atBits - l.length = d + 1 := by omega
  have hm : (art.mem p).atMinfringe = 2 ^ (l.length + (d + 1)) := by
    rw [(h.table hp).minfringe, hd]
  rw [hdepth]
  exact ⟨_, artAllot_flood hm (by rw [hf.entry_inner h hp hpos hl, hold]),
    Painted.flood h hp (d + 1) hpos hd hf⟩

end Allot

section Recursion

def Art.withHeap (art : Art) (heap : Ptr → Nat → ArtHeapEntry) : Art :=
  { art with mem := fun q => { art.mem q with atHeap := heap q } }

open Classical in
noncomputable def Art.paint (art : Art) (S : Set (Ptr × Nat)) (nahe : ArtHeapEntry) : Art :=
  art.withHeap fun q j => if (q, j) ∈ S then nahe else art.entry q j

/-- Where a node is stored: at the fringe it may be in the default entry of the table below. -/
def heapSlot (art : Art) (p : Ptr) (k : Nat) : Ptr × Nat :=
  if k < (art.mem p).atMinfringe then (p, k) else art.slot p k

def heapVal (art : Art) (p : Ptr) (k : Nat) : ArtHeapEntry :=
  art.entry (heapSlot art p k).1 (heapSlot art p k).2

def replaceAt (art : Art) (p : Ptr) (oahe nahe : ArtHeapEntry) (k : Nat) : Art :=
  if heapVal art p k = oahe then art.setEntry (heapSlot art p k).1 (heapSlot art p k).2 nahe
  else art

def artAllotRec (p : Ptr) (oahe nahe : ArtHeapEntry) : Nat → Nat → Art → Art
  | 0, _, art => art
  | fuel + 1, k, art =>
    let art := replaceAt art p oahe nahe k
    if k ≥ (art.mem p).atMinfringe then art
    else artAllotRec p oahe nahe fuel (2 * k + 1) (artAllotRec p oahe nahe fuel (2 * k) art)

def Below (i k : Nat) : Prop := ∃ n, k / 2 ^ n = i

def ReachedBy (art : Art) (p : Ptr) (oahe : ArtHeapEntry) (i k : Nat) : Prop :=
  k < 2 * (art.mem p).atMinfringe ∧ Below i k ∧
    ∀ m, Below i m → Below m k → heapVal art p m = oahe

def ConnectedAt (art : Art) (p : Ptr) (oahe : ArtHeapEntry) (i : Nat) : Prop :=
  heapVal art p i = oahe ∧ ∀ k < 2 * (art.mem p).atMinfringe, Below i k →
    heapVal art p k = oahe → ReachedBy art p oahe i k

variable {art : Art} {p : Ptr} {oahe nahe : ArtHeapEntry} {cut : Prop} {S : Set (Ptr × Nat)}
  {s : Ptr × Nat} {b d e i k m n : Nat}

open Classical in
theorem Art.entry_paint (q : Ptr) (j : Nat) :
    (art.paint S nahe).entry q j = if (q, j) ∈ S then nahe else art.entry q j := rfl

theorem Art.paint_empty : art.paint ∅ nahe = art := by
  rw [paint]
  simp only [Set.mem_empty_iff_false, if_false]
  rfl

theorem Art.paint_paint (S T : Set (Ptr × Nat)) :
    (art.paint S nahe).paint T nahe = art.paint (S ∪ T) nahe := by
  show art.withHeap _ = art.withHeap _
  congr 1
  funext q j
  rw [entry_paint]
  by_cases hs : (q, j) ∈ S
  · simp [hs]
  · by_cases ht : (q, j) ∈ T <;> simp [hs, ht]

theorem Art.setEntry_eq_paint : art.setEntry p k nahe = art.paint {(p, k)} nahe := by
  have hmem (q : Ptr) : (art.setEntry p k nahe).mem q =
      { art.mem q with atHeap := ((art.setEntry p k nahe).mem q).atHeap } := by
    rw [setEntry, mem_modify]
    split
    next hq => rw [hq]
    next => rfl
  have hheap : art.setEntry p k nahe = art.withHeap (art.setEntry p k nahe).entry :=
    congrArg (fun mem => { art with mem := mem }) (funext hmem)
  rw [hheap, paint]
  congr 1
  funext q j
  rw [entry_setEntry]
  simp only [Set.mem_singleton_iff, Prod.mk.injEq]

/-- The entries with `oahe` at a node with `d` levels below it and under it; with `cut` only as far
as they are connected. -/
def slotsOf (cut : Prop) (art : Art) (p : Ptr) (oahe : ArtHeapEntry) : Nat → Nat → Set (Ptr × Nat)
  | 0, k => {s | art.slot p k = s ∧ art.entry s.1 s.2 = oahe}
  | d + 1, k => {s | (cut → art.entry p k = oahe) ∧ (((p, k) = s ∧ art.entry p k = oahe) ∨
      s ∈ slotsOf cut art p oahe d (2 * k) ∨ s ∈ slotsOf cut art p oahe d (2 * k + 1))}

theorem mem_slotsOf (h : s ∈ slotsOf cut art p oahe d k) :
    s.2 = artHeapIdxDefault ∨ s.1 = p ∧ ∃ n ≤ d, s.2 / 2 ^ n = k := by
  induction d generalizing k with
  | zero =>
    obtain ⟨rfl, -⟩ := h
    rw [Art.slot]
    split
    · exact .inr ⟨rfl, 0, Nat.le_refl 0, Nat.div_one k⟩
    · exact .inl rfl
  | succ d ih =>
    obtain ⟨-, ⟨rfl, -⟩ | h | h⟩ := h
    · exact .inr ⟨rfl, 0, Nat.zero_le _, Nat.div_one k⟩
    all_goals
      refine (ih h).imp id (And.imp id ?_)
      rintro ⟨n, hn, hdiv⟩
      refine ⟨n + 1, Nat.succ_le_succ hn, ?_⟩
      rw [Nat.pow_succ, ← Nat.div_div_eq_div_mul, hdiv]
      omega

def Apart (S : Set (Ptr × Nat)) (p : Ptr) (d k : Nat) : Prop :=
  ∀ m, ∀ n ≤ d, m / 2 ^ n = k → (p, m) ∉ S

theorem Apart.child (h : Apart S p (d + 1) k) (b : Bool) : Apart S p d (2 * k + b.toNat) :=
  fun m n hn hdiv => h m (n + 1) (Nat.succ_le_succ hn) (by
    have := Bool.toNat_le b
    rw [Nat.pow_succ, ← Nat.div_div_eq_div_mul, hdiv]
    omega)

theorem mem_slotsOf_paint (hS : Apart S p d k) (hs : s ∉ S) :
    s ∈ slotsOf cut (art.paint S nahe) p oahe d k ↔ s ∈ slotsOf cut art p oahe d k := by
  have hself : (art.paint S nahe).entry p k = art.entry p k := by
    rw [Art.entry_paint, if_neg (hS k 0 (Nat.zero_le d) (Nat.div_one k))]
  induction d generalizing k with
  | zero =>
    refine and_congr ?_ ?_
    · rw [Art.slot, Art.slot, hself]
    · rw [Art.entry_paint, if_neg hs]
  | succ d ih =>
    have hchild (b : Bool) := ih (hS.child b) (by
      rw [Art.entry_paint, if_neg (hS.child b _ 0 (Nat.zero_le d) (Nat.div_one _))])
    rw [slotsOf, slotsOf, Set.mem_ofPred_eq, Set.mem_ofPred_eq, hself]
    exact and_congr_right' (or_congr_right (or_congr (hchild false) (hchild true)))

theorem not_below_both (hk : 0 < k) {n' : Nat} {c : Bool} (h : m / 2 ^ n = 2 * k + c.toNat)
    (h' : m / 2 ^ n' = 2 * k + (!c).toNat) : False := by
  have hhalf : ∀ x y : Nat, x < y → m / 2 ^ y ≤ m / 2 ^ x / 2 := fun x y hlt => by
    rw [Nat.div_div_eq_div_mul, ← Nat.pow_succ]
    exact Nat.div_le_div_left (Nat.pow_le_pow_right (by decide) hlt) (Nat.two_pow_pos _)
  have hc := Bool.toNat_le c
  have hc' := Bool.toNat_le (!c)
  have hne : c.toNat ≠ (!c).toNat := by cases c <;> decide
  rcases Nat.lt_trichotomy n n' with hlt | rfl | hlt
  · have := hhalf n n' hlt
    omega
  · omega
  · have := hhalf n' n hlt
    omega

theorem apart_sibling (hk : 0 < k) (c : Bool) :
    Apart (slotsOf cut art p oahe d (2 * k + c.toNat)) p d (2 * k + (!c).toNat) := by
  intro m n _ hdiv hm
  have htwo : 1 < m := by
    have := Nat.div_le_self m (2 ^ n)
    omega
  rcases mem_slotsOf hm with hone | ⟨-, n', -, hdiv'⟩
  · exact absurd (hone.trans artHeapIdxDefault.eq_def) (Nat.ne_of_gt htwo)
  · exact not_below_both hk hdiv' hdiv

theorem apart_root (hk : 0 < k) (b : Bool) : Apart {(p, k)} p d (2 * k + b.toNat) := by
  intro m n _ hdiv hm
  rw [(Prod.mk.inj hm).2] at hdiv
  have := Nat.div_le_self k (2 ^ n)
  omega

theorem paint_slot : (if art.slotVal p k = oahe then art.setSlot p k nahe else art) =
    art.paint (slotsOf cut art p oahe 0 k) nahe := by
  split
  next hold =>
    rw [Art.setSlot, Art.setEntry_eq_paint]
    congr 1
    ext s
    exact ⟨fun hs => hs ▸ ⟨rfl, hold⟩, fun hs => hs.1.symm⟩
  next hold =>
    have hnone : slotsOf cut art p oahe 0 k = ∅ :=
      Set.eq_empty_of_forall_notMem fun s hs => hold (by rw [← hs.2, ← hs.1, Art.slotVal])
    rw [hnone, Art.paint_empty]

theorem paint_children (hk : 0 < k) : art.paint (slotsOf cut art p oahe d (2 * k) ∪ slotsOf cut
        (art.paint (slotsOf cut art p oahe d (2 * k)) nahe) p oahe d (2 * k + 1)) nahe =
      art.paint (slotsOf cut art p oahe d (2 * k) ∪ slotsOf cut art p oahe d (2 * k + 1)) nahe := by
  congr 1
  ext s
  by_cases hs : s ∈ slotsOf cut art p oahe d (2 * k)
  · exact iff_of_true (.inl hs) (.inl hs)
  · exact or_congr_right (mem_slotsOf_paint (apart_sibling hk false) hs)

theorem flood_eq_paint (hk : 0 < k) :
    flood p oahe nahe d k art = art.paint (slotsOf True art p oahe d k) nahe := by
  induction d generalizing k art with
  | zero => exact paint_slot
  | succ d ih =>
    rw [flood]
    split
    next hold =>
      rw [ih (show 0 < 2 * k by omega), ih (Nat.succ_pos _), Art.paint_paint, paint_children hk,
        Art.setEntry_eq_paint, Art.paint_paint]
      congr 1
      ext s
      simp only [slotsOf, hold, Set.mem_union, Set.mem_singleton_iff, Set.mem_ofPred_eq, and_true,
        implies_true, true_and, eq_comm (a := s), or_comm]
    next hold =>
      have hnone : slotsOf True art p oahe (d + 1) k = ∅ :=
        Set.eq_empty_of_forall_notMem fun s hs => hold (hs.1 trivial)
      rw [hnone, Art.paint_empty]

theorem minfringe_paint : ((art.paint S nahe).mem p).atMinfringe = (art.mem p).atMinfringe := rfl

theorem replaceAt_fringe (cut : Prop) (hm : (art.mem p).atMinfringe = 2 ^ b) (hk : 2 ^ b ≤ k) :
    replaceAt art p oahe nahe k = art.paint (slotsOf cut art p oahe 0 k) nahe := by
  have hslot : heapSlot art p k = art.slot p k := if_neg (hm ▸ Nat.not_lt.mpr hk)
  rw [← paint_slot, replaceAt, heapVal, hslot]
  rfl

theorem replaceAt_inner (hm : (art.mem p).atMinfringe = 2 ^ b) (hk : k < 2 ^ b) :
    replaceAt art p oahe nahe k = art.paint {s | (p, k) = s ∧ art.entry p k = oahe} nahe := by
  have hslot : heapSlot art p k = (p, k) := if_pos (hm ▸ hk)
  rw [replaceAt, heapVal, hslot]
  split
  next hold =>
    rw [Art.setEntry_eq_paint]
    congr 1
    ext s
    exact ⟨fun hs => ⟨hs.symm, hold⟩, fun hs => hs.1.symm⟩
  next hold =>
    have hnone : {s | (p, k) = s ∧ art.entry p k = oahe} = ∅ :=
      Set.eq_empty_of_forall_notMem fun s hs => hold hs.2
    rw [hnone, Art.paint_empty]

theorem artAllotRec_eq_paint {fuel : Nat} (hm : (art.mem p).atMinfringe = 2 ^ b)
    (hle : 2 ^ e ≤ k) (hlt : k < 2 ^ (e + 1)) (hb : e + d = b) (hfuel : d < fuel) :
    artAllotRec p oahe nahe fuel k art = art.paint (slotsOf False art p oahe d k) nahe := by
  induction d generalizing e k art fuel with
  | zero =>
    obtain ⟨fuel, rfl⟩ := Nat.exists_eq_succ_of_ne_zero (Nat.ne_zero_of_lt hfuel)
    rw [artAllotRec, replaceAt_fringe False hm (hb ▸ hle)]
    exact if_pos (hm ▸ hb ▸ hle)
  | succ d ih =>
    obtain ⟨fuel, rfl⟩ := Nat.exists_eq_succ_of_ne_zero (Nat.ne_zero_of_lt hfuel)
    have hk : 0 < k := Nat.lt_of_lt_of_le (Nat.two_pow_pos e) hle
    have hlow : k < 2 ^ b := Nat.lt_of_lt_of_le hlt (Nat.pow_le_pow_right (by decide) (by omega))
    have hle' : 2 ^ (e + 1) ≤ 2 * k := by
      rw [Nat.pow_succ]
      omega
    have hlt' : 2 * k + 1 < 2 ^ (e + 2) := by
      rw [Nat.pow_succ]
      omega
    rw [artAllotRec, replaceAt_inner hm hlow,
      if_neg (by rw [minfringe_paint, hm]; exact Nat.not_le.mpr hlow),
      ih (minfringe_paint.trans hm) hle' (Nat.lt_of_succ_lt hlt') (by omega)
        (Nat.lt_of_succ_lt_succ hfuel),
      ih (minfringe_paint.trans (minfringe_paint.trans hm)) (Nat.le_succ_of_le hle') hlt' (by omega)
        (Nat.lt_of_succ_lt_succ hfuel), Art.paint_paint, paint_children hk, Art.paint_paint]
    congr 1
    ext s
    have hroot : ∀ c : Bool, s ∉ ({s | (p, k) = s ∧ art.entry p k = oahe} : Set (Ptr × Nat)) →
        (s ∈ slotsOf False (art.paint {s | (p, k) = s ∧ art.entry p k = oahe} nahe) p oahe d
            (2 * k + c.toNat) ↔ s ∈ slotsOf False art p oahe d (2 * k + c.toNat)) := fun c =>
      mem_slotsOf_paint fun m n hn hdiv hmem => apart_root hk c m n hn hdiv hmem.1.symm
    by_cases hs : (p, k) = s ∧ art.entry p k = oahe
    · exact iff_of_true (.inl hs) ⟨nofun, .inl hs⟩
    · have hleft := hroot false hs
      have hright := hroot true hs
      simp only [Bool.toNat_false, Bool.toNat_true, Nat.add_zero] at hleft hright
      simp only [slotsOf, Set.mem_union, Set.mem_ofPred_eq, hleft, hright, false_implies, true_and]

theorem Below.le (h : Below i k) : i ≤ k := by
  obtain ⟨n, rfl⟩ := h
  exact Nat.div_le_self ..

theorem Below.trans (h : Below i m) (h' : Below m k) : Below i k := by
  obtain ⟨n, rfl⟩ := h
  obtain ⟨n', rfl⟩ := h'
  exact ⟨n' + n, by rw [Nat.pow_add, Nat.div_div_eq_div_mul]⟩

theorem below_iff : Below i k ↔ k = i ∨ ∃ c : Bool, Below (2 * i + c.toNat) k := by
  constructor
  · rintro ⟨n, hn⟩
    cases n with
    | zero => exact .inl (by rw [← hn, Nat.pow_zero, Nat.div_one])
    | succ n =>
      rw [Nat.pow_succ, ← Nat.div_div_eq_div_mul] at hn
      rcases Nat.mod_two_eq_zero_or_one (k / 2 ^ n) with heven | hodd
      · exact .inr ⟨false, n, by rw [Bool.toNat_false]; omega⟩
      · exact .inr ⟨true, n, by rw [Bool.toNat_true]; omega⟩
  · rintro (rfl | ⟨c, n, hn⟩)
    · exact ⟨0, Nat.div_one k⟩
    · refine ⟨n + 1, ?_⟩
      have := Bool.toNat_le c
      rw [Nat.pow_succ, ← Nat.div_div_eq_div_mul, hn]
      omega

theorem slotsOf_succ (h : cut → heapVal art p i = oahe) (hi : heapSlot art p i = (p, i)) :
    s ∈ slotsOf cut art p oahe (d + 1) i ↔ (heapSlot art p i = s ∧ heapVal art p i = oahe) ∨
      ∃ c : Bool, s ∈ slotsOf cut art p oahe d (2 * i + c.toNat) := by
  rw [heapVal, hi] at h
  rw [heapVal, hi, Bool.exists_bool, slotsOf, Set.mem_ofPred_eq, and_iff_right h]
  rfl

theorem mem_slotsOf_iff (hm : (art.mem p).atMinfringe = 2 ^ b) (hle : 2 ^ e ≤ i)
    (hlt : i < 2 ^ (e + 1)) (hb : e + d = b) : s ∈ slotsOf cut art p oahe d i ↔
      ∃ k < 2 * 2 ^ b, Below i k ∧ heapSlot art p k = s ∧ heapVal art p k = oahe ∧
        (cut → ∀ m, Below i m → Below m k → heapVal art p m = oahe) := by
  have hpos : 0 < i := Nat.lt_of_lt_of_le (Nat.two_pow_pos e) hle
  induction d generalizing e i with
  | zero =>
    rw [Nat.add_zero] at hb
    subst hb
    have hslot : heapSlot art p i = art.slot p i := if_neg (hm ▸ Nat.not_lt.mpr hle)
    rw [Nat.pow_succ] at hlt
    constructor
    · rintro ⟨rfl, hval⟩
      refine ⟨i, by omega, below_iff.mpr (.inl rfl), hslot, ?_, fun _ m him hmi => ?_⟩
      · rwa [heapVal, hslot]
      · rwa [Nat.le_antisymm hmi.le him.le, heapVal, hslot]
    · rintro ⟨k, hk, hik, rfl, hval, -⟩
      rcases below_iff.mp hik with rfl | ⟨c, hc⟩
      · exact ⟨hslot.symm, hval⟩
      · have := hc.le
        omega
  | succ d ih =>
    have hlow : i < 2 ^ b := Nat.lt_of_lt_of_le hlt (Nat.pow_le_pow_right (by decide) (by omega))
    have hslot : heapSlot art p i = (p, i) := if_pos (hm ▸ hlow)
    have hlevel (c : Bool) : 2 ^ (e + 1) ≤ 2 * i + c.toNat ∧ 2 * i + c.toNat < 2 ^ (e + 2) := by
      have hc := Bool.toNat_le c
      rw [Nat.pow_succ] at hlt ⊢
      rw [Nat.pow_succ 2 (e + 1), Nat.pow_succ]
      omega
    have hchild (c : Bool) :=
      ih (hlevel c).1 (hlevel c).2 (by omega) (Nat.lt_of_lt_of_le (Nat.two_pow_pos _) (hlevel c).1)
    by_cases hcut : cut → heapVal art p i = oahe
    · rw [slotsOf_succ hcut hslot]
      constructor
      · rintro (⟨hs, hval⟩ | ⟨c, hmem⟩)
        · refine ⟨i, by omega, below_iff.mpr (.inl rfl), hs, hval, fun _ m him hmi => ?_⟩
          rwa [Nat.le_antisymm hmi.le him.le]
        · obtain ⟨k, hk, hbelow, hs, hval, hpath⟩ := (hchild c).mp hmem
          refine ⟨k, hk, below_iff.mpr (.inr ⟨c, hbelow⟩), hs, hval, fun h m him hmk => ?_⟩
          rcases below_iff.mp him with rfl | ⟨c', n', hn'⟩
          · exact hcut h
          · by_cases hcc : c' = c
            · exact hpath h m ⟨n', hcc ▸ hn'⟩ hmk
            · obtain ⟨n, hn⟩ := hbelow
              obtain ⟨n'', hn''⟩ := Below.trans ⟨n', hn'⟩ hmk
              rw [Bool.eq_not_of_ne hcc] at hn''
              exact (not_below_both hpos hn hn'').elim
      · rintro ⟨k, hk, hik, hs, hval, hpath⟩
        rcases below_iff.mp hik with rfl | ⟨c, hc⟩
        · exact .inl ⟨hs, hval⟩
        · exact .inr ⟨c, (hchild c).mpr ⟨k, hk, hc, hs, hval, fun h m hcm hmk =>
            hpath h m (below_iff.mpr (.inr ⟨c, hcm⟩)) hmk⟩⟩
    · refine iff_of_false (fun hmem => hcut fun h => ?_) fun ⟨k, _, hik, _, _, hpath⟩ =>
        hcut fun h => hpath h i (below_iff.mpr (.inl rfl)) hik
      rw [heapVal, hslot]
      exact hmem.1 h

/-- `art_allot` comes to an end, and does what the recursion does: all that is reached from `i`
gets the new entry, and nothing else changes. -/
theorem art_allot_recursive (hm : (art.mem p).atMinfringe = 2 ^ b) (hpos : 0 < i)
    (hi : i < (art.mem p).atMinfringe) (h : ConnectedAt art p oahe i) : artAllot art p i oahe nahe =
        some (art.paint {s | ∃ k, ReachedBy art p oahe i k ∧ heapSlot art p k = s} nahe) ∧
      ∀ fuel, b < fuel → artAllotRec p oahe nahe fuel i art =
        art.paint {s | ∃ k, ReachedBy art p oahe i k ∧ heapSlot art p k = s} nahe := by
  obtain ⟨l, rfl⟩ := exists_idx hpos
  have hlow := hi
  rw [hm, idx_lt_iff] at hlow
  obtain ⟨d, rfl⟩ := Nat.exists_eq_add_of_lt hlow
  obtain ⟨hle, hlt⟩ := idx_bounds l
  have hslot : heapSlot art p (idx l) = (p, idx l) := if_pos hi
  have hreached : ∀ cut : Prop, slotsOf cut art p oahe (d + 1) (idx l) =
      {s | ∃ k, ReachedBy art p oahe (idx l) k ∧ heapSlot art p k = s} := fun cut => by
    ext s
    rw [mem_slotsOf_iff hm hle hlt (by omega), ← hm]
    constructor
    · rintro ⟨k, hk, hbelow, hs, hval, -⟩
      exact ⟨k, h.2 k hk hbelow hval, hs⟩
    · rintro ⟨k, ⟨hk, hbelow, hpath⟩, hs⟩
      exact ⟨k, hk, hbelow, hs, hpath k hbelow (below_iff.mpr (.inl rfl)), fun _ => hpath⟩
  constructor
  · rw [artAllot_flood (d := d) hm, flood_eq_paint hpos, hreached]
    have hold := h.1
    rwa [heapVal, hslot] at hold
  · intro fuel hfuel
    rw [artAllotRec_eq_paint hm hle hlt (d := d + 1) (by omega) (by omega), hreached]

def blankArt : Art where
  artRoot := none
  artLevels := artPlen20Levels
  artAlen := 20
  mem _ := { unusedTable with atMinfringe := 16 }
  next := 0
  pool _ := false
  artTableGcList := none

theorem heapVal_blankArt (p : Ptr) (k : Nat) : heapVal blankArt p k = .node none := rfl

def tenSlashTwo : ArtNode := ⟨1, [10], 2⟩

theorem art_allot_recursive_blankArt :
    artAllot blankArt 0 3 (.node none) (.node (some tenSlashTwo)) =
        some (blankArt.paint {s | ∃ k, ReachedBy blankArt 0 (.node none) 3 k ∧
          heapSlot blankArt 0 k = s} (.node (some tenSlashTwo))) ∧
      ∀ fuel, 4 < fuel → artAllotRec 0 (.node none) (.node (some tenSlashTwo)) fuel 3 blankArt =
        blankArt.paint {s | ∃ k, ReachedBy blankArt 0 (.node none) 3 k ∧
          heapSlot blankArt 0 k = s} (.node (some tenSlashTwo)) :=
  art_allot_recursive rfl (by decide) (by decide) ⟨heapVal_blankArt 0 3, fun k hk hbelow _ =>
    ⟨hk, hbelow, fun m _ _ => heapVal_blankArt 0 m⟩⟩

end Recursion

/-! The routes of a routing table and the copies of them in its tables. -/

open Lib.LongestPrefix Option

abbrev Routes := List Bool → Option ArtNode

/-- A prefix belongs to the table that covers its last bit; the empty one to the root. -/
def Home (π : List Bool) (bits : Nat) (ρ : List Bool) : Prop :=
  π <+: ρ ∧ ρ.length ≤ π.length + bits ∧ (π.length < ρ.length ∨ ρ = [])

section Home

variable {art : Art} {tab : Tables} {π π' ρ l : List Bool} {p p' : Ptr} {bits : Nat}

theorem home_append (hpos : l ≠ []) (hl : l.length ≤ bits) : Home π bits (π ++ l) := by
  have hlen : 0 < l.length := length_pos_iff.mpr hpos
  refine ⟨prefix_append π l, ?_, .inl ?_⟩ <;> rw [length_append] <;> omega

theorem home_nil : Home [] bits [] := ⟨prefix_rfl, Nat.zero_le _, .inr rfl⟩

theorem Shape.home_unique (h : Shape art tab) (hp : tab π = some p) (hp' : tab π' = some p')
    (hρ : Home π (art.mem p).atBits ρ) (hρ' : Home π' (art.mem p').atBits ρ) : π = π' := by
  obtain ⟨hpre, hlen, hpos⟩ := hρ
  obtain ⟨hpre', hlen', hpos'⟩ := hρ'
  rcases hpos with hpos | rfl
  case inr =>
    rw [prefix_nil.mp hpre, prefix_nil.mp hpre']
  rcases hpos' with hpos' | rfl
  case inr => exact absurd hpos (Nat.not_lt_zero _)
  by_contra hne
  rcases Nat.le_total π.length π'.length with hle | hle
  · have := (h.between hp hp' (prefix_of_prefix_length_le hpre hpre' hle) hne).1
    omega
  · have := (h.between hp' hp (prefix_of_prefix_length_le hpre' hpre hle) (Ne.symm hne)).1
    omega

end Home

/-- The most specific route for an index of the table for `π`, among those of the table. -/
def routeAt (R : Routes) (π l : List Bool) : Option ArtNode :=
  longest R (π ++ l) (π.length + 1) ((π ++ l).length + 1)

section RouteAt

variable {R : Routes} {π l l' : List Bool} {v : Option ArtNode}

theorem take_append_of_le (h : l <+: l') {m : Nat} (hm : m ≤ (π ++ l).length) :
    (π ++ l').take m = (π ++ l).take m := by
  obtain ⟨t, rfl⟩ := h
  rw [← append_assoc, take_append_of_le_length hm]

theorem longest_append_prefix (h : l <+: l') (R : Routes) (lo : Nat) {hi : Nat}
    (hhi : hi ≤ (π ++ l).length + 1) : longest R (π ++ l') lo hi = longest R (π ++ l) lo hi :=
  longest_congr fun m _ hlt => by rw [take_append_of_le h (by omega)]

theorem routeAt_split (R : Routes) (h : l <+: l') :
    routeAt R π l' = (longest R (π ++ l') ((π ++ l).length + 1) ((π ++ l').length + 1)).or
      (routeAt R π l) := by
  have hlo : π.length + 1 ≤ (π ++ l).length + 1 := by
    rw [length_append]
    omega
  have hhi : (π ++ l).length + 1 ≤ (π ++ l').length + 1 := by
    have := h.length_le
    rw [length_append, length_append]
    omega
  rw [routeAt, routeAt, longest_append hlo hhi, longest_append_prefix h R _ (Nat.le_refl _)]

theorem reached_routeAt (hR : Keyed ArtNode.bits R) (h : l <+: l') :
    Reached (routeAt R π l) (routeAt R π) l l' ↔
      longest R (π ++ l') ((π ++ l).length + 1) ((π ++ l').length + 1) = none := by
  constructor
  · intro hr
    have heq : routeAt R π l' = routeAt R π l := hr l' h prefix_rfl
    rw [routeAt, routeAt, ← longest_append_prefix h R _ (Nat.le_refl _)] at heq
    refine (longest_eq_below_iff hR ?_ ?_ (Nat.le_refl _)).mp heq
    · rw [length_append]
      omega
    · have := h.length_le
      rw [length_append, length_append]
      omega
  · intro hnone m hm hm'
    have hlen := hm'.length_le
    rw [routeAt_split R hm, longest_eq_none.mpr, none_or]
    intro j hj hlt
    rw [← take_append_of_le hm' (Nat.le_of_lt_succ hlt)]
    refine longest_eq_none.mp hnone j hj ?_
    rw [length_append] at hlt ⊢
    omega

theorem routeAt_update_self (hpos : l ≠ []) : routeAt (update R (π ++ l) v) π l =
      v.or (longest R (π ++ l) (π.length + 1) (π ++ l).length) := by
  have hlen : 0 < l.length := length_pos_iff.mpr hpos
  rw [routeAt, longest_update prefix_rfl (by rw [length_append]; omega)
    (Nat.lt_succ_self _) (Nat.le_refl _), longest_self, none_or]

theorem routeAt_update_of_not (h : ¬ l <+: l') :
    routeAt (update R (π ++ l) v) π l' = routeAt R π l' := by
  apply longest_update_of_not
  intro m _ _ heq
  have hpre : π ++ l <+: π ++ l' := heq ▸ take_prefix m (π ++ l')
  exact h ((prefix_append_right_inj π).mp hpre)

theorem longest_update_below {ρ : List Bool} :
    longest (update R κ v) ρ (κ.length + 1) (ρ.length + 1) =
      longest R ρ (κ.length + 1) (ρ.length + 1) := by
  apply longest_update_of_not
  rintro m hm hlt rfl
  rw [length_take] at hm
  omega

theorem fill_routeAt {d : Nat} (hR : Keyed ArtNode.bits R) (hlen : l'.length ≤ l.length + d) :
    fill (routeAt R π l) (routeAt (update R (π ++ l) v) π l) d l (routeAt R π) l' =
      routeAt (update R (π ++ l) v) π l' := by
  by_cases hpre : l <+: l'
  case neg => rw [fill_of_not_below hpre, routeAt_update_of_not hpre]
  rw [routeAt_split (update R (π ++ l) v) hpre, longest_update_below]
  by_cases hr : Reached (routeAt R π l) (routeAt R π) l l'
  · rw [fill_of_reached hpre hlen hr, (reached_routeAt hR hpre).mp hr, none_or]
  · rw [fill_of_not_reached hr, routeAt_split R hpre]
    rw [reached_routeAt hR hpre] at hr
    obtain ⟨an, han⟩ := ne_none_iff_exists'.mp hr
    rw [han, some_or, some_or]

end RouteAt

/-- Every slot has the most specific route for its index among those of its table, and the default
entry of the root the empty one. -/
structure Values (art : Art) (tab : Tables) (R : Routes) : Prop where
  slot : ∀ {π p l}, tab π = some p → l ≠ [] → l.length ≤ (art.mem p).atBits →
    art.slotVal p (idx l) = .node (routeAt R π l)
  default : ∀ {p}, tab [] = some p → art.entry p artHeapIdxDefault = .node (R [])
  stored : ∀ {ρ an}, R ρ = some an → ∃ π p, tab π = some p ∧ Home π (art.mem p).atBits ρ
  keyed : Keyed ArtNode.bits R

section Change

variable {art art' : Art} {tab : Tables} {R : Routes} {π l : List Bool} {p : Ptr}
  {v : Option ArtNode}

theorem routeAt_update_other {π' l' : List Bool} {p' : Ptr} (h : Shape art tab)
    (hp : tab π = some p) (hpos : l ≠ []) (hl : l.length ≤ (art.mem p).atBits)
    (hp' : tab π' = some p') (hl' : l'.length ≤ (art.mem p').atBits) (hne : π ≠ π') :
    routeAt (update R (π ++ l) v) π' l' = routeAt R π' l' := by
  apply longest_update_of_not
  intro m hm hlt heq
  have hlen : (π ++ l).length = m := by
    rw [← heq, length_take]
    omega
  have hpre : π' <+: π ++ l := by
    rw [← heq]
    exact prefix_of_prefix_length_le (prefix_append π' l') ( take_prefix _ _)
      (by rw [heq, hlen]; omega)
  refine hne (h.home_unique hp hp' (home_append hpos hl) ⟨hpre, ?_, .inl ?_⟩)
  · rw [length_append] at hlt
    omega
  · omega

theorem Values.keyed_update (hv : Values art tab R)
    (hkey : ∀ an, v = some an → an.bits = κ) : Keyed ArtNode.bits (update R κ v) := by
  intro ρ an hρ
  by_cases heq : ρ = κ
  · rw [heq, update_self] at hρ
    rw [hkey an hρ, heq]
  · rw [update_of_ne heq] at hρ
    exact hv.keyed ρ an hρ

theorem Values.painted (hv : Values art tab R) (hp : tab π = some p) :
    Painted art tab p (routeAt R π) art where
  same := .refl art
  refcnt := fun _ => rfl
  here := fun _ hpos hl => hv.slot hp hpos hl
  other := fun _ _ _ _ => rfl
  default := fun _ => rfl

section

variable (h : Shape art tab) (hv : Values art tab R)

include h hv

section

variable (hp : tab π = some p) (hpos : l ≠ []) (hl : l.length ≤ (art.mem p).atBits)
  (hkey : ∀ an, v = some an → an.bits = π ++ l)

include hp hpos hl hkey

theorem Values.of_painted {f : List Bool → Option ArtNode} (ha : Painted art tab p f art')
    (hf : ∀ l', l'.length ≤ (art.mem p).atBits → f l' = routeAt (update R (π ++ l) v) π l') :
    Values art' tab (update R (π ++ l) v) where
  slot := by
    intro π' p' l' hp' hpos' hl'
    rw [ha.same.bits] at hl'
    by_cases heq : p' = p
    · subst heq
      rw [h.inj hp' hp, ha.here l' hpos' hl', hf l' hl']
    · have hne : π ≠ π' := by
        rintro rfl
        rw [hp, some.injEq] at hp'
        exact heq hp'.symm
      rw [ha.other hp' hpos' hl' heq, hv.slot hp' hpos' hl',
        routeAt_update_other h hp hpos hl hp' hl' hne]
  default := by
    intro r hr
    have hne : ([] : List Bool) ≠ π ++ l := fun heq => hpos (append_eq_nil_iff.mp heq.symm).2
    rw [ha.default hr, hv.default hr, update_of_ne hne]
  stored := by
    intro ρ an hρ
    by_cases heq : ρ = π ++ l
    · refine ⟨π, p, hp, ?_⟩
      rw [heq, ha.same.bits]
      exact home_append hpos hl
    · rw [update_of_ne heq] at hρ
      obtain ⟨π', p', hp', hhome⟩ := hv.stored hρ
      exact ⟨π', p', hp', by rwa [ha.same.bits]⟩
  keyed := hv.keyed_update hkey

theorem Values.change : ∃ art', (if idx l < (art.mem p).atMinfringe then
          artAllot art p (idx l) (.node (routeAt R π l)) (.node (routeAt (update R (π ++ l) v) π l))
        else some (art.setSlot p (idx l) (.node (routeAt (update R (π ++ l) v) π l)))) = some art' ∧
      SameTables art art' ∧ (∀ q, (art'.mem q).atRefcnt = (art.mem q).atRefcnt) ∧
      Values art' tab (update R (π ++ l) v) := by
  have hpaint := hv.painted hp
  have hfringe : idx l < (art.mem p).atMinfringe ↔ l.length < (art.mem p).atBits := by
    rw [(h.table hp).minfringe, idx_lt_iff]
  split
  next hlt =>
    obtain ⟨art', hrun, ha⟩ := artAllot_eq (routeAt (update R (π ++ l) v) π l) h hp hpos
      (hfringe.mp hlt) hpaint rfl
    refine ⟨art', hrun, ha.same, ha.refcnt, hv.of_painted h hp hpos hl hkey ha fun l' hl' => ?_⟩
    exact fill_routeAt hv.keyed (by omega)
  next hge =>
    rw [hfringe] at hge
    have ha := hpaint.setSlot h hp (routeAt (update R (π ++ l) v) π l) hpos hl
    refine ⟨_, rfl, ha.same, ha.refcnt, hv.of_painted h hp hpos hl hkey ha fun l' hl' => ?_⟩
    have hfill := fill_routeAt (π := π) (v := v) (d := 0) hv.keyed
      (show l'.length ≤ l.length + 0 by omega)
    rwa [fill_zero, if_pos rfl] at hfill

end

theorem Values.change_default {r : Ptr}
    (hr : tab [] = some r) (hkey : ∀ an, v = some an → an.bits = []) :
    Values (art.setEntry r artHeapIdxDefault (.node v)) tab (update R [] v) := by
  have hs : SameTables art (art.setEntry r artHeapIdxDefault (.node v)) :=
    sameTables_setEntry (h.default_ne_heap hr)
  constructor
  case slot =>
    intro π' p' l' hp' hpos' hl'
    rw [hs.bits] at hl'
    have hroute : routeAt (update R [] v) π' l' = routeAt R π' l' := by
      apply longest_update_of_not
      intro m hm hlt heq
      have := congrArg length heq
      rw [length_take, length_nil] at this
      omega
    rw [Art.slotVal, hs.slot, Art.entry_setEntry, if_neg, hroute, ← hv.slot hp' hpos' hl']
    · rfl
    · rintro ⟨h1, h2⟩
      exact h.slot_ne_default hp' hpos' hl' hr (Prod.ext h1 h2)
  case default =>
    intro p hp
    rw [hr, some.injEq] at hp
    rw [Art.entry_setEntry, if_pos ⟨hp.symm, rfl⟩, update_self]
  case stored =>
    intro ρ an hρ
    by_cases heq : ρ = []
    · refine ⟨[], r, hr, ?_⟩
      rw [heq]
      exact home_nil
    · rw [update_of_ne heq] at hρ
      obtain ⟨π', p', hp', hhome⟩ := hv.stored hρ
      exact ⟨π', p', hp', by rwa [hs.bits]⟩
  case keyed => exact hv.keyed_update hkey

end

theorem Values.congr (hv : Values art tab R) (hs : SameTables art art')
    (he : ∀ p k, art'.entry p k = art.entry p k) : Values art' tab R where
  slot := by
    intro π p l hp hpos hl
    rw [hs.bits] at hl
    rw [Art.slotVal, hs.slot, he]
    exact hv.slot hp hpos hl
  default := by
    intro p hp
    rw [he, hv.default hp]
  stored := by
    intro ρ an hρ
    obtain ⟨π, p, hp, hhome⟩ := hv.stored hρ
    exact ⟨π, p, hp, by rwa [hs.bits]⟩
  keyed := hv.keyed

end Change

end Mbsd.Net.Allotment
