import Mbsd.Net.Art.Grow

/-! `art_insert`. -/

namespace Mbsd.Net.Allotment

open Lib.HeapIndex Lib.LongestPrefix Sys List Option Function Nat Bool Art ArtTable

variable {art art' : Art} {tab tab' : Tables} {R : Routes} {π κ l : List Bool} {p q : Ptr}
  {an : ArtNode} {m : Nat} {held : Ptr → Nat} {fuel j plen n k i : Nat} {oahe nahe : ArtHeapEntry}
  {c : Ptr} {ahe : Option ArtNode}

def addTable (art : Art) (p : Ptr) (k : Nat) (ahe : ArtHeapEntry) : Option (Option Ptr × Art) := do
  match ← artTableGet art (some p) k with
  | (none, art) => some (none, art)
  | (some child, art) =>
    let art := artTableRef art p
    let art := art.setEntry child artHeapIdxDefault ahe
    some (some child, art.setEntry p k (.heap child))

structure Failed (art art' : Art) : Prop where
  root : art'.artRoot = art.artRoot
  levels : art'.artLevels = art.artLevels
  alen : art'.artAlen = art.artAlen
  mem : art'.mem = art.mem
  pool : art'.pool = art.pool
  next : art'.next = art.next + 1
  refused : art.pool art.next = false

theorem Failed.shape (hf : Failed art art') (h : Shape art tab) : Shape art' tab where
  strides := hf.levels ▸ h.strides
  sum := by rw [hf.levels, hf.alen, h.sum]
  root := hf.root.trans h.root
  table := by
    intro π p hp
    obtain ⟨h1, h2, h3, h4, h5, h6⟩ := h.table hp
    constructor
    case fresh => rw [hf.next]; exact lt_succ_of_lt h1
    all_goals rw [hf.mem]; simpa only [hf.levels]
  inj := h.inj
  top := by rw [hf.mem]; exact h.top
  rooted := h.rooted
  inner := by
    intro π p l hp hl q
    rw [hf.mem] at hl
    rw [entry, hf.mem]
    exact h.inner hp hl q
  link := by
    intro π p l hp hl q
    rw [hf.mem] at hl
    rw [entry, hf.mem]
    exact h.link hp hl q
  child := by rw [hf.mem]; exact h.child
  parent := by rw [hf.mem]; exact h.parent
  between := by rw [hf.mem]; exact h.between

theorem Failed.entry (hf : Failed art art') (p : Ptr) (k : Nat) :
    art'.entry p k = art.entry p k := by
  rw [Art.entry, hf.mem, Art.entry]

theorem Failed.soundWith (hf : Failed art art') (h : SoundWith art tab R held) :
    SoundWith art' tab R held where
  shape := hf.shape h.shape
  values :=
    { slot := by
        intro π p l hp hpos hl
        rw [hf.mem] at hl
        have hslot : art'.slot p (idx l) = art.slot p (idx l) := by
          rw [slot, slot, hf.entry]
        rw [slotVal, hslot, hf.entry]
        exact h.values.slot hp hpos hl
      default := fun hp => (hf.entry _ _).trans (h.values.default hp)
      stored := by rw [hf.mem]; exact h.values.stored
      keyed := h.values.keyed }
  counted := by
    intro π p hp
    rw [hf.mem]
    exact h.counted hp

def childTable (art : Art) (p : Ptr) (k : Nat) : ArtTable where
  atHeap := Function.update (fun _ => .node none) artHeapIdxDefault (art.entry p k)
  atParent := some p
  atIndex := k
  atMinfringe := 1 <<< art.artLevels.getD ((art.mem p).atLevel + 1) 0
  atLevel := (art.mem p).atLevel + 1
  atBits := art.artLevels.getD ((art.mem p).atLevel + 1) 0
  atOffset := (art.mem p).atOffset + (art.mem p).atBits
  atRefcnt := 0

def withTable (art : Art) (p : Ptr) (k : Nat) : Art :=
  ((artTableRef { art with
      next := art.next + 1
      mem := Function.update art.mem art.next (childTable art p k) } p).setEntry art.next
    artHeapIdxDefault (art.entry p k)).setEntry p k (.heap art.next)

theorem grown_withTable (hne : p ≠ art.next) (k : Nat) : Grown art p k (withTable art p k) where
  root := rfl
  levels := rfl
  alen := rfl
  pool := rfl
  next := rfl
  place := by
    intro q
    rw [withTable, place_setEntry, place_setEntry, artTableRef, mem_modify]
    by_cases hq : q = art.next
    · subst hq
      rw [if_neg (Ne.symm hne), if_pos rfl]
      simp [place, childTable, one_shiftLeft]
    · rw [if_neg hq]
      by_cases hqp : q = p
      · subst hqp
        simp [hne, place]
      · simp [hq, hqp, place]
  entry := by
    intro q j
    rw [withTable, entry_setEntry]
    split
    · rfl
    next hqj =>
      rw [entry_setEntry]
      by_cases hq : q = art.next
      · subst hq
        by_cases hj : j = artHeapIdxDefault
        · simp [hj]
        · rw [if_neg (fun hc => hj hc.2), if_pos rfl, if_neg hj, artTableRef, entry,
            mem_modify, if_neg (Ne.symm hne)]
          simp [childTable, hj]
      · rw [if_neg (fun hc => hq hc.1), if_neg hq, artTableRef, entry, mem_modify]
        by_cases hqp : q = p
        · subst hqp
          simp [hne, entry]
        · simp [hq, hqp, entry]
  refcnt := by
    intro q
    rw [withTable, atRefcnt_setEntry, atRefcnt_setEntry, artTableRef, mem_modify]
    by_cases hq : q = art.next
    · subst hq
      simp [Ne.symm hne, childTable]
    · by_cases hqp : q = p
      · subst hqp
        simp [hne]
      · simp [hq, hqp]

theorem addTable_ok (h : Shape art tab) (hp : tab π = some p) (hl : l.length = (art.mem p).atBits)
    (hlevel : (art.mem p).atLevel + 1 < art.artLevels.length) :
    ∃ r art', addTable art p (idx l) (art.entry p (idx l)) = some (r, art') ∧
      art'.artTableGcList = art.artTableGcList ∧ (r = none ∧ Failed art art' ∨
        r = some art.next ∧ art.pool art.next = true ∧ Grown art p (idx l) art') := by
  have hlpos : l ≠ [] := length_pos_iff.mp (by rw [hl]; exact h.bits_pos hp)
  have htwo := two_le_idx hlpos
  have hidx : idx l ≠ 0 ∧ idx l ≠ artHeapIdxDefault := by
    rw [artHeapIdxDefault]
    omega
  have hparent : some p ≠ none ∨ idx l = noIndex := .inl (by simp)
  have hbits := (h.strides _ hlevel).1
  by_cases hpool : art.pool art.next = false
  · refine ⟨none, { art with next := art.next + 1 }, ?_, rfl,
      .inl ⟨rfl, ⟨rfl, rfl, rfl, rfl, rfl, rfl, hpool⟩⟩⟩
    simp only [addTable, artTableGet, kassert_true hidx, kassert_true hlevel, kassert_true hbits,
      kassert_true hparent, if_pos hpool, bind_eq_bind, bind_some]
  · refine ⟨some art.next, withTable art p (idx l), ?_, rfl,
      .inr ⟨rfl, not_eq_false _ ▸ hpool, grown_withTable (h.ne_next hp) _⟩⟩
    simp only [addTable, artTableGet, kassert_true hidx, kassert_true hlevel, kassert_true hbits,
      kassert_true hparent, if_neg hpool, bind_eq_bind, bind_some]
    rfl

structure Kept (art art' : Art) : Prop where
  levels : art'.artLevels = art.artLevels
  alen : art'.artAlen = art.artAlen
  pool : art'.pool = art.pool

theorem Kept.trans {art'' : Art} (h : Kept art art') (h' : Kept art' art'') : Kept art art'' :=
  ⟨h'.levels.trans h.levels, h'.alen.trans h.alen, h'.pool.trans h.pool⟩

theorem SameTables.kept (h : SameTables art art') : Kept art art' := ⟨h.levels, h.alen, h.pool⟩

theorem artInsertLoop_node
    (hlt : (art.mem p).atOffset + (art.mem p).atBits < an.anPlen)
    (hj : artBindex (art.mem p).atOffset (art.mem p).atBits an.anAddr
      ((art.mem p).atOffset + (art.mem p).atBits) = some j) (hent : art.entry p j = .node ahe) :
    artInsertLoop an (fuel + 1) p art = (addTable art p j (art.entry p j)).bind fun r =>
      match r.1 with
      | none => some (none, r.2)
      | some child => artInsertLoop an fuel child r.2 := by
  rw [artInsertLoop]
  simp only [if_pos hlt, hj, bind_eq_bind, bind_some, hent, addTable]
  cases artTableGet art (some p) j with
  | none => rfl
  | some r =>
    obtain ⟨child, art'⟩ := r
    cases child <;> rfl

structure Extended (art : Art) (tab : Tables) (art' : Art) (tab' : Tables) : Prop where
  kept : Kept art art'
  next : art.next ≤ art'.next
  gcList : art'.artTableGcList = art.artTableGcList
  place : ∀ q < art.next, (art'.mem q).place = (art.mem q).place
  old : ∀ {π p}, tab π = some p → tab' π = some p
  fresh : ∀ {π p}, tab' π = some p → tab π = none → art.next ≤ p
  above : ∀ {κ π}, tab κ = none → tab' κ ≠ none → κ <+: π → tab π = none

theorem Extended.refl (art : Art) (tab : Tables) : Extended art tab art tab where
  kept := ⟨rfl, rfl, rfl⟩
  next := Nat.le_refl _
  gcList := rfl
  place := fun _ _ => rfl
  old := id
  fresh := fun hp hnone => by rw [hnone] at hp; cases hp
  above := fun hnone hne => absurd hnone hne

theorem Extended.trans {art'' : Art} {tab'' : Tables} (h : Extended art tab art' tab')
    (h' : Extended art' tab' art'' tab'') : Extended art tab art'' tab'' where
  kept := h.kept.trans h'.kept
  next := h.next.trans h'.next
  gcList := h'.gcList.trans h.gcList
  place := fun q hq => (h'.place q (hq.trans_le h.next)).trans (h.place q hq)
  old := fun hp => h'.old (h.old hp)
  fresh := by
    intro π p hp hnone
    cases hmid : tab' π with
    | none => exact h.next.trans (h'.fresh hp hmid)
    | some q => exact some.inj ((h'.old hmid).symm.trans hp) ▸ h.fresh hmid hnone
  above := by
    intro κ π hnone hne hpre
    by_cases hmid : tab' κ = none
    · have hπ := h'.above hmid hne hpre
      by_contra hsome
      obtain ⟨p, hp⟩ := ne_none_iff_exists'.mp hsome
      rw [h.old hp] at hπ
      cases hπ
    · exact h.above hnone hmid hpre

theorem SameTables.extended (h : SameTables art art')
    (hgc : art'.artTableGcList = art.artTableGcList) : Extended art tab art' tab where
  kept := h.kept
  next := Nat.le_of_eq h.next.symm
  gcList := hgc
  place := fun q _ => h.place q
  old := id
  fresh := fun hp hnone => by rw [hnone] at hp; cases hp
  above := fun hnone hne => absurd hnone hne

theorem Failed.extended (hf : Failed art art') (hgc : art'.artTableGcList = art.artTableGcList) :
    Extended art tab art' tab where
  kept := ⟨hf.levels, hf.alen, hf.pool⟩
  next := by rw [hf.next]; exact le_succ _
  gcList := hgc
  place := fun q _ => by rw [hf.mem]
  old := id
  fresh := fun hp hnone => by rw [hnone] at hp; cases hp
  above := fun hnone hne => absurd hnone hne

theorem Grown.extended (hg : Grown art p (idx l) art') (h : Shape art tab) (hp : tab π = some p)
    (hl : l.length = (art.mem p).atBits) (hnone : tab (π ++ l) = none)
    (hgc : art'.artTableGcList = art.artTableGcList) :
    Extended art tab art' (update tab (π ++ l) (some art.next)) where
  kept := ⟨hg.levels, hg.alen, hg.pool⟩
  next := by rw [hg.next]; exact le_succ _
  gcList := hgc
  place := fun q hq => hg.place_old (Nat.ne_of_lt hq)
  old := by
    intro ρ q hq
    rwa [update_of_ne]
    rintro rfl
    rw [hnone] at hq
    cases hq
  fresh := by
    intro ρ q hq hno
    rw [update_apply] at hq
    split at hq
    · exact Nat.le_of_eq (some.inj hq)
    · rw [hno] at hq
      cases hq
  above := by
    intro κ ρ hκ hne hpre
    have heq : κ = π ++ l := by
      by_contra hκl
      rw [update_of_ne hκl] at hne
      exact hne hκ
    subst heq
    by_contra hsome
    obtain ⟨q, hq⟩ := ne_none_iff_exists'.mp hsome
    exact h.exists_child hp hq hpre hl hκ

def LiveBut (art : Art) (tab : Tables) (o : Ptr) : Prop :=
  ∀ π p, tab π = some p → p ≠ o → 0 < (art.mem p).atRefcnt

def Live (art : Art) (tab : Tables) : Prop := ∀ π p, tab π = some p → 0 < (art.mem p).atRefcnt

theorem SoundWith.pos_of_child (hs : SoundWith art tab R held) (hp : tab π = some p)
    (hl : l.length = (art.mem p).atBits) (hc : tab (π ++ l) ≠ none) : 0 < (art.mem p).atRefcnt := by
  have hchild : Child π (art.mem p).atBits (π ++ l) :=
    ⟨prefix_append π l, by rw [length_append, hl]⟩
  rw [hs.counted hp, ← refs_table_none (R := R) hchild hc]
  push_cast
  omega

/-- How many tables a prefix needs on the levels that are left, below the first `p` bits. -/
def levelsBelow (plen : Nat) : List Nat → Nat → Nat
  | [], _ => 0
  | bits :: levels, p => if p < plen then levelsBelow plen levels (p + bits) + 1 else 0

def missingTables (art : Art) (an : ArtNode) : Nat → Ptr → Nat
  | 0, _ => 0
  | fuel + 1, at_ =>
    let p := (art.mem at_).atOffset + (art.mem at_).atBits
    if p < an.anPlen then
      match artBindex (art.mem at_).atOffset (art.mem at_).atBits an.anAddr p with
      | none => 0
      | some j =>
        match art.entry at_ j with
        | .node _ => levelsBelow an.anPlen (art.artLevels.drop ((art.mem at_).atLevel + 1)) p
        | .heap child => missingTables art an fuel child
    else 0

def missing (art : Art) (an : ArtNode) : Nat :=
  match art.artRoot with
  | some root => missingTables art an art.artLevels.length root
  | none => levelsBelow an.anPlen (art.artLevels.drop 1) (art.artLevels.getD 0 0) + 1

theorem levelsBelow_of_le (levels : List Nat) (h : plen ≤ n) : levelsBelow plen levels n = 0 := by
  cases levels with
  | nil => rfl
  | cons bits levels => exact if_neg (Nat.not_lt.mpr h)

theorem levelsBelow_drop {levels : List Nat} (hk : k < levels.length)
    (hn : n < plen) : levelsBelow plen (levels.drop k) n =
      levelsBelow plen (levels.drop (k + 1)) (n + levels.getD k 0) + 1 := by
  rw [drop_eq_getElem_cons hk, levelsBelow, if_pos hn, getD_eq_getElem _ _ hk]

theorem missingTables_last (h : Shape art tab) (hp : tab (bitsOf an.anAddr m) = some p)
    (hlast : ∀ κ, bitsOf an.anAddr m <+: κ → κ ≠ bitsOf an.anAddr m → tab κ = none)
    (hfuel : art.artLevels.length ≤ (art.mem p).atLevel + fuel) :
    missingTables art an fuel p = levelsBelow an.anPlen
      (art.artLevels.drop ((art.mem p).atLevel + 1)) (m + (art.mem p).atBits) := by
  have hlevel := (h.table hp).level
  obtain ⟨fuel, rfl⟩ := Nat.exists_eq_add_of_le' (show 1 ≤ fuel by omega)
  have hoff := h.offset_eq hp
  by_cases hlt : m + (art.mem p).atBits < an.anPlen
  · have hlt' : (art.mem p).atOffset + (art.mem p).atBits < an.anPlen := by rwa [hoff]
    obtain ⟨l, hlen, hsplit, hidx, ⟨c, hent, hc, hlvl⟩ | ⟨ahe, hent, hnone, hmissing⟩⟩ :=
      h.descend hp hlt
    · rw [← hsplit, hlast _ (prefix_append _ l)] at hc
      · cases hc
      · have hbits := h.bits_pos hp
        rw [Ne, append_right_eq_self]
        rintro rfl
        rw [length_nil] at hlen
        omega
    · rw [missingTables]
      simp only [if_pos hlt', hidx, hent]
      rw [hoff]
  · rw [levelsBelow_of_le _ (Nat.not_lt.mp hlt), missingTables]
    exact if_neg (by rwa [hoff])

def Refused (art : Art) (tab : Tables) (n : Nat) (art' : Art) (tab' : Tables) : Prop :=
  ∃ k < n, art.pool (art.next + k) = false ∧ (∀ j < k, art.pool (art.next + j) = true) ∧
    (k = 0 → tab' = tab ∧ art'.mem = art.mem)

theorem Refused.later {art₁ : Art} {tab₁ : Tables} (h : Refused art₁ tab₁ n art' tab')
    (hnext : art₁.next = art.next + 1) (hpool : art₁.pool = art.pool)
    (hmade : art.pool art.next = true) : Refused art tab (n + 1) art' tab' := by
  obtain ⟨k, hk, hfail, hbefore, -⟩ := h
  have hshift (j : Nat) : art₁.next + j = art.next + (j + 1) := by
    rw [hnext, Nat.add_assoc, Nat.add_comm 1 j]
  rw [hpool, hshift] at hfail
  refine ⟨k + 1, succ_lt_succ hk, hfail, fun j hj => ?_, nofun⟩
  cases j with
  | zero => exact hmade
  | succ j =>
    have hj' := hbefore j (lt_of_succ_lt_succ hj)
    rwa [hpool, hshift] at hj'

structure Prepared (art : Art) (tab : Tables) (R : Routes) (held : Ptr → Nat) (an : ArtNode)
    (fuel : Nat) (p : Ptr) (r : Option Ptr) (art' : Art) (tab' : Tables) : Prop where
  sound : SoundWith art' tab' R held
  extended : Extended art tab art' tab'
  root : art'.artRoot = art.artRoot
  live : LiveBut art tab p → ∀ q, r = some q → LiveBut art' tab' q
  refused : r = none → Refused art tab (missingTables art an fuel p) art' tab'
  table : ∀ q, r = some q → TableFor art' tab' an.bits q
  present : (∃ q, TableFor art tab an.bits q) → art' = art ∧ tab' = tab ∧ r ≠ none

theorem artInsertLoop_held (hs : SoundWith art tab R held)
    (hfree : ∀ q, art.next ≤ q → held q = 0) (hp : tab (bitsOf an.anAddr m) = some p)
    (hm : m < an.anPlen) (hle : an.anPlen ≤ art.artAlen)
    (hfuel : art.artLevels.length ≤ (art.mem p).atLevel + fuel) :
    ∃ r art' tab', artInsertLoop an fuel p art = some (r, art') ∧
      Prepared art tab R held an fuel p r art' tab' := by
  induction fuel generalizing art tab p m with
  | zero =>
    have hlevel := (hs.shape.table hp).level
    omega
  | succ fuel ih =>
    have h := hs.shape
    have hoff := h.offset_eq hp
    by_cases hlt : m + (art.mem p).atBits < an.anPlen
    · have hlt' : (art.mem p).atOffset + (art.mem p).atBits < an.anPlen := by rwa [hoff]
      obtain ⟨l, hlen, hsplit, hidx, ⟨c, hent, hc, hlvl⟩ | ⟨ahe, hent, hnone, hmissing⟩⟩ :=
        h.descend hp hlt
      · have hsame : missingTables art an (fuel + 1) p = missingTables art an fuel c := by
          rw [missingTables]
          simp only [if_pos hlt', hidx, hent]
        obtain ⟨r, art', tab', hrun, hpre⟩ := ih hs hfree hc hlt hle (by omega)
        rw [artInsertLoop]
        simp only [if_pos hlt', hidx, bind_eq_bind, bind_some, hent]
        refine ⟨r, art', tab', hrun, { hpre with
          live := fun hlive => hpre.live fun ρ q hq _ => ?_
          refused := hsame ▸ hpre.refused }⟩
        by_cases hqp : q = p
        · rw [hqp]
          exact hs.pos_of_child hp hlen (by rw [hsplit, hc]; nofun)
        · exact hlive ρ q hq hqp
      · have hlevel := h.level_succ hp (by rw [length_bitsOf]; omega)
        have hcount : missingTables art an (fuel + 1) p = levelsBelow an.anPlen
            (art.artLevels.drop ((art.mem p).atLevel + 1)) (m + (art.mem p).atBits) := by
          rw [missingTables]
          simp only [if_pos hlt', hidx, hent]
          rw [hoff]
        rw [levelsBelow_drop hlevel hlt] at hcount
        obtain ⟨r, art1, hadd, hgc, hcase⟩ := addTable_ok h hp hlen hlevel
        rw [artInsertLoop_node hlt' hidx hent, hadd]
        rcases hcase with ⟨rfl, hf⟩ | ⟨rfl, hmade, hg⟩
        · refine ⟨none, art1, tab, rfl, hf.soundWith hs, hf.extended hgc, hf.root, nofun,
            fun _ => ⟨0, ?_, hf.refused, nofun, fun _ => ⟨rfl, hf.mem⟩⟩, nofun,
            fun hq => absurd hq hmissing⟩
          rw [hcount]
          exact succ_pos _
        · have hext := hg.extended h hp hlen hnone hgc
          have hs1 := hg.soundWith h hp hlen hnone hlevel hs (hfree _ (Nat.le_refl _))
          have hplace := (hg.place art.next).trans (if_pos rfl)
          have hlvl1 : (art1.mem art.next).atLevel = (art.mem p).atLevel + 1 :=
            congrArg Place.level hplace
          have hbits1 : (art1.mem art.next).atBits =
              art.artLevels.getD ((art.mem p).atLevel + 1) 0 := congrArg Place.bits hplace
          have hlevels := hg.levels
          have halen := hg.alen
          have hchild : update tab (bitsOf an.anAddr m ++ l) (some art.next)
              (bitsOf an.anAddr (m + (art.mem p).atBits)) = some art.next := by
            rw [hsplit, update_self]
          have hlast (κ : List Bool) (hpre : bitsOf an.anAddr (m + (art.mem p).atBits) <+: κ)
              (hne : κ ≠ bitsOf an.anAddr (m + (art.mem p).atBits)) :
              update tab (bitsOf an.anAddr m ++ l) (some art.next) κ = none := by
            rw [hsplit, update_of_ne hne]
            by_contra hsome
            obtain ⟨c, hc⟩ := ne_none_iff_exists'.mp hsome
            exact h.exists_child hp hc (hsplit ▸ hpre) hlen hnone
          have hfuel1 : art1.artLevels.length ≤ (art1.mem art.next).atLevel + fuel := by
            rw [hlevels, hlvl1]
            omega
          obtain ⟨r, art2, tab2, hrun, hpre⟩ := ih hs1 (fun q hq => hfree q (hext.next.trans hq))
            hchild hlt (by rw [halen]; exact hle) hfuel1
          refine ⟨r, art2, tab2, hrun, { hpre with
            extended := hext.trans hpre.extended
            root := hpre.root.trans hg.root
            live := fun hlive => hpre.live fun ρ q hq hne => ?_
            refused := fun hr => ?_
            present := fun hq => absurd hq hmissing }⟩
          · by_cases hqp : q = p
            · have hp1 := hext.old hp
              rw [hqp]
              exact hs1.pos_of_child hp1 (hlen.trans (hg.bits_old (h.ne_next hp)).symm)
                (by rw [update_self]; nofun)
            · rw [hg.refcnt, if_neg hne, if_neg hqp, Int.add_zero]
              refine hlive ρ q ?_ hqp
              rw [update_apply] at hq
              split at hq
              · exact absurd (some.inj hq).symm hne
              · exact hq
          · rw [hcount, ← hbits1]
            have hrest := hpre.refused hr
            rw [missingTables_last hs1.shape hchild hlast hfuel1, hlvl1, hlevels] at hrest
            exact hrest.later hg.next hg.pool hmade
    · refine ⟨some p, art, tab, ?_, hs, .refl art tab, rfl, fun hlive q hq => ?_, nofun,
        fun q hq => ?_, fun _ => ⟨rfl, rfl, nofun⟩⟩
      · rw [artInsertLoop]
        exact if_neg (by rwa [hoff])
      · exact some.inj hq ▸ hlive
      · obtain rfl := some.inj hq
        exact tableFor_of_le hp hm (Nat.not_lt.mp hlt)

theorem artInsertAt_present {oan : ArtNode} (hs : SoundWith art tab R held)
    (hq : TableFor art tab an.bits q) (hR : R an.bits = some oan) :
    artInsertAt art q an = some (some oan, art) := by
  obtain ⟨π, l, hp, hκ, hpos, hl⟩ := hq
  have hroute : routeAt R π l = some oan := routeAt_of_some hpos (hκ ▸ hR)
  have hcheck : artNodeCheck oan an.anAddr an.anPlen = true :=
    artNodeCheck_iff.mpr (hs.values.keyed _ _ hR)
  rw [artInsertAt, hs.shape.bindex_for hp hκ hl]
  simp only [bind_eq_bind, bind_some, hs.values.slot_route hp hpos hl, hroute,
    ArtHeapEntry.toNode, any_some, hcheck, if_true]

theorem SoundWith.live_insert (hs : SoundWith art tab R held) (hlive : LiveBut art tab q)
    (hcnt : ∀ c, (art'.mem c).atRefcnt = (art.mem c).atRefcnt + if c = q then 1 else 0) :
    Live art' tab := by
  intro ρ c hc
  rw [hcnt]
  by_cases hcq : c = q
  · rw [if_pos hcq, hs.counted hc]
    omega
  · rw [if_neg hcq, Int.add_zero]
    exact hlive ρ c hc hcq

theorem artAllotFrom_gcList {pc : AllotPc}
    (hrun : artAllotFrom p i oahe nahe fuel pc k art = some art') :
    art'.artTableGcList = art.artTableGcList := by
  induction fuel generalizing pc k art with
  | zero => cases hrun
  | succ fuel ih =>
    cases pc with
    | again =>
      rw [artAllotFrom] at hrun
      split at hrun
      · exact ih hrun
      · exact ih hrun
    | fringe =>
      rw [artAllotFrom] at hrun
      have hset : (if art.entry (art.slot p k).1 (art.slot p k).2 = oahe then
          art.setEntry (art.slot p k).1 (art.slot p k).2 nahe else art).artTableGcList =
            art.artTableGcList := by
        split <;> rfl
      split at hrun
      · exact (ih hrun).trans hset
      · exact (ih hrun).trans hset
    | nonfringe =>
      rw [artAllotFrom] at hrun
      split at hrun
      · exact ih hrun
      · exact ih hrun
    | moveon =>
      rw [artAllotFrom] at hrun
      split at hrun
      · exact ih hrun
      · exact ih hrun
    | moveup =>
      rw [artAllotFrom] at hrun
      split at hrun
      · have hgc := ih hrun
        exact hgc
      · exact some.inj hrun ▸ rfl

theorem artAllot_gcList
    (hrun : artAllot art p i oahe nahe = some art') : art'.artTableGcList = art.artTableGcList := by
  obtain ⟨-, -, hrun⟩ := bind_eq_some_iff.mp hrun
  exact artAllotFrom_gcList hrun

theorem artInsertAt_absent (hs : SoundWith art tab R held) (hq : TableFor art tab an.bits q)
    (hR : R an.bits = none) : ∃ art', artInsertAt art q an = some (some an, art') ∧
      SoundWith art' tab (update R an.bits (some an)) held ∧
      Extended art tab art' tab ∧ (LiveBut art tab q → Live art' tab) := by
  obtain ⟨π, l, hp, hκ, hpos, hl⟩ := hq
  have hcheck : (routeAt R π l).any (fun oan => artNodeCheck oan an.anAddr an.anPlen) = false := by
    cases hroute : routeAt R π l with
    | none => rfl
    | some oan =>
      rw [any_some, eq_false_iff]
      intro hc
      have hstands := routeAt_stands hs.values.keyed hroute ((artNodeCheck_iff.mp hc).trans hκ)
      rw [← hκ, hR] at hstands
      cases hstands
  have hsame : SameTables art (artTableRef art q) := sameTables_modify (f := (· + 1))
  have hentry := art.entry_modify q (f := fun at_ => { at_ with atRefcnt := at_.atRefcnt + 1 })
    fun _ => rfl
  have hv := hs.values.congr hsame hentry
  have hh := hs.shape.of_same hsame
  have hl' : l.length ≤ ((artTableRef art q).mem q).atBits := by rwa [hsame.bits]
  have hnew : routeAt (update R (π ++ l) (some an)) π l = some an := by
    rw [routeAt_update_self hpos, some_or]
  obtain ⟨art', hrun, hsame', hcnt, hv'⟩ :=
    hv.change (v := some an) hh hp hpos hl' (fun an' h => by cases h; exact hκ)
  rw [hnew] at hrun
  have hcnt' (c : Ptr) : (art'.mem c).atRefcnt = (art.mem c).atRefcnt + if c = q then 1 else 0 := by
    rw [hcnt, artTableRef, mem_modify]
    split
    next heq => rw [heq]
    · exact (Int.add_zero _).symm
  have hgc : art'.artTableGcList = art.artTableGcList := by
    split at hrun
    · have hgc := artAllot_gcList hrun
      exact hgc
    · exact some.inj hrun ▸ rfl
  refine ⟨art', ?_, ⟨hh.of_same hsame', hκ ▸ hv', hκ ▸ hs.counted_insert hp (home_append hpos hl)
    (hκ ▸ hR) (hsame.trans hsame') hcnt'⟩, (hsame.trans hsame').extended hgc,
    fun hlive => hs.live_insert hlive hcnt'⟩
  rw [artInsertAt, hs.shape.bindex_for hp hκ hl]
  simp only [bind_eq_bind, bind_some, hs.values.slot_route hp hpos hl,
    ArtHeapEntry.toNode, hcheck, false_eq_true, if_false]
  rw [setSlot, hsame.slot] at hrun
  split at hrun
  next hlt =>
    rw [if_pos hlt, hrun]
    rfl
  next hge =>
    rw [if_neg hge, ← some.inj hrun]

/-- What `art_insert` returns and leaves behind, if `n` tables were missing.  Tables keep their
references as long as they had some at first. -/
inductive InsertedWith (art : Art) (tab : Tables) (R : Routes) (held : Ptr → Nat) (an : ArtNode)
    (first : Prop) (n : Nat) : Option ArtNode → Art → Prop
  | present {oan : ArtNode} (hR : R an.bits = some oan) :
      InsertedWith art tab R held an first n (some oan) art
  | added {art' : Art} {tab' : Tables} (hR : R an.bits = none)
      (sound : SoundWith art' tab' (Function.update R an.bits (some an)) held)
      (extended : Extended art tab art' tab') (live : first → Live art' tab') :
      InsertedWith art tab R held an first n (some an) art'
  | refused {art' : Art} {tab' : Tables} (hR : R an.bits = none)
      (sound : SoundWith art' tab' R held) (extended : Extended art tab art' tab')
      (refused : Refused art tab n art' tab') :
      InsertedWith art tab R held an first n none art'

theorem artInsertRoot_default (hs : SoundWith art tab R held) (hr : tab [] = some p)
    (hplen : an.anPlen = 0) : ∃ r art', artInsertRoot art p an = some (r, art') ∧
      InsertedWith art tab R held an (LiveBut art tab p) n r art' := by
  have hnil : an.bits = [] := length_eq_zero_iff.mp (by rw [length_bits, hplen])
  have hdefault := hs.values.default hr
  cases hR : R [] with
  | some oan =>
    refine ⟨some oan, art, ?_, .present (by rw [hnil, hR])⟩
    rw [artInsertRoot, if_pos hplen, hdefault, hR]
    rfl
  | none =>
    have hsame : SameTables art (artTableRef art p) := sameTables_modify (f := (· + 1))
    have hh := hs.shape.of_same hsame
    have hentry := art.entry_modify p (f := fun at_ => { at_ with atRefcnt := at_.atRefcnt + 1 })
      fun _ => rfl
    have hset : SameTables (artTableRef art p)
        ((artTableRef art p).setEntry p artHeapIdxDefault (.node (some an))) :=
      sameTables_setEntry (hh.default_ne_heap hr)
    have hcnt (c : Ptr) :
        (((artTableRef art p).setEntry p artHeapIdxDefault (.node (some an))).mem c).atRefcnt =
          (art.mem c).atRefcnt + if c = p then 1 else 0 := by
      rw [atRefcnt_setEntry, artTableRef, mem_modify]
      split
      next heq => rw [heq]
      · exact (Int.add_zero _).symm
    refine ⟨some an, _, ?_, .added (hnil ▸ hR) ⟨hh.of_same hset, ?_, ?_⟩
      ((hsame.trans hset).extended rfl) fun hlive => hs.live_insert hlive hcnt⟩
    · rw [artInsertRoot, if_pos hplen, hdefault, hR]
      rfl
    · rw [hnil]
      exact (hs.values.congr hsame hentry).change_default hh hr fun an' h => by cases h; exact hnil
    · rw [hnil]
      exact hs.counted_insert hr home_nil hR (hsame.trans hset) hcnt

theorem artInsertRoot_held (hs : SoundWith art tab R held)
    (hfree : ∀ q, art.next ≤ q → held q = 0) (hr : tab [] = some p)
    (hle : an.anPlen ≤ art.artAlen) : ∃ r art', artInsertRoot art p an = some (r, art') ∧
      InsertedWith art tab R held an (LiveBut art tab p)
        (missingTables art an art.artLevels.length p) r art' := by
  by_cases hplen : an.anPlen = 0
  · exact artInsertRoot_default hs hr hplen
  obtain ⟨r, art1, tab1, hrun, hpre⟩ :=
    artInsertLoop_held (m := 0) hs hfree hr (Nat.pos_of_ne_zero hplen) hle
      (show art.artLevels.length ≤ (art.mem p).atLevel + art.artLevels.length by omega)
  rw [artInsertRoot, if_neg hplen, hrun]
  simp only [bind_eq_bind, bind_some]
  cases hR : R an.bits with
  | some oan =>
    -- the table of a route exists
    obtain ⟨π, q, hq, hhome⟩ := hs.values.stored hR
    have htable : TableFor art tab an.bits q := by
      obtain ⟨⟨l, hl⟩, hlen, hpos⟩ := hhome
      have hlt : π.length < an.bits.length := by
        rcases hpos with hlt | hnil
        · exact hlt
        · rw [← length_bits, hnil] at hplen
          exact absurd rfl hplen
      rw [← hl, length_append] at hlt hlen
      exact ⟨π, l, hq, hl.symm, length_pos_iff.mp (by omega), by omega⟩
    obtain ⟨rfl, rfl, hne⟩ := hpre.present ⟨q, htable⟩
    obtain ⟨q', rfl⟩ := ne_none_iff_exists'.mp hne
    exact ⟨some oan, art1, artInsertAt_present hs (hpre.table q' rfl) hR, .present hR⟩
  | none =>
    cases r with
    | none => exact ⟨none, art1, rfl, .refused hR hpre.sound hpre.extended (hpre.refused rfl)⟩
    | some q =>
      obtain ⟨art2, hat, hs2, hext, hlive⟩ := artInsertAt_absent hpre.sound (hpre.table q rfl) hR
      exact ⟨some an, art2, hat, .added hR hs2 (hpre.extended.trans hext) fun hfirst =>
        hlive (hpre.live hfirst q rfl)⟩

def rootTable (art : Art) : ArtTable where
  atHeap := fun _ => .node none
  atParent := none
  atIndex := noIndex
  atMinfringe := 1 <<< art.artLevels.getD 0 0
  atLevel := 0
  atBits := art.artLevels.getD 0 0
  atOffset := 0
  atRefcnt := 0

def withRoot (art : Art) : Art :=
  { art with
    artRoot := some art.next
    next := art.next + 1
    mem := Function.update art.mem art.next (rootTable art) }

theorem mem_withRoot (art : Art) : (withRoot art).mem art.next = rootTable art :=
  update_self ..

theorem entry_withRoot (art : Art) (k : Nat) : (withRoot art).entry art.next k = .node none := by
  rw [entry, mem_withRoot]
  rfl

section Root

variable (h : Shape art tab) (hnone : tab [] = none)

include h hnone

theorem Shape.empty : tab π = none := by
  by_contra hne
  obtain ⟨p, hp⟩ := ne_none_iff_exists'.mp hne
  exact h.rooted hp hnone

theorem Shape.only_root (hp : update tab [] (some art.next) π = some p) :
    π = [] ∧ p = art.next := by
  rw [update_apply] at hp
  split at hp
  next heq => exact ⟨heq, (some.inj hp).symm⟩
  next => rw [h.empty hnone] at hp; cases hp

theorem shape_withRoot (hlevels : 0 < art.artLevels.length) :
    Shape (withRoot art) (update tab [] (some art.next)) where
  strides := h.strides
  sum := h.sum
  root := by rw [update_self]; rfl
  table := by
    intro π p hp
    obtain ⟨rfl, rfl⟩ := h.only_root hnone hp
    constructor
    case fresh => exact lt_succ_self _
    all_goals rw [mem_withRoot]
    case level => exact hlevels
    case length => rfl
    case offset => rfl
    case bits => rfl
    case minfringe => exact one_shiftLeft _
  inj := by
    intro π π' p hp hp'
    rw [(h.only_root hnone hp).1, (h.only_root hnone hp').1]
  top := by
    intro p hp
    obtain ⟨-, rfl⟩ := h.only_root hnone hp
    rw [mem_withRoot]
    exact ⟨rfl, rfl, rfl⟩
  rooted := by
    intro π p _
    rw [update_self]
    nofun
  inner := by
    intro π p l hp _ q
    obtain ⟨-, rfl⟩ := h.only_root hnone hp
    rw [entry_withRoot]
    nofun
  link := by
    intro π p l hp hl q
    obtain ⟨rfl, rfl⟩ := h.only_root hnone hp
    have hpos : l ≠ [] := length_pos_iff.mp (by
      rw [hl, mem_withRoot, rootTable]
      rcases (h.strides 0 hlevels).1 with h4 | h8 <;> simp only <;> omega)
    rw [entry_withRoot, update_of_ne (by simpa using hpos), h.empty hnone]
    exact iff_of_false nofun nofun
  child := by
    intro π p l q hp hl hq
    obtain ⟨rfl, rfl⟩ := h.only_root hnone hp
    have hnil := (h.only_root hnone hq).1
    rw [nil_append] at hnil
    rw [hnil, mem_withRoot, rootTable] at hl
    simp only [length_nil] at hl
    rcases (h.strides 0 hlevels).1 with h4 | h8 <;> omega
  parent := by
    intro π p hp hne
    exact absurd (h.only_root hnone hp).1 hne
  between := by
    intro π π' p p' hp hp' _ hne
    rw [(h.only_root hnone hp).1, (h.only_root hnone hp').1] at hne
    exact absurd rfl hne

theorem SoundWith.withRoot (hs : SoundWith art tab R held) (hfree : held art.next = 0)
    (hlevels : 0 < art.artLevels.length) :
    SoundWith (withRoot art) (update tab [] (some art.next)) R held := by
  have hR (ρ : List Bool) : R ρ = none := by
    by_contra hne
    obtain ⟨an, han⟩ := ne_none_iff_exists'.mp hne
    obtain ⟨π, p, hp, -⟩ := hs.values.stored han
    rw [h.empty hnone] at hp
    cases hp
  refine ⟨shape_withRoot h hnone hlevels, ⟨?_, ?_, ?_, hs.values.keyed⟩, ?_⟩
  · intro π p l hp hpos hl
    obtain ⟨rfl, rfl⟩ := h.only_root hnone hp
    rw [slotVal, slot, entry_withRoot, routeAt, longest_eq_none.mpr fun _ _ _ => hR _]
    exact entry_withRoot ..
  · intro p hp
    obtain ⟨-, rfl⟩ := h.only_root hnone hp
    rw [entry_withRoot, hR]
  · intro ρ an hρ
    rw [hR] at hρ
    cases hρ
  · intro π p hp
    obtain ⟨rfl, rfl⟩ := h.only_root hnone hp
    have hzero : refs (update tab [] (some art.next)) R []
        ((Allotment.withRoot art).mem art.next).atBits = 0 := by
      rw [refs_eq_zero]
      refine ⟨fun ρ _ => hR ρ, fun κ hκ => ?_⟩
      rw [update_of_ne, h.empty hnone]
      rintro rfl
      have hlen := hκ.2
      rw [mem_withRoot, rootTable] at hlen
      simp only [length_nil] at hlen
      rcases (h.strides 0 hlevels).1 with h4 | h8 <;> omega
    rw [hzero, mem_withRoot, hfree]
    rfl

theorem extended_withRoot : Extended art tab (withRoot art) (update tab [] (some art.next)) where
  kept := ⟨rfl, rfl, rfl⟩
  next := le_succ _
  gcList := rfl
  place := fun q hq => congrArg place (update_of_ne (Nat.ne_of_lt hq) ..)
  old := fun hp => by rw [h.empty hnone] at hp; cases hp
  fresh := fun hp _ => Nat.le_of_eq (h.only_root hnone hp).2.symm
  above := fun _ _ _ => h.empty hnone

end Root

theorem artInsert_held (hs : SoundWith art tab R held) (hfree : ∀ q, art.next ≤ q → held q = 0)
    (hlevels : 0 < art.artLevels.length) (hle : an.anPlen ≤ art.artAlen) :
    ∃ r art', artInsert art an = some (r, art') ∧
      InsertedWith art tab R held an (Live art tab) (missing art an) r art' := by
  have h := hs.shape
  have hroot := h.root
  rw [artInsert, kassert_true hle, missing]
  simp only [bind_eq_bind, bind_some]
  cases htab : tab [] with
  | some root =>
    rw [hroot, htab]
    obtain ⟨r, art', hrun, hins⟩ := artInsertRoot_held hs hfree htab hle
    refine ⟨r, art', hrun, ?_⟩
    cases hins with
    | present hR => exact .present hR
    | added hR sound extended live => exact .added hR sound extended fun hl => live fun π p hp _ => hl π p hp
    | refused hR sound extended refused => exact .refused hR sound extended refused
  | none =>
    have hbits := (h.strides 0 hlevels).1
    have hidx : noIndex ≠ 0 ∧ noIndex ≠ artHeapIdxDefault := by decide
    have hR : R an.bits = none := by
      by_contra hne
      obtain ⟨oan, hoan⟩ := ne_none_iff_exists'.mp hne
      obtain ⟨π, p, hp, -⟩ := hs.values.stored hoan
      rw [h.empty htab] at hp
      cases hp
    rw [hroot, htab]
    simp only [artTableGet, kassert_true hidx, kassert_true hlevels, kassert_true hbits,
      bind_eq_bind, bind_some]
    by_cases hpool : art.pool art.next = false
    · have hf : Failed art { art with next := art.next + 1 } :=
        ⟨rfl, rfl, rfl, rfl, rfl, rfl, hpool⟩
      rw [if_pos hpool]
      exact ⟨none, _, rfl, .refused hR (hf.soundWith hs) (hf.extended rfl)
        ⟨0, succ_pos _, hpool, nofun, fun _ => ⟨rfl, rfl⟩⟩⟩
    · rw [if_neg hpool]
      have hmade : art.pool art.next = true := by simpa using hpool
      have hs1 := SoundWith.withRoot h htab hs (hfree _ (Nat.le_refl _)) hlevels
      have hext := extended_withRoot h htab
      have hnew : update tab [] (some art.next) [] = some art.next :=
        update_self ..
      have hcount : missingTables (withRoot art) an art.artLevels.length art.next =
          levelsBelow an.anPlen (art.artLevels.drop 1) (art.artLevels.getD 0 0) := by
        have hfuel : (withRoot art).artLevels.length ≤
            ((withRoot art).mem art.next).atLevel + art.artLevels.length := by
          rw [mem_withRoot]
          exact Nat.le_add_left ..
        have hlast : missingTables (withRoot art) an art.artLevels.length art.next =
            levelsBelow an.anPlen
              ((withRoot art).artLevels.drop (((withRoot art).mem art.next).atLevel + 1))
              (0 + ((withRoot art).mem art.next).atBits) :=
          missingTables_last hs1.shape hnew (fun κ _ hne =>
            (update_of_ne hne ..).trans (h.empty htab)) hfuel
        rw [mem_withRoot] at hlast
        simpa [rootTable, withRoot] using hlast
      obtain ⟨r, art', hrun, hins⟩ : ∃ r art', artInsertRoot (withRoot art) art.next an =
          some (r, art') ∧ InsertedWith (withRoot art) (update tab [] (some art.next)) R
            held an (LiveBut (withRoot art) (update tab [] (some art.next)) art.next)
            (missingTables (withRoot art) an art.artLevels.length art.next) r art' :=
        artInsertRoot_held hs1 (fun q hq => hfree q (hext.next.trans hq)) hnew hle
      refine ⟨r, art', hrun, ?_⟩
      cases hins with
      | present hR' =>
        rw [hR] at hR'
        cases hR'
      | added hR sound extended live =>
        exact .added hR sound (hext.trans extended) fun _ => live fun π p hp hne =>
          absurd (h.only_root htab hp).2 hne
      | refused hR sound extended refused =>
        exact .refused hR sound (hext.trans extended) (hcount ▸ refused.later rfl rfl hmade)

def Inserted (art : Art) (R : Routes) (an : ArtNode) (r : Option ArtNode) (art' : Art) : Prop :=
  (∃ oan, R an.bits = some oan ∧ r = some oan ∧ art' = art) ∨
  (R an.bits = none ∧ r = some an ∧
    ∃ tab', Sound art' tab' (Function.update R an.bits (some an)) none) ∨
  (R an.bits = none ∧ r = none ∧ (∃ tab', Sound art' tab' R none) ∧ ∃ n, art.pool n = false)

theorem InsertedWith.inserted {first : Prop} {r : Option ArtNode}
    (h : InsertedWith art tab R noneHeld an first n r art') :
    Kept art art' ∧ Inserted art R an r art' := by
  cases h with
  | present hR => exact ⟨⟨rfl, rfl, rfl⟩, .inl ⟨_, hR, rfl, rfl⟩⟩
  | added hR sound extended live =>
    exact ⟨extended.kept, .inr (.inl ⟨hR, rfl, _, sound_none_iff.mpr sound⟩)⟩
  | refused hR sound extended refused =>
    obtain ⟨k, -, hpool, -⟩ := refused
    exact ⟨extended.kept, .inr (.inr ⟨hR, rfl, ⟨_, sound_none_iff.mpr sound⟩, _, hpool⟩)⟩

theorem artInsert_ok (hs : Sound art tab R none) (hlevels : 0 < art.artLevels.length)
    (hle : an.anPlen ≤ art.artAlen) :
    ∃ r art', artInsert art an = some (r, art') ∧ Kept art art' ∧ Inserted art R an r art' := by
  obtain ⟨r, art', hrun, hins⟩ :=
    artInsert_held (sound_none_iff.mp hs) (fun _ _ => rfl) hlevels hle
  exact ⟨r, art', hrun, hins.inserted⟩

end Mbsd.Net.Allotment
