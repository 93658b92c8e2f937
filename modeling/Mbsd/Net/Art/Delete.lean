import Mbsd.Net.Art.Insert

/-! `art_delete`. -/

namespace Mbsd.Net.Allotment

open Lib.HeapIndex Lib.LongestPrefix Sys List Option Function ArtHeapEntry Art

variable {art art' : Art} {tab : Tables} {R : Routes} {π κ l : List Bool} {p q : Ptr} {m : Nat}
  {held : Ptr → Nat} {an : ArtNode} {tab' tab'' : Tables}

def withoutTable (art : Art) (p q : Ptr) (k : Nat) : Art :=
  { (art.setEntry q k (art.entry p artHeapIdxDefault)).modify p fun at_ =>
      { at_ with atParent := art.artTableGcList } with artTableGcList := some p }

theorem mem_withoutTable (art : Art) (p q : Ptr) (k : Nat) (c : Ptr) :
    (withoutTable art p q k).mem c =
      if c = p then { (art.setEntry q k (art.entry p artHeapIdxDefault)).mem p with
        atParent := art.artTableGcList }
      else (art.setEntry q k (art.entry p artHeapIdxDefault)).mem c :=
  mem_modify (art.setEntry q k (art.entry p artHeapIdxDefault)) p
    (fun at_ => { at_ with atParent := art.artTableGcList }) c

theorem shrunk_withoutTable (art : Art) (p q : Ptr) (k : Nat) :
    Shrunk art q k p (withoutTable art p q k) where
  root := rfl
  levels := rfl
  alen := rfl
  pool := rfl
  next := rfl
  place := by
    intro c hc
    rw [← art.place_setEntry q k (art.entry p artHeapIdxDefault), mem_withoutTable, if_neg hc]
  entry := by
    intro c j
    rw [← entry_setEntry, entry, mem_withoutTable]
    split
    next hc => rw [hc]; rfl
    · rfl
  refcnt := by
    intro c
    rw [← art.atRefcnt_setEntry q k (art.entry p artHeapIdxDefault), mem_withoutTable]
    split
    next hc => rw [hc]
    · rfl

def withoutRoot (art : Art) (p : Ptr) : Art :=
  { ({ art with artRoot := none } : Art).modify p fun at_ =>
      { at_ with atParent := art.artTableGcList } with artTableGcList := some p }

theorem mem_withoutRoot (art : Art) (p c : Ptr) : (withoutRoot art p).mem c =
      if c = p then { art.mem p with atParent := art.artTableGcList } else art.mem c :=
  mem_modify { art with artRoot := none } p
    (fun at_ => { at_ with atParent := art.artTableGcList }) c

theorem Vacant.no_routes (hval : Values art tab R) (hp : tab [] = some p)
    (hv : Vacant art tab R [] p) (ρ : List Bool) : R ρ = none := by
  by_contra hne
  obtain ⟨an, han⟩ := ne_none_iff_exists'.mp hne
  obtain ⟨π, q, hq, hhome⟩ := hval.stored han
  by_cases hπ : π = []
  · subst hπ
    rw [some.inj (hq.symm.trans hp)] at hhome
    exact hne (hv.routes ρ hhome)
  · rw [hv.below π nil_prefix hπ] at hq
    cases hq

theorem sound_withoutRoot (hs : SoundWith art tab R held) (hp : tab [] = some p)
    (hv : Vacant art tab R [] p) : SoundWith (withoutRoot art p) (fun _ => none) R held := by
  have hR := hv.no_routes hs.values hp
  refine ⟨⟨hs.shape.strides, hs.shape.sum, rfl, nofun, nofun, nofun, nofun, nofun, nofun, nofun,
    nofun, nofun⟩, ⟨nofun, nofun, fun hρ => ?_, hs.values.keyed⟩, nofun⟩
  rw [hR] at hρ
  cases hρ

theorem artTablePut_child (hs : SoundWith art tab R held) (hq : tab π = some q)
    (hl : l.length = (art.mem q).atBits) (hp : tab (π ++ l) = some p)
    (hzero : (art.mem p).atRefcnt = 0) :
    artTablePut art p = some (some q, withoutTable art p q (idx l)) := by
  have hlpos : l ≠ [] := length_pos_iff.mp (by rw [hl]; exact hs.shape.bits_pos hq)
  obtain ⟨hparent, hindex, hlevel⟩ := hs.shape.child hq hl hp
  have htwo := two_le_idx hlpos
  have hidx : idx l ≠ 0 ∧ idx l ≠ 1 := by omega
  have hno : idx l ≠ noIndex := by
    have hlt := (idx_lt_iff l 9).mpr (by
      rcases hs.shape.bits_cases hq with h4 | h8 <;> omega)
    rw [noIndex]
    omega
  have hrefs : (art.mem q).atRefcnt ≥ 1 := by
    have hchild : Child π (art.mem q).atBits (π ++ l) :=
      ⟨prefix_append π l, by rw [length_append, hl]⟩
    rw [hs.counted hq, ← refs_table_none (R := R) hchild (by rw [hp]; nofun)]
    push_cast
    omega
  simp only [artTablePut, hparent, hindex, hlevel, kassert_true hzero, kassert_true hidx,
    kassert_true hno, kassert_true hrefs, kassert_true trivial, bind_eq_bind, bind_some]
  rfl

theorem artTablePut_root (hs : SoundWith art tab R held) (hp : tab [] = some p)
    (hzero : (art.mem p).atRefcnt = 0) : artTablePut art p = some (none, withoutRoot art p) := by
  obtain ⟨hparent, hindex, hlevel⟩ := hs.shape.top hp
  have hidx : noIndex ≠ 0 ∧ noIndex ≠ 1 := by decide
  simp only [artTablePut, hparent, hindex, hlevel, kassert_true hzero, kassert_true hidx,
    kassert_true trivial, bind_eq_bind, bind_some]
  rfl

def released (art : Art) (p : Ptr) : Art :=
  art.modify p fun at_ => { at_ with atRefcnt := at_.atRefcnt - 1 }

theorem artTableRele_some (art : Art) (p : Ptr) : artTableRele art (some p) =
      (decide (((released art p).mem p).atRefcnt = 0), released art p) := rfl

theorem sameTables_released (art : Art) (p : Ptr) : SameTables art (released art p) :=
  sameTables_modify (f := (· - 1))

theorem SoundWith.released (hs : SoundWith art tab R (hold held p)) :
    SoundWith (released art p) tab R held := by
  have hsame := sameTables_released art p
  have hentry := art.entry_modify p (f := fun at_ => { at_ with atRefcnt := at_.atRefcnt - 1 })
    fun _ => rfl
  refine ⟨hs.shape.of_same hsame, hs.values.congr hsame hentry, fun {ρ c} hc => ?_⟩
  have hcnt := hs.counted hc
  rw [hold] at hcnt
  rw [hsame.bits, Allotment.released, mem_modify]
  by_cases hcp : c = p
  · subst hcp
    rw [if_pos rfl] at hcnt ⊢
    simp only [hcnt]
    push_cast
    omega
  · rw [if_neg hcp, Nat.add_zero] at hcnt
    rw [if_neg hcp, hcnt]

structure Pruned (art : Art) (tab : Tables) (held : Ptr → Nat) (art' : Art) (tab' : Tables) :
    Prop where
  kept : Kept art art'
  old : ∀ {π p}, tab' π = some p → tab π = some p
  place : ∀ {π p}, tab' π = some p → (art'.mem p).place = (art.mem p).place
  held : ∀ {π p}, tab π = some p → 0 < held p → tab' π = some p

theorem SameTables.pruned (h : SameTables art art') (tab : Tables) (held : Ptr → Nat) :
    Pruned art tab held art' tab :=
  ⟨h.kept, id, fun _ => h.place _, fun hp _ => hp⟩

theorem Pruned.trans {art'' : Art} (h : Pruned art tab held art' tab')
    (h' : Pruned art' tab' held art'' tab'') : Pruned art tab held art'' tab'' where
  kept := h.kept.trans h'.kept
  old := fun hp => h.old (h'.old hp)
  place := fun hp => (h'.place hp).trans (h.place (h'.old hp))
  held := fun hp hpos => h'.held (h.held hp hpos) hpos

theorem pruned_withoutTable (h : Shape art tab) (hp : tab (π ++ l) = some p) (hheld : held p = 0) :
    Pruned art tab held (withoutTable art p q (idx l)) (update tab (π ++ l) none) where
  kept := ⟨rfl, rfl, rfl⟩
  old := by
    intro ρ c hc
    rw [update_apply] at hc
    split at hc
    · cases hc
    · exact hc
  place := by
    intro ρ c hc
    rw [update_apply] at hc
    split at hc
    · cases hc
    next hne =>
      refine (shrunk_withoutTable art p q (idx l)).place c ?_
      rintro rfl
      exact hne (h.inj hc hp)
  held := by
    intro ρ c hc hpos
    rw [update_of_ne, hc]
    rintro rfl
    rw [some.inj (hc.symm.trans hp)] at hpos
    omega

inductive Collected (art : Art) : Ptr → Prop
  | first {p : Ptr} (h : art.artTableGcList = some p) : Collected art p
  | next {p q : Ptr} (hp : Collected art p) (h : (art.mem p).atParent = some q) : Collected art q

theorem Collected.of_same (h : Collected art' q) (hgc : art'.artTableGcList = art.artTableGcList)
    (hparent : ∀ c, Collected art c → (art'.mem c).atParent = (art.mem c).atParent) :
    Collected art q := by
  induction h with
  | first h => exact .first (hgc ▸ h)
  | next hp h ih => exact .next ih (hparent _ ih ▸ h)

theorem Collected.put (h : Collected art' q) (hgc : art'.artTableGcList = some p)
    (hlink : (art'.mem p).atParent = art.artTableGcList)
    (hparent : ∀ c, c ≠ p → (art'.mem c).atParent = (art.mem c).atParent) :
    q = p ∨ Collected art q := by
  induction h with
  | first h =>
    rw [hgc] at h
    exact .inl (some.inj h).symm
  | @next c q hc h ih =>
    by_cases hcp : c = p
    · subst hcp
      rw [hlink] at h
      exact .inr (.first h)
    · rw [hparent c hcp] at h
      exact .inr (.next (ih.resolve_left hcp) h)

structure Trimmed (art : Art) (tab : Tables) (held : Ptr → Nat) (art' : Art) (tab' : Tables) :
    Prop extends Pruned art tab held art' tab' where
  next : art'.next = art.next
  live : Live art tab → Live art' tab'
  gone : ∀ {q}, Collected art' q →
    Collected art q ∨ (∃ π, tab π = some q) ∧ ∀ π, tab' π ≠ some q

theorem Trimmed.trans {art'' : Art} (h : Trimmed art tab held art' tab')
    (h' : Trimmed art' tab' held art'' tab'') : Trimmed art tab held art'' tab'' where
  toPruned := h.toPruned.trans h'.toPruned
  next := h'.next.trans h.next
  live := fun hlive => h'.live (h.live hlive)
  gone := by
    intro q hq
    rcases h'.gone hq with hq | ⟨⟨π, hπ⟩, hno⟩
    · exact (h.gone hq).imp_right fun ⟨hsome, hno⟩ => ⟨hsome, fun π hπ => hno π (h'.old hπ)⟩
    · exact .inr ⟨⟨π, h.old hπ⟩, hno⟩

theorem SameTables.trimmed (h : SameTables art art')
    (hgc : art'.artTableGcList = art.artTableGcList) (tab : Tables) (held : Ptr → Nat)
    (hlive : Live art tab → Live art' tab) : Trimmed art tab held art' tab where
  toPruned := h.pruned tab held
  next := h.next
  live := hlive
  gone := fun hq => .inl (hq.of_same hgc fun c _ => h.parent c)

theorem released_of_ne {c : Ptr} (hc : c ≠ p) : (released art p).mem c = art.mem c :=
  (mem_modify ..).trans (if_neg hc)

theorem trimmed_withoutTable (h : Shape art tab) (hp : tab (π ++ l) = some p) (hheld : held p = 0) :
    Trimmed art tab held (withoutTable (released art p) p q (idx l))
      (update tab (π ++ l) none) where
  toPruned := ((sameTables_released art p).pruned tab held).trans
    (pruned_withoutTable (h.of_same (sameTables_released art p)) hp hheld)
  next := rfl
  live := by
    intro hlive ρ c hc
    rw [update_apply] at hc
    split at hc
    · cases hc
    next hne =>
      have hcp : c ≠ p := by
        rintro rfl
        exact hne (h.inj hc hp)
      rw [(shrunk_withoutTable (released art p) p q (idx l)).refcnt, released_of_ne hcp]
      exact hlive ρ c hc
  gone := by
    intro c hc
    have hplace (e : Ptr) (he : e ≠ p) :=
      ((shrunk_withoutTable (released art p) p q (idx l)).place e he).trans
        ((sameTables_released art p).place e)
    have hlink : ((withoutTable (released art p) p q (idx l)).mem p).atParent =
        art.artTableGcList := by
      rw [mem_withoutTable, if_pos rfl]
      rfl
    rcases hc.put rfl hlink fun e he => congrArg Place.parent (hplace e he) with rfl | hc
    · refine .inr ⟨⟨_, hp⟩, fun ρ hρ => ?_⟩
      rw [update_apply] at hρ
      split at hρ
      · cases hρ
      next hne => exact hne (h.inj hρ hp)
    · exact .inl hc

theorem trimmed_withoutRoot (hs : SoundWith (released art p) tab R held) (hp : tab [] = some p)
    (hv : Vacant (released art p) tab R [] p) (hheld : held p = 0) :
    Trimmed art tab held (withoutRoot (released art p) p) fun _ => none where
  kept := ⟨rfl, rfl, rfl⟩
  old := nofun
  place := nofun
  held := by
    intro ρ c hc hpos
    by_cases hρ : ρ = []
    · subst hρ
      rw [some.inj (hc.symm.trans hp)] at hpos
      omega
    · rw [hv.below ρ nil_prefix hρ] at hc
      cases hc
  next := rfl
  live := fun _ => nofun
  gone := by
    intro c hc
    have hparent (e : Ptr) (he : e ≠ p) :
        ((withoutRoot (released art p) p).mem e).atParent = (art.mem e).atParent := by
      rw [mem_withoutRoot, if_neg he, released_of_ne he]
    have hlink : ((withoutRoot (released art p) p).mem p).atParent = art.artTableGcList := by
      rw [mem_withoutRoot, if_pos rfl]
      rfl
    rcases hc.put rfl hlink hparent with rfl | hc
    · exact .inr ⟨⟨_, hp⟩, nofun⟩
    · exact .inl hc

section

variable (hs : SoundWith art tab R (hold held p)) (hp : tab π = some p)

include hs hp

theorem artTableFreeLoop_trims {fuel : Nat} (hfuel : (art.mem p).atLevel + 2 ≤ fuel) :
    ∃ art' tab', artTableFreeLoop fuel (some p) art = some art' ∧ SoundWith art' tab' R held ∧
      Trimmed art tab held art' tab' := by
  induction fuel generalizing art tab π p with
  | zero => omega
  | succ fuel ih =>
    have hs1 := hs.released
    have hsame := sameTables_released art p
    by_cases hzero : ((released art p).mem p).atRefcnt = 0
    · have hrele : artTableRele art (some p) = (true, released art p) :=
        congrArg (·, released art p) (decide_eq_true hzero)
      have hrun : artTableFreeLoop (fuel + 1) (some p) art =
          (artTablePut (released art p) p).bind fun r => artTableFreeLoop fuel r.1 r.2 := by
        rw [artTableFreeLoop.eq_def]
        simp only [hrele]
        rfl
      obtain ⟨hvacant, hheld⟩ := hs1.vacant hp hzero
      by_cases hπ : π = []
      · subst hπ
        rw [hrun, artTablePut_root hs1 hp hzero]
        obtain ⟨fuel, rfl⟩ := Nat.exists_eq_add_of_le' (show 1 ≤ fuel by omega)
        exact ⟨_, _, rfl, sound_withoutRoot hs1 hp hvacant,
          trimmed_withoutRoot hs1 hp hvacant hheld⟩
      · obtain ⟨π₀, l, q, hq, hl, rfl⟩ := hs1.shape.parent hp hπ
        have hg := shrunk_withoutTable (released art p) p q (idx l)
        have hs2 := hg.sound hs1.shape hq hl hp hvacant hs1
        have hqp : q ≠ p := by
          rintro rfl
          have heq := hs1.shape.inj hq hp
          rw [self_eq_append_right] at heq
          have hpos := hs1.shape.bits_pos hq
          rw [heq, length_nil] at hl
          omega
        have hlpos : π₀ ≠ π₀ ++ l := fun heq => hqp (by
          rw [← heq] at hp
          exact some.inj (hq.symm.trans hp))
        have hlvl : ((released art p).mem p).atLevel = ((released art p).mem q).atLevel + 1 :=
          (hs1.shape.child hq hl hp).2.2
        have hlvl2 : ((withoutTable (released art p) p q (idx l)).mem q).atLevel =
            ((released art p).mem q).atLevel := congrArg Place.level (hg.place q hqp)
        have hlvl1 := hsame.level p
        obtain ⟨art', tab', hloop, hs', htrimmed⟩ :=
          ih hs2 (by rw [update_of_ne hlpos, hq]) (by omega)
        refine ⟨art', tab', ?_, hs', (trimmed_withoutTable hs.shape hp hheld).trans htrimmed⟩
        rw [hrun, artTablePut_child hs1 hq hl hp hzero]
        exact hloop
    · have hrele : artTableRele art (some p) = (false, released art p) :=
        congrArg (·, released art p) (decide_eq_false hzero)
      refine ⟨released art p, tab, ?_, hs1, hsame.trimmed rfl tab held fun hlive ρ c hc => ?_⟩
      · rw [artTableFreeLoop.eq_def]
        simp only [hrele]
      · by_cases hcp : c = p
        · have hcnt := hs1.counted hc
          rw [hcp] at hcnt ⊢
          omega
        · rw [released_of_ne hcp]
          exact hlive ρ c hc

theorem artTableFree_trims :
    ∃ art' tab', artTableFree art p = some art' ∧ SoundWith art' tab' R held ∧
      Trimmed art tab held art' tab' := by
  have hlevel := (hs.shape.table hp).level
  exact artTableFreeLoop_trims hs hp (by omega)

theorem artTableFree_ok : ∃ art' tab', artTableFree art p = some art' ∧ SoundWith art' tab' R held ∧
      Pruned art tab held art' tab' := by
  obtain ⟨art', tab', hrun, hs', htrimmed⟩ := artTableFree_trims hs hp
  exact ⟨art', tab', hrun, hs', htrimmed.toPruned⟩

end

section DeleteLoop

variable {addr : List UInt8} {plen : Nat}

theorem artDeleteLoop_ok {fuel : Nat} (h : Shape art tab) (hp : tab (bitsOf addr m) = some p)
    (hm : m < plen) (hfuel : art.artLevels.length ≤ (art.mem p).atLevel + fuel) :
    ∃ r, artDeleteLoop art addr plen fuel p = some r ∧
      (r = none → ¬∃ q, TableFor art tab (bitsOf addr plen) q) ∧
      ∀ q, r = some q → TableFor art tab (bitsOf addr plen) q := by
  induction fuel generalizing p m with
  | zero =>
    have hlevel := (h.table hp).level
    omega
  | succ fuel ih =>
    have hoff := h.offset_eq hp
    rw [artDeleteLoop]
    by_cases hlt : m + (art.mem p).atBits < plen
    · have hlt' : (art.mem p).atOffset + (art.mem p).atBits < plen := by rwa [hoff]
      obtain ⟨l, -, -, hidx, ⟨c, hent, hc, hlvl⟩ | ⟨ahe, hent, -, hmissing⟩⟩ := h.descend hp hlt
      · simp only [if_pos hlt', hidx, bind_eq_bind, bind_some, hent]
        exact ih hc hlt (by omega)
      · simp only [if_pos hlt', hidx, bind_eq_bind, bind_some, hent]
        exact ⟨none, rfl, fun _ => hmissing, nofun⟩
    · have hge : ¬(art.mem p).atOffset + (art.mem p).atBits < plen := by rwa [hoff]
      refine ⟨some p, if_neg hge, nofun, fun q hq => ?_⟩
      obtain rfl := some.inj hq
      exact tableFor_of_le hp hm (Nat.not_lt.mp hlt)

theorem next_route (h : Shape art tab) (hv : Values art tab R) (hq : tab π = some q) (hpos : l ≠ [])
    (hl : l.length ≤ (art.mem q).atBits) :
    (if idx l >>> 1 > 1 then art.entry q (idx l >>> 1) else .node none) =
      .node (routeAt (update R (π ++ l) none) π l) := by
  obtain ⟨l', b, rfl⟩ : ∃ l' b, l = l' ++ [b] :=
    ⟨l.dropLast, l.getLast hpos, (dropLast_append_getLast hpos).symm⟩
  have hlen : (π ++ (l' ++ [b])).length = (π ++ l').length + 1 := by simp [Nat.add_assoc]
  rw [idx_snoc_shiftRight, routeAt_update_self hpos, none_or,
    longest_append_prefix (prefix_append l' [b]) R _ (Nat.le_of_eq hlen), hlen]
  by_cases hnil : l' = []
  · subst hnil
    rw [if_neg (by rw [idx_nil]; omega), append_nil, longest_self]
  · have hlt : l'.length < (art.mem q).atBits := by
      rw [length_append, length_singleton] at hl
      omega
    have hslot := hv.slot hq hnil (Nat.le_of_lt hlt)
    rw [slotVal, h.slot_inner hq hlt] at hslot
    rw [if_pos (show idx l' > 1 from two_le_idx hnil), hslot]
    rfl

theorem artDeleteAt_trims (hs : SoundWith art tab R held)
    (hq : TableFor art tab (bitsOf addr plen) q) (hR : R (bitsOf addr plen) = some an) :
    ∃ art' tab', artDeleteAt art q addr plen = some (some an, art') ∧
      SoundWith art' tab' (update R (bitsOf addr plen) none) held ∧
      Trimmed art tab held art' tab' := by
  obtain ⟨π, l, hp, hκ, hpos, hl⟩ := hq
  rw [hκ] at hR
  have hroute : routeAt R π l = some an := routeAt_of_some hpos hR
  obtain ⟨art1, hrun, hsame, hcnt, hv⟩ :=
    hs.values.change (v := none) hs.shape hp hpos hl nofun
  have hs1 : SoundWith art1 tab (update R (π ++ l) none) (hold held q) :=
    ⟨hs.shape.of_same hsame, hv,
      hs.counted_delete hp (home_append hpos hl) (by rw [hR]; nofun) hsame hcnt⟩
  have hgc : art1.artTableGcList = art.artTableGcList := by
    split at hrun
    · exact artAllot_gcList hrun
    · exact some.inj hrun ▸ rfl
  obtain ⟨art2, tab2, hfree, hs2, htrimmed⟩ := artTableFree_trims hs1 hp
  refine ⟨art2, tab2, ?_, hκ ▸ hs2, (hsame.trimmed hgc tab held fun hlive ρ c hc => by
    rw [hcnt]
    exact hlive ρ c hc).trans htrimmed⟩
  rw [artDeleteAt, hs.shape.bindex_for hp hκ hl]
  simp only [bind_eq_bind, bind_some, hs.values.slot_route hp hpos hl, hroute,
    toNode, next_route hs.shape hs.values hp hpos hl]
  rw [hroute, setSlot] at hrun
  split at hrun
  next hlt =>
    rw [if_pos hlt, hrun]
    simp only [bind_some, hfree]
  next hge =>
    rw [if_neg hge, some.inj hrun, hfree]
    rfl

section

variable (hs : Sound art tab R none) (hp : tab π = some q) (hκ : bitsOf addr plen = π ++ l)
  (hpos : l ≠ []) (hl : l.length ≤ (art.mem q).atBits)

include hs hp hκ hpos hl

theorem artDeleteAt_seen (hroute : routeAt R π l = some an) (r : Option ArtNode) (art' : Art)
    (hrun : artDeleteAt art q addr plen = some (r, art')) : r = some an := by
  rw [artDeleteAt, hs.shape.bindex_for hp hκ hl] at hrun
  simp only [bind_eq_bind, bind_some, hs.values.slot_route hp hpos hl, hroute, toNode] at hrun
  split at hrun
  · obtain ⟨art1, -, hrun⟩ := bind_eq_some_iff.mp hrun
    obtain ⟨art2, -, hrun⟩ := bind_eq_some_iff.mp hrun
    exact (congrArg Prod.fst (some.inj hrun)).symm
  · obtain ⟨art2, -, hrun⟩ := bind_eq_some_iff.mp hrun
    exact (congrArg Prod.fst (some.inj hrun)).symm

theorem artDeleteAt_unseen (hroute : routeAt R π l = none) :
    artDeleteAt art q addr plen = some (none, art) := by
  rw [artDeleteAt, hs.shape.bindex_for hp hκ hl]
  simp only [bind_eq_bind, bind_some, hs.values.slot_route hp hpos hl, hroute, toNode]

end

section

variable (hs : SoundWith art tab R held)

include hs

theorem SoundWith.delete_default {root : Ptr} (hroot : tab [] = some root) (hR : R [] = some an) :
    art.entry root artHeapIdxDefault = .node (some an) ∧
      SameTables art (art.setEntry root artHeapIdxDefault (.node none)) ∧
      SoundWith (art.setEntry root artHeapIdxDefault (.node none)) tab
        (update R [] none) (hold held root) := by
  have h := hs.shape
  have hset : SameTables art (art.setEntry root artHeapIdxDefault (.node none)) :=
    sameTables_setEntry (h.default_ne_heap hroot)
  exact ⟨hR ▸ hs.values.default hroot, hset, h.of_same hset, hs.values.change_default h hroot nofun,
    hs.counted_delete hroot home_nil (by rw [hR]; nofun) hset fun q => art.atRefcnt_setEntry ..⟩

theorem SoundWith.delete_found {root : Ptr}
    (hroot : tab [] = some root) (hplen : plen ≠ 0) (hR : R (bitsOf addr plen) = some an) :
    ∃ at_, artDeleteLoop art addr plen art.artLevels.length root = some (some at_) ∧
      TableFor art tab (bitsOf addr plen) at_ := by
  have hne : bitsOf addr plen ≠ [] := fun hnil => hplen (by
    rw [← length_bitsOf addr plen, hnil, length_nil])
  have hroot' : tab (bitsOf addr 0) = some root := hroot
  obtain ⟨r, hloop, hmissing, hfor⟩ := artDeleteLoop_ok hs.shape hroot' (Nat.pos_of_ne_zero hplen)
    (show art.artLevels.length ≤ (art.mem root).atLevel + art.artLevels.length by omega)
  cases r with
  | none => exact absurd (hs.values.tableFor hR hne) (hmissing rfl)
  | some at_ => exact ⟨at_, hloop, hfor at_ rfl⟩

theorem artDelete_trims (hle : plen ≤ art.artAlen) (hR : R (bitsOf addr plen) = some an) :
    ∃ art' tab', artDelete art addr plen = some (some an, art') ∧
      SoundWith art' tab' (update R (bitsOf addr plen) none) held ∧
      Trimmed art tab held art' tab' := by
  have h := hs.shape
  obtain ⟨π, q, hq, -⟩ := hs.values.stored hR
  obtain ⟨root, hroot⟩ := ne_none_iff_exists'.mp (h.rooted hq)
  rw [artDelete, kassert_true hle]
  simp only [bind_eq_bind, bind_some, h.root, hroot]
  by_cases hplen : plen = 0
  · subst hplen
    obtain ⟨hdefault, hset, hs1⟩ := hs.delete_default hroot hR
    obtain ⟨art', tab', hfree, hs', htrimmed⟩ := artTableFree_trims hs1 hroot
    refine ⟨art', tab', ?_, hs', (hset.trimmed rfl tab held fun hlive ρ c hc => by
      rw [atRefcnt_setEntry]
      exact hlive ρ c hc).trans htrimmed⟩
    simp only [if_true, hdefault, toNode, hfree, bind_some]
  · obtain ⟨at_, hloop, hfor⟩ := hs.delete_found hroot hplen hR
    simp only [if_neg hplen, hloop, bind_some]
    exact artDeleteAt_trims hs hfor hR

theorem artDelete_held (hle : plen ≤ art.artAlen) (hR : R (bitsOf addr plen) = some an) :
    ∃ art' tab', artDelete art addr plen = some (some an, art') ∧
      SoundWith art' tab' (update R (bitsOf addr plen) none) held ∧
      Pruned art tab held art' tab' := by
  obtain ⟨art', tab', hrun, hs', htrimmed⟩ := artDelete_trims hs hle hR
  exact ⟨art', tab', hrun, hs', htrimmed.toPruned⟩

end

theorem artDelete_present (hs : Sound art tab R none) (hle : plen ≤ art.artAlen)
    (hR : R (bitsOf addr plen) = some an) :
    ∃ art' tab', artDelete art addr plen = some (some an, art') ∧
      Sound art' tab' (update R (bitsOf addr plen) none) none ∧ Kept art art' := by
  obtain ⟨art', tab', hrun, hs', hpruned⟩ := artDelete_held (sound_none_iff.mp hs) hle hR
  exact ⟨art', tab', hrun, sound_none_iff.mpr hs', hpruned.kept⟩

/-- Whether a shorter route of the table that an absent prefix belongs to covers the prefix. -/
def Seen (art : Art) (tab : Tables) (R : Routes) (κ : List Bool) : Prop :=
  ∃ π l q, tab π = some q ∧ κ = π ++ l ∧ l ≠ [] ∧ l.length ≤ (art.mem q).atBits ∧
    routeAt R π l ≠ none

theorem artDelete_absent (hs : Sound art tab R none) (hle : plen ≤ art.artAlen)
    (hR : R (bitsOf addr plen) = none) :
    (¬Seen art tab R (bitsOf addr plen) → artDelete art addr plen = some (none, art)) ∧
      (Seen art tab R (bitsOf addr plen) →
        ∀ art', artDelete art addr plen ≠ some (none, art')) := by
  have h := hs.shape
  rw [artDelete, kassert_true hle]
  simp only [bind_eq_bind, bind_some, h.root]
  cases hroot : tab [] with
  | none =>
    refine ⟨fun _ => rfl, fun hseen => ?_⟩
    obtain ⟨π, l, q, hq, -⟩ := hseen
    rw [h.empty hroot] at hq
    cases hq
  | some root =>
    by_cases hplen : plen = 0
    · subst hplen
      have hdefault := hs.values.default hroot
      rw [show R [] = none from hR] at hdefault
      simp only [if_true, hdefault, toNode]
      refine ⟨fun _ => trivial, fun hseen => ?_⟩
      obtain ⟨π, l, q, -, hnil, hl, -⟩ := hseen
      exact absurd (append_eq_nil_iff.mp hnil.symm).2 hl
    · have hroot' : tab (bitsOf addr 0) = some root := hroot
      obtain ⟨r, hloop, hmissing, hfor⟩ := artDeleteLoop_ok h hroot' (Nat.pos_of_ne_zero hplen)
        (show art.artLevels.length ≤ (art.mem root).atLevel + art.artLevels.length by omega)
      simp only [if_neg hplen, hloop, bind_some]
      cases r with
      | none =>
        refine ⟨fun _ => rfl, fun hseen => ?_⟩
        obtain ⟨π, l, q, hq, hκ, hpos, hl, -⟩ := hseen
        exact absurd ⟨q, π, l, hq, hκ, hpos, hl⟩ (hmissing rfl)
      | some at_ =>
        obtain ⟨π, l, hq, hκ, hpos, hl⟩ := hfor at_ rfl
        refine ⟨fun hunseen => ?_, fun hseen art' hrun => ?_⟩
        · refine artDeleteAt_unseen hs hq hκ hpos hl ?_
          by_contra hroute
          exact hunseen ⟨π, l, at_, hq, hκ, hpos, hl, hroute⟩
        · obtain ⟨π', l', q', hq', hκ', hpos', hl', hroute⟩ := hseen
          rw [hκ] at hκ'
          have heq : π = π' := h.home_unique hq hq' (home_append hpos hl)
            (hκ' ▸ home_append hpos' hl')
          subst heq
          obtain rfl := append_cancel_left hκ'
          obtain ⟨an, han⟩ := ne_none_iff_exists'.mp hroute
          cases artDeleteAt_seen hs hq hκ hpos hl han none art' hrun

end DeleteLoop

end Mbsd.Net.Allotment
