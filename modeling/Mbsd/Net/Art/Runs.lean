import Mbsd.Net.Art.Delete

/-! `art_match` and `art_lookup`. -/

namespace Mbsd.Net.Allotment

open Lib.HeapIndex Lib.LongestPrefix Sys List Option ArtHeapEntry Function

variable {art : Art} {tab : Tables} {R : Routes} {π κ l : List Bool} {p q : Ptr} {m plen : Nat}
  {addr : List UInt8} {levels : List Nat}

theorem Shape.drop_levels (h : Shape art tab) (hp : tab π = some p) :
    art.artLevels.drop (art.mem p).atLevel =
      (art.mem p).atBits :: art.artLevels.drop ((art.mem p).atLevel + 1) := by
  have hlevel := (h.table hp).level
  rw [drop_eq_getElem_cons hlevel, (h.table hp).bits, getD_eq_getElem?_getD,
    getElem?_eq_getElem hlevel, getD_some]

theorem artLookupLoop_ok (h : Shape art tab) (hp : tab (bitsOf addr m) = some p) (hm : m < plen)
    (hlevels : levels = art.artLevels.drop (art.mem p).atLevel) :
    ∃ r, artLookupLoop art addr plen levels m p = some r ∧
      (r = none → ¬∃ q, TableFor art tab (bitsOf addr plen) q) ∧
      ∀ t, r = some t → t.1 = (art.mem t.2.2).atOffset ∧ t.2.1 = (art.mem t.2.2).atBits ∧
        TableFor art tab (bitsOf addr plen) t.2.2 := by
  induction levels generalizing p m with
  | nil =>
    rw [h.drop_levels hp] at hlevels
    cases hlevels
  | cons bits levels ih =>
    have hoff := h.offset_eq hp
    rw [h.drop_levels hp] at hlevels
    obtain ⟨rfl, rfl⟩ := cons.inj hlevels
    rw [artLookupLoop]
    by_cases hle : plen ≤ m + (art.mem p).atBits
    · refine ⟨some (m, (art.mem p).atBits, p), if_pos hle, nofun, fun t ht => ?_⟩
      obtain rfl := some.inj ht
      exact ⟨hoff.symm, rfl, tableFor_of_le hp hm hle⟩
    · obtain ⟨l, -, -, hidx, ⟨c, hent, hc, hlvl⟩ | ⟨ahe, hent, -, hmissing⟩⟩ :=
        h.descend hp (Nat.not_le.mp hle)
      · rw [hoff] at hidx
        simp only [if_neg hle, hidx, bind_eq_bind, bind_some, hent]
        exact ih hc (Nat.not_le.mp hle) (by rw [hlvl])
      · rw [hoff] at hidx
        simp only [if_neg hle, hidx, bind_eq_bind, bind_some, hent]
        exact ⟨none, rfl, fun _ => hmissing, nofun⟩

theorem check_routeAt (hv : Values art tab R) (hκ : bitsOf addr plen = π ++ l) (hpos : l ≠ []) :
    (routeAt R π l).filter (fun an => artNodeCheck an addr plen) = R (bitsOf addr plen) := by
  rw [hκ]
  cases hR : R (π ++ l) with
  | some an =>
    have hcheck : artNodeCheck an addr plen = true :=
      artNodeCheck_iff.mpr ((hv.keyed _ _ hR).trans hκ.symm)
    rw [routeAt_of_some hpos hR, filter_some, if_pos hcheck]
  | none =>
    rw [filter_eq_none_iff]
    intro an han hcheck
    have hstands := routeAt_stands hv.keyed han ((artNodeCheck_iff.mp hcheck).trans hκ)
    rw [hR] at hstands
    cases hstands

theorem artLookup_eq (h : Shape art tab) (hv : Values art tab R) (hle : plen ≤ art.artAlen) :
    artLookup art addr plen = some (R (bitsOf addr plen)) := by
  rw [artLookup, kassert_true hle]
  simp only [bind_eq_bind, bind_some, h.root]
  cases hroot : tab [] with
  | none =>
    cases hR : R (bitsOf addr plen) with
    | none => rfl
    | some an =>
      obtain ⟨π, q, hq, -⟩ := hv.stored hR
      exact absurd hroot (h.rooted hq)
  | some root =>
    by_cases hplen : plen = 0
    · subst hplen
      simp only [if_true, hv.default hroot]
      rfl
    have hroot' : tab (bitsOf addr 0) = some root := hroot
    have hlevel := (h.top hroot).2.2
    obtain ⟨r, hloop, hmissing, hfor⟩ := artLookupLoop_ok h hroot' (Nat.pos_of_ne_zero hplen)
      (show art.artLevels = art.artLevels.drop (art.mem root).atLevel by
        rw [hlevel, drop_zero])
    simp only [if_neg hplen, hloop, bind_some]
    cases r with
    | none =>
      cases hR : R (bitsOf addr plen) with
      | none => rfl
      | some an =>
        refine absurd (hv.tableFor hR fun hnil => hplen ?_) (hmissing rfl)
        rw [← length_bitsOf addr plen, hnil, length_nil]
    | some t =>
      obtain ⟨offset, bits, at_⟩ := t
      obtain ⟨hoff, hbits, π, l, hq, hκ, hpos, hl⟩ := hfor _ rfl
      simp only at hoff hbits hq hl
      subst hoff hbits
      simp only [h.bindex_for hq hκ hl, bind_some, hv.slot_route hq hpos hl, toNode]
      rw [← check_routeAt hv hκ hpos]
      cases routeAt R π l with
      | none => rfl
      | some an => simp only [filter_some]

def best (R : Routes) (addr : List UInt8) (alen m : Nat) : Option ArtNode :=
  longest R (bitsOf addr alen) 0 (m + 1)

theorem best_step (hsplit : bitsOf addr m ++ l = bitsOf addr (m + l.length))
    (hle : m + l.length ≤ plen) :
    best R addr plen (m + l.length) = (routeAt R (bitsOf addr m) l).or (best R addr plen m) := by
  rw [best, best, longest_append (Nat.zero_le _) (show m + 1 ≤ m + l.length + 1 by omega), routeAt,
    hsplit, length_bitsOf, length_bitsOf]
  congr 1
  refine longest_congr fun j _ hlt => ?_
  rw [take_bitsOf addr (by omega), take_bitsOf addr (by omega)]

theorem Shape.covers_le (h : Shape art tab) (hp : tab π = some p) :
    π.length + (art.mem p).atBits ≤ art.artAlen := by
  rw [← h.sum_take_succ hp, ← h.sum]
  conv_rhs => rw [← take_append_drop ((art.mem p).atLevel + 1) art.artLevels]
  rw [sum_append]
  exact Nat.le_add_right _ _

structure ValuesFor (art : Art) (tab : Tables) (R : Routes) (addr : List UInt8) : Prop where
  slot : ∀ {m p l}, tab (bitsOf addr m) = some p → l.length = (art.mem p).atBits →
    bitsOf addr m ++ l = bitsOf addr (m + (art.mem p).atBits) →
    art.slotVal p (idx l) = .node (routeAt R (bitsOf addr m) l)
  default : ∀ {p}, tab [] = some p → art.entry p artHeapIdxDefault = .node (R [])
  stored : ∀ {ρ an}, R ρ = some an → ∃ π p, tab π = some p ∧ Home π (art.mem p).atBits ρ

theorem Values.valuesFor (h : Shape art tab) (hv : Values art tab R) (addr : List UInt8) :
    ValuesFor art tab R addr where
  slot := by
    intro m p l hp hlen _
    have hpos : l ≠ [] := length_pos_iff.mp (by rw [hlen]; exact h.bits_pos hp)
    exact hv.slot hp hpos (Nat.le_of_eq hlen)
  default := hv.default
  stored := hv.stored

section

variable (h : Shape art tab) (hv : ValuesFor art tab R addr)

include h hv

theorem best_end (hp : tab (bitsOf addr m) = some p) (hleaf : ∀ l, l.length = (art.mem p).atBits →
      bitsOf addr m ++ l = bitsOf addr (m + (art.mem p).atBits) →
        ∀ c, art.entry p (idx l) ≠ .heap c) :
    best R addr art.artAlen art.artAlen = best R addr art.artAlen (m + (art.mem p).atBits) := by
  have hcover := h.covers_le hp
  rw [length_bitsOf] at hcover
  rw [best, longest_append (Nat.zero_le _)
    (show m + (art.mem p).atBits + 1 ≤ art.artAlen + 1 by omega), longest_eq_none.mpr, best,
    none_or]
  intro plen hlo hlt
  rw [take_bitsOf addr (by omega)]
  by_contra hne
  obtain ⟨an, han⟩ := ne_none_iff_exists'.mp hne
  obtain ⟨π, q, hq, hhome⟩ := hv.stored han
  have htable := hhome.tableFor hq fun hnil => by
    have hlen := length_bitsOf addr plen
    rw [hnil, length_nil] at hlen
    omega
  obtain ⟨l, hlen, hsplit, -, ⟨c, hent, -, -⟩ | ⟨ahe, hent, -, hmissing⟩⟩ :=
    h.descend hp (show m + (art.mem p).atBits < plen by omega)
  · exact hleaf l hlen hsplit c hent
  · exact hmissing ⟨q, htable⟩

theorem artMatchLoop_eq {dahe : ArtHeapEntry}
    (hp : tab (bitsOf addr m) = some p) (hlevels : levels = art.artLevels.drop (art.mem p).atLevel)
    (hdahe : ∀ d, art.entry p artHeapIdxDefault = .node d →
      d.or dahe.toNode = best R addr art.artAlen m) :
    artMatchLoop art addr levels m p dahe = some (best R addr art.artAlen art.artAlen) := by
  induction levels generalizing p m dahe with
  | nil =>
    rw [h.drop_levels hp] at hlevels
    cases hlevels
  | cons bits levels ih =>
    have hcover := h.covers_le hp
    rw [length_bitsOf] at hcover
    rw [h.drop_levels hp] at hlevels
    obtain ⟨rfl, rfl⟩ := cons.inj hlevels
    obtain ⟨l, hlen, hsplit, hidx, hnext⟩ := h.stride hp
    have hslot := hv.slot hp hlen hsplit
    have hbest : best R addr art.artAlen (m + (art.mem p).atBits) =
        (routeAt R (bitsOf addr m) l).or (best R addr art.artAlen m) := by
      rw [← hlen]
      exact best_step (hlen.symm ▸ hsplit) (by omega)
    obtain ⟨d, hd⟩ : ∃ d, art.entry p artHeapIdxDefault = .node d := by
      cases hd : art.entry p artHeapIdxDefault with
      | node d => exact ⟨d, rfl⟩
      | heap c => exact absurd hd (h.default_ne_heap hp c)
    have hnow : (if art.entry p artHeapIdxDefault ≠ .node none then
        art.entry p artHeapIdxDefault else dahe).toNode = best R addr art.artAlen m := by
      rw [← hdahe d hd, hd]
      cases d with
      | none => rfl
      | some an => rfl
    rw [artMatchLoop]
    simp only [hidx, bind_eq_bind, bind_some]
    cases hent : art.entry p (idx l) with
    | heap c =>
      obtain ⟨hc, hlvl⟩ := hnext c hent
      refine ih hc (by rw [hlvl]) fun d' hd' => ?_
      rw [Art.slotVal, Art.slot, hent] at hslot
      rw [hslot, node.injEq] at hd'
      rw [hnow, hbest, hd']
    | node ahe =>
      rw [Art.slotVal, Art.slot, hent] at hslot
      have hroute : ahe = routeAt R (bitsOf addr m) l := by
        rw [hent, node.injEq] at hslot
        exact hslot
      have hend := best_end h hv hp fun l' _ hsplit' c hc => by
        rw [append_cancel_left (hsplit'.trans hsplit.symm), hent] at hc
        cases hc
      rw [hend, hbest, ← hroute]
      cases ahe with
      | some an => rfl
      | none => simp only [hnow, none_or]

theorem artMatch_eq :
    artMatch art addr = some (longest R (bitsOf addr art.artAlen) 0 (art.artAlen + 1)) := by
  rw [artMatch, h.root]
  cases hroot : tab [] with
  | none =>
    have hnone : longest R (bitsOf addr art.artAlen) 0 (art.artAlen + 1) = none := by
      refine longest_eq_none.mpr fun j _ _ => ?_
      by_contra hne
      obtain ⟨an, han⟩ := ne_none_iff_exists'.mp hne
      obtain ⟨π, q, hq, -⟩ := hv.stored han
      exact h.rooted hq hroot
    rw [hnone]
  | some root =>
    have hroot' : tab (bitsOf addr 0) = some root := hroot
    have hlevel := (h.top hroot).2.2
    refine artMatchLoop_eq h hv hroot' (by rw [hlevel, drop_zero]) fun d hd => ?_
    rw [hv.default hroot, node.injEq] at hd
    rw [← hd, best, longest_succ (Nat.zero_le _), take_bitsOf addr (Nat.zero_le _), longest]
    rfl

/-! What a routing table answers after any calls of `art_insert` and `art_delete`. -/

end

open Nat

variable {pool : Ptr → Bool} {alen plen : Nat} {art art' : Art} {R : Routes} {addr : List UInt8}
  {an : ArtNode} {r : Option ArtNode} {κ : List Bool}

def Routes.insert (R : Routes) (an : ArtNode) (r : Option ArtNode) : Routes :=
  if R an.bits = none ∧ r ≠ none then Function.update R an.bits (some an) else R

/-- A routing table after some calls, with the routes that were inserted and not deleted since.
Only routes that are present are deleted. -/
inductive Reachable (pool : Ptr → Bool) (alen : Nat) : Art → Routes → Prop
  | init {art : Art} (h : artInit pool alen = some art) : Reachable pool alen art fun _ => none
  | insert {art art' : Art} {R : Routes} {an : ArtNode} {r : Option ArtNode}
      (h : Reachable pool alen art R) (hle : an.anPlen ≤ alen)
      (hrun : artInsert art an = some (r, art')) : Reachable pool alen art' (R.insert an r)
  | delete {art art' : Art} {R : Routes} {addr : List UInt8} {plen : Nat} {r : Option ArtNode}
      (h : Reachable pool alen art R) (hle : plen ≤ alen) (hR : R (bitsOf addr plen) ≠ none)
      (hrun : artDelete art addr plen = some (r, art')) :
      Reachable pool alen art' (Function.update R (bitsOf addr plen) none)

structure Good (pool : Ptr → Bool) (alen : Nat) (art : Art) (R : Routes) : Prop where
  pool : art.pool = pool
  alen : art.artAlen = alen
  levels : 0 < art.artLevels.length
  sound : ∃ tab, Sound art tab R none

theorem Good.kept {R' : Routes} (h : Good pool alen art R) (hkept : Kept art art')
    (hs : ∃ tab, Sound art' tab R' none) : Good pool alen art' R' :=
  ⟨hkept.pool.trans h.pool, hkept.alen.trans h.alen, by rw [hkept.levels]; exact h.levels, hs⟩

theorem artLevelsOf_strides {levels : List Nat} (h : artLevelsOf alen = some levels) :
    Strides levels ∧ levels.sum = alen ∧ 0 < levels.length := by
  unfold artLevelsOf at h
  split at h <;> cases h
  · exact ⟨by unfold Strides; decide, by decide, by decide⟩
  · exact ⟨by unfold Strides; decide, by decide, by decide⟩
  · exact ⟨by unfold Strides; decide, by decide, by decide⟩

theorem good_init (h : artInit pool alen = some art) : Good pool alen art fun _ => none := by
  rw [artInit] at h
  obtain ⟨levels, hlevels, h⟩ := bind_eq_some_iff.mp h
  obtain ⟨-, -, h⟩ := bind_eq_some_iff.mp h
  obtain ⟨hstrides, hsum, hpos⟩ := artLevelsOf_strides hlevels
  obtain rfl := some.inj h
  exact ⟨rfl, rfl, hpos, fun _ => none, ⟨hstrides, hsum, rfl, nofun, nofun, nofun, nofun, nofun,
    nofun, nofun, nofun, nofun⟩, ⟨nofun, nofun, nofun, nofun⟩, nofun⟩

theorem Inserted.routes (h : Inserted art R an r art') (hs : ∃ tab, Sound art tab R none) :
    ∃ tab, Sound art' tab (R.insert an r) none := by
  rw [Routes.insert]
  rcases h with ⟨oan, hR, -, rfl⟩ | ⟨hR, rfl, hs'⟩ | ⟨hR, rfl, hs', -⟩
  · rwa [if_neg fun hc => by rw [hR] at hc; cases hc.1]
  · rwa [if_pos ⟨hR, nofun⟩]
  · rwa [if_neg fun hc => hc.2 rfl]

section

variable (h : Good pool alen art R)

include h

theorem Good.insert (hle : an.anPlen ≤ alen) :
    ∃ r art', artInsert art an = some (r, art') ∧ Inserted art R an r art' ∧
      Good pool alen art' (R.insert an r) := by
  obtain ⟨tab, hs⟩ := h.sound
  obtain ⟨r, art', hrun, hkept, hins⟩ := artInsert_ok hs h.levels (h.alen ▸ hle)
  exact ⟨r, art', hrun, hins, h.kept hkept (hins.routes h.sound)⟩

theorem Good.insert_new (hpool : ∀ n, pool n = true)
    (hle : an.anPlen ≤ alen) (hR : R an.bits = none) :
    ∃ art', artInsert art an = some (some an, art') := by
  obtain ⟨r, art', hrun, ⟨oan, hoan, -⟩ | ⟨-, rfl, -⟩ | ⟨-, -, -, n, hn⟩, -⟩ := h.insert hle
  · rw [hR] at hoan
    cases hoan
  · exact ⟨art', hrun⟩
  · rw [h.pool, hpool] at hn
    cases hn

theorem Good.delete (hle : plen ≤ alen)
    (hR : R (bitsOf addr plen) = some an) : ∃ art', artDelete art addr plen = some (some an, art') ∧
      Good pool alen art' (update R (bitsOf addr plen) none) := by
  obtain ⟨tab, hs⟩ := h.sound
  obtain ⟨art', tab', hrun, hs', hkept⟩ := artDelete_present hs (h.alen ▸ hle) hR
  exact ⟨art', hrun, h.kept hkept ⟨tab', hs'⟩⟩

theorem Good.inserted (hle : an.anPlen ≤ alen)
    (hrun : artInsert art an = some (r, art')) : Good pool alen art' (R.insert an r) := by
  obtain ⟨r, art', hrun', -, hgood⟩ := h.insert hle
  rw [hrun] at hrun'
  cases hrun'
  exact hgood

theorem Good.deleted (hle : plen ≤ alen)
    (hR : R (bitsOf addr plen) ≠ none) (hrun : artDelete art addr plen = some (r, art')) :
    Good pool alen art' (update R (bitsOf addr plen) none) := by
  obtain ⟨an, han⟩ := ne_none_iff_exists'.mp hR
  obtain ⟨art', hrun', hgood⟩ := h.delete hle han
  rw [hrun] at hrun'
  cases hrun'
  exact hgood

end

theorem Reachable.good (h : Reachable pool alen art R) : Good pool alen art R := by
  induction h with
  | init h => exact good_init h
  | insert _ hle hrun ih => exact ih.inserted hle hrun
  | delete _ hle hR hrun ih => exact ih.deleted hle hR hrun

theorem Good.lookup (h : Good pool alen art R) (hle : plen ≤ alen) :
    artLookup art addr plen = some (R (bitsOf addr plen)) := by
  obtain ⟨tab, hs⟩ := h.sound
  exact artLookup_eq hs.shape hs.values (h.alen ▸ hle)

theorem Good.match (h : Good pool alen art R) :
    artMatch art addr = some (longest R (bitsOf addr alen) 0 (alen + 1)) := by
  obtain ⟨tab, hs⟩ := h.sound
  rw [artMatch_eq hs.shape (hs.values.valuesFor hs.shape addr), h.alen]

/-- In every reachable state: a best match is the route of the longest prefix that covers the
address, no call fails, and with memory every new node is inserted. -/
theorem art_longest_match (hpool : ∀ n, pool n = true) (h : Reachable pool alen art R) :
    (∀ addr, ∃ r, artMatch art addr = some r ∧ (r = none ↔ ∀ m ≤ alen, R (bitsOf addr m) = none) ∧
      ∀ an, r = some an ↔ ∃ m ≤ alen, R (bitsOf addr m) = some an ∧
        ∀ m', m < m' → m' ≤ alen → R (bitsOf addr m') = none) ∧
    (∀ an : ArtNode, an.anPlen ≤ alen → ∃ r art', artInsert art an = some (some r, art')) ∧
    ∀ addr plen, plen ≤ alen → R (bitsOf addr plen) ≠ none →
      ∃ an art', artDelete art addr plen = some (some an, art') := by
  refine ⟨fun addr => ⟨_, h.good.match, ?_, fun an => ?_⟩, fun an hle => ?_,
    fun addr plen hle hR => ?_⟩
  · rw [longest_eq_none]
    constructor
    · intro hnone m hm
      have htake := hnone m (Nat.zero_le m) (lt_succ_of_le hm)
      rwa [take_bitsOf addr hm] at htake
    · intro hnone m _ hlt
      rw [take_bitsOf addr (le_of_lt_succ hlt)]
      exact hnone m (le_of_lt_succ hlt)
  · rw [longest_eq_some]
    constructor
    · rintro ⟨m, -, hlt, hval, hmax⟩
      rw [take_bitsOf addr (le_of_lt_succ hlt)] at hval
      refine ⟨m, le_of_lt_succ hlt, hval, fun m' hm hle => ?_⟩
      have htake := hmax m' hm (lt_succ_of_le hle)
      rwa [take_bitsOf addr hle] at htake
    · rintro ⟨m, hle, hval, hmax⟩
      refine ⟨m, Nat.zero_le m, lt_succ_of_le hle, by rwa [take_bitsOf addr hle],
        fun m' hm hlt => ?_⟩
      rw [take_bitsOf addr (le_of_lt_succ hlt)]
      exact hmax m' hm (le_of_lt_succ hlt)
  · obtain ⟨r, art', hrun, hins, -⟩ := h.good.insert hle
    rcases hins with ⟨oan, -, rfl, -⟩ | ⟨-, rfl, -⟩ | ⟨-, -, -, n, hn⟩
    · exact ⟨oan, art', hrun⟩
    · exact ⟨an, art', hrun⟩
    · rw [h.good.pool, hpool] at hn
      cases hn
  · obtain ⟨an, han⟩ := ne_none_iff_exists'.mp hR
    obtain ⟨art', hrun, -⟩ := h.good.delete hle han
    exact ⟨an, art', hrun⟩

def emptyArt : Art :=
  ⟨none, artPlen32Levels, 32, fun _ => unusedTable, 0, fun _ => true, none⟩

def noRoutes : Routes := fun _ => none

theorem reachable_emptyArt : Reachable (fun _ => true) 32 emptyArt noRoutes := .init rfl

def tenSlashSeven : ArtNode := ⟨1, [10, 0, 0, 0], 7⟩

def tenOneSlashSixteen : ArtNode := ⟨2, [10, 1, 0, 0], 16⟩

def nestedRoutes : Routes := (noRoutes.insert tenSlashSeven (some tenSlashSeven)).insert
  tenOneSlashSixteen (some tenOneSlashSixteen)

theorem exists_tenSlashSeven :
    ∃ art, artInsert emptyArt tenSlashSeven = some (some tenSlashSeven, art) :=
  reachable_emptyArt.good.insert_new (fun _ => rfl) (by decide) rfl

theorem exists_nested : ∃ art₁ art,
    artInsert emptyArt tenSlashSeven = some (some tenSlashSeven, art₁) ∧
    artInsert art₁ tenOneSlashSixteen = some (some tenOneSlashSixteen, art) ∧
    Reachable (fun _ => true) 32 art nestedRoutes := by
  obtain ⟨art₁, hrun₁⟩ := exists_tenSlashSeven
  have h₁ := reachable_emptyArt.insert (by decide) hrun₁
  obtain ⟨art, hrun⟩ := h₁.good.insert_new (fun _ => rfl)
    (show tenOneSlashSixteen.anPlen ≤ 32 by decide) (by decide)
  exact ⟨art₁, art, hrun₁, hrun, h₁.insert (by decide) hrun⟩

theorem art_longest_match_nested : ∃ art, Reachable (fun _ => true) 32 art nestedRoutes ∧
    ∃ r, artMatch art [10, 1, 2, 3] = some r ∧ ∀ an, r = some an ↔
      ∃ m ≤ 32, nestedRoutes (bitsOf [10, 1, 2, 3] m) = some an ∧
        ∀ m', m < m' → m' ≤ 32 → nestedRoutes (bitsOf [10, 1, 2, 3] m') = none := by
  obtain ⟨-, art, -, -, h⟩ := exists_nested
  obtain ⟨r, hrun, -, hbest⟩ := (art_longest_match (fun _ => rfl) h).1 [10, 1, 2, 3]
  exact ⟨art, h, r, hrun, hbest⟩

/-- In every reachable state: a perfect lookup returns what was inserted for the prefix, and
`art_insert` returns that too and changes nothing, or the new node, or nothing without memory. -/
theorem art_exact_map (h : Reachable pool alen art R) :
    (∀ addr plen, plen ≤ alen → artLookup art addr plen = some (R (bitsOf addr plen))) ∧
    (∀ an : ArtNode, an.anPlen ≤ alen → ∃ r art', artInsert art an = some (r, art') ∧
      (∀ oan, R an.bits = some oan → r = some oan ∧
        (∀ addr plen, plen ≤ alen → artLookup art' addr plen = artLookup art addr plen) ∧
        ∀ addr, artMatch art' addr = artMatch art addr) ∧
      (R an.bits = none → (r = some an ∨ r = none ∧ ∃ n, pool n = false) ∧
        ∀ addr plen, plen ≤ alen → artLookup art' addr plen =
          some (if bitsOf addr plen = an.bits then r else R (bitsOf addr plen)))) ∧
    ∀ addr plen, plen ≤ alen → R (bitsOf addr plen) ≠ none →
      ∃ art', artDelete art addr plen = some (R (bitsOf addr plen), art') := by
  refine ⟨fun addr plen hle => h.good.lookup hle, fun an hle => ?_, fun addr plen hle hR => ?_⟩
  · obtain ⟨r, art', hrun, hins, hgood⟩ := h.good.insert hle
    refine ⟨r, art', hrun, fun oan hoan => ?_, fun hnone => ⟨?_, fun addr plen hple => ?_⟩⟩
    · rcases hins with ⟨oan', hR, rfl, rfl⟩ | ⟨hR, -⟩ | ⟨hR, -⟩
      · rw [hoan] at hR
        exact ⟨hR.symm, fun _ _ _ => rfl, fun _ => rfl⟩
      · rw [hoan] at hR
        cases hR
      · rw [hoan] at hR
        cases hR
    · rcases hins with ⟨oan', hR, -⟩ | ⟨-, rfl, -⟩ | ⟨-, rfl, -, hn⟩
      · rw [hnone] at hR
        cases hR
      · exact .inl rfl
      · exact .inr ⟨rfl, h.good.pool ▸ hn⟩
    · rw [hgood.lookup hple, Routes.insert]
      rcases hins with ⟨oan', hR, -⟩ | ⟨-, rfl, -⟩ | ⟨-, rfl, -⟩
      · rw [hnone] at hR
        cases hR
      · rw [if_pos ⟨hnone, nofun⟩, update_apply]
      · rw [if_neg fun hc => hc.2 rfl]
        split
        next heq => rw [heq, hnone]
        · rfl
  · obtain ⟨an, han⟩ := ne_none_iff_exists'.mp hR
    obtain ⟨art', hrun, -⟩ := h.good.delete hle han
    exact ⟨art', by rw [han, hrun]⟩

theorem art_exact_map_nested : ∃ art, Reachable (fun _ => true) 32 art nestedRoutes ∧
    artLookup art [10, 1, 0, 0] 16 = some (nestedRoutes (bitsOf [10, 1, 0, 0] 16)) := by
  obtain ⟨-, art, -, -, h⟩ := exists_nested
  exact ⟨art, h, (art_exact_map h).1 _ _ (by decide)⟩

def SameStride (levels : List Nat) (m n : Nat) : Prop :=
  ∀ ℓ, (levels.take ℓ).sum < m ↔ (levels.take ℓ).sum < n

def Shadowed (R : Routes) (levels : List Nat) (κ : List Bool) : Prop :=
  ∃ ρ, R ρ ≠ none ∧ ρ ≠ [] ∧ ρ <+: κ ∧ SameStride levels ρ.length κ.length

theorem Shape.border {tab : Tables} {π : List Bool} {p : Ptr} (h : Shape art tab)
    (hp : tab π = some p) (ℓ : Nat) : (art.artLevels.take ℓ).sum ≤ π.length ∨
      π.length + (art.mem p).atBits ≤ (art.artLevels.take ℓ).sum := by
  rw [← h.sum_take_succ hp, (h.table hp).length]
  rcases Nat.lt_or_ge (art.mem p).atLevel ℓ with hlt | hle
  · exact .inr (sum_take_mono _ hlt)
  · exact .inl (sum_take_mono _ hle)

theorem seen_iff {tab : Tables} (hs : Sound art tab R none) :
    Seen art tab R κ ↔ Shadowed R art.artLevels κ := by
  constructor
  · rintro ⟨π, l, q, hq, rfl, -, hl, hroute⟩
    obtain ⟨an, han⟩ := ne_none_iff_exists'.mp hroute
    obtain ⟨m, hlo, hlt, hval, -⟩ := longest_eq_some.mp han
    have hlen : ((π ++ l).take m).length = m := length_take_of_le (le_of_lt_succ hlt)
    refine ⟨(π ++ l).take m, by rw [hval]; nofun, fun hnil => ?_, take_prefix _ _, fun ℓ => ?_⟩
    · rw [hnil, length_nil] at hlen
      omega
    · have hborder := hs.shape.border hq ℓ
      rw [hlen]
      rw [length_append] at hlt ⊢
      omega
  · rintro ⟨ρ, hR, hnil, hpre, hstride⟩
    obtain ⟨an, han⟩ := ne_none_iff_exists'.mp hR
    obtain ⟨q, π, l, hq, rfl, hpos, hl⟩ := hs.values.tableFor han hnil
    obtain ⟨t, rfl⟩ := hpre
    have hlt := hstride ((art.mem q).atLevel + 1)
    rw [hs.shape.sum_take_succ hq, length_append, length_append, length_append]
      at hlt
    have hlpos := length_pos_iff.mpr hpos
    refine ⟨π, l ++ t, q, hq, append_assoc .., append_ne_nil_of_left_ne_nil hpos t,
      by rw [length_append]; omega, ?_⟩
    rw [routeAt, Ne, longest_eq_none, not_forall]
    refine ⟨(π ++ l).length, fun hnone => ?_⟩
    have htake := hnone (by rw [length_append]; omega) (by
      simp only [length_append]
      omega)
    rw [← append_assoc, take_left] at htake
    exact hR htake

/-- In every reachable state: to delete an absent prefix returns nothing and changes nothing
exactly if no shorter route covers the prefix and ends in the same stride. -/
theorem art_delete_absent_iff (h : Reachable pool alen art R) (hle : plen ≤ alen)
    (hR : R (bitsOf addr plen) = none) :
    (∃ art', artDelete art addr plen = some (none, art') ∧ art' = art) ↔
      ¬Shadowed R art.artLevels (bitsOf addr plen) := by
  obtain ⟨tab, hs⟩ := h.good.sound
  obtain ⟨hkeep, hbreak⟩ := artDelete_absent hs (h.good.alen ▸ hle) hR
  rw [seen_iff hs] at hkeep hbreak
  constructor
  · rintro ⟨art', hrun, -⟩ hshadow
    exact hbreak hshadow art' hrun
  · intro hshadow
    exact ⟨art, hkeep hshadow, rfl⟩

theorem art_delete_absent_nested : ∃ art, Reachable (fun _ => true) 32 art nestedRoutes ∧
    ((∃ art', artDelete art [10, 0, 0, 0] 8 = some (none, art') ∧ art' = art) ↔
      ¬Shadowed nestedRoutes art.artLevels (bitsOf [10, 0, 0, 0] 8)) := by
  obtain ⟨-, art, -, -, h⟩ := exists_nested
  exact ⟨art, h, art_delete_absent_iff h (by decide) (by decide)⟩

/-- The only route, 10.0.0.0/7, is returned and its table freed when 10.0.0.0/8 is deleted. -/
theorem art_delete_loses_route : bitsOf [10, 0, 0, 0] 8 ≠ tenSlashSeven.bits ∧ (do
      let (r, art) ← artInsert emptyArt tenSlashSeven
      let r' ← artLookup art [10, 0, 0, 0] 7
      let r'' ← artLookup art [10, 0, 0, 0] 8
      some (r, r', r'')) = some (some tenSlashSeven, some tenSlashSeven, none) ∧ (do
      let (_, art) ← artInsert emptyArt tenSlashSeven
      let (r, art) ← artDelete art [10, 0, 0, 0] 8
      let r' ← artLookup art [10, 0, 0, 0] 7
      some (r, r', artIsEmpty art)) = some (some tenSlashSeven, none, true) := by
  refine ⟨by decide, by decide +kernel, by decide +kernel⟩

end Mbsd.Net.Allotment
