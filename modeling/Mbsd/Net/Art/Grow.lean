import Mbsd.Net.Art.Invariant

/-! A table is added. -/

namespace Mbsd.Net.Allotment

open Lib.HeapIndex Lib.LongestPrefix Lib.Occupied Sys Function List Option Place Art

variable {art art' : Art} {tab : Tables} {R : Routes} {π ρ l : List Bool} {p q : Ptr} {k : Nat}
  {held : Ptr → Nat}

structure Grown (art : Art) (p : Ptr) (k : Nat) (art' : Art) : Prop where
  root : art'.artRoot = art.artRoot
  levels : art'.artLevels = art.artLevels
  alen : art'.artAlen = art.artAlen
  pool : art'.pool = art.pool
  next : art'.next = art.next + 1
  place : ∀ q, (art'.mem q).place = if q = art.next then
      ⟨some p, k, 2 ^ art.artLevels.getD ((art.mem p).atLevel + 1) 0, (art.mem p).atLevel + 1,
        art.artLevels.getD ((art.mem p).atLevel + 1) 0, (art.mem p).atOffset + (art.mem p).atBits⟩
    else (art.mem q).place
  entry : ∀ q j, art'.entry q j = if q = p ∧ j = k then .heap art.next
    else if q = art.next then (if j = artHeapIdxDefault then art.entry p k else .node none)
    else art.entry q j
  refcnt : ∀ q, (art'.mem q).atRefcnt =
    if q = art.next then 0 else (art.mem q).atRefcnt + if q = p then 1 else 0

theorem ArtTable.link_of_place {at_ at' : ArtTable} (h : at'.place = at_.place) :
    at'.atParent = at_.atParent ∧ at'.atIndex = at_.atIndex ∧ at'.atLevel = at_.atLevel :=
  ⟨congrArg parent h, congrArg index h, congrArg level h⟩

theorem TableAt.of_place (ht : TableAt art ρ q) (hlevels : art'.artLevels = art.artLevels)
    (hnext : art.next ≤ art'.next) (hplace : (art'.mem q).place = (art.mem q).place) :
    TableAt art' ρ q := by
  obtain ⟨-, -, hlvl⟩ := ArtTable.link_of_place hplace
  have hoff : (art'.mem q).atOffset = (art.mem q).atOffset := congrArg Place.offset hplace
  have hbits : (art'.mem q).atBits = (art.mem q).atBits := congrArg Place.bits hplace
  have hmin : (art'.mem q).atMinfringe = (art.mem q).atMinfringe :=
    congrArg Place.minfringe hplace
  constructor
  case fresh => exact Nat.lt_of_lt_of_le ht.fresh hnext
  case level => rw [hlvl, hlevels]; exact ht.level
  case length => rw [hlvl, hlevels]; exact ht.length
  case offset => rw [hoff]; exact ht.offset
  case bits => rw [hlvl, hbits, hlevels]; exact ht.bits
  case minfringe => rw [hmin, hbits]; exact ht.minfringe

theorem Values.home_missing (h : Shape art tab) (hv : Values art tab R) (hp : tab π = some p)
    (hl : l.length = (art.mem p).atBits) (hnone : tab (π ++ l) = none) (hpre : π ++ l <+: ρ)
    (hlen : (π ++ l).length < ρ.length) : R ρ = none := by
  by_contra hne
  obtain ⟨an, han⟩ := ne_none_iff_exists'.mp hne
  obtain ⟨π', p', hp', hpre', hle', hlt'⟩ := hv.stored han
  rw [length_append] at hlen
  have hπ : π <+: ρ := (prefix_append π l).trans hpre
  rcases Nat.lt_or_ge π'.length (π ++ l).length with hshort | hlong
  · rw [length_append] at hshort
    rcases Nat.le_total π'.length π.length with hle | hle
    · have hpp : π' <+: π := prefix_of_prefix_length_le hpre' hπ hle
      by_cases heq : π' = π
      · subst heq
        rw [some.inj (hp'.symm.trans hp)] at hle'
        omega
      · have hbetween := (h.between hp' hp hpp heq).1
        omega
    · have hpp : π <+: π' := prefix_of_prefix_length_le hπ hpre' hle
      by_cases heq : π = π'
      · subst heq
        rw [some.inj (hp'.symm.trans hp)] at hle'
        omega
      · have hbetween := (h.between hp hp' hpp heq).1
        omega
  · exact h.exists_child hp hp' (prefix_of_prefix_length_le hpre hpre' hlong) hl hnone

namespace Grown

variable (hg : Grown art p (idx l) art') (h : Shape art tab) (hp : tab π = some p)
  (hl : l.length = (art.mem p).atBits) (hnone : tab (π ++ l) = none)
  (hlevel : (art.mem p).atLevel + 1 < art.artLevels.length)

include hg

theorem place_old (hq : q ≠ art.next) : (art'.mem q).place = (art.mem q).place := by
  rw [hg.place, if_neg hq]

theorem bits_old (hq : q ≠ art.next) : (art'.mem q).atBits = (art.mem q).atBits :=
  congrArg bits (hg.place_old hq)

theorem bits_new : (art'.mem art.next).atBits = art.artLevels.getD ((art.mem p).atLevel + 1) 0 := by
  have hplace := hg.place art.next
  rw [if_pos rfl] at hplace
  exact congrArg bits hplace

theorem entry_old (hq : q ≠ art.next) (hk : ¬(q = p ∧ k = idx l)) :
    art'.entry q k = art.entry q k := by
  rw [hg.entry, if_neg hk, if_neg hq]

include h

include hp hl hlevel in
theorem table_new : TableAt art' (π ++ l) art.next := by
  have hplace := hg.place art.next
  rw [if_pos rfl] at hplace
  have hlvl := congrArg level hplace
  have hoff := congrArg offset hplace
  have hbits := congrArg bits hplace
  have hmin := congrArg minfringe hplace
  simp only [ArtTable.place] at hlvl hoff hbits hmin
  constructor
  case fresh => rw [hg.next]; exact Nat.lt_succ_self _
  case level => rwa [hlvl, hg.levels]
  case length => rw [hlvl, hg.levels, h.sum_take_succ hp, length_append, hl]
  case offset => rw [hoff, (h.table hp).offset, length_append, hl]
  case bits => rw [hlvl, hbits, hg.levels]
  case minfringe => rw [hmin, hbits]

include hp hl hnone hlevel in
theorem shape : Shape art' (update tab (π ++ l) (some art.next)) := by
  have hlpos : l ≠ [] := length_pos_iff.mp (by rw [hl]; exact h.bits_pos hp)
  have hnil : π ++ l ≠ [] := append_ne_nil_of_right_ne_nil π hlpos
  have hnilne : ([] : List Bool) ≠ π ++ l := hnil.symm
  have hcases {ρ q} (hq : update tab (π ++ l) (some art.next) ρ = some q) :
      ρ = π ++ l ∧ q = art.next ∨ ρ ≠ π ++ l ∧ tab ρ = some q := by
    by_cases heq : ρ = π ++ l
    · rw [heq, update_self] at hq
      exact .inl ⟨heq, (some.inj hq).symm⟩
    · rw [update_of_ne heq] at hq
      exact .inr ⟨heq, hq⟩
  have hnew : (art'.mem art.next).place = _ := (hg.place art.next).trans (if_pos rfl)
  constructor
  case strides => rw [hg.levels]; exact h.strides
  case sum => rw [hg.levels, hg.alen]; exact h.sum
  case root => rw [hg.root, update_of_ne hnilne]; exact h.root
  case table =>
    intro ρ q hq
    rcases hcases hq with ⟨rfl, rfl⟩ | ⟨-, hq⟩
    · exact hg.table_new h hp hl hlevel
    · exact (h.table hq).of_place hg.levels (hg.next ▸ Nat.le_succ _) (hg.place_old (h.ne_next hq))
  case inj =>
    intro ρ ρ' q hq hq'
    rcases hcases hq with ⟨rfl, rfl⟩ | ⟨hne, hq⟩ <;> rcases hcases hq' with ⟨rfl, hn⟩ | ⟨hne', hq'⟩
    · rfl
    · exact absurd rfl (h.ne_next hq')
    · exact absurd hn (h.ne_next hq)
    · exact h.inj hq hq'
  case top =>
    intro r hr
    rw [update_of_ne hnilne] at hr
    obtain ⟨hpar, hidx, hlvl⟩ := ArtTable.link_of_place (hg.place_old (h.ne_next hr))
    rw [hpar, hidx, hlvl]
    exact h.top hr
  case rooted =>
    intro ρ q hq
    rw [update_of_ne hnilne]
    rcases hcases hq with ⟨rfl, rfl⟩ | ⟨-, hq⟩
    · exact h.rooted hp
    · exact h.rooted hq
  case inner =>
    intro ρ q m hq hm c
    rcases hcases hq with ⟨rfl, rfl⟩ | ⟨-, hq⟩
    · rw [hg.entry, if_neg (fun hc => h.ne_next hp hc.1.symm), if_pos rfl]
      split
      next hone =>
        by_cases hc : art.entry p (idx l) = .heap c
        · exact absurd ((h.link hp hl c).mp hc) (by rw [hnone]; simp)
        · exact hc
      · simp
    · rw [hg.bits_old (h.ne_next hq)] at hm
      rw [hg.entry_old (h.ne_next hq) (fun hc => by
        rw [hc.1] at hm
        rw [idx_inj.mp hc.2] at hm
        omega)]
      exact h.inner hq hm c
  case link =>
    intro ρ q m hq hm c
    rcases hcases hq with ⟨rfl, rfl⟩ | ⟨-, hq⟩
    · have hmpos : m ≠ [] := length_pos_iff.mp (by
        rw [hm, hg.bits_new]
        rcases (h.strides _ hlevel).1 with h4 | h8 <;> omega)
      have htwo := two_le_idx hmpos
      rw [hg.entry, if_neg (fun hc => h.ne_next hp hc.1.symm), if_pos rfl,
        if_neg (by rw [artHeapIdxDefault]; omega), update_of_ne (by simpa using hmpos)]
      refine iff_of_false (by simp) fun hc => ?_
      exact h.exists_child hp hc (prefix_append _ m) hl hnone
    · rw [hg.bits_old (h.ne_next hq)] at hm
      have hold := hq
      by_cases heq : ρ ++ m = π ++ l
      · obtain ⟨rfl, rfl⟩ := h.fringe_unique hp hl hq hm heq
        rw [some.inj (hold.symm.trans hp), hg.entry, if_pos ⟨rfl, rfl⟩, update_self,
          ArtHeapEntry.heap.injEq, some.injEq]
      · rw [hg.entry_old (h.ne_next hq) (fun hc => heq ?_), h.link hq hm, update_of_ne heq]
        rw [hc.1] at hq
        rw [h.inj hq hp, idx_inj.mp hc.2]
  case child =>
    intro ρ q m c hq hm hc
    rcases hcases hq with ⟨rfl, rfl⟩ | ⟨-, hq⟩
    · exfalso
      have hmpos : m ≠ [] := length_pos_iff.mp (by
        rw [hm, hg.bits_new]
        rcases (h.strides _ hlevel).1 with h4 | h8 <;> omega)
      rw [update_of_ne (by simpa using hmpos)] at hc
      exact h.exists_child hp hc (prefix_append _ m) hl hnone
    · rw [hg.bits_old (h.ne_next hq)] at hm
      have hqlvl : (art'.mem q).atLevel = (art.mem q).atLevel :=
        congrArg level (hg.place_old (h.ne_next hq))
      have hold := hq
      rcases hcases hc with ⟨happ, rfl⟩ | ⟨-, hc⟩
      · obtain ⟨rfl, rfl⟩ := h.fringe_unique hp hl hq hm happ
        rw [hqlvl, some.inj (hold.symm.trans hp)]
        exact ⟨congrArg parent hnew, congrArg index hnew, congrArg level hnew⟩
      · obtain ⟨hpar, hidx, hlvl⟩ := ArtTable.link_of_place (hg.place_old (h.ne_next hc))
        rw [hpar, hidx, hlvl, hqlvl]
        exact h.child hq hm hc
  case parent =>
    intro ρ q hq hne
    rcases hcases hq with ⟨rfl, rfl⟩ | ⟨-, hq⟩
    · refine ⟨π, l, p, ?_, by rw [hg.bits_old (h.ne_next hp), hl], rfl⟩
      rw [update_of_ne (by simpa using hlpos), hp]
    · obtain ⟨π₀, m, c, hc, hm, rfl⟩ := h.parent hq hne
      refine ⟨π₀, m, c, ?_, by rw [hg.bits_old (h.ne_next hc), hm], rfl⟩
      rw [update_of_ne, hc]
      rintro rfl
      rw [hnone] at hc
      cases hc
  case between =>
    intro ρ ρ' q q' hq hq' hpre hne
    have hkept {κ : List Bool} (hκ : tab κ ≠ none) :
        update tab (π ++ l) (some art.next) κ ≠ none := by
      rw [update_apply]
      split
      · simp
      · exact hκ
    rcases hcases hq with ⟨rfl, rfl⟩ | ⟨hρ, hq⟩
    · rcases hcases hq' with ⟨rfl, -⟩ | ⟨-, hq'⟩
      · exact absurd rfl hne
      · exact absurd hnone (h.exists_child hp hq' hpre hl)
    · rw [hg.bits_old (h.ne_next hq)]
      rcases hcases hq' with ⟨rfl, rfl⟩ | ⟨-, hq'⟩
      · have hold := hq
        have hπ := h.prefix_fringe hp hl hq hpre hρ
        by_cases heq : ρ = π
        · subst heq
          rw [some.inj (hold.symm.trans hp), ← hl, ← length_append, take_length, update_self]
          exact ⟨Nat.le_refl _, (by simp)⟩
        · have hbetween := h.between hq hp hπ heq
          rw [take_append_of_le_length hbetween.1, length_append]
          exact ⟨Nat.le_add_right_of_le hbetween.1, hkept hbetween.2⟩
      · have hbetween := h.between hq hq' hpre hne
        exact ⟨hbetween.1, hkept hbetween.2⟩

include hp hl hnone in
theorem values (hv : Values art tab R) : Values art' (update tab (π ++ l) (some art.next)) R := by
  have hlpos : l ≠ [] := length_pos_iff.mp (by rw [hl]; exact h.bits_pos hp)
  constructor
  case slot =>
    intro ρ q m hq hpos hm
    by_cases heq : ρ = π ++ l
    · subst heq
      rw [update_self, some.injEq] at hq
      subst hq
      have htwo := two_le_idx hpos
      have hent : art'.entry art.next (idx m) = .node none := by
        rw [hg.entry, if_neg (fun hc => h.ne_next hp hc.1.symm), if_pos rfl,
          if_neg (by rw [artHeapIdxDefault]; omega)]
      have hroute : routeAt R (π ++ l) m = none := longest_eq_none.mpr fun j hj hlt => by
        refine hv.home_missing h hp hl hnone ?_ (by rw [length_take]; omega)
        exact prefix_of_prefix_length_le (prefix_append _ m) ( take_prefix _ _)
          (by rw [length_take]; omega)
      rw [slotVal, slot, hent, hroute]
      exact hent
    · rw [update_of_ne heq] at hq
      have hne := h.ne_next hq
      rw [hg.bits_old hne] at hm
      rw [← hv.slot hq hpos hm]
      by_cases hk : q = p ∧ idx m = idx l
      · have hent : art'.entry q (idx m) = .heap art.next := by rw [hg.entry, if_pos hk]
        have hslot : art.slot p (idx l) = (p, idx l) := by
          rcases h.slot_cases hp (Nat.le_of_eq hl) with ⟨-, hs⟩ | ⟨c, -, -, hc, -⟩
          · exact hs
          · rw [hnone] at hc
            cases hc
        rw [slotVal, slot, hent, hk.1, hk.2, slotVal, hslot]
        simp only
        rw [hg.entry, if_neg (fun hc => h.ne_next hp hc.1.symm), if_pos rfl, if_pos rfl]
      · have hent : art'.entry q (idx m) = art.entry q (idx m) := hg.entry_old hne hk
        have hslot : art'.slot q (idx m) = art.slot q (idx m) := by
          rw [slot, slot, hent]
        rw [slotVal, slotVal, hslot]
        rcases h.slot_cases hq hm with ⟨-, hs⟩ | ⟨c, -, -, hc, hs⟩
        · rw [hs]
          exact hent
        · rw [hs, hg.entry_old (h.ne_next hc)]
          rintro ⟨-, hone⟩
          have htwo := two_le_idx hlpos
          rw [artHeapIdxDefault] at hone
          omega
  case default =>
    intro r hr
    have hnil : ([] : List Bool) ≠ π ++ l :=
      (append_ne_nil_of_right_ne_nil π hlpos).symm
    rw [update_of_ne hnil] at hr
    rw [hg.entry_old (h.ne_next hr), hv.default hr]
    rintro ⟨-, hone⟩
    have htwo := two_le_idx hlpos
    rw [artHeapIdxDefault] at hone
    omega
  case stored =>
    intro ρ an hρ
    obtain ⟨π', p', hp', hhome⟩ := hv.stored hρ
    refine ⟨π', p', ?_, by rwa [hg.bits_old (h.ne_next hp')]⟩
    rw [update_of_ne, hp']
    rintro rfl
    rw [hnone] at hp'
    cases hp'
  case keyed => exact hv.keyed

include hp hl hnone hlevel in
theorem soundWith (hsound : SoundWith art tab R held) (hfree : held art.next = 0) :
    SoundWith art' (update tab (π ++ l) (some art.next)) R held where
  shape := hg.shape h hp hl hnone hlevel
  values := hg.values h hp hl hnone hsound.values
  counted := by
    intro ρ q hq
    by_cases heq : ρ = π ++ l
    · subst heq
      rw [update_self, some.injEq] at hq
      subst hq
      have hzero : refs (update tab (π ++ l) (some art.next)) R (π ++ l)
          (art'.mem art.next).atBits = 0 := by
        rw [refs_eq_zero]
        constructor
        · rintro ρ ⟨hpre, -, hlt⟩
          rcases hlt with hlt | rfl
          · exact hsound.values.home_missing h hp hl hnone hpre hlt
          · have hnil := prefix_nil.mp hpre
            exact absurd hl (by
              have hpos := h.bits_pos hp
              rw [(append_eq_nil_iff.mp hnil).2, length_nil]
              omega)
        · rintro κ ⟨hpre, hlen⟩
          by_contra hne
          by_cases hκ : κ = π ++ l
          · have hpos : 0 < (art'.mem art.next).atBits := by
              rw [hg.bits_new]
              rcases (h.strides _ hlevel).1 with h4 | h8 <;> omega
            rw [hκ] at hlen
            omega
          · rw [update_of_ne hκ] at hne
            obtain ⟨c, hc⟩ := ne_none_iff_exists'.mp hne
            exact h.exists_child hp hc hpre hl hnone
      rw [hg.refcnt, if_pos rfl, hzero, hfree]
      rfl
    · rw [update_of_ne heq] at hq
      have hne := h.ne_next hq
      rw [hg.refcnt, if_neg hne, hg.bits_old hne, hsound.counted hq]
      by_cases hqp : q = p
      · subst hqp
        rw [h.inj hq hp, refs_table_some ⟨prefix_append π l, by rw [length_append, hl]⟩
          hnone, if_pos rfl]
        push_cast
        omega
      · rw [refs_table_of_not]
        · simp [hqp]
        · rintro ⟨hpre, hlen⟩
          obtain ⟨m, hm⟩ := hpre
          have hmlen : m.length = (art.mem q).atBits := by
            rw [← hm, length_append] at hlen
            omega
          obtain ⟨rfl, -⟩ := h.fringe_unique hp hl hq hmlen hm
          exact hqp (some.inj (hq.symm.trans hp))

include hp hl hnone hlevel in
theorem sound (hsound : Sound art tab R none) :
    Sound art' (update tab (π ++ l) (some art.next)) R none :=
  sound_none_iff.mpr (hg.soundWith h hp hl hnone hlevel (sound_none_iff.mp hsound) rfl)

end Grown

/-! A table without references is taken away. -/

variable {art art' : Art} {tab : Tables} {R : Routes} {π ρ l : List Bool} {p q c : Ptr} {k : Nat}
  {held : Ptr → Nat}

structure Vacant (art : Art) (tab : Tables) (R : Routes) (π : List Bool) (p : Ptr) : Prop where
  routes : ∀ ρ, Home π (art.mem p).atBits ρ → R ρ = none
  below : ∀ ρ, π <+: ρ → ρ ≠ π → tab ρ = none

theorem SoundWith.vacant (hs : SoundWith art tab R held) (hp : tab π = some p)
    (hzero : (art.mem p).atRefcnt = 0) : Vacant art tab R π p ∧ held p = 0 := by
  have hrefs := hs.counted hp
  rw [hzero] at hrefs
  have hnone : refs tab R π (art.mem p).atBits = 0 := by omega
  obtain ⟨hroutes, htables⟩ := refs_eq_zero.mp hnone
  refine ⟨⟨hroutes, fun ρ hpre hne => ?_⟩, by omega⟩
  by_contra hsome
  obtain ⟨c, hc⟩ := ne_none_iff_exists'.mp hsome
  obtain ⟨hle, hbetween⟩ := hs.shape.between hp hc hpre (Ne.symm hne)
  obtain ⟨t, rfl⟩ := hpre
  rw [length_append] at hle
  refine hbetween (htables _ ⟨?_, ?_⟩)
  · rw [take_length_add_append]
    exact prefix_append ..
  · rw [length_take, length_append]
    omega

structure Shrunk (art : Art) (q : Ptr) (k : Nat) (p : Ptr) (art' : Art) : Prop where
  root : art'.artRoot = art.artRoot
  levels : art'.artLevels = art.artLevels
  alen : art'.artAlen = art.artAlen
  pool : art'.pool = art.pool
  next : art'.next = art.next
  place : ∀ c, c ≠ p → (art'.mem c).place = (art.mem c).place
  entry : ∀ c j, art'.entry c j =
    if c = q ∧ j = k then art.entry p artHeapIdxDefault else art.entry c j
  refcnt : ∀ c, (art'.mem c).atRefcnt = (art.mem c).atRefcnt

namespace Shrunk

variable (hg : Shrunk art q (idx l) p art') (h : Shape art tab) (hq : tab π = some q)
  (hl : l.length = (art.mem q).atBits) (hp : tab (π ++ l) = some p)
  (hv : Vacant art tab R (π ++ l) p)

include hg in
theorem bits_old (hc : c ≠ p) : (art'.mem c).atBits = (art.mem c).atBits :=
  congrArg bits (hg.place c hc)

include hg in
theorem entry_old {j : Nat} (hk : ¬(c = q ∧ j = idx l)) : art'.entry c j = art.entry c j := by
  rw [hg.entry, if_neg hk]

include hg h hq hl hp hv

theorem shape : Shape art' (update tab (π ++ l) none) := by
  have hlpos : l ≠ [] := length_pos_iff.mp (by rw [hl]; exact h.bits_pos hq)
  have hnil : ([] : List Bool) ≠ π ++ l := (append_ne_nil_of_right_ne_nil π hlpos).symm
  have hold {ρ c} (hc : update tab (π ++ l) none ρ = some c) :
      ρ ≠ π ++ l ∧ tab ρ = some c := by
    rw [update_apply] at hc
    split at hc
    · cases hc
    next hne => exact ⟨hne, hc⟩
  have hne {ρ c} (hρ : ρ ≠ π ++ l) (hc : tab ρ = some c) : c ≠ p := by
    rintro rfl
    exact hρ (h.inj hc hp)
  constructor
  case strides => rw [hg.levels]; exact h.strides
  case sum => rw [hg.levels, hg.alen]; exact h.sum
  case root => rw [hg.root, update_of_ne hnil]; exact h.root
  case table =>
    intro ρ c hc
    obtain ⟨hρ, hc⟩ := hold hc
    exact (h.table hc).of_place hg.levels (Nat.le_of_eq hg.next.symm) (hg.place c (hne hρ hc))
  case inj =>
    intro ρ ρ' c hc hc'
    exact h.inj (hold hc).2 (hold hc').2
  case top =>
    intro r hr
    obtain ⟨hρ, hr⟩ := hold hr
    obtain ⟨hpar, hidx, hlvl⟩ := ArtTable.link_of_place (hg.place r (hne hρ hr))
    rw [hpar, hidx, hlvl]
    exact h.top hr
  case rooted =>
    intro ρ c hc
    rw [update_of_ne hnil]
    exact h.rooted (hold hc).2
  case inner =>
    intro ρ c m hc hm b
    obtain ⟨hρ, hc⟩ := hold hc
    rw [hg.bits_old (hne hρ hc)] at hm
    rw [hg.entry]
    split
    · exact h.default_ne_heap hp b
    · exact h.inner hc hm b
  case link =>
    intro ρ c m hc hm b
    obtain ⟨hρ, hc⟩ := hold hc
    rw [hg.bits_old (hne hρ hc)] at hm
    have hnow := hc
    by_cases heq : ρ ++ m = π ++ l
    · obtain ⟨rfl, rfl⟩ := h.fringe_unique hq hl hc hm heq
      rw [some.inj (hnow.symm.trans hq), hg.entry, if_pos ⟨rfl, rfl⟩, update_self]
      exact iff_of_false (h.default_ne_heap hp b) nofun
    · rw [hg.entry_old (fun hcm => heq ?_), h.link hc hm, update_of_ne heq]
      rw [hcm.1] at hc
      rw [h.inj hc hq, idx_inj.mp hcm.2]
  case child =>
    intro ρ c m b hc hm hb
    obtain ⟨hρ, hc⟩ := hold hc
    obtain ⟨hρm, hb⟩ := hold hb
    rw [hg.bits_old (hne hρ hc)] at hm
    obtain ⟨hpar, hidx, hlvl⟩ := ArtTable.link_of_place (hg.place b (hne hρm hb))
    have hlvlc : (art'.mem c).atLevel = (art.mem c).atLevel :=
      congrArg level (hg.place c (hne hρ hc))
    rw [hpar, hidx, hlvl, hlvlc]
    exact h.child hc hm hb
  case parent =>
    intro ρ c hc hρnil
    obtain ⟨hρ, hc⟩ := hold hc
    obtain ⟨π₀, m, b, hb, hm, rfl⟩ := h.parent hc hρnil
    have hπ₀ : π₀ ≠ π ++ l := by
      rintro rfl
      have hbelow := hv.below _ (prefix_append _ m) hρ
      rw [hc] at hbelow
      cases hbelow
    exact ⟨π₀, m, b, by rw [update_of_ne hπ₀, hb], by rw [hg.bits_old (hne hπ₀ hb), hm], rfl⟩
  case between =>
    intro ρ ρ' c c' hc hc' hpre hneq
    obtain ⟨hρ, hc⟩ := hold hc
    obtain ⟨hρ', hc'⟩ := hold hc'
    obtain ⟨hle, hbetween⟩ := h.between hc hc' hpre hneq
    rw [hg.bits_old (hne hρ hc)]
    refine ⟨hle, ?_⟩
    rw [update_of_ne]
    · exact hbetween
    · intro htake
      have hbelow := hv.below ρ' (htake ▸ take_prefix _ _) hρ'
      rw [hc'] at hbelow
      cases hbelow

theorem values (hval : Values art tab R) : Values art' (update tab (π ++ l) none) R := by
  have hlpos : l ≠ [] := length_pos_iff.mp (by rw [hl]; exact h.bits_pos hq)
  have htwo := two_le_idx hlpos
  have hold {ρ c} (hc : update tab (π ++ l) none ρ = some c) :
      tab ρ = some c ∧ c ≠ p := by
    rw [update_apply] at hc
    split at hc
    · cases hc
    next hne =>
      refine ⟨hc, ?_⟩
      rintro rfl
      exact hne (h.inj hc hp)
  constructor
  case slot =>
    intro ρ c m hc hpos hm
    obtain ⟨hc, hcp⟩ := hold hc
    rw [hg.bits_old hcp] at hm
    rw [← hval.slot hc hpos hm]
    have hlink := (h.link hq hl p).mpr hp
    by_cases hk : c = q ∧ idx m = idx l
    · have hent : art'.entry c (idx m) = art.entry p artHeapIdxDefault := by
        rw [hg.entry, if_pos hk]
      have hnode : ∃ an, art.entry p artHeapIdxDefault = .node an := by
        cases hd : art.entry p artHeapIdxDefault with
        | node an => exact ⟨an, rfl⟩
        | heap b => exact absurd hd (h.default_ne_heap hp b)
      obtain ⟨an, han⟩ := hnode
      have hval' : art.slotVal c (idx m) = .node an := by
        rw [hk.1, hk.2, slotVal, slot, hlink]
        exact han
      rw [hval', slotVal, slot, hent, han]
      exact hent.trans han
    · have hent : art'.entry c (idx m) = art.entry c (idx m) := hg.entry_old hk
      have hslot : art'.slot c (idx m) = art.slot c (idx m) := by
        rw [slot, slot, hent]
      rw [slotVal, slotVal, hslot]
      rcases h.slot_cases hc hm with ⟨-, hs⟩ | ⟨b, -, -, hb, hs⟩
      · rw [hs]
        exact hent
      · rw [hs, hg.entry_old]
        rintro ⟨-, hone⟩
        simp only [artHeapIdxDefault] at hone
        omega
  case default =>
    intro r hr
    rw [hg.entry_old, hval.default (hold hr).1]
    rintro ⟨-, hone⟩
    rw [artHeapIdxDefault] at hone
    omega
  case stored =>
    intro ρ an hρ
    obtain ⟨π', p', hp', hhome⟩ := hval.stored hρ
    have hne : π' ≠ π ++ l := by
      rintro rfl
      rw [some.inj (hp'.symm.trans hp)] at hhome
      rw [hv.routes ρ hhome] at hρ
      cases hρ
    have hpp : p' ≠ p := by
      rintro rfl
      exact hne (h.inj hp' hp)
    exact ⟨π', p', by rw [update_of_ne hne, hp'], by rwa [hg.bits_old hpp]⟩
  case keyed => exact hval.keyed

theorem sound (hs : SoundWith art tab R held) :
    SoundWith art' (update tab (π ++ l) none) R (hold held q) where
  shape := hg.shape h hq hl hp hv
  values := hg.values h hq hl hp hv hs.values
  counted := by
    intro ρ c hc
    rw [update_apply] at hc
    split at hc
    · cases hc
    next hne =>
      have hcp : c ≠ p := by
        rintro rfl
        exact hne (h.inj hc hp)
      rw [hg.refcnt, hg.bits_old hcp, hs.counted hc, hold]
      by_cases hcq : c = q
      · subst hcq
        have hchild : Child π (art.mem c).atBits (π ++ l) :=
          ⟨prefix_append π l, by rw [length_append, hl]⟩
        have hrefs := refs_table_none (R := R) hchild (show tab (π ++ l) ≠ none by rw [hp]; simp)
        rw [h.inj hc hq, ← hrefs, if_pos rfl]
        push_cast
        omega
      · rw [refs_table_of_not, if_neg hcq, Nat.add_zero]
        rintro ⟨⟨m, hm⟩, hlen⟩
        have hmlen : m.length = (art.mem c).atBits := by
          rw [← hm, length_append] at hlen
          omega
        obtain ⟨rfl, -⟩ := h.fringe_unique hq hl hc hmlen hm
        exact hcq (some.inj (hc.symm.trans hq))

end Shrunk

end Mbsd.Net.Allotment
