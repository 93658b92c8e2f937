import Mathlib.Data.Set.Finite.List
import Mbsd.Lib.CountIn
import Mbsd.Net.Art.Routes

/-! What holds of a routing table between two calls. -/

namespace Mbsd.Net.Allotment

open Lib.HeapIndex Lib.LongestPrefix Lib.Occupied Function Option

variable {an oan : ArtNode}

def Child (π : List Bool) (bits : Nat) (κ : List Bool) : Prop :=
  π <+: κ ∧ κ.length = π.length + bits

theorem home_finite (π : List Bool) (bits : Nat) : {ρ | Home π bits ρ}.Finite :=
  (List.finite_length_le Bool (π.length + bits)).subset fun _ h => h.2.1

theorem child_finite (π : List Bool) (bits : Nat) : {κ | Child π bits κ}.Finite :=
  (List.finite_length_le Bool (π.length + bits)).subset fun _ h => Nat.le_of_eq h.2

noncomputable def refs (tab : Tables) (R : Routes) (π : List Bool) (bits : Nat) : Nat :=
  occupied (Home π bits) R + occupied (Child π bits) tab

section Refs

variable {tab : Tables} {R : Routes} {π κ : List Bool} {bits : Nat}

theorem refs_route_some (h : Home π bits κ) (hR : R κ = none) :
    refs tab (update R κ (some an)) π bits = refs tab R π bits + 1 := by
  rw [refs, refs, occupied_update_some (home_finite π bits) h hR, Nat.add_right_comm]

theorem refs_route_none (h : Home π bits κ) (hR : R κ ≠ none) :
    refs tab (update R κ none) π bits + 1 = refs tab R π bits := by
  rw [refs, refs, ← occupied_update_none (home_finite π bits) h hR, Nat.add_right_comm]

theorem refs_route_of_not {v : Option ArtNode} (h : ¬ Home π bits κ) :
    refs tab (update R κ v) π bits = refs tab R π bits := by
  rw [refs, refs, occupied_update_of_not h]

theorem refs_table_some {p : Ptr} (h : Child π bits κ) (htab : tab κ = none) :
    refs (update tab κ (some p)) R π bits = refs tab R π bits + 1 := by
  rw [refs, refs, occupied_update_some (child_finite π bits) h htab, Nat.add_assoc]

theorem refs_table_none (h : Child π bits κ) (htab : tab κ ≠ none) :
    refs (update tab κ none) R π bits + 1 = refs tab R π bits := by
  rw [refs, refs, ← occupied_update_none (child_finite π bits) h htab, Nat.add_assoc]

theorem refs_table_of_not {v : Option Ptr} (h : ¬ Child π bits κ) :
    refs (update tab κ v) R π bits = refs tab R π bits := by
  rw [refs, refs, occupied_update_of_not h]

theorem refs_eq_zero : refs tab R π bits = 0 ↔
    (∀ ρ, Home π bits ρ → R ρ = none) ∧ ∀ κ, Child π bits κ → tab κ = none := by
  rw [refs, Nat.add_eq_zero_iff, occupied_eq_zero (home_finite π bits),
    occupied_eq_zero (child_finite π bits)]

end Refs

/-- The references of a table are its routes and the tables below it; the one that is pending,
if there is one, has still to lose a reference. -/
def Counted (art : Art) (tab : Tables) (R : Routes) (pending : Option Ptr) : Prop :=
  ∀ {π p}, tab π = some p → (art.mem p).atRefcnt =
    refs tab R π (art.mem p).atBits + if pending = some p then 1 else 0

structure Sound (art : Art) (tab : Tables) (R : Routes) (pending : Option Ptr) : Prop where
  shape : Shape art tab
  values : Values art tab R
  counted : Counted art tab R pending

/-- The references of a table that are not its routes or the tables below it are held by someone
else. -/
def CountedWith (art : Art) (tab : Tables) (R : Routes) (held : Ptr → Nat) : Prop :=
  ∀ {π p}, tab π = some p → (art.mem p).atRefcnt = refs tab R π (art.mem p).atBits + held p

structure SoundWith (art : Art) (tab : Tables) (R : Routes) (held : Ptr → Nat) : Prop where
  shape : Shape art tab
  values : Values art tab R
  counted : CountedWith art tab R held

def noneHeld : Ptr → Nat := fun _ => 0

def hold (held : Ptr → Nat) (p : Ptr) : Ptr → Nat := fun q => held q + if q = p then 1 else 0

section SoundWith

variable {art art' : Art} {tab : Tables} {R : Routes} {π κ l : List Bool} {p : Ptr}
  {held : Ptr → Nat}

theorem sound_none_iff : Sound art tab R none ↔ SoundWith art tab R noneHeld := by
  constructor
  · rintro ⟨hh, hv, hc⟩
    refine ⟨hh, hv, fun hp => ?_⟩
    rw [hc hp, if_neg nofun]
    rfl
  · rintro ⟨hh, hv, hc⟩
    refine ⟨hh, hv, fun hp => ?_⟩
    rw [hc hp, if_neg nofun]
    rfl

section

variable (h : SoundWith art tab R held) (hp : tab π = some p) (hhome : Home π (art.mem p).atBits κ)

include h hp hhome

theorem SoundWith.counted_insert (hR : R κ = none) (hs : SameTables art art')
    (hcnt : ∀ q, (art'.mem q).atRefcnt = (art.mem q).atRefcnt + if q = p then 1 else 0) :
    CountedWith art' tab (update R κ (some an)) held := by
  intro π' p' hp'
  rw [hcnt, hs.bits, h.counted hp']
  by_cases heq : p' = p
  · subst heq
    rw [h.shape.inj hp' hp, refs_route_some hhome hR, if_pos rfl]
    push_cast
    omega
  · rw [refs_route_of_not, if_neg heq, Int.add_zero]
    intro hhome'
    rw [h.shape.home_unique hp' hp hhome' hhome, hp, some.injEq] at hp'
    exact heq hp'.symm

theorem SoundWith.counted_delete (hR : R κ ≠ none) (hs : SameTables art art')
    (hcnt : ∀ q, (art'.mem q).atRefcnt = (art.mem q).atRefcnt) :
    CountedWith art' tab (update R κ none) (hold held p) := by
  intro π' p' hp'
  rw [hcnt, hs.bits, h.counted hp', hold]
  by_cases heq : p' = p
  · subst heq
    rw [h.shape.inj hp' hp, if_pos rfl, ← refs_route_none hhome hR]
    push_cast
    omega
  · rw [refs_route_of_not, if_neg heq, Nat.add_zero]
    intro hhome'
    rw [h.shape.home_unique hp' hp hhome' hhome, hp, some.injEq] at hp'
    exact heq hp'.symm

end

end SoundWith

/-! The way through the tables to the one for a prefix. -/

open List Option

variable {art : Art} {tab : Tables} {R : Routes} {π ρ κ l : List Bool} {p q : Ptr} {m plen : Nat}
  {addr : List UInt8}

theorem sum_take_mono (levels : List Nat) {i j : Nat} (h : i ≤ j) :
    (levels.take i).sum ≤ (levels.take j).sum := by
  obtain ⟨k, rfl⟩ := Nat.exists_eq_add_of_le h
  rw [take_add, sum_append]
  exact Nat.le_add_right _ _

namespace Shape

section

variable (h : Shape art tab) (hp : tab π = some p)

include h hp

theorem lt_next : p < art.next := (h.table hp).fresh

theorem ne_next : p ≠ art.next :=
  Nat.ne_of_lt (h.lt_next hp)

theorem sum_take_succ :
    (art.artLevels.take ((art.mem p).atLevel + 1)).sum = π.length + (art.mem p).atBits := by
  have ht := h.table hp
  rw [take_add_one, sum_append, ← ht.length, ht.bits, getD_eq_getElem?_getD,
    getElem?_eq_getElem ht.level]
  simp

theorem level_succ (hlt : π.length + (art.mem p).atBits < art.artAlen) :
    (art.mem p).atLevel + 1 < art.artLevels.length := by
  by_contra hge
  have hsum := h.sum_take_succ hp
  rw [take_of_length_le (Nat.not_lt.mp hge), h.sum] at hsum
  omega

theorem exists_child (hq : tab ρ = some q)
    (hpre : π ++ l <+: ρ) (hl : l.length = (art.mem p).atBits) : tab (π ++ l) ≠ none := by
  have hlen := hpre.length_le
  have hbits := h.bits_pos hp
  rw [length_append] at hlen
  have hbetween := (h.between hp hq ((prefix_append π l).trans hpre) (by
    rintro rfl
    omega)).2
  have htake : ρ.take (π.length + (art.mem p).atBits) = π ++ l := by
    rw [← hl, ← length_append]
    exact (prefix_iff_eq_take.mp hpre).symm
  rwa [htake] at hbetween

theorem prefix_fringe (hl : l.length = (art.mem p).atBits)
    (hq : tab ρ = some q) (hpre : ρ <+: π ++ l) (hne : ρ ≠ π ++ l) : ρ <+: π := by
  rcases Nat.le_total ρ.length π.length with hle | hle
  · exact prefix_of_prefix_length_le hpre (prefix_append π l) hle
  · have hπ : π <+: ρ := prefix_of_prefix_length_le (prefix_append π l) hpre hle
    by_cases heq : π = ρ
    · rw [heq]
    · exfalso
      have hbetween := (h.between hp hq hπ heq).1
      have hlen := hpre.length_le
      rw [length_append] at hlen
      exact hne (hpre.eq_of_length (by rw [length_append]; omega))

theorem fringe_unique {m : List Bool}
    (hl : l.length = (art.mem p).atBits) (hq : tab ρ = some q) (hm : m.length = (art.mem q).atBits)
    (happ : ρ ++ m = π ++ l) : ρ = π ∧ m = l := by
  have hpos := h.bits_pos hp
  have hpos' := h.bits_pos hq
  have hlt : ρ ≠ π ++ l := by
    rw [← happ, Ne, self_eq_append_right]
    rintro rfl
    rw [length_nil] at hm
    omega
  have hpre := h.prefix_fringe hp hl hq (happ ▸ prefix_append ρ m) hlt
  have heq : ρ = π := by
    by_contra hne
    have hbetween := (h.between hq hp hpre hne).1
    have hlen := congrArg length happ
    rw [length_append, length_append] at hlen
    omega
  subst heq
  exact ⟨rfl, append_cancel_left happ⟩

end

end Shape

theorem Shape.bindex (h : Shape art tab)
    (hp : tab (bitsOf addr m) = some p) (hlo : m ≤ plen) (hhi : plen ≤ m + (art.mem p).atBits) :
    artBindex (art.mem p).atOffset (art.mem p).atBits addr plen =
      some (idx ((bitsOf addr plen).drop m)) := by
  have hoff := (h.table hp).offset
  have haligned := h.aligned hp
  rw [length_bitsOf] at hoff haligned
  rw [hoff]
  exact artBindex_eq addr haligned hlo hhi

def TableFor (art : Art) (tab : Tables) (κ : List Bool) (q : Ptr) : Prop :=
  ∃ π l, tab π = some q ∧ κ = π ++ l ∧ l ≠ [] ∧ l.length ≤ (art.mem q).atBits

theorem TableFor.exists_child (h : Shape art tab) (hq : TableFor art tab κ q) (hp : tab π = some p)
    (hl : l.length = (art.mem p).atBits) (hpre : π ++ l <+: κ)
    (hlt : (π ++ l).length < κ.length) : tab (π ++ l) ≠ none := by
  obtain ⟨ρ, m, hρ, rfl, hm, hle⟩ := hq
  rw [length_append, length_append] at hlt
  have hfirst : π <+: ρ ++ m := (prefix_append π l).trans hpre
  rcases Nat.le_total ρ.length π.length with hshort | hlong
  · exfalso
    have hρπ : ρ <+: π := prefix_of_prefix_length_le (prefix_append ρ m) hfirst hshort
    by_cases heq : ρ = π
    · subst heq
      rw [some.inj (hρ.symm.trans hp)] at hle
      omega
    · have hbetween := (h.between hρ hp hρπ heq).1
      omega
  · have hπρ : π <+: ρ := prefix_of_prefix_length_le hfirst (prefix_append ρ m) hlong
    have hbetween : π = ρ ∨ π.length + (art.mem p).atBits ≤ ρ.length := by
      by_cases heq : π = ρ
      · exact .inl heq
      · exact .inr (h.between hp hρ hπρ heq).1
    rcases hbetween with rfl | hfar
    · rw [some.inj (hρ.symm.trans hp)] at hle
      omega
    · exact h.exists_child hp hρ (prefix_of_prefix_length_le hpre (prefix_append ρ m)
        (by rw [length_append]; omega)) hl

theorem Shape.bindex_for (h : Shape art tab) (hp : tab π = some p)
    (hκ : bitsOf addr plen = π ++ l) (hl : l.length ≤ (art.mem p).atBits) :
    artBindex (art.mem p).atOffset (art.mem p).atBits addr plen = some (idx l) := by
  have hlen := congrArg length hκ
  rw [length_bitsOf, length_append] at hlen
  have hπ : bitsOf addr π.length = π := by
    rw [← take_bitsOf addr (show π.length ≤ plen by omega), hκ, take_left']
    rfl
  rw [h.bindex (m := π.length) (by rw [hπ]; exact hp) (by omega) (by omega), hκ, drop_left' rfl]

theorem Shape.offset_eq (h : Shape art tab) (hp : tab (bitsOf addr m) = some p) :
    (art.mem p).atOffset = m := by
  rw [(h.table hp).offset, length_bitsOf]

theorem tableFor_of_le (hp : tab (bitsOf addr m) = some p) (hm : m < plen)
    (hle : plen ≤ m + (art.mem p).atBits) : TableFor art tab (bitsOf addr plen) p := by
  refine ⟨_, (bitsOf addr plen).drop m, hp, (bitsOf_append_drop _ (Nat.le_of_lt hm)).symm, ?_, ?_⟩
  · refine length_pos_iff.mp ?_
    rw [length_drop, length_bitsOf]
    omega
  · rw [length_drop, length_bitsOf]
    omega

/-- One stride of the bits of an address from a table on. -/
theorem Shape.stride (h : Shape art tab) (hp : tab (bitsOf addr m) = some p) :
    ∃ l, l.length = (art.mem p).atBits ∧ bitsOf addr m ++ l = bitsOf addr (m + (art.mem p).atBits) ∧
      artBindex m (art.mem p).atBits addr (m + (art.mem p).atBits) = some (idx l) ∧
      ∀ c, art.entry p (idx l) = .heap c → tab (bitsOf addr (m + (art.mem p).atBits)) = some c ∧
        (art.mem c).atLevel = (art.mem p).atLevel + 1 := by
  let l := (bitsOf addr (m + (art.mem p).atBits)).drop m
  have hsplit : bitsOf addr m ++ l = bitsOf addr (m + (art.mem p).atBits) :=
    bitsOf_append_drop _ (Nat.le_add_right ..)
  have hlen : l.length = (art.mem p).atBits := by
    rw [length_drop, length_bitsOf, Nat.add_sub_cancel_left]
  refine ⟨l, hlen, hsplit, ?_, fun c hent => ?_⟩
  · have hbindex := h.bindex hp (Nat.le_add_right m (art.mem p).atBits) (Nat.le_refl _)
    rwa [h.offset_eq hp] at hbindex
  · have hc := (h.link hp hlen c).mp hent
    exact ⟨hsplit ▸ hc, (h.child hp hlen hc).2.2⟩

theorem Shape.descend (h : Shape art tab) (hp : tab (bitsOf addr m) = some p)
    (hlt : m + (art.mem p).atBits < plen) : ∃ l, l.length = (art.mem p).atBits ∧
      bitsOf addr m ++ l = bitsOf addr (m + (art.mem p).atBits) ∧
      artBindex (art.mem p).atOffset (art.mem p).atBits addr
        ((art.mem p).atOffset + (art.mem p).atBits) = some (idx l) ∧
      ((∃ c, art.entry p (idx l) = .heap c ∧ tab (bitsOf addr (m + (art.mem p).atBits)) = some c ∧
          (art.mem c).atLevel = (art.mem p).atLevel + 1) ∨
        ∃ ahe, art.entry p (idx l) = .node ahe ∧ tab (bitsOf addr m ++ l) = none ∧
          ¬∃ q, TableFor art tab (bitsOf addr plen) q) := by
  obtain ⟨l, hlen, hsplit, hidx, hnext⟩ := h.stride hp
  refine ⟨l, hlen, hsplit, by rwa [h.offset_eq hp], ?_⟩
  cases hent : art.entry p (idx l) with
  | heap c => exact .inl ⟨c, rfl, hnext c hent⟩
  | node ahe =>
    have hnone : tab (bitsOf addr m ++ l) = none := by
      cases hc : tab (bitsOf addr m ++ l) with
      | none => rfl
      | some c =>
        rw [(h.link hp hlen c).mpr hc] at hent
        cases hent
    have hpre : bitsOf addr m ++ l <+: bitsOf addr plen := by
      rw [hsplit, ← take_bitsOf addr (Nat.le_of_lt hlt)]
      exact take_prefix _ _
    have hlonger : (bitsOf addr m ++ l).length < (bitsOf addr plen).length := by
      rwa [hsplit, length_bitsOf, length_bitsOf]
    exact .inr ⟨ahe, rfl, hnone, fun ⟨q, hq⟩ => hq.exists_child h hp hlen hpre hlonger hnone⟩

section RouteAt

theorem routeAt_of_some (hpos : l ≠ []) (h : R (π ++ l) = some oan) : routeAt R π l = some oan := by
  have hlen : 0 < l.length := length_pos_iff.mpr hpos
  rw [routeAt, longest_succ (by rw [length_append]; omega), take_length, h, some_or]

theorem routeAt_stands (hR : Keyed ArtNode.bits R)
    (h : routeAt R π l = some oan) (hbits : oan.bits = π ++ l) : R (π ++ l) = some oan := by
  obtain ⟨j, -, -, hval, -⟩ := longest_eq_some.mp h
  rwa [← hR _ _ hval, hbits] at hval

end RouteAt

theorem Values.slot_route (hv : Values art tab R) (hp : tab π = some p) (hpos : l ≠ [])
    (hl : l.length ≤ (art.mem p).atBits) :
    art.entry (art.slot p (idx l)).1 (art.slot p (idx l)).2 = .node (routeAt R π l) :=
  hv.slot hp hpos hl

theorem Home.tableFor (hq : tab π = some q) (h : Home π (art.mem q).atBits κ) (hκ : κ ≠ []) :
    TableFor art tab κ q := by
  obtain ⟨⟨l, hl⟩, hlen, hpos⟩ := h
  have hlt := hpos.resolve_right hκ
  rw [← hl, length_append] at hlt hlen
  exact ⟨π, l, hq, hl.symm, length_pos_iff.mp (by omega), by omega⟩

theorem Values.tableFor (hv : Values art tab R) (hR : R κ = some an)
    (hκ : κ ≠ []) : ∃ q, TableFor art tab κ q := by
  obtain ⟨π, q, hq, hhome⟩ := hv.stored hR
  exact ⟨q, hhome.tableFor hq hκ⟩

end Mbsd.Net.Allotment
