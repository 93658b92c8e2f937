import Mathlib.Data.Set.Card
import Mbsd.Kern.SubrTree.Remove

/-! The elements stand in the order of `t_compare`: where the searches end, and `_rb_insert`. -/

namespace Mbsd.Kern.SubrTree

open Lib BinTree List Nat

variable {comp : Int} {α : Type} {f : Nat → Option α}

structure TotalPreorder {ν : Type} (tCompare : ν → ν → Int) : Prop where
  anti (x y : ν) : tCompare x y < 0 ↔ 0 < tCompare y x
  trans {x y z : ν} : tCompare x y ≤ 0 → tCompare y z ≤ 0 → tCompare x z ≤ 0

variable {ν : Type} {tCompare : ν → ν → Int} {s s' : RbTree ν} {p : Path ν} {t l r : BinTree ν}
  {x y z key elm : ν} {fuel : Nat}

namespace TotalPreorder

variable (hc : TotalPreorder tCompare)

include hc

theorem refl (x : ν) : tCompare x x = 0 := by
  have := hc.anti x x
  omega

theorem lt_of_lt_of_le (hxy : tCompare x y < 0) (hyz : tCompare y z ≤ 0) : tCompare x z < 0 := by
  by_contra hxz
  have hzx : tCompare z x ≤ 0 := by
    have := hc.anti x z
    omega
  have := hc.trans hyz hzx
  have := hc.anti x y
  omega

theorem pos_of_pos_of_lt (hx : 0 < tCompare key x) (hz : tCompare z x < 0) : 0 < tCompare key z :=
  (hc.anti z key).mp (hc.lt_of_lt_of_le hz (Int.le_of_lt ((hc.anti x key).mpr hx)))

end TotalPreorder

def Sorted (tCompare : ν → ν → Int) (l : List ν) : Prop :=
  l.Pairwise fun x y => tCompare x y < 0

/-- The key belongs in the place: what is before is less, and what is after is greater. -/
def Belongs (tCompare : ν → ν → Int) (key : ν) (p : Path ν) : Prop :=
  (∀ z ∈ p.beyond .left, 0 < tCompare key z) ∧ ∀ z ∈ p.beyond .right, tCompare key z < 0

theorem belongs_root : Belongs tCompare key .root := ⟨nofun, nofun⟩

theorem Sorted.beside (hs : Sorted tCompare (p.fill (node l x r)).toList) :
    (∀ z ∈ l.toList, tCompare z x < 0) ∧ ∀ z ∈ r.toList, tCompare x z < 0 := by
  rw [Sorted, Path.toList_fill, toList] at hs
  have hmid := (pairwise_append.mp (pairwise_append.mp hs).2.1).1
  obtain ⟨-, hr, hl⟩ := pairwise_append.mp hmid
  exact ⟨fun z hz => hl z hz x mem_cons_self, (pairwise_cons.mp hr).1⟩

section

variable (h : Belongs tCompare key p) (hc : TotalPreorder tCompare)
  (hs : Sorted tCompare (p.fill (node l x r)).toList)

include h hc hs

theorem Belongs.left (hx : tCompare key x < 0) : Belongs tCompare key (.step .left p x r) := by
  refine ⟨h.1, fun z hz => ?_⟩
  simp only [Path.beyond, reduceCtorEq, if_false, along, mem_cons, mem_append] at hz
  rcases hz with rfl | hz | hz
  · exact hx
  · exact hc.lt_of_lt_of_le hx (Int.le_of_lt (hs.beside.2 z hz))
  · exact h.2 z hz

theorem Belongs.right (hx : 0 < tCompare key x) : Belongs tCompare key (.step .right p x l) := by
  refine ⟨fun z hz => ?_, h.2⟩
  simp only [Path.beyond, reduceCtorEq, if_false, along, mem_cons, mem_append, mem_reverse] at hz
  rcases hz with rfl | hz | hz
  · exact hx
  · exact hc.pos_of_pos_of_lt hx (hs.beside.1 z hz)
  · exact h.1 z hz

theorem Belongs.before (hx : tCompare key x = 0) :
    ∀ z ∈ (p.beyond .left).reverse ++ l.toList, 0 < tCompare key z := by
  intro z hz
  rw [mem_append, mem_reverse] at hz
  rcases hz with hz | hz
  · exact h.1 z hz
  · have hxk : tCompare x key ≤ 0 := by
      have := hc.anti key x
      omega
    exact (hc.anti z key).mp (hc.lt_of_lt_of_le (hs.beside.1 z hz) hxk)

end

theorem find?_topmost {test : ν → Bool} (hx : test x = true)
    (hbefore : ∀ z ∈ (p.beyond .left).reverse ++ l.toList, ¬test z = true) :
    (p.fill (node l x r)).toList.find? test = some x := by
  refine find?_eq_some_iff_append.mpr ⟨hx, (p.beyond .left).reverse ++ l.toList,
    r.toList ++ p.beyond .right, ?_, fun z hz => ?_⟩
  · simp [Path.toList_fill, toList]
  · simpa using hbefore z hz

theorem Holds.children (h : Holds s (p.fill (node l x r))) :
    s.rbtChild .left x = l.top ∧ s.rbtChild .right x = r.top :=
  ⟨(holds_fill.mp h).2.1.2.1, (holds_fill.mp h).2.1.2.2.1⟩

section

variable (hc : TotalPreorder tCompare)

include hc

theorem findLoop_spec (h : Holds s (p.fill t))
    (hs : Sorted tCompare (p.fill t).toList) (hk : Belongs tCompare key p) (hf : t.height < fuel) :
    findLoop tCompare s key fuel t.top = some ((p.fill t).toList.find? (tCompare key · = 0)) := by
  induction t generalizing p fuel with
  | nil =>
    obtain ⟨fuel, rfl⟩ := exists_eq_succ_of_ne_zero (Nat.ne_zero_of_lt hf)
    have hnone : (p.fill .nil).toList.find? (tCompare key · = 0) = none := by
      simp only [find?_eq_none, Path.toList_fill, toList, nil_append, mem_append,
        mem_reverse, decide_eq_true_eq]
      rintro z (hz | hz)
      · exact Int.ne_of_gt (hk.1 z hz)
      · exact Int.ne_of_lt (hk.2 z hz)
    rw [hnone]
    rfl
  | node l x r ihl ihr =>
    obtain ⟨fuel, rfl⟩ := exists_eq_succ_of_ne_zero (Nat.ne_zero_of_lt hf)
    simp only [height] at hf
    obtain ⟨hl, hr⟩ := h.children
    simp only [top_node, findLoop, hl, hr]
    split_ifs with hlt hgt
    · exact ihl (p := .step .left p x r) h hs (hk.left hc hs hlt) (by omega)
    · exact ihr (p := .step .right p x l) h hs (hk.right hc hs hgt) (by omega)
    · have heq : tCompare key x = 0 := by omega
      refine congrArg some (Eq.symm (find?_topmost (by simpa using heq) fun z hz => ?_))
      simpa using Int.ne_of_gt (hk.before hc hs heq z hz)

theorem rbFind_spec (h : Holds s t) (hs : Sorted tCompare t.toList)
    (hf : t.height < fuel) (key : ν) :
    rbFind tCompare fuel s key = some (t.toList.find? (tCompare key · = 0)) := by
  rw [rbFind, h.root]
  exact findLoop_spec hc (p := .root) h hs belongs_root hf

theorem nfindLoop_spec (h : Holds s (p.fill t))
    (hs : Sorted tCompare (p.fill t).toList) (hk : Belongs tCompare key p)
    (hf : t.height < fuel) : nfindLoop tCompare s key fuel t.top (p.beyond .right).head? =
      some ((p.fill t).toList.find? (tCompare key · ≤ 0)) := by
  induction t generalizing p fuel with
  | nil =>
    obtain ⟨fuel, rfl⟩ := exists_eq_succ_of_ne_zero (Nat.ne_zero_of_lt hf)
    have hbefore : (p.beyond .left).reverse.find? (tCompare key · ≤ 0) = none := by
      simpa [find?_eq_none] using hk.1
    have hafter : (p.beyond .right).find? (tCompare key · ≤ 0) = (p.beyond .right).head? := by
      cases hall : p.beyond .right with
      | nil => rfl
      | cons y k => simp [Int.le_of_lt (hk.2 y (hall ▸ mem_cons_self))]
    rw [Path.toList_fill, find?_append, hbefore, toList, nil_append, hafter]
    rfl
  | node l x r ihl ihr =>
    obtain ⟨fuel, rfl⟩ := exists_eq_succ_of_ne_zero (Nat.ne_zero_of_lt hf)
    simp only [height] at hf
    obtain ⟨hl, hr⟩ := h.children
    simp only [top_node, nfindLoop, hl, hr]
    split_ifs with hlt hgt
    · exact ihl (p := .step .left p x r) h hs (hk.left hc hs hlt) (by omega)
    · exact ihr (p := .step .right p x l) h hs (hk.right hc hs hgt) (by omega)
    · have heq : tCompare key x = 0 := by omega
      refine congrArg some (Eq.symm (find?_topmost (by simp [heq]) fun z hz => ?_))
      simpa using hk.before hc hs heq z hz

theorem rbNfind_spec (h : Holds s t) (hs : Sorted tCompare t.toList)
    (hf : t.height < fuel) (key : ν) :
    rbNfind tCompare fuel s key = some (t.toList.find? (tCompare key · ≤ 0)) := by
  rw [rbNfind, h.root]
  exact nfindLoop_spec hc (p := .root) h hs belongs_root hf

end

inductive InsertsAt (tCompare : ν → ν → Int) (elm : ν) (t : BinTree ν) : Found ν → Prop
  | equal {x : ν} : t.toList.find? (tCompare elm · = 0) = some x → InsertsAt tCompare elm t (.equal x)
  | below {p : Path ν} {comp : Int} : t = p.fill .nil → Belongs tCompare elm p →
      (∀ d q x b, p = .step d q x b → (d = .left ↔ comp < 0)) →
      InsertsAt tCompare elm t (.below p.parent comp)

theorem insertSearch_spec (comp : Int) (hc : TotalPreorder tCompare) (h : Holds s (p.fill t))
    (hs : Sorted tCompare (p.fill t).toList) (hk : Belongs tCompare elm p)
    (hcomp : ∀ d q x b, p = .step d q x b → (d = .left ↔ comp < 0)) :
    ∃ found, (∀ fuel, t.height < fuel →
        insertSearch tCompare s elm fuel t.top p.parent comp = some found) ∧
      InsertsAt tCompare elm (p.fill t) found := by
  induction t generalizing p comp with
  | nil =>
    refine ⟨_, fun fuel hf => ?_, .below rfl hk hcomp⟩
    obtain ⟨fuel, rfl⟩ := exists_eq_succ_of_ne_zero (Nat.ne_zero_of_lt hf)
    rfl
  | node l x r ihl ihr =>
    obtain ⟨hl, hr⟩ := h.children
    have hlen : (node l x r).height = max l.height r.height + 1 := rfl
    have hround : ∀ fuel, insertSearch tCompare s elm (fuel + 1) (some x) p.parent comp =
        if tCompare elm x < 0 then insertSearch tCompare s elm fuel l.top (some x) (tCompare elm x)
        else if tCompare elm x > 0 then
          insertSearch tCompare s elm fuel r.top (some x) (tCompare elm x)
        else some (.equal x) := by
      intro fuel
      rw [← hl, ← hr]
      rfl
    by_cases hlt : tCompare elm x < 0
    · obtain ⟨found, hloop, hat⟩ := ihl (p := .step .left p x r) (tCompare elm x) h hs
        (hk.left hc hs hlt) (by rintro d q y b ⟨⟩; exact iff_of_true rfl hlt)
      refine ⟨found, fun fuel hf => ?_, hat⟩
      obtain ⟨fuel, rfl⟩ := exists_eq_succ_of_ne_zero (Nat.ne_zero_of_lt hf)
      rw [top_node, hround, if_pos hlt]
      exact hloop fuel (by omega)
    · by_cases hgt : tCompare elm x > 0
      · obtain ⟨found, hloop, hat⟩ := ihr (p := .step .right p x l) (tCompare elm x) h hs
          (hk.right hc hs hgt) (by rintro d q y b ⟨⟩; exact iff_of_false nofun hlt)
        refine ⟨found, fun fuel hf => ?_, hat⟩
        obtain ⟨fuel, rfl⟩ := exists_eq_succ_of_ne_zero (Nat.ne_zero_of_lt hf)
        rw [top_node, hround, if_neg hlt, if_pos hgt]
        exact hloop fuel (by omega)
      · have heq : tCompare elm x = 0 := by omega
        refine ⟨.equal x, fun fuel hf => ?_, .equal (find?_topmost (by simpa using heq) fun z hz => ?_)⟩
        · obtain ⟨fuel, rfl⟩ := exists_eq_succ_of_ne_zero (Nat.ne_zero_of_lt hf)
          rw [top_node, hround, if_neg hlt, if_neg hgt]
        · simpa using Int.ne_of_gt (hk.before hc hs heq z hz)

structure SearchTree (tCompare : ν → ν → Int) (s : RbTree ν) (t : BinTree ν) : Prop where
  holds : Holds s t
  redBlack : RedBlack (IsRed s) t
  sorted : Sorted tCompare t.toList

theorem Sorted.insert (hs : Sorted tCompare (p.fill .nil).toList) (hc : TotalPreorder tCompare)
    (hk : Belongs tCompare elm p) : Sorted tCompare (p.fill (node .nil elm .nil)).toList := by
  simp only [Sorted, Path.toList_fill, toList, nil_append, singleton_append,
    pairwise_append, pairwise_cons, mem_reverse, mem_cons] at hs ⊢
  refine ⟨hs.1, ⟨hk.2, hs.2.1⟩, fun z hz w hw => ?_⟩
  rcases hw with rfl | hw
  · exact (hc.anti z w).mpr (hk.1 z hz)
  · exact hs.2.2 z hz w hw

variable [DecidableEq ν]

theorem isRed_hang {parent : Option ν} :
    IsRed (hang s elm parent comp) x ↔ x = elm ∨ IsRed s x := by
  have hcol : (hang s elm parent comp).rbtColor = (s.setColor elm .RB_RED).rbtColor := by
    unfold hang
    split
    · rfl
    · split <;> rfl
  rw [IsRed.congr hcol, isRed_setColor]
  split <;> simp [*]

theorem Holds.hang (h : Holds s (p.fill .nil)) (hn : elm ∉ (p.fill .nil).toList)
    (hcomp : ∀ d q x b, p = .step d q x b → (d = .left ↔ comp < 0)) :
    Holds (hang s elm p.parent comp) (p.fill (node .nil elm .nil)) := by
  cases p with
  | root => exact holds_attach_root
  | step d q x b =>
    have hset : SubrTree.hang s elm (some x) comp =
        (rbeSet s elm (some x)).setChild d x (some elm) := by
      have hd := hcomp d q x b rfl
      cases d with
      | left => exact if_pos (hd.mp rfl)
      | right => exact if_neg fun hlt => nomatch hd.mpr hlt
    rw [Path.parent, hset]
    exact h.attach hn

theorem SearchTree.hang (h : SearchTree tCompare s (p.fill .nil))
    (hn : elm ∉ (p.fill .nil).toList)
    (hcomp : ∀ d q x b, p = .step d q x b → (d = .left ↔ comp < 0)) :
    Inserting (hang s elm p.parent comp) p (node .nil elm .nil) elm 0 := by
  obtain ⟨n, hp, ht, -⟩ := Path.Balanced.of_fill h.redBlack
  cases ht
  have hred : IsRed (SubrTree.hang s elm p.parent comp) elm := isRed_hang.mpr (.inl rfl)
  refine ⟨h.holds.hang hn hcomp, rfl, hred, .red hred blackTop_nil blackTop_nil .nil .nil, ?_⟩
  refine hp.congr fun y hy => isRed_hang.trans (or_iff_right fun hye => hn ?_)
  exact (p.perm_fill .nil).mem_iff.mpr (hye ▸ hy)

theorem rbInsert_spec (hc : TotalPreorder tCompare) (h : SearchTree tCompare s t) (elm : ν) :
    (∃ x, t.toList.find? (tCompare elm · = 0) = some x ∧
      ∀ fuel, t.height < fuel → rbInsert tCompare fuel s elm = some (s, some x)) ∨
    (t.toList.find? (tCompare elm · = 0) = none ∧ ∃ s' t',
      (∀ fuel, t.height < fuel → rbInsert tCompare fuel s elm = some (s', none)) ∧
      SearchTree tCompare s' t' ∧ t'.toList.Perm (elm :: t.toList)) := by
  obtain ⟨found, hsearch, hat⟩ := insertSearch_spec (p := .root) 0 hc h.holds h.sorted
    (belongs_root : Belongs tCompare elm .root) nofun
  have hloop : ∀ fuel, t.height < fuel →
      insertSearch tCompare s elm fuel s.rbtRoot none 0 = some found := h.holds.root ▸ hsearch
  cases hat with
  | @equal x hx => exact .inl ⟨x, hx, fun fuel hf => by simp [rbInsert, hloop fuel hf]⟩
  | @below p comp ht hk hcomp =>
    rw [Path.fill] at ht
    subst ht
    have hne : ∀ z ∈ (p.fill .nil).toList, tCompare elm z ≠ 0 := by
      simp only [Path.toList_fill, toList, nil_append, mem_append, mem_reverse]
      rintro z (hz | hz)
      · exact Int.ne_of_gt (hk.1 z hz)
      · exact Int.ne_of_lt (hk.2 z hz)
    have hn : elm ∉ (p.fill .nil).toList := fun hmem => hne elm hmem (hc.refl elm)
    have hlen := p.length_add_height_le .nil
    obtain ⟨s', t', hrun, hs', hb, hl⟩ := rbeInsertColor_spec (h.hang hn hcomp)
    refine .inr ⟨by simpa [find?_eq_none] using hne, s', t', fun fuel hf => ?_, ⟨hs', hb, ?_⟩, ?_⟩
    · simp [rbInsert, hloop fuel hf, hrun fuel (by omega)]
    · exact hl ▸ h.sorted.insert hc hk
    · rw [hl]
      exact (p.perm_fill _).trans ((p.perm_fill .nil).symm.cons elm)

/-! Runs of `_rb_insert` and `_rb_remove`: the tree is the set of the elements that are in it. -/

def Ends {α : Type} (f : Nat → Option α) (r : α) : Prop := ∃ n, ∀ fuel, n ≤ fuel → f fuel = some r

theorem Ends.unique {r r' : α} (h : Ends f r) (h' : Ends f r') :
    r = r' := by
  obtain ⟨n, hn⟩ := h
  obtain ⟨m, hm⟩ := h'
  exact Option.some.inj ((hn _ (Nat.le_max_left n m)).symm.trans (hm _ (Nat.le_max_right n m)))

variable {ν : Type} {tCompare : ν → ν → Int} {s s' : RbTree ν} {t : BinTree ν}
  {S : Set ν} {x elm : ν}

structure Represents (tCompare : ν → ν → Int) (s : RbTree ν) (S : Set ν) (t : BinTree ν) :
    Prop where
  tree : SearchTree tCompare s t
  mem (x : ν) : x ∈ t.toList ↔ x ∈ S

theorem Represents.find (h : Represents tCompare s S t) (hc : TotalPreorder tCompare) (key : ν) :
    ∃ res, Ends (rbFind tCompare · s key) res ∧ (∀ y, res = some y → y ∈ S ∧ tCompare key y = 0) ∧
      (res = none → ∀ y ∈ S, tCompare key y ≠ 0) := by
  refine ⟨_, ⟨_, fun fuel hf => rbFind_spec hc h.tree.holds h.tree.sorted hf key⟩, ?_, ?_⟩
  · intro y hy
    exact ⟨(h.mem y).mp (mem_of_find?_eq_some hy), by simpa using find?_some hy⟩
  · intro hnone y hy
    simpa using find?_eq_none.mp hnone y ((h.mem y).mpr hy)

theorem Represents.nfind (h : Represents tCompare s S t) (hc : TotalPreorder tCompare) (key : ν) :
    ∃ res, Ends (rbNfind tCompare · s key) res ∧ (∀ y, res = some y → y ∈ S ∧ tCompare key y ≤ 0 ∧
        ∀ z ∈ S, tCompare key z ≤ 0 → z = y ∨ tCompare y z < 0) ∧
      (res = none → ∀ y ∈ S, 0 < tCompare key y) := by
  refine ⟨_, ⟨_, fun fuel hf => rbNfind_spec hc h.tree.holds h.tree.sorted hf key⟩, ?_, ?_⟩
  · intro y hy
    refine ⟨(h.mem y).mp (mem_of_find?_eq_some hy), by simpa using find?_some hy,
      fun z hz hle => ?_⟩
    obtain ⟨-, before, after, hlist, hbefore⟩ := find?_eq_some_iff_append.mp hy
    have hmem := (h.mem z).mpr hz
    have hsorted := h.tree.sorted
    rw [hlist, mem_append, mem_cons] at hmem
    rw [Sorted, hlist] at hsorted
    rcases hmem with hmem | rfl | hmem
    · exact absurd hle (by simpa using hbefore z hmem)
    · exact .inl rfl
    · exact .inr ((pairwise_cons.mp (pairwise_append.mp hsorted).2.1).1 z hmem)
  · intro hnone y hy
    simpa using find?_eq_none.mp hnone y ((h.mem y).mpr hy)

variable [DecidableEq ν]

/-- A run from `_rb_init`, with the elements that have been inserted and not removed. -/
inductive Run (tCompare : ν → ν → Int) : RbTree ν → Set ν → Prop
  | init {s : RbTree ν} : s.rbtRoot = none → Run tCompare s ∅
  | insert {s s' : RbTree ν} {S : Set ν} {elm : ν} {res : Option ν} : Run tCompare s S →
      (∀ y ∈ S, tCompare elm y ≠ 0) → Ends (rbInsert tCompare · s elm) (s', res) →
      Run tCompare s' (insert elm S)
  | insertEqual {s s' : RbTree ν} {S : Set ν} {elm y : ν} {res : Option ν} : Run tCompare s S →
      y ∈ S → tCompare elm y = 0 → Ends (rbInsert tCompare · s elm) (s', res) → Run tCompare s' S
  | remove {s s' : RbTree ν} {S : Set ν} {elm res : ν} : Run tCompare s S → elm ∈ S →
      Ends (rbRemove · s elm) (s', res) → Run tCompare s' (S \ {elm})

theorem Represents.insertEqual (h : Represents tCompare s S t) (hc : TotalPreorder tCompare)
    (hx : x ∈ S) (heq : tCompare elm x = 0) :
    ∃ y ∈ S, tCompare elm y = 0 ∧ Ends (rbInsert tCompare · s elm) (s, some y) := by
  rcases rbInsert_spec hc h.tree elm with ⟨y, hy, hrun⟩ | ⟨hnone, -⟩
  · exact ⟨y, (h.mem y).mp (mem_of_find?_eq_some hy), by simpa using find?_some hy, _, hrun⟩
  · exact absurd heq (by simpa using find?_eq_none.mp hnone x ((h.mem x).mpr hx))

theorem Represents.insert (h : Represents tCompare s S t) (hc : TotalPreorder tCompare)
    (hne : ∀ y ∈ S, tCompare elm y ≠ 0) : ∃ s' t', Ends (rbInsert tCompare · s elm) (s', none) ∧
      Represents tCompare s' (insert elm S) t' := by
  rcases rbInsert_spec hc h.tree elm with ⟨y, hy, -⟩ | ⟨-, s', t', hrun, ht', hperm⟩
  · have hcmp : tCompare elm y = 0 := by simpa using find?_some hy
    exact absurd hcmp (hne y ((h.mem y).mp (mem_of_find?_eq_some hy)))
  · refine ⟨s', t', ⟨_, hrun⟩, ht', fun x => ?_⟩
    rw [hperm.mem_iff, mem_cons, h.mem, Set.mem_insert_iff]

theorem Represents.remove (h : Represents tCompare s S t) (hx : x ∈ S) :
    ∃ s' t', Ends (rbRemove · s x) (s', x) ∧ Represents tCompare s' (S \ {x}) t' := by
  obtain ⟨s', t', hrun, hs', hb, hl⟩ :=
    rbeRemove_spec h.tree.holds h.tree.redBlack ((h.mem x).mpr hx)
  refine ⟨s', t', ⟨t.height, fun fuel hf => ?_⟩, ⟨hs', hb, ?_⟩, fun y => ?_⟩
  · simp [rbRemove, hrun fuel hf]
  · exact hl ▸ h.tree.sorted.sublist erase_sublist
  · rw [hl, h.tree.holds.nodup.mem_erase_iff, h.mem, Set.mem_sdiff, Set.mem_singleton_iff, and_comm]

theorem Run.represents (h : Run tCompare s S) (hc : TotalPreorder tCompare) :
    ∃ t, Represents tCompare s S t := by
  induction h with
  | init hroot =>
    refine ⟨.nil, ⟨⟨hroot, trivial, .nil⟩, ⟨blackTop_nil, 0, .nil⟩, .nil⟩, fun x => ?_⟩
    simp [toList]
  | insert _ hne hrun ih =>
    obtain ⟨t, ht⟩ := ih
    obtain ⟨s', t', hrun', ht'⟩ := ht.insert hc hne
    obtain ⟨rfl, rfl⟩ := Prod.mk.inj (hrun.unique hrun')
    exact ⟨t', ht'⟩
  | insertEqual _ hy heq hrun ih =>
    obtain ⟨t, ht⟩ := ih
    obtain ⟨z, -, -, hrun'⟩ := ht.insertEqual hc hy heq
    obtain ⟨rfl, rfl⟩ := Prod.mk.inj (hrun.unique hrun')
    exact ⟨t, ht⟩
  | remove _ hx hrun ih =>
    obtain ⟨t, ht⟩ := ih
    obtain ⟨s', t', hrun', ht'⟩ := ht.remove hx
    obtain ⟨rfl, rfl⟩ := Prod.mk.inj (hrun.unique hrun')
    exact ⟨t', ht'⟩

/-- The tree is the ordered set of the elements that have been inserted and not removed. -/
theorem rbTree_refines_set (hc : TotalPreorder tCompare) (h : Run tCompare s S) :
    (∃ t, SearchTree tCompare s t ∧ (∀ x, x ∈ t.toList ↔ x ∈ S) ∧
      Ends (rbtForeach · s) t.toList ∧ Ends (rbtForeachReverse · s) t.toList.reverse) ∧
    (∀ elm, (∃ y ∈ S, tCompare elm y = 0) →
      ∃ y ∈ S, tCompare elm y = 0 ∧ Ends (rbInsert tCompare · s elm) (s, some y)) ∧
    (∀ elm, (∀ y ∈ S, tCompare elm y ≠ 0) → ∃ s', Ends (rbInsert tCompare · s elm) (s', none)) ∧
    (∀ elm ∈ S, ∃ s', Ends (rbRemove · s elm) (s', elm)) ∧
    (∀ key, ∃ res, Ends (rbFind tCompare · s key) res ∧
      (∀ y, res = some y → y ∈ S ∧ tCompare key y = 0) ∧
      (res = none → ∀ y ∈ S, tCompare key y ≠ 0)) ∧
    ∀ key, ∃ res, Ends (rbNfind tCompare · s key) res ∧
      (∀ y, res = some y → y ∈ S ∧ tCompare key y ≤ 0 ∧
        ∀ z ∈ S, tCompare key z ≤ 0 → z = y ∨ tCompare y z < 0) ∧
      (res = none → ∀ y ∈ S, 0 < tCompare key y) := by
  obtain ⟨t, ht⟩ := h.represents hc
  refine ⟨⟨t, ht.tree, ht.mem, ⟨_, fun fuel => rbtForeach_spec ht.tree.holds⟩,
    ⟨_, fun fuel => rbtForeachReverse_spec ht.tree.holds⟩⟩, ?_, ?_, ?_, ht.find hc, ht.nfind hc⟩
  · rintro elm ⟨x, hx, heq⟩
    exact ht.insertEqual hc hx heq
  · intro elm hne
    obtain ⟨s', -, hrun, -⟩ := ht.insert hc hne
    exact ⟨s', hrun⟩
  · intro elm helm
    obtain ⟨s', -, hrun, -⟩ := ht.remove helm
    exact ⟨s', hrun⟩

theorem Run.extend (hc : TotalPreorder tCompare) (h : Run tCompare s S) {x : ν}
    (hne : ∀ y ∈ S, tCompare x y ≠ 0) : ∃ s', Run tCompare s' (Insert.insert x S) := by
  obtain ⟨t, ht⟩ := h.represents hc
  obtain ⟨s', t', hrun, -⟩ := ht.insert hc hne
  exact ⟨s', h.insert hne hrun⟩

theorem minus_totalPreorder : TotalPreorder fun x y : Int => x - y := ⟨by omega, by omega⟩

theorem exists_run_pair : ∃ s : RbTree Int, Run (fun x y => x - y) s {1, 2} := by
  have h₀ : Run (fun x y : Int => x - y) ⟨fun _ => none, fun _ _ => none, fun _ => .RB_BLACK, none⟩
      ∅ := .init rfl
  obtain ⟨s₁, h₁⟩ := h₀.extend minus_totalPreorder (x := 2) (by simp)
  rw [insert_empty_eq] at h₁
  exact h₁.extend minus_totalPreorder (by simp)

theorem rbTree_refines_set_pair : ∃ s : RbTree Int,
    Run (fun x y => x - y) s {1, 2} ∧ ∃ t, SearchTree (fun x y => x - y) s t ∧
      (∀ x, x ∈ t.toList ↔ x ∈ ({1, 2} : Set Int)) ∧ Ends (rbtForeach · s) t.toList := by
  obtain ⟨s, h⟩ := exists_run_pair
  obtain ⟨⟨t, ht, hmem, hwalk, -⟩, -⟩ := rbTree_refines_set minus_totalPreorder h
  exact ⟨s, h, t, ht, hmem, hwalk⟩

theorem Represents.ncard (h : Represents tCompare s S t) : S.ncard = t.toList.length := by
  rw [← toFinset_card_of_nodup h.tree.holds.nodup, ← Set.ncard_coe_finset]
  exact congrArg Set.ncard (Set.ext fun x => by rw [coe_toFinset]; exact (h.mem x).symm)

/-- It comes to an end, with no loop of more than `n` rounds before the last one. -/
def EndsIn {α : Type} (n : Nat) (f : Nat → Option α) : Prop :=
  ∃ r, ∀ fuel, n < fuel → f fuel = some r

theorem EndsIn.of_le {r : α} {n m : Nat}
    (h : ∀ fuel, n ≤ fuel → f fuel = some r) (hle : n ≤ m) : EndsIn m f :=
  ⟨r, fun fuel hf => h fuel (by omega)⟩

/-- A tree of `n` elements is searched and rebalanced in `2 * log2 (n + 1)` rounds. -/
theorem rbTree_rounds (hc : TotalPreorder tCompare) (h : Run tCompare s S) {n : Nat}
    (hn : n = 2 * log 2 (S.ncard + 1)) :
    (∀ key, EndsIn n (rbFind tCompare · s key) ∧ EndsIn n (rbNfind tCompare · s key)) ∧
    (∀ elm, EndsIn n (rbInsert tCompare · s elm)) ∧
    (∀ elm ∈ S, EndsIn n (rbRemove · s elm) ∧ EndsIn n (rbNext · s elm) ∧
      EndsIn n (rbPrev · s elm)) ∧ EndsIn n (rbMin · s) ∧ EndsIn n (rbMax · s) := by
  obtain ⟨t, ht⟩ := h.represents hc
  have hs := ht.tree.holds
  have hle : t.height ≤ n := by
    rw [hn, ht.ncard]
    exact ht.tree.redBlack.height_le
  have hneighbour : ∀ d, ∀ elm ∈ S, EndsIn n (neighbour d · s elm) := by
    intro d elm helm
    obtain ⟨pre, post, hsplit⟩ := append_of_mem (mem_along.mpr ((ht.mem elm).mpr helm))
    exact .of_le (fun fuel hf => neighbour_of_split hs hsplit hf) hle
  refine ⟨fun key => ⟨?_, ?_⟩, fun elm => ?_, fun elm helm => ⟨?_, hneighbour .right elm helm,
    hneighbour .left elm helm⟩, .of_le (fun fuel hf => extreme_spec hs hf) hle,
    .of_le (fun fuel hf => extreme_spec hs hf) hle⟩
  · exact ⟨_, fun fuel hf => rbFind_spec hc hs ht.tree.sorted (by omega) key⟩
  · exact ⟨_, fun fuel hf => rbNfind_spec hc hs ht.tree.sorted (by omega) key⟩
  · rcases rbInsert_spec hc ht.tree elm with ⟨x, -, hrun⟩ | ⟨-, s', t', hrun, -⟩
    · exact ⟨_, fun fuel hf => hrun fuel (by omega)⟩
    · exact ⟨_, fun fuel hf => hrun fuel (by omega)⟩
  · obtain ⟨s', t', hrun, -⟩ := rbeRemove_spec hs ht.tree.redBlack ((ht.mem elm).mpr helm)
    exact .of_le (r := (s', elm)) (fun fuel hf => by simp [rbRemove, hrun fuel hf]) hle

theorem rbTree_rounds_three : ∃ s : RbTree Int, Run (fun x y => x - y) s {3, 1, 2} ∧
    ∀ key, EndsIn 4 (rbFind (fun x y => x - y) · s key) := by
  obtain ⟨s, h⟩ := exists_run_pair
  obtain ⟨s', h'⟩ := h.extend minus_totalPreorder (x := 3) (by simp)
  have hcard : ({3, 1, 2} : Set Int).ncard = 3 := by
    rw [Set.ncard_insert_of_notMem (by simp), Set.ncard_pair (by decide)]
  exact ⟨s', h', fun key => ((rbTree_rounds minus_totalPreorder h' (by rw [hcard]; rfl)).1 key).1⟩

end Mbsd.Kern.SubrTree
