import Mbsd.Kern.SubrTree.Model

/-! The tree that the pointers make up, and what the operations on pointers do to it. -/

namespace Mbsd.Kern.SubrTree

open Lib BinTree List Function RbTree

variable {ν : Type} {s s' : RbTree ν} {p : Path ν} {t a b c l r : BinTree ν}
  {x y z : ν} {par par' hole hole' : Option ν} {d e : Side} {color : RbColor}

def Linked (s : RbTree ν) : Option ν → BinTree ν → Prop
  | _, .nil => True
  | par, .node l x r => s.rbtParent x = par ∧ s.rbtChild .left x = l.top ∧
      s.rbtChild .right x = r.top ∧ Linked s (some x) l ∧ Linked s (some x) r

/-- The entries on the path and beside it point to each other, and to `hole` in the place. -/
def LinkedPath (s : RbTree ν) : Option ν → Path ν → Prop
  | hole, .root => s.rbtRoot = hole
  | hole, .step d p x b => s.rbtParent x = p.parent ∧ s.rbtChild d x = hole ∧
      s.rbtChild d.flip x = b.top ∧ Linked s (some x) b ∧ LinkedPath s (some x) p

structure Holds (s : RbTree ν) (t : BinTree ν) : Prop where
  root : s.rbtRoot = t.top
  linked : Linked s none t
  nodup : t.toList.Nodup

theorem linked_branch : Linked s par (branch d a x b) ↔ s.rbtParent x = par ∧ s.rbtChild d x = a.top ∧
    s.rbtChild d.flip x = b.top ∧ Linked s (some x) a ∧ Linked s (some x) b := by
  cases d with
  | left => rfl
  | right =>
    exact and_congr_right' ⟨fun ⟨h₁, h₂, h₃, h₄⟩ => ⟨h₂, h₁, h₄, h₃⟩,
      fun ⟨h₁, h₂, h₃, h₄⟩ => ⟨h₂, h₁, h₄, h₃⟩⟩

theorem linkedPath_fill : s.rbtRoot = (p.fill t).top ∧ Linked s none (p.fill t) ↔
    LinkedPath s t.top p ∧ Linked s p.parent t := by
  induction p generalizing t with
  | root => exact Iff.rfl
  | step d p x b ih =>
    rw [Path.fill, ih, linked_branch, top_branch]
    constructor
    · rintro ⟨hp, hx, ha, hb, hta, htb⟩
      exact ⟨⟨hx, ha, hb, htb, hp⟩, hta⟩
    · rintro ⟨⟨hx, ha, hb, htb, hp⟩, hta⟩
      exact ⟨hp, hx, ha, hb, hta, htb⟩

theorem holds_fill : Holds s (p.fill t) ↔
    LinkedPath s t.top p ∧ Linked s p.parent t ∧ (t.toList ++ p.elems).Nodup := by
  rw [← (p.perm_fill t).nodup_iff, ← and_assoc, ← linkedPath_fill]
  exact ⟨fun h => ⟨⟨h.root, h.linked⟩, h.nodup⟩, fun h => ⟨h.1.1, h.1.2, h.2⟩⟩

def SameLinks (s s' : RbTree ν) (l : List ν) : Prop :=
  ∀ y ∈ l, s'.rbtParent y = s.rbtParent y ∧ ∀ e, s'.rbtChild e y = s.rbtChild e y

theorem Linked.congr (h : Linked s par t) (hs : SameLinks s s' t.toList) : Linked s' par t := by
  induction t generalizing par with
  | nil => trivial
  | node l x r ihl ihr =>
    obtain ⟨hx, hl, hr, hll, hlr⟩ := h
    simp only [SameLinks, toList, List.mem_append, List.mem_cons] at hs
    obtain ⟨hpx, hcx⟩ := hs x (.inr (.inl rfl))
    exact ⟨hpx.trans hx, (hcx _).trans hl, (hcx _).trans hr, ihl hll fun y hy => hs y (.inl hy),
      ihr hlr fun y hy => hs y (.inr (.inr hy))⟩

theorem LinkedPath.congr (h : LinkedPath s hole p) (hs : SameLinks s s' p.elems)
    (hr : s'.rbtRoot = s.rbtRoot) : LinkedPath s' hole p := by
  induction p generalizing hole with
  | root => exact hr.trans h
  | step d p x b ih =>
    obtain ⟨hx, hh, hb, hlb, hp⟩ := h
    simp only [SameLinks, Path.elems, mem_cons, mem_append] at hs
    obtain ⟨hpx, hcx⟩ := hs x (.inl rfl)
    exact ⟨hpx.trans hx, (hcx _).trans hh, (hcx _).trans hb,
      hlb.congr fun y hy => hs y (.inr (.inl hy)), ih hp fun y hy => hs y (.inr (.inr hy))⟩

theorem parent_ne {k : List ν} (hn : (k ++ p.elems).Nodup) (hx : x ∈ k) : p.parent ≠ some x :=
  fun h => (nodup_append.mp hn).2.2 x hx x (Path.mem_elems_of_parent h) rfl

theorem Holds.linkedPath (h : Holds s (p.fill t)) : LinkedPath s t.top p := (holds_fill.mp h).1

theorem Holds.parent_top (h : Holds s (p.fill t)) (hx : t.top = some x) :
    s.rbtParent x = p.parent := by
  obtain ⟨-, hl, -⟩ := holds_fill.mp h
  cases t with
  | nil => exact nomatch hx
  | node l z r =>
    obtain rfl : z = x := Option.some.inj hx
    exact hl.1

theorem Holds.child_top (h : Holds s (p.fill (branch d a x b))) : s.rbtChild d x = a.top :=
  (linked_branch.mp (holds_fill.mp h).2.1).2.1

theorem Holds.side_iff (h : Holds s ((Path.step e p y b).fill t))
    (ht : t.top ≠ none ∨ b.top ≠ none) : s.rbtChild d y = t.top ↔ e = d := by
  obtain ⟨⟨-, he, hf, -⟩, -, hn⟩ := holds_fill.mp h
  rcases d.eq_or_flip e with rfl | rfl
  · exact iff_of_true he rfl
  · rw [Side.flip_flip] at hf
    refine iff_of_false (fun hd => ?_) d.flip_ne
    have heq : b.top = t.top := hf.symm.trans hd
    obtain ⟨x, hx⟩ : ∃ x, t.top = some x := by
      rw [heq, or_self] at ht
      exact Option.ne_none_iff_exists'.mp ht
    refine (List.nodup_append.mp hn).2.2 x (mem_top hx) x ?_ rfl
    simp [Path.elems, mem_top (heq.trans hx)]

theorem Holds.top_ne_root (h : Holds s ((Path.step d p y b).fill t)) : t.top ≠ s.rbtRoot := by
  obtain ⟨z, hz, htop⟩ := Path.exists_top d p y b t
  rw [h.root, htop]
  exact fun ht => (nodup_append.mp (holds_fill.mp h).2.2).2.2 z (mem_top ht) z hz rfl

section Update

variable [DecidableEq ν]

namespace RbTree

@[simp] theorem rbtParent_setParent :
    (s.setParent x par).rbtParent y = if y = x then par else s.rbtParent y :=
  update_apply _ _ _ _

@[simp] theorem rbtChild_setParent : (s.setParent x par).rbtChild = s.rbtChild := rfl

@[simp] theorem rbtColor_setParent : (s.setParent x par).rbtColor = s.rbtColor := rfl

@[simp] theorem rbtRoot_setParent : (s.setParent x par).rbtRoot = s.rbtRoot := rfl

@[simp] theorem rbtParent_setChild : (s.setChild d x par).rbtParent = s.rbtParent := rfl

@[simp] theorem rbtChild_setChild :
    (s.setChild d x par).rbtChild e y = if e = d ∧ y = x then par else s.rbtChild e y := by
  by_cases he : e = d
  · subst he
    by_cases hy : y = x <;> simp [setChild, hy]
  · simp [setChild, he]

@[simp] theorem rbtColor_setChild : (s.setChild d x par).rbtColor = s.rbtColor := rfl

@[simp] theorem rbtRoot_setChild : (s.setChild d x par).rbtRoot = s.rbtRoot := rfl

@[simp] theorem rbtParent_setColor : (s.setColor x color).rbtParent = s.rbtParent := rfl

@[simp] theorem rbtChild_setColor : (s.setColor x color).rbtChild = s.rbtChild := rfl

@[simp] theorem rbtRoot_setColor : (s.setColor x color).rbtRoot = s.rbtRoot := rfl

@[simp] theorem rbtColor_setColor :
    (s.setColor x color).rbtColor y = if y = x then color else s.rbtColor y :=
  update_apply _ _ _ _

@[simp] theorem rbtParent_setParentOf :
    (s.setParentOf hole par).rbtParent y = if hole = some y then par else s.rbtParent y := by
  cases hole with
  | none => simp [setParentOf]
  | some x => simp [setParentOf, eq_comm]

@[simp] theorem rbtChild_setParentOf : (s.setParentOf hole par).rbtChild = s.rbtChild := by
  cases hole <;> rfl

@[simp] theorem rbtColor_setParentOf : (s.setParentOf hole par).rbtColor = s.rbtColor := by
  cases hole <;> rfl

@[simp] theorem rbtRoot_setParentOf : (s.setParentOf hole par).rbtRoot = s.rbtRoot := by
  cases hole <;> rfl

@[simp] theorem rbtParent_relink : (s.relink par x hole).rbtParent = s.rbtParent := by
  unfold relink
  split
  · rfl
  · split <;> rfl

@[simp] theorem rbtColor_relink : (s.relink par x hole).rbtColor = s.rbtColor := by
  unfold relink
  split
  · rfl
  · split <;> rfl

theorem rbtChild_relink (h : par ≠ some y) :
    (s.relink par x hole).rbtChild e y = s.rbtChild e y := by
  cases par with
  | none => rfl
  | some q =>
    have hq : y ≠ q := fun hq => h (hq ▸ rfl)
    unfold relink
    dsimp only
    split <;> simp [hq]

end RbTree

theorem Linked.reparent (h : Linked s par t) (hn : t.toList.Nodup)
    (hc : ∀ y ∈ t.toList, ∀ e, s'.rbtChild e y = s.rbtChild e y)
    (hp : ∀ y ∈ t.toList, s'.rbtParent y = if t.top = some y then par' else s.rbtParent y) :
    Linked s' par' t := by
  cases t with
  | nil => trivial
  | node l x r =>
    obtain ⟨-, hl, hr, hll, hlr⟩ := h
    have hx : x ∈ (node l x r).toList := mem_top rfl
    have hne := nodup_middle.mp hn
    rw [nodup_cons, mem_append, not_or] at hne
    have hother : ∀ y ∈ l.toList ++ r.toList, s'.rbtParent y = s.rbtParent y := by
      intro y hy
      have hy' := mem_append.mp hy
      have hyx : x ≠ y := fun h => by
        rw [← h] at hy'
        exact hy'.elim hne.1.1 hne.1.2
      rw [hp y (by simp only [toList, List.mem_append, List.mem_cons]; tauto), top_node,
        if_neg fun h => hyx (Option.some.inj h)]
    refine ⟨by rw [hp x hx, top_node, if_pos rfl], (hc x hx _).trans hl, (hc x hx _).trans hr,
      hll.congr fun y hy => ⟨hother y (mem_append_left _ hy), hc y ?_⟩,
      hlr.congr fun y hy => ⟨hother y (mem_append_right _ hy), hc y ?_⟩⟩
    · exact mem_append_left _ hy
    · exact mem_append_right _ (mem_cons_of_mem _ hy)

theorem LinkedPath.setChild (h : LinkedPath s hole (.step d p x b))
    (hn : (Path.step d p x b).elems.Nodup) :
    LinkedPath (s.setChild d x hole') hole' (.step d p x b) := by
  obtain ⟨hx, -, hb, hlb, hp⟩ := h
  rw [Path.elems, nodup_cons, mem_append, not_or] at hn
  have hsame : ∀ k : List ν, x ∉ k → SameLinks s (s.setChild d x hole') k := by
    intro k hk y hy
    have hyx : y ≠ x := fun h => hk (h ▸ hy)
    simp [hyx]
  refine ⟨hx, by simp, ?_, hlb.congr (hsame _ hn.1.1), hp.congr (hsame _ hn.1.2) rfl⟩
  simp [d.flip_ne, hb]

theorem LinkedPath.relink (h : LinkedPath s (some x) p) (hx : x ∉ p.elems)
    (hn : p.elems.Nodup) : LinkedPath (s.relink p.parent x hole) hole p := by
  cases p with
  | root => rfl
  | step d p q b =>
    have hside : s.rbtChild .left q = some x ↔ d = .left := by
      cases d with
      | left => exact ⟨fun _ => rfl, fun _ => h.2.1⟩
      | right =>
        refine ⟨fun hl => ?_, nofun⟩
        rw [show s.rbtChild .left q = b.top from h.2.2.1] at hl
        simp only [Path.elems, mem_cons, mem_append, not_or] at hx
        exact absurd (mem_top hl) hx.2.1
    have hset : s.relink (some q) x hole = s.setChild d q hole := by
      cases d <;> simp [relink, hside]
    rw [Path.parent, hset]
    exact h.setChild hn

theorem Holds.setColor (h : Holds s t) (x : ν) (color : RbColor) : Holds (s.setColor x color) t :=
  ⟨h.root, h.linked.congr fun _ _ => ⟨rfl, fun _ => rfl⟩, h.nodup⟩

theorem Holds.rotate (h : Holds s (p.fill (branch d a x (branch d b y c)))) :
    ∃ s', rbeRotate d s x = some s' ∧ Holds s' (p.fill (branch d (branch d a x b) y c)) ∧
      s'.rbtColor = s.rbtColor := by
  obtain ⟨hp, ht, hn⟩ := holds_fill.mp h
  obtain ⟨hx, hxa, hxy, hla, hlyc⟩ := linked_branch.mp ht
  obtain ⟨hy, hyb, hyc, hlb, hlc⟩ := linked_branch.mp hlyc
  rw [top_branch] at hxy hp
  have hn' : (x :: (a.toList ++ y :: (b.toList ++ c.toList)) ++ p.elems).Nodup := by
    refine (Perm.append_right _ ?_).nodup_iff.mp hn
    exact (perm_branch d a _ x).trans (((perm_branch d b c y).append_left _).cons x)
  have hpx : p.parent ≠ some x := parent_ne hn' (by simp)
  have hpy : p.parent ≠ some y := parent_ne hn' (by simp)
  have hpb : ∀ z ∈ b.toList, p.parent ≠ some z := fun z hz => parent_ne hn' (by simp [hz])
  have hpa : ∀ z ∈ a.toList, p.parent ≠ some z := fun z hz => parent_ne hn' (by simp [hz])
  have hpc : ∀ z ∈ c.toList, p.parent ≠ some z := fun z hz => parent_ne hn' (by simp [hz])
  have hb : ∀ z, b.top = some z → z ∈ b.toList := fun z => mem_top
  simp only [cons_append, nodup_cons, nodup_append, mem_append, mem_cons,
    not_or, append_assoc] at hn'
  let s₁ := ((s.setChild d.flip x b.top).setParentOf b.top (some x)).setParent y p.parent
  let s₂ := s₁.relink p.parent x (some y)
  let s₃ := (s₂.setChild d y (some x)).setParent x (some y)
  have hs₁ : LinkedPath s₁ (some x) p := hp.congr (fun z hz => by
    have hzx : z ≠ x := by grind
    have hzy : z ≠ y := by grind
    have hzb : b.top ≠ some z := by grind
    simp [s₁, hzx, hzy, hzb]) (by simp [s₁])
  have hs₂ : LinkedPath s₂ (some y) p := hs₁.relink (by grind) (by grind)
  have hs₃ : LinkedPath s₃ (some y) p := hs₂.congr (fun z hz => by
    have hzx : z ≠ x := by grind
    have hzy : z ≠ y := by grind
    simp [s₃, hzx, hzy]) (by simp [s₃])
  have hpar : ∀ z, s₃.rbtParent z = if z = x then some y else if z = y then p.parent else
      if b.top = some z then some x else s.rbtParent z := by simp [s₁, s₂, s₃]
  have hchild : ∀ e z, p.parent ≠ some z → s₃.rbtChild e z = if e = d ∧ z = y then some x else
      if e = d.flip ∧ z = x then b.top else s.rbtChild e z := by
    intro e z hz
    simp [s₁, s₂, s₃, rbtChild_relink hz]
  have hcol : s₃.rbtColor = s.rbtColor := by simp [s₁, s₂, s₃]
  have hrot : rbeRotate d s x = some s₃ := by
    have hbx : b.top ≠ some x := fun hbx => hn'.1.2.2.1 (hb x hbx)
    simp [rbeRotate, hxy, hyb, hx, hbx, s₁, s₂, s₃]
  clear_value s₃
  refine ⟨s₃, hrot, holds_fill.mpr ⟨?_, ?_, ?_⟩, hcol⟩
  · rwa [top_branch]
  · have hflip := d.flip_ne
    refine linked_branch.mpr ⟨?_, ?_, ?_, linked_branch.mpr ⟨?_, ?_, ?_, ?_, ?_⟩, ?_⟩
    · grind
    · grind
    · grind
    · grind
    · grind
    · grind
    · exact hla.congr fun z hz => by grind
    · refine hlb.reparent (by grind) (fun z hz e => ?_) (fun z hz => ?_)
      · grind
      · grind
    · exact hlc.congr fun z hz => by grind
  · rwa [toList_rotate]

theorem Holds.unlink (h : Holds s (p.fill (branch d .nil y c))) :
    Holds ((s.setParentOf c.top p.parent).relink p.parent y c.top) (p.fill c) ∧
      y ∉ (p.fill c).toList := by
  obtain ⟨hp, ht, hn⟩ := holds_fill.mp h
  obtain ⟨-, -, -, -, hlc⟩ := linked_branch.mp ht
  rw [top_branch] at hp
  have hn' : (y :: c.toList ++ p.elems).Nodup :=
    ((perm_branch d .nil c y).append_right _).nodup_iff.mp hn
  have hpc : ∀ z ∈ c.toList, p.parent ≠ some z := fun z hz => parent_ne hn' (by simp [hz])
  have hc : ∀ z, c.top = some z → z ∈ c.toList := fun z => mem_top
  simp only [cons_append, nodup_cons, nodup_append, mem_append, not_or] at hn'
  have hs₁ : LinkedPath (s.setParentOf c.top p.parent) (some y) p := hp.congr (fun z hz => by
    have hzc : c.top ≠ some z := by grind
    simp [hzc]) (by simp)
  refine ⟨holds_fill.mpr ⟨hs₁.relink hn'.1.2 hn'.2.2.1, ?_, ?_⟩, ?_⟩
  · refine hlc.reparent hn'.2.1 (fun z hz e => ?_) (fun z _ => by simp)
    rw [rbtChild_relink (hpc z hz), rbtChild_setParentOf]
  · exact nodup_append.mpr hn'.2
  · rw [(p.perm_fill c).mem_iff, mem_append, not_or]
    exact hn'.1

theorem Holds.replace (h : Holds s (p.fill (node l z r))) (hy : y ∉ (p.fill (node l z r)).toList)
    (hx : l.top = some x) :
    Holds (((((s.copy y z).relink p.parent z (some y)).setParent x (some y)).setParentOf r.top
      (some y))) (p.fill (node l y r)) := by
  obtain ⟨hp, ⟨hz, hzl, hzr, hll, hlr⟩, hn⟩ := holds_fill.mp h
  have hn' : (z :: (l.toList ++ r.toList) ++ p.elems).Nodup :=
    ((perm_branch .left l r z).append_right _).nodup_iff.mp hn
  have hpl : ∀ u ∈ l.toList, p.parent ≠ some u := fun u hu => parent_ne hn' (by simp [hu])
  have hpr : ∀ u ∈ r.toList, p.parent ≠ some u := fun u hu => parent_ne hn' (by simp [hu])
  rw [(p.perm_fill _).mem_iff, List.mem_append, toList, List.mem_append, List.mem_cons] at hy
  have hpy : p.parent ≠ some y := fun hpar => hy (.inr (Path.mem_elems_of_parent hpar))
  have hl : x ∈ l.toList := mem_top hx
  have hr : ∀ u, r.top = some u → u ∈ r.toList := fun u => mem_top
  simp only [List.cons_append, List.nodup_cons, List.nodup_append, List.mem_append, not_or]
    at hn' hy
  let s₁ := s.copy y z
  let s₂ := s₁.relink p.parent z (some y)
  let s₃ := (s₂.setParent x (some y)).setParentOf r.top (some y)
  have hs₁ : LinkedPath s₁ (some z) p := hp.congr (fun u hu => by
    have huy : u ≠ y := by grind
    simp [s₁, RbTree.copy, huy]) rfl
  have hs₂ : LinkedPath s₂ (some y) p := hs₁.relink (by grind) (by grind)
  have hs₃ : LinkedPath s₃ (some y) p := hs₂.congr (fun u hu => by
    have hux : u ≠ x := by grind
    have hur : r.top ≠ some u := by grind
    simp [s₃, hux, hur]) (by simp [s₃])
  have hpar : ∀ u, s₃.rbtParent u = if r.top = some u then some y else if u = x then some y else
      if u = y then p.parent else s.rbtParent u := by simp [s₁, s₂, s₃, RbTree.copy, hz]
  have hchild : ∀ e u, p.parent ≠ some u → s₃.rbtChild e u = if e = .right ∧ u = y then r.top else
      if e = .left ∧ u = y then l.top else s.rbtChild e u := by
    intro e u hu
    simp [s₁, s₂, s₃, RbTree.rbtChild_relink hu, RbTree.copy, hzl, hzr]
  show Holds s₃ _
  clear_value s₃
  refine holds_fill.mpr ⟨hs₃, ⟨?_, ?_, ?_, ?_, ?_⟩, ?_⟩
  · grind
  · grind
  · grind
  · refine hll.reparent (by grind) (fun u hu e => ?_) (fun u hu => ?_)
    · grind
    · grind
  · refine hlr.reparent (by grind) (fun u hu e => ?_) (fun u hu => ?_)
    · grind
    · grind
  · refine ((perm_branch .left l r y).append_right _).nodup_iff.mpr ?_
    simp only [List.cons_append, List.nodup_cons, List.nodup_append, List.mem_append, not_or]
    grind

theorem Holds.attach (h : Holds s ((Path.step d p x b).fill .nil))
    (hy : y ∉ ((Path.step d p x b).fill .nil).toList) :
    Holds ((rbeSet s y (some x)).setChild d x (some y))
      ((Path.step d p x b).fill (node .nil y .nil)) := by
  obtain ⟨hp, -, hn⟩ := holds_fill.mp h
  rw [(Path.perm_fill _ _).mem_iff] at hy
  have hyp : y ≠ x := fun hyx => hy (by simp [hyx, Path.elems])
  have hs₁ : LinkedPath (rbeSet s y (some x)) none (.step d p x b) := hp.congr (fun u hu => by
    have huy : u ≠ y := fun h => hy (mem_append_right _ (h ▸ hu))
    simp [rbeSet, huy]) rfl
  refine holds_fill.mpr ⟨hs₁.setChild hn, ⟨?_, ?_, ?_, trivial, trivial⟩, ?_⟩
  · simp [rbeSet, Path.parent]
  · simp [rbeSet, hyp, top]
  · simp [rbeSet, hyp, top]
  · exact nodup_cons.mpr ⟨hy, hn⟩

theorem holds_attach_root :
    Holds { rbeSet s y none with rbtRoot := some y } (node .nil y .nil) := by
  refine ⟨rfl, ⟨?_, ?_, ?_, trivial, trivial⟩, nodup_singleton y⟩ <;> simp [rbeSet, top]

end Update

end Mbsd.Kern.SubrTree
