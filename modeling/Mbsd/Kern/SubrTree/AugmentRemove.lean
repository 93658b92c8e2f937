import Mbsd.Kern.SubrTree.Augment

/-! The data are right after `rbe_remove`, too: a place is left, and that of the entry taken. -/

namespace Mbsd.Kern.SubrTree

open Lib BinTree List

variable {ν σ : Type} [DecidableEq ν] {s s' : RbTree ν} {m : σ} {p q : Path ν}
  {t c l r : BinTree ν} {x y z v w : ν} {d : Side} {T : Set ν} {bound fuel : Nat} {o : Option ν}
  {tAugment : Nat → RbTree ν → σ → ν → Option σ} {kept : σ → Prop}
  {right : RbTree ν → σ → ν → Prop} {rem : Remedy ν} {par : Option ν}

def Remedy.tree : Remedy ν → RbTree ν
  | .up t => t
  | .done t => t

section

variable (ha : Augments tAugment kept right bound) (h : Augmented kept right s m t T)

include ha h

theorem Augmented.blackened (o : Option ν) : Augmented kept right (blacken s o) m t T := by
  cases o with
  | none => exact h
  | some x => exact h.setColor ha x .RB_BLACK

variable (hb : t.toList.length ≤ bound)

include hb

theorem Augmented.removeBlack (hy : y ∈ t.toList)
    (hw : w ∈ t.toList) (hrun : removeColorBlack d s y w = some rem) :
    Lockstep bound 0 kept right T t.toList Remedy.tree rem
      (fun g _ => removeColorBlackAugment (tAugment g) d s m y w) := by
  rw [removeColorBlack] at hrun
  by_cases hnephews :
      (!isRed s (s.rbtChild .left w) && !isRed s (s.rbtChild .right w)) = true
  · rw [if_pos hnephews] at hrun
    cases hrun
    exact ⟨t, m, fun _ _ _ _ => if_pos hnephews, h.setColor ha _ _, rfl⟩
  rw [if_neg hnephews] at hrun
  -- the last rotation, from wherever the first step has led
  have hlast {s₁ s₂ : RbTree ν} {m₁ : σ} {t₁ : BinTree ν} {w₁ : ν}
      (h₁ : Augmented kept right s₁ m₁ t₁ T) (hl₁ : t₁.toList = t.toList)
      (hrot : rbeRotate d (SubrTree.blacken ((s₁.setColor w₁ (s₁.rbtColor y)).setColor y .RB_BLACK)
        (s₁.rbtChild d.flip w₁)) y = some s₂) :
      ∃ t₂ m₂, (∀ g, bound ≤ g → rbeRotateAugment (tAugment g) d
          (SubrTree.blacken ((s₁.setColor w₁ (s₁.rbtColor y)).setColor y .RB_BLACK)
            (s₁.rbtChild d.flip w₁)) m₁ y = some (s₂, m₂)) ∧
        Augmented kept right s₂ m₂ t₂ T ∧ t₂.toList = t.toList := by
    obtain ⟨t₂, m₂, hrun₂, h₂, hl₂⟩ :=
      (((h₁.setColor ha _ _).setColor ha _ _).blackened ha _).rotate ha (hl₁ ▸ hb) (hl₁ ▸ hy) hrot
    exact ⟨t₂, m₂, hrun₂, h₂, hl₂.trans hl₁⟩
  by_cases houter : (!isRed s (s.rbtChild d.flip w)) = true
  · rw [if_pos houter] at hrun
    obtain ⟨s₁, hrot₁, hrun⟩ := Option.bind_eq_some_iff.mp hrun
    obtain ⟨w₁, hw₁, hrun⟩ := Option.bind_eq_some_iff.mp hrun
    obtain ⟨_, ⟨⟩, hrun⟩ := Option.bind_eq_some_iff.mp hrun
    obtain ⟨s₂, hrot₂, hrun⟩ := Option.bind_eq_some_iff.mp hrun
    cases hrun
    obtain ⟨t₁, m₁, hrun₁, h₁, hl₁⟩ :=
      ((h.blackened ha (s.rbtChild d w)).setColor ha w .RB_RED).rotate ha hb hw hrot₁
    obtain ⟨t₂, m₂, hrun₂, h₂, hl₂⟩ := hlast h₁ hl₁ hrot₂
    refine ⟨t₂, m₂, fun g _ hg _ => ?_, h₂, hl₂⟩
    show removeColorBlackAugment (tAugment g) d s m y w = some (.done s₂, m₂)
    rw [removeColorBlackAugment, if_neg hnephews, if_pos houter]
    exact Option.bind_eq_some_iff.mpr ⟨_, hrun₁ g hg, Option.bind_eq_some_iff.mpr ⟨_, hw₁,
        Option.bind_eq_some_iff.mpr ⟨_, rfl, Option.bind_eq_some_iff.mpr ⟨_, hrun₂ g hg, rfl⟩⟩⟩⟩
  · rw [if_neg houter] at hrun
    obtain ⟨_, ⟨⟩, hrun⟩ := Option.bind_eq_some_iff.mp hrun
    obtain ⟨s₂, hrot₂, hrun⟩ := Option.bind_eq_some_iff.mp hrun
    cases hrun
    obtain ⟨t₂, m₂, hrun₂, h₂, hl₂⟩ := hlast h rfl hrot₂
    refine ⟨t₂, m₂, fun g _ hg _ => ?_, h₂, hl₂⟩
    show removeColorBlackAugment (tAugment g) d s m y w = some (.done s₂, m₂)
    rw [removeColorBlackAugment, if_neg hnephews, if_neg houter]
    exact Option.bind_eq_some_iff.mpr
      ⟨_, rfl, Option.bind_eq_some_iff.mpr ⟨_, hrun₂ g hg, rfl⟩⟩

theorem Augmented.removeRound (hy : y ∈ t.toList) (hrun : removeColorRound d s y = some rem) :
    Lockstep bound 0 kept right T t.toList Remedy.tree rem
      (fun g _ => removeColorRoundAugment (tAugment g) d s m y) := by
  obtain ⟨w, hw, hrun⟩ := Option.bind_eq_some_iff.mp hrun
  by_cases hred : s.rbtColor w = .RB_RED
  · rw [if_pos hred] at hrun
    obtain ⟨s₁, hrot, hrun⟩ := Option.bind_eq_some_iff.mp hrun
    obtain ⟨w₁, hw₁, hrun⟩ := Option.bind_eq_some_iff.mp hrun
    obtain ⟨t₁, m₁, hrun₁, h₁, hl₁⟩ := (h.setBlackred ha w y).rotate ha hb hy hrot
    rw [← hl₁] at hb hy ⊢
    obtain ⟨t₂, m₂, hrun₂, hrest⟩ := h₁.removeBlack ha hb hy (h₁.holds.links hy hw₁).2 hrun
    refine ⟨t₂, m₂, fun g f hg hf => ?_, hrest⟩
    simp only [removeColorRoundAugment, hw, hw₁, if_pos hred, hrun₁ g hg, hrun₂ g f hg hf,
      Option.bind_eq_bind, Option.bind_some]
  · rw [if_neg hred] at hrun
    obtain ⟨t₂, m₂, hrun₂, hrest⟩ := h.removeBlack ha hb hy (h.holds.links hy hw).2 hrun
    refine ⟨t₂, m₂, fun g f hg hf => ?_, hrest⟩
    simp only [removeColorRoundAugment, hw, if_neg hred, hrun₂ g f hg hf, Option.bind_eq_bind,
      Option.bind_some]

variable (hpar : ∀ y, par = some y → y ∈ t.toList)

include hpar

theorem Augmented.removeLoop {r : RbTree ν × Option ν}
    (hrun : removeColorLoop fuel s par o = some r) :
    Lockstep bound fuel kept right T t.toList Prod.fst r
      (fun g f => removeColorLoopAugment (tAugment g) f s m par o) := by
  induction fuel generalizing s m t par o with
  | zero => cases hrun
  | succ fuel ih =>
    rw [removeColorLoop] at hrun
    by_cases hblack : (!isRed s o) = true ∧ o ≠ s.rbtRoot
    · rw [if_pos hblack] at hrun
      obtain ⟨y, rfl, hstep⟩ := Option.bind_eq_some_iff.mp hrun
      obtain ⟨rem, hround, hstep⟩ := Option.bind_eq_some_iff.mp hstep
      have hy := hpar y rfl
      obtain ⟨t₁, m₁, hrun₁, h₁, hl₁⟩ := h.removeRound ha hb hy hround
      rw [← hl₁] at hb hy ⊢
      cases rem with
      | up s₁ =>
        obtain ⟨t₂, m₂, hrun₂, hrest⟩ := ih h₁ hb (fun z hz => h₁.holds.parent_mem hy hz) hstep
        refine ⟨t₂, m₂, fun g f hg hf => ?_, hrest⟩
        obtain ⟨f, rfl⟩ := Nat.exists_eq_succ_of_ne_zero (Nat.ne_zero_of_lt hf)
        simp only [removeColorLoopAugment, if_pos hblack, hrun₁ g 0 hg le_rfl, Option.bind_eq_bind,
          Option.bind_some]
        exact hrun₂ g f hg (Nat.le_of_succ_le_succ hf)
      | done s₁ =>
        cases hstep
        refine ⟨t₁, m₁, fun g f hg hf => ?_, h₁, rfl⟩
        obtain ⟨f, rfl⟩ := Nat.exists_eq_succ_of_ne_zero (Nat.ne_zero_of_lt hf)
        simp only [removeColorLoopAugment, if_pos hblack, hrun₁ g 0 hg le_rfl, Option.bind_eq_bind,
          Option.bind_some]
    · rw [if_neg hblack] at hrun
      cases hrun
      refine ⟨t, m, fun g f _ hf => ?_, h, rfl⟩
      obtain ⟨f, rfl⟩ := Nat.exists_eq_succ_of_ne_zero (Nat.ne_zero_of_lt hf)
      exact if_neg hblack

theorem Augmented.removeColor (hrun : rbeRemoveColor fuel s par o = some s') :
    Lockstep bound fuel kept right T t.toList id s'
      (fun g f => rbeRemoveColorAugment (tAugment g) f s m par o) := by
  obtain ⟨⟨s₁, o₁⟩, hloop, hrun⟩ := Option.bind_eq_some_iff.mp hrun
  obtain ⟨t₁, m₁, hrun₁, h₁, hl₁⟩ := h.removeLoop ha hb hpar hloop
  cases o₁ with
  | none =>
    cases hrun
    refine ⟨t₁, m₁, fun g f hg hf => ?_, h₁, hl₁⟩
    simp only [rbeRemoveColorAugment, hrun₁ g f hg hf, Option.bind_eq_bind, Option.bind_some]
  | some x =>
    cases hrun
    refine ⟨t₁, m₁, fun g f hg hf => ?_, h₁.setColor ha x .RB_BLACK, hl₁⟩
    simp only [rbeRemoveColorAugment, hrun₁ g f hg hf, Option.bind_eq_bind, Option.bind_some]

theorem Augmented.removeFrom {color : RbColor} (hrun : removeFrom fuel s color par o = some s') :
    Lockstep bound fuel kept right T t.toList id s'
      (fun g f => removeFromAugment (tAugment g) f s m color par o) := by
  rw [SubrTree.removeFrom] at hrun
  simp only [removeFromAugment]
  by_cases hcol : color = .RB_BLACK
  · simp only [if_pos hcol] at hrun ⊢
    exact h.removeColor ha hb hpar hrun
  · simp only [if_neg hcol] at hrun ⊢
    cases hrun
    exact ⟨t, m, fun _ _ _ _ => rfl, h, rfl⟩

end

omit [DecidableEq ν] in
theorem perm_unlink : (p.fill (branch d .nil y c)).toList.Perm (y :: (p.fill c).toList) :=
  ((p.perm_fill _).trans ((perm_branch d .nil c y).append_right _)).trans
    ((p.perm_fill c).symm.cons y)

omit [DecidableEq ν] in
theorem length_unlink_le (hb : (p.fill (branch d .nil y c)).toList.length ≤ bound) :
    (p.fill c).toList.length ≤ bound :=
  (Nat.le_succ _).trans (perm_unlink.length_eq.symm.trans_le hb)

section

variable (ha : Augments tAugment kept right bound)

include ha

section

variable (h : Augmented kept right s m (p.fill (branch d .nil y c)) ∅)
  (hb : (p.fill c).toList.length ≤ bound)

include h hb

theorem Augmented.unlink : ∃ m', (∀ g, bound ≤ g → rbeIfAugment (tAugment g)
        ((s.setParentOf c.top p.parent).relink p.parent y c.top) m p.parent = some m') ∧
      Augmented kept right ((s.setParentOf c.top p.parent).relink p.parent y c.top) m' (p.fill c)
        ∅ := by
  obtain ⟨hs, -⟩ := h.holds.unlink
  refine ha.ifAugment hs h.kept hb (fun u hu => ?_) fun u hu _ hpar => ?_
  · exact (p.perm_fill c).mem_iff.mpr (mem_append_right _ (Path.mem_elems_of_parent hu))
  · refine ha.congr (fun e => ?_) (h.right u ?_ nofun)
    · rw [RbTree.rbtChild_relink hpar, RbTree.rbtChild_setParentOf]
    · exact perm_unlink.mem_iff.mpr (mem_cons_of_mem _ hu)

theorem Augmented.removeOuter (hrun : removeOuter fuel s y c.top = some s') :
    Lockstep bound fuel kept right ∅ (p.fill c).toList id s'
      (fun g f => removeOuterAugment (tAugment g) f s m y c.top) := by
  obtain ⟨m₁, hrun₁, h₁⟩ := h.unlink ha hb
  have hpar := h.holds.parent_top (top_branch ..)
  rw [SubrTree.removeOuter] at hrun
  simp only [hpar] at hrun
  obtain ⟨t₂, m₂, hrun₂, hrest⟩ := h₁.removeFrom ha hb (fun u hu =>
    (p.perm_fill c).mem_iff.mpr (mem_append_right _ (Path.mem_elems_of_parent hu))) hrun
  refine ⟨t₂, m₂, fun g f hg hf => ?_, hrest⟩
  simp only [removeOuterAugment, hpar, hrun₁ g hg, Option.bind_eq_bind, Option.bind_some]
  exact hrun₂ g f hg hf

end

/-- When `y` has taken the place of `z`, it alone is not right: that it has the children of `z` is
seen before they have their new parent. -/
theorem Augmented.replace (h : Augmented kept right s m (p.fill (node l z r)) ∅)
    (hy : y ∉ (p.fill (node l z r)).toList) (hv : l.top = some v)
    (hb : (p.fill (node l z r)).toList.length ≤ bound) :
    ∃ m', (∀ g, bound ≤ g → rbeIfAugment (tAugment g) ((s.copy y z).relink p.parent z (some y)) m
        p.parent = some m') ∧
      Augmented kept right ((((s.copy y z).relink p.parent z (some y)).setParent v
        (some y)).setParentOf r.top (some y)) m' (p.fill (node l y r)) {y} := by
  have hs₃ := h.holds.replace hy hv
  let s₂ := (s.copy y z).relink p.parent z (some y)
  let s₃ := (s₂.setParent v (some y)).setParentOf r.top (some y)
  have hold : ∀ u ∈ (p.fill (node l y r)).toList, u ≠ y → u ∈ (p.fill (node l z r)).toList := by
    intro u hu huy
    rw [(p.perm_fill _).mem_iff, List.mem_append, toList, List.mem_append, List.mem_cons] at hu ⊢
    grind
  have hright : ∀ u ∈ (p.fill (node l y r)).toList, u ≠ y → p.parent ≠ some u → right s₂ m u := by
    intro u hu huy hpu
    refine ha.congr (fun e => ?_) (h.right u (hold u hu huy) (by simp))
    simp [s₂, RbTree.rbtChild_relink hpu, RbTree.copy, huy]
  have hchild : s₃.rbtChild = s₂.rbtChild := by simp [s₃]
  suffices hwalk : ∃ m', (∀ g, bound ≤ g → rbeIfAugment (tAugment g) s₂ m p.parent = some m') ∧
      kept m' ∧ ∀ u ∈ (p.fill (node l y r)).toList, u ≠ y → right s₂ m' u by
    obtain ⟨m', hrun, hk, hr⟩ := hwalk
    exact ⟨m', hrun, hs₃, hk, fun u hu huy => ha.congr (fun e => by rw [hchild]) (hr u hu huy)⟩
  cases hpar : p.parent with
  | none =>
    exact ⟨m, fun _ _ => rfl, h.kept, fun u hu huy => hright u hu huy (by rw [hpar]; simp)⟩
  | some x =>
    have hxp := Path.mem_elems_of_parent hpar
    have hx : x ∈ (p.fill (node l z r)).toList :=
      (p.perm_fill _).mem_iff.mpr (List.mem_append_right _ hxp)
    obtain ⟨n, hn, hrises⟩ := h.holds.rises hx
    have hrises₂ : Rises s₂ x n := hrises.congr h.holds hx fun u hu => by
      have huy : u ≠ y := fun huy => hy (huy ▸ hu)
      simp [s₂, RbTree.copy, huy]
    have hlinks : ∀ u ∈ {u | u ∈ (p.fill (node l y r)).toList ∧ u ≠ y}, ∀ e w,
        s₂.rbtChild e u = some w → s₂.rbtParent w = some u := by
      intro u hu e w hw
      have hpw := (hs₃.links hu.1 ((congrFun (congrFun hchild e) u).trans hw)).1
      simp only [RbTree.rbtParent_setParentOf, RbTree.rbtParent_setParent] at hpw
      grind
    obtain ⟨m', hrun, hk, hr⟩ := ha.walk hrises₂ (hn.trans_le hb) h.kept hlinks fun u hu hux =>
      hright u hu.1 hu.2 fun hc => hux (Option.some.inj (hc.symm.trans hpar))
    exact ⟨m', hrun, hk, fun u hu huy => hr u ⟨hu, huy⟩⟩

theorem Augmented.takePlace (h : Augmented kept right s m (p.fill (node l z (q.fill c))) ∅)
    (hy : y ∉ (p.fill (node l z (q.fill c))).toList) (hv : l.top = some v)
    (hb : (p.fill (node l z (q.fill c))).toList.length ≤ bound)
    (hb' : (p.fill (node l y (q.fill c))).toList.length ≤ bound) :
    ∃ s₁ m₁, takePlace s y z = some s₁ ∧
      (∀ g f, bound ≤ g → p.length + 1 + q.length ≤ f → takePlaceAugment (tAugment g) f s m y z
        ((Path.step .right p y l).append q).parent = some (s₁, m₁)) ∧
      Augmented kept right s₁ m₁ (p.fill (node l y (q.fill c))) ∅ := by
  have hs := h.holds
  have hz : z ≠ y := fun hzy => hy (hzy ▸ Path.mem_fill (mem_top (top_node ..)))
  have hpz : p.parent ≠ some z := parent_ne (holds_fill.mp hs).2.2 (mem_top (top_node ..))
  let s₁ := (s.copy y z).relink p.parent z (some y)
  have hpar : (s.copy y z).rbtParent z = p.parent := by
    simp [RbTree.copy, hz, hs.parent_top (top_node ..)]
  have hchild : ∀ e, s₁.rbtChild e z = s.rbtChild e z := fun e => by
    simp [s₁, RbTree.rbtChild_relink hpz, RbTree.copy, hz]
  have hl : s₁.rbtChild .left z = some v :=
    (hchild .left).trans ((hs.child_top (d := .left)).trans hv)
  have hr : s₁.rbtChild .right z = (q.fill c).top :=
    (hchild .right).trans (hs.child_top (d := .right))
  have hfill : p.fill (node l y (q.fill c)) = ((Path.step .right p y l).append q).fill c :=
    (Path.fill_append (.step .right p y l) q c).symm
  obtain ⟨m₁, hrun₁, h₁⟩ := h.replace ha hy hv hb
  rw [hfill] at h₁ hb' ⊢
  obtain ⟨m₂, hrun₂, h₂⟩ := h₁.up ha hb'
  refine ⟨_, m₂, ?_, fun g f hg hf => ?_, h₂.mono ?_⟩
  · simp only [SubrTree.takePlace, hpar, s₁, hl, hr, RbTree.rbtChild_setParent,
      Option.bind_eq_bind, Option.bind_some]
  · have hrun₃ := hrun₂ g f hg (by simpa only [Path.length_append, Path.length] using hf)
    simp only [takePlaceAugment, hpar, s₁, hl, hr, RbTree.rbtChild_setParent, hrun₁ g hg, hrun₃,
      Option.bind_eq_bind, Option.bind_some]
  · rintro u ⟨rfl, hu⟩
    exact hu (by simp [Path.above_append, Path.above])

theorem Augmented.removeInner (h : Augmented kept right s m (p.fill (node l z r)) ∅)
    (hb : (p.fill (node l z r)).toList.length ≤ bound)
    (hf : (p.fill (node l z r)).toList.length ≤ fuel) (hv : l.top = some v) (hx : r.top = some x)
    (hrun : removeInner fuel s z x = some s') :
    Lockstep bound fuel kept right ∅ ((p.fill (node l z r)).toList.erase z) id s'
      (fun g f => removeInnerAugment (tAugment g) f s m z x) := by
  have hlen := (p.length_add_height_le (node l z r)).trans (height_le_length _)
  rw [height] at hlen
  have hs := h.holds
  obtain ⟨q, y, c, hout, rfl, hq⟩ :=
    outermost_spec (d := .left) (p := .step .right p z l) hs hx
  have hlist := toList_replaced (y := y) hs.nodup hq
  have hb₂ := (hlist ▸ length_erase_le).trans hb
  have hfill : ∀ w t, p.fill (node l w (q.fill t)) = ((Path.step .right p w l).append q).fill t :=
    fun w t => (Path.fill_append (.step .right p w l) q t).symm
  have hlen' := ((Path.step .right p z l).append q).length_add_height_le (branch .left .nil y c)
  rw [← hfill] at hlen'
  simp only [Path.length_append, Path.length, height_branch] at hlen'
  have hheight := height_le_length (p.fill (node l z (q.fill (branch .left .nil y c))))
  have hout' : ∀ f, fuel ≤ f → outermost .left s f x = some y := fun f hf => hout f (by omega)
  have hq' : ∀ f, fuel ≤ f → p.length + 1 + q.length ≤ f := fun f hf => by omega
  rw [← hlist]
  rw [hfill] at h hs hb
  obtain ⟨-, -, hn⟩ := holds_fill.mp hs
  rw [Path.elems_append, ← append_assoc, nodup_append] at hn
  have hqz : ∀ u ∈ q.elems, u ≠ z := fun u hu =>
    hn.2.2 u (mem_append_right _ hu) z mem_cons_self
  have hpy := hs.parent_top (top_branch ..)
  have hcy : s.rbtChild .right y = c.top := hs.child_top (d := .right) (a := c)
  have hb₁ := length_unlink_le hb
  -- `y` leaves its place to its child
  obtain ⟨m₁, hrun₁, h₁⟩ := h.unlink ha hb₁
  have hy₁ := hs.unlink.2
  rw [← hfill] at h₁ hy₁ hb₁
  -- and takes that of `z`
  obtain ⟨s₂, m₂, htake, hrun₂, h₂⟩ := h₁.takePlace ha hy₁ hv hb₁ hb₂
  simp only [SubrTree.removeInner, hout' fuel le_rfl, hpy, hcy, RbTree.rbtParent_relink,
    RbTree.rbtParent_setParentOf, ite_self, htake, parent_rename hqz, Option.bind_eq_bind,
    Option.bind_some] at hrun
  obtain ⟨t₃, m₃, hrun₃, hrest⟩ := h₂.removeFrom ha hb₂ (fun u hu => by
    rw [hfill]
    exact (Path.perm_fill _ _).mem_iff.mpr
      (mem_append_right _ (Path.mem_elems_of_parent hu))) hrun
  refine ⟨t₃, m₃, fun g f hg hf => ?_, hrest⟩
  simp only [removeInnerAugment, hout' f hf, hpy, hcy, RbTree.rbtParent_relink,
    RbTree.rbtParent_setParentOf, ite_self, hrun₁ g hg, hrun₂ g f hg (hq' f hf), parent_rename hqz,
    Option.bind_eq_bind, Option.bind_some]
  exact hrun₃ g f hg hf

theorem Augmented.remove (h : Augmented kept right s m t ∅) (hb : t.toList.length ≤ bound)
    (hf : t.toList.length ≤ fuel) (hx : x ∈ t.toList) (hrun : rbeRemove fuel s x = some s') :
    Lockstep bound fuel kept right ∅ (t.toList.erase x) id s'
      (fun g f => rbeRemoveAugment (tAugment g) f s m x) := by
  obtain ⟨p, l, r, ht⟩ := Path.exists_of_mem t .root hx
  rw [Path.fill] at ht
  subst ht
  have hs := h.holds
  have hleft : s.rbtChild .left x = l.top := hs.child_top (d := .left)
  have hright : s.rbtChild .right x = r.top := hs.child_top (d := .right)
  rw [rbeRemove, hleft, hright] at hrun
  simp only [rbeRemoveAugment, hleft, hright]
  cases hl : l.top with
  | none =>
    obtain rfl : l = .nil := top_eq_none.mp hl
    have hout := Augmented.removeOuter (d := .left) (c := r) ha h (length_unlink_le (d := .left) hb)
      hrun
    rwa [toList_unlinked (d := .left) hs.nodup] at hout
  | some v =>
    cases hr : r.top with
    | none =>
      obtain rfl : r = .nil := top_eq_none.mp hr
      rw [hl, hr] at hrun
      have hrun' : SubrTree.removeOuter fuel s x l.top = some s' := hl.symm ▸ hrun
      have hout := Augmented.removeOuter (d := .right) (c := l) ha h
        (length_unlink_le (d := .right) hb) hrun'
      rwa [toList_unlinked (d := .right) hs.nodup, hl] at hout
    | some z =>
      rw [hl, hr] at hrun
      exact h.removeInner ha hb hf hl hr hrun

end

end Mbsd.Kern.SubrTree
