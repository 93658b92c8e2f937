import Mbsd.Kern.SubrTree.Runs

/-! The operations once more, with their calls of `t_augment`.  The data of the elements that it
works on are in `m`, and the tree comes out as it does without the calls. -/

namespace Mbsd.Kern.SubrTree

open Lib

section Model

variable {ν σ : Type} [DecidableEq ν] (tAugment : RbTree ν → σ → ν → Option σ)

def rbeIfAugment (t : RbTree ν) (m : σ) : Option ν → Option σ
  | none => some m
  | some rbe => tAugment t m rbe

def rbeRotateAugment (d : Side) (t : RbTree ν) (m : σ) (rbe : ν) : Option (RbTree ν × σ) := do
  let tmp ← t.rbtChild d.flip rbe
  let t ← rbeRotate d t rbe
  let m ← tAugment t m rbe
  let m ← tAugment t m tmp
  let m ← rbeIfAugment tAugment t m (t.rbtParent tmp)
  some (t, m)

def insertColorRoundAugment (d : Side) (t : RbTree ν) (m : σ) (rbe parent gparent : ν) :
    Option ((RbTree ν × ν) × σ) :=
  match t.rbtChild d.flip gparent with
  | some tmp =>
    if t.rbtColor tmp = .RB_RED then
      some ((rbeSetBlackred (t.setColor tmp .RB_BLACK) parent gparent, gparent), m)
    else rotated
  | none => rotated
where
  rotated : Option ((RbTree ν × ν) × σ) := do
    let (t, m, parent, rbe) ←
      if t.rbtChild d.flip parent = some rbe then do
        let (t, m) ← rbeRotateAugment tAugment d t m parent
        some (t, m, rbe, parent)
      else some (t, m, parent, rbe)
    let (t, m) ← rbeRotateAugment tAugment d.flip (rbeSetBlackred t parent gparent) m gparent
    some ((t, rbe), m)

def insertColorLoopAugment : Nat → RbTree ν → σ → ν → Option (RbTree ν × σ)
  | 0, _, _, _ => none
  | fuel + 1, t, m, rbe =>
    match t.rbtParent rbe with
    | none => some (t, m)
    | some parent =>
      if t.rbtColor parent = .RB_RED then do
        let gparent ← t.rbtParent parent
        let ((t, rbe), m) ← insertColorRoundAugment tAugment (sideOf t gparent (some parent)) t m
          rbe parent gparent
        insertColorLoopAugment fuel t m rbe
      else some (t, m)

def rbeInsertColorAugment (fuel : Nat) (t : RbTree ν) (m : σ) (rbe : ν) :
    Option (RbTree ν × σ) := do
  let (t, m) ← insertColorLoopAugment tAugment fuel t m rbe
  some (t.setColor (← t.rbtRoot) .RB_BLACK, m)

def removeColorBlackAugment (d : Side) (t : RbTree ν) (m : σ) (parent tmp : ν) :
    Option (Remedy ν × σ) :=
  if !isRed t (t.rbtChild .left tmp) && !isRed t (t.rbtChild .right tmp) then
    some (.up (t.setColor tmp .RB_RED), m)
  else do
    let (t, m, tmp) ←
      if !isRed t (t.rbtChild d.flip tmp) then do
        let t := match t.rbtChild d tmp with
          | none => t
          | some inner => t.setColor inner .RB_BLACK
        let (t, m) ← rbeRotateAugment tAugment d.flip (t.setColor tmp .RB_RED) m tmp
        some (t, m, ← t.rbtChild d.flip parent)
      else some (t, m, tmp)
    let t := (t.setColor tmp (t.rbtColor parent)).setColor parent .RB_BLACK
    let t := match t.rbtChild d.flip tmp with
      | none => t
      | some outer => t.setColor outer .RB_BLACK
    let (t, m) ← rbeRotateAugment tAugment d t m parent
    some (.done t, m)

def removeColorRoundAugment (d : Side) (t : RbTree ν) (m : σ) (parent : ν) :
    Option (Remedy ν × σ) := do
  let tmp ← t.rbtChild d.flip parent
  if t.rbtColor tmp = .RB_RED then do
    let (t, m) ← rbeRotateAugment tAugment d (rbeSetBlackred t tmp parent) m parent
    removeColorBlackAugment tAugment d t m parent (← t.rbtChild d.flip parent)
  else removeColorBlackAugment tAugment d t m parent tmp

def removeColorLoopAugment :
    Nat → RbTree ν → σ → Option ν → Option ν → Option ((RbTree ν × Option ν) × σ)
  | 0, _, _, _, _ => none
  | fuel + 1, t, m, parent, rbe =>
    if !isRed t rbe ∧ rbe ≠ t.rbtRoot then do
      let parent ← parent
      match ← removeColorRoundAugment tAugment (sideOf t parent rbe) t m parent with
      | (.up t, m) => removeColorLoopAugment fuel t m (t.rbtParent parent) (some parent)
      | (.done t, m) => some ((t, t.rbtRoot), m)
    else some ((t, rbe), m)

def rbeRemoveColorAugment (fuel : Nat) (t : RbTree ν) (m : σ) (parent rbe : Option ν) :
    Option (RbTree ν × σ) := do
  let ((t, rbe), m) ← removeColorLoopAugment tAugment fuel t m parent rbe
  match rbe with
  | none => some (t, m)
  | some rbe => some (t.setColor rbe .RB_BLACK, m)

def removeFromAugment (fuel : Nat) (t : RbTree ν) (m : σ) (color : RbColor)
    (parent child : Option ν) : Option (RbTree ν × σ) :=
  if color = .RB_BLACK then rbeRemoveColorAugment tAugment fuel t m parent child else some (t, m)

def augmentUp (t : RbTree ν) : Nat → σ → Option ν → Option σ
  | _, m, none => some m
  | 0, _, some _ => none
  | fuel + 1, m, some tmp => do
    let m ← tAugment t m tmp
    augmentUp t fuel m (t.rbtParent tmp)

def takePlaceAugment (fuel : Nat) (t : RbTree ν) (m : σ) (rbe old : ν) (parent : Option ν) :
    Option (RbTree ν × σ) := do
  let t := t.copy rbe old
  let tmp := t.rbtParent old
  let t := t.relink tmp old (some rbe)
  let m ← rbeIfAugment tAugment t m tmp
  let t := t.setParent (← t.rbtChild .left old) (some rbe)
  let t := t.setParentOf (t.rbtChild .right old) (some rbe)
  some (t, ← augmentUp tAugment t fuel m parent)

def removeInnerAugment (fuel : Nat) (t : RbTree ν) (m : σ) (old right : ν) :
    Option (RbTree ν × σ) := do
  let rbe ← outermost .left t fuel right
  let child := t.rbtChild .right rbe
  let parent := t.rbtParent rbe
  let color := t.rbtColor rbe
  let t := t.setParentOf child parent
  let t := t.relink parent rbe child
  let m ← rbeIfAugment tAugment t m parent
  let parent := if t.rbtParent rbe = some old then some rbe else parent
  let (t, m) ← takePlaceAugment tAugment fuel t m rbe old parent
  removeFromAugment tAugment fuel t m color parent child

def removeOuterAugment (fuel : Nat) (t : RbTree ν) (m : σ) (rbe : ν) (child : Option ν) :
    Option (RbTree ν × σ) := do
  let parent := t.rbtParent rbe
  let color := t.rbtColor rbe
  let t := t.setParentOf child parent
  let t := t.relink parent rbe child
  let m ← rbeIfAugment tAugment t m parent
  removeFromAugment tAugment fuel t m color parent child

def rbeRemoveAugment (fuel : Nat) (t : RbTree ν) (m : σ) (rbe : ν) : Option (RbTree ν × σ) :=
  match t.rbtChild .left rbe, t.rbtChild .right rbe with
  | none, child => removeOuterAugment tAugment fuel t m rbe child
  | some left, none => removeOuterAugment tAugment fuel t m rbe (some left)
  | some _, some right => removeInnerAugment tAugment fuel t m rbe right

def rbRemoveAugment (fuel : Nat) (t : RbTree ν) (m : σ) (elm : ν) : Option (RbTree ν × σ) :=
  rbeRemoveAugment tAugment fuel t m elm

def rbInsertAugment (tCompare : ν → ν → Int) (fuel : Nat) (t : RbTree ν) (m : σ) (elm : ν) :
    Option ((RbTree ν × σ) × Option ν) := do
  match ← insertSearch tCompare t elm fuel t.rbtRoot none 0 with
  | .equal node => some ((t, m), some node)
  | .below parent comp =>
    let t := hang t elm parent comp
    let m ← rbeIfAugment tAugment t m parent
    some (← rbeInsertColorAugment tAugment fuel t m elm, none)

end Model

/-! The data are right after an operation where they were right before. -/

open BinTree List

variable {ν σ : Type} {s s' : RbTree ν} {m m' : σ} {p q : Path ν} {t a b c l r : BinTree ν}
  {x y z u v : ν} {d e : Side} {T : Set ν} {n bound fuel : Nat} {o : Option ν}

inductive Rises (s : RbTree ν) : ν → Nat → Prop
  | top {x : ν} (h : s.rbtParent x = none) : Rises s x 0
  | step {x y : ν} {n : Nat} (h : s.rbtParent x = some y) (hy : Rises s y n) : Rises s x (n + 1)

theorem Holds.rises_top (h : Holds s (p.fill t)) (hx : t.top = some x) : Rises s x p.length := by
  induction p generalizing t x with
  | root => exact .top (h.parent_top hx)
  | step d p y b ih => exact .step (h.parent_top hx) (ih (t := branch d t y b) h (top_branch ..))

theorem Holds.rises (h : Holds s t) (hx : x ∈ t.toList) : ∃ n < t.toList.length, Rises s x n := by
  obtain ⟨p, l, r, ht⟩ := Path.exists_of_mem t .root hx
  rw [Path.fill] at ht
  subst ht
  have hlen := (p.length_add_height_le (node l x r)).trans (height_le_length _)
  rw [height] at hlen
  exact ⟨p.length, by omega, h.rises_top (top_node ..)⟩

theorem Holds.links (h : Holds s t) (hy : y ∈ t.toList) (hz : s.rbtChild d y = some z) :
    s.rbtParent z = some y ∧ z ∈ t.toList := by
  obtain ⟨p, l, r, ht⟩ := Path.exists_of_mem t .root hy
  rw [Path.fill] at ht
  subst ht
  obtain ⟨a, b, hab⟩ := node_eq_branch d l r y
  rw [hab] at h ⊢
  have htop : a.top = some z := h.child_top.symm.trans hz
  exact ⟨Holds.parent_top (p := .step d p y b) h htop,
    Path.mem_fill (mem_branch.mpr (.inr (.inl (mem_top htop))))⟩

theorem Holds.parent_mem (h : Holds s t) (hy : y ∈ t.toList) (hz : s.rbtParent y = some z) :
    z ∈ t.toList := by
  obtain ⟨p, l, r, ht⟩ := Path.exists_of_mem t .root hy
  rw [Path.fill] at ht
  subst ht
  rw [h.parent_top (top_node ..)] at hz
  exact (p.perm_fill _).mem_iff.mpr (mem_append_right _ (Path.mem_elems_of_parent hz))

theorem Rises.congr (h : Rises s x n) (hs : Holds s t) (hx : x ∈ t.toList)
    (hp : ∀ u ∈ t.toList, s'.rbtParent u = s.rbtParent u) : Rises s' x n := by
  induction h with
  | top hpar => exact .top ((hp _ hx).trans hpar)
  | step hpar _ ih => exact .step ((hp _ hx).trans hpar) (ih (hs.parent_mem hx hpar))

/-- `t_augment` puts the data of an entry right, and then those above it as far as it must, with any
fuel from the bound on.  What is right for an entry depends on its children, which have to point
back to it. -/
structure Augments (tAugment : Nat → RbTree ν → σ → ν → Option σ) (kept : σ → Prop)
    (right : RbTree ν → σ → ν → Prop) (bound : Nat) : Prop where
  congr {s s' : RbTree ν} {m : σ} {x : ν} : (∀ d, s'.rbtChild d x = s.rbtChild d x) →
    right s m x → right s' m x
  walk {s : RbTree ν} {m : σ} {x : ν} {n : Nat} {U : Set ν} : Rises s x n → n < bound → kept m →
    (∀ y ∈ U, ∀ d z, s.rbtChild d y = some z → s.rbtParent z = some y) →
    (∀ y ∈ U, y ≠ x → right s m y) →
    ∃ m', (∀ g, bound ≤ g → tAugment g s m x = some m') ∧ kept m' ∧ ∀ y ∈ U, right s m' y

structure Augmented (kept : σ → Prop) (right : RbTree ν → σ → ν → Prop) (s : RbTree ν) (m : σ)
    (t : BinTree ν) (T : Set ν) : Prop where
  holds : Holds s t
  kept : kept m
  right : ∀ y ∈ t.toList, y ∉ T → right s m y

variable {tAugment : Nat → RbTree ν → σ → ν → Option σ} {kept : σ → Prop}
  {right : RbTree ν → σ → ν → Prop}

section

variable (ha : Augments tAugment kept right bound)

include ha

theorem Augments.augment (h : Holds s t) (hk : kept m)
    (hb : t.toList.length ≤ bound) (hx : x ∈ t.toList)
    (hr : ∀ y ∈ t.toList, y ∉ T → y ≠ x → right s m y) :
    ∃ m', (∀ g, bound ≤ g → tAugment g s m x = some m') ∧ Augmented kept right s m' t T := by
  obtain ⟨n, hn, hrises⟩ := h.rises hx
  obtain ⟨m', hrun, hk', hright⟩ := ha.walk (U := {y | y ∈ t.toList ∧ y ∉ T}) hrises
    (hn.trans_le hb) hk (fun y hy d z hz => (h.links hy.1 hz).1)
    fun y hy hyx => hr y hy.1 hy.2 hyx
  exact ⟨m', hrun, h, hk', fun y hy hyT => hright y ⟨hy, hyT⟩⟩

theorem Augments.ifAugment (h : Holds s t) (hk : kept m)
    (hb : t.toList.length ≤ bound) (ho : ∀ x, o = some x → x ∈ t.toList)
    (hr : ∀ y ∈ t.toList, y ∉ T → o ≠ some y → right s m y) :
    ∃ m', (∀ g, bound ≤ g → rbeIfAugment (tAugment g) s m o = some m') ∧
      Augmented kept right s m' t T := by
  cases o with
  | none => exact ⟨m, fun _ _ => rfl, h, hk, fun y hy hyT => hr y hy hyT nofun⟩
  | some x =>
    exact ha.augment h hk hb (ho x rfl) fun y hy hyT hyx =>
      hr y hy hyT fun heq => hyx (Option.some.inj heq).symm

theorem Augmented.congr (h : Augmented kept right s m t T)
    (hs : Holds s' t) (hc : ∀ y ∈ t.toList, y ∉ T → ∀ d, s'.rbtChild d y = s.rbtChild d y) :
    Augmented kept right s' m t T :=
  ⟨hs, h.kept, fun y hy hyT => ha.congr (hc y hy hyT) (h.right y hy hyT)⟩

end

theorem Augmented.mono {T' : Set ν} (h : Augmented kept right s m t T) (hT : T ⊆ T') :
    Augmented kept right s m t T' :=
  ⟨h.holds, h.kept, fun y hy hyT => h.right y hy fun hc => hyT (hT hc)⟩

theorem Augmented.up (ha : Augments tAugment kept right bound)
    (h : Augmented kept right s m (p.fill t) T) (hb : (p.fill t).toList.length ≤ bound) :
    ∃ m', (∀ g fuel, bound ≤ g → p.length ≤ fuel →
        augmentUp (tAugment g) s fuel m p.parent = some m') ∧
      Augmented kept right s m' (p.fill t) {y | y ∈ T ∧ y ∉ p.above} := by
  induction p generalizing t m T with
  | root =>
    exact ⟨m, fun _ _ _ _ => by simp [augmentUp, Path.parent], h.mono fun y hy => ⟨hy, nofun⟩⟩
  | step d p y b ih =>
    rw [Path.fill] at h hb ⊢
    obtain ⟨m₁, hrun₁, h₁⟩ := ha.augment (T := {u | u ∈ T ∧ u ≠ y}) h.holds h.kept hb
      (Path.mem_fill (mem_branch.mpr (.inl rfl)))
      fun u hu huT huy => h.right u hu fun hc => huT ⟨hc, huy⟩
    obtain ⟨m₂, hrun₂, h₂⟩ := ih h₁ hb
    refine ⟨m₂, fun g fuel hg hf => ?_, h₂.mono fun u hu => ⟨hu.1.1, ?_⟩⟩
    · rw [Path.length] at hf
      obtain ⟨fuel, rfl⟩ := Nat.exists_eq_succ_of_ne_zero (n := fuel) (by omega)
      rw [Path.parent, augmentUp, hrun₁ g hg, h.holds.parent_top (top_branch ..)]
      exact hrun₂ g fuel hg (Nat.le_of_succ_le_succ hf)
    · rw [Path.above, mem_cons, not_or]
      exact ⟨hu.1.2, hu.2⟩

variable [DecidableEq ν]

theorem Augmented.setColor (ha : Augments tAugment kept right bound)
    (h : Augmented kept right s m t T) (x : ν) (color : RbColor) : Augmented kept right (s.setColor x color) m t T :=
  h.congr ha (h.holds.setColor x color) fun _ _ _ _ => rfl

theorem Augmented.setBlackred (ha : Augments tAugment kept right bound)
    (h : Augmented kept right s m t T) (x y : ν) : Augmented kept right (rbeSetBlackred s x y) m t T :=
  (h.setColor ha _ _).setColor ha _ _

theorem rbtChild_rbeRotate (hrot : rbeRotate d s x = some s') (hy : s.rbtChild d.flip x = some y)
    (hxy : y ≠ x) (hux : u ≠ x) (huy : u ≠ y) (hpar : s'.rbtParent y ≠ some u) (e : Side) :
    s'.rbtChild e u = s.rbtChild e u := by
  simp only [rbeRotate, hy, Option.bind_eq_bind, Option.bind_some, Option.some.injEq] at hrot
  subst hrot
  simp only [RbTree.rbtParent_setParent, if_neg hxy, RbTree.rbtParent_setChild,
    RbTree.rbtParent_relink, RbTree.rbtParent_setParentOf, if_true] at hpar
  simp [RbTree.rbtChild_relink hpar, hux, huy]

theorem Holds.rotated (h : Holds s t) (hx : x ∈ t.toList) (hrot : rbeRotate d s x = some s') :
    ∃ y t', s.rbtChild d.flip x = some y ∧ y ≠ x ∧ y ∈ t.toList ∧ Holds s' t' ∧
      t'.toList = t.toList := by
  obtain ⟨p, l, r, ht⟩ := Path.exists_of_mem t .root hx
  rw [Path.fill] at ht
  subst ht
  obtain ⟨a, b, hab⟩ := node_eq_branch d l r x
  rw [hab] at h hx ⊢
  obtain ⟨y, hy, -⟩ := Option.bind_eq_some_iff.mp hrot
  have hchild : s.rbtChild d.flip x = b.top :=
    (linked_branch.mp (holds_fill.mp h).2.1).2.2.1
  obtain ⟨l', r', rfl⟩ := exists_of_top (hchild.symm.trans hy)
  obtain ⟨b', c, hbc⟩ := node_eq_branch d l' r' y
  rw [hbc] at h hx ⊢
  obtain ⟨s'', hrot', hs', -⟩ := h.rotate
  rw [hrot, Option.some.injEq] at hrot'
  subst hrot'
  have hyb : y ∈ (branch d b' y c).toList := mem_branch.mpr (.inl rfl)
  refine ⟨y, _, hy, ?_, Path.mem_fill (mem_branch.mpr (.inr (.inr hyb))), hs',
    Path.toList_fill_congr (toList_rotate ..)⟩
  rintro rfl
  exact (nodup_branch.mp (nodup_append.mp (holds_fill.mp h).2.2).1).1.2 hyb

theorem Augmented.rotate (ha : Augments tAugment kept right bound)
    (h : Augmented kept right s m t T) (hb : t.toList.length ≤ bound) (hx : x ∈ t.toList) (hrot : rbeRotate d s x = some s') :
    ∃ t' m', (∀ g, bound ≤ g → rbeRotateAugment (tAugment g) d s m x = some (s', m')) ∧
      Augmented kept right s' m' t' T ∧ t'.toList = t.toList := by
  obtain ⟨y, t', hy, hyx, hyt, hs', hl⟩ := h.holds.rotated hx hrot
  rw [← hl] at hb hx hyt
  let P : Set ν := {u | s'.rbtParent y = some u}
  obtain ⟨m₁, hrun₁, h₁⟩ := ha.augment (T := T ∪ P ∪ {y}) hs' h.kept hb hx fun u hu huT hux => by
    simp only [Set.mem_union, Set.mem_singleton_iff, not_or] at huT
    exact ha.congr (rbtChild_rbeRotate hrot hy hyx hux huT.2 huT.1.2) (h.right u (hl ▸ hu) huT.1.1)
  obtain ⟨m₂, hrun₂, h₂⟩ := ha.augment (T := T ∪ P) hs' h₁.kept hb hyt fun u hu huT huy =>
    h₁.right u hu fun hc => hc.elim huT huy
  obtain ⟨m₃, hrun₃, h₃⟩ := ha.ifAugment (T := T) hs' h₂.kept hb (fun u hu => hs'.parent_mem hyt hu)
    fun u hu huT hup => h₂.right u hu fun hc => hc.elim huT hup
  refine ⟨t', m₃, fun g hg => ?_, h₃, hl⟩
  simp only [rbeRotateAugment, hy, hrot, hrun₁ g hg, hrun₂ g hg, hrun₃ g hg, Option.bind_eq_bind,
    Option.bind_some]

/-- With fuel enough, an operation comes out as without the calls of `t_augment`, and the data stay
right. -/
def Lockstep {α : Type} (bound fuel : Nat) (kept : σ → Prop) (right : RbTree ν → σ → ν → Prop)
    (T : Set ν) (k : List ν) (tree : α → RbTree ν) (a : α) (run : Nat → Nat → Option (α × σ)) :
    Prop :=
  ∃ t m, (∀ g f, bound ≤ g → fuel ≤ f → run g f = some (a, m)) ∧
    Augmented kept right (tree a) m t T ∧ t.toList = k

section Insert

variable {w x' g : ν}

section

variable (ha : Augments tAugment kept right bound) (h : Augmented kept right s m t T)
  (hb : t.toList.length ≤ bound)

include ha h hb

theorem Augmented.insertRotated (hx : x ∈ t.toList) (hy : y ∈ t.toList) (hg : g ∈ t.toList)
    (hrun : insertColorRound.rotated e s x y g = some (s', x')) :
    Lockstep bound 0 kept right T t.toList Prod.fst (s', x')
      (fun f _ => insertColorRoundAugment.rotated (tAugment f) e s m x y g) ∧ x' ∈ t.toList := by
  rw [insertColorRound.rotated] at hrun
  by_cases hside : s.rbtChild e.flip y = some x
  · rw [if_pos hside] at hrun
    obtain ⟨s₁, hrot₁, hrun⟩ := Option.bind_eq_some_iff.mp hrun
    obtain ⟨_, ⟨⟩, hrun⟩ := Option.bind_eq_some_iff.mp hrun
    obtain ⟨s₂, hrot₂, hrun⟩ := Option.bind_eq_some_iff.mp hrun
    cases hrun
    obtain ⟨t₁, m₁, hrun₁, h₁, hl₁⟩ := h.rotate ha hb hy hrot₁
    obtain ⟨t₂, m₂, hrun₂, h₂, hl₂⟩ :=
      (h₁.setBlackred ha x g).rotate ha (hl₁ ▸ hb) (hl₁ ▸ hg) hrot₂
    refine ⟨⟨t₂, m₂, fun f _ hf _ => ?_, h₂, hl₂.trans hl₁⟩, hy⟩
    simp only [insertColorRoundAugment.rotated, if_pos hside, hrun₁ f hf, hrun₂ f hf,
      Option.bind_eq_bind, Option.bind_some]
  · rw [if_neg hside] at hrun
    obtain ⟨_, ⟨⟩, hrun⟩ := Option.bind_eq_some_iff.mp hrun
    obtain ⟨s₂, hrot₂, hrun⟩ := Option.bind_eq_some_iff.mp hrun
    cases hrun
    obtain ⟨t₂, m₂, hrun₂, h₂, hl₂⟩ := (h.setBlackred ha y g).rotate ha hb hg hrot₂
    refine ⟨⟨t₂, m₂, fun f _ hf _ => ?_, h₂, hl₂⟩, hx⟩
    simp only [insertColorRoundAugment.rotated, if_neg hside, hrun₂ f hf, Option.bind_eq_bind,
      Option.bind_some]

theorem Augmented.insertRound (hx : x ∈ t.toList)
    (hy : y ∈ t.toList) (hg : g ∈ t.toList) (hrun : insertColorRound e s x y g = some (s', x')) :
    Lockstep bound 0 kept right T t.toList Prod.fst (s', x')
      (fun f _ => insertColorRoundAugment (tAugment f) e s m x y g) ∧ x' ∈ t.toList := by
  rw [insertColorRound] at hrun
  simp only [insertColorRoundAugment]
  cases hu : s.rbtChild e.flip g with
  | none =>
    rw [hu] at hrun
    exact h.insertRotated ha hb hx hy hg hrun
  | some w =>
    rw [hu] at hrun
    by_cases hw : s.rbtColor w = .RB_RED
    · simp only [if_pos hw] at hrun ⊢
      cases hrun
      exact ⟨⟨t, m, fun _ _ _ _ => rfl, (h.setColor ha _ _).setBlackred ha _ _, rfl⟩, hg⟩
    · simp only [if_neg hw] at hrun ⊢
      exact h.insertRotated ha hb hx hy hg hrun

theorem Augmented.insertLoop (hx : x ∈ t.toList)
    (hrun : insertColorLoop fuel s x = some s') : Lockstep bound fuel kept right T t.toList id s'
      (fun g f => insertColorLoopAugment (tAugment g) f s m x) := by
  induction fuel generalizing s m t x with
  | zero => cases hrun
  | succ fuel ih =>
    rw [insertColorLoop] at hrun
    cases hy : s.rbtParent x with
    | none =>
      rw [hy] at hrun
      cases hrun
      refine ⟨t, m, fun g f _ hf => ?_, h, rfl⟩
      obtain ⟨f, rfl⟩ := Nat.exists_eq_succ_of_ne_zero (Nat.ne_zero_of_lt hf)
      simp only [insertColorLoopAugment, hy]
    | some y =>
      simp only [hy] at hrun
      by_cases hred : s.rbtColor y = .RB_RED
      · rw [if_pos hred] at hrun
        obtain ⟨g, hg, hrun⟩ := Option.bind_eq_some_iff.mp hrun
        obtain ⟨⟨s₁, x₁⟩, hround, hrun⟩ := Option.bind_eq_some_iff.mp hrun
        have hyt := h.holds.parent_mem hx hy
        obtain ⟨⟨t₁, m₁, hrun₁, h₁, hl₁⟩, hx₁⟩ :=
          h.insertRound ha hb hx hyt (h.holds.parent_mem hyt hg) hround
        obtain ⟨t', m', hrun', h', hl'⟩ := ih h₁ (hl₁ ▸ hb) (hl₁ ▸ hx₁) hrun
        refine ⟨t', m', fun k f hk hf => ?_, h', hl'.trans hl₁⟩
        obtain ⟨f, rfl⟩ := Nat.exists_eq_succ_of_ne_zero (Nat.ne_zero_of_lt hf)
        simp only [insertColorLoopAugment, hy, if_pos hred, hg, hrun₁ k 0 hk le_rfl,
          Option.bind_eq_bind, Option.bind_some]
        exact hrun' k f hk (Nat.le_of_succ_le_succ hf)
      · rw [if_neg hred] at hrun
        cases hrun
        refine ⟨t, m, fun g f _ hf => ?_, h, rfl⟩
        obtain ⟨f, rfl⟩ := Nat.exists_eq_succ_of_ne_zero (Nat.ne_zero_of_lt hf)
        simp only [insertColorLoopAugment, hy, if_neg hred]

theorem Augmented.insertColor (hx : x ∈ t.toList)
    (hrun : rbeInsertColor fuel s x = some s') : Lockstep bound fuel kept right T t.toList id s'
      (fun g f => rbeInsertColorAugment (tAugment g) f s m x) := by
  obtain ⟨s₁, hloop, hrun⟩ := Option.bind_eq_some_iff.mp hrun
  obtain ⟨root, hroot, hrun⟩ := Option.bind_eq_some_iff.mp hrun
  cases hrun
  obtain ⟨t', m', hrun', h', hl⟩ := h.insertLoop ha hb hx hloop
  refine ⟨t', m', fun g f hg hf => ?_, h'.setColor ha root .RB_BLACK, hl⟩
  simp only [rbeInsertColorAugment, hrun' g f hg hf, hroot, Option.bind_eq_bind, Option.bind_some]

end

theorem rbtChild_hang {par : Option ν} {comp : Int} (hx : x ≠ y) (hpar : par ≠ some x) (e : Side) :
    (hang s y par comp).rbtChild e x = s.rbtChild e x := by
  unfold hang
  cases par with
  | none => simp [rbeSet, hx]
  | some z =>
    have hz : x ≠ z := fun hxz => hpar (hxz ▸ rfl)
    dsimp only
    split <;> simp [rbeSet, hx, hz]

theorem Augmented.hang {comp : Int} (ha : Augments tAugment kept right bound)
    (h : Augmented kept right s m (p.fill .nil) ∅) (hy : y ∉ (p.fill .nil).toList)
    (hcomp : ∀ d q x b, p = .step d q x b → (d = .left ↔ comp < 0))
    (hb : (p.fill (node .nil y .nil)).toList.length ≤ bound) :
    ∃ m', (∀ g, bound ≤ g → rbeIfAugment (tAugment g) (hang s y p.parent comp) m p.parent
        = some m') ∧
      Augmented kept right (SubrTree.hang s y p.parent comp) m' (p.fill (node .nil y .nil)) {y} := by
  refine ha.ifAugment (h.holds.hang hy hcomp) h.kept hb (fun u hu => ?_) fun u hu huy hpar => ?_
  · exact (p.perm_fill _).mem_iff.mpr (List.mem_append_right _ (Path.mem_elems_of_parent hu))
  · refine ha.congr (rbtChild_hang huy hpar) (h.right u ?_ nofun)
    have hmem := (p.perm_fill _).mem_iff.mp hu
    rw [List.mem_append, toList, toList, List.nil_append, List.mem_singleton] at hmem
    exact (p.perm_fill _).mem_iff.mpr (List.mem_append_right _ (hmem.resolve_left huy))

theorem Augmented.insert {tCompare : ν → ν → Int} (ha : Augments tAugment kept right bound)
    (hc : TotalPreorder tCompare) (h : Augmented kept right s m t ∅)
    (hs : Sorted tCompare t.toList) (hy : y ∉ t.toList) (hb : t.toList.length < bound)
    (hf : t.toList.length < fuel) (hrun : rbInsert tCompare fuel s y = some (s', none)) :
    ∃ t' m', (∀ g f, bound ≤ g → fuel ≤ f →
        rbInsertAugment (tAugment g) tCompare f s m y = some ((s', m'), none)) ∧
      Augmented kept right s' m' t' {y} ∧ t'.toList.Perm (y :: t.toList) := by
  obtain ⟨found, hsearch, hat⟩ := insertSearch_spec (p := .root) 0 hc h.holds hs
    (belongs_root : Belongs tCompare y .root) nofun
  have hloop : ∀ f, fuel ≤ f → insertSearch tCompare s y f s.rbtRoot none 0 = some found :=
    fun f hff => h.holds.root ▸ hsearch f (t.height_le_length.trans_lt (hf.trans_le hff))
  obtain ⟨found', hfound, hrun⟩ := Option.bind_eq_some_iff.mp hrun
  obtain rfl : found = found' := Option.some.inj ((hloop fuel le_rfl).symm.trans hfound)
  cases hat with
  | equal => cases hrun
  | @below p comp ht _ hcomp =>
    rw [Path.fill] at ht
    subst ht
    obtain ⟨s₁, hcol, hrun⟩ := Option.bind_eq_some_iff.mp hrun
    cases hrun
    have hperm : (p.fill (node .nil y .nil)).toList.Perm (y :: (p.fill .nil).toList) :=
      (p.perm_fill _).trans ((p.perm_fill .nil).symm.cons y)
    have hb' : (p.fill (node .nil y .nil)).toList.length ≤ bound := hperm.length_eq.trans_le hb
    obtain ⟨m₁, hrun₁, h₁⟩ := h.hang ha hy hcomp hb'
    obtain ⟨t₂, m₂, hrun₂, h₂, hl₂⟩ :=
      h₁.insertColor ha hb' (Path.mem_fill (mem_top (top_node ..))) hcol
    refine ⟨t₂, m₂, fun g f hg hff => ?_, h₂, hl₂ ▸ hperm⟩
    simp only [rbInsertAugment, hloop f hff, hrun₁ g hg, hrun₂ g f hg hff, Option.bind_eq_bind,
      Option.bind_some]

theorem rbInsertAugment_equal {tCompare : ν → ν → Int} {tAugment : RbTree ν → σ → ν → Option σ}
    (hrun : rbInsert tCompare fuel s y = some (s', some x)) :
    rbInsertAugment tAugment tCompare fuel s m y = some ((s, m), some x) := by
  obtain ⟨found, hsearch, hrun⟩ := Option.bind_eq_some_iff.mp hrun
  cases found with
  | equal z =>
    cases hrun
    simp only [rbInsertAugment, hsearch, Option.bind_eq_bind, Option.bind_some]
  | below par comp =>
    obtain ⟨s₁, -, hrun⟩ := Option.bind_eq_some_iff.mp hrun
    cases hrun

end Insert

end Mbsd.Kern.SubrTree
