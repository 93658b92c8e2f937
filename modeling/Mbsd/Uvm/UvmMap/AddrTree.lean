import Mbsd.Kern.SubrTree.AugmentRemove

/-! The tree of the entries of a map in the order of their addresses, and `fspace_augment` in it.
`none` is a panic, or a loop that is not done when the fuel is. -/

namespace Mbsd.Uvm.UvmMap

open Lib Kern.SubrTree

structure VmMapEntry where
  start : Nat
  fspace : Nat
  fspaceAugment : Nat
  deriving DecidableEq, Repr

variable {ν : Type}

def uvmMapentryAddrcmp (m : ν → VmMapEntry) (e1 e2 : ν) : Int :=
  if (m e1).start < (m e2).start then -1 else if (m e1).start > (m e2).start then 1 else 0

def uvmMapAddrAugmentGet (t : RbTree ν) (m : ν → VmMapEntry) (entry : ν) : Nat :=
  let augment := (m entry).fspace
  let augment := match t.rbtChild .left entry with
    | none => augment
    | some left => max augment (m left).fspaceAugment
  match t.rbtChild .right entry with
  | none => augment
  | some right => max augment (m right).fspaceAugment

variable [DecidableEq ν]

def setFspace (m : ν → VmMapEntry) (entry : ν) (fspace : Nat) : ν → VmMapEntry :=
  Function.update m entry { m entry with fspace := fspace }

def setFspaceAugment (m : ν → VmMapEntry) (entry : ν) (augment : Nat) : ν → VmMapEntry :=
  Function.update m entry { m entry with fspaceAugment := augment }

def uvmMapAddrAugment (t : RbTree ν) : Nat → (ν → VmMapEntry) → Option ν → Option (ν → VmMapEntry)
  | _, m, none => some m
  | 0, _, some _ => none
  | fuel + 1, m, some entry =>
    let augment := uvmMapAddrAugmentGet t m entry
    if (m entry).fspaceAugment = augment then some m
    else uvmMapAddrAugment t fuel (setFspaceAugment m entry augment) (t.rbtParent entry)

def addrAugment (fuel : Nat) (t : RbTree ν) (m : ν → VmMapEntry) (entry : ν) :
    Option (ν → VmMapEntry) :=
  uvmMapAddrAugment t fuel m (some entry)

def uvmMapentAddrInsert (fuel : Nat) (t : RbTree ν) (m : ν → VmMapEntry) (entry : ν) :
    Option (RbTree ν × (ν → VmMapEntry)) := do
  match ← rbInsertAugment (addrAugment fuel) (uvmMapentryAddrcmp m) fuel t m entry with
  | (r, none) => some r
  | (_, some _) => none

def uvmMapentAddrRemove (fuel : Nat) (t : RbTree ν) (m : ν → VmMapEntry) (entry : ν) :
    Option (RbTree ν × (ν → VmMapEntry)) :=
  rbRemoveAugment (addrAugment fuel) fuel t m entry

def insertAugmented (fuel : Nat) (t : RbTree ν) (m : ν → VmMapEntry) (entry : ν) :
    Option (RbTree ν × (ν → VmMapEntry)) := do
  let (t, m) ← uvmMapentAddrInsert fuel t m entry
  some (t, ← addrAugment fuel t m entry)

/-- A run from the empty tree, with the entries in it.  What the other entries hold, links included,
may change at any time. -/
inductive AddrTree : RbTree ν → (ν → VmMapEntry) → Set ν → Prop
  | init {t : RbTree ν} {m : ν → VmMapEntry} : t.rbtRoot = none → AddrTree t m ∅
  | outside {t t' : RbTree ν} {m m' : ν → VmMapEntry} {S : Set ν} : AddrTree t m S →
      t'.rbtRoot = t.rbtRoot → (∀ x ∈ S, m' x = m x ∧ t'.rbtColor x = t.rbtColor x ∧
        t'.rbtParent x = t.rbtParent x ∧ ∀ d, t'.rbtChild d x = t.rbtChild d x) →
      AddrTree t' m' S
  | insert {t t' : RbTree ν} {m m' : ν → VmMapEntry} {S : Set ν} {x : ν} : AddrTree t m S →
      Ends (insertAugmented · t m x) (t', m') → AddrTree t' m' (insert x S)
  | remove {t t' : RbTree ν} {m m' : ν → VmMapEntry} {S : Set ν} {x : ν} : AddrTree t m S →
      x ∈ S → Ends (uvmMapentAddrRemove · t m x) (t', m') → AddrTree t' m' (S \ {x})
  | change {t : RbTree ν} {m m' : ν → VmMapEntry} {S : Set ν} {x : ν} {fspace : Nat} :
      AddrTree t m S → x ∈ S → Ends (addrAugment · t (setFspace m x fspace) x) m' →
      AddrTree t m' S

open BinTree

variable {ν : Type} {t t' : RbTree ν} {m m' m₀ : ν → VmMapEntry} {S U : Set ν} {x y : ν}
  {b l r : BinTree ν} {par : Option ν} {n bound fspace : Nat} {d : Side}

theorem uvmMapentryAddrcmp_total (m : ν → VmMapEntry) : TotalPreorder (uvmMapentryAddrcmp m) := by
  constructor <;> grind [uvmMapentryAddrcmp]

theorem uvmMapentryAddrcmp_eq_zero : uvmMapentryAddrcmp m x y = 0 ↔ (m x).start = (m y).start := by
  grind [uvmMapentryAddrcmp]

def Right (t : RbTree ν) (m : ν → VmMapEntry) (x : ν) : Prop :=
  (m x).fspaceAugment = uvmMapAddrAugmentGet t m x

def Kept (m₀ m : ν → VmMapEntry) : Prop :=
  ∀ x, (m x).start = (m₀ x).start ∧ (m x).fspace = (m₀ x).fspace

theorem Kept.addrcmp (h : Kept m₀ m) : uvmMapentryAddrcmp m = uvmMapentryAddrcmp m₀ := by
  funext x y
  simp only [uvmMapentryAddrcmp, (h x).1, (h y).1]

theorem uvmMapAddrAugmentGet_congr (ht : ∀ d, t'.rbtChild d x = t.rbtChild d x)
    (hx : (m' x).fspace = (m x).fspace)
    (hc : ∀ d y, t.rbtChild d x = some y → (m' y).fspaceAugment = (m y).fspaceAugment) :
    uvmMapAddrAugmentGet t' m' x = uvmMapAddrAugmentGet t m x := by
  have hl := hc .left
  have hr := hc .right
  rw [uvmMapAddrAugmentGet, uvmMapAddrAugmentGet, ht, ht, hx]
  cases hlx : t.rbtChild .left x <;> cases hrx : t.rbtChild .right x <;> simp_all

theorem Right.congr (h : Right t m x) (ht : ∀ d, t'.rbtChild d x = t.rbtChild d x) : Right t' m x :=
  h.trans (uvmMapAddrAugmentGet_congr (fun d => (ht d).symm) rfl fun _ _ _ => rfl)

structure Exact (t : RbTree ν) (m : ν → VmMapEntry) (S : Set ν) (b : BinTree ν) : Prop where
  tree : Represents (uvmMapentryAddrcmp m) t S b
  right : ∀ x ∈ S, Right t m x

theorem Exact.augmented (h : Exact t m S b) : Augmented (Kept m) Right t m b ∅ :=
  ⟨h.tree.tree.holds, fun _ => ⟨rfl, rfl⟩, fun y hy _ => h.right y ((h.tree.mem y).mp hy)⟩

theorem Exact.of_augmented (h : Represents (uvmMapentryAddrcmp m) t S b) (hm : Kept m m')
    (hr : ∀ x ∈ S, Right t m' x) : Exact t m' S b :=
  ⟨hm.addrcmp ▸ h, hr⟩

def Below (t : RbTree ν) : ν → ν → Prop :=
  Relation.ReflTransGen fun x y => ∃ d, t.rbtChild d x = some y

theorem uvmMapAddrAugmentGet_le (hd : t.rbtChild d x = some y) :
    (m y).fspaceAugment ≤ uvmMapAddrAugmentGet t m x := by
  rw [uvmMapAddrAugmentGet]
  cases d with
  | left =>
    cases hr : t.rbtChild .right x <;> simp [hd]
  | right =>
    cases hr : t.rbtChild .left x <;> simp [hd]

theorem le_uvmMapAddrAugmentGet : (m x).fspace ≤ uvmMapAddrAugmentGet t m x := by
  rw [uvmMapAddrAugmentGet]
  cases t.rbtChild .left x <;> cases t.rbtChild .right x <;> grind

theorem Exact.below_le (h : Exact t m S b) (hx : x ∈ S) (hy : Below t x y) :
    y ∈ S ∧ (m y).fspaceAugment ≤ (m x).fspaceAugment := by
  induction hy with
  | refl => exact ⟨hx, le_rfl⟩
  | @tail y z _ hz ih =>
    obtain ⟨d, hd⟩ := hz
    obtain ⟨hyS, hle⟩ := ih
    have hz := (h.tree.tree.holds.links ((h.tree.mem y).mpr hyS) hd).2
    refine ⟨(h.tree.mem z).mp hz, le_trans ?_ hle⟩
    rw [h.right y hyS]
    exact uvmMapAddrAugmentGet_le hd

theorem uvmMapAddrAugmentGet_eq (t : RbTree ν) (m : ν → VmMapEntry) (x : ν) :
    uvmMapAddrAugmentGet t m x = (m x).fspace ∨
      ∃ d y, t.rbtChild d x = some y ∧ uvmMapAddrAugmentGet t m x = (m y).fspaceAugment := by
  rw [uvmMapAddrAugmentGet]
  cases hl : t.rbtChild .left x <;> cases hr : t.rbtChild .right x <;> grind

theorem below_of_mem (h : Linked t par b) (hx : b.top = some x) (hy : y ∈ b.toList) :
    Below t x y := by
  induction b generalizing par x with
  | nil => cases hx
  | node l z r ihl ihr =>
    cases hx
    obtain ⟨-, hl, hr, hll, hlr⟩ := h
    rw [toList, List.mem_append, List.mem_cons] at hy
    rcases hy with hy | rfl | hy
    · cases htop : l.top with
      | none =>
        rw [top_eq_none.mp htop, toList] at hy
        cases hy
      | some w => exact .head ⟨.left, hl.trans htop⟩ (ihl hll htop hy)
    · exact .refl
    · cases htop : r.top with
      | none =>
        rw [top_eq_none.mp htop, toList] at hy
        cases hy
      | some w => exact .head ⟨.right, hr.trans htop⟩ (ihr hlr htop hy)

theorem exists_below (h : Linked t par b) (hx : b.top = some x)
    (hr : ∀ y ∈ b.toList, Right t m y) : ∃ y, Below t x y ∧ (m y).fspace = (m x).fspaceAugment := by
  induction b generalizing par x with
  | nil => cases hx
  | node l z r ihl ihr =>
    cases hx
    obtain ⟨-, hl, hr', hll, hlr⟩ := h
    simp only [toList, List.mem_append, List.mem_cons] at hr
    have hz := hr z (.inr (.inl rfl))
    rcases uvmMapAddrAugmentGet_eq t m z with heq | ⟨d, w, hd, heq⟩
    · exact ⟨z, .refl, heq.symm.trans hz.symm⟩
    · have hchild : ∃ y, Below t w y ∧ (m y).fspace = (m w).fspaceAugment := by
        cases d with
        | left => exact ihl hll (hl.symm.trans hd) fun y hy => hr y (.inl hy)
        | right => exact ihr hlr (hr'.symm.trans hd) fun y hy => hr y (.inr (.inr hy))
      obtain ⟨y, hy, hmax⟩ := hchild
      exact ⟨y, .head ⟨d, hd⟩ hy, hmax.trans (heq.symm.trans hz.symm)⟩

theorem Exact.greatest (h : Exact t m S b) (hx : x ∈ S) :
    IsGreatest ((fun y => (m y).fspace) '' {y | Below t x y}) (m x).fspaceAugment := by
  have hright : ∀ y ∈ b.toList, Right t m y := fun y hy => h.right y ((h.tree.mem y).mp hy)
  constructor
  · obtain ⟨p, l, r, hb⟩ := Path.exists_of_mem b .root ((h.tree.mem x).mpr hx)
    rw [Path.fill] at hb
    subst hb
    obtain ⟨-, hl, -⟩ := holds_fill.mp h.tree.tree.holds
    exact exists_below hl (top_node ..) fun y hy => hright y (Path.mem_fill hy)
  · rintro _ ⟨y, hy, rfl⟩
    obtain ⟨hyS, hle⟩ := h.below_le hx hy
    refine le_trans ?_ hle
    rw [h.right y hyS]
    exact le_uvmMapAddrAugmentGet

theorem Exact.mem_iff (h : Exact t m S b) :
    x ∈ S ↔ ∃ root, t.rbtRoot = some root ∧ Below t root x := by
  have hroot := h.tree.tree.holds.root
  rw [hroot, ← h.tree.mem]
  constructor
  · intro hx
    cases htop : b.top with
    | none => exact nomatch top_eq_none.mp htop ▸ hx
    | some root => exact ⟨root, rfl, below_of_mem h.tree.tree.holds.linked htop hx⟩
  · rintro ⟨root, htop, hx⟩
    exact (h.tree.mem x).mpr (h.below_le ((h.tree.mem root).mp (mem_top htop)) hx).1

theorem Exact.outside (h : Exact t m S b) (hroot : t'.rbtRoot = t.rbtRoot)
    (hs : ∀ x ∈ S, m' x = m x ∧ t'.rbtColor x = t.rbtColor x ∧ t'.rbtParent x = t.rbtParent x ∧
      ∀ d, t'.rbtChild d x = t.rbtChild d x) : Exact t' m' S b := by
  obtain ⟨⟨⟨hb, hl, hn⟩, hrb, hsorted⟩, hmem⟩ := h.tree
  have hm : ∀ x ∈ b.toList, m' x = m x := fun x hx => (hs x ((hmem x).mp hx)).1
  refine ⟨⟨⟨⟨hroot.trans hb, hl.congr fun x hx => (hs x ((hmem x).mp hx)).2.2, hn⟩,
    hrb.congr fun x hx => ?_, hsorted.imp_of_mem fun {x y} hx hy hlt => ?_⟩, hmem⟩, fun x hx => ?_⟩
  · rw [IsRed, IsRed, (hs x ((hmem x).mp hx)).2.1]
  · rwa [uvmMapentryAddrcmp, hm x hx, hm y hy]
  · have hcong : uvmMapAddrAugmentGet t' m' x = uvmMapAddrAugmentGet t m x :=
      uvmMapAddrAugmentGet_congr (hs x hx).2.2.2 (by rw [(hs x hx).1]) fun d y hd => by
        rw [hm y (h.tree.tree.holds.links ((hmem x).mpr hx) hd).2]
    rw [Right, hcong, (hs x hx).1]
    exact h.right x hx

variable [DecidableEq ν]

theorem Kept.setFspaceAugment (h : Kept m₀ m) (x : ν) (augment : Nat) :
    Kept m₀ (setFspaceAugment m x augment) := by
  intro y
  by_cases hy : y = x
  · subst hy
    simpa [UvmMap.setFspaceAugment] using h y
  · simpa [UvmMap.setFspaceAugment, hy] using h y

theorem right_setFspaceAugment
    (hl : ∀ y ∈ U, ∀ d z, t.rbtChild d y = some z → t.rbtParent z = some y)
    (hr : ∀ y ∈ U, y ≠ x → Right t m y) (hy : y ∈ U) (hpar : t.rbtParent x ≠ some y) :
    Right t (setFspaceAugment m x (uvmMapAddrAugmentGet t m x)) y := by
  have hget : uvmMapAddrAugmentGet t (setFspaceAugment m x (uvmMapAddrAugmentGet t m x)) y =
      uvmMapAddrAugmentGet t m y := by
    refine uvmMapAddrAugmentGet_congr (fun _ => rfl) ?_ fun d z hz => ?_
    · by_cases hyx : y = x <;> simp [setFspaceAugment, hyx]
    · have hzx : z ≠ x := fun hzx => hpar (hzx ▸ hl y hy d z hz)
      simp [setFspaceAugment, hzx]
  rw [Right, hget]
  by_cases hyx : y = x
  · simp [setFspaceAugment, hyx]
  · simp only [setFspaceAugment, Function.update_of_ne hyx]
    exact hr y hy hyx

theorem addrAugment_spec (h : Rises t x n) (hk : Kept m₀ m)
    (hl : ∀ y ∈ U, ∀ d z, t.rbtChild d y = some z → t.rbtParent z = some y)
    (hr : ∀ y ∈ U, y ≠ x → Right t m y) :
    ∃ m', (∀ fuel, n < fuel → addrAugment fuel t m x = some m') ∧ Kept m₀ m' ∧
      ∀ y ∈ U, Right t m' y := by
  induction n using Nat.strongRecOn generalizing x m with
  | _ n ih =>
  by_cases hx : (m x).fspaceAugment = uvmMapAddrAugmentGet t m x
  · refine ⟨m, fun fuel hf => ?_, hk, fun y hy => ?_⟩
    · obtain ⟨fuel, rfl⟩ := Nat.exists_eq_succ_of_ne_zero (Nat.ne_zero_of_lt hf)
      exact if_pos hx
    · by_cases hyx : y = x
      · exact hyx ▸ hx
      · exact hr y hy hyx
  · let m₁ := setFspaceAugment m x (uvmMapAddrAugmentGet t m x)
    have hr₁ : ∀ y ∈ U, t.rbtParent x ≠ some y → Right t m₁ y := fun y =>
      right_setFspaceAugment hl hr
    have hk₁ : Kept m₀ m₁ := hk.setFspaceAugment x _
    have hround : ∀ fuel, addrAugment (fuel + 1) t m x =
        uvmMapAddrAugment t fuel m₁ (t.rbtParent x) := fun fuel => if_neg hx
    cases h with
    | top hpar =>
      refine ⟨m₁, fun fuel hf => ?_, hk₁, fun y hy => hr₁ y hy (by rw [hpar]; nofun)⟩
      obtain ⟨fuel, rfl⟩ := Nat.exists_eq_succ_of_ne_zero (Nat.ne_zero_of_lt hf)
      rw [hround, hpar]
      cases fuel <;> rfl
    | @step _ z n hpar hz =>
      obtain ⟨m', hrun, hk', hr'⟩ := ih n (Nat.lt_succ_self n) hz hk₁ fun y hy hyz =>
        hr₁ y hy fun hc => hyz (Option.some.inj (hc.symm.trans hpar))
      refine ⟨m', fun fuel hf => ?_, hk', hr'⟩
      obtain ⟨fuel, rfl⟩ := Nat.exists_eq_succ_of_ne_zero (Nat.ne_zero_of_lt hf)
      rw [hround, hpar]
      exact hrun fuel (Nat.lt_of_succ_lt_succ hf)

theorem addrAugment_augments : Augments (ν := ν) addrAugment (Kept m₀) Right bound where
  congr ht h := h.congr ht
  walk h hn hk hl hr := by
    obtain ⟨m', hrun, hrest⟩ := addrAugment_spec h hk hl hr
    exact ⟨m', fun g hg => hrun g (hn.trans_le hg), hrest⟩

theorem Exact.insert (h : Exact t m S b) (hx : ∀ y ∈ S, (m x).start ≠ (m y).start) :
    ∃ t' m' b', Ends (insertAugmented · t m x) (t', m') ∧ Kept m m' ∧
      Exact t' m' (insert x S) b' := by
  have hc := uvmMapentryAddrcmp_total m
  have hne : ∀ y ∈ S, uvmMapentryAddrcmp m x y ≠ 0 := fun y hy =>
    mt uvmMapentryAddrcmp_eq_zero.mp (hx y hy)
  obtain ⟨t', b', ⟨n, hrun⟩, ht'⟩ := h.tree.insert hc hne
  have hxb : x ∉ b.toList := fun hmem => hx x ((h.tree.mem x).mp hmem) rfl
  let bound := max n (b.toList.length + 1)
  have hbound : b.toList.length < bound := Nat.le_max_right _ _
  have ha : Augments addrAugment (Kept m) Right bound := addrAugment_augments
  obtain ⟨b₁, m₁, hrun₁, h₁, hperm⟩ := h.augmented.insert ha hc h.tree.tree.sorted hxb hbound
    hbound (hrun bound (Nat.le_max_left _ _))
  obtain ⟨m₂, hrun₂, h₂⟩ := ha.augment (T := ∅) h₁.holds h₁.kept (hperm.length_eq.trans_le hbound)
    (hperm.mem_iff.mpr List.mem_cons_self) fun y hy _ hyx => h₁.right y hy hyx
  refine ⟨t', m₂, b', ⟨bound, fun fuel hf => ?_⟩, h₂.kept, .of_augmented ht' h₂.kept fun y hy => ?_⟩
  · simp only [insertAugmented, uvmMapentAddrInsert, hrun₁ fuel fuel hf hf, hrun₂ fuel hf,
      Option.bind_eq_bind, Option.bind_some]
  · refine h₂.right y (hperm.mem_iff.mpr (List.mem_cons.mpr ?_)) nofun
    exact hy.imp_right (h.tree.mem y).mpr

theorem Exact.start_ne {res : RbTree ν × (ν → VmMapEntry)} (h : Exact t m S b)
    (hrun : Ends (insertAugmented · t m x) res) (hy : y ∈ S) : (m x).start ≠ (m y).start := by
  intro heq
  obtain ⟨n, hrun⟩ := hrun
  obtain ⟨z, -, -, k, hequal⟩ := h.tree.insertEqual (uvmMapentryAddrcmp_total m) hy
    (uvmMapentryAddrcmp_eq_zero.mpr heq)
  have hrun := hrun _ (Nat.le_max_left n k)
  have hequal : rbInsertAugment (addrAugment (max n k)) (uvmMapentryAddrcmp m) (max n k) t m x =
      some ((t, m), some z) := rbInsertAugment_equal (hequal _ (Nat.le_max_right n k))
  simp only [insertAugmented, uvmMapentAddrInsert, hequal, Option.bind_eq_bind, Option.bind_some,
    Option.bind_none] at hrun
  cases hrun

theorem Exact.remove (h : Exact t m S b) (hx : x ∈ S) :
    ∃ t' m' b', Ends (uvmMapentAddrRemove · t m x) (t', m') ∧ Exact t' m' (S \ {x}) b' := by
  have hmem := (h.tree.mem x).mpr hx
  obtain ⟨t', b', ⟨n, hrun⟩, ht'⟩ := h.tree.remove hx
  let bound := max n b.toList.length
  have hbound : b.toList.length ≤ bound := Nat.le_max_right _ _
  obtain ⟨t₁, hrem, hres⟩ := Option.bind_eq_some_iff.mp (hrun bound (Nat.le_max_left _ _))
  obtain rfl : t₁ = t' := congrArg Prod.fst (Option.some.inj hres)
  have ha : Augments addrAugment (Kept m) Right bound := addrAugment_augments
  obtain ⟨b₁, m₁, hrun₁, h₁, hl⟩ := h.augmented.remove ha hbound hbound hmem hrem
  refine ⟨t₁, m₁, b', ⟨bound, fun fuel hf => hrun₁ fuel fuel hf hf⟩,
    .of_augmented ht' h₁.kept fun y hy => h₁.right y ?_ nofun⟩
  rw [hl, h.tree.tree.holds.nodup.mem_erase_iff]
  exact ⟨hy.2, (h.tree.mem y).mpr hy.1⟩

theorem Exact.change (h : Exact t m S b) (hx : x ∈ S) (fspace : Nat) :
    ∃ m', Ends (addrAugment · t (setFspace m x fspace) x) m' ∧ Exact t m' S b := by
  let m₁ := setFspace m x fspace
  have hm₁ : ∀ y, (m₁ y).start = (m y).start ∧ (m₁ y).fspaceAugment = (m y).fspaceAugment := by
    intro y
    by_cases hy : y = x <;> simp [m₁, setFspace, hy]
  have hcmp : uvmMapentryAddrcmp m₁ = uvmMapentryAddrcmp m := by
    funext y z
    simp only [uvmMapentryAddrcmp, (hm₁ y).1, (hm₁ z).1]
  have hr : ∀ y ∈ S, y ≠ x → Right t m₁ y := by
    intro y hy hyx
    rw [Right, uvmMapAddrAugmentGet_congr (fun _ => rfl) _ fun _ z _ => (hm₁ z).2, (hm₁ y).2]
    · exact h.right y hy
    · simp [m₁, setFspace, hyx]
  have ha : Augments addrAugment (Kept m₁) Right b.toList.length := addrAugment_augments
  obtain ⟨m', hrun, h'⟩ := ha.augment (T := ∅) h.tree.tree.holds (fun _ => ⟨rfl, rfl⟩) le_rfl
    ((h.tree.mem x).mpr hx) fun y hy _ => hr y ((h.tree.mem y).mp hy)
  exact ⟨m', ⟨_, hrun⟩, .of_augmented (hcmp ▸ h.tree) h'.kept fun y hy =>
    h'.right y ((h.tree.mem y).mpr hy) nofun⟩

theorem AddrTree.exact (h : AddrTree t m S) : ∃ b, Exact t m S b := by
  induction h with
  | @init t m hroot =>
    have hrep : Represents (uvmMapentryAddrcmp m) t ∅ .nil :=
      ⟨⟨⟨hroot, trivial, .nil⟩, ⟨blackTop_nil, 0, .nil⟩, .nil⟩, fun x => by simp [toList]⟩
    exact ⟨.nil, hrep, (by simp)⟩
  | outside _ hroot hs ih =>
    obtain ⟨b, hb⟩ := ih
    exact ⟨b, hb.outside hroot hs⟩
  | @insert t t' m m' S x _ hrun ih =>
    obtain ⟨b, hb⟩ := ih
    obtain ⟨t₁, m₁, b₁, hrun₁, -, hb₁⟩ := hb.insert fun y => hb.start_ne hrun
    obtain ⟨rfl, rfl⟩ := Prod.mk.inj (hrun.unique hrun₁)
    exact ⟨b₁, hb₁⟩
  | remove _ hx hrun ih =>
    obtain ⟨b, hb⟩ := ih
    obtain ⟨t₁, m₁, b₁, hrun₁, hb₁⟩ := hb.remove hx
    obtain ⟨rfl, rfl⟩ := Prod.mk.inj (hrun.unique hrun₁)
    exact ⟨b₁, hb₁⟩
  | @change t m m' S x fspace _ hx hrun ih =>
    obtain ⟨b, hb⟩ := ih
    obtain ⟨m₁, hrun₁, hb₁⟩ := hb.change hx fspace
    obtain rfl := hrun.unique hrun₁
    exact ⟨b, hb₁⟩

/-- The value of each entry is the greatest free space below it, after any steps, and each step
comes to an end. -/
theorem fspaceAugment_exact (h : AddrTree t m S) :
    (∀ x, x ∈ S ↔ ∃ root, t.rbtRoot = some root ∧ Below t root x) ∧
    (∀ x ∈ S, IsGreatest ((fun y => (m y).fspace) '' {y | Below t x y}) (m x).fspaceAugment) ∧
    (∀ x, (∀ y ∈ S, (m x).start ≠ (m y).start) → ∃ r, Ends (insertAugmented · t m x) r) ∧
    (∀ x ∈ S, ∃ r, Ends (uvmMapentAddrRemove · t m x) r) ∧
    ∀ x ∈ S, ∀ fspace, ∃ m', Ends (addrAugment · t (setFspace m x fspace) x) m' := by
  obtain ⟨b, hb⟩ := h.exact
  refine ⟨fun x => hb.mem_iff, fun x hx => hb.greatest hx, fun x hx => ?_, fun x hx => ?_,
    fun x hx fspace => ?_⟩
  · obtain ⟨t', m', -, hrun, -⟩ := hb.insert hx
    exact ⟨_, hrun⟩
  · obtain ⟨t', m', -, hrun, -⟩ := hb.remove hx
    exact ⟨_, hrun⟩
  · obtain ⟨m', hrun, -⟩ := hb.change hx fspace
    exact ⟨_, hrun⟩

theorem fspaceAugment_exact_pair : ∃ (t : RbTree Nat) (m : Nat → VmMapEntry),
    AddrTree t m {1, 2} ∧ (m 1).fspace = 5 ∧ (m 2).fspace = 9 ∧ ∀ x ∈ ({1, 2} : Set Nat),
      IsGreatest ((fun y => (m y).fspace) '' {y | Below t x y}) (m x).fspaceAugment := by
  let m₀ : Nat → VmMapEntry := fun x => ⟨x, if x = 1 then 5 else 9, 7⟩
  let t₀ : RbTree Nat := ⟨fun _ => none, fun _ _ => none, fun _ => .RB_BLACK, none⟩
  have h₀ : AddrTree t₀ m₀ ∅ := .init rfl
  obtain ⟨b₀, hb₀⟩ := h₀.exact
  obtain ⟨t₁, m₁, b₁, hrun₁, hk₁, hb₁⟩ := hb₀.insert (x := 2) nofun
  have hne : ∀ y ∈ insert 2 (∅ : Set Nat), (m₁ 1).start ≠ (m₁ y).start := by
    rintro y (rfl | hy)
    · rw [(hk₁ 1).1, (hk₁ 2).1]
      decide
    · exact hy.elim
  obtain ⟨t₂, m₂, b₂, hrun₂, hk₂, -⟩ := hb₁.insert hne
  have h₂ := (h₀.insert hrun₁).insert hrun₂
  rw [insert_empty_eq] at h₂
  exact ⟨t₂, m₂, h₂, (hk₂ 1).2.trans (hk₁ 1).2, (hk₂ 2).2.trans (hk₁ 2).2,
    (fspaceAugment_exact h₂).2.1⟩

end Mbsd.Uvm.UvmMap
