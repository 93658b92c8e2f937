import Mathlib.Algebra.Group.Nat.Defs
import Mathlib.Data.List.Nodup
import Mathlib.Data.Nat.Log

/-! Binary trees with elements in the nodes, the path from the root to a place in a tree, and the
order in which a tree lists its elements.  What holds on the left and on the right alike is stated
once, for a side. -/

namespace Mbsd.Lib

open List Nat

inductive Side
  | left | right
  deriving DecidableEq, Repr

def Side.flip : Side → Side
  | .left => .right
  | .right => .left

@[simp] theorem Side.flip_flip (d : Side) : d.flip.flip = d := by cases d <;> rfl

@[grind .] theorem Side.flip_ne (d : Side) : d.flip ≠ d := by cases d <;> decide

theorem Side.eq_or_flip (d e : Side) : e = d ∨ e = d.flip := by cases d <;> cases e <;> decide

inductive BinTree (ν : Type) : Type
  | nil : BinTree ν
  | node : BinTree ν → ν → BinTree ν → BinTree ν

namespace BinTree

variable {ν : Type}

def top : BinTree ν → Option ν
  | nil => none
  | node _ x _ => some x

@[simp] theorem top_node (l r : BinTree ν) (x : ν) : (node l x r).top = some x := rfl

theorem top_eq_none {t : BinTree ν} : t.top = none ↔ t = nil := by cases t <;> simp [top]

def toList : BinTree ν → List ν
  | nil => []
  | node l x r => l.toList ++ x :: r.toList

/-- The node whose child on side `d` is `a`, and whose other child is `b`. -/
def branch : Side → BinTree ν → ν → BinTree ν → BinTree ν
  | .left, a, x, b => node a x b
  | .right, a, x, b => node b x a

theorem branch_flip (d : Side) (a b : BinTree ν) (x : ν) : branch d.flip a x b = branch d b x a := by
  cases d <;> rfl

theorem node_eq_branch (d : Side) (l r : BinTree ν) (x : ν) :
    ∃ a b, node l x r = branch d a x b := by
  cases d with
  | left => exact ⟨l, r, rfl⟩
  | right => exact ⟨r, l, rfl⟩

def height : BinTree ν → Nat
  | nil => 0
  | node l _ r => max l.height r.height + 1

theorem height_branch (d : Side) (a b : BinTree ν) (x : ν) :
    (branch d a x b).height = max a.height b.height + 1 := by
  cases d
  · rfl
  · rw [branch, height, Nat.max_comm]

theorem height_le_length (t : BinTree ν) : t.height ≤ t.toList.length := by
  induction t with
  | nil => exact Nat.le_refl _
  | node l x r ihl ihr =>
    rw [height, toList, length_append, length_cons]
    omega

@[simp, grind =] theorem top_branch (d : Side) (a b : BinTree ν) (x : ν) :
    (branch d a x b).top = some x := by
  cases d <;> rfl

theorem toList_rotate (d : Side) (a b c : BinTree ν) (x y : ν) :
    (branch d (branch d a x b) y c).toList = (branch d a x (branch d b y c)).toList := by
  cases d <;> simp [branch, toList]

theorem toList_branch_congr {d : Side} {a a' b : BinTree ν} {x : ν} (h : a.toList = a'.toList) :
    (branch d a x b).toList = (branch d a' x b).toList := by
  cases d <;> simp [branch, toList, h]

theorem perm_branch (d : Side) (a b : BinTree ν) (x : ν) :
    (branch d a x b).toList.Perm (x :: (a.toList ++ b.toList)) := by
  cases d with
  | left => exact perm_middle
  | right => exact perm_middle.trans ((perm_append_comm).cons x)

theorem mem_branch {d : Side} {a b : BinTree ν} {x y : ν} :
    y ∈ (branch d a x b).toList ↔ y = x ∨ y ∈ a.toList ∨ y ∈ b.toList := by
  rw [(perm_branch d a b x).mem_iff, mem_cons, mem_append]

theorem nodup_branch {d : Side} {a b : BinTree ν} {x : ν} :
    (branch d a x b).toList.Nodup ↔ (x ∉ a.toList ∧ x ∉ b.toList) ∧ a.toList.Nodup ∧
      b.toList.Nodup ∧ ∀ y ∈ a.toList, ∀ z ∈ b.toList, y ≠ z := by
  rw [(perm_branch d a b x).nodup_iff, nodup_cons, nodup_append, mem_append, not_or]

/-- The elements from one end to the other, with what is on side `d` last. -/
def along (d : Side) (t : BinTree ν) : List ν :=
  match d with
  | .left => t.toList.reverse
  | .right => t.toList

@[simp] theorem along_nil (d : Side) : (nil : BinTree ν).along d = [] := by cases d <;> rfl

theorem along_branch (d : Side) (a b : BinTree ν) (x : ν) :
    (branch d a x b).along d = b.along d ++ x :: a.along d := by
  cases d <;> simp [along, branch, toList]

@[simp] theorem mem_along {d : Side} {t : BinTree ν} {x : ν} : x ∈ t.along d ↔ x ∈ t.toList := by
  cases d <;> simp [along]

@[simp] theorem nodup_along {d : Side} {t : BinTree ν} : (t.along d).Nodup ↔ t.toList.Nodup := by
  cases d <;> simp [along]

theorem exists_of_top {t : BinTree ν} {x : ν} (h : t.top = some x) : ∃ l r, t = node l x r := by
  cases t with
  | nil => exact nomatch h
  | node l y r =>
    obtain rfl : y = x := Option.some.inj h
    exact ⟨l, r, rfl⟩

theorem mem_top {t : BinTree ν} {x : ν} (h : t.top = some x) : x ∈ t.toList := by
  obtain ⟨l, r, rfl⟩ := exists_of_top h
  simp [toList]

theorem exists_along {t : BinTree ν} {x : ν} (d : Side) (h : t.top = some x) :
    ∃ y k, t.along d = y :: k :=
  exists_cons_of_ne_nil (ne_nil_of_mem (mem_along.mpr (mem_top h)))

end BinTree

open BinTree

/-- The way from the root down to a place: each step says which side was taken at which node, and
what hangs on the other side. -/
inductive Path (ν : Type) : Type
  | root : Path ν
  | step : Side → Path ν → ν → BinTree ν → Path ν

namespace Path

variable {ν : Type}

def parent : Path ν → Option ν
  | root => none
  | step _ _ x _ => some x

def fill : Path ν → BinTree ν → BinTree ν
  | root, t => t
  | step d p x b, t => p.fill (branch d t x b)

/-- What lies past the place on side `d`, the nearest first. -/
def beyond (d : Side) : Path ν → List ν
  | root => []
  | step e p x b => if e = d then p.beyond d else x :: (b.along d ++ p.beyond d)

def length : Path ν → Nat
  | root => 0
  | step _ p _ _ => p.length + 1

theorem along_fill (d : Side) (p : Path ν) (t : BinTree ν) :
    (p.fill t).along d = (p.beyond d.flip).reverse ++ (t.along d ++ p.beyond d) := by
  induction p generalizing t with
  | root => simp [fill, beyond]
  | step e p x b ih =>
    rw [fill, ih]
    cases d <;> cases e <;> simp [beyond, branch, along, toList, Side.flip]

theorem toList_fill (p : Path ν) (t : BinTree ν) :
    (p.fill t).toList = (p.beyond .left).reverse ++ (t.toList ++ p.beyond .right) :=
  along_fill .right p t

theorem toList_fill_congr {p : Path ν} {t t' : BinTree ν} (h : t.toList = t'.toList) :
    (p.fill t).toList = (p.fill t').toList := by
  rw [toList_fill, toList_fill, h]

theorem mem_fill {p : Path ν} {t : BinTree ν} {x : ν} (h : x ∈ t.toList) :
    x ∈ (p.fill t).toList := by
  simp [toList_fill, h]

theorem toList_erase [DecidableEq ν] {p : Path ν} {l r : BinTree ν} {x : ν}
    (h : (p.fill (node l x r)).toList.Nodup) : (p.fill (node l x r)).toList.erase x =
      (p.beyond .left).reverse ++ (l.toList ++ (r.toList ++ p.beyond .right)) := by
  have hlist : (p.fill (node l x r)).toList =
      ((p.beyond .left).reverse ++ l.toList) ++ x :: (r.toList ++ p.beyond .right) := by
    simp [toList_fill, toList]
  rw [hlist] at h ⊢
  have hx := (nodup_cons.mp (nodup_middle.mp h)).1
  rw [erase_append_right _ fun hmem => hx (mem_append_left _ hmem), erase_cons_head, append_assoc]

theorem length_add_height_le (p : Path ν) (t : BinTree ν) :
    p.length + t.height ≤ (p.fill t).height := by
  induction p generalizing t with
  | root => rw [length, fill, Nat.zero_add]
  | step d p x b ih =>
    have h := ih (branch d t x b)
    rw [height_branch] at h
    rw [length, fill]
    omega

def append (p : Path ν) : Path ν → Path ν
  | root => p
  | step d q x b => step d (p.append q) x b

theorem fill_append (p q : Path ν) (t : BinTree ν) : (p.append q).fill t = p.fill (q.fill t) := by
  induction q generalizing t with
  | root => rfl
  | step d q x b ih => exact ih _

theorem length_append (p q : Path ν) : (p.append q).length = p.length + q.length := by
  induction q with
  | root => rfl
  | step d q x b ih => simp [append, length, ih, Nat.add_assoc]

theorem beyond_append (d : Side) (p q : Path ν) :
    (p.append q).beyond d = q.beyond d ++ p.beyond d := by
  induction q with
  | root => rfl
  | step e q x b ih =>
    simp only [append, beyond, ih]
    split <;> simp

theorem exists_of_mem {x : ν} (t : BinTree ν) (p : Path ν) (h : x ∈ t.toList) :
    ∃ q l r, p.fill t = Path.fill q (node l x r) := by
  induction t generalizing p with
  | nil => exact nomatch h
  | node l y r ihl ihr =>
    rw [toList, mem_append, mem_cons] at h
    rcases h with h | rfl | h
    · exact ihl (.step .left p y r) h
    · exact ⟨p, l, r, rfl⟩
    · exact ihr (.step .right p y l) h

end Path

/-! Balance of red and black trees: no red node has a red child, and each way down to a missing
child has the same number of black nodes.  The colours are those of a predicate on the nodes. -/

open BinTree Option

variable {ν : Type}

namespace BinTree

/-- A red node may be put above the tree. -/
def BlackTop (red : ν → Prop) (t : BinTree ν) : Prop := ∀ x, t.top = some x → ¬red x

/-- Balanced, with `n` black nodes on each way down. -/
inductive Balanced (red : ν → Prop) : BinTree ν → Nat → Prop
  | nil : Balanced red nil 0
  | red {l r : BinTree ν} {x : ν} {n : Nat} : red x → BlackTop red l → BlackTop red r →
      Balanced red l n → Balanced red r n → Balanced red (node l x r) n
  | black {l r : BinTree ν} {x : ν} {n : Nat} : ¬red x → Balanced red l n → Balanced red r n →
      Balanced red (node l x r) (n + 1)

def RedBlack (red : ν → Prop) (t : BinTree ν) : Prop := BlackTop red t ∧ ∃ n, Balanced red t n

variable {red red' : ν → Prop} {t a b : BinTree ν} {x : ν} {n : Nat}

@[simp] theorem blackTop_nil : BlackTop red nil := fun _ h => nomatch h

@[simp] theorem blackTop_branch (d : Side) : BlackTop red (branch d a x b) ↔ ¬red x := by
  simp [BlackTop]

theorem BlackTop.congr (h : BlackTop red t) (hc : ∀ y ∈ t.toList, red' y ↔ red y) :
    BlackTop red' t := fun x hx => mt (hc x (mem_top hx)).mp (h x hx)

theorem Balanced.congr (h : Balanced red t n) (hc : ∀ y ∈ t.toList, red' y ↔ red y) :
    Balanced red' t n := by
  induction h with
  | nil => exact .nil
  | @red l r x n hx hl hr _ _ ihl ihr =>
    simp only [toList, mem_append, mem_cons] at hc
    exact .red ((hc x (.inr (.inl rfl))).mpr hx) (hl.congr fun y hy => hc y (.inl hy))
      (hr.congr fun y hy => hc y (.inr (.inr hy))) (ihl fun y hy => hc y (.inl hy))
      (ihr fun y hy => hc y (.inr (.inr hy)))
  | @black l r x n hx _ _ ihl ihr =>
    simp only [toList, mem_append, mem_cons] at hc
    exact .black (mt (hc x (.inr (.inl rfl))).mp hx) (ihl fun y hy => hc y (.inl hy))
      (ihr fun y hy => hc y (.inr (.inr hy)))

theorem Balanced.height_le (h : Balanced red t n) :
    t.height ≤ 2 * n + 1 ∧ (BlackTop red t → t.height ≤ 2 * n) := by
  induction h with
  | nil => exact ⟨Nat.zero_le _, fun _ => Nat.le_refl _⟩
  | red hx hl hr _ _ ihl ihr =>
    exact ⟨succ_le_succ (Nat.max_le.mpr ⟨ihl.2 hl, ihr.2 hr⟩),
      fun htop => absurd hx (htop _ (top_node ..))⟩
  | black _ _ _ ihl ihr =>
    have hle := succ_le_succ (Nat.max_le.mpr ⟨ihl.1, ihr.1⟩)
    exact ⟨le_succ_of_le hle, fun _ => hle⟩

theorem Balanced.le_length (h : Balanced red t n) : 2 ^ n ≤ t.toList.length + 1 := by
  induction h with
  | nil => exact Nat.le_refl _
  | red _ _ _ _ _ ihl _ =>
    rw [toList, length_append]
    omega
  | black _ _ _ ihl ihr =>
    rw [toList, length_append, length_cons, Nat.pow_succ]
    omega

theorem RedBlack.height_le (h : RedBlack red t) : t.height ≤ 2 * log 2 (t.toList.length + 1) := by
  obtain ⟨htop, n, hn⟩ := h
  have hlog := le_log_of_pow_le Nat.one_lt_two hn.le_length
  have hheight := hn.height_le.2 htop
  omega

theorem RedBlack.congr (h : RedBlack red t) (hc : ∀ y ∈ t.toList, red' y ↔ red y) :
    RedBlack red' t :=
  ⟨h.1.congr hc, h.2.choose, h.2.choose_spec.congr hc⟩

theorem Balanced.red_branch (d : Side) (hx : red x) (ha : BlackTop red a) (hb : BlackTop red b)
    (hna : Balanced red a n) (hnb : Balanced red b n) : Balanced red (branch d a x b) n := by
  cases d with
  | left => exact .red hx ha hb hna hnb
  | right => exact .red hx hb ha hnb hna

theorem Balanced.black_branch (d : Side) (hx : ¬red x) (hna : Balanced red a n)
    (hnb : Balanced red b n) : Balanced red (branch d a x b) (n + 1) := by
  cases d with
  | left => exact .black hx hna hnb
  | right => exact .black hx hnb hna

theorem Balanced.of_red_branch {d : Side} (h : Balanced red (branch d a x b) n) (hx : red x) :
    BlackTop red a ∧ BlackTop red b ∧ Balanced red a n ∧ Balanced red b n := by
  cases d <;> cases h with
  | red _ hl hr hnl hnr => first | exact ⟨hl, hr, hnl, hnr⟩ | exact ⟨hr, hl, hnr, hnl⟩
  | black hx' => exact absurd hx hx'

theorem Balanced.of_black_branch {d : Side} (h : Balanced red (branch d a x b) n) (hx : ¬red x) :
    ∃ m, n = m + 1 ∧ Balanced red a m ∧ Balanced red b m := by
  cases d <;> cases h with
  | red hx' => exact absurd hx' hx
  | black _ hnl hnr => first | exact ⟨_, rfl, hnl, hnr⟩ | exact ⟨_, rfl, hnr, hnl⟩

theorem Balanced.exists_branch (d : Side) (h : Balanced red t (n + 1)) :
    ∃ a x b, t = branch d a x b := by
  cases t with
  | nil => exact nomatch h
  | node l x r =>
    obtain ⟨a, b, hab⟩ := node_eq_branch d l r x
    exact ⟨a, x, b, hab⟩

/-- One black node less than the place asks for, unless a red top makes up for it. -/
inductive Short (red : ν → Prop) : BinTree ν → Nat → Prop
  | black {t : BinTree ν} {n : Nat} : Balanced red t n → BlackTop red t → Short red t n
  | red {l r : BinTree ν} {x : ν} {n : Nat} : red x → Balanced red l n → Balanced red r n →
      Short red (node l x r) n

theorem Balanced.short (h : Balanced red t n) : Short red t n := by
  cases h with
  | nil => exact .black .nil blackTop_nil
  | red hx _ _ hl hr => exact .red hx hl hr
  | black hx hl hr => exact .black (.black hx hl hr) ((blackTop_branch .left).mpr hx)

theorem Short.red_branch (d : Side) (hx : red x) (ha : Balanced red a n) (hb : Balanced red b n) :
    Short red (branch d a x b) n := by
  cases d with
  | left => exact .red hx ha hb
  | right => exact .red hx hb ha

theorem Short.balanced (h : Short red t n) (ht : BlackTop red t) : Balanced red t n := by
  cases h with
  | black hb _ => exact hb
  | red hx _ _ => exact absurd hx (ht _ rfl)

end BinTree

namespace Path

variable {red red' : ν → Prop} {p : Path ν} {t : BinTree ν} {n : Nat}

/-- The node above the place is there, and black. -/
def BlackAbove (red : ν → Prop) (p : Path ν) : Prop := ∃ x, p.parent = some x ∧ ¬red x

/-- The tree is balanced when a balanced tree with `n` black nodes is put in the place, but for a
red node under a red one there. -/
inductive Balanced (red : ν → Prop) : Path ν → Nat → Prop
  | root (n : Nat) : Balanced red root n
  | red {p : Path ν} {b : BinTree ν} {x : ν} {n : Nat} (d : Side) : red x → BlackTop red b →
      b.Balanced red n → p.BlackAbove red → Balanced red p n → Balanced red (step d p x b) n
  | black {p : Path ν} {b : BinTree ν} {x : ν} {n : Nat} (d : Side) : ¬red x →
      b.Balanced red n → Balanced red p (n + 1) → Balanced red (step d p x b) n

theorem Balanced.of_red_step {d : Side} {x : ν} {b : BinTree ν}
    (h : (step d p x b).Balanced red n) (hx : red x) :
    BlackTop red b ∧ b.Balanced red n ∧ p.BlackAbove red ∧ p.Balanced red n := by
  cases h with
  | red _ _ hb hnb hp hpn => exact ⟨hb, hnb, hp, hpn⟩
  | black _ hx' => exact absurd hx hx'

theorem Balanced.of_black_step {d : Side} {x : ν} {b : BinTree ν}
    (h : (step d p x b).Balanced red n) (hx : ¬red x) :
    b.Balanced red n ∧ p.Balanced red (n + 1) := by
  cases h with
  | red _ hx' => exact absurd hx' hx
  | black _ _ hnb hpn => exact ⟨hnb, hpn⟩

theorem Balanced.sibling {d : Side} {x : ν} {b : BinTree ν} (h : (step d p x b).Balanced red n) :
    b.Balanced red n := by
  cases h with
  | red _ _ _ hnb => exact hnb
  | black _ _ hnb => exact hnb

theorem BlackAbove.exists_step (h : p.BlackAbove red) : ∃ d q x b, p = step d q x b ∧ ¬red x := by
  obtain ⟨x, hx, hb⟩ := h
  cases p with
  | root => exact nomatch hx
  | step d q y b =>
    obtain rfl : y = x := some.inj hx
    exact ⟨d, q, y, b, rfl, hb⟩

theorem Balanced.fill_top (h : p.Balanced red n) (hp : p ≠ Path.root) : BlackTop red (p.fill t) := by
  induction h generalizing t with
  | root => exact absurd rfl hp
  | @red p b x n d _ _ _ habove _ ih =>
    refine ih fun hroot => ?_
    obtain ⟨y, hy, -⟩ := habove
    rw [hroot] at hy
    exact nomatch hy
  | @black p b x n d hx _ _ ih =>
    cases p with
    | root => exact (blackTop_branch d).mpr hx
    | step => exact ih nofun

theorem Balanced.fill (h : p.Balanced red n) (ht : t.Balanced red n)
    (habove : BlackTop red t ∨ p.BlackAbove red) : RedBlack red (p.fill t) := by
  constructor
  · cases p with
    | root =>
      rcases habove with htop | ⟨_, hx, _⟩
      · exact htop
      · exact nomatch hx
    | step => exact h.fill_top nofun
  · induction h generalizing t with
    | root => exact ⟨_, ht⟩
    | red d hx hb hnb hp _ ih =>
      have htop : BlackTop red t := by
        rcases habove with htop | ⟨y, hy, hyb⟩
        · exact htop
        · obtain rfl := some.inj hy
          exact absurd hx hyb
      exact ih (.red_branch d hx htop hb ht hnb) (.inr hp)
    | black d hx hnb _ ih =>
      exact ih (.black_branch d hx ht hnb) (.inl ((blackTop_branch d).mpr hx))

theorem Balanced.of_fill (h : RedBlack red (p.fill t)) :
    ∃ n, p.Balanced red n ∧ t.Balanced red n ∧ (BlackTop red t ∨ p.BlackAbove red) := by
  induction p generalizing t with
  | root => exact ⟨_, .root _, h.2.choose_spec, .inl h.1⟩
  | step d p x b ih =>
    obtain ⟨n, hp, hn, habove⟩ := ih h
    by_cases hx : red x
    · obtain ⟨ht, hb, hnt, hnb⟩ := hn.of_red_branch hx
      refine ⟨n, .red d hx hb hnb ?_ hp, hnt, .inl ht⟩
      exact habove.resolve_left (mt (blackTop_branch d).mp (not_not.mpr hx))
    · obtain ⟨m, rfl, hnt, hnb⟩ := hn.of_black_branch hx
      exact ⟨m, .black d hx hnb hp, hnt, .inr ⟨x, rfl, hx⟩⟩

/-- The elements beside the place. -/
def elems : Path ν → List ν
  | root => []
  | step _ p x b => x :: (b.toList ++ p.elems)

theorem mem_elems_of_parent {x : ν} (h : p.parent = some x) : x ∈ p.elems := by
  cases p with
  | root => exact nomatch h
  | step d p y b =>
    obtain rfl : y = x := some.inj h
    simp [elems]

theorem perm_fill (p : Path ν) (t : BinTree ν) : (p.fill t).toList.Perm (t.toList ++ p.elems) := by
  induction p generalizing t with
  | root => simp [Path.fill, elems]
  | step d p x b ih =>
    refine (ih _).trans ?_
    refine ((perm_branch d t b x).append_right _).trans ?_
    simp only [elems, cons_append, append_assoc]
    exact perm_middle.symm

theorem exists_top (d : Side) (p : Path ν) (x : ν) (b t : BinTree ν) :
    ∃ y ∈ (step d p x b).elems, ((step d p x b).fill t).top = some y := by
  induction p generalizing d x b t with
  | root => exact ⟨x, mem_cons_self, top_branch ..⟩
  | step e p z c ih =>
    obtain ⟨y, hy, htop⟩ := ih e z c (branch d t x b)
    exact ⟨y, mem_cons_of_mem _ (mem_append_right _ hy), htop⟩

theorem BlackAbove.congr (h : p.BlackAbove red) (hc : ∀ y ∈ p.elems, red' y ↔ red y) :
    p.BlackAbove red' := by
  obtain ⟨x, hx, hb⟩ := h
  exact ⟨x, hx, mt (hc x (mem_elems_of_parent hx)).mp hb⟩

theorem Balanced.congr (h : p.Balanced red n) (hc : ∀ y ∈ p.elems, red' y ↔ red y) :
    p.Balanced red' n := by
  induction h with
  | root => exact .root _
  | @red p b x n d hx hb hnb hp _ ih =>
    simp only [elems, mem_cons, mem_append] at hc
    have hcb : ∀ y ∈ b.toList, red' y ↔ red y := fun y hy => hc y (.inr (.inl hy))
    have hcp : ∀ y ∈ p.elems, red' y ↔ red y := fun y hy => hc y (.inr (.inr hy))
    exact .red d ((hc x (.inl rfl)).mpr hx) (hb.congr hcb) (hnb.congr hcb) (hp.congr hcp) (ih hcp)
  | @black p b x n d hx hnb _ ih =>
    simp only [elems, mem_cons, mem_append] at hc
    exact .black d (mt (hc x (.inl rfl)).mp hx) (hnb.congr fun y hy => hc y (.inr (.inl hy)))
      (ih fun y hy => hc y (.inr (.inr hy)))

theorem elems_append (p q : Path ν) : (p.append q).elems = q.elems ++ p.elems := by
  induction q with
  | root => rfl
  | step d q x b ih => simp [append, elems, ih]

/-- The elements above the place, the nearest first. -/
def above : Path ν → List ν
  | root => []
  | step _ p x _ => x :: p.above

theorem above_append (p q : Path ν) : (p.append q).above = q.above ++ p.above := by
  induction q with
  | root => rfl
  | step d q x b ih => simp [append, above, ih]

theorem BlackAbove.rename {q : Path ν} {d : Side} {x y : ν} {b : BinTree ν}
    (h : ((step d p x b).append q).BlackAbove red) (hx : red' y ↔ red x)
    (hc : ∀ z ∈ q.elems, red' z ↔ red z) : ((step d p y b).append q).BlackAbove red' := by
  obtain ⟨z, hz, hb⟩ := h
  cases q with
  | root =>
    obtain rfl : x = z := some.inj hz
    exact ⟨y, rfl, mt hx.mp hb⟩
  | step e q u c => exact ⟨z, hz, mt (hc z (mem_elems_of_parent hz)).mp hb⟩

theorem Balanced.rename {q : Path ν} {d : Side} {x y : ν} {b : BinTree ν}
    (h : ((step d p x b).append q).Balanced red n) (hx : red' y ↔ red x)
    (hc : ∀ z ∈ q.elems ++ (b.toList ++ p.elems), red' z ↔ red z) :
    ((step d p y b).append q).Balanced red' n := by
  induction q generalizing n with
  | root =>
    simp only [elems, nil_append, mem_append] at hc
    have hcb : ∀ z ∈ b.toList, red' z ↔ red z := fun z hz => hc z (.inl hz)
    have hcp : ∀ z ∈ p.elems, red' z ↔ red z := fun z hz => hc z (.inr hz)
    cases h with
    | red _ hrx hb hnb hp hpn =>
      exact .red d (hx.mpr hrx) (hb.congr hcb) (hnb.congr hcb) (hp.congr hcp) (hpn.congr hcp)
    | black _ hrx hnb hpn => exact .black d (mt hx.mp hrx) (hnb.congr hcb) (hpn.congr hcp)
  | step e q u c ih =>
    simp only [elems, mem_append, mem_cons] at hc ih
    have hcu := hc u (.inl (.inl rfl))
    have hcc : ∀ z ∈ c.toList, red' z ↔ red z := fun z hz => hc z (.inl (.inr (.inl hz)))
    have hcq : ∀ z ∈ q.elems, red' z ↔ red z := fun z hz => hc z (.inl (.inr (.inr hz)))
    have hrest : ∀ z, z ∈ q.elems ∨ z ∈ b.toList ∨ z ∈ p.elems → (red' z ↔ red z) :=
      fun z hz => hz.elim (hcq z) fun hz => hc z (.inr hz)
    cases h with
    | red _ hru hb hnb hp hpn =>
      exact .red e (hcu.mpr hru) (hb.congr hcc) (hnb.congr hcc) (hp.rename hx hcq) (ih hpn hrest)
    | black _ hru hnb hpn => exact .black e (mt hcu.mp hru) (hnb.congr hcc) (ih hpn hrest)

theorem Balanced.replace_sibling {d : Side} {x : ν} {b b' : BinTree ν}
    (h : (step d p x b).Balanced red n) (hc : ∀ y ∈ x :: p.elems, red' y ↔ red y)
    (hb : b'.Balanced red' n) (ht : BlackTop red' b') : (step d p x b').Balanced red' n := by
  have hcp : ∀ y ∈ p.elems, red' y ↔ red y := fun y hy => hc y (mem_cons_of_mem _ hy)
  have hcx := hc x mem_cons_self
  cases h with
  | red _ hx _ _ hp hpn => exact .red d (hcx.mpr hx) ht hb (hp.congr hcp) (hpn.congr hcp)
  | black _ hx _ hpn => exact .black d (mt hcx.mp hx) hb (hpn.congr hcp)

end Path

end Mbsd.Lib
