import Mathlib.Algebra.Group.Nat.Defs
import Mathlib.Data.List.Induction

/-! The numbering of the nodes of a complete binary tree from 1, with the two children of `k` at
`2 * k` and `2 * k + 1`.  A node is named by the path that leads to it. -/

namespace Mbsd.Lib.HeapIndex

open List Bool

def idx (l : List Bool) : Nat := l.foldl (fun k b => 2 * k + b.toNat) 1

@[simp] theorem idx_nil : idx [] = 1 := rfl

@[simp] theorem idx_snoc (l : List Bool) (b : Bool) : idx (l ++ [b]) = 2 * idx l + b.toNat := by
  rw [idx, foldl_append]
  rfl

theorem idx_bounds (l : List Bool) : 2 ^ l.length ≤ idx l ∧ idx l < 2 ^ (l.length + 1) := by
  induction l using reverseRecOn with
  | nil => simp
  | append_singleton l b ih =>
    have hb : b.toNat ≤ 1 := toNat_le b
    rw [idx_snoc, length_append, length_singleton]
    omega

theorem idx_pos (l : List Bool) : 0 < idx l :=
  Nat.lt_of_lt_of_le (Nat.two_pow_pos _) (idx_bounds l).1

theorem idx_lt_iff (l : List Bool) (n : Nat) : idx l < 2 ^ n ↔ l.length < n := by
  constructor
  · intro h
    exact (Nat.pow_lt_pow_iff_right (by omega)).mp (Nat.lt_of_le_of_lt (idx_bounds l).1 h)
  · intro h
    exact Nat.lt_of_lt_of_le (idx_bounds l).2 (Nat.pow_le_pow_right (by omega) h)

theorem two_le_idx {l : List Bool} (h : l ≠ []) : 2 ≤ idx l := by
  have hlen : 1 ≤ l.length := length_pos_iff.mpr h
  calc 2 = 2 ^ 1 := rfl
    _ ≤ 2 ^ l.length := Nat.pow_le_pow_right (by omega) hlen
    _ ≤ idx l := (idx_bounds l).1

theorem idx_injective : Function.Injective idx := by
  intro l
  induction l using reverseRecOn with
  | nil =>
    intro l' h
    by_contra hne
    have := two_le_idx (Ne.symm hne)
    rw [idx_nil] at h
    omega
  | append_singleton l b ih =>
    intro l' h
    cases l' using reverseRecOn with
    | nil =>
      have := two_le_idx (append_ne_nil_of_right_ne_nil l (cons_ne_nil b []))
      rw [h, idx_nil] at this
      omega
    | append_singleton l' b' =>
      rw [idx_snoc, idx_snoc] at h
      have hb := toNat_le b
      have hb' := toNat_le b'
      have hlast : b = b' := by
        cases b <;> cases b' <;> simp at h ⊢ <;> omega
      rw [ih (show idx l = idx l' by omega), hlast]

theorem idx_inj {l l' : List Bool} : idx l = idx l' ↔ l = l' := idx_injective.eq_iff

theorem exists_idx {k : Nat} (hk : 0 < k) : ∃ l, idx l = k := by
  induction k using Nat.strongRecOn with
  | ind k ih =>
    by_cases hone : k = 1
    · exact ⟨[], hone.symm⟩
    · obtain ⟨l, hl⟩ := ih (k / 2) (by omega) (by omega)
      rcases Nat.mod_two_eq_zero_or_one k with heven | hodd
      · refine ⟨l ++ [false], ?_⟩
        rw [idx_snoc, hl, toNat_false]
        omega
      · refine ⟨l ++ [true], ?_⟩
        rw [idx_snoc, hl, toNat_true]
        omega

theorem idx_snoc_shiftRight (l : List Bool) (b : Bool) : idx (l ++ [b]) >>> 1 = idx l := by
  have hb := toNat_le b
  rw [idx_snoc, Nat.shiftRight_eq_div_pow, Nat.pow_one]
  omega

end Mbsd.Lib.HeapIndex

/-! Flooding a region of a complete binary tree: the nodes of one colour that are reached from
the root of a subtree through nodes of that colour get another one. -/

namespace Mbsd.Lib.TreeFill

open List Function

variable {β : Type} {old new : β} {f : List Bool → β} {l l' : List Bool} {d : Nat}

theorem prefix_cases (h : l <+: l') : l' = l ∨ ∃ b, l ++ [b] <+: l' := by
  obtain ⟨t, rfl⟩ := h
  cases t with
  | nil => exact .inl (append_nil l)
  | cons b t => exact .inr ⟨b, t, by rw [append_assoc, singleton_append]⟩

theorem prefix_snoc_inj {b b' : Bool} (h : l ++ [b] <+: l') (h' : l ++ [b'] <+: l') : b = b' := by
  have heq := (prefix_of_prefix_length_le h h' (by simp)).eq_of_length (by simp)
  rw [append_cancel_left_eq, cons.injEq] at heq
  exact heq.1

theorem not_snoc_prefix (b : Bool) : ¬ l ++ [b] <+: l := by
  intro h
  have := h.length_le
  rw [length_append, length_singleton] at this
  omega

/-- Every node from `l` down to `l'` has the colour. -/
def Reached (old : β) (f : List Bool → β) (l l' : List Bool) : Prop :=
  ∀ m, l <+: m → m <+: l' → f m = old

theorem reached_self (hl : f l = old) : Reached old f l l := by
  intro m hm hm'
  rwa [hm'.eq_of_length (Nat.le_antisymm hm'.length_le hm.length_le)]

theorem reached_snoc {b : Bool} (hl : f l = old) (h : l ++ [b] <+: l') :
    Reached old f l l' ↔ Reached old f (l ++ [b]) l' := by
  constructor
  · intro hr m hm hm'
    exact hr m ((prefix_append l [b]).trans hm) hm'
  · intro hr m hm hm'
    rcases prefix_cases hm with rfl | ⟨b', hm⟩
    · exact hl
    · rw [prefix_snoc_inj h (hm.trans hm')] at hr
      exact hr m hm hm'

theorem reached_congr {g : List Bool → β} (h : ∀ m, l <+: m → f m = g m) :
    Reached old f l l' ↔ Reached old g l l' :=
  forall_congr' fun m => imp_congr_right fun hm => by rw [h m hm]

variable [DecidableEq β]

/-- The subtree below `l` has `d` levels more. -/
def fill (old new : β) : Nat → List Bool → (List Bool → β) → List Bool → β
  | 0, l, f => if f l = old then Function.update f l new else f
  | d + 1, l, f => if f l = old then
      Function.update (fill old new d (l ++ [true]) (fill old new d (l ++ [false]) f)) l new
    else f

theorem fill_zero (old new : β) (l : List Bool) (f : List Bool → β) :
    fill old new 0 l f = if f l = old then update f l new else f := rfl

theorem fill_succ (old new : β) (d : Nat) (l : List Bool) (f : List Bool → β) :
    fill old new (d + 1) l f = if f l = old then
        update (fill old new d (l ++ [true]) (fill old new d (l ++ [false]) f)) l new else f := rfl

theorem fill_of_not_below (h : ¬ l <+: l') : fill old new d l f l' = f l' := by
  induction d generalizing l f with
  | zero =>
    rw [fill_zero]
    split
    · apply update_of_ne
      rintro rfl
      exact h prefix_rfl
    · rfl
  | succ d ih =>
    have hb (b : Bool) : ¬ l ++ [b] <+: l' := fun hb => h ((prefix_append l [b]).trans hb)
    rw [fill_succ]
    split
    · rw [update_of_ne, ih (hb true), ih (hb false)]
      rintro rfl
      exact h prefix_rfl
    · rfl

theorem fill_snoc (new : β) (d : Nat) {b : Bool} (hl : f l = old) (h : l ++ [b] <+: l') :
    ∃ g, fill old new (d + 1) l f l' = fill old new d (l ++ [b]) g l' ∧
      ∀ m, l ++ [b] <+: m → g m = f m := by
  have hne : l' ≠ l := by
    rintro rfl
    exact not_snoc_prefix b h
  rw [fill_succ, if_pos hl, update_of_ne hne]
  cases b with
  | false =>
    refine ⟨f, ?_, fun m _ => rfl⟩
    exact fill_of_not_below fun h' => by simpa using prefix_snoc_inj h h'
  | true =>
    refine ⟨_, rfl, fun m hm => ?_⟩
    exact fill_of_not_below fun h' => by simpa using prefix_snoc_inj hm h'

theorem fill_of_reached (hpre : l <+: l') (hlen : l'.length ≤ l.length + d)
    (hr : Reached old f l l') : fill old new d l f l' = new := by
  have hl : f l = old := hr l prefix_rfl hpre
  induction d generalizing l f with
  | zero =>
    rw [fill_zero, if_pos hl, hpre.eq_of_length (Nat.le_antisymm hpre.length_le hlen), update_self]
  | succ d ih =>
    rcases prefix_cases hpre with rfl | ⟨b, hb⟩
    · rw [fill_succ, if_pos hl, update_self]
    · obtain ⟨g, heq, hg⟩ := fill_snoc new d hl hb
      have hr' : Reached old g (l ++ [b]) l' :=
        (reached_congr hg).mpr ((reached_snoc hl hb).mp hr)
      rw [heq]
      apply ih hb _ hr' (hr' _ prefix_rfl hb)
      rw [length_append, length_singleton]
      omega

theorem fill_of_not_reached (hr : ¬ Reached old f l l') : fill old new d l f l' = f l' := by
  by_cases hpre : l <+: l'
  case neg => exact fill_of_not_below hpre
  induction d generalizing l f with
  | zero =>
    rw [fill_zero]
    split
    next hl =>
      apply update_of_ne
      rintro rfl
      exact hr (reached_self hl)
    · rfl
  | succ d ih =>
    by_cases hl : f l = old
    case neg => rw [fill_succ, if_neg hl]
    rcases prefix_cases hpre with rfl | ⟨b, hb⟩
    · exact absurd (reached_self hl) hr
    · obtain ⟨g, heq, hg⟩ := fill_snoc new d hl hb
      rw [heq, ih _ hb, hg l' hb]
      rwa [reached_congr hg, ← reached_snoc hl hb]

end Mbsd.Lib.TreeFill
