import Mathlib.Data.List.Basic
import Mathlib.Data.Nat.Init

/-! Longest prefixes: a partial map on lists, read at the prefixes of a list. -/

namespace Mbsd.Lib.LongestPrefix

open List Option Function Nat

variable {α β : Type}

/-- The value at the longest prefix of `ρ` in the map whose length is at least `lo` and below
the bound. -/
def longest (R : List α → Option β) (ρ : List α) (lo : Nat) : Nat → Option β
  | 0 => none
  | hi + 1 => if lo ≤ hi then (R (ρ.take hi)).or (longest R ρ lo hi) else none

variable {R R' : List α → Option β} {ρ ρ' κ : List α} {lo mid hi : Nat}

theorem longest_zero : longest R ρ lo 0 = none := rfl

theorem longest_succ_eq : longest R ρ lo (hi + 1) =
    if lo ≤ hi then (R (ρ.take hi)).or (longest R ρ lo hi) else none := rfl

theorem longest_succ (h : lo ≤ hi) :
    longest R ρ lo (hi + 1) = (R (ρ.take hi)).or (longest R ρ lo hi) := if_pos h

@[simp] theorem longest_self : longest R ρ lo lo = none := by
  cases lo with
  | zero => rfl
  | succ lo => exact if_neg (not_succ_le_self lo)

theorem longest_append (hlo : lo ≤ mid) (hhi : mid ≤ hi) :
    longest R ρ lo hi = (longest R ρ mid hi).or (longest R ρ lo mid) := by
  induction hi, hhi using le_induction with
  | base => rw [longest_self, none_or]
  | succ hi hle ih =>
    rw [longest_succ (Nat.le_trans hlo hle), longest_succ hle, ih, Option.or_assoc]

theorem longest_congr (h : ∀ m, lo ≤ m → m < hi → R (ρ.take m) = R' (ρ'.take m)) :
    longest R ρ lo hi = longest R' ρ' lo hi := by
  induction hi with
  | zero => rfl
  | succ hi ih =>
    rw [longest_succ_eq, longest_succ_eq]
    split
    next hle =>
      rw [h hi hle (lt_succ_self hi), ih fun m hm hlt => h m hm (lt_succ_of_lt hlt)]
    · rfl

theorem longest_eq_none :
    longest R ρ lo hi = none ↔ ∀ m, lo ≤ m → m < hi → R (ρ.take m) = none := by
  induction hi with
  | zero => simp [longest_zero]
  | succ hi ih =>
    rw [longest_succ_eq]
    split
    next hle =>
      rw [or_eq_none_iff, ih]
      constructor
      · rintro ⟨htop, hrest⟩ m hm hlt
        rcases Nat.lt_succ_iff_lt_or_eq.mp hlt with hlt | rfl
        · exact hrest m hm hlt
        · exact htop
      · intro h
        exact ⟨h hi hle (lt_succ_self hi), fun m hm hlt => h m hm (lt_succ_of_lt hlt)⟩
    next hle =>
      simp only [true_iff]
      intro m hm hlt
      omega

theorem longest_eq_some {b : β} :
    longest R ρ lo hi = some b ↔ ∃ m, lo ≤ m ∧ m < hi ∧ R (ρ.take m) = some b ∧
      ∀ m', m < m' → m' < hi → R (ρ.take m') = none := by
  induction hi with
  | zero => simp [longest_zero]
  | succ hi ih =>
    rw [longest_succ_eq]
    split
    next hle =>
      rw [or_eq_some_iff, ih]
      constructor
      · rintro (htop | ⟨htop, m, hm, hlt, hval, hmax⟩)
        · exact ⟨hi, hle, lt_succ_self hi, htop, fun m' h h' => by omega⟩
        · refine ⟨m, hm, lt_succ_of_lt hlt, hval, fun m' h h' => ?_⟩
          rcases Nat.lt_succ_iff_lt_or_eq.mp h' with h' | rfl
          · exact hmax m' h h'
          · exact htop
      · rintro ⟨m, hm, hlt, hval, hmax⟩
        rcases Nat.lt_succ_iff_lt_or_eq.mp hlt with hlt | rfl
        · exact .inr ⟨hmax hi hlt (lt_succ_self hi), m, hm, hlt, hval,
            fun m' h h' => hmax m' h (lt_succ_of_lt h')⟩
        · exact .inl hval
    next hle =>
      simp only [reduceCtorEq, false_iff, not_exists, not_and]
      intro m hm hlt
      omega

section Update

variable [DecidableEq α] {v : Option β}

theorem longest_update_of_not (h : ∀ m, lo ≤ m → m < hi → ρ.take m ≠ κ) :
    longest (update R κ v) ρ lo hi = longest R ρ lo hi :=
  longest_congr fun m hm hlt => update_of_ne (h m hm hlt) _ _

theorem longest_update (hκ : κ <+: ρ) (hlo : lo ≤ κ.length) (hhi : κ.length < hi)
    (hρ : hi ≤ ρ.length + 1) : longest (update R κ v) ρ lo hi =
      (longest R ρ (κ.length + 1) hi).or (v.or (longest R ρ lo κ.length)) := by
  have htake : ρ.take κ.length = κ := (prefix_iff_eq_take.mp hκ).symm
  have hne {m : Nat} (hm : m ≤ ρ.length) (hmκ : m ≠ κ.length) : ρ.take m ≠ κ := by
    rintro rfl
    rw [length_take, Nat.min_eq_left hm] at hmκ
    exact hmκ rfl
  rw [longest_append (le_succ_of_le hlo) hhi, longest_succ hlo, htake, update_self,
    longest_update_of_not fun m hm hlt => hne (by omega) (by omega),
    longest_update_of_not fun m hm hlt => hne (by omega) (by omega)]

end Update

section Keyed

/-- Every value knows the list it stands at. -/
def Keyed (key : β → List α) (R : List α → Option β) : Prop := ∀ ρ b, R ρ = some b → key b = ρ

variable {key : β → List α}

theorem longest_eq_below_iff (hR : Keyed key R) (hlo : lo ≤ mid) (hhi : mid ≤ hi)
    (hρ : hi ≤ ρ.length + 1) :
    longest R ρ lo hi = longest R ρ lo mid ↔ longest R ρ mid hi = none := by
  rw [longest_append hlo hhi]
  constructor
  · intro h
    cases hlong : longest R ρ mid hi with
    | none => rfl
    | some b =>
      rw [hlong, some_or] at h
      obtain ⟨m, hm, hlt, hval, -⟩ := longest_eq_some.mp hlong
      obtain ⟨m', -, hlt', hval', -⟩ := longest_eq_some.mp h.symm
      have heq := congrArg length ((hR _ _ hval).symm.trans (hR _ _ hval'))
      simp only [length_take] at heq
      omega
  · intro h
    rw [h, none_or]

end Keyed

end Mbsd.Lib.LongestPrefix
