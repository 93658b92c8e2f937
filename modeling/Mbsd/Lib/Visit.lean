import Mathlib.Algebra.Group.Nat.Defs
import Mathlib.Data.List.Nodup

/-! The numbers below a bound in the order of their odd parts: after each odd number come its
doubles. -/

namespace Mbsd.Lib.OddWalk

variable {n j i k o o' e e' : Nat}

/-- `i` is the odd number `j` or one of its doubles. -/
def Doubled (j i : Nat) : Prop := j % 2 = 1 ∧ ∃ e, i = j * 2 ^ e

/-- What comes from `i` on if `j` is its odd part. -/
def Ahead (n j i k : Nat) : Prop :=
  k < n ∧ ((∃ e, k = i * 2 ^ e) ∨ ∃ o e, o % 2 = 1 ∧ j < o ∧ k = o * 2 ^ e)

theorem odd_part_inj (ho : o % 2 = 1) (ho' : o' % 2 = 1) (h : o * 2 ^ e = o' * 2 ^ e') :
    o = o' ∧ e = e' := by
  induction e generalizing e' with
  | zero =>
    cases e' with
    | zero => exact ⟨by simpa using h, rfl⟩
    | succ e' =>
      rw [Nat.pow_succ, Nat.pow_zero, Nat.mul_one, ← Nat.mul_assoc] at h
      omega
  | succ e ih =>
    cases e' with
    | zero =>
      rw [Nat.pow_succ, Nat.pow_zero, Nat.mul_one, ← Nat.mul_assoc] at h
      omega
    | succ e' =>
      rw [Nat.pow_succ, Nat.pow_succ] at h
      obtain ⟨hoo, hee⟩ := ih (show o * 2 ^ e = o' * 2 ^ e' by
        rw [← Nat.mul_assoc, ← Nat.mul_assoc] at h
        omega)
      exact ⟨hoo, by rw [hee]⟩

theorem exists_odd_part (hk : 0 < k) : ∃ o e, o % 2 = 1 ∧ k = o * 2 ^ e := by
  induction k using Nat.strongRecOn with
  | ind k ih =>
    rcases Nat.mod_two_eq_zero_or_one k with heven | hodd
    · obtain ⟨o, e, ho, he⟩ := ih (k / 2) (by omega) (by omega)
      refine ⟨o, e + 1, ho, ?_⟩
      rw [Nat.pow_succ, ← Nat.mul_assoc, ← he]
      omega
    · exact ⟨k, 0, hodd, by simp⟩

theorem Doubled.self (hj : j % 2 = 1) : Doubled j j := ⟨hj, 0, by simp⟩

theorem Doubled.double (h : Doubled j i) : Doubled j (2 * i) := by
  obtain ⟨hj, e, rfl⟩ := h
  refine ⟨hj, e + 1, ?_⟩
  rw [Nat.pow_succ, Nat.mul_comm, Nat.mul_assoc]

theorem Doubled.pos (h : Doubled j i) : 0 < i := by
  obtain ⟨hj, e, rfl⟩ := h
  exact Nat.mul_pos (by omega) (Nat.two_pow_pos e)

theorem ahead_start (h2 : 2 ≤ k) (hk : k < n) : Ahead n 1 2 k := by
  obtain ⟨o, e, ho, rfl⟩ := exists_odd_part (show 0 < k by omega)
  refine ⟨hk, ?_⟩
  by_cases hone : o = 1
  · subst hone
    cases e with
    | zero =>
      rw [Nat.pow_zero] at h2
      omega
    | succ e => exact .inl ⟨e, by rw [Nat.pow_succ, Nat.one_mul, Nat.mul_comm]⟩
  · exact .inr ⟨o, e, ho, by omega, rfl⟩

theorem ahead_double (hi : i < n) : Ahead n j i k ↔ k = i ∨ Ahead n j (2 * i) k := by
  have hdouble (e : Nat) : i * 2 ^ (e + 1) = 2 * i * 2 ^ e := by
    rw [Nat.pow_succ, Nat.mul_comm 2 i, Nat.mul_assoc, Nat.mul_comm (2 ^ e)]
  constructor
  · rintro ⟨hk, ⟨e, rfl⟩ | hlater⟩
    · cases e with
      | zero => exact .inl (by simp)
      | succ e => exact .inr ⟨hk, .inl ⟨e, hdouble e⟩⟩
    · exact .inr ⟨hk, .inr hlater⟩
  · rintro (rfl | ⟨hk, ⟨e, rfl⟩ | hlater⟩)
    · exact ⟨hi, .inl ⟨0, by simp⟩⟩
    · exact ⟨hk, .inl ⟨e + 1, (hdouble e).symm⟩⟩
    · exact ⟨hk, .inr hlater⟩

theorem not_ahead_double (h : Doubled j i) : ¬Ahead n j (2 * i) i := by
  have hpos := h.pos
  rintro ⟨-, ⟨e, he⟩ | ⟨o, e, ho, hlt, he⟩⟩
  · have := Nat.mul_le_mul_left (2 * i) (Nat.two_pow_pos e)
    omega
  · obtain ⟨hj, e', he'⟩ := h
    obtain ⟨rfl, -⟩ := odd_part_inj hj ho (he'.symm.trans he)
    omega

theorem ahead_next (h : Doubled j i) (hi : n ≤ i) : Ahead n j i k ↔ Ahead n (j + 2) (j + 2) k := by
  have hj := h.1
  constructor
  · rintro ⟨hk, ⟨e, rfl⟩ | ⟨o, e, ho, hlt, rfl⟩⟩
    · have := Nat.mul_le_mul_left i (Nat.two_pow_pos e)
      omega
    · refine ⟨hk, ?_⟩
      by_cases heq : o = j + 2
      · exact .inl ⟨e, by rw [heq]⟩
      · exact .inr ⟨o, e, ho, by omega, rfl⟩
  · rintro ⟨hk, ⟨e, rfl⟩ | ⟨o, e, ho, hlt, rfl⟩⟩
    · exact ⟨hk, .inr ⟨j + 2, e, by omega, by omega, rfl⟩⟩
    · exact ⟨hk, .inr ⟨o, e, ho, by omega, rfl⟩⟩

theorem not_ahead_end (hj : n ≤ j) : ¬Ahead n j j k := by
  rintro ⟨hk, ⟨e, rfl⟩ | ⟨o, e, -, hlt, rfl⟩⟩
  · have := Nat.mul_le_mul_left j (Nat.two_pow_pos e)
    omega
  · have := Nat.mul_le_mul_left o (Nat.two_pow_pos e)
    omega

end Mbsd.Lib.OddWalk

/-! Visiting what a map holds while what was visited may be removed.  `ahead` are the keys that
are still to come. -/

namespace Mbsd.Lib.Visit

open List Function

variable {κ ν : Type} {key : ν → κ} {R R₀ : κ → Option ν} {A A' A'' : κ → Prop} {k : κ} {a : ν}
  {returned : List ν}

/-- Nothing that the map holds is passed over. -/
structure Skips (R : κ → Option ν) (A A' : κ → Prop) : Prop where
  sub : ∀ k, A' k → A k
  rest : ∀ k, A k → R k ≠ none → A' k

/-- One key is passed over, and its value is returned. -/
structure Takes (R : κ → Option ν) (A A' : κ → Prop) (k : κ) (a : ν) : Prop where
  found : R k = some a
  ahead : A k
  gone : ¬A' k
  sub : ∀ k, A' k → A k
  rest : ∀ k', A k' → R k' ≠ none → k' = k ∨ A' k'

theorem Skips.refl (R : κ → Option ν) (A : κ → Prop) : Skips R A A :=
  ⟨fun _ => id, fun _ h _ => h⟩

theorem Skips.takes (h : Skips R A A') (h' : Takes R A' A'' k a) : Takes R A A'' k a where
  found := h'.found
  ahead := h.sub k h'.ahead
  gone := h'.gone
  sub := fun k hk => h.sub k (h'.sub k hk)
  rest := fun k hk hR => h'.rest k (h.rest k hk hR) hR

theorem Skips.of_iff (h : ∀ k, A k ↔ A' k) : Skips R A A' :=
  ⟨fun k => (h k).mpr, fun k hk _ => (h k).mp hk⟩

theorem Skips.of_none (hsub : ∀ k, A' k → A k) (hrest : ∀ k', A k' → R k' ≠ none → k' = k ∨ A' k')
    (hR : R k = none) : Skips R A A' where
  sub := hsub
  rest := by
    intro k' hk' hR'
    rcases hrest k' hk' hR' with rfl | h
    · exact absurd hR hR'
    · exact h

/-- What has been returned is not ahead, and what is not ahead has been returned or was removed
after that. -/
structure Visiting (key : ν → κ) (R₀ R : κ → Option ν) (A : κ → Prop) (returned : List ν) :
    Prop where
  keyed : ∀ k a, R₀ k = some a → key a = k
  left : ∀ k, R k = R₀ k ∨ R k = none
  nodup : returned.Nodup
  source : ∀ a ∈ returned, R₀ (key a) = some a
  behind : ∀ a ∈ returned, ¬A (key a)
  rest : ∀ k a, R k = some a → A k ∨ a ∈ returned

namespace Visiting

theorem start (hkey : ∀ k a, R k = some a → key a = k) (hall : ∀ k, R k ≠ none → A k) :
    Visiting key R R A [] where
  keyed := hkey
  left := fun _ => .inl rfl
  nodup := nodup_nil
  source := nofun
  behind := nofun
  rest := fun k a h => .inl (hall k (by rw [h]; nofun))

section

variable (h : Visiting key R₀ R A returned)

include h

theorem value (hR : R k = some a) : R₀ k = some a := by
  rcases h.left k with heq | hnone
  · rw [← heq, hR]
  · rw [hnone] at hR
    cases hR

theorem skips (hs : Skips R A A') : Visiting key R₀ R A' returned where
  keyed := h.keyed
  left := h.left
  nodup := h.nodup
  source := h.source
  behind := fun a ha hk => h.behind a ha (hs.sub _ hk)
  rest := fun k a hR => (h.rest k a hR).imp_left fun hk => hs.rest k hk (by rw [hR]; nofun)

theorem takes (ht : Takes R A A' k a) : Visiting key R₀ R A' (returned ++ [a]) where
  keyed := h.keyed
  left := h.left
  nodup := by
    have hnew : a ∉ returned := by
      intro ha
      have hk := h.keyed k a (h.value ht.found)
      exact h.behind a ha (hk ▸ ht.ahead)
    exact Nodup.append h.nodup (nodup_singleton a) (disjoint_singleton.mpr hnew)
  source := by
    intro b hb
    rcases mem_append.mp hb with hb | hb
    · exact h.source b hb
    · rw [mem_singleton.mp hb, h.keyed k a (h.value ht.found)]
      exact h.value ht.found
  behind := by
    intro b hb hA
    rcases mem_append.mp hb with hb | hb
    · exact h.behind b hb (ht.sub _ hA)
    · rw [mem_singleton.mp hb, h.keyed k a (h.value ht.found)] at hA
      exact ht.gone hA
  rest := by
    intro k' b hR
    rcases h.rest k' b hR with hA | hb
    · rcases ht.rest k' hA (by rw [hR]; nofun) with rfl | hA'
      · rw [ht.found, Option.some.injEq] at hR
        exact .inr (mem_append_right _ (mem_singleton.mpr hR.symm))
      · exact .inl hA'
    · exact .inr (mem_append_left _ hb)

theorem remove [DecidableEq κ] (k : κ) : Visiting key R₀ (update R k none) A returned where
  keyed := h.keyed
  left := by
    intro k'
    rw [update_apply]
    split
    · exact .inr rfl
    · exact h.left k'
  nodup := h.nodup
  source := h.source
  behind := h.behind
  rest := by
    intro k' a hR
    rw [update_apply] at hR
    split at hR
    · cases hR
    · exact h.rest k' a hR

theorem finish (hend : ∀ k, A k → R k = none)
    (hR : R k = some a) [DecidableEq ν] : returned.count a = 1 := by
  rcases h.rest k a hR with hA | ha
  · rw [hend k hA] at hR
    cases hR
  · exact count_eq_one_of_mem h.nodup ha

end

end Visiting

end Mbsd.Lib.Visit
