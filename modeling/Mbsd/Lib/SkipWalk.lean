import Mathlib.Data.Nat.Find
import Mathlib.Logic.Relation

/-! Walks over the positions of a list that may jump over items they expect to be rejected, and
when such a walk accepts the same items as the walk that goes one by one. -/

namespace Mbsd.Lib.SkipWalk

open List Option Nat

/-- What an item does with the state: it is rejected for some reason, or it is accepted and the
walk goes on with the next item or ends. -/
inductive Verdict (σ δ : Type) where
  | reject (reason : δ)
  | next (s : σ)
  | stop (s : σ)

variable {σ δ : Type} (len : Nat) (eval : Nat → σ → Verdict σ δ)

/-- The accepted positions and the final state; `none` is out of fuel. -/
def walk (jump : Nat → δ → Nat) : Nat → Nat → σ → Option (List Nat × σ)
  | 0, _, _ => none
  | fuel + 1, p, s =>
    if p < len then
      match eval p s with
      | .reject d => walk jump fuel (jump p d) s
      | .next s => (walk jump fuel (p + 1) s).map fun w => (p :: w.1, w.2)
      | .stop s => some ([p], s)
    else some ([], s)

def linear (p : Nat) (_ : δ) : Nat := p + 1

/-- The walk that starts at `p₀` in the state `s₀` comes to `p` in the state `s`. -/
inductive Visits (jump : Nat → δ → Nat) (p₀ : Nat) (s₀ : σ) : Nat → σ → Prop
  | start : Visits jump p₀ s₀ p₀ s₀
  | reject {p s d} : Visits jump p₀ s₀ p s → p < len → eval p s = .reject d →
    Visits jump p₀ s₀ (jump p d) s
  | next {p s s'} : Visits jump p₀ s₀ p s → p < len → eval p s = .next s' →
    Visits jump p₀ s₀ (p + 1) s'

/-- The jump from `p` in the state `s` passes over `k`, which would have been accepted. -/
def JumpsOver (jump : Nat → δ → Nat) (p : Nat) (s : σ) (k : Nat) : Prop :=
  ∃ d, eval p s = .reject d ∧ p < k ∧ k < jump p d ∧ k < len ∧ ∀ d', eval k s ≠ .reject d'

section

variable {len eval} {jump : Nat → δ → Nat}

theorem Visits.of_reject {p : Nat} {s : σ} {d : δ} {q : Nat} {t : σ} (hp : p < len)
    (h : eval p s = .reject d) (hv : Visits len eval jump (jump p d) s q t) :
    Visits len eval jump p s q t := by
  induction hv with
  | start => exact .reject .start hp h
  | reject _ hlt heval ih => exact ih.reject hlt heval
  | next _ hlt heval ih => exact ih.next hlt heval

theorem Visits.of_next {p : Nat} {s s' : σ} {q : Nat} {t : σ} (hp : p < len)
    (h : eval p s = .next s') (hv : Visits len eval jump (p + 1) s' q t) :
    Visits len eval jump p s q t := by
  induction hv with
  | start => exact .next .start hp h
  | reject _ hlt heval ih => exact ih.reject hlt heval
  | next _ hlt heval ih => exact ih.next hlt heval

theorem Visits.cases_start {p : Nat} {s : σ} {q : Nat} {t : σ} (hv : Visits len eval jump p s q t) :
    (q = p ∧ t = s) ∨
    (∃ d, p < len ∧ eval p s = .reject d ∧ Visits len eval jump (jump p d) s q t) ∨
    ∃ s', p < len ∧ eval p s = .next s' ∧ Visits len eval jump (p + 1) s' q t := by
  induction hv with
  | start => exact .inl ⟨rfl, rfl⟩
  | reject _ hlt heval ih =>
    rcases ih with ⟨rfl, rfl⟩ | ⟨d, hp, hd, hv⟩ | ⟨s', hp, hs, hv⟩
    · exact .inr (.inl ⟨_, hlt, heval, .start⟩)
    · exact .inr (.inl ⟨d, hp, hd, hv.reject hlt heval⟩)
    · exact .inr (.inr ⟨s', hp, hs, hv.reject hlt heval⟩)
  | next _ hlt heval ih =>
    rcases ih with ⟨rfl, rfl⟩ | ⟨d, hp, hd, hv⟩ | ⟨s', hp, hs, hv⟩
    · exact .inr (.inr ⟨_, hlt, heval, .start⟩)
    · exact .inr (.inl ⟨d, hp, hd, hv.next hlt heval⟩)
    · exact .inr (.inr ⟨s', hp, hs, hv.next hlt heval⟩)

section

variable (forward : ∀ p d, p < len → p < jump p d)

include forward

theorem le_of_mem_walk {fuel p : Nat} {s : σ}
    {w : List Nat × σ} (h : walk len eval jump fuel p s = some w) : ∀ k ∈ w.1, p ≤ k := by
  induction fuel generalizing p s w with
  | zero => cases h
  | succ fuel ih =>
    rw [walk] at h
    split at h
    next hp =>
      split at h
      next d _ =>
        intro k hk
        exact Nat.le_of_lt (Nat.lt_of_lt_of_le (forward p d hp) (ih h k hk))
      next s' _ =>
        obtain ⟨w', hw', rfl⟩ := map_eq_some_iff.mp h
        intro k hk
        rcases mem_cons.mp hk with rfl | hk
        · exact Nat.le_refl _
        · exact le_of_succ_le (ih hw' k hk)
      · cases h
        intro k hk
        exact Nat.le_of_eq (mem_singleton.mp hk).symm
    · cases h
      intro k hk
      cases hk

theorem walk_ends {fuel p : Nat} (s : σ)
    (h : len - p < fuel) : ∃ w, walk len eval jump fuel p s = some w := by
  induction fuel generalizing p s with
  | zero => cases h
  | succ fuel ih =>
    rw [walk]
    split
    next hp =>
      split
      next d _ =>
        have := forward p d hp
        exact ih s (by omega)
      next s' _ =>
        obtain ⟨w, hw⟩ := ih (p := p + 1) s' (by omega)
        rw [hw]
        exact ⟨_, rfl⟩
      · exact ⟨_, rfl⟩
    · exact ⟨_, rfl⟩

theorem walk_fuel {n n' p : Nat} (s : σ) (h : len - p < n) (h' : len - p < n') :
    walk len eval jump n p s = walk len eval jump n' p s := by
  induction n generalizing n' p s with
  | zero => cases h
  | succ n ih =>
    cases n' with
    | zero => cases h'
    | succ n' =>
      rw [walk, walk]
      split
      next hp =>
        split
        next d _ =>
          have := forward p d hp
          exact ih s (by omega) (by omega)
        next s' _ => rw [@ih n' (p + 1) s' (by omega) (by omega)]
        · rfl
      · rfl

end

theorem linear_forward (p : Nat) (d : δ) (_ : p < len) : p < linear p d := lt_succ_self p

theorem walk_linear_rejected {p q n n' : Nat} {s : σ} (hpq : p ≤ q) (hn : len - p < n)
    (hn' : len - q < n') (h : ∀ k, p ≤ k → k < q → k < len → ∃ d, eval k s = .reject d) :
    walk len eval linear n p s = walk len eval linear n' q s := by
  induction q, hpq using le_induction generalizing n' with
  | base => exact walk_fuel linear_forward s hn hn'
  | succ q hpq ih =>
    rw [@ih (len + n' + 1) (by omega) fun k hk hkq => h k hk (lt_succ_of_lt hkq), walk]
    split
    next hq =>
      obtain ⟨d, hd⟩ := h q hpq (lt_succ_self q) hq
      rw [hd]
      exact walk_fuel linear_forward s (by simp [linear]; omega) (by simpa [linear] using hn')
    next hq =>
      cases n' with
      | zero => cases hn'
      | succ n' => rw [walk, if_neg (fun h => hq (lt_of_succ_lt h))]

theorem walk_ne_of_jumpsOver (forward : ∀ p d, p < len → p < jump p d) {p k n n' : Nat} {s : σ}
    (hp : p < len) (hn : len - p < n) (hn' : len - p < n') (h : JumpsOver len eval jump p s k) :
    walk len eval jump n p s ≠ walk len eval linear n' p s := by
  classical
  obtain ⟨d, hd, hpk, hkj, hk, hacc⟩ := h
  -- the first item after `p` that is not rejected
  have hex : ∃ k, p < k ∧ ∀ d', eval k s ≠ .reject d' := ⟨k, hpk, hacc⟩
  obtain ⟨hpm, hmacc⟩ := Nat.find_spec hex
  have hmk : Nat.find hex ≤ k := Nat.find_min' hex ⟨hpk, hacc⟩
  have hmin : ∀ i, p ≤ i → i < Nat.find hex → i < len → ∃ d, eval i s = .reject d := by
    intro i hpi him _
    rcases Nat.eq_or_lt_of_le hpi with rfl | hpi
    · exact ⟨d, hd⟩
    · by_contra hno
      exact Nat.find_min hex him ⟨hpi, fun d' hd' => hno ⟨d', hd'⟩⟩
  generalize Nat.find hex = j at hpm hmacc hmk hmin
  rw [walk_linear_rejected (Nat.le_of_lt hpm) hn' (lt_succ_self _) hmin]
  obtain ⟨w, hw⟩ : ∃ w, walk len eval jump n p s = some w := walk_ends forward s hn
  obtain ⟨w', hw'⟩ : ∃ w, walk len eval linear (len - j + 1) j s = some w :=
    walk_ends linear_forward s (lt_succ_self _)
  have hjw' : j ∈ w'.1 := by
    rw [walk, if_pos (Nat.lt_of_le_of_lt hmk hk)] at hw'
    split at hw'
    next hr => exact absurd hr (hmacc _)
    · obtain ⟨w'', -, rfl⟩ := map_eq_some_iff.mp hw'
      exact mem_cons_self
    · cases hw'
      exact mem_cons_self
  have hjw : j ∉ w.1 := by
    cases n with
    | zero => cases hn
    | succ n =>
      rw [walk, if_pos hp, hd] at hw
      intro hj
      have := le_of_mem_walk forward hw j hj
      omega
  rw [hw, hw']
  intro heq
  cases heq
  exact hjw hjw'

/-- The walk with jumps does the same as the walk one by one exactly if it never jumps over an
item that would have been accepted. -/
theorem walk_eq_linear_iff (forward : ∀ p d, p < len → p < jump p d) {n n' p : Nat} (s : σ)
    (hn : len - p < n) (hn' : len - p < n') :
    walk len eval jump n p s = walk len eval linear n' p s ↔
      ∀ q t k, Visits len eval jump p s q t → q < len → ¬ JumpsOver len eval jump q t k := by
  induction n generalizing n' p s with
  | zero => cases hn
  | succ n ih =>
    obtain ⟨n', rfl⟩ : ∃ m, n' = m + 1 := ⟨n' - 1, by omega⟩
    by_cases hp : p < len
    · match h : eval p s with
      | .reject d =>
        have hlt := forward p d hp
        by_cases hover : ∃ k, JumpsOver len eval jump p s k
        · obtain ⟨k, hk⟩ := hover
          exact iff_of_false (walk_ne_of_jumpsOver forward hp hn hn' hk)
            fun hall => hall p s k .start hp hk
        · have hrej : ∀ k, p ≤ k → k < jump p d → k < len → ∃ d, eval k s = .reject d := by
            intro k hpk hkj hk
            rcases Nat.eq_or_lt_of_le hpk with rfl | hpk
            · exact ⟨d, h⟩
            · by_contra hno
              exact hover ⟨k, d, h, hpk, hkj, hk, fun d' hd' => hno ⟨d', hd'⟩⟩
          rw [walk_linear_rejected (Nat.le_of_lt hlt) hn' (lt_succ_self _) hrej, walk,
            if_pos hp, h]
          refine (ih s (by omega) (by omega)).trans ⟨fun hall q t k hv => ?_, fun hall q t k hv => ?_⟩
          · rcases hv.cases_start with ⟨rfl, rfl⟩ | ⟨d', -, hd', hv⟩ | ⟨s', -, hs', -⟩
            · exact fun _ hk => hover ⟨k, hk⟩
            · rw [h] at hd'
              cases hd'
              exact hall q t k hv
            · rw [h] at hs'
              cases hs'
          · exact hall q t k (hv.of_reject hp h)
      | .next s' =>
        rw [walk, walk, if_pos hp, if_pos hp, h]
        have hinj : Function.Injective fun w : List Nat × σ => (p :: w.1, w.2) := by
          rintro ⟨ps, t⟩ ⟨ps', t'⟩ heq
          cases heq
          rfl
        rw [(map_injective hinj).eq_iff]
        refine (ih s' (by omega) (by omega)).trans ⟨fun hall q t k hv => ?_, fun hall q t k hv => ?_⟩
        · rcases hv.cases_start with ⟨rfl, rfl⟩ | ⟨d', -, hd', -⟩ | ⟨s'', -, hs', hv⟩
          · rintro - ⟨d', hd', -⟩
            rw [h] at hd'
            cases hd'
          · rw [h] at hd'
            cases hd'
          · rw [h] at hs'
            cases hs'
            exact hall q t k hv
        · exact hall q t k (hv.of_next hp h)
      | .stop s' =>
        rw [walk, walk, if_pos hp, if_pos hp, h]
        refine iff_of_true rfl fun q t k hv => ?_
        rcases hv.cases_start with ⟨rfl, rfl⟩ | ⟨d', -, hd', -⟩ | ⟨s'', -, hs', -⟩
        · rintro - ⟨d', hd', -⟩
          rw [h] at hd'
          cases hd'
        · rw [h] at hd'
          cases hd'
        · rw [h] at hs'
          cases hs'
    · rw [walk, walk, if_neg hp, if_neg hp]
      refine iff_of_true rfl fun q t k hv hq => ?_
      rcases hv.cases_start with ⟨rfl, rfl⟩ | ⟨d', hlt, -⟩ | ⟨s'', hlt, -⟩
      · exact absurd hq hp
      · exact absurd hlt hp
      · exact absurd hlt hp

end

end Mbsd.Lib.SkipWalk
