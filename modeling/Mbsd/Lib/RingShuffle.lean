import Mathlib.Algebra.Order.Ring.Int

/-! A ring of cells that is read cell by cell, while what is read is exchanged with a cell that
was read not long ago.  A value that was read stays away for most of a round. -/

namespace Mbsd.Lib.RingShuffle

open Function

variable {ι α : Type} {a : ι → α} {cell : Int → ι} {t s stop : Int} {x : α} {c : Nat → ι}
  {v : Nat → α} {n : Nat}

/-- The cells come round every `n` positions. -/
def Rounds (cell : Int → ι) (n : Nat) : Prop := ∀ u v, cell u = cell v ↔ (n : Int) ∣ u - v

/-- The value is in none of the cells at the positions from `t` up to `stop`. -/
def Away (cell : Int → ι) (a : ι → α) (t stop : Int) (x : α) : Prop :=
  ∀ u, t ≤ u → u < stop → a (cell u) ≠ x

theorem Rounds.ne (h : Rounds cell n) {u v : Int} (hlt : v < u) (hn : u < v + n) :
    cell u ≠ cell v := by
  intro heq
  have hle := Int.le_of_dvd (by omega) ((h u v).mp heq)
  omega

theorem Away.mono (h : Away cell a t stop x) {t' stop' : Int} (ht : t ≤ t') (hs : stop' ≤ stop) :
    Away cell a t' stop' x := fun u hu hu' => h u (Int.le_trans ht hu) (Int.lt_of_lt_of_le hu' hs)

theorem Away.ne (h : Away cell a t stop x) (ht : t < stop) : a (cell t) ≠ x := h t le_rfl ht

/-- The first `n` cells hold the first `n` values, each of them once. -/
structure Spread (c : Nat → ι) (v : Nat → α) (a : ι → α) (n : Nat) : Prop where
  mem : ∀ k < n, ∃ l < n, a (c k) = v l
  inj : ∀ k < n, ∀ l < n, a (c k) = a (c l) → k = l

theorem spread_zero : Spread c v a 0 :=
  ⟨fun _ hk => absurd hk (Nat.not_lt_zero _), fun _ hk => absurd hk (Nat.not_lt_zero _)⟩

variable [DecidableEq ι] {i j k : ι}

def exchange (a : ι → α) (i j : ι) : ι → α := Function.update (Function.update a i (a j)) j (a i)

theorem exchange_eq (a : ι → α) (i j : ι) : exchange a i j = a ∘ Equiv.swap i j := by
  funext k
  rw [exchange, comp_apply, Equiv.swap_apply_def]
  by_cases hj : k = j
  · subst hj
    rw [update_self]
    split
    next h => rw [h]
    next => rw [if_pos rfl]
  · rw [update_of_ne hj, if_neg hj]
    by_cases hi : k = i
    · rw [hi, update_self, if_pos rfl]
    · rw [update_of_ne hi, if_neg hi]

theorem exchange_of_ne (hi : k ≠ i) (hj : k ≠ j) : exchange a i j k = a k := by
  rw [exchange, update_of_ne hj, update_of_ne hi]

theorem exchange_bijective (h : Bijective a) (i j : ι) : Bijective (exchange a i j) := by
  rw [exchange_eq]
  exact h.comp (Equiv.swap i j).bijective

theorem cell_exchange (h : Rounds cell n) (hs : 0 ≤ s) {u : Int} (ht : t < u) (hu : u + s < t + n) :
    exchange a (cell t) (cell (t - s)) (cell u) = a (cell u) :=
  exchange_of_ne (h.ne ht (by omega)) (h.ne (by omega) (by omega))

theorem Away.exchange (h : Away cell a t stop x) (hcell : Rounds cell n) (hs : 0 ≤ s)
    (hstop : stop + s ≤ t + n) : Away cell (exchange a (cell t) (cell (t - s))) (t + 1) stop x := by
  intro u hu hu'
  rw [cell_exchange hcell hs hu (by omega)]
  exact h u (by omega) hu'

theorem away_of_read (ha : Injective a) (hcell : Rounds cell n) (hs : 0 ≤ s) :
    Away cell (exchange a (cell t) (cell (t - s))) (t + 1) (t + n - s) (a (cell t)) := by
  intro u hu hu' heq
  rw [cell_exchange hcell hs hu (by omega)] at heq
  exact hcell.ne hu (by omega) (ha heq)

theorem Spread.step (h : Spread c v a n) (hc : ∀ k ≤ n, ∀ l ≤ n, c k = c l → k = l)
    (hv : ∀ k ≤ n, ∀ l ≤ n, v k = v l → k = l) {m : Nat} (hm : m ≤ n) :
    Spread c v (update (update a (c n) (a (c m))) (c m) (v n)) (n + 1) := by
  -- cell `k` gets the new value, or that of a cell `l` among the first `n`
  have hcell : ∀ k < n + 1,
      k = m ∧ update (update a (c n) (a (c m))) (c m) (v n) (c k) = v n ∨
      ∃ l < n, (k ≠ n → l = k) ∧ (k = n → l = m) ∧ k ≠ m ∧
        update (update a (c n) (a (c m))) (c m) (v n) (c k) = a (c l) := by
    intro k hk
    by_cases hkm : k = m
    · rw [hkm, update_self]
      exact .inl ⟨rfl, rfl⟩
    · have hne : c k ≠ c m := fun heq => hkm (hc k (by omega) m hm heq)
      rw [update_of_ne hne]
      by_cases hkn : k = n
      · rw [hkn, update_self]
        exact .inr ⟨m, by omega, fun hne => absurd rfl hne, fun _ => rfl, by omega, rfl⟩
      · have hne' : c k ≠ c n := fun heq => hkn (hc k (by omega) n le_rfl heq)
        rw [update_of_ne hne']
        exact .inr ⟨k, by omega, fun _ => rfl, fun heq => absurd heq hkn, hkm, rfl⟩
  have hnew : ∀ l < n, a (c l) ≠ v n := by
    intro l hl heq
    obtain ⟨l', hl', heq'⟩ := h.mem l hl
    have := hv l' (by omega) n le_rfl (heq'.symm.trans heq)
    omega
  refine ⟨fun k hk => ?_, fun k hk k' hk' heq => ?_⟩
  · rcases hcell k hk with ⟨-, hval⟩ | ⟨l, hl, -, -, -, hval⟩
    · exact ⟨n, by omega, hval⟩
    · obtain ⟨l', hl', heq⟩ := h.mem l hl
      exact ⟨l', by omega, hval.trans heq⟩
  · rcases hcell k hk with ⟨hkm, hval⟩ | ⟨l, hl, hlk, hln, hkm, hval⟩ <;>
      rcases hcell k' hk' with ⟨hkm', hval'⟩ | ⟨l', hl', hlk', hln', hkm', hval'⟩ <;>
      rw [hval, hval'] at heq
    · rw [hkm, hkm']
    · exact absurd heq.symm (hnew l' hl')
    · exact absurd heq (hnew l hl)
    · have hll := h.inj l hl l' hl' heq
      by_cases hkn : k = n <;> by_cases hkn' : k' = n
      · rw [hkn, hkn']
      · rw [hln hkn, hlk' hkn'] at hll
        exact absurd hll.symm hkm'
      · rw [hlk hkn, hln' hkn'] at hll
        exact absurd hll hkm
      · rw [← hlk hkn, hll, hlk' hkn']

end Mbsd.Lib.RingShuffle
