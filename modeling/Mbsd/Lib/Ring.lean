import Mathlib.Data.Fin.Basic
import Mathlib.Data.List.Perm.Basic
import Mathlib.Data.Nat.ModEq
import Mathlib.Data.Set.Insert

/-! Runs of cells on a ring of `n` cells.  A position is wrapped at most once. -/

namespace Mbsd.Lib.RingSlice

open List

variable {α : Type}

def wrap (n i : Nat) : Nat := if i < n then i else i - n

/-- The `k` cells from cell `f` on. -/
def slice (c : Nat → α) (n f k : Nat) : List α := (List.range k).map fun i => c (wrap n (f + i))

variable {c c' : Nat → α} {n f i j k : Nat}

theorem wrap_lt (hf : f < n) (hk : k ≤ n) : wrap n (f + k) < n := by
  rw [wrap]
  split <;> omega

theorem wrap_of_lt (h : i < n) : wrap n i = i := if_pos h

theorem wrap_wrap (hf : f < n) (h : j + i ≤ n) :
    wrap n (wrap n (f + j) + i) = wrap n (f + (j + i)) := by
  simp only [wrap]
  split <;> split <;> split <;> omega

theorem wrap_ne (f : Nat) (hij : i < j) (hj : j < n) : wrap n (f + i) ≠ wrap n (f + j) := by
  simp only [wrap]
  split <;> split <;> omega

@[simp] theorem length_slice : (slice c n f k).length = k := by
  rw [slice, length_map, length_range]

@[simp] theorem slice_zero : slice c n f 0 = [] := rfl

theorem slice_snoc : slice c n f (k + 1) = slice c n f k ++ [c (wrap n (f + k))] := by
  rw [slice, range_succ, map_append]
  rfl

theorem slice_append (hf : f < n) (h : j + k ≤ n) :
    slice c n f (j + k) = slice c n f j ++ slice c n (wrap n (f + j)) k := by
  rw [slice, range_add, map_append, map_map]
  congr 1
  apply map_congr_left
  intro i hi
  have hi : i < k := mem_range.mp hi
  rw [Function.comp_apply, wrap_wrap hf (by omega)]

theorem slice_cons (hf : f < n) (h : k + 1 ≤ n) :
    slice c n f (k + 1) = c f :: slice c n (wrap n (f + 1)) k := by
  rw [Nat.add_comm k 1, slice_append hf (by omega), slice, range_one, map_singleton,
    Nat.add_zero, wrap_of_lt hf]
  rfl

theorem slice_one (hf : f < n) : slice c n f 1 = [c f] := by
  rw [slice_cons hf (by omega), slice_zero]

theorem slice_congr (h : ∀ i < k, c (wrap n (f + i)) = c' (wrap n (f + i))) :
    slice c n f k = slice c' n f k :=
  map_congr_left fun i hi => h i (mem_range.mp hi)

theorem slice_of_le (h : f + k ≤ n) : slice c n f k = (range k).map fun i => c (f + i) := by
  apply map_congr_left
  intro i hi
  have hi : i < k := mem_range.mp hi
  rw [wrap_of_lt (by omega)]

theorem take_slice (hf : f < n) (hj : j ≤ k) (hk : k ≤ n) :
    (slice c n f k).take j = slice c n f j := by
  obtain ⟨i, rfl⟩ := Nat.exists_eq_add_of_le hj
  rw [slice_append hf hk, take_left' length_slice]

theorem drop_slice (hf : f < n) (hj : j ≤ k) (hk : k ≤ n) :
    (slice c n f k).drop j = slice c n (wrap n (f + j)) (k - j) := by
  obtain ⟨i, rfl⟩ := Nat.exists_eq_add_of_le hj
  rw [slice_append hf hk, drop_left' length_slice, Nat.add_sub_cancel_left]

/-- The cells from `f` on are overwritten; no cell is wrapped. -/
def put (c : Nat → α) (f : Nat) (l : List α) : Nat → α :=
  fun i => if f ≤ i then l[i - f]?.getD (c i) else c i

variable {l : List α}

theorem put_of_lt (h : i < f) : put c f l i = c i := if_neg (Nat.not_le_of_gt h)

theorem put_of_ge (h : f + l.length ≤ i) : put c f l i = c i := by
  rw [put, getElem?_eq_none (by omega)]
  simp

theorem put_add (h : i < l.length) : put c f l (f + i) = l[i] := by
  rw [put, if_pos (by omega), Nat.add_sub_cancel_left, getElem?_eq_getElem h]
  rfl

@[simp] theorem put_nil : put c f [] = c := by
  funext i
  simp only [put, getElem?_nil, Option.getD_none, ite_self]

theorem slice_put (h : f + l.length ≤ n) : slice (put c f l) n f l.length = l := by
  rw [slice_of_le h]
  refine ext_getElem (by simp) fun i hi hi' => ?_
  rw [getElem_map, getElem_range, put_add hi']

theorem slice_put_append (hf : f < n) (hk : k + l.length ≤ n) (hw : wrap n (f + k) + l.length ≤ n) :
    slice (put c (wrap n (f + k)) l) n f (k + l.length) = slice c n f k ++ l := by
  rw [slice_append hf hk, slice_put hw]
  congr 1
  refine slice_congr fun i hi => ?_
  have hcases : wrap n (f + i) < wrap n (f + k) ∨ wrap n (f + k) + l.length ≤ wrap n (f + i) := by
    simp only [wrap] at hw ⊢
    split at hw <;> split <;> omega
  rcases hcases with hlt | hge
  · exact put_of_lt hlt
  · exact put_of_ge hge

end Mbsd.Lib.RingSlice

/-! A set of numbers kept as a ring of `n` words of `b` bits.  The ring knows the words
`top - n < w ≤ top`; moving `top` forward erases the words that come into the window. -/

namespace Mbsd.Lib.RingWindow

open Nat

/-- The ring, read as slot and bit, agrees with `S` on the last `n` words up to `top`. -/
structure Tracks (n b : Nat) (ring : Nat → Nat → Bool) (top : Nat) (S : Set Nat) : Prop where
  le_top : ∀ v ∈ S, v / b ≤ top
  test : ∀ v, v / b ≤ top → top < v / b + n → (ring (v / b % n) (v % b) = true ↔ v ∈ S)

variable {n b : Nat} {ring ring' : Nat → Nat → Bool} {top top' : Nat} {S : Set Nat}

theorem Tracks.zero : Tracks n b (fun _ _ => false) top ∅ where
  le_top := by simp
  test := by simp

theorem eq_of_mod_eq {i j : Nat} (hij : i % n = j % n) (h₁ : i < j + n) (h₂ : j < i + n) :
    i = j := by
  rcases Nat.le_total i j with h | h
  · have hd : (j - i) % n = 0 := sub_mod_eq_zero_of_mod_eq hij.symm
    rw [mod_eq_of_lt (by omega)] at hd
    omega
  · have hd : (i - j) % n = 0 := sub_mod_eq_zero_of_mod_eq hij
    rw [mod_eq_of_lt (by omega)] at hd
    omega

theorem Tracks.advance (h : Tracks n b ring top S) (hn : 0 < n) (hle : top ≤ top')
    (hz : ∀ s j, (∃ i, 1 ≤ i ∧ i ≤ min (top' - top) n ∧ (i + top) % n = s) → ring' s j = false)
    (hk : ∀ s j, (∀ i, 1 ≤ i → i ≤ min (top' - top) n → (i + top) % n ≠ s) →
      ring' s j = ring s j) : Tracks n b ring' top' S where
  le_top v hv := (h.le_top v hv).trans hle
  test v hv hwin := by
    by_cases hold : v / b ≤ top
    · rw [hk, h.test v hold (by omega)]
      intro i hi₁ hi₂ heq
      have := eq_of_mod_eq heq (by omega) (by omega)
      omega
    · have hv' : v ∉ S := fun hmem => hold (h.le_top v hmem)
      rw [hz, iff_false_right hv']
      · simp
      by_cases hlt : v / b - top ≤ n
      · exact ⟨v / b - top, by omega, by omega, by rw [Nat.sub_add_cancel (by omega)]⟩
      · refine ⟨(v / b - top - 1) % n + 1, by omega, ?_, ?_⟩
        · have := mod_lt (v / b - top - 1) hn
          omega
        · rw [show (v / b - top - 1) % n + 1 + top = (v / b - top - 1) % n + (top + 1) by omega,
            mod_add_mod]
          congr 1
          omega

theorem Tracks.mark (h : Tracks n b ring top S) {v : Nat} (hv : v / b ≤ top)
    (hwin : top < v / b + n)
    (hs : ∀ s j, ring' s j = true ↔ ring s j = true ∨ (s = v / b % n ∧ j = v % b)) :
    Tracks n b ring' top (insert v S) where
  le_top u hu := by
    rcases hu with rfl | hu
    · exact hv
    · exact h.le_top u hu
  test u hu huwin := by
    rw [hs, h.test u hu huwin, Set.mem_insert_iff, or_comm]
    refine or_congr_left ⟨?_, ?_⟩
    · rintro ⟨hmod, hbit⟩
      have hdiv := eq_of_mod_eq hmod (by omega) (by omega)
      rw [← div_add_mod u b, ← div_add_mod v b, hdiv, hbit]
    · rintro rfl
      exact ⟨rfl, rfl⟩

end Mbsd.Lib.RingWindow

/-! A ring of `n` cells that are empty or hold a value, read once around from a head. -/

namespace Mbsd.Lib.RingHeld

open List Option Function Nat

variable {α : Type} {n h d : Nat} {c : Nat → Option α} {a : α}

/-- The values from the head `h` on. -/
def held (n : Nat) (c : Nat → Option α) (h : Nat) : List α :=
  (List.range n).filterMap fun d => c ((h + d) % n)

theorem mem_held : a ∈ held n c h ↔ ∃ d < n, c ((h + d) % n) = some a := by
  simp only [held, mem_filterMap, mem_range]

theorem cell_inj {e : Nat} (hd : d < n) (he : e < n) (heq : (h + d) % n = (h + e) % n) : d = e := by
  have hmod : d % n = e % n := ModEq.add_left_cancel' h heq
  rwa [mod_eq_of_lt hd, mod_eq_of_lt he] at hmod

theorem held_cons (hn : 0 < n) (hh : h < n) :
    held n c h = (c h).toList ++ (range (n - 1)).filterMap fun d => c ((h + 1 + d) % n) := by
  obtain ⟨k, rfl⟩ := Nat.exists_eq_add_of_le' hn
  rw [held, Nat.add_sub_cancel, range_succ_eq_map, filterMap_cons, filterMap_map,
    Nat.add_zero, mod_eq_of_lt hh]
  have hshift : ((fun d => c ((h + d) % (k + 1))) ∘ succ) =
      fun d => c ((h + 1 + d) % (k + 1)) := by
    funext d
    rw [comp_apply, succ_eq_add_one, Nat.add_assoc, Nat.add_comm 1 d]
  rw [hshift]
  cases c h <;> rfl

theorem held_next (hn : 0 < n) (hh : h < n) : held n c ((h + 1) % n) =
      (range (n - 1)).filterMap (fun d => c ((h + 1 + d) % n)) ++ (c h).toList := by
  obtain ⟨k, rfl⟩ := Nat.exists_eq_add_of_le' hn
  have hlast : (h + 1 + k) % (k + 1) = h := by
    rw [Nat.add_assoc, Nat.add_comm 1 k, add_mod_right, mod_eq_of_lt hh]
  rw [held, Nat.add_sub_cancel, range_succ, filterMap_append]
  simp only [mod_add_mod]
  rw [filterMap_cons, hlast, filterMap_nil]
  cases c h <;> rfl

theorem held_next_none (hn : 0 < n) (hh : h < n) (hc : c h = none) :
    held n c ((h + 1) % n) = held n c h := by
  rw [held_next hn hh, held_cons hn hh, hc, toList_none, append_nil, nil_append]

theorem held_take (hn : 0 < n) (hh : h < n) (hc : c h = some a) :
    held n c h = a :: held n (update c h none) h := by
  rw [held_cons hn hh, held_cons hn hh, hc, update_self, toList_none,
    nil_append, toList_some, singleton_append]
  congr 1
  refine filterMap_congr fun d hd => ?_
  have hlt : d < n - 1 := mem_range.mp hd
  rw [update_of_ne]
  intro heq
  have hzero : 1 + d = 0 := cell_inj (h := h) (n := n) (by omega) hn (by
    rw [Nat.add_zero, mod_eq_of_lt hh, ← Nat.add_assoc, heq])
  omega

theorem held_store (hd : d < n) (hc : c ((h + d) % n) = none) :
    (held n (update c ((h + d) % n) (some a)) h).Perm (a :: held n c h) := by
  obtain ⟨k, rfl⟩ := Nat.exists_eq_add_of_le' (succ_le_of_lt hd)
  have hsplit : range (k + (d + 1)) =
      range d ++ d :: (range k).map fun i => d + 1 + i := by
    rw [Nat.add_comm, range_add, range_succ, append_assoc]
    rfl
  have hleft : (range d).filterMap (fun e =>
      update c ((h + d) % (k + (d + 1))) (some a) ((h + e) % (k + (d + 1)))) =
      (range d).filterMap fun e => c ((h + e) % (k + (d + 1))) := by
    refine filterMap_congr fun e he => update_of_ne (fun heq => ?_) _ _
    have hlt := mem_range.mp he
    have hsame := cell_inj (by omega) hd heq
    omega
  have hright : ((range k).map fun i => d + 1 + i).filterMap (fun e =>
      update c ((h + d) % (k + (d + 1))) (some a) ((h + e) % (k + (d + 1)))) =
      ((range k).map fun i => d + 1 + i).filterMap fun e => c ((h + e) % (k + (d + 1))) := by
    refine filterMap_congr fun e he => update_of_ne (fun heq => ?_) _ _
    obtain ⟨i, hi, rfl⟩ := mem_map.mp he
    have hlt := mem_range.mp hi
    have hsame := cell_inj (by omega) hd heq
    omega
  rw [held, held, hsplit, filterMap_append, filterMap_append, filterMap_cons,
    filterMap_cons, hleft, hright, update_self, hc]
  exact perm_middle

theorem held_pairwise {key : α → Nat} {k : Nat}
    (hkey : ∀ d < n, ∀ a, c ((h + d) % n) = some a → key a = k + d) :
    (held n c h).Pairwise fun a b => key a < key b := by
  rw [held, pairwise_filterMap]
  refine Pairwise.imp_of_mem (fun {d e} hd he hlt a ha b hb => ?_) pairwise_lt_range
  rw [hkey d (mem_range.mp hd) a ha, hkey e (mem_range.mp he) b hb]
  omega

end Mbsd.Lib.RingHeld

/-! Overwriting a ring from behind one position up to another. -/

namespace Mbsd.Lib.RingSweep

open Function

variable {n : Nat} {α : Type}

/-- Writes `z` behind `i`, one position after the other, until `j` is written. -/
def sweep (z : α) (j : Fin (n + 1)) : Nat → Fin (n + 1) → (Fin (n + 1) → α) → Fin (n + 1) → α
  | 0, _, f => f
  | fuel + 1, i, f =>
    if i = j then f else sweep z j fuel (i + 1) (Function.update f (i + 1) z)

/-- The position is behind `i`, and `j` is not before it. -/
def Swept (i j k : Fin (n + 1)) : Prop := if i ≤ j then i < k ∧ k ≤ j else i < k ∨ k ≤ j

instance (i j k : Fin (n + 1)) : Decidable (Swept i j k) :=
  inferInstanceAs (Decidable (if i ≤ j then i < k ∧ k ≤ j else i < k ∨ k ≤ j))

variable {i j k : Fin (n + 1)} {f : Fin (n + 1) → α} {z : α}

theorem not_swept_self (i k : Fin (n + 1)) : ¬Swept i i k := by
  rw [Swept]
  split <;> omega

theorem swept_last (h : i ≠ j) : Swept i j j := by
  rw [Swept]
  split <;> omega

theorem swept_next (h : i ≠ j) : Swept i j k ↔ k = i + 1 ∨ Swept (i + 1) j k := by
  have hnext := Fin.val_add_one i
  have hlast : i = Fin.last n ↔ i.val = n := Fin.ext_iff
  simp only [Swept, Fin.ext_iff, Fin.le_def, Fin.lt_def, hlast, ne_eq] at *
  split at hnext <;> split <;> split <;> omega

/-- The way from one position to the other. -/
def steps (i j : Fin (n + 1)) : Nat := if i ≤ j then j - i else j + (n + 1) - i

theorem steps_next (h : i ≠ j) : steps (i + 1) j + 1 = steps i j := by
  have hnext := Fin.val_add_one i
  have hlast : i = Fin.last n ↔ i.val = n := Fin.ext_iff
  simp only [steps, Fin.ext_iff, Fin.le_def, hlast, ne_eq] at *
  split at hnext <;> split <;> split <;> omega

theorem steps_lt (i j : Fin (n + 1)) : steps i j < n + 1 := by
  rw [steps]
  split
  · omega
  next h =>
    rw [Fin.not_le, Fin.lt_def] at h
    omega

theorem sweep_apply {fuel : Nat} (h : steps i j ≤ fuel) :
    sweep z j fuel i f k = if Swept i j k then z else f k := by
  induction fuel generalizing i f with
  | zero =>
    have heq : i = j := by
      by_contra hne
      have := steps_next hne
      omega
    rw [sweep, heq, if_neg (not_swept_self j k)]
  | succ fuel ih =>
    rw [sweep]
    by_cases heq : i = j
    · rw [if_pos heq, heq, if_neg (not_swept_self j k)]
    · have hsteps := steps_next heq
      rw [if_neg heq, ih (by omega), if_congr (swept_next heq) rfl rfl]
      by_cases hk : k = i + 1
      · rw [hk, update_self, if_pos (Or.inl rfl), ite_self]
      · rw [update_of_ne hk]
        simp only [hk, false_or]

end Mbsd.Lib.RingSweep
