import Mathlib.Algebra.Order.BigOperators.Group.List
import Mathlib.Data.Nat.Count
import Mathlib.Data.Set.Card

/-! How many numbers of a range a test holds of. -/

namespace Mbsd.Lib.CountIn

open Nat Bool

variable {f g : Nat → Bool} {lo n m N : Nat}

/-- The numbers of `[lo, lo + n)` that pass. -/
def countIn (f : Nat → Bool) (lo n : Nat) : Nat := Nat.count (fun i => f (lo + i) = true) n

theorem countIn_zero : countIn f lo 0 = 0 := count_zero _

theorem countIn_add (f : Nat → Bool) (lo n m : Nat) :
    countIn f lo (n + m) = countIn f lo n + countIn f (lo + n) m := by
  rw [countIn, count_add]
  simp only [countIn, Nat.add_assoc]

theorem countIn_one (f : Nat → Bool) (lo : Nat) : countIn f lo 1 = (f lo).toNat := by
  rw [countIn, count_succ, count_zero]
  cases h : f (lo + 0) <;> simp_all

theorem countIn_congr (h : ∀ x, lo ≤ x → x < lo + n → f x = g x) :
    countIn f lo n = countIn g lo n := by
  induction n with
  | zero => rw [countIn_zero, countIn_zero]
  | succ n ih =>
    rw [countIn_add, countIn_add, countIn_one, countIn_one,
      ih fun x hlo hhi => h x hlo (by omega), h (lo + n) (by omega) (by omega)]

theorem countIn_shift (f : Nat → Bool) (a lo n : Nat) :
    countIn (fun x => f (a + x)) lo n = countIn f (a + lo) n := by
  simp only [countIn, Nat.add_assoc]

theorem countIn_le (f : Nat → Bool) (lo n : Nat) : countIn f lo n ≤ n := count_le _

theorem countIn_of_all (h : ∀ x, lo ≤ x → x < lo + n → f x = true) : countIn f lo n = n := by
  induction n with
  | zero => exact countIn_zero
  | succ n ih =>
    rw [countIn_add, countIn_one, ih fun x hlo hhi => h x hlo (by omega),
      h (lo + n) (by omega) (by omega), toNat_true]

theorem countIn_eq_zero_iff : countIn f lo n = 0 ↔ ∀ x, lo ≤ x → x < lo + n → f x = false := by
  induction n with
  | zero => exact iff_of_true countIn_zero fun x hlo hhi => by omega
  | succ n ih =>
    rw [countIn_add, countIn_one, Nat.add_eq_zero_iff, ih, toNat_eq_zero]
    constructor
    · rintro ⟨hall, hlast⟩ x hlo hhi
      rcases Nat.lt_or_ge x (lo + n) with hlt | hge
      · exact hall x hlo hlt
      · rw [show x = lo + n by omega, hlast]
    · exact fun hall =>
        ⟨fun x hlo hhi => hall x hlo (by omega), hall (lo + n) (by omega) (by omega)⟩

theorem all_of_countIn (h : countIn f lo n = n) : ∀ x, lo ≤ x → x < lo + n → f x = true := by
  induction n with
  | zero => exact fun x hlo hhi => by omega
  | succ n ih =>
    have hle := countIn_le f lo n
    rw [countIn_add, countIn_one] at h
    cases hlast : f (lo + n) with
    | false =>
      rw [hlast, toNat_false] at h
      omega
    | true =>
      rw [hlast, toNat_true] at h
      intro x hlo hhi
      rcases Nat.lt_or_ge x (lo + n) with hlt | hge
      · exact ih (by omega) x hlo hlt
      · rw [show x = lo + n by omega, hlast]

theorem countIn_split (f : Nat → Bool) (h : lo + n ≤ N) :
    countIn f 0 N = countIn f 0 lo + countIn f lo n + countIn f (lo + n) (N - (lo + n)) := by
  have hN : N = lo + (n + (N - (lo + n))) := by omega
  rw [hN, countIn_add, countIn_add, Nat.zero_add, ← hN, Nat.add_assoc]

theorem countIn_insert (h : lo + n ≤ N) (hf : ∀ x, lo ≤ x → x < lo + n → f x = false)
    (hg : ∀ x < N, g x = (f x || decide (lo ≤ x ∧ x < lo + n))) :
    countIn g 0 N = countIn f 0 N + n := by
  have hout : ∀ a m, a + m ≤ N → (a + m ≤ lo ∨ lo + n ≤ a) → countIn g a m = countIn f a m :=
    fun a m hle hcase => countIn_congr fun x hlo hhi => by
      rw [hg x (by omega), decide_eq_false (by omega), Bool.or_false]
  have hin : countIn g lo n = n := countIn_of_all fun x hlo hhi => by
    rw [hg x (by omega), decide_eq_true ⟨hlo, hhi⟩, Bool.or_true]
  rw [countIn_split g h, countIn_split f h, hin, hout 0 lo (by omega) (by omega),
    hout (lo + n) _ (by omega) (by omega), countIn_eq_zero_iff.mpr hf]
  omega

theorem countIn_erase (h : lo + n ≤ N)
    (hg : ∀ x < N, g x = (f x && !decide (lo ≤ x ∧ x < lo + n))) :
    countIn g 0 N + countIn f lo n = countIn f 0 N := by
  have hout : ∀ a m, a + m ≤ N → (a + m ≤ lo ∨ lo + n ≤ a) → countIn g a m = countIn f a m :=
    fun a m hle hcase => countIn_congr fun x hlo hhi => by
      rw [hg x (by omega), decide_eq_false (by omega), Bool.not_false, Bool.and_true]
  have hin : countIn g lo n = 0 := countIn_eq_zero_iff.mpr fun x hlo hhi => by
    rw [hg x (by omega), decide_eq_true ⟨hlo, hhi⟩, Bool.not_true, Bool.and_false]
  rw [countIn_split g h, countIn_split f h, hin, hout 0 lo (by omega) (by omega),
    hout (lo + n) _ (by omega) (by omega)]
  omega

section Bits

theorem countIn_testBit_succ (k w : Nat) :
    countIn k.testBit 0 (w + 1) = k % 2 + countIn (k / 2).testBit 0 w := by
  have hrest : countIn k.testBit (0 + 1) w = countIn (k / 2).testBit 0 w := by
    rw [Nat.zero_add, ← countIn_shift k.testBit 1 0 w]
    exact countIn_congr fun x _ _ => by rw [Nat.add_comm, testBit_succ]
  rw [Nat.add_comm w 1, countIn_add, hrest, countIn_one, testBit_zero]
  rcases mod_two_eq_zero_or_one k with hmod | hmod <;> rw [hmod] <;> rfl

theorem countIn_and_pred {k w : Nat} (hk : 0 < k) (hw : k < 2 ^ w) :
    countIn (k &&& (k - 1)).testBit 0 w + 1 = countIn k.testBit 0 w := by
  induction w generalizing k with
  | zero => omega
  | succ w ih =>
    have heven : (k &&& (k - 1)) % 2 = 0 := by
      refine (mod_two_eq_zero_or_one _).resolve_right fun hodd => ?_
      obtain ⟨hone, hone'⟩ := and_mod_two_eq_one.mp hodd
      omega
    rw [countIn_testBit_succ, countIn_testBit_succ, and_div_two, heven]
    rcases mod_two_eq_zero_or_one k with hmod | hmod
    · rw [show (k - 1) / 2 = k / 2 - 1 by omega, hmod, Nat.zero_add, Nat.zero_add]
      exact ih (by omega) (by omega)
    · rw [show (k - 1) / 2 = k / 2 by omega, hmod, Nat.and_self]
      omega

end Bits

end Mbsd.Lib.CountIn

/-! The weight of the entries of a table, and what it becomes when one entry changes. -/

namespace Mbsd.Lib.Tally

open List Option

variable {α : Type} {w : α → Nat} {l l' : List α} {a b : α} {i : Nat}

def tally (w : α → Nat) (l : List α) : Nat := (l.map w).sum

@[simp] theorem tally_nil : tally w [] = 0 := rfl

@[simp] theorem tally_cons (w : α → Nat) (a : α) (l : List α) :
    tally w (a :: l) = w a + tally w l := sum_cons

@[simp] theorem tally_append (w : α → Nat) (l l' : List α) :
    tally w (l ++ l') = tally w l + tally w l' := by
  rw [tally, map_append, sum_append, tally, tally]

theorem tally_perm (w : α → Nat) (h : l.Perm l') : tally w l = tally w l' := (h.map w).sum_eq

theorem tally_set (w : α → Nat) (h : l[i]? = some a) (b : α) :
    tally w (l.set i b) + w a = tally w l + w b := by
  induction l generalizing i with
  | nil => cases h
  | cons x l ih =>
    cases i with
    | zero =>
      obtain rfl : x = a := some.inj h
      simp only [set_cons_zero, tally_cons]
      omega
    | succ i =>
      have := ih (i := i) h
      simp only [set_cons_succ, tally_cons]
      omega

theorem tally_set_eq (h : l[i]? = some a) (hw : w b = w a) :
    tally w (l.set i b) = tally w l := by
  have := tally_set w h b
  omega

theorem le_tally (h : a ∈ l) : w a ≤ tally w l := by
  induction h with
  | head => exact Nat.le_add_right ..
  | tail x _ ih => exact Nat.le_trans ih (Nat.le_add_left ..)

theorem tally_eq_zero : tally w l = 0 ↔ ∀ a ∈ l, w a = 0 := by
  induction l with
  | nil => simp
  | cons x l ih => simp only [tally_cons, Nat.add_eq_zero_iff, ih, forall_mem_cons]

theorem add_le_tally {j : Nat} (hi : l[i]? = some a) (hj : l[j]? = some b) (hij : i ≠ j) :
    w a + w b ≤ tally w l := by
  induction l generalizing i j with
  | nil => cases hi
  | cons x l ih =>
    rw [tally_cons]
    cases i with
    | zero =>
      cases j with
      | zero => exact absurd rfl hij
      | succ j =>
        obtain rfl : x = a := some.inj hi
        have hl : b ∈ l := mem_of_getElem? hj
        exact Nat.add_le_add_left (le_tally hl) _
    | succ i =>
      cases j with
      | zero =>
        obtain rfl : x = b := some.inj hj
        have hl : a ∈ l := mem_of_getElem? hi
        exact Nat.add_comm .. ▸ Nat.add_le_add_left (le_tally hl) _
      | succ j =>
        have := ih (i := i) (j := j) hi hj fun h => hij (congrArg _ h)
        omega

end Mbsd.Lib.Tally

/-! How many of some keys a partial map has a value at. -/

namespace Mbsd.Lib.Occupied

open Function

variable {α β : Type}

noncomputable def occupied (P : α → Prop) (f : α → Option β) : Nat :=
  {k | P k ∧ f k ≠ none}.ncard

variable {P : α → Prop} {f : α → Option β} {k : α}

theorem occupied_congr {g : α → Option β} (h : ∀ k, P k → f k = g k) :
    occupied P f = occupied P g := by
  apply congrArg Set.ncard
  ext k
  exact and_congr_right fun hk => by rw [h k hk]

theorem occupied_eq_zero (hP : {k | P k}.Finite) : occupied P f = 0 ↔ ∀ k, P k → f k = none := by
  rw [occupied, Set.ncard_eq_zero (hP.subset fun k hk => hk.1), Set.eq_empty_iff_forall_notMem]
  exact forall_congr' fun k => by simp

variable [DecidableEq α]

theorem occupied_update_of_not {v : Option β} (hk : ¬ P k) :
    occupied P (update f k v) = occupied P f := by
  apply occupied_congr
  intro k' hk'
  apply update_of_ne
  rintro rfl
  exact hk hk'

theorem occupied_update_some {b : β} (hP : {k | P k}.Finite) (hk : P k) (hf : f k = none) :
    occupied P (update f k (some b)) = occupied P f + 1 := by
  have hset : {k' | P k' ∧ update f k (some b) k' ≠ none} =
      insert k {k' | P k' ∧ f k' ≠ none} := by
    ext k'
    by_cases h : k' = k
    · subst h
      simp [hk]
    · simp [h]
  rw [occupied, hset, Set.ncard_insert_of_notMem (by simp [hf]) (hP.subset fun k hk => hk.1)]
  rfl

theorem occupied_update_none (hP : {k | P k}.Finite) (hk : P k) (hf : f k ≠ none) :
    occupied P (update f k none) + 1 = occupied P f := by
  obtain ⟨b, hb⟩ := Option.ne_none_iff_exists'.mp hf
  have h := occupied_update_some (f := update f k none) (b := b) hP hk
    (update_self k none f)
  rw [update_idem, ← hb, update_eq_self] at h
  exact h.symm

end Mbsd.Lib.Occupied
