import Mathlib.Data.Int.ModEq
import Mathlib.Tactic.Linarith
import Mathlib.Tactic.Positivity
import Mathlib.Tactic.Ring

/-! Times in a wheel of several levels.  A level counts in units, each `B` units of the level below;
a time has on each level the digit of its count, so that the digits of a stretch of time are a range
that may go around the end. -/

namespace Mbsd.Lib.DigitWheel

variable {B u : Int} {a b c x : Int} {l m : Nat}

/-- The units of level `l` that are complete at time `x`, where level 0 counts in units of `u`. -/
def count (u B : Int) (l : Nat) (x : Int) : Int := x / (u * B ^ l)

section Count

variable (hu : 0 < u) (hB : 0 < B)

include hu hB

theorem unit_pos : 0 < u * B ^ l := by positivity

theorem count_mono (h : a ≤ b) : count u B l a ≤ count u B l b :=
  Int.ediv_le_ediv (unit_pos hu hB) h

theorem count_succ : count u B (l + 1) x = count u B l x / B := by
  have hpos : (0 : Int) ≤ u * B ^ l := Int.le_of_lt (unit_pos hu hB)
  rw [count, count, Int.ediv_ediv_of_nonneg hpos]
  congr 1
  ring

theorem count_eq_of_le (hlm : l ≤ m) (h : count u B l a = count u B l b) :
    count u B m a = count u B m b := by
  induction m, hlm using Nat.le_induction with
  | base => exact h
  | succ m hm ih => rw [count_succ hu hB, count_succ hu hB, ih]

theorem count_lt (h : a + u * B ^ l ≤ b) : count u B l a < count u B l b := by
  have hpos := unit_pos (l := l) hu hB
  calc count u B l a < a / (u * B ^ l) + 1 := Int.lt_succ _
    _ = (a + 1 * (u * B ^ l)) / (u * B ^ l) := (Int.add_mul_ediv_right _ _ (ne_of_gt hpos)).symm
    _ ≤ b / (u * B ^ l) := Int.ediv_le_ediv hpos (by rwa [one_mul])

theorem count_le_lap (h : b < a + B * (u * B ^ l)) : count u B l b ≤ count u B l a + B := by
  have hpos := unit_pos (l := l) hu hB
  calc count u B l b ≤ (a + B * (u * B ^ l)) / (u * B ^ l) :=
        Int.ediv_le_ediv hpos (Int.le_of_lt h)
    _ = count u B l a + B := Int.add_mul_ediv_right _ _ (ne_of_gt hpos)

end Count

section Digit

theorem digit_le_iff (hB : 0 < B) (hab : a ≤ b) (hlap : b < a + B) : a % B ≤ b % B ↔ a / B = b / B := by
  have ha := Int.mul_ediv_add_emod a B
  have hb := Int.mul_ediv_add_emod b B
  constructor
  · intro hle
    have hq : a / B ≤ b / B := Int.ediv_le_ediv hB hab
    by_contra hne
    have hlt : a / B + 1 ≤ b / B := lt_of_le_of_ne hq hne
    have hmul : B * (a / B + 1) ≤ B * (b / B) := Int.mul_le_mul_of_nonneg_left hlt hB.le
    linarith
  · intro heq
    rw [heq] at ha
    linarith

theorem digit_ne (hab : a < b) (hlap : b < a + B) : a % B ≠ b % B := by
  intro heq
  have hdvd : B ∣ b - a := Int.ModEq.dvd heq
  have := Int.le_of_dvd (by linarith) hdvd
  linarith

theorem digit_reach (hax : a ≤ x) (hxb : x ≤ b) (hlap : b < a + B) :
    ∃ j : Nat, (j : Int) < B ∧ x % B = (a % B + j) % B ∧
      ∀ i : Nat, i < j → (a % B + i) % B ≠ b % B := by
  have hj : ((x - a).toNat : Int) = x - a := Int.toNat_of_nonneg (by linarith)
  refine ⟨(x - a).toNat, by linarith, ?_, fun i hi => ?_⟩
  · rw [Int.emod_add_emod, hj]
    congr 1
    ring
  · have hi' : (i : Int) < x - a := by rw [← hj]; exact_mod_cast hi
    rw [Int.emod_add_emod]
    exact digit_ne (by linarith) (by linarith)

end Digit

end Mbsd.Lib.DigitWheel
