import Mathlib.Tactic.Common

/-! A scan in one pass for the longest run of free cells.  The cells have one width, and places are
counted in units below a cell. -/

namespace Mbsd.Lib.LongestRun

open Nat

/-- The best range so far, and the first place of the run that may go on. -/
structure Scan where
  inRun : Bool
  b : Nat
  e : Nat
  maxb : Nat
  maxe : Nat
  deriving DecidableEq, Repr

namespace Scan

/-- The run ends at `x`. -/
def close (s : Scan) (x : Nat) : Scan :=
  if s.maxe - s.maxb < x - s.b then ⟨false, s.b, x, s.b, x⟩ else { s with inRun := false, e := x }

/-- A run begins at `x`. -/
def start (s : Scan) (x : Nat) : Scan := { s with inRun := true, b := x }

/-- Everything from `x` on is free. -/
def free (s : Scan) (x : Nat) : Scan := if s.inRun then s else s.start x

/-- Nothing from `x` on is a free cell. -/
def used (s : Scan) (x : Nat) : Scan := if s.inRun then s.close x else s

end Scan

/-- The scan of `n` cells from cell `q` on. -/
def scan (f : Nat → Bool) (w : Nat) : (q n : Nat) → Scan → Scan
  | _, 0, s => s
  | q, n + 1, s => scan f w (q + 1) n (if f q then s.free (q * w) else s.used (q * w))

variable {f g : Nat → Bool} {w q m n i j : Nat} {s : Scan}

theorem scan_succ (f : Nat → Bool) (w q n : Nat) (s : Scan) : scan f w q (n + 1) s =
      scan f w (q + 1) n (if f q then s.free (q * w) else s.used (q * w)) := rfl

theorem scan_append (f : Nat → Bool) (w q m n : Nat) (s : Scan) :
    scan f w q (m + n) s = scan f w (q + m) n (scan f w q m s) := by
  induction m generalizing q s with
  | zero => rw [Nat.zero_add]; rfl
  | succ m ih => rw [succ_add, scan_succ, ih, scan_succ, Nat.add_assoc, Nat.add_comm 1]

theorem free_free (x y : Nat) : (s.free x).free y = s.free x := by
  cases h : s.inRun with
  | true => rw [Scan.free, Scan.free, if_pos h, if_pos h]
  | false => rw [Scan.free, Scan.free, h]; rfl

theorem used_used (x y : Nat) : (s.used x).used y = s.used x := by
  have hclose : (s.close x).inRun = false := by
    rw [Scan.close]
    split <;> rfl
  cases h : s.inRun with
  | true => rw [Scan.used, Scan.used, if_pos h, hclose, if_neg Bool.false_ne_true]
  | false =>
    have hs : s.used x = s := by rw [Scan.used, h, if_neg Bool.false_ne_true]
    rw [hs, Scan.used, h, if_neg Bool.false_ne_true]

theorem scan_of_free (hn : 0 < n) (h : ∀ k, q ≤ k → k < q + n → f k = true) :
    scan f w q n s = s.free (q * w) := by
  induction n generalizing q s with
  | zero => exact absurd hn (Nat.lt_irrefl 0)
  | succ n ih =>
    rw [scan_succ, h q (Nat.le_refl q) (by omega), if_pos rfl]
    rcases Nat.eq_zero_or_pos n with rfl | hpos
    · rfl
    · rw [ih hpos fun k hlo hhi => h k (by omega) (by omega), free_free]

theorem scan_of_used (hn : 0 < n) (h : ∀ k, q ≤ k → k < q + n → f k = false) :
    scan f w q n s = s.used (q * w) := by
  induction n generalizing q s with
  | zero => exact absurd hn (Nat.lt_irrefl 0)
  | succ n ih =>
    rw [scan_succ, h q (Nat.le_refl q) (by omega), if_neg Bool.false_ne_true]
    rcases Nat.eq_zero_or_pos n with rfl | hpos
    · rfl
    · rw [ih hpos fun k hlo hhi => h k (by omega) (by omega), used_used]

/-- All cells from `i` to `j` are free. -/
def Row (f : Nat → Bool) (i j : Nat) : Prop := ∀ k, i ≤ k → k < j → f k = true

/-- The best range is a row of the first `q` cells, and an empty one is at 0. -/
def Best (f : Nat → Bool) (w q : Nat) (s : Scan) : Prop :=
  ∃ i j, s.maxb = i * w ∧ s.maxe = j * w ∧ (i < j ∨ i = 0 ∧ j = 0) ∧ j ≤ q ∧ Row f i j

/-- What a scan of the first `q` cells knows. -/
structure Knows (f : Nat → Bool) (w q : Nat) (s : Scan) : Prop where
  best : Best f w q s
  run : s.inRun = true → ∃ c < q, s.b = c * w ∧ Row f c q ∧ (c = 0 ∨ f (c - 1) = false)
  ended : s.inRun = false → q = 0 ∨ f (q - 1) = false
  longest : ∀ i j, j ≤ q → Row f i j →
    (j - i) * w ≤ s.maxe - s.maxb ∨ s.inRun = true ∧ s.b ≤ i * w

theorem knows_zero (f : Nat → Bool) (w : Nat) : Knows f w 0 ⟨false, 0, 0, 0, 0⟩ where
  best := ⟨0, 0, (Nat.zero_mul w).symm, (Nat.zero_mul w).symm, .inr ⟨rfl, rfl⟩, Nat.le_refl 0,
    fun k _ hk => absurd hk (Nat.not_lt_zero k)⟩
  run h := absurd h Bool.false_ne_true
  ended _ := .inl rfl
  longest i j hj _ := by
    rw [le_zero.mp hj, Nat.zero_sub, Nat.zero_mul]
    exact .inl (Nat.zero_le _)

theorem Row.start_le {c : Nat} (h : Row f i j) (hc : c = 0 ∨ f (c - 1) = false) (hj : c ≤ j) :
    c ≤ i := by
  rcases hc with rfl | hc
  · exact Nat.zero_le i
  · by_contra hlt
    rw [h (c - 1) (by omega) (by omega)] at hc
    exact Bool.false_ne_true hc.symm

theorem Row.not_succ (h : Row f i (q + 1)) (hq : f q = false) : q + 1 ≤ i := by
  by_contra hlt
  rw [h q (by omega) (lt_succ_self q)] at hq
  exact Bool.false_ne_true hq.symm

section

variable (h : Knows f w q s)

include h

theorem Knows.free (hq : f q = true) : Knows f w (q + 1) (s.free (q * w)) := by
  obtain ⟨i₀, j₀, hmaxb, hmaxe, hij, hjq, hbest⟩ := h.best
  cases hrun : s.inRun with
  | true =>
    obtain ⟨c, hcq, hb, hrow, hstart⟩ := h.run hrun
    rw [Scan.free, if_pos hrun]
    refine ⟨⟨i₀, j₀, hmaxb, hmaxe, hij, by omega, hbest⟩, fun _ => ⟨c, by omega, hb, ?_, hstart⟩,
      fun hno => absurd (hrun.symm.trans hno) nofun, fun i j hj hall => ?_⟩
    · intro k hlo hhi
      rcases Nat.lt_succ_iff_lt_or_eq.mp hhi with hlt | rfl
      · exact hrow k hlo hlt
      · exact hq
    · rcases Nat.lt_or_ge q j with hlt | hge
      · refine .inr ⟨hrun, ?_⟩
        rw [hb]
        exact Nat.mul_le_mul_right w (hall.start_le hstart (by omega))
      · exact h.longest i j hge hall
  | false =>
    rw [Scan.free, hrun, if_neg Bool.false_ne_true]
    refine ⟨⟨i₀, j₀, hmaxb, hmaxe, hij, by omega, hbest⟩,
      fun _ => ⟨q, lt_succ_self q, rfl, fun k hlo hhi => ?_, h.ended hrun⟩,
      fun hno => absurd hno nofun, fun i j hj hall => ?_⟩
    · rwa [Nat.le_antisymm (le_of_lt_succ hhi) hlo]
    · rcases Nat.lt_or_ge q j with hlt | hge
      · exact .inr ⟨rfl, Nat.mul_le_mul_right w (hall.start_le (h.ended hrun) (by omega))⟩
      · exact .inl ((h.longest i j hge hall).resolve_right fun hno =>
          absurd (hrun.symm.trans hno.1) nofun)

theorem Knows.close (hrun : s.inRun = true) : Best f w q (s.close (q * w)) ∧
    ∀ i j, j ≤ q → Row f i j → (j - i) * w ≤ (s.close (q * w)).maxe - (s.close (q * w)).maxb := by
  obtain ⟨c, hcq, hb, hrow, -⟩ := h.run hrun
  rw [Scan.close]
  split
  next hlt =>
    refine ⟨⟨c, q, hb, rfl, .inl hcq, Nat.le_refl q, hrow⟩, fun i j hj hall => ?_⟩
    rcases h.longest i j hj hall with hle | ⟨-, hle⟩
    · exact Nat.le_trans hle (Nat.le_of_lt hlt)
    · have hmul := Nat.mul_le_mul_right w hj
      rw [Nat.sub_mul]
      dsimp only
      omega
  next hge =>
    refine ⟨h.best, fun i j hj hall => ?_⟩
    rcases h.longest i j hj hall with hle | ⟨-, hle⟩
    · exact hle
    · have hmul := Nat.mul_le_mul_right w hj
      rw [Nat.sub_mul]
      dsimp only
      omega

theorem Knows.used (hq : f q = false) : Knows f w (q + 1) (s.used (q * w)) := by
  have hlast (i j : Nat) (hj : j ≤ q + 1) (hall : Row f i j) : j ≤ q ∨ j ≤ i := by
    rcases le_succ_iff.mp hj with hle | rfl
    · exact .inl hle
    · exact .inr (hall.not_succ hq)
  cases hrun : s.inRun with
  | true =>
    obtain ⟨⟨i₀, j₀, hmaxb, hmaxe, hij, hjq, hbest⟩, hlongest⟩ := h.close hrun
    have hclose : (s.close (q * w)).inRun = false := by
      rw [Scan.close]
      split <;> rfl
    rw [Scan.used, if_pos hrun]
    refine ⟨⟨i₀, j₀, hmaxb, hmaxe, hij, by omega, hbest⟩,
      fun hno => absurd (hclose.symm.trans hno) nofun, fun _ => .inr hq, fun i j hj hall => .inl ?_⟩
    rcases hlast i j hj hall with hle | hle
    · exact hlongest i j hle hall
    · rw [Nat.sub_eq_zero_of_le hle, Nat.zero_mul]
      exact Nat.zero_le _
  | false =>
    obtain ⟨i₀, j₀, hmaxb, hmaxe, hij, hjq, hbest⟩ := h.best
    rw [Scan.used, hrun, if_neg Bool.false_ne_true]
    refine ⟨⟨i₀, j₀, hmaxb, hmaxe, hij, by omega, hbest⟩,
      fun hno => absurd (hrun.symm.trans hno) nofun, fun _ => .inr hq, fun i j hj hall => .inl ?_⟩
    rcases hlast i j hj hall with hle | hle
    · exact (h.longest i j hle hall).resolve_right fun hno => absurd (hrun.symm.trans hno.1) nofun
    · rw [Nat.sub_eq_zero_of_le hle, Nat.zero_mul]
      exact Nat.zero_le _

theorem Knows.scan (n : Nat) : Knows f w (q + n) (scan f w q n s) := by
  induction n generalizing q s with
  | zero => exact h
  | succ n ih =>
    rw [scan_succ, ← succ_add_eq_add_succ]
    cases hq : f q with
    | true => exact ih (h.free hq)
    | false => exact ih (h.used hq)

theorem Knows.finish : Best f w q (s.used (q * w)) ∧ ∀ i j, j ≤ q → Row f i j →
      (j - i) * w ≤ (s.used (q * w)).maxe - (s.used (q * w)).maxb := by
  cases hrun : s.inRun with
  | true =>
    rw [Scan.used, if_pos hrun]
    exact h.close hrun
  | false =>
    rw [Scan.used, hrun, if_neg Bool.false_ne_true]
    exact ⟨h.best, fun i j hj hall => (h.longest i j hj hall).resolve_right fun hno =>
      absurd (hrun.symm.trans hno.1) nofun⟩

end

end Mbsd.Lib.LongestRun
