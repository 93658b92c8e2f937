import Mathlib.Tactic.Ring

/-! Positions of an unbounded stream, numbered by words of `w` bits that wrap.  Two positions less
than half a round apart compare as their numbers do. -/

namespace Mbsd.Lib.SeqSpace

open BitVec

variable {w : Nat}

/-- The number of position `n`, when position 0 has the number `base`. -/
def seqAt (base : BitVec w) (n : Nat) : BitVec w := base + BitVec.ofNat w n

variable {base : BitVec w} {m n k : Nat}

@[simp] theorem seqAt_zero (base : BitVec w) : seqAt base 0 = base := by simp [seqAt]

theorem seqAt_add (base : BitVec w) (n k : Nat) :
    seqAt base (n + k) = seqAt base n + BitVec.ofNat w k := by
  rw [seqAt, seqAt, ofNat_add, BitVec.add_assoc]

theorem seqAt_sub (base : BitVec w) (m n : Nat) :
    seqAt base m - seqAt base n = BitVec.ofInt w (m - n) := by
  apply eq_of_toInt_eq
  rw [toInt_ofInt, seqAt, seqAt, toInt_sub, toInt_add, toInt_add, toInt_ofNat', toInt_ofNat']
  simp

theorem toInt_seqAt_sub (hw : 0 < w) (hlo : -2 ^ (w - 1) ≤ (m : Int) - n)
    (hhi : (m : Int) - n < 2 ^ (w - 1)) : (seqAt base m - seqAt base n).toInt = m - n := by
  rw [seqAt_sub, toInt_ofInt_eq_self hw hlo hhi]

theorem toNat_seqAt_sub (hle : n ≤ m) (hlt : m < n + 2 ^ w) :
    (seqAt base m - seqAt base n).toNat = m - n := by
  obtain ⟨k, rfl⟩ := Nat.exists_eq_add_of_le hle
  rw [seqAt_add, BitVec.add_comm, BitVec.add_sub_cancel, toNat_ofNat, Nat.add_sub_cancel_left,
    Nat.mod_eq_of_lt (by omega)]

theorem seqAt_inj (hle : n ≤ m) (hlt : m < n + 2 ^ w) : seqAt base m = seqAt base n ↔ m = n := by
  refine ⟨fun h => ?_, fun h => by rw [h]⟩
  have hsub : (seqAt base m - seqAt base n).toNat = m - n := toNat_seqAt_sub hle hlt
  rw [h, BitVec.sub_self, toNat_zero] at hsub
  omega

end Mbsd.Lib.SeqSpace
