import Mbsd.Lib.SeqSpace

/-! TCP sequence numbers: 32-bit numbers that are compared by their signed difference. -/

namespace Mbsd.Netinet.TcpSeq

open Lib.SeqSpace

abbrev Seq := BitVec 32

def seqLt (a b : Seq) : Bool := (a - b).toInt < 0

def seqLeq (a b : Seq) : Bool := (a - b).toInt ≤ 0

def seqGt (a b : Seq) : Bool := (a - b).toInt > 0

def seqGeq (a b : Seq) : Bool := (a - b).toInt ≥ 0

def seqMin (a b : Seq) : Seq := if seqLt a b then a else b

def seqMax (a b : Seq) : Seq := if seqGt a b then a else b

def Near (m n : Nat) : Prop := m < n + 2 ^ 31 ∧ n < m + 2 ^ 31

variable {base : Seq} {m n : Nat}

section

variable (h : Near m n)

include h

theorem Near.toInt_sub : (seqAt base m - seqAt base n).toInt = m - n := by
  obtain ⟨hm, hn⟩ := h
  exact toInt_seqAt_sub (by decide) (by omega) (by omega)

theorem Near.seqLt : seqLt (seqAt base m) (seqAt base n) = decide (m < n) := by
  rw [TcpSeq.seqLt, h.toInt_sub]
  exact decide_eq_decide.mpr (by omega)

theorem Near.seqLeq : seqLeq (seqAt base m) (seqAt base n) = decide (m ≤ n) := by
  rw [TcpSeq.seqLeq, h.toInt_sub]
  exact decide_eq_decide.mpr (by omega)

theorem Near.seqGt : seqGt (seqAt base m) (seqAt base n) = decide (n < m) := by
  rw [TcpSeq.seqGt, h.toInt_sub]
  exact decide_eq_decide.mpr (by omega)

theorem Near.seqGeq : seqGeq (seqAt base m) (seqAt base n) = decide (n ≤ m) := by
  rw [TcpSeq.seqGeq, h.toInt_sub]
  exact decide_eq_decide.mpr (by omega)

theorem Near.seq_inj : seqAt base m = seqAt base n ↔ m = n := by
  obtain ⟨hm, hn⟩ := h
  rcases Nat.le_total n m with hle | hle
  · exact seqAt_inj hle (by omega)
  · rw [eq_comm, seqAt_inj hle (by omega), eq_comm]

end

end Mbsd.Netinet.TcpSeq
