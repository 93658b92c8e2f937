import Mathlib.Data.List.Basic

/-! An mbuf chain, as the bytes that it holds. -/

namespace Mbsd.Kern.UipcMbuf

abbrev Mbuf := List (BitVec 8)

def mAdj (mp : Mbuf) (reqLen : Int) : Mbuf :=
  if reqLen ≥ 0 then mp.drop reqLen.toNat else mp.take (mp.length - (-reqLen).toNat)

theorem mAdj_natCast (mp : Mbuf) (n : Nat) : mAdj mp n = mp.drop n := by
  rw [mAdj, if_pos (Int.natCast_nonneg n), Int.toNat_natCast]

end Mbsd.Kern.UipcMbuf
