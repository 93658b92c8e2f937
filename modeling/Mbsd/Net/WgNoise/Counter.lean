import Mathlib.Data.BitVec
import Mathlib.Data.Nat.Bitwise
import Mbsd.Lib.Ring
import Mbsd.Sys

namespace Mbsd.Net.WgNoise

open Sys Lib.RingWindow List Function

variable {v : BitVec 64}

inductive LongModel | ilp32 | lp64
  deriving DecidableEq, Repr

def counterBitsTotal : Nat := 8192

def LongModel.counterBits : LongModel → Nat
  | .ilp32 => 32
  | .lp64 => 64

def LongModel.counterNum (m : LongModel) : Nat := counterBitsTotal / m.counterBits
def LongModel.counterWindowSize (m : LongModel) : Nat := counterBitsTotal - m.counterBits

def LongModel.rejectAfterMessages (m : LongModel) : BitVec 64 :=
  BitVec.allOnes 64 - BitVec.ofNat 64 m.counterWindowSize - 1

structure NoiseCounter (m : LongModel) where
  cSend : BitVec 64
  cRecv : BitVec 64
  cBacktrack : Nat → BitVec m.counterBits

variable {m : LongModel}

def NoiseCounter.zero : NoiseCounter m := ⟨0, 0, fun _ => 0⟩

def noiseCounterSend (ctr : NoiseCounter m) : NoiseCounter m × BitVec 64 :=
  ({ ctr with cSend := ctr.cSend + 1 }, ctr.cSend)

def clearBacktrack (bt : Nat → BitVec m.counterBits) (indexCtr top : Nat) :
    Nat → BitVec m.counterBits :=
  (List.range' 1 top).foldl
    (fun bt i => Function.update bt ((i + indexCtr) &&& (m.counterNum - 1)) 0) bt

def NoiseCounter.advance (ctr : NoiseCounter m) (recv : BitVec 64) : NoiseCounter m :=
  let indexRecv := recv.toNat / m.counterBits
  let indexCtr := ctr.cRecv.toNat / m.counterBits
  if ctr.cRecv < recv then
    { ctr with
      cBacktrack :=
        clearBacktrack ctr.cBacktrack indexCtr (min (indexRecv - indexCtr) m.counterNum)
      cRecv := recv }
  else ctr

def noiseCounterRecv (ctr : NoiseCounter m) (recv : BitVec 64) :
    NoiseCounter m × Option Errno :=
  if m.rejectAfterMessages ≤ ctr.cRecv ∨ m.rejectAfterMessages ≤ recv then (ctr, some .EEXIST)
  else if recv + BitVec.ofNat 64 m.counterWindowSize < ctr.cRecv then (ctr, some .EEXIST)
  else
    let ctr := ctr.advance recv
    let indexRecv := recv.toNat / m.counterBits % m.counterNum
    let bit : BitVec m.counterBits := 1#_ <<< (recv.toNat % m.counterBits)
    if ctr.cBacktrack indexRecv &&& bit ≠ 0 then (ctr, some .EEXIST)
    else
      ({ ctr with
          cBacktrack := Function.update ctr.cBacktrack indexRecv (ctr.cBacktrack indexRecv ||| bit) },
        none)

structure CounterRun (m : LongModel) where
  ctr : NoiseCounter m
  accepted : List (BitVec 64)

def CounterRun.record (r : CounterRun m) (v : BitVec 64) :
    NoiseCounter m × Option Errno → CounterRun m
  | (ctr, none) => ⟨ctr, v :: r.accepted⟩
  | (ctr, some _) => ⟨ctr, r.accepted⟩

def CounterRun.recv (r : CounterRun m) (v : BitVec 64) : CounterRun m :=
  r.record v (noiseCounterRecv r.ctr v)

def noiseCounterRun (m : LongModel) (vs : List (BitVec 64)) : CounterRun m :=
  vs.foldl CounterRun.recv ⟨NoiseCounter.zero, []⟩

def largest (vs : List (BitVec 64)) : Nat := (vs.map BitVec.toNat).foldr max 0

theorem LongModel.counterNum_eq (m : LongModel) : ∃ e, m.counterNum = 2 ^ e := by
  cases m
  · exact ⟨8, rfl⟩
  · exact ⟨7, rfl⟩

theorem LongModel.counterNum_pos (m : LongModel) : 0 < m.counterNum := by
  cases m <;> decide

theorem LongModel.counterBits_pos (m : LongModel) : 0 < m.counterBits := by
  cases m <;> decide

theorem LongModel.counterWindowSize_eq (m : LongModel) :
    m.counterWindowSize = m.counterBits * (m.counterNum - 1) := by
  cases m <;> rfl

theorem LongModel.toNat_rejectAfterMessages (m : LongModel) :
    m.rejectAfterMessages.toNat = 2 ^ 64 - 2 - m.counterWindowSize := by
  cases m <;> rfl

def NoiseCounter.ring (ctr : NoiseCounter m) (s j : Nat) : Bool := (ctr.cBacktrack s).getLsbD j

open Classical in
theorem clearBacktrack_apply (bt : Nat → BitVec m.counterBits) (indexCtr top s : Nat) :
    clearBacktrack bt indexCtr top s =
      if ∃ i, 1 ≤ i ∧ i ≤ top ∧ (i + indexCtr) % m.counterNum = s then 0 else bt s := by
  obtain ⟨e, he⟩ := m.counterNum_eq
  induction top with
  | zero =>
    rw [if_neg fun ⟨i, h₁, h₂, _⟩ => by omega]
    rfl
  | succ top ih =>
    rw [clearBacktrack, range'_1_concat, foldl_append]
    change update (clearBacktrack bt indexCtr top) _ _ s = _
    rw [he, Nat.and_two_pow_sub_one_eq_mod, ← he, update_apply, ih]
    by_cases hs : s = (1 + top + indexCtr) % m.counterNum
    · rw [if_pos hs, if_pos ⟨1 + top, by omega, by omega, hs.symm⟩]
    · rw [if_neg hs]
      refine if_congr ⟨?_, ?_⟩ rfl rfl
      · rintro ⟨i, h₁, h₂, h₃⟩
        exact ⟨i, h₁, by omega, h₃⟩
      · rintro ⟨i, h₁, h₂, h₃⟩
        refine ⟨i, h₁, ?_, h₃⟩
        by_contra hlt
        exact hs (by rw [← h₃, show i = 1 + top by omega])

theorem getLsbD_and_bit (w : BitVec m.counterBits) {j : Nat} (hj : j < m.counterBits) :
    w &&& (1#_ <<< j) = 0 ↔ w.getLsbD j = false := by
  constructor
  · intro h
    have := congrArg (fun w => w.getLsbD j) h
    simpa [hj, m.counterBits_pos] using this
  · intro h
    ext i hi
    by_cases hij : i = j
    · subst hij
      simp [← BitVec.getLsbD_eq_getElem, h]
    · have : ¬(j ≤ i ∧ i - j = 0) := by omega
      simp [BitVec.getElem_and, BitVec.getElem_shiftLeft, BitVec.getElem_one]
      omega

/-- The invariant of a run: `c_recv` is the largest accepted value, and the ring tracks the
accepted values of the window below it. -/
structure CounterRun.Inv (r : CounterRun m) : Prop where
  recv_eq : r.ctr.cRecv.toNat = largest r.accepted
  recv_lt : r.ctr.cRecv < m.rejectAfterMessages
  nodup : r.accepted.Nodup
  tracks : Tracks m.counterNum m.counterBits r.ctr.ring
    (r.ctr.cRecv.toNat / m.counterBits) {a | a ∈ r.accepted.map BitVec.toNat}

theorem NoiseCounter.toNat_cRecv_advance (ctr : NoiseCounter m) (recv : BitVec 64) :
    (ctr.advance recv).cRecv.toNat = max recv.toNat ctr.cRecv.toNat := by
  rw [NoiseCounter.advance]
  split
  next h => rw [max_eq_left (le_of_lt h)]
  next h => rw [max_eq_right (not_lt.mp h)]

theorem NoiseCounter.advance_tracks {ctr : NoiseCounter m} {S : Set Nat}
    (h : Tracks m.counterNum m.counterBits ctr.ring (ctr.cRecv.toNat / m.counterBits) S)
    (recv : BitVec 64) : Tracks m.counterNum m.counterBits (ctr.advance recv).ring
      ((ctr.advance recv).cRecv.toNat / m.counterBits) S := by
  rw [NoiseCounter.advance]
  split
  next hlt =>
    refine h.advance m.counterNum_pos (Nat.div_le_div_right (le_of_lt hlt)) ?_ ?_
    · intro s j hs
      simp only [NoiseCounter.ring, clearBacktrack_apply, if_pos hs]
      exact BitVec.getLsbD_zero
    · intro s j hs
      simp only [NoiseCounter.ring, clearBacktrack_apply]
      rw [if_neg fun ⟨i, h₁, h₂, h₃⟩ => hs i h₁ h₂ h₃]
  next => exact h

theorem div_lt_of_window {c v : Nat} (h : c ≤ v + m.counterWindowSize) :
    max v c / m.counterBits < v / m.counterBits + m.counterNum := by
  have hpos := m.counterNum_pos
  have hle : max v c / m.counterBits ≤
      (v + m.counterBits * (m.counterNum - 1)) / m.counterBits :=
    Nat.div_le_div_right (by rw [← m.counterWindowSize_eq]; omega)
  rw [Nat.add_mul_div_left _ _ m.counterBits_pos] at hle
  omega

theorem le_largest {a : BitVec 64} {vs : List (BitVec 64)} (h : a ∈ vs) : a.toNat ≤ largest vs := by
  induction vs with
  | nil => cases h
  | cons v vs ih =>
    rw [largest, map_cons, foldr_cons]
    rcases mem_cons.mp h with rfl | h
    · exact le_max_left _ _
    · exact (ih h).trans (le_max_right _ _)

/-- The condition under which a counter whose largest accepted value is `c` takes `v`. -/
def Acceptable (m : LongModel) (accepted : List (BitVec 64)) (v : BitVec 64) : Prop :=
  v < m.rejectAfterMessages ∧ largest accepted < m.rejectAfterMessages.toNat ∧
    largest accepted ≤ v.toNat + m.counterWindowSize ∧ v ∉ accepted

theorem toNat_add_window (hv : v < m.rejectAfterMessages) :
    (v + BitVec.ofNat 64 m.counterWindowSize).toNat = v.toNat + m.counterWindowSize := by
  have hv' : v.toNat < m.rejectAfterMessages.toNat := hv
  rw [m.toNat_rejectAfterMessages] at hv'
  rw [BitVec.toNat_add, BitVec.toNat_ofNat]
  omega

theorem CounterRun.Inv.bit_iff {r : CounterRun m} (h : r.Inv)
    (hwin : largest r.accepted ≤ v.toNat + m.counterWindowSize) :
    (r.ctr.advance v).cBacktrack (v.toNat / m.counterBits % m.counterNum) &&&
      (1#_ <<< (v.toNat % m.counterBits)) ≠ 0 ↔ v ∈ r.accepted := by
  have hbits := Nat.mod_lt v.toNat m.counterBits_pos
  have htop := r.ctr.toNat_cRecv_advance v
  have htest := (NoiseCounter.advance_tracks h.tracks v).test v.toNat
    (by rw [htop]; exact Nat.div_le_div_right (le_max_left _ _))
    (by rw [htop, h.recv_eq]; exact div_lt_of_window hwin)
  rw [Ne, getLsbD_and_bit _ hbits, Bool.not_eq_false]
  refine htest.trans ?_
  simp [BitVec.toNat_inj]

theorem CounterRun.Inv.recv_reject {r : CounterRun m} (h : r.Inv)
    (hv : ¬Acceptable m r.accepted v) : noiseCounterRecv r.ctr v = (r.ctr, some .EEXIST) := by
  rw [noiseCounterRecv]
  split
  · rfl
  next hlim =>
    rw [not_or, BitVec.not_le, BitVec.not_le] at hlim
    split
    · rfl
    next hwin =>
      have hwin' : largest r.accepted ≤ v.toNat + m.counterWindowSize := by
        rw [← toNat_add_window hlim.2, ← h.recv_eq]
        exact not_lt.mp hwin
      have hlt : largest r.accepted < m.rejectAfterMessages.toNat := by
        rw [← h.recv_eq]
        exact hlim.1
      have hmem : v ∈ r.accepted := by
        by_contra hmem
        exact hv ⟨hlim.2, hlt, hwin', hmem⟩
      have hle : v ≤ r.ctr.cRecv := by
        rw [BitVec.le_def, h.recv_eq]
        exact le_largest hmem
      have hadv : r.ctr.advance v = r.ctr := if_neg (BitVec.not_lt.mpr hle)
      have hbit := (h.bit_iff hwin').mpr hmem
      simp only [hadv] at hbit ⊢
      rw [if_pos hbit]

theorem CounterRun.Inv.recv_accept {r : CounterRun m} (h : r.Inv) (hv : Acceptable m r.accepted v) :
    ∃ ctr, noiseCounterRecv r.ctr v = (ctr, none) ∧ CounterRun.Inv ⟨ctr, v :: r.accepted⟩ := by
  obtain ⟨hlim, hlt, hwin, hmem⟩ := hv
  have htop := r.ctr.toNat_cRecv_advance v
  rw [noiseCounterRecv, if_neg (by rw [not_or, BitVec.not_le, BitVec.not_le]; exact ⟨h.recv_lt, hlim⟩),
    if_neg (by rw [BitVec.lt_def, toNat_add_window hlim, h.recv_eq]; omega)]
  refine ⟨_, if_neg (mt (h.bit_iff hwin).mp hmem), ?_, ?_, ?_, ?_⟩
  · rw [htop, h.recv_eq]
    rfl
  · rw [BitVec.lt_def, htop, h.recv_eq]
    exact max_lt hlim hlt
  · exact List.nodup_cons.mpr ⟨hmem, h.nodup⟩
  · have hset : {a | a ∈ List.map BitVec.toNat (v :: r.accepted)} =
        insert v.toNat {a | a ∈ List.map BitVec.toNat r.accepted} := by
      ext a
      simp
    rw [hset]
    refine (NoiseCounter.advance_tracks h.tracks v).mark ?_ ?_ ?_
    · rw [htop]
      exact Nat.div_le_div_right (le_max_left _ _)
    · rw [htop, h.recv_eq]
      exact div_lt_of_window hwin
    · intro s j
      have hbits := Nat.mod_lt v.toNat m.counterBits_pos
      simp only [NoiseCounter.ring, Function.update_apply]
      split
      next hs =>
        subst hs
        rw [BitVec.getLsbD_or, BitVec.getLsbD_shiftLeft, BitVec.getLsbD_one]
        simp only [Bool.or_eq_true, Bool.and_eq_true, decide_eq_true_eq, Bool.not_eq_true',
          decide_eq_false_iff_not, true_and]
        refine or_congr_right ⟨?_, ?_⟩ <;> omega
      next hs => simp [hs]

theorem noiseCounterRun_concat (m : LongModel) (vs : List (BitVec 64)) (v : BitVec 64) :
    noiseCounterRun m (vs ++ [v]) = (noiseCounterRun m vs).recv v := by
  rw [noiseCounterRun, noiseCounterRun, foldl_concat]

theorem CounterRun.Inv.zero (m : LongModel) : CounterRun.Inv (m := m) ⟨NoiseCounter.zero, []⟩ where
  recv_eq := rfl
  recv_lt := by cases m <;> decide
  nodup := nodup_nil
  tracks := by
    have hring : NoiseCounter.ring (NoiseCounter.zero (m := m)) = fun _ _ => false := by
      funext s j
      exact BitVec.getLsbD_zero
    simpa only [hring, map_nil, not_mem_nil, Set.ofPred_false] using Tracks.zero

theorem noiseCounterRun_inv (m : LongModel) (vs : List (BitVec 64)) :
    (noiseCounterRun m vs).Inv := by
  induction vs using reverseRecOn with
  | nil => exact CounterRun.Inv.zero m
  | append_singleton vs v ih =>
    rw [noiseCounterRun_concat]
    by_cases hv : Acceptable m (noiseCounterRun m vs).accepted v
    · obtain ⟨ctr, hctr, hinv⟩ := ih.recv_accept hv
      rw [CounterRun.recv, hctr]
      exact hinv
    · rw [CounterRun.recv, ih.recv_reject hv]
      exact ih

/-- Replay protection over whole runs from the zeroed counter. -/
theorem noiseCounterRecv_accepts_iff (m : LongModel) (vs : List (BitVec 64)) :
    (noiseCounterRun m vs).accepted.Nodup ∧
    ∀ v, (noiseCounterRecv (noiseCounterRun m vs).ctr v).2 = none ↔ v < m.rejectAfterMessages ∧
      largest (noiseCounterRun m vs).accepted < m.rejectAfterMessages.toNat ∧
      largest (noiseCounterRun m vs).accepted ≤ v.toNat + m.counterWindowSize ∧
      v ∉ (noiseCounterRun m vs).accepted := by
  have hinv := noiseCounterRun_inv m vs
  refine ⟨hinv.nodup, fun v => ⟨?_, ?_⟩⟩
  · intro h
    by_contra hv
    rw [hinv.recv_reject hv] at h
    cases h
  · intro hv
    obtain ⟨ctr, hctr, -⟩ := hinv.recv_accept hv
    rw [hctr]

end Mbsd.Net.WgNoise
