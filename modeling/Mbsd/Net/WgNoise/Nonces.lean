import Mbsd.Net.WgNoise.Keypairs

/-! The nonces that `noise_remote_encrypt` hands out for one keypair, and the counter of the peer
that receives them in order. -/

namespace Mbsd.Net.WgNoise

open Sys List

variable {m : LongModel} {nonces : List (BitVec 64)} {C : NoiseCrypto} {nonce : BitVec 64}

/-- A call of `noise_remote_encrypt` together with the remote it finds and the keypair it uses. -/
structure EncryptCall (m : LongModel) where
  remote : NoiseRemote m
  slot : Fin 3
  current : remote.rCurrent = some slot
  uptime : Timespec
  buf : Bytes

namespace EncryptCall

variable (C : NoiseCrypto) (call : EncryptCall m)

def keypair : NoiseKeypair m := call.remote.rKeypair call.slot

def result : NoiseRemote m × Option Errno × Option NoiseSealed :=
  noiseRemoteEncrypt C call.remote call.uptime call.buf

def keypairAfter : NoiseKeypair m := (call.result C).1.rKeypair call.slot

def sentNonce : Option (BitVec 64) :=
  match (call.result C).2 with
  | (none, out) => out.map NoiseSealed.nonce
  | (some .ESTALE, out) => out.map NoiseSealed.nonce
  | (some _, _) => none

def Usable : Prop :=
  call.keypair.kpValid = true ∧
    noiseTimerExpired call.uptime call.keypair.kpBirthdate rejectAfterTime 0 = false ∧
    call.keypair.kpCtr.cRecv < m.rejectAfterMessages

end EncryptCall

/-- The calls on one keypair in their order, from the send counter `c` on.  Between two calls the
other functions may change the remote and the keypair, except for its send counter. -/
def ConsecutiveFrom (C : NoiseCrypto) : BitVec 64 → List (EncryptCall m) → Prop
  | _, [] => True
  | c, call :: calls =>
    call.keypair.kpCtr.cSend = c ∧ ConsecutiveFrom C (call.keypairAfter C).kpCtr.cSend calls

def sentNonces (C : NoiseCrypto) (calls : List (EncryptCall m)) : List (BitVec 64) :=
  calls.filterMap (EncryptCall.sentNonce C)

def PeerAccepts (m : LongModel) (nonces : List (BitVec 64)) : Prop :=
  ∀ earlier nonce later, nonces = earlier ++ nonce :: later →
    (noiseCounterRecv (noiseCounterRun m earlier).ctr nonce).2 = none

namespace EncryptCall

variable {C : NoiseCrypto} {call : EncryptCall m}

theorem unusable_spec (h : ¬call.Usable) :
    call.sentNonce C = none ∧ (call.keypairAfter C).kpCtr.cSend = call.keypair.kpCtr.cSend := by
  have hchecks : call.keypair.kpValid = false ∨
      noiseTimerExpired call.uptime call.keypair.kpBirthdate rejectAfterTime 0 ∨
      m.rejectAfterMessages ≤ call.keypair.kpCtr.cRecv := by
    by_contra hno
    rw [not_or, not_or, Bool.not_eq_false, Bool.not_eq_true, BitVec.not_le] at hno
    exact h hno
  have hres : call.result C = (call.remote, some .EINVAL, none) := by
    rw [result, noiseRemoteEncrypt, call.current]
    exact if_pos hchecks
  simp only [sentNonce, keypairAfter, hres, keypair, and_self]

theorem usable_spec (h : call.Usable) :
    (call.keypairAfter C).kpCtr.cSend = call.keypair.kpCtr.cSend + 1 ∧
    call.sentNonce C = if m.rejectAfterMessages < call.keypair.kpCtr.cSend then none
      else some call.keypair.kpCtr.cSend := by
  obtain ⟨hvalid, htimer, hrecv⟩ := h
  have hchecks : ¬(call.keypair.kpValid = false ∨
      noiseTimerExpired call.uptime call.keypair.kpBirthdate rejectAfterTime 0 ∨
      m.rejectAfterMessages ≤ call.keypair.kpCtr.cRecv) := by
    rw [not_or, not_or, Bool.not_eq_false, Bool.not_eq_true, BitVec.not_le]
    exact ⟨hvalid, htimer, hrecv⟩
  rw [keypairAfter, sentNonce, result, noiseRemoteEncrypt, call.current]
  simp only [keypair] at hchecks ⊢
  rw [if_neg hchecks]
  by_cases hsend : m.rejectAfterMessages < (call.remote.rKeypair call.slot).kpCtr.cSend
  · simp [noiseCounterSend, hsend]
  · simp only [noiseCounterSend, hsend, if_false]
    split_ifs with hstale <;> simp [hstale]

end EncryptCall

theorem sentNonces_increasing {calls : List (EncryptCall m)} {c : BitVec 64}
    (h : ConsecutiveFrom C c calls) (hlen : c.toNat + calls.length < 2 ^ 64) :
    (sentNonces C calls).Pairwise (· < ·) ∧ ∀ nonce ∈ sentNonces C calls, c ≤ nonce := by
  induction calls generalizing c with
  | nil => exact ⟨Pairwise.nil, fun _ h => by cases h⟩
  | cons call calls ih =>
    obtain ⟨rfl, h⟩ := h
    rw [length_cons] at hlen
    by_cases hu : call.Usable
    · obtain ⟨hafter, hsent⟩ := call.usable_spec (C := C) hu
      have hsucc : (call.keypair.kpCtr.cSend + 1).toNat = call.keypair.kpCtr.cSend.toNat + 1 := by
        rw [BitVec.toNat_add]
        exact Nat.mod_eq_of_lt (by rw [show (1 : BitVec 64).toNat = 1 from rfl]; omega)
      have ih := ih h (by rw [hafter, hsucc]; omega)
      rw [hafter] at ih
      have hlater : ∀ nonce ∈ sentNonces C calls, call.keypair.kpCtr.cSend < nonce := by
        intro nonce hn
        have := ih.2 nonce hn
        rw [BitVec.le_def, hsucc] at this
        exact this
      rw [sentNonces, filterMap_cons, hsent]
      by_cases hlim : m.rejectAfterMessages < call.keypair.kpCtr.cSend
      · rw [if_pos hlim]
        exact ⟨ih.1, fun nonce hn => BitVec.le_of_lt (hlater nonce hn)⟩
      · rw [if_neg hlim]
        refine ⟨pairwise_cons.mpr ⟨hlater, ih.1⟩, fun nonce hn => ?_⟩
        rcases mem_cons.mp hn with rfl | hn
        · exact BitVec.le_refl _
        · exact BitVec.le_of_lt (hlater nonce hn)
    · obtain ⟨hsent, hafter⟩ := call.unusable_spec (C := C) hu
      have ih := ih h (by rw [hafter]; omega)
      rw [hafter] at ih
      rwa [sentNonces, filterMap_cons, hsent]

theorem mem_sentNonces {calls : List (EncryptCall m)} :
    nonce ∈ sentNonces C calls ↔ ∃ call ∈ calls, call.Usable ∧ call.keypair.kpCtr.cSend = nonce ∧
        nonce ≤ m.rejectAfterMessages := by
  rw [sentNonces, mem_filterMap]
  refine exists_congr fun call => and_congr_right fun _ => ?_
  by_cases hu : call.Usable
  · rw [(call.usable_spec hu).2]
    split
    next hlim =>
      refine ⟨nofun, ?_⟩
      rintro ⟨-, rfl, hle⟩
      exact absurd hlim (BitVec.not_lt.mpr hle)
    next hlim =>
      constructor
      · intro h
        cases h
        exact ⟨hu, rfl, BitVec.not_lt.mp hlim⟩
      · rintro ⟨-, rfl, -⟩
        rfl
  · rw [(call.unusable_spec hu).1]
    exact ⟨nofun, fun h => absurd h.1 hu⟩

theorem largest_le {vs : List (BitVec 64)} {bound : Nat} (h : ∀ v ∈ vs, v.toNat ≤ bound) :
    largest vs ≤ bound := by
  induction vs with
  | nil => exact Nat.zero_le _
  | cons v vs ih =>
    exact max_le (h v mem_cons_self) (ih fun w hw => h w (mem_cons_of_mem _ hw))

theorem CounterRun.Inv.recv_next {r : CounterRun m} (h : r.Inv)
    (hlim : nonce < m.rejectAfterMessages) (hnext : ∀ v ∈ r.accepted, v < nonce) :
    ∃ ctr, noiseCounterRecv r.ctr nonce = (ctr, none) := by
  have hle : largest r.accepted ≤ nonce.toNat := largest_le fun v hv => Nat.le_of_lt (hnext v hv)
  have hlim' : nonce.toNat < m.rejectAfterMessages.toNat := hlim
  obtain ⟨ctr, hctr, -⟩ := h.recv_accept
    ⟨hlim, by omega, by omega, fun hmem => BitVec.lt_irrefl _ (hnext nonce hmem)⟩
  exact ⟨ctr, hctr⟩

section

variable (hinc : nonces.Pairwise (· < ·)) (hlim : ∀ nonce ∈ nonces, nonce < m.rejectAfterMessages)

include hinc hlim

theorem noiseCounterRun_increasing : (noiseCounterRun m nonces).accepted = nonces.reverse := by
  induction nonces using reverseRecOn with
  | nil => rfl
  | append_singleton nonces nonce ih =>
    rw [pairwise_append] at hinc
    have ih := ih hinc.1 fun v hv => hlim v (mem_append_left _ hv)
    have hnext : ∀ v ∈ (noiseCounterRun m nonces).accepted, v < nonce := by
      intro v hv
      rw [ih, mem_reverse] at hv
      exact hinc.2.2 v hv nonce (mem_singleton_self _)
    obtain ⟨ctr, hctr⟩ := (noiseCounterRun_inv m nonces).recv_next (hlim nonce (by simp)) hnext
    rw [noiseCounterRun_concat, CounterRun.recv, hctr, reverse_concat, ← ih]
    rfl

theorem peerAccepts_of_lt : PeerAccepts m nonces := by
  rintro earlier nonce later rfl
  rw [pairwise_append] at hinc
  have hacc := noiseCounterRun_increasing hinc.1 fun v hv => hlim v (mem_append_left _ hv)
  obtain ⟨ctr, hctr⟩ := (noiseCounterRun_inv m earlier).recv_next (hlim nonce (by simp))
    (fun v hv => by
      rw [hacc, mem_reverse] at hv
      exact hinc.2.2 v hv nonce mem_cons_self)
  rw [hctr]

end

theorem PeerAccepts.ne_limit (h : PeerAccepts m nonces)
    (hmem : nonce ∈ nonces) : nonce ≠ m.rejectAfterMessages := by
  rintro rfl
  obtain ⟨earlier, later, heq⟩ := append_of_mem hmem
  have := h earlier _ later heq
  rw [noiseCounterRecv, if_pos (.inr (BitVec.le_refl _))] at this
  cases this

/-- The nonces sent under a keypair that `noise_remote_begin_session` made go up one by one, and
the peer takes them all exactly as long as no call finds a usable keypair whose send counter
stands at the limit. -/
theorem sentNonces_agree_iff (C : NoiseCrypto) {calls : List (EncryptCall m)}
    (h : ConsecutiveFrom C 0 calls) (hlen : calls.length < 2 ^ 64) :
    ((sentNonces C calls).Nodup ∧ (sentNonces C calls).Pairwise (· < ·) ∧
      PeerAccepts m (sentNonces C calls)) ↔
    ∀ call ∈ calls, call.Usable → call.keypair.kpCtr.cSend ≠ m.rejectAfterMessages := by
  obtain ⟨hinc, -⟩ := sentNonces_increasing h (by simpa using hlen)
  constructor
  · rintro ⟨-, -, hpeer⟩ call hcall hu hlim
    exact hpeer.ne_limit (mem_sentNonces.mpr ⟨call, hcall, hu, hlim, BitVec.le_refl _⟩) rfl
  · intro hne
    refine ⟨hinc.imp fun hlt => BitVec.ne_of_lt hlt, hinc, peerAccepts_of_lt hinc fun nonce hn => ?_⟩
    obtain ⟨call, hcall, hu, rfl, hle⟩ := mem_sentNonces.mp hn
    exact BitVec.lt_of_le_ne hle (hne call hcall hu)

section Limit

def steadyKeypair (c : BitVec 64) : NoiseKeypair .lp64 :=
  { (NoiseKeypair.zero : NoiseKeypair .lp64) with
    kpValid := true, kpCtr := ⟨c, 0, fun _ => 0⟩ }

section

local instance slots_ne_zero_call : NeZero 3 := ⟨Nat.succ_ne_zero 2⟩

def steadyCall (c : BitVec 64) : EncryptCall .lp64 where
  remote := { freshRemote with
    rUnusedKeypairs := [2, 1], rCurrent := some 0, rKeypair := fun _ => steadyKeypair c }
  slot := 0
  current := rfl
  uptime := ⟨0, 0⟩
  buf := []

end

def steadyCalls : Nat → BitVec 64 → List (EncryptCall .lp64)
  | 0, _ => []
  | n + 1, c => steadyCall c :: steadyCalls n (c + 1)

theorem steadyCall_usable (c : BitVec 64) : (steadyCall c).Usable :=
  ⟨rfl, (by decide : noiseTimerExpired ⟨0, 0⟩ ⟨0, 0⟩ rejectAfterTime 0 = false),
    (by decide : (0 : BitVec 64) < LongModel.lp64.rejectAfterMessages)⟩

theorem steadyCalls_consecutive (n : Nat) (c : BitVec 64) :
    ConsecutiveFrom xorCrypto c (steadyCalls n c) := by
  induction n generalizing c with
  | zero => trivial
  | succ n ih =>
    refine ⟨rfl, ?_⟩
    rw [((steadyCall c).usable_spec (steadyCall_usable c)).1]
    exact ih (c + 1)

theorem length_steadyCalls (n : Nat) (c : BitVec 64) : (steadyCalls n c).length = n := by
  induction n generalizing c with
  | zero => rfl
  | succ n ih => rw [steadyCalls, length_cons, ih]

theorem mem_steadyCalls {n i : Nat} (h : i < n) (c : BitVec 64) :
    steadyCall (c + BitVec.ofNat 64 i) ∈ steadyCalls n c := by
  induction n generalizing c i with
  | zero => cases h
  | succ n ih =>
    cases i with
    | zero =>
      rw [BitVec.add_zero]
      exact mem_cons_self
    | succ i =>
      have hc : c + BitVec.ofNat 64 (i + 1) = c + 1 + BitVec.ofNat 64 i := by
        rw [BitVec.add_assoc, Nat.add_comm, BitVec.ofNat_add]
        rfl
      rw [hc]
      exact mem_cons_of_mem _ (ih (Nat.lt_of_succ_lt_succ h) (c + 1))

def callsToLimit : List (EncryptCall .lp64) :=
  steadyCalls (LongModel.lp64.rejectAfterMessages.toNat + 1) 0

theorem sentNonces_agree_two : ConsecutiveFrom xorCrypto 0 (steadyCalls 2 0) ∧
    (sentNonces xorCrypto (steadyCalls 2 0)).Nodup ∧
    (sentNonces xorCrypto (steadyCalls 2 0)).Pairwise (· < ·) ∧
    PeerAccepts .lp64 (sentNonces xorCrypto (steadyCalls 2 0)) :=
  ⟨steadyCalls_consecutive 2 0,
    (sentNonces_agree_iff xorCrypto (steadyCalls_consecutive 2 0) (by decide)).mpr (by
      rw [steadyCalls, steadyCalls, steadyCalls, forall_mem_cons, forall_mem_singleton]
      exact ⟨fun _ => by decide, fun _ => by decide⟩)⟩

/-- The nonce `REJECT_AFTER_MESSAGES` is sent, and the peer does not take it. -/
theorem sentNonces_refused :
    ConsecutiveFrom xorCrypto 0 callsToLimit ∧ callsToLimit.length < 2 ^ 64 ∧
    LongModel.lp64.rejectAfterMessages ∈ sentNonces xorCrypto callsToLimit ∧
    ¬PeerAccepts .lp64 (sentNonces xorCrypto callsToLimit) := by
  have hmem : LongModel.lp64.rejectAfterMessages ∈ sentNonces xorCrypto callsToLimit := by
    have hcall := mem_steadyCalls (Nat.lt_succ_self LongModel.lp64.rejectAfterMessages.toNat) 0
    rw [BitVec.ofNat_toNat, BitVec.setWidth_eq, show ∀ c : BitVec 64, 0 + c = c from
      BitVec.zero_add] at hcall
    exact mem_sentNonces.mpr ⟨_, hcall, steadyCall_usable _, rfl, BitVec.le_refl _⟩
  refine ⟨steadyCalls_consecutive _ 0, ?_, hmem, fun h => h.ne_limit hmem rfl⟩
  rw [callsToLimit, length_steadyCalls, LongModel.toNat_rejectAfterMessages]
  decide

end Limit

end Mbsd.Net.WgNoise
