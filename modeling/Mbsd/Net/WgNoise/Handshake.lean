import Mbsd.Net.WgNoise.Keypairs

/-! The handshake between two peers.  Both sides are compared with a transcript: the chaining
key, the hash and the encrypted fields as functions of the public values and the shared secrets,
whichever side computes them. -/

namespace Mbsd.Net.WgNoise

open Sys List Function

variable {m : LongModel}

theorem clamp_idem (secret : Bytes) :
    curve25519ClampSecret (curve25519ClampSecret secret) = curve25519ClampSecret secret := by
  have hlow (b : UInt8) : (b &&& 248) &&& 248 = b &&& 248 := by
    rw [UInt8.and_assoc, UInt8.and_self]
  have hhigh (b : UInt8) : ((b &&& 127 ||| 64) &&& 127) ||| 64 = b &&& 127 ||| 64 := by
    obtain ⟨b⟩ := b
    revert b
    decide
  refine ext_getElem? fun i => ?_
  simp only [curve25519ClampSecret, getElem?_modify]
  cases secret[i]? with
  | none => rfl
  | some b =>
    by_cases h0 : 0 = i
    · subst h0
      simp [hlow]
    · by_cases h31 : 31 = i
      · subst h31
        simp [hhigh]
      · simp [h0, h31]

namespace NoiseCrypto

variable (C : NoiseCrypto)

structure Lawful : Prop where
  dh_comm : ∀ a b p q, C.curve25519 a basePoint = some p → C.curve25519 b basePoint = some q →
    C.curve25519 a q = C.curve25519 b p
  decrypt_encrypt : ∀ text ad nonce key,
    C.chacha20poly1305Decrypt (C.chacha20poly1305Encrypt text ad nonce key) ad nonce key =
      some text

theorem curve25519_clamp (a p : Bytes) :
    C.curve25519 (curve25519ClampSecret a) p = C.curve25519 a p := by
  simp only [curve25519, clamp_idem]

theorem curve25519_ne_nullPoint {a p dh : Bytes} (h : C.curve25519 a p = some dh) :
    dh ≠ nullPoint := by
  simp only [curve25519] at h
  split at h
  · cases h
  next hne =>
    cases h
    exact hne

variable {C}

theorem curve25519_of_generatePublic {a p : Bytes} (h : C.curve25519GeneratePublic a = some p) :
    C.curve25519 a basePoint = some p := by
  rw [curve25519GeneratePublic] at h
  split at h
  · cases h
  · exact h

theorem Lawful.dh (hC : C.Lawful) {a b p q : Bytes} (ha : C.curve25519GeneratePublic a = some p)
    (hb : C.curve25519GeneratePublic b = some q) : C.curve25519 b p = C.curve25519 a q :=
  hC.dh_comm b a q p (curve25519_of_generatePublic hb) (curve25519_of_generatePublic ha)

theorem Lawful.msgDecrypt (hC : C.Lawful) (src key hash : Bytes) :
    C.noiseMsgDecrypt (C.noiseMsgEncrypt src key hash).1 key hash =
      some (src, (C.noiseMsgEncrypt src key hash).2) := by
  simp only [noiseMsgDecrypt, noiseMsgEncrypt, hC.decrypt_encrypt]

theorem mixDh_of_curve25519 {ck priv pub dh : Bytes} (h : C.curve25519 priv pub = some dh) :
    C.noiseMixDh ck priv pub = some ((C.noiseKdf dh ck).1, (C.noiseKdf dh ck).2.1) := by
  rw [noiseMixDh, h]

theorem mixSs_of_ne {ck ss : Bytes} (h : ss ≠ nullPoint) :
    C.noiseMixSs ck ss = some ((C.noiseKdf ss ck).1, (C.noiseKdf ss ck).2.1) := by
  rw [noiseMixSs, if_neg h]

end NoiseCrypto

structure NoiseSecrets where
  initiatorPublic : Bytes
  responderPublic : Bytes
  initiatorEphemeral : Bytes
  responderEphemeral : Bytes
  es : Bytes
  ss : Bytes
  ee : Bytes
  se : Bytes
  psk : Bytes

namespace NoiseSecrets

variable (C : NoiseCrypto) (k : NoiseSecrets)

def ephemeral : Bytes × Bytes :=
  C.noiseMsgEphemeral (C.noiseParamInit k.responderPublic).1
    (C.noiseParamInit k.responderPublic).2 k.initiatorEphemeral

def static : Bytes × Bytes :=
  C.noiseMsgEncrypt k.initiatorPublic (C.noiseKdf k.es (k.ephemeral C).1).2.1 (k.ephemeral C).2

def ssKey : Bytes × Bytes × Bytes := C.noiseKdf k.ss (C.noiseKdf k.es (k.ephemeral C).1).1

def timestamp (ts : Bytes) : Bytes × Bytes :=
  C.noiseMsgEncrypt ts (k.ssKey C).2.1 (k.static C).2

def initiationCk : Bytes := (k.ssKey C).1

def response (ts : Bytes) : Bytes × Bytes :=
  C.noiseMsgEphemeral (k.initiationCk C) (k.timestamp C ts).2 k.responderEphemeral

def pskKey (ts : Bytes) : Bytes × Bytes × Bytes :=
  C.noiseMixPsk (C.noiseKdf k.se (C.noiseKdf k.ee (k.response C ts).1).1).1 (k.response C ts).2
    k.psk

def nothing (ts : Bytes) : Bytes × Bytes :=
  C.noiseMsgEncrypt [] (k.pskKey C ts).2.2 (k.pskKey C ts).2.1

end NoiseSecrets

structure PeerReady (C : NoiseCrypto) (l : NoiseLocal) (pub psk : Bytes) (r : NoiseRemote m) :
    Prop where
  peer : r.rPublic = pub
  precomputed : r.rSs = (noiseRemotePrecompute C l r).rSs
  psk : r.rPsk = psk
  slots : r.SlotsPartitioned

/-- The two states differ in the handshake only, as far as later calls of the handshake see. -/
structure SamePeer (r r' : NoiseRemote m) : Prop where
  peer : r'.rPublic = r.rPublic
  psk : r'.rPsk = r.rPsk
  slots : ∀ slot, r'.slotCount slot = r.slotCount slot

variable {C : NoiseCrypto}

theorem SamePeer.trans {r r' r'' : NoiseRemote m} (h : SamePeer r r') (h' : SamePeer r' r'') :
    SamePeer r r'' :=
  ⟨h'.peer.trans h.peer, h'.psk.trans h.psk, fun slot => (h'.slots slot).trans (h.slots slot)⟩

theorem renewIndex_samePeer (r : NoiseRemote m) (index : BitVec 32) (hs : NoiseHandshake) :
    SamePeer r { noiseRemoteHandshakeIndexGet (noiseRemoteHandshakeIndexDrop r) index with
      rHandshake := hs } := by
  rw [noiseRemoteHandshakeIndexDrop]
  split <;> exact ⟨rfl, rfl, fun _ => rfl⟩

@[simp] theorem dropIndex_rSs (r : NoiseRemote m) :
    (noiseRemoteHandshakeIndexDrop r).rSs = r.rSs := by
  rw [noiseRemoteHandshakeIndexDrop]
  split <;> rfl

@[simp] theorem renewIndex_rHandshake (r : NoiseRemote m) (index : BitVec 32) :
    (noiseRemoteHandshakeIndexGet (noiseRemoteHandshakeIndexDrop r) index).rHandshake =
      r.rHandshake := by
  rw [noiseRemoteHandshakeIndexDrop]
  split <;> rfl

theorem createInitiation_ok {l : NoiseLocal} {r : NoiseRemote m} {k : NoiseSecrets}
    {random : Bytes} (now : Timespec) (index : BitVec 32) (hid : l.lHasIdentity = true)
    (hl : l.lPublic = k.initiatorPublic) (hr : r.rPublic = k.responderPublic)
    (hue : C.curve25519GeneratePublic (curve25519ClampSecret random) = some k.initiatorEphemeral)
    (hes : C.curve25519 (curve25519ClampSecret random) k.responderPublic = some k.es)
    (hss : r.rSs = k.ss) (hnull : k.ss ≠ nullPoint) :
    ∃ r', noiseCreateInitiation C l r random now index =
        (r', .ok ⟨index, k.initiatorEphemeral, (k.static C).1,
          (k.timestamp C (noiseTai64nNow now)).1⟩) ∧
      r'.rHandshake = ⟨.createdInitiation, index, r.rHandshake.hsRemoteIndex,
        curve25519ClampSecret random, (k.timestamp C (noiseTai64nNow now)).2, k.initiationCk C⟩ ∧
      SamePeer r r' := by
  simp only [noiseCreateInitiation, hid, hl, hr, hue, hss, NoiseCrypto.mixDh_of_curve25519 hes,
    NoiseCrypto.mixSs_of_ne hnull, Bool.true_eq_false, if_false]
  refine ⟨_, rfl, ?_, ?_⟩
  · simp only [renewIndex_rHandshake]
    rfl
  · refine SamePeer.trans ?_ (renewIndex_samePeer _ index _)
    exact ⟨hr.symm, rfl, fun _ => rfl⟩

theorem openInitiation_ok {l : NoiseLocal} {k : NoiseSecrets} (sIdx : BitVec 32) (ets : Bytes)
    (hC : C.Lawful) (hid : l.lHasIdentity = true) (hl : l.lPublic = k.responderPublic)
    (hes : C.curve25519 l.lPrivate k.initiatorEphemeral = some k.es) :
    noiseOpenInitiation C l ⟨sIdx, k.initiatorEphemeral, (k.static C).1, ets⟩ =
      some (k.initiatorPublic, (C.noiseKdf k.es (k.ephemeral C).1).1, (k.static C).2) := by
  have hdec := hC.msgDecrypt k.initiatorPublic (C.noiseKdf k.es (k.ephemeral C).1).2.1
    (k.ephemeral C).2
  simp only [noiseOpenInitiation, hid, hl, NoiseCrypto.mixDh_of_curve25519 hes,
    Bool.true_eq_false, if_false]
  simp only [NoiseSecrets.static, NoiseSecrets.ephemeral] at hdec ⊢
  rw [hdec]

theorem acceptInitiation_ok {r : NoiseRemote m} {k : NoiseSecrets} {ts : Bytes}
    {uptime : Timespec} (sIdx index : BitVec 32) (es : Bytes) (hC : C.Lawful) (hss : r.rSs = k.ss)
    (hnull : k.ss ≠ nullPoint) (hts : r.rTimestamp < ts)
    (hinit : noiseTimerExpired uptime r.rLastInit 0 rejectInterval = true) :
    ∃ r', noiseAcceptInitiation C r ⟨sIdx, k.initiatorEphemeral, es, (k.timestamp C ts).1⟩
        (C.noiseKdf k.es (k.ephemeral C).1).1 (k.static C).2 uptime index = (r', none) ∧
      r'.rHandshake = ⟨.consumedInitiation, index, sIdx, k.initiatorEphemeral,
        (k.timestamp C ts).2, k.initiationCk C⟩ ∧ SamePeer r r' := by
  have hdec := hC.msgDecrypt ts (k.ssKey C).2.1 (k.static C).2
  simp only [noiseAcceptInitiation, hss, NoiseCrypto.mixSs_of_ne hnull]
  simp only [NoiseSecrets.timestamp, NoiseSecrets.ssKey] at hdec ⊢
  simp only [hdec, hts, hinit, if_true]
  refine ⟨_, rfl, rfl, ?_⟩
  refine SamePeer.trans ?_ (renewIndex_samePeer _ index _)
  exact ⟨rfl, rfl, fun _ => rfl⟩

theorem createResponse_ok {r : NoiseRemote m} {k : NoiseSecrets} {random ts : Bytes}
    {index sIdx : BitVec 32}
    (hhs : r.rHandshake = ⟨.consumedInitiation, index, sIdx, k.initiatorEphemeral,
      (k.timestamp C ts).2, k.initiationCk C⟩)
    (hr : r.rPublic = k.initiatorPublic) (hpsk : r.rPsk = k.psk)
    (hue : C.curve25519GeneratePublic (curve25519ClampSecret random) = some k.responderEphemeral)
    (hee : C.curve25519 (curve25519ClampSecret random) k.initiatorEphemeral = some k.ee)
    (hse : C.curve25519 (curve25519ClampSecret random) k.initiatorPublic = some k.se) :
    ∃ r', noiseCreateResponse C r random =
        (r', .ok ⟨index, sIdx, k.responderEphemeral, (k.nothing C ts).1⟩) ∧
      r'.rHandshake = ⟨.createdResponse, index, sIdx, k.initiatorEphemeral,
        (k.nothing C ts).2, (k.pskKey C ts).1⟩ ∧ SamePeer r r' := by
  simp only [noiseCreateResponse, hhs, hue, hr, hpsk, NoiseCrypto.mixDh_of_curve25519 hee,
    NoiseCrypto.mixDh_of_curve25519 hse, ne_eq, not_true_eq_false, if_false]
  exact ⟨_, rfl, rfl, hr.symm, hpsk.symm, fun _ => rfl⟩

theorem consumeResponse_ok {l : NoiseLocal} {r : NoiseRemote m} {k : NoiseSecrets} {e ts : Bytes}
    {index rIdx : BitVec 32} (sIdx : BitVec 32) (hC : C.Lawful) (hid : l.lHasIdentity = true)
    (hhs : r.rHandshake = ⟨.createdInitiation, index, rIdx, e, (k.timestamp C ts).2,
      k.initiationCk C⟩)
    (hpsk : r.rPsk = k.psk) (hee : C.curve25519 e k.responderEphemeral = some k.ee)
    (hse : C.curve25519 l.lPrivate k.responderEphemeral = some k.se) :
    ∃ r', noiseConsumeResponse C l r ⟨sIdx, index, k.responderEphemeral, (k.nothing C ts).1⟩ =
        (r', none) ∧ r'.rHandshake = ⟨.consumedResponse, index, sIdx, e, (k.nothing C ts).2,
        (k.pskKey C ts).1⟩ ∧ SamePeer r r' := by
  have hdec := hC.msgDecrypt [] (k.pskKey C ts).2.2 (k.pskKey C ts).2.1
  simp only [noiseConsumeResponse, noiseOpenResponse, hid, hhs, hpsk,
    NoiseCrypto.mixDh_of_curve25519 hee, NoiseCrypto.mixDh_of_curve25519 hse,
    Bool.true_eq_false, ne_eq, not_true_eq_false, or_self, if_false]
  simp only [NoiseSecrets.nothing, NoiseSecrets.pskKey, NoiseSecrets.response] at hdec ⊢
  simp only [hdec, noiseStoreResponse, hhs, and_self, if_true]
  exact ⟨_, rfl, rfl, rfl, rfl, fun _ => rfl⟩

theorem beginSession_ok {r : NoiseRemote m} {kp : NoiseKeypair m} (uptime : Timespec)
    (hkp : noiseDeriveKeypair C r.rHandshake uptime = some kp) (h : r.SlotsPartitioned) :
    ∃ r' slot, noiseRemoteBeginSession C r uptime = some (r', none) ∧
      (if kp.kpIsInitiator then r'.rCurrent else r'.rNext) = some slot ∧
      r'.rKeypair slot = kp := by
  obtain ⟨r', hr', hin⟩ := addNewKeypair_installed h kp
  obtain ⟨slot, hslot, hstored⟩ := hin.stored
  exact ⟨{ r' with rHandshake := .zero }, slot, by simp only [noiseRemoteBeginSession, hkp, hr'],
    hslot, hstored⟩

theorem setPrivate_of_generatePublic {s p : Bytes} (h : C.curve25519GeneratePublic s = some p) :
    noiseLocalSetPrivate C s = ⟨true, p, curve25519ClampSecret s⟩ := by
  rw [noiseLocalSetPrivate, h]

theorem PeerReady.rSs_eq {s p pub psk dh : Bytes} {r : NoiseRemote m}
    (h : PeerReady C (noiseLocalSetPrivate C s) pub psk r)
    (hs : C.curve25519GeneratePublic s = some p) (hdh : C.curve25519 s pub = some dh) :
    r.rSs = dh := by
  rw [h.precomputed, setPrivate_of_generatePublic hs]
  simp [noiseRemotePrecompute, h.peer, C.curve25519_clamp, hdh]

structure KeypairsAgree (a b : NoiseKeypair m) : Prop where
  send : a.kpSend = b.kpRecv
  recv : a.kpRecv = b.kpSend
  remoteIndex : a.kpRemoteIndex = b.kpLocalIndex
  localIndex : b.kpRemoteIndex = a.kpLocalIndex

/-- The clocks that a handshake reads: the time of day at the initiator, the uptime of the
responder when the initiation arrives, and the uptime of both when the session begins. -/
structure HandshakeClocks where
  now : Timespec
  arrival : Timespec
  beginI : Timespec
  beginR : Timespec

section Agreement

variable {ι : Type} [DecidableEq ι]

/-- Every call of the handshake succeeds and the two new keypairs fit together: the one behind
`r_current` at the initiator and the one behind `r_next` at the responder. -/
def HandshakeAgrees (C : NoiseCrypto) (lI lR : NoiseLocal) (rI : NoiseRemote m)
    (uRemoteGet : Bytes → Option ι) (remotes : ι → NoiseRemote m) (i : ι) (eI eR : Bytes)
    (idxI idxR : BitVec 32) (clocks : HandshakeClocks) : Prop :=
  ∃ rI₁ initiation, noiseCreateInitiation C lI rI eI clocks.now idxI = (rI₁, .ok initiation) ∧
  ∃ remotes₁, noiseConsumeInitiation C lR uRemoteGet remotes initiation clocks.arrival idxR =
    (remotes₁, .ok i) ∧
  ∃ rR₁ response, noiseCreateResponse C (remotes₁ i) eR = (rR₁, .ok response) ∧
  ∃ rI₂, noiseConsumeResponse C lI rI₁ response = (rI₂, none) ∧
  ∃ rI₃ slotI, noiseRemoteBeginSession C rI₂ clocks.beginI = some (rI₃, none) ∧
    rI₃.rCurrent = some slotI ∧
  ∃ rR₂ slotR, noiseRemoteBeginSession C rR₁ clocks.beginR = some (rR₂, none) ∧
    rR₂.rNext = some slotR ∧
  KeypairsAgree (rI₃.rKeypair slotI) (rR₂.rKeypair slotR)

/-- The secrets of the two sides with their public keys; combining one of the initiator's with one
of the responder's does not fail. -/
structure KeysUsable (C : NoiseCrypto) (sI sR eI eR pI pR uI uR : Bytes) : Prop where
  staticI : C.curve25519GeneratePublic sI = some pI
  staticR : C.curve25519GeneratePublic sR = some pR
  ephemeralI : C.curve25519GeneratePublic (curve25519ClampSecret eI) = some uI
  ephemeralR : C.curve25519GeneratePublic (curve25519ClampSecret eR) = some uR
  dh : ∀ a ∈ [sI, curve25519ClampSecret eI], ∀ p ∈ [pR, uR], C.curve25519 a p ≠ none

theorem KeysUsable.secrets {sI sR eI eR pI pR uI uR : Bytes}
    (h : KeysUsable C sI sR eI eR pI pR uI uR) (psk : Bytes) :
    ∃ k : NoiseSecrets, k.initiatorPublic = pI ∧ k.responderPublic = pR ∧
      k.initiatorEphemeral = uI ∧ k.responderEphemeral = uR ∧ k.psk = psk ∧
      C.curve25519 (curve25519ClampSecret eI) pR = some k.es ∧ C.curve25519 sI pR = some k.ss ∧
      C.curve25519 (curve25519ClampSecret eI) uR = some k.ee ∧ C.curve25519 sI uR = some k.se := by
  obtain ⟨es, hes⟩ := Option.ne_none_iff_exists'.mp
    (h.dh (curve25519ClampSecret eI) (by simp) pR (by simp))
  obtain ⟨ss, hss⟩ := Option.ne_none_iff_exists'.mp (h.dh sI (by simp) pR (by simp))
  obtain ⟨ee, hee⟩ := Option.ne_none_iff_exists'.mp
    (h.dh (curve25519ClampSecret eI) (by simp) uR (by simp))
  obtain ⟨se, hse⟩ := Option.ne_none_iff_exists'.mp (h.dh sI (by simp) uR (by simp))
  exact ⟨⟨pI, pR, uI, uR, es, ss, ee, se, psk⟩, rfl, rfl, rfl, rfl, rfl, hes, hss, hee, hse⟩

/-- The handshake succeeds and both sides agree, as soon as the responder does not take the
initiation for a replay or a flood. -/
theorem handshake_agrees {sI sR eI eR pI pR uI uR psk : Bytes} {rI : NoiseRemote m}
    {uRemoteGet : Bytes → Option ι} {remotes : ι → NoiseRemote m} {i : ι}
    (idxI idxR : BitVec 32) (clocks : HandshakeClocks) (hC : C.Lawful)
    (hkeys : KeysUsable C sI sR eI eR pI pR uI uR)
    (hI : PeerReady C (noiseLocalSetPrivate C sI) pR psk rI)
    (hR : PeerReady C (noiseLocalSetPrivate C sR) pI psk (remotes i))
    (hget : uRemoteGet pI = some i) (hts : (remotes i).rTimestamp < noiseTai64nNow clocks.now)
    (hflood : noiseTimerExpired clocks.arrival (remotes i).rLastInit 0 rejectInterval = true) :
    HandshakeAgrees C (noiseLocalSetPrivate C sI) (noiseLocalSetPrivate C sR) rI uRemoteGet remotes
      i eI eR idxI idxR clocks := by
  obtain ⟨k, rfl, rfl, rfl, rfl, rfl, hes, hss, hee, hse⟩ := hkeys.secrets psk
  have hnull : k.ss ≠ nullPoint := C.curve25519_ne_nullPoint hss
  -- the responder reaches the same secrets from its own side
  have hes' : C.curve25519 (curve25519ClampSecret sR) k.initiatorEphemeral = some k.es := by
    rw [C.curve25519_clamp, hC.dh hkeys.ephemeralI hkeys.staticR, hes]
  have hss' : C.curve25519 sR k.initiatorPublic = some k.ss := by
    rw [hC.dh hkeys.staticI hkeys.staticR, hss]
  have hee' : C.curve25519 (curve25519ClampSecret eR) k.initiatorEphemeral = some k.ee := by
    rw [hC.dh hkeys.ephemeralI hkeys.ephemeralR, hee]
  have hse' : C.curve25519 (curve25519ClampSecret eR) k.initiatorPublic = some k.se := by
    rw [hC.dh hkeys.staticI hkeys.ephemeralR, hse]
  have hssI := hI.rSs_eq hkeys.staticI hss
  have hssR := hR.rSs_eq hkeys.staticR hss'
  rw [setPrivate_of_generatePublic hkeys.staticI, setPrivate_of_generatePublic hkeys.staticR]
  -- the four messages
  obtain ⟨rI₁, hcreate, hhsI, hsameI⟩ := createInitiation_ok (C := C) (k := k)
    (l := ⟨true, k.initiatorPublic, curve25519ClampSecret sI⟩) clocks.now idxI rfl rfl hI.peer
    hkeys.ephemeralI hes hssI hnull
  obtain ⟨rR₁, haccept, hhsR, hsameR⟩ := acceptInitiation_ok idxI idxR
    (k.static C).1 hC hssR hnull hts hflood
  have hopen := openInitiation_ok (k := k) idxI
    (k.timestamp C (noiseTai64nNow clocks.now)).1
    (l := ⟨true, k.responderPublic, curve25519ClampSecret sR⟩) hC rfl rfl hes'
  have hconsume : noiseConsumeInitiation C ⟨true, k.responderPublic, curve25519ClampSecret sR⟩
      uRemoteGet remotes ⟨idxI, k.initiatorEphemeral, (k.static C).1,
        (k.timestamp C (noiseTai64nNow clocks.now)).1⟩ clocks.arrival idxR =
      (update remotes i rR₁, .ok i) := by
    simp only [noiseConsumeInitiation, hopen, hget, haccept]
  obtain ⟨rR₂, hrespond, hhsR₂, hsameR₂⟩ := createResponse_ok hhsR (hsameR.peer.trans hR.peer)
    (hsameR.psk.trans hR.psk) hkeys.ephemeralR hee' hse'
  obtain ⟨rI₂, hfinish, hhsI₂, hsameI₂⟩ := consumeResponse_ok idxR
    (l := ⟨true, k.initiatorPublic, curve25519ClampSecret sI⟩) hC rfl hhsI
    (hsameI.psk.trans hI.psk) hee ((C.curve25519_clamp sI _).trans hse)
  -- the sessions
  obtain ⟨rI₃, slotI, hbeginI, hslotI, hkpI⟩ := beginSession_ok (r := rI₂) (C := C)
    clocks.beginI (by rw [hhsI₂]; rfl)
    (fun slot => by rw [(hsameI.trans hsameI₂).slots, hI.slots])
  obtain ⟨rR₃, slotR, hbeginR, hslotR, hkpR⟩ := beginSession_ok (r := rR₂) (C := C)
    clocks.beginR (by rw [hhsR₂]; rfl)
    (fun slot => by rw [(hsameR.trans hsameR₂).slots, hR.slots])
  refine ⟨rI₁, _, hcreate, _, hconsume, rR₂, _, ?_, rI₂, hfinish, rI₃, slotI, hbeginI, hslotI,
    rR₃, slotR, hbeginR, hslotR, ?_⟩
  · rwa [update_self]
  · rw [hkpI, hkpR]
    exact ⟨rfl, rfl, rfl, rfl⟩

end Agreement

section Concrete

theorem zipWith_xor_left_comm (xs ys zs : Bytes) :
    List.zipWith (· ^^^ ·) xs (List.zipWith (· ^^^ ·) ys zs) =
      List.zipWith (· ^^^ ·) ys (List.zipWith (· ^^^ ·) xs zs) := by
  refine ext_getElem? fun i => ?_
  simp only [getElem?_zipWith]
  cases xs[i]? <;> cases ys[i]? <;> cases zs[i]? <;> simp only [Option.some.injEq]
  next x y z => rw [← UInt8.xor_assoc, UInt8.xor_comm x y, UInt8.xor_assoc]

theorem xorCrypto_lawful : xorCrypto.Lawful where
  dh_comm a b p q ha hb := by
    simp only [NoiseCrypto.curve25519] at ha hb ⊢
    split at ha
    · cases ha
    · split at hb
      · cases hb
      · cases ha
        cases hb
        have hcomm : xorCrypto.ladder (curve25519ClampSecret a)
              (xorCrypto.ladder (curve25519ClampSecret b) basePoint) =
            xorCrypto.ladder (curve25519ClampSecret b)
              (xorCrypto.ladder (curve25519ClampSecret a) basePoint) :=
          zipWith_xor_left_comm _ _ _
        rw [hcomm]
  decrypt_encrypt text ad nonce key := by
    have hlen : ((ad ++ key ++ replicate 16 0).take 16).length = 16 := by
      simp
      omega
    simp only [xorCrypto, length_append, hlen, Nat.add_sub_cancel, drop_left, take_left, if_true]

def aliceSecret : Bytes := List.replicate 32 16
def bobSecret : Bytes := List.replicate 32 32
def aliceEphemeral : Bytes := List.replicate 32 64
def bobEphemeral : Bytes := List.replicate 32 8
def sharedPsk : Bytes := List.replicate 32 5

def aliceRemote : NoiseRemote .lp64 :=
  (noiseRemoteSetPsk (noiseRemoteInit xorCrypto aliceLocal bobLocal.lPublic) sharedPsk).1
def bobRemotes (_ : Unit) : NoiseRemote .lp64 :=
  (noiseRemoteSetPsk (noiseRemoteInit xorCrypto bobLocal aliceLocal.lPublic) sharedPsk).1

theorem aliceBob_keys : KeysUsable xorCrypto aliceSecret bobSecret aliceEphemeral bobEphemeral
    aliceLocal.lPublic bobLocal.lPublic
    ((xorCrypto.curve25519GeneratePublic (curve25519ClampSecret aliceEphemeral)).getD [])
    ((xorCrypto.curve25519GeneratePublic (curve25519ClampSecret bobEphemeral)).getD []) where
  staticI := by decide +kernel
  staticR := by decide +kernel
  ephemeralI := by decide +kernel
  ephemeralR := by decide +kernel
  dh := by decide +kernel

theorem aliceRemote_ready : PeerReady xorCrypto aliceLocal bobLocal.lPublic sharedPsk aliceRemote where
  peer := by decide +kernel
  precomputed := by decide +kernel
  psk := by decide +kernel
  slots := by unfold NoiseRemote.SlotsPartitioned; decide +kernel

theorem bobRemotes_ready : PeerReady xorCrypto bobLocal aliceLocal.lPublic sharedPsk (bobRemotes ()) where
  peer := by decide +kernel
  precomputed := by decide +kernel
  psk := by decide +kernel
  slots := by unfold NoiseRemote.SlotsPartitioned; decide +kernel

theorem handshake_agrees_aliceBob :
    HandshakeAgrees xorCrypto aliceLocal bobLocal aliceRemote (fun _ => some ()) bobRemotes ()
      aliceEphemeral bobEphemeral 7 9 ⟨⟨5, 0⟩, ⟨1, 0⟩, ⟨1, 0⟩, ⟨1, 0⟩⟩ :=
  handshake_agrees 7 9 ⟨⟨5, 0⟩, ⟨1, 0⟩, ⟨1, 0⟩, ⟨1, 0⟩⟩ xorCrypto_lawful aliceBob_keys
    aliceRemote_ready bobRemotes_ready rfl (by decide +kernel) (by decide +kernel)

def bobRemotesSeen : Unit → NoiseRemote .lp64 :=
  match (noiseCreateInitiation xorCrypto aliceLocal aliceRemote aliceEphemeral ⟨5, 0⟩ 7).2 with
  | .ok initiation =>
    (noiseConsumeInitiation xorCrypto bobLocal (fun _ => some ()) bobRemotes initiation
      ⟨1, 0⟩ 9).1
  | .error _ => bobRemotes

def bobAnswers (remotes : Unit → NoiseRemote .lp64) (now arrival : Timespec) : Except Errno Unit :=
  match (noiseCreateInitiation xorCrypto aliceLocal aliceRemote aliceEphemeral now 7).2 with
  | .ok initiation =>
    (noiseConsumeInitiation xorCrypto bobLocal (fun _ => some ()) remotes initiation arrival 9).2
  | .error e => .error e

theorem not_agrees_of_bobAnswers {remotes : Unit → NoiseRemote .lp64} {clocks : HandshakeClocks}
    (h : bobAnswers remotes clocks.now clocks.arrival ≠ .ok ()) :
    ¬ HandshakeAgrees xorCrypto aliceLocal bobLocal aliceRemote (fun _ => some ()) remotes ()
      aliceEphemeral bobEphemeral 7 9 clocks := by
  rintro ⟨_, _, hcreate, _, hconsume, -⟩
  rw [bobAnswers, hcreate] at h
  exact h (congrArg Prod.snd hconsume)

/-- With peers fresh from `noise_remote_init` the responder refuses an initiation in its first
twenty milliseconds of uptime, and later one that is not newer than the last. -/
theorem handshake_refused :
    (xorCrypto.Lawful ∧ KeysUsable xorCrypto aliceSecret bobSecret aliceEphemeral bobEphemeral
      aliceLocal.lPublic bobLocal.lPublic
      ((xorCrypto.curve25519GeneratePublic (curve25519ClampSecret aliceEphemeral)).getD [])
      ((xorCrypto.curve25519GeneratePublic (curve25519ClampSecret bobEphemeral)).getD []) ∧
    PeerReady xorCrypto aliceLocal bobLocal.lPublic sharedPsk aliceRemote ∧
    PeerReady xorCrypto bobLocal aliceLocal.lPublic sharedPsk (bobRemotes ())) ∧
    ¬ HandshakeAgrees xorCrypto aliceLocal bobLocal aliceRemote (fun _ => some ()) bobRemotes ()
      aliceEphemeral bobEphemeral 7 9 ⟨⟨5, 0⟩, ⟨0, 0⟩, ⟨1, 0⟩, ⟨1, 0⟩⟩ ∧
    ¬ HandshakeAgrees xorCrypto aliceLocal bobLocal aliceRemote (fun _ => some ()) bobRemotesSeen ()
      aliceEphemeral bobEphemeral 7 9 ⟨⟨5, 0⟩, ⟨2, 0⟩, ⟨2, 0⟩, ⟨2, 0⟩⟩ := by
  refine ⟨⟨xorCrypto_lawful, aliceBob_keys, aliceRemote_ready, bobRemotes_ready⟩, ?_, ?_⟩
  · exact not_agrees_of_bobAnswers (by decide +kernel)
  · exact not_agrees_of_bobAnswers (by decide +kernel)

end Concrete

end Mbsd.Net.WgNoise
