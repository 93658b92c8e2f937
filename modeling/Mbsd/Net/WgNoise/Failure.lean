import Mbsd.Net.WgNoise.Keypairs

/-! What the four functions of the handshake leave in `r_handshake` when they fail. -/

namespace Mbsd.Net.WgNoise

open Sys List Function NoiseCrypto NoiseHandshake

variable {m : LongModel} {C : NoiseCrypto} {r : NoiseRemote m} {msg : NoiseInitiation} {e : Errno}
  {l : NoiseLocal}

/-- The arrays of a handshake have their sizes. -/
def NoiseHandshake.Sized (hs : NoiseHandshake) : Prop :=
  hs.hsE.length = 32 ∧ hs.hsHash.length = 32 ∧ hs.hsCk.length = 32

def KeepsHandshake {α : Type} (r : NoiseRemote m) (call : NoiseRemote m × Except Errno α) : Prop :=
  ∀ e, call.2 = .error e → call.1.rHandshake = r.rHandshake

/-- The primitives that `noise_create_initiation` calls behind its first write succeed. -/
def InitiationComputes (C : NoiseCrypto) (l : NoiseLocal) (r : NoiseRemote m) (random : Bytes) :
    Prop :=
  let e := curve25519ClampSecret random
  l.lHasIdentity = true →
    C.curve25519GeneratePublic e ≠ none ∧ C.curve25519 e r.rPublic ≠ none ∧ r.rSs ≠ nullPoint

/-- The same for `noise_create_response`, which calls the first one before it writes. -/
def ResponseComputes (C : NoiseCrypto) (r : NoiseRemote m) (random : Bytes) : Prop :=
  let e := curve25519ClampSecret random
  r.rHandshake.hsState = .consumedInitiation → C.curve25519GeneratePublic e ≠ none →
    C.curve25519 e r.rHandshake.hsE ≠ none ∧ C.curve25519 e r.rPublic ≠ none

/-- Whatever is mixed in, some hash changes. -/
def NoiseCrypto.Mixes (C : NoiseCrypto) : Prop :=
  ∀ src, ∃ hash : Bytes, hash.length = 32 ∧ C.noiseMixHash hash src ≠ hash

/-- The remote with another chaining key and hash under way. -/
def NoiseRemote.holding (r : NoiseRemote m) (ck hash : Bytes) : NoiseRemote m :=
  { r with rHandshake := { r.rHandshake with hsCk := ck, hsHash := hash } }

section Keeps

variable {α : Type} {r r' : NoiseRemote m}

@[simp] theorem keepsHandshake_ok (a : α) : KeepsHandshake r (r', .ok a) ↔ True :=
  iff_true_intro nofun

@[simp] theorem keepsHandshake_error (e : Errno) :
    KeepsHandshake r (r', (.error e : Except Errno α)) ↔ r'.rHandshake = r.rHandshake :=
  ⟨fun h => h e rfl, fun h _ _ => h⟩

end Keeps

theorem not_forall_kept (e : Bytes) {f : NoiseHandshake → NoiseHandshake}
    (he : ∀ hs, (f hs).hsE = e) : ¬∀ hs, hs.Sized → f hs = hs := fun hkept => by
  have hbytes (b : UInt8) : e = replicate 32 b := (he _).symm.trans (congrArg hsE
    (hkept { NoiseHandshake.zero with hsE := replicate 32 b } ⟨length_replicate, rfl, rfl⟩))
  exact absurd ((hbytes 0).symm.trans (hbytes 1)) (by decide)

theorem createInitiation_keeps_iff (l : NoiseLocal) (r : NoiseRemote m) (random : Bytes)
    (now : Timespec) (index : BitVec 32) :
    (∀ hs, hs.Sized → KeepsHandshake { r with rHandshake := hs }
        (noiseCreateInitiation C l { r with rHandshake := hs } random now index)) ↔
      InitiationComputes C l r random := by
  have hspoil := @not_forall_kept (curve25519ClampSecret random)
  simp only [noiseCreateInitiation, InitiationComputes]
  cases hid : l.lHasIdentity with
  | false => simp
  | true =>
    cases hpub : C.curve25519GeneratePublic (curve25519ClampSecret random) with
    | none => simpa using hspoil fun _ => rfl
    | some ue =>
      cases hdh : C.curve25519 (curve25519ClampSecret random) r.rPublic with
      | none => simpa [hdh, noiseMixDh] using hspoil fun _ => rfl
      | some dh =>
        by_cases hss : r.rSs = nullPoint
        · simpa [hdh, hss, noiseMixDh, noiseMixSs] using hspoil fun _ => rfl
        · simp [hdh, hss, noiseMixDh, noiseMixSs]

theorem createResponse_keeps_iff (hmix : C.Mixes) (r : NoiseRemote m) (random : Bytes) :
    (∀ ck hash, ck.length = 32 → hash.length = 32 → KeepsHandshake (r.holding ck hash)
        (noiseCreateResponse C (r.holding ck hash) random)) ↔ ResponseComputes C r random := by
  simp only [noiseCreateResponse, ResponseComputes, NoiseRemote.holding]
  by_cases hs : r.rHandshake.hsState = .consumedInitiation
  · cases hpub : C.curve25519GeneratePublic (curve25519ClampSecret random) with
    | none => simp [hs]
    | some ue =>
      obtain ⟨hash, hlen, hne⟩ := hmix ue
      have hspoil : ∀ f : Bytes → Bytes, ∃ ck : Bytes, ck.length = 32 ∧ ∃ hash : Bytes,
          hash.length = 32 ∧ (C.noiseMixHash hash ue = hash → f ck ≠ ck) :=
        fun _ => ⟨hash, hlen, hash, hlen, fun h => absurd h hne⟩
      cases hee : C.curve25519 (curve25519ClampSecret random) r.rHandshake.hsE with
      | none => simpa [hs, hee, noiseMixDh, noiseMsgEphemeral] using hspoil _
      | some dh =>
        cases hse : C.curve25519 (curve25519ClampSecret random) r.rPublic with
        | none => simpa [hs, hee, hse, noiseMixDh, noiseMsgEphemeral] using hspoil _
        | some se => simp [hs, hee, hse, noiseMixDh]
  · simp [hs]

theorem acceptInitiation_keeps {r' : NoiseRemote m} {ck hash : Bytes}
    {uptime : Timespec} {index : BitVec 32}
    (h : noiseAcceptInitiation C r msg ck hash uptime index = (r', some e)) :
    r'.rHandshake = r.rHandshake := by
  rw [noiseAcceptInitiation] at h
  split at h
  · cases h
    rfl
  · split at h
    · cases h
      rfl
    · split at h
      · dsimp only at h
        split at h
        · cases h
        · cases h
          rfl
      · cases h
        rfl

theorem consumeInitiation_keeps {ι : Type} [DecidableEq ι] {remotes : ι → NoiseRemote m}
    {uRemoteGet : Bytes → Option ι} {uptime : Timespec}
    {index : BitVec 32}
    (h : (noiseConsumeInitiation C l uRemoteGet remotes msg uptime index).2 = .error e) (i : ι) :
    ((noiseConsumeInitiation C l uRemoteGet remotes msg uptime index).1 i).rHandshake =
      (remotes i).rHandshake := by
  rw [noiseConsumeInitiation] at h ⊢
  cases hopen : noiseOpenInitiation C l msg with
  | none => rfl
  | some sender =>
    simp only [hopen] at h ⊢
    cases hget : uRemoteGet sender.1 with
    | none => rfl
    | some j =>
      simp only [hget] at h ⊢
      rcases haccept : noiseAcceptInitiation C (remotes j) msg sender.2.1 sender.2.2 uptime index
        with ⟨r, _ | err⟩
      · simp only [haccept] at h
        cases h
      · change (update remotes j r i).rHandshake = _
        by_cases hij : i = j
        · subst hij
          rw [update_self]
          exact acceptInitiation_keeps haccept
        · rw [update_of_ne hij]

theorem storeResponse_keeps {hs : NoiseHandshake} (h : (noiseStoreResponse r hs).2 ≠ none) :
    (noiseStoreResponse r hs).1.rHandshake = r.rHandshake := by
  rw [noiseStoreResponse] at h ⊢
  split
  next heq => exact absurd (by rw [if_pos heq]) h
  next => rfl

theorem consumeResponse_keeps {msg : NoiseResponse}
    (h : (noiseConsumeResponse C l r msg).2 ≠ none) :
    (noiseConsumeResponse C l r msg).1.rHandshake = r.rHandshake := by
  rw [noiseConsumeResponse] at h ⊢
  cases hopen : noiseOpenResponse C l r.rHandshake r.rPsk msg with
  | none => rfl
  | some hs =>
    simp only [hopen] at h ⊢
    exact storeResponse_keeps h

/-- The functions that consume a message never fail with a changed handshake, also where the
second critical section of `noise_consume_response` finds another handshake than the first one.
The functions that create a message do, for some content of the handshake, exactly where a primitive
fails behind a write. -/
theorem failed_handshake_intact_iff (hmix : C.Mixes) (l : NoiseLocal) (r : NoiseRemote m)
    (random : Bytes) :
    (∀ now index, (∀ hs, hs.Sized → KeepsHandshake { r with rHandshake := hs }
        (noiseCreateInitiation C l { r with rHandshake := hs } random now index)) ↔
      InitiationComputes C l r random) ∧
    ((∀ ck hash, ck.length = 32 → hash.length = 32 → KeepsHandshake (r.holding ck hash)
        (noiseCreateResponse C (r.holding ck hash) random)) ↔ ResponseComputes C r random) ∧
    (∀ (ι : Type) [DecidableEq ι] (uRemoteGet : Bytes → Option ι) remotes msg uptime index e,
      (noiseConsumeInitiation C l uRemoteGet remotes msg uptime index).2 = .error e →
      ∀ i, ((noiseConsumeInitiation C l uRemoteGet remotes msg uptime index).1 i).rHandshake =
        (remotes i : NoiseRemote m).rHandshake) ∧
    (∀ msg, (noiseConsumeResponse C l r msg).2 ≠ none →
      (noiseConsumeResponse C l r msg).1.rHandshake = r.rHandshake) ∧
    (∀ hs, (noiseStoreResponse r hs).2 ≠ none →
      (noiseStoreResponse r hs).1.rHandshake = r.rHandshake) :=
  ⟨fun now index => createInitiation_keeps_iff l r random now index,
    createResponse_keeps_iff hmix r random, fun _ _ _ _ _ _ _ _ h i => consumeInitiation_keeps h i,
    fun _ h => consumeResponse_keeps h, fun _ h => storeResponse_keeps h⟩

section NullPeer

/-- Primitives for which, as for the ladder, the null point times any scalar is the null point. -/
def nullCrypto : NoiseCrypto :=
  { xorCrypto with
    blake2s := fun x => (x.map (· + 1)).take 32
    ladder := fun scalar point =>
      if point = nullPoint then nullPoint else xorCrypto.ladder scalar point }

def nullPeer : NoiseRemote .lp64 := noiseRemoteInit nullCrypto aliceLocal nullPoint

theorem nullCrypto_mixes : nullCrypto.Mixes := fun ue => by
  refine ⟨nullPoint, rfl, ?_⟩
  change ((nullPoint ++ ue).map (· + 1)).take 32 ≠ nullPoint
  rw [map_append, take_left' (by rfl)]
  decide

theorem failed_handshake_intact_fresh :
    InitiationComputes nullCrypto aliceLocal freshRemote (replicate 32 64) ∧
    ∀ index hs, hs.Sized → KeepsHandshake { freshRemote with rHandshake := hs }
      (noiseCreateInitiation nullCrypto aliceLocal { freshRemote with rHandshake := hs }
        (replicate 32 64) ⟨5, 0⟩ index) := by
  have hcomputes : InitiationComputes nullCrypto aliceLocal freshRemote (replicate 32 64) := by
    unfold InitiationComputes
    decide +kernel
  exact ⟨hcomputes, fun index => ((failed_handshake_intact_iff nullCrypto_mixes aliceLocal
    freshRemote (replicate 32 64)).1 ⟨5, 0⟩ index).mpr hcomputes⟩

/-- For a peer with the null point as its public key the combination with it fails, and a new
ephemeral, chaining key and hash stay behind under the old state. -/
theorem failed_handshake_spoiled : ¬KeepsHandshake nullPeer
    (noiseCreateInitiation nullCrypto aliceLocal nullPeer (replicate 32 64) ⟨5, 0⟩ 7) := by
  have hid : aliceLocal.lHasIdentity = true := by
    decide +kernel
  obtain ⟨ue, hpub⟩ : ∃ ue, nullCrypto.curve25519GeneratePublic
      (curve25519ClampSecret (replicate 32 64)) = some ue :=
    Option.ne_none_iff_exists'.mp (by decide +kernel)
  have hdh : nullCrypto.curve25519 (curve25519ClampSecret (replicate 32 64)) nullPeer.rPublic =
      none := by
    decide +kernel
  rw [noiseCreateInitiation, hid, if_neg (by decide)]
  simp only [hpub, hdh, noiseMixDh, keepsHandshake_error]
  have hne : curve25519ClampSecret (replicate 32 64) ≠ nullPeer.rHandshake.hsE := by
    decide +kernel
  exact fun hkept => hne (congrArg hsE hkept)

end NullPeer

end Mbsd.Net.WgNoise
