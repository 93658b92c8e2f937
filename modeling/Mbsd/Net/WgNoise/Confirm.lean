import Mbsd.Net.WgNoise.Handshake

/-! Key confirmation.  A run of the module is carried along with the history of its sessions, so
that the keypair behind `r_current` can be traced to the message that confirmed it. -/

namespace Mbsd.Net.WgNoise

open Sys List Option Function

variable {m : LongModel} {r r' : NoiseRemote m} {es : List SessionEvent} {kp : NoiseKeypair m}

/-- `begun` is a new keypair put into a slot; `authenticated` is a message that was decrypted with
the keypair in a slot and then passed `noise_counter_recv`. -/
inductive SessionEvent
  | begun (slot : Fin 3)
  | authenticated (slot : Fin 3)
  deriving DecidableEq, Repr

structure Session (m : LongModel) where
  remote : NoiseRemote m
  events : List SessionEvent

def Confirmed (events : List SessionEvent) (slot : Fin 3) : Prop :=
  ∃ newer older, events = newer ++ .authenticated slot :: older ∧ .begun slot ∉ newer

section Steps

variable (C : NoiseCrypto)

def beginEvents (r r' : NoiseRemote m) (uptime : Timespec) : List SessionEvent :=
  match (noiseDeriveKeypair C r.rHandshake uptime : Option (NoiseKeypair m)) with
  | none => []
  | some kp => ((if kp.kpIsInitiator then r'.rCurrent else r'.rNext).map .begun).toList

def decryptEvents (r : NoiseRemote m) (uptime : Timespec) (rIdx : BitVec 32) (nonce : BitVec 64)
    (buf : Bytes) : List SessionEvent :=
  match r.lookup rIdx with
  | none => []
  | some kp =>
    let k := r.rKeypair kp
    if noiseTimerExpired uptime k.kpBirthdate rejectAfterTime 0 ∨
        m.rejectAfterMessages ≤ k.kpCtr.cRecv then []
    else if (C.chacha20poly1305Decrypt buf [] nonce k.kpRecv).isSome ∧
        (noiseCounterRecv k.kpCtr nonce).2 = none then [.authenticated kp]
    else []

inductive RemoteSessionStep : Session m → Session m → Prop
  | setPsk r es psk : RemoteSessionStep ⟨r, es⟩ ⟨(noiseRemoteSetPsk r psk).1, es⟩
  | precompute r es l : RemoteSessionStep ⟨r, es⟩ ⟨noiseRemotePrecompute C l r, es⟩
  | createInitiation r es l random now index :
    RemoteSessionStep ⟨r, es⟩ ⟨(noiseCreateInitiation C l r random now index).1, es⟩
  | createResponse r es random :
    RemoteSessionStep ⟨r, es⟩ ⟨(noiseCreateResponse C r random).1, es⟩
  | consumeResponse r es l msg :
    RemoteSessionStep ⟨r, es⟩ ⟨(noiseConsumeResponse C l r msg).1, es⟩
  | storeResponse r es l hs hs' psk msg (hopen : noiseOpenResponse C l hs psk msg = some hs') :
    RemoteSessionStep ⟨r, es⟩ ⟨(noiseStoreResponse r hs').1, es⟩
  | beginSession r es r' err uptime (h : noiseRemoteBeginSession C r uptime = some (r', err)) :
    RemoteSessionStep ⟨r, es⟩ ⟨r', beginEvents C r r' uptime ++ es⟩
  | clear r es : RemoteSessionStep ⟨r, es⟩ ⟨noiseRemoteClear r, es⟩
  | expireCurrent r es : RemoteSessionStep ⟨r, es⟩ ⟨noiseRemoteExpireCurrent r, es⟩
  | encrypt r es uptime buf :
    RemoteSessionStep ⟨r, es⟩ ⟨(noiseRemoteEncrypt C r uptime buf).1, es⟩
  | decrypt r es uptime rIdx nonce buf :
    RemoteSessionStep ⟨r, es⟩ ⟨(noiseRemoteDecrypt C r uptime rIdx nonce buf).1,
      decryptEvents C r uptime rIdx nonce buf ++ es⟩

inductive SessionStep {ι : Type} [DecidableEq ι] : (ι → Session m) → (ι → Session m) → Prop
  | remote s i s' (h : RemoteSessionStep C (s i) s') : SessionStep s (Function.update s i s')
  | consumeInitiation s l uRemoteGet msg uptime index :
    SessionStep s fun i =>
      ⟨(noiseConsumeInitiation C l uRemoteGet (fun i => (s i).remote) msg uptime index).1 i,
        (s i).events⟩

end Steps

theorem Confirmed.cons {events : List SessionEvent} {slot : Fin 3} (h : Confirmed events slot)
    {e : SessionEvent} (he : e ≠ .begun slot) : Confirmed (e :: events) slot := by
  obtain ⟨newer, older, rfl, hnew⟩ := h
  refine ⟨e :: newer, older, rfl, ?_⟩
  rw [mem_cons, not_or]
  exact ⟨he.symm, hnew⟩

theorem confirmed_of_authenticated (events : List SessionEvent) (slot : Fin 3) :
    Confirmed (.authenticated slot :: events) slot :=
  ⟨[], events, rfl, not_mem_nil⟩

structure Session.Inv (s : Session m) : Prop where
  remote : s.remote.Inv
  confirmed : ∀ slot, s.remote.rCurrent = some slot →
    (s.remote.rKeypair slot).kpIsInitiator = false → Confirmed s.events slot

structure SameCurrent (r r' : NoiseRemote m) : Prop where
  current : r'.rCurrent = r.rCurrent
  role : ∀ slot, (r'.rKeypair slot).kpIsInitiator = (r.rKeypair slot).kpIsInitiator

@[simp] theorem dropIndex_rCurrent (r : NoiseRemote m) :
    (noiseRemoteHandshakeIndexDrop r).rCurrent = r.rCurrent := by
  rw [noiseRemoteHandshakeIndexDrop]
  split <;> rfl

@[simp] theorem dropIndex_rKeypair (r : NoiseRemote m) :
    (noiseRemoteHandshakeIndexDrop r).rKeypair = r.rKeypair := by
  rw [noiseRemoteHandshakeIndexDrop]
  split <;> rfl

namespace SameCurrent

variable {C : NoiseCrypto}

theorem refl (r : NoiseRemote m) : SameCurrent r r := ⟨rfl, fun _ => rfl⟩

theorem trans {r'' : NoiseRemote m} (h : SameCurrent r r') (h' : SameCurrent r' r'') :
    SameCurrent r r'' :=
  ⟨h'.current.trans h.current, fun slot => (h'.role slot).trans (h.role slot)⟩

theorem of_eq (hc : r'.rCurrent = r.rCurrent) (hk : r'.rKeypair = r.rKeypair) : SameCurrent r r' :=
  ⟨hc, fun slot => by rw [hk]⟩

theorem of_update {slot : Fin 3}
    (hc : r'.rCurrent = r.rCurrent) (hk : r'.rKeypair = Function.update r.rKeypair slot kp)
    (h : kp.kpIsInitiator = (r.rKeypair slot).kpIsInitiator) : SameCurrent r r' := by
  refine ⟨hc, fun i => ?_⟩
  rw [hk]
  by_cases hi : i = slot
  · subst hi
    rw [update_self, h]
  · rw [update_of_ne hi]

theorem keypairFree (r : NoiseRemote m) (kp : Option (Fin 3)) :
    SameCurrent r (noiseRemoteKeypairFree r kp) := by
  cases kp with
  | none => exact refl r
  | some kp => exact of_update rfl rfl rfl

theorem invalidate (r : NoiseRemote m) (kp : Option (Fin 3)) : SameCurrent r (r.invalidate kp) := by
  cases kp with
  | none => exact refl r
  | some kp => exact of_update rfl rfl rfl

theorem setPsk (r : NoiseRemote m) (psk : Bytes) : SameCurrent r (noiseRemoteSetPsk r psk).1 := by
  rw [noiseRemoteSetPsk]
  split
  · exact refl r
  · exact of_eq rfl rfl

theorem precompute (l : NoiseLocal) (r : NoiseRemote m) :
    SameCurrent r (noiseRemotePrecompute C l r) :=
  of_eq (dropIndex_rCurrent _) (dropIndex_rKeypair _)

theorem createInitiation (l : NoiseLocal) (r : NoiseRemote m) (random : Bytes) (now : Timespec)
    (index : BitVec 32) : SameCurrent r (noiseCreateInitiation C l r random now index).1 := by
  rw [noiseCreateInitiation]
  split
  · exact refl r
  · dsimp only
    split
    · exact of_eq rfl rfl
    · split
      · exact of_eq rfl rfl
      · split
        · exact of_eq rfl rfl
        · exact of_eq (dropIndex_rCurrent _) (dropIndex_rKeypair _)

theorem acceptInitiation (r : NoiseRemote m) (msg : NoiseInitiation) (ck hash : Bytes)
    (uptime : Timespec) (index : BitVec 32) :
    SameCurrent r (noiseAcceptInitiation C r msg ck hash uptime index).1 := by
  rw [noiseAcceptInitiation]
  split
  · exact refl r
  · split
    · exact refl r
    · split
      · dsimp only
        split
        · exact of_eq (dropIndex_rCurrent _) (dropIndex_rKeypair _)
        · exact of_eq rfl rfl
      · exact refl r

theorem createResponse (r : NoiseRemote m) (random : Bytes) :
    SameCurrent r (noiseCreateResponse C r random).1 := by
  rw [noiseCreateResponse]
  split
  · exact refl r
  · dsimp only
    split
    · exact refl r
    · split
      · exact of_eq rfl rfl
      · split <;> exact of_eq rfl rfl

theorem storeResponse (r : NoiseRemote m) (hs : NoiseHandshake) :
    SameCurrent r (noiseStoreResponse r hs).1 := by
  rw [noiseStoreResponse]
  split
  · exact of_eq rfl rfl
  · exact refl r

theorem consumeResponse (l : NoiseLocal) (r : NoiseRemote m) (msg : NoiseResponse) :
    SameCurrent r (noiseConsumeResponse C l r msg).1 := by
  rw [noiseConsumeResponse]
  split
  · exact refl r
  · exact storeResponse r _

theorem encrypt (r : NoiseRemote m) (uptime : Timespec) (buf : Bytes) :
    SameCurrent r (noiseRemoteEncrypt C r uptime buf).1 := by
  rw [noiseRemoteEncrypt]
  split
  · exact refl r
  · dsimp only
    split
    · exact refl r
    · split
      · exact of_update rfl rfl rfl
      · split <;> exact of_update rfl rfl rfl

theorem retireResponder (r : NoiseRemote m) : SameCurrent r (noiseRetireKeypairs r false) := by
  refine (keypairFree r r.rNext).trans (trans ?_ (keypairFree _ r.rPrevious))
  exact of_eq rfl rfl

end SameCurrent

theorem addNewKeypair_responder
    (h : r.SlotsPartitioned) (hrole : kp.kpIsInitiator = false)
    (hadd : noiseAddNewKeypair r kp = some r') :
    ∃ slot, r'.rNext = some slot ∧ r.rCurrent ≠ some slot ∧ r'.rCurrent = r.rCurrent ∧
      ∀ i, i ≠ slot → (r'.rKeypair i).kpIsInitiator = (r.rKeypair i).kpIsInitiator := by
  have hretire := SameCurrent.retireResponder r
  obtain ⟨slot, rest, hfree, hkept⟩ :=
    exists_free_slot fun slot => (retire_count r false slot).trans (h slot)
  rw [noiseAddNewKeypair, hrole, allocate_eq_some hfree] at hadd
  simp only [Bool.false_eq_true, if_false, some.injEq] at hadd
  subst hadd
  refine ⟨slot, rfl, ?_, hretire.current, fun i hi => ?_⟩
  · intro hcur
    simp [NoiseRemote.kept, hcur] at hkept
  · simp only [update_of_ne hi]
    exact hretire.role i

namespace Session.Inv

theorem of_same {es' : List SessionEvent}
    (h : Session.Inv ⟨r, es⟩) (hr : r'.Inv) (hsame : SameCurrent r r')
    (hes : ∀ slot, r.rCurrent = some slot → Confirmed es slot → Confirmed es' slot) :
    Session.Inv ⟨r', es'⟩ := by
  refine ⟨hr, fun slot hcur hrole => ?_⟩
  rw [hsame.current] at hcur
  rw [hsame.role] at hrole
  exact hes slot hcur (h.confirmed slot hcur hrole)

variable {C : NoiseCrypto}

section

variable (h : Session.Inv ⟨r, es⟩)

include h

theorem beginSession {uptime : Timespec} {err : Option Errno}
    (hbegin : noiseRemoteBeginSession C r uptime = some (r', err)) :
    Session.Inv ⟨r', beginEvents C r r' uptime ++ es⟩ := by
  have hr' : r'.Inv := h.remote.beginSession C hbegin
  rw [noiseRemoteBeginSession] at hbegin
  rw [beginEvents]
  cases hkp : (noiseDeriveKeypair C r.rHandshake uptime : Option (NoiseKeypair m)) with
  | none =>
    rw [hkp] at hbegin
    cases hbegin
    exact h
  | some kp =>
    obtain ⟨r₁, hadd, hin⟩ := addNewKeypair_installed h.remote.slots kp
    simp only [hkp, hadd] at hbegin
    cases hbegin
    dsimp only
    cases hrole : kp.kpIsInitiator with
    | true =>
      obtain ⟨slot, hslot, hstored⟩ := hin.stored
      rw [hrole, if_pos rfl] at hslot
      refine ⟨hr', fun slot' hcur hresp => ?_⟩
      have heq : slot = slot' := some.inj (hslot.symm.trans hcur)
      change (r₁.rKeypair slot').kpIsInitiator = false at hresp
      rw [← heq, hstored, hrole] at hresp
      cases hresp
    | false =>
      obtain ⟨slot, hnext, hne, hcur, hsame⟩ :=
        addNewKeypair_responder h.remote.slots hrole hadd
      refine ⟨hr', fun slot' hcur' hresp => ?_⟩
      replace hcur' : r.rCurrent = some slot' := hcur.symm.trans hcur'
      have hdiff : slot' ≠ slot := by
        intro heq
        exact hne (heq ▸ hcur')
      have hconf := h.confirmed slot' hcur' ((hsame slot' hdiff).symm.trans hresp)
      simp only [Bool.false_eq_true, if_false, hnext, map_some, toList_some, singleton_append]
      exact hconf.cons fun heq => hdiff (SessionEvent.begun.inj heq).symm

theorem confirm (uptime : Timespec) (slot : Fin 3) (rIdx : BitVec 32) :
    Session.Inv ⟨(noiseRemoteConfirm r uptime slot rIdx).1, .authenticated slot :: es⟩ := by
  have hr' := h.remote.confirm uptime slot rIdx
  have hsame : Session.Inv ⟨r, .authenticated slot :: es⟩ :=
    h.of_same h.remote (SameCurrent.refl r) fun _ _ hconf => hconf.cons nofun
  rw [noiseRemoteConfirm] at hr' ⊢
  split
  next hnext =>
    rw [if_pos hnext] at hr'
    refine ⟨hr', fun slot' hcur _ => ?_⟩
    have hcur : r.rNext = some slot' := by simpa using hcur
    rw [hcur] at hnext
    cases hnext.1
    exact confirmed_of_authenticated es slot
  next => split <;> exact hsame

theorem decrypt (uptime : Timespec) (rIdx : BitVec 32) (nonce : BitVec 64) (buf : Bytes) :
    Session.Inv ⟨(noiseRemoteDecrypt C r uptime rIdx nonce buf).1,
      decryptEvents C r uptime rIdx nonce buf ++ es⟩ := by
  rw [noiseRemoteDecrypt, decryptEvents]
  cases hlook : r.lookup rIdx with
  | none => exact h
  | some slot =>
    dsimp only
    split
    · exact h
    · cases hdec : C.chacha20poly1305Decrypt buf [] nonce (r.rKeypair slot).kpRecv with
      | none => simpa using h
      | some plain =>
        have hupd (ctr : NoiseCounter m) : Session.Inv ⟨{ r with
            rKeypair := update r.rKeypair slot { r.rKeypair slot with kpCtr := ctr } }, es⟩ :=
          h.of_same (h.remote.update_keypair rfl) (SameCurrent.of_update rfl rfl rfl)
            fun _ _ hconf => hconf
        cases hrecv : (noiseCounterRecv (r.rKeypair slot).kpCtr nonce).2 with
        | none => simpa [hrecv] using (hupd _).confirm uptime slot rIdx
        | some err => simpa [hrecv] using hupd _

theorem clear : Session.Inv ⟨noiseRemoteClear r, es⟩ :=
  ⟨h.remote.clear, fun _ hcur => by cases hcur⟩

theorem quiet (hstep : RemoteStep C r r') (hsame : SameCurrent r r') : Session.Inv ⟨r', es⟩ :=
  h.of_same (hstep.inv h.remote) hsame fun _ _ hconf => hconf

end

theorem step {s s' : Session m} (h : s.Inv) (hstep : RemoteSessionStep C s s') : s'.Inv := by
  cases hstep with
  | setPsk r es psk => exact h.quiet (.setPsk (C := C) r psk) (.setPsk r psk)
  | precompute r es l => exact h.quiet (.precompute r l) (.precompute l r)
  | createInitiation r es l random now index =>
    exact h.quiet (.createInitiation r l random now index)
      (.createInitiation l r random now index)
  | createResponse r es random =>
    exact h.quiet (.createResponse r random) (.createResponse r random)
  | consumeResponse r es l msg =>
    exact h.quiet (.consumeResponse r l msg) (.consumeResponse l r msg)
  | storeResponse r es l hs hs' psk msg hopen =>
    exact h.quiet (.storeResponse r l hs hs' psk msg hopen) (.storeResponse r hs')
  | beginSession r es r' err uptime hbegin => exact h.beginSession hbegin
  | clear r es => exact h.clear
  | expireCurrent r es =>
    exact h.quiet (.expireCurrent (C := C) r)
      ((SameCurrent.invalidate r r.rNext).trans (.invalidate _ r.rCurrent))
  | encrypt r es uptime buf => exact h.quiet (.encrypt r uptime buf) (.encrypt r uptime buf)
  | decrypt r es uptime rIdx nonce buf => exact h.decrypt uptime rIdx nonce buf

theorem consumeInitiation {ι : Type} [DecidableEq ι] {s : ι → Session m} (h : ∀ i, (s i).Inv)
    (l : NoiseLocal) (uRemoteGet : Bytes → Option ι) (msg : NoiseInitiation) (uptime : Timespec)
    (index : BitVec 32) (i : ι) :
    Session.Inv ⟨(noiseConsumeInitiation C l uRemoteGet (fun i => (s i).remote) msg uptime index).1
      i, (s i).events⟩ := by
  have hr' := NoiseRemote.Inv.consumeInitiation C (fun i => (h i).remote) l uRemoteGet msg uptime
    index i
  refine Session.Inv.of_same (h i) hr' ?_ fun _ _ hconf => hconf
  rw [noiseConsumeInitiation]
  split
  · exact SameCurrent.refl _
  next rPublic ck hash _ =>
    split
    · exact SameCurrent.refl _
    next j _ =>
      have haccept := SameCurrent.acceptInitiation (C := C) (s j).remote msg ck hash uptime index
      split <;> next hr =>
        rw [hr] at haccept
        by_cases hij : i = j
        · subst hij
          simpa using haccept
        · simpa [update_of_ne hij] using SameCurrent.refl (s i).remote

end Session.Inv

variable {C : NoiseCrypto} {ι : Type} [DecidableEq ι]

theorem SessionStep.inv {s s' : ι → Session m} (hstep : SessionStep C s s')
    (h : ∀ i, (s i).Inv) (i : ι) : (s' i).Inv := by
  cases hstep with
  | remote j r hr =>
    by_cases hij : i = j
    · subst hij
      simpa using (h i).step hr
    · simpa [update_of_ne hij] using h i
  | consumeInitiation l uRemoteGet msg uptime index =>
    exact Session.Inv.consumeInitiation h l uRemoteGet msg uptime index i

theorem sessionRun_inv {s s' : ι → Session m}
    (hrun : Relation.ReflTransGen (SessionStep C) s s') (h : ∀ i, (s i).Inv) : ∀ i, (s' i).Inv := by
  induction hrun with
  | refl => exact h
  | tail _ hstep ih => exact hstep.inv ih

theorem Session.Inv.init (C : NoiseCrypto) (l : NoiseLocal) (pub : Bytes) :
    Session.Inv (m := m) ⟨noiseRemoteInit C l pub, []⟩ := by
  refine ⟨NoiseRemote.Inv.init C l pub, fun slot hcur => ?_⟩
  rw [show (noiseRemoteInit C l pub : NoiseRemote m).rCurrent = none from
    (SameCurrent.precompute l _).current] at hcur
  cases hcur

/-- In every run, a keypair that `noise_remote_encrypt` uses with success and that was not begun
as initiator has authenticated a message since it was put into its slot. -/
theorem responder_encrypts_confirmed (l : ι → NoiseLocal) (pub : ι → Bytes) {s : ι → Session m}
    (hrun : Relation.ReflTransGen (SessionStep C)
      (fun i => ⟨noiseRemoteInit C (l i) (pub i), []⟩) s) (i : ι) (uptime : Timespec) (buf : Bytes)
    (hok : (noiseRemoteEncrypt C (s i).remote uptime buf).2.1 ∈ [none, some .ESTALE]) :
    ∃ slot, (s i).remote.rCurrent = some slot ∧
      (((s i).remote.rKeypair slot).kpIsInitiator = false → Confirmed (s i).events slot) := by
  have h := sessionRun_inv hrun (fun i => Session.Inv.init C (l i) (pub i)) i
  cases hcur : (s i).remote.rCurrent with
  | none => simp [noiseRemoteEncrypt, hcur] at hok
  | some slot => exact ⟨slot, rfl, h.confirmed slot hcur⟩

section Concrete

def bobFresh : Unit → Session .lp64 :=
  fun _ => ⟨noiseRemoteInit xorCrypto bobLocal aliceLocal.lPublic, []⟩

def aliceInitiation : NoiseInitiation :=
  match (noiseCreateInitiation xorCrypto aliceLocal freshRemote aliceEphemeral ⟨5, 0⟩ 7).2 with
  | .ok initiation => initiation
  | .error _ => ⟨0, [], [], []⟩

/-- The responder after an initiation, its response to it, the start of the session and the first
message under the new keypair. -/
def bobConsumed : Unit → Session .lp64 := fun i =>
  ⟨(noiseConsumeInitiation xorCrypto bobLocal (fun _ => some ()) (fun i => (bobFresh i).remote)
    aliceInitiation ⟨1, 0⟩ 9).1 i, []⟩

def bobResponded : NoiseRemote .lp64 :=
  (noiseCreateResponse xorCrypto (bobConsumed ()).remote bobEphemeral).1

def bobBegun : NoiseRemote .lp64 :=
  ((noiseRemoteBeginSession xorCrypto bobResponded ⟨1, 0⟩).map Prod.fst).getD bobResponded

section

local instance slots_ne_zero_message : NeZero 3 := ⟨Nat.succ_ne_zero 2⟩

def bobMessage : Bytes :=
  xorCrypto.chacha20poly1305Encrypt [1] [] 0 (bobBegun.rKeypair 2).kpRecv

end

def bobConfirmed : NoiseRemote .lp64 :=
  (noiseRemoteDecrypt xorCrypto bobBegun ⟨1, 0⟩ 9 0 bobMessage).1

theorem sessionStep_unit {s s' : Session .lp64} (h : RemoteSessionStep xorCrypto s s') :
    SessionStep xorCrypto (fun _ : Unit => s) (fun _ => s') := by
  have := SessionStep.remote (fun _ : Unit => s) () s' h
  rwa [update_eq_const_of_subsingleton] at this

theorem bobBegun_begins :
    noiseRemoteBeginSession xorCrypto bobResponded ⟨1, 0⟩ = some (bobBegun, none) := by
  have herr : (noiseRemoteBeginSession xorCrypto bobResponded ⟨1, 0⟩).map Prod.snd = some none := by
    decide +kernel
  obtain ⟨⟨r, err⟩, hr, herr⟩ := map_eq_some_iff.mp herr
  rw [bobBegun, hr, ← herr]
  rfl

theorem bobConfirmed_run : Relation.ReflTransGen (SessionStep xorCrypto) bobFresh
    (fun _ => ⟨bobConfirmed, [.authenticated 2, .begun 2]⟩) := by
  have hconsume : SessionStep xorCrypto bobFresh bobConsumed :=
    .consumeInitiation bobFresh bobLocal (fun _ => some ()) aliceInitiation ⟨1, 0⟩ 9
  have hrespond : SessionStep xorCrypto bobConsumed (fun _ => ⟨bobResponded, []⟩) :=
    sessionStep_unit (.createResponse (bobConsumed ()).remote [] bobEphemeral)
  have hbegin := sessionStep_unit (.beginSession bobResponded [] bobBegun none ⟨1, 0⟩
    bobBegun_begins)
  have hdecrypt := sessionStep_unit
    (.decrypt (C := xorCrypto) bobBegun [.begun 2] ⟨1, 0⟩ 9 0 bobMessage)
  rw [show beginEvents xorCrypto bobResponded bobBegun ⟨1, 0⟩ = [.begun 2] by
    decide +kernel] at hbegin
  rw [show decryptEvents xorCrypto bobBegun ⟨1, 0⟩ 9 0 bobMessage = [.authenticated 2] by
    decide +kernel] at hdecrypt
  exact (((Relation.ReflTransGen.single hconsume).tail hrespond).tail hbegin).tail hdecrypt

/-- The responder's first message goes out under the keypair that the initiator's confirmed. -/
theorem responder_encrypts_confirmed_bob : (bobConfirmed.rKeypair 2).kpIsInitiator = false ∧
    ∃ slot, bobConfirmed.rCurrent = some slot ∧
      ((bobConfirmed.rKeypair slot).kpIsInitiator = false →
        Confirmed [.authenticated 2, .begun 2] slot) :=
  ⟨by decide +kernel,
    responder_encrypts_confirmed (fun _ => bobLocal) (fun _ => aliceLocal.lPublic) bobConfirmed_run
      () ⟨1, 0⟩ [2] (by decide +kernel)⟩

end Concrete

end Mbsd.Net.WgNoise
