import Mbsd.Net.WgNoise.Counter

/-! The handshake, session and transport functions of `net/wg_noise.c`.  The primitives of
`crypto/` are a parameter; what the environment supplies to a call (random bytes, the clocks,
the index `u_index_set` returns) is an argument of the call. -/

namespace Mbsd.Net.WgNoise

open Sys

abbrev Bytes := List UInt8

def nullPoint : Bytes := List.replicate 32 0
def basePoint : Bytes := 9 :: List.replicate 31 0

/-- The primitives: the hash and its keyed form with 32 bytes of output, the Montgomery ladder
on an already clamped scalar, and the authenticated cipher (text, additional data, nonce, key). -/
structure NoiseCrypto where
  blake2s : Bytes → Bytes
  blake2sHmac : Bytes → Bytes → Bytes
  ladder : Bytes → Bytes → Bytes
  chacha20poly1305Encrypt : Bytes → Bytes → BitVec 64 → Bytes → Bytes
  chacha20poly1305Decrypt : Bytes → Bytes → BitVec 64 → Bytes → Option Bytes

def curve25519ClampSecret (secret : Bytes) : Bytes :=
  (secret.modify 0 (· &&& 248)).modify 31 (fun b => (b &&& 127) ||| 64)

namespace NoiseCrypto

variable (C : NoiseCrypto)

def curve25519 (scalar point : Bytes) : Option Bytes :=
  let out := C.ladder (curve25519ClampSecret scalar) point
  if out = nullPoint then none else some out

def curve25519GeneratePublic (secret : Bytes) : Option Bytes :=
  if secret = nullPoint then none else C.curve25519 secret basePoint

def noiseKdf (x ck : Bytes) : Bytes × Bytes × Bytes :=
  let sec := C.blake2sHmac x ck
  let a := C.blake2sHmac [1] sec
  let b := C.blake2sHmac (a ++ [2]) sec
  let c := C.blake2sHmac (b ++ [3]) sec
  (a, b, c)

def noiseMixDh (ck priv pub : Bytes) : Option (Bytes × Bytes) :=
  match C.curve25519 priv pub with
  | none => none
  | some dh => some ((C.noiseKdf dh ck).1, (C.noiseKdf dh ck).2.1)

def noiseMixSs (ck ss : Bytes) : Option (Bytes × Bytes) :=
  if ss = nullPoint then none
  else some ((C.noiseKdf ss ck).1, (C.noiseKdf ss ck).2.1)

def noiseMixHash (hash src : Bytes) : Bytes := C.blake2s (hash ++ src)

def noiseMixPsk (ck hash psk : Bytes) : Bytes × Bytes × Bytes :=
  let k := C.noiseKdf psk ck
  (k.1, C.noiseMixHash hash k.2.1, k.2.2)

def noiseHandshakeName : Bytes := "Noise_IKpsk2_25519_ChaChaPoly_BLAKE2s".toUTF8.toList
def noiseIdentifierName : Bytes := "WireGuard v1 zx2c4 Jason@zx2c4.com".toUTF8.toList

def noiseParamInit (s : Bytes) : Bytes × Bytes :=
  let ck := C.blake2s noiseHandshakeName
  (ck, C.noiseMixHash (C.blake2s (ck ++ noiseIdentifierName)) s)

def noiseMsgEncrypt (src key hash : Bytes) : Bytes × Bytes :=
  let dst := C.chacha20poly1305Encrypt src hash 0 key
  (dst, C.noiseMixHash hash dst)

def noiseMsgDecrypt (src key hash : Bytes) : Option (Bytes × Bytes) :=
  match C.chacha20poly1305Decrypt src hash 0 key with
  | none => none
  | some dst => some (dst, C.noiseMixHash hash src)

def noiseMsgEphemeral (ck hash src : Bytes) : Bytes × Bytes :=
  ((C.noiseKdf src ck).1, C.noiseMixHash hash src)

end NoiseCrypto

structure Timespec where
  tvSec : Int
  tvNsec : Int
  deriving DecidableEq, Repr

def timespecAdd (t u : Timespec) : Timespec :=
  if 1000000000 ≤ t.tvNsec + u.tvNsec then
    ⟨t.tvSec + u.tvSec + 1, t.tvNsec + u.tvNsec - 1000000000⟩
  else ⟨t.tvSec + u.tvSec, t.tvNsec + u.tvNsec⟩

def timespecGt (t u : Timespec) : Bool :=
  if t.tvSec = u.tvSec then u.tvNsec < t.tvNsec else u.tvSec < t.tvSec

def rejectInterval : Int := 1000000000 / 50
def rekeyAfterTime : Int := 120
def rekeyAfterTimeRecv : Int := 165
def rejectAfterTime : Int := 180
def rekeyAfterMessages : BitVec 64 := 1 <<< 60

def noiseTimerExpired (uptime birthdate : Timespec) (sec nsec : Int) : Bool :=
  timespecGt uptime (timespecAdd birthdate ⟨sec, nsec⟩)

def bigEndian (n v : Nat) : Bytes :=
  (List.range n).reverse.map (fun i => UInt8.ofNat (v / 256 ^ i))

def noiseTai64nNow (now : Timespec) : Bytes :=
  bigEndian 8 (BitVec.ofInt 64 (0x400000000000000a + now.tvSec)).toNat ++
    bigEndian 4 (BitVec.ofInt 64 now.tvNsec &&& ~~~0xffffff).toNat

inductive NoiseStateHs
  | hsZeroed | createdInitiation | consumedInitiation | createdResponse | consumedResponse
  deriving DecidableEq, Repr

structure NoiseHandshake where
  hsState : NoiseStateHs
  hsLocalIndex : BitVec 32
  hsRemoteIndex : BitVec 32
  hsE : Bytes
  hsHash : Bytes
  hsCk : Bytes
  deriving DecidableEq

def NoiseHandshake.zero : NoiseHandshake :=
  ⟨.hsZeroed, 0, 0, List.replicate 32 0, List.replicate 32 0, List.replicate 32 0⟩

structure NoiseKeypair (m : LongModel) where
  kpValid : Bool
  kpIsInitiator : Bool
  kpLocalIndex : BitVec 32
  kpRemoteIndex : BitVec 32
  kpSend : Bytes
  kpRecv : Bytes
  kpBirthdate : Timespec
  kpCtr : NoiseCounter m

structure NoiseLocal where
  lHasIdentity : Bool
  lPublic : Bytes
  lPrivate : Bytes

inductive NoiseUpcall
  | indexSet (index : BitVec 32)
  | indexDrop (index : BitVec 32)
  deriving DecidableEq, Repr

/-- `upcalls` is the history of the index upcalls made for this remote, latest first. -/
structure NoiseRemote (m : LongModel) where
  rPublic : Bytes
  rSs : Bytes
  rHandshake : NoiseHandshake
  rPsk : Bytes
  rTimestamp : Bytes
  rLastInit : Timespec
  rUnusedKeypairs : List (Fin 3)
  rNext : Option (Fin 3)
  rCurrent : Option (Fin 3)
  rPrevious : Option (Fin 3)
  rKeypair : Fin 3 → NoiseKeypair m
  upcalls : List NoiseUpcall

variable {m : LongModel}

def noiseRemoteHandshakeIndexDrop (r : NoiseRemote m) : NoiseRemote m :=
  if r.rHandshake.hsState ≠ .hsZeroed then
    { r with upcalls := .indexDrop r.rHandshake.hsLocalIndex :: r.upcalls }
  else r

def noiseRemoteHandshakeIndexGet (r : NoiseRemote m) (index : BitVec 32) : NoiseRemote m :=
  { r with upcalls := .indexSet index :: r.upcalls }

def noiseRemoteKeypairAllocate (r : NoiseRemote m) : Option (Fin 3 × NoiseRemote m) :=
  match r.rUnusedKeypairs with
  | [] => none
  | kp :: rest => some (kp, { r with rUnusedKeypairs := rest })

def noiseRemoteKeypairFree (r : NoiseRemote m) : Option (Fin 3) → NoiseRemote m
  | none => r
  | some kp =>
    { r with
      rUnusedKeypairs := kp :: r.rUnusedKeypairs
      upcalls := .indexDrop (r.rKeypair kp).kpLocalIndex :: r.upcalls
      rKeypair := Function.update r.rKeypair kp
        { r.rKeypair kp with kpSend := nullPoint, kpRecv := nullPoint } }

section Handshake

variable (C : NoiseCrypto)

def noiseLocalSetPrivate (priv : Bytes) : NoiseLocal :=
  match C.curve25519GeneratePublic priv with
  | none => ⟨false, nullPoint, curve25519ClampSecret priv⟩
  | some pub => ⟨true, pub, curve25519ClampSecret priv⟩

def noiseRemotePrecompute (l : NoiseLocal) (r : NoiseRemote m) : NoiseRemote m :=
  let ss := if l.lHasIdentity then (C.curve25519 l.lPrivate r.rPublic).getD nullPoint
    else nullPoint
  { noiseRemoteHandshakeIndexDrop { r with rSs := ss } with rHandshake := .zero }

def NoiseKeypair.zero : NoiseKeypair m :=
  ⟨false, false, 0, 0, nullPoint, nullPoint, ⟨0, 0⟩, .zero⟩

section

local instance slots_ne_zero : NeZero 3 := ⟨Nat.succ_ne_zero 2⟩

def noiseRemoteInit (l : NoiseLocal) (pub : Bytes) : NoiseRemote m :=
  noiseRemotePrecompute C l
    { rPublic := pub
      rSs := nullPoint
      rHandshake := .zero
      rPsk := nullPoint
      rTimestamp := List.replicate 12 0
      rLastInit := ⟨0, 0⟩
      rUnusedKeypairs := [2, 1, 0]
      rNext := none
      rCurrent := none
      rPrevious := none
      rKeypair := fun _ => .zero
      upcalls := [] }

end

def noiseRemoteSetPsk (r : NoiseRemote m) (psk : Bytes) : NoiseRemote m × Option Errno :=
  if r.rPsk = psk then (r, some .EEXIST) else ({ r with rPsk := psk }, none)

structure NoiseInitiation where
  sIdx : BitVec 32
  ue : Bytes
  es : Bytes
  ets : Bytes

structure NoiseResponse where
  sIdx : BitVec 32
  rIdx : BitVec 32
  ue : Bytes
  en : Bytes

/-- The handshake of `r` is built in place, so an error leaves what was written so far. -/
def noiseCreateInitiation (l : NoiseLocal) (r : NoiseRemote m) (random : Bytes)
    (now : Timespec) (index : BitVec 32) : NoiseRemote m × Except Errno NoiseInitiation :=
  if l.lHasIdentity = false then (r, .error .EINVAL)
  else
    let (ck, hash) := C.noiseParamInit r.rPublic
    let e := curve25519ClampSecret random
    let r := { r with rHandshake := { r.rHandshake with hsCk := ck, hsHash := hash, hsE := e } }
    match C.curve25519GeneratePublic e with
    | none => (r, .error .EINVAL)
    | some ue =>
      let (ck, hash) := C.noiseMsgEphemeral ck hash ue
      let r := { r with rHandshake := { r.rHandshake with hsCk := ck, hsHash := hash } }
      match C.noiseMixDh ck e r.rPublic with
      | none => (r, .error .EINVAL)
      | some (ck, key) =>
        let (es, hash) := C.noiseMsgEncrypt l.lPublic key hash
        let r := { r with rHandshake := { r.rHandshake with hsCk := ck, hsHash := hash } }
        match C.noiseMixSs ck r.rSs with
        | none => (r, .error .EINVAL)
        | some (ck, key) =>
          let (ets, hash) := C.noiseMsgEncrypt (noiseTai64nNow now) key hash
          let r := { r with rHandshake := { r.rHandshake with hsCk := ck, hsHash := hash } }
          let r := noiseRemoteHandshakeIndexGet (noiseRemoteHandshakeIndexDrop r) index
          ({ r with rHandshake := { r.rHandshake with
              hsState := .createdInitiation, hsLocalIndex := index } },
            .ok ⟨index, ue, es, ets⟩)

def noiseOpenInitiation (l : NoiseLocal) (msg : NoiseInitiation) :
    Option (Bytes × Bytes × Bytes) :=
  if l.lHasIdentity = false then none
  else
    let (ck, hash) := C.noiseParamInit l.lPublic
    let (ck, hash) := C.noiseMsgEphemeral ck hash msg.ue
    match C.noiseMixDh ck l.lPrivate msg.ue with
    | none => none
    | some (ck, key) =>
      match C.noiseMsgDecrypt msg.es key hash with
      | none => none
      | some (rPublic, hash) => some (rPublic, ck, hash)

/-- The rest of `noise_consume_initiation`, on the remote `r` that `u_remote_get` returned. -/
def noiseAcceptInitiation (r : NoiseRemote m) (msg : NoiseInitiation) (ck hash : Bytes)
    (uptime : Timespec) (index : BitVec 32) : NoiseRemote m × Option Errno :=
  match C.noiseMixSs ck r.rSs with
  | none => (r, some .EINVAL)
  | some (ck, key) =>
    match C.noiseMsgDecrypt msg.ets key hash with
    | none => (r, some .EINVAL)
    | some (timestamp, hash) =>
      if r.rTimestamp < timestamp then
        let r := { r with rTimestamp := timestamp }
        if noiseTimerExpired uptime r.rLastInit 0 rejectInterval then
          let r := { r with rLastInit := uptime }
          let r := noiseRemoteHandshakeIndexGet (noiseRemoteHandshakeIndexDrop r) index
          ({ r with rHandshake := ⟨.consumedInitiation, index, msg.sIdx, msg.ue, hash, ck⟩ },
            none)
        else (r, some .EINVAL)
      else (r, some .EINVAL)

/-- `noise_consume_initiation` for the remotes of one local: `u_remote_get` picks the remote by
the public key of the sender, and the last component is the remote the message was from. -/
def noiseConsumeInitiation {ι : Type} [DecidableEq ι] (l : NoiseLocal)
    (uRemoteGet : Bytes → Option ι) (remotes : ι → NoiseRemote m) (msg : NoiseInitiation)
    (uptime : Timespec) (index : BitVec 32) :
    (ι → NoiseRemote m) × Except Errno ι :=
  match noiseOpenInitiation C l msg with
  | none => (remotes, .error .EINVAL)
  | some (rPublic, ck, hash) =>
    match uRemoteGet rPublic with
    | none => (remotes, .error .EINVAL)
    | some i =>
      match noiseAcceptInitiation C (remotes i) msg ck hash uptime index with
      | (r, none) => (Function.update remotes i r, .ok i)
      | (r, some e) => (Function.update remotes i r, .error e)

def noiseCreateResponse (r : NoiseRemote m) (random : Bytes) :
    NoiseRemote m × Except Errno NoiseResponse :=
  if r.rHandshake.hsState ≠ .consumedInitiation then (r, .error .EINVAL)
  else
    let e := curve25519ClampSecret random
    match C.curve25519GeneratePublic e with
    | none => (r, .error .EINVAL)
    | some ue =>
      let (ck, hash) := C.noiseMsgEphemeral r.rHandshake.hsCk r.rHandshake.hsHash ue
      let r := { r with rHandshake := { r.rHandshake with hsCk := ck, hsHash := hash } }
      match C.noiseMixDh ck e r.rHandshake.hsE with
      | none => (r, .error .EINVAL)
      | some (ck, _) =>
        let r := { r with rHandshake := { r.rHandshake with hsCk := ck } }
        match C.noiseMixDh ck e r.rPublic with
        | none => (r, .error .EINVAL)
        | some (ck, _) =>
          let (ck, hash, key) := C.noiseMixPsk ck hash r.rPsk
          let (en, hash) := C.noiseMsgEncrypt [] key hash
          ({ r with rHandshake := { r.rHandshake with
              hsCk := ck, hsHash := hash, hsState := .createdResponse } },
            .ok ⟨r.rHandshake.hsLocalIndex, r.rHandshake.hsRemoteIndex, ue, en⟩)

def noiseOpenResponse (l : NoiseLocal) (hs : NoiseHandshake) (psk : Bytes)
    (msg : NoiseResponse) : Option NoiseHandshake :=
  if l.lHasIdentity = false then none
  else if hs.hsState ≠ .createdInitiation ∨ hs.hsLocalIndex ≠ msg.rIdx then none
  else
    let (ck, hash) := C.noiseMsgEphemeral hs.hsCk hs.hsHash msg.ue
    match C.noiseMixDh ck hs.hsE msg.ue with
    | none => none
    | some (ck, _) =>
      match C.noiseMixDh ck l.lPrivate msg.ue with
      | none => none
      | some (ck, _) =>
        let (ck, hash, key) := C.noiseMixPsk ck hash psk
        match C.noiseMsgDecrypt msg.en key hash with
        | none => none
        | some (_, hash) =>
          some { hs with hsCk := ck, hsHash := hash, hsRemoteIndex := msg.sIdx }

def noiseStoreResponse (r : NoiseRemote m) (hs : NoiseHandshake) :
    NoiseRemote m × Option Errno :=
  if r.rHandshake.hsState = hs.hsState ∧ r.rHandshake.hsLocalIndex = hs.hsLocalIndex then
    ({ r with rHandshake := { hs with hsState := .consumedResponse } }, none)
  else (r, some .EINVAL)

def noiseConsumeResponse (l : NoiseLocal) (r : NoiseRemote m) (msg : NoiseResponse) :
    NoiseRemote m × Option Errno :=
  match noiseOpenResponse C l r.rHandshake r.rPsk msg with
  | none => (r, some .EINVAL)
  | some hs => noiseStoreResponse r hs

def noiseDeriveKeypair (hs : NoiseHandshake) (uptime : Timespec) : Option (NoiseKeypair m) :=
  let k := C.noiseKdf [] hs.hsCk
  if hs.hsState = .consumedResponse then
    some ⟨true, true, hs.hsLocalIndex, hs.hsRemoteIndex, k.1, k.2.1, uptime, .zero⟩
  else if hs.hsState = .createdResponse then
    some ⟨true, false, hs.hsLocalIndex, hs.hsRemoteIndex, k.2.1, k.1, uptime, .zero⟩
  else none

/-- The keypairs that a new one displaces.  As initiator an unconfirmed next keypair becomes the
previous one, else the current one does; as responder the current one stays. -/
def noiseRetireKeypairs (r : NoiseRemote m) (isInitiator : Bool) : NoiseRemote m :=
  let next := r.rNext
  let current := r.rCurrent
  let previous := r.rPrevious
  if isInitiator then
    let r :=
      if next ≠ none then
        noiseRemoteKeypairFree { r with rNext := none, rPrevious := next } current
      else { r with rPrevious := current }
    noiseRemoteKeypairFree r previous
  else
    let r := noiseRemoteKeypairFree r next
    noiseRemoteKeypairFree { r with rPrevious := none } previous

/-- The rest of the critical section on `r_keypair_mtx` in `noise_remote_begin_session`; `none`
is an allocation from the empty free list. -/
def noiseAddNewKeypair (r : NoiseRemote m) (kp : NoiseKeypair m) : Option (NoiseRemote m) :=
  match noiseRemoteKeypairAllocate (noiseRetireKeypairs r kp.kpIsInitiator) with
  | none => none
  | some (slot, r) =>
    let r := { r with rKeypair := Function.update r.rKeypair slot kp }
    if kp.kpIsInitiator then some { r with rCurrent := some slot }
    else some { r with rNext := some slot }

def noiseRemoteBeginSession (r : NoiseRemote m) (uptime : Timespec) :
    Option (NoiseRemote m × Option Errno) :=
  match noiseDeriveKeypair C r.rHandshake uptime with
  | none => some (r, some .EINVAL)
  | some kp =>
    match noiseAddNewKeypair r kp with
    | none => none
    | some r => some ({ r with rHandshake := .zero }, none)

def noiseRemoteClear (r : NoiseRemote m) : NoiseRemote m :=
  let r := { noiseRemoteHandshakeIndexDrop r with rHandshake := .zero }
  let r := noiseRemoteKeypairFree r r.rNext
  let r := noiseRemoteKeypairFree r r.rCurrent
  let r := noiseRemoteKeypairFree r r.rPrevious
  { r with rNext := none, rCurrent := none, rPrevious := none }

def NoiseRemote.invalidate (r : NoiseRemote m) : Option (Fin 3) → NoiseRemote m
  | none => r
  | some kp =>
    { r with rKeypair := Function.update r.rKeypair kp { r.rKeypair kp with kpValid := false } }

def noiseRemoteExpireCurrent (r : NoiseRemote m) : NoiseRemote m :=
  (r.invalidate r.rNext).invalidate r.rCurrent

/-- What `noise_remote_encrypt` passes back: the peer's index, the nonce and the encrypted
buffer.  It is passed back with `ESTALE` too. -/
structure NoiseSealed where
  rIdx : BitVec 32
  nonce : BitVec 64
  buf : Bytes

def noiseRemoteEncrypt (r : NoiseRemote m) (uptime : Timespec) (buf : Bytes) :
    NoiseRemote m × Option Errno × Option NoiseSealed :=
  match r.rCurrent with
  | none => (r, some .EINVAL, none)
  | some kp =>
    let k := r.rKeypair kp
    if k.kpValid = false ∨ noiseTimerExpired uptime k.kpBirthdate rejectAfterTime 0 ∨
        m.rejectAfterMessages ≤ k.kpCtr.cRecv then (r, some .EINVAL, none)
    else
      let (ctr, nonce) := noiseCounterSend k.kpCtr
      let r := { r with rKeypair := Function.update r.rKeypair kp { k with kpCtr := ctr } }
      if m.rejectAfterMessages < nonce then (r, some .EINVAL, none)
      else
        let out := ⟨k.kpRemoteIndex, nonce, C.chacha20poly1305Encrypt buf [] nonce k.kpSend⟩
        if (k.kpValid ∧ rekeyAfterMessages ≤ nonce) ∨
            (k.kpIsInitiator ∧ noiseTimerExpired uptime k.kpBirthdate rekeyAfterTime 0) then
          (r, some .ESTALE, some out)
        else (r, none, some out)

def NoiseRemote.lookup (r : NoiseRemote m) (rIdx : BitVec 32) : Option (Fin 3) :=
  let holds (kp : Option (Fin 3)) : Bool :=
    kp.any (fun kp => (r.rKeypair kp).kpLocalIndex = rIdx)
  if holds r.rCurrent then r.rCurrent
  else if holds r.rPrevious then r.rPrevious
  else if holds r.rNext then r.rNext
  else none

/-- The tail of `noise_remote_decrypt`, after the message was authenticated under `kp`. -/
def noiseRemoteConfirm (r : NoiseRemote m) (uptime : Timespec) (kp : Fin 3) (rIdx : BitVec 32) :
    NoiseRemote m × Option Errno :=
  if some kp = r.rNext ∧ (r.rKeypair kp).kpLocalIndex = rIdx then
    let r := noiseRemoteKeypairFree r r.rPrevious
    ({ r with rPrevious := r.rCurrent, rCurrent := r.rNext, rNext := none }, some .ECONNRESET)
  else if r.rCurrent.any (fun kp => (r.rKeypair kp).kpValid && (r.rKeypair kp).kpIsInitiator &&
      noiseTimerExpired uptime (r.rKeypair kp).kpBirthdate rekeyAfterTimeRecv 0) then
    (r, some .ESTALE)
  else (r, none)

def noiseRemoteDecrypt (r : NoiseRemote m) (uptime : Timespec) (rIdx : BitVec 32)
    (nonce : BitVec 64) (buf : Bytes) : NoiseRemote m × Option Errno × Option Bytes :=
  match r.lookup rIdx with
  | none => (r, some .EINVAL, none)
  | some kp =>
    let k := r.rKeypair kp
    if noiseTimerExpired uptime k.kpBirthdate rejectAfterTime 0 ∨
        m.rejectAfterMessages ≤ k.kpCtr.cRecv then (r, some .EINVAL, none)
    else
      match C.chacha20poly1305Decrypt buf [] nonce k.kpRecv with
      | none => (r, some .EINVAL, none)
      | some buf =>
        let recv := noiseCounterRecv k.kpCtr nonce
        let r := { r with rKeypair := Function.update r.rKeypair kp { k with kpCtr := recv.1 } }
        if recv.2 ≠ none then (r, some .EINVAL, some buf)
        else
          let confirm := noiseRemoteConfirm r uptime kp rIdx
          (confirm.1, confirm.2, some buf)

end Handshake

end Mbsd.Net.WgNoise
