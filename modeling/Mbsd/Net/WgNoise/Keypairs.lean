import Mbsd.Net.WgNoise.Noise

namespace Mbsd.Net.WgNoise

open Sys List Option Function NoiseRemote NoiseHandshake NoiseStateHs

variable {m : LongModel} {slot : Fin 3} {r r' : NoiseRemote m} {hs : NoiseHandshake}
  {remotes remotes' : ι → NoiseRemote m} {kp : NoiseKeypair m}

def NoiseRemote.slotCount (r : NoiseRemote m) (slot : Fin 3) : Nat :=
  r.rUnusedKeypairs.count slot + r.rNext.toList.count slot + r.rCurrent.toList.count slot +
    r.rPrevious.toList.count slot

def NoiseRemote.SlotsPartitioned (r : NoiseRemote m) : Prop := ∀ slot, r.slotCount slot = 1

inductive Holder | handshake | next | current | previous
  deriving DecidableEq, Repr

def Holder.all : List Holder := [.handshake, .next, .current, .previous]

def indexOf (keypairs : Fin 3 → NoiseKeypair m) (kp : Fin 3) : BitVec 32 :=
  (keypairs kp).kpLocalIndex

def NoiseRemote.heldBy (r : NoiseRemote m) : Holder → Option (BitVec 32)
  | .handshake =>
    if r.rHandshake.hsState = .hsZeroed then none else some r.rHandshake.hsLocalIndex
  | .next => r.rNext.map (indexOf r.rKeypair)
  | .current => r.rCurrent.map (indexOf r.rKeypair)
  | .previous => r.rPrevious.map (indexOf r.rKeypair)

def NoiseRemote.holders (r : NoiseRemote m) (index : BitVec 32) : List Holder :=
  Holder.all.filter (fun h => r.heldBy h = some index)

def timesSet (calls : List NoiseUpcall) (index : BitVec 32) : Nat := calls.count (.indexSet index)
def timesDropped (calls : List NoiseUpcall) (index : BitVec 32) : Nat :=
  calls.count (.indexDrop index)

def NoiseRemote.IndicesAccounted (r : NoiseRemote m) : Prop :=
  ∀ index, (r.holders index).length + timesDropped r.upcalls index = timesSet r.upcalls index

structure NoiseRemote.Inv (r : NoiseRemote m) : Prop where
  slots : r.SlotsPartitioned
  indices : r.IndicesAccounted

def holds (held : Option (BitVec 32)) (index : BitVec 32) : Nat := if held = some index then 1 else 0

def NoiseRemote.pointersHold (r : NoiseRemote m) (index : BitVec 32) : Nat :=
  holds (r.rNext.map (indexOf r.rKeypair)) index +
    holds (r.rCurrent.map (indexOf r.rKeypair)) index +
    holds (r.rPrevious.map (indexOf r.rKeypair)) index

@[simp] theorem holds_none (index : BitVec 32) : holds none index = 0 := rfl

theorem NoiseRemote.length_holders (r : NoiseRemote m) (index : BitVec 32) :
    (r.holders index).length = holds (r.heldBy .handshake) index + r.pointersHold index := by
  change _ = holds (r.heldBy .handshake) index + (holds (r.heldBy .next) index +
    holds (r.heldBy .current) index + holds (r.heldBy .previous) index)
  simp only [holders, Holder.all, ← countP_eq_length_filter, countP_cons,
    countP_nil, decide_eq_true_eq, holds]
  omega

section

variable (calls : List NoiseUpcall) (i index : BitVec 32)

@[simp] theorem timesSet_drop : timesSet (.indexDrop i :: calls) index = timesSet calls index := by
  simp [timesSet]

@[simp] theorem timesSet_set :
    timesSet (.indexSet i :: calls) index = timesSet calls index + holds (some i) index := by
  simp [timesSet, holds, count_cons]

@[simp] theorem timesDropped_set :
    timesDropped (.indexSet i :: calls) index = timesDropped calls index := by
  simp [timesDropped]

@[simp] theorem timesDropped_drop :
    timesDropped (.indexDrop i :: calls) index = timesDropped calls index + holds (some i) index := by
  simp [timesDropped, holds, count_cons]

end

section Free

variable (r : NoiseRemote m) (kp : Option (Fin 3))

@[simp] theorem free_rUnusedKeypairs :
    (noiseRemoteKeypairFree r kp).rUnusedKeypairs = kp.toList ++ r.rUnusedKeypairs := by
  cases kp <;> rfl

@[simp] theorem free_rNext : (noiseRemoteKeypairFree r kp).rNext = r.rNext := by
  cases kp <;> rfl

@[simp] theorem free_rCurrent : (noiseRemoteKeypairFree r kp).rCurrent = r.rCurrent := by
  cases kp <;> rfl

@[simp] theorem free_rPrevious : (noiseRemoteKeypairFree r kp).rPrevious = r.rPrevious := by
  cases kp <;> rfl

@[simp] theorem free_rHandshake : (noiseRemoteKeypairFree r kp).rHandshake = r.rHandshake := by
  cases kp <;> rfl

@[simp] theorem free_indexOf :
    indexOf (noiseRemoteKeypairFree r kp).rKeypair = indexOf r.rKeypair := by
  cases kp with
  | none => rfl
  | some kp =>
    funext i
    simp only [indexOf, noiseRemoteKeypairFree, update_apply]
    split
    next h => rw [h]
    next => rfl

@[simp] theorem free_timesSet (index : BitVec 32) :
    timesSet (noiseRemoteKeypairFree r kp).upcalls index = timesSet r.upcalls index := by
  cases kp <;> simp [noiseRemoteKeypairFree]

@[simp] theorem free_timesDropped (index : BitVec 32) :
    timesDropped (noiseRemoteKeypairFree r kp).upcalls index =
      timesDropped r.upcalls index + holds (kp.map (indexOf r.rKeypair)) index := by
  cases kp <;> simp [noiseRemoteKeypairFree, indexOf]

end Free

theorem not_all_in_option (kp : Option (Fin 3)) : ∃ slot : Fin 3, kp.toList.count slot = 0 := by
  cases kp with
  | none => exact ⟨0, rfl⟩
  | some kp => exact ⟨kp + 1, by revert kp; decide⟩

theorem map_indexOf_update (r : NoiseRemote m) (kp : NoiseKeypair m)
    {p : Option (Fin 3)} (h : p.toList.count slot = 0) :
    p.map (indexOf (update r.rKeypair slot kp)) = p.map (indexOf r.rKeypair) := by
  cases p with
  | none => rfl
  | some i =>
    have hne : i ≠ slot := by
      rintro rfl
      simp at h
    simp [indexOf, update_of_ne hne]

theorem allocate_eq_some {rest : List (Fin 3)} (h : r.rUnusedKeypairs = slot :: rest) :
    noiseRemoteKeypairAllocate r = some (slot, { r with rUnusedKeypairs := rest }) := by
  rw [noiseRemoteKeypairAllocate, h]

/-- The pointers before the new keypair is stored: `kept` is the one that stays in use, `free`
the list the slot is taken from. -/
theorem exists_free_slot {free : List (Fin 3)} {kept : Option (Fin 3)}
    (h : ∀ slot, free.count slot + kept.toList.count slot = 1) :
    ∃ slot rest, free = slot :: rest ∧ kept.toList.count slot = 0 := by
  cases free with
  | nil =>
    obtain ⟨slot, hslot⟩ := not_all_in_option kept
    have := h slot
    rw [hslot, count_nil] at this
    cases this
  | cons slot rest =>
    refine ⟨slot, rest, rfl, ?_⟩
    have := h slot
    rw [count_cons_self] at this
    omega

section Retire

variable (r : NoiseRemote m)

def NoiseRemote.kept (isInitiator : Bool) : Option (Fin 3) :=
  if isInitiator then if r.rNext = none then r.rCurrent else r.rNext else r.rCurrent

@[simp] theorem retire_rHandshake (b : Bool) :
    (noiseRetireKeypairs r b).rHandshake = r.rHandshake := by
  cases b <;> cases hn : r.rNext <;> simp [noiseRetireKeypairs, hn]

@[simp] theorem retire_indexOf (b : Bool) :
    indexOf (noiseRetireKeypairs r b).rKeypair = indexOf r.rKeypair := by
  cases b <;> cases hn : r.rNext <;> simp [noiseRetireKeypairs, hn]

theorem retire_initiator_rNext : (noiseRetireKeypairs r true).rNext = none := by
  cases hn : r.rNext <;> simp [noiseRetireKeypairs, hn]

theorem retire_initiator_rPrevious : (noiseRetireKeypairs r true).rPrevious = r.kept true := by
  cases hn : r.rNext <;> simp [noiseRetireKeypairs, kept, hn]

theorem retire_responder_rPrevious : (noiseRetireKeypairs r false).rPrevious = none := by
  simp [noiseRetireKeypairs]

theorem retire_responder_rCurrent : (noiseRetireKeypairs r false).rCurrent = r.kept false := by
  simp [noiseRetireKeypairs, kept]

theorem retire_count (b : Bool) (slot : Fin 3) :
    (noiseRetireKeypairs r b).rUnusedKeypairs.count slot + (r.kept b).toList.count slot =
      r.slotCount slot := by
  cases b <;> cases hn : r.rNext <;>
    simp [noiseRetireKeypairs, kept, slotCount, hn, count_append, count_cons] <;>
    omega

theorem retire_upcalls (b : Bool) (index : BitVec 32) :
    timesSet (noiseRetireKeypairs r b).upcalls index = timesSet r.upcalls index ∧
    holds ((r.kept b).map (indexOf r.rKeypair)) index +
        timesDropped (noiseRetireKeypairs r b).upcalls index =
      r.pointersHold index + timesDropped r.upcalls index := by
  cases b <;> cases hn : r.rNext <;>
    simp [noiseRetireKeypairs, kept, pointersHold, hn] <;>
    omega

end Retire

/-- What `begin_session` does to the slots: the new keypair gets a slot of its own, every other
index is dropped or still held. -/
structure Installed (r r' : NoiseRemote m) (kp : NoiseKeypair m) : Prop where
  slots : r'.SlotsPartitioned
  handshake : r'.rHandshake = r.rHandshake
  stored : ∃ slot, (if kp.kpIsInitiator then r'.rCurrent else r'.rNext) = some slot ∧
    r'.rKeypair slot = kp
  timesSet : ∀ index, timesSet r'.upcalls index = timesSet r.upcalls index
  indices : ∀ index, r'.pointersHold index + timesDropped r'.upcalls index =
    holds (some kp.kpLocalIndex) index + (r.pointersHold index + timesDropped r.upcalls index)

theorem addNewKeypair_installed (h : r.SlotsPartitioned) (kp : NoiseKeypair m) :
    ∃ r', noiseAddNewKeypair r kp = some r' ∧ Installed r r' kp := by
  have hcount := retire_count r kp.kpIsInitiator
  obtain ⟨slot, rest, hfree, hkept⟩ :=
    exists_free_slot (fun slot => (hcount slot).trans (h slot))
  have hidx := map_indexOf_update (noiseRetireKeypairs r kp.kpIsInitiator) kp hkept
  have hnew : indexOf (update (noiseRetireKeypairs r kp.kpIsInitiator).rKeypair slot kp)
      slot = kp.kpLocalIndex := by
    simp [indexOf]
  rw [noiseAddNewKeypair, allocate_eq_some hfree]
  cases hi : kp.kpIsInitiator with
  | true =>
    rw [hi] at hfree hidx hcount hnew
    refine ⟨_, rfl, ?_, by simp, ⟨slot, by simp [hi], by simp⟩,
      fun index => (retire_upcalls r true index).1, ?_⟩
    · intro s
      have := (hcount s).trans (h s)
      rw [hfree, count_cons] at this
      simp only [slotCount, retire_initiator_rNext, retire_initiator_rPrevious,
        toList_none, toList_some, count_nil, count_cons]
      omega
    · intro index
      have := (retire_upcalls r true index).2
      simp only [pointersHold, retire_initiator_rNext, retire_initiator_rPrevious,
        map_none, map_some, hidx, hnew, holds_none, retire_indexOf] at this ⊢
      omega
  | false =>
    rw [hi] at hfree hidx hcount hnew
    refine ⟨_, rfl, ?_, by simp, ⟨slot, by simp [hi], by simp⟩,
      fun index => (retire_upcalls r false index).1, ?_⟩
    · intro s
      have := (hcount s).trans (h s)
      rw [hfree, count_cons] at this
      simp only [slotCount, retire_responder_rCurrent, retire_responder_rPrevious,
        toList_none, toList_some, count_nil, count_cons]
      omega
    · intro index
      have := (retire_upcalls r false index).2
      simp only [pointersHold, retire_responder_rCurrent, retire_responder_rPrevious,
        map_none, map_some, hidx, hnew, holds_none, retire_indexOf] at this ⊢
      omega

theorem NoiseRemote.inv_iff (r : NoiseRemote m) :
    r.Inv ↔ r.SlotsPartitioned ∧ ∀ index, holds (r.heldBy .handshake) index +
      r.pointersHold index + timesDropped r.upcalls index = timesSet r.upcalls index := by
  constructor
  · intro h
    exact ⟨h.slots, fun index => by rw [← r.length_holders]; exact h.indices index⟩
  · intro h
    exact ⟨h.1, fun index => by rw [r.length_holders]; exact h.2 index⟩

/-- The invariant carries over when the slots and the keypairs' indices stay as they are and the
index of the handshake is accounted for. -/
theorem NoiseRemote.Inv.of_same_slots (h : r.Inv)
    (hu : r'.rUnusedKeypairs = r.rUnusedKeypairs) (hn : r'.rNext = r.rNext)
    (hc : r'.rCurrent = r.rCurrent) (hp : r'.rPrevious = r.rPrevious)
    (hk : indexOf r'.rKeypair = indexOf r.rKeypair)
    (hi : ∀ index, holds (r'.heldBy .handshake) index + timesDropped r'.upcalls index +
        timesSet r.upcalls index =
      holds (r.heldBy .handshake) index + timesDropped r.upcalls index +
        timesSet r'.upcalls index) : r'.Inv := by
  rw [inv_iff] at h ⊢
  refine ⟨fun slot => ?_, fun index => ?_⟩
  · have := h.1 slot
    simpa only [slotCount, hu, hn, hc, hp] using this
  · have h₁ := h.2 index
    have h₂ := hi index
    simp only [pointersHold, hn, hc, hp, hk] at h₁ ⊢
    omega

theorem NoiseRemote.Inv.replace_handshake (h : r.Inv) (hne : hs.hsState ≠ .hsZeroed) :
    Inv { noiseRemoteHandshakeIndexGet (noiseRemoteHandshakeIndexDrop r)
      hs.hsLocalIndex with rHandshake := hs } := by
  by_cases hz : r.rHandshake.hsState = .hsZeroed
  · refine h.of_same_slots ?_ ?_ ?_ ?_ ?_ (fun i => ?_) <;>
      simp only [noiseRemoteHandshakeIndexGet, noiseRemoteHandshakeIndexDrop, hz, ne_eq,
        not_true_eq_false, if_false]
    simp only [heldBy, hz, hne, if_true, if_false, timesSet_set, timesDropped_set, holds_none]
    omega
  · refine h.of_same_slots ?_ ?_ ?_ ?_ ?_ (fun i => ?_) <;>
      simp only [noiseRemoteHandshakeIndexGet, noiseRemoteHandshakeIndexDrop, hz, ne_eq,
        not_false_eq_true, if_true]
    simp only [heldBy, hz, hne, if_false, timesSet_set, timesSet_drop,
      timesDropped_set, timesDropped_drop]
    omega

theorem NoiseRemote.Inv.zero_handshake (h : r.Inv) :
    Inv { noiseRemoteHandshakeIndexDrop r with rHandshake := .zero } := by
  by_cases hz : r.rHandshake.hsState = .hsZeroed
  · refine h.of_same_slots ?_ ?_ ?_ ?_ ?_ (fun i => ?_) <;>
      simp only [noiseRemoteHandshakeIndexDrop, hz, ne_eq, not_true_eq_false, if_false]
    simp only [heldBy, zero, hz, if_true]
  · refine h.of_same_slots ?_ ?_ ?_ ?_ ?_ (fun i => ?_) <;>
      simp only [noiseRemoteHandshakeIndexDrop, hz, ne_eq, not_false_eq_true, if_true]
    simp only [heldBy, zero, hz, if_false, if_true, timesSet_drop, timesDropped_drop, holds_none]
    omega

theorem NoiseRemote.Inv.update_handshake (h : r.Inv)
    (hz : hs.hsState = .hsZeroed ↔ r.rHandshake.hsState = .hsZeroed)
    (hidx : hs.hsLocalIndex = r.rHandshake.hsLocalIndex) : Inv { r with rHandshake := hs } := by
  refine h.of_same_slots rfl rfl rfl rfl rfl (fun i => ?_)
  simp only [heldBy, hz, hidx]

section Steps

variable (C : NoiseCrypto)

theorem count_initial_slots : ∀ slot : Fin 3, [2, 1, 0].count slot + 0 + 0 + 0 = 1 := by
  decide

theorem NoiseRemote.Inv.init (l : NoiseLocal) (pub : Bytes) :
    (noiseRemoteInit C l pub : NoiseRemote m).Inv := by
  refine Inv.zero_handshake (inv_iff _ |>.mpr ⟨?_, fun index => rfl⟩)
  exact count_initial_slots

theorem NoiseRemote.Inv.precompute (h : r.Inv) (l : NoiseLocal) :
    (noiseRemotePrecompute C l r).Inv :=
  Inv.zero_handshake (h.of_same_slots rfl rfl rfl rfl rfl fun _ => rfl)

theorem NoiseRemote.Inv.createInitiation (h : r.Inv) (l : NoiseLocal)
    (random : Bytes) (now : Timespec) (index : BitVec 32) :
    (noiseCreateInitiation C l r random now index).1.Inv := by
  rw [noiseCreateInitiation]
  split
  · exact h
  · dsimp only
    split
    · exact h.update_handshake Iff.rfl rfl
    · split
      · exact h.update_handshake Iff.rfl rfl
      · split
        · exact h.update_handshake Iff.rfl rfl
        · refine Inv.replace_handshake ?_ ?_
          · exact h.update_handshake Iff.rfl rfl
          · exact noConfusion

theorem NoiseRemote.Inv.acceptInitiation (h : r.Inv) (msg : NoiseInitiation)
    (ck hash : Bytes) (uptime : Timespec) (index : BitVec 32) :
    (noiseAcceptInitiation C r msg ck hash uptime index).1.Inv := by
  rw [noiseAcceptInitiation]
  split
  · exact h
  · split
    · exact h
    · split
      · dsimp only
        split
        · refine Inv.replace_handshake ?_ ?_
          · exact h.of_same_slots rfl rfl rfl rfl rfl fun _ => rfl
          · exact noConfusion
        · exact h.of_same_slots rfl rfl rfl rfl rfl fun _ => rfl
      · exact h

theorem NoiseRemote.Inv.consumeInitiation {ι : Type} [DecidableEq ι] {remotes : ι → NoiseRemote m}
    (h : ∀ i, (remotes i).Inv) (l : NoiseLocal) (uRemoteGet : Bytes → Option ι)
    (msg : NoiseInitiation) (uptime : Timespec) (index : BitVec 32) (i : ι) :
    ((noiseConsumeInitiation C l uRemoteGet remotes msg uptime index).1 i).Inv := by
  rw [noiseConsumeInitiation]
  split
  · exact h i
  next rPublic ck hash _ =>
    split
    · exact h i
    next j _ =>
      have hj := (h j).acceptInitiation C msg ck hash uptime index
      split <;> next hr =>
        rw [hr] at hj
        by_cases hij : i = j
        · subst hij
          simpa using hj
        · simpa [update_of_ne hij] using h i

theorem NoiseRemote.Inv.createResponse (h : r.Inv) (random : Bytes) :
    (noiseCreateResponse C r random).1.Inv := by
  rw [noiseCreateResponse]
  split
  · exact h
  next hstate =>
    have hs : r.rHandshake.hsState = .consumedInitiation := not_not.mp hstate
    dsimp only
    split
    · exact h
    · split
      · exact h.update_handshake Iff.rfl rfl
      · split
        · exact h.update_handshake Iff.rfl rfl
        · exact h.update_handshake (by simp [hs]) rfl

theorem NoiseRemote.Inv.storeResponse (h : r.Inv)
    (hne : hs.hsState ≠ .hsZeroed) : (noiseStoreResponse r hs).1.Inv := by
  rw [noiseStoreResponse]
  split
  next heq => exact h.update_handshake (by simp [heq.1, hne]) heq.2.symm
  · exact h

theorem openResponse_created {l : NoiseLocal} {hs' : NoiseHandshake} {psk : Bytes}
    {msg : NoiseResponse} (h : noiseOpenResponse C l hs psk msg = some hs') :
    hs'.hsState = .createdInitiation := by
  rw [noiseOpenResponse] at h
  split at h
  · cases h
  · split at h
    · cases h
    next hc =>
      dsimp only at h
      split at h
      · cases h
      · split at h
        · cases h
        · split at h
          · cases h
          · cases h
            simpa using (not_or.mp hc).1

theorem deriveKeypair_heldBy {uptime : Timespec}
    (h : noiseDeriveKeypair C r.rHandshake uptime = some kp) :
    r.heldBy .handshake = some kp.kpLocalIndex := by
  rw [noiseDeriveKeypair] at h
  split at h
  next hs =>
    cases h
    simp [heldBy, hs]
  · split at h
    next hs =>
      cases h
      simp [heldBy, hs]
    · cases h

theorem NoiseRemote.Inv.beginSession {err : Option Errno} (h : r.Inv)
    {uptime : Timespec} (hr : noiseRemoteBeginSession C r uptime = some (r', err)) : r'.Inv := by
  rw [noiseRemoteBeginSession] at hr
  split at hr
  · cases hr
    exact h
  next kp hkp =>
    obtain ⟨r₁, hr₁, hin⟩ := addNewKeypair_installed h.slots kp
    rw [hr₁] at hr
    cases hr
    rw [inv_iff] at h ⊢
    refine ⟨hin.slots, fun index => ?_⟩
    have hheld : r.heldBy .handshake = some kp.kpLocalIndex := deriveKeypair_heldBy C hkp
    have h₁ := h.2 index
    have h₂ := hin.indices index
    have h₃ := hin.timesSet index
    rw [hheld] at h₁
    change holds none index + r₁.pointersHold index + timesDropped r₁.upcalls index =
      timesSet r₁.upcalls index
    rw [holds_none]
    omega

theorem NoiseRemote.Inv.consumeResponse (h : r.Inv) (l : NoiseLocal)
    (msg : NoiseResponse) : (noiseConsumeResponse C l r msg).1.Inv := by
  rw [noiseConsumeResponse]
  split
  · exact h
  next hopen =>
    refine h.storeResponse ?_
    rw [openResponse_created C hopen]
    exact noConfusion

omit C in
theorem indexOf_update {keypairs : Fin 3 → NoiseKeypair m}
    (h : kp.kpLocalIndex = (keypairs slot).kpLocalIndex) :
    indexOf (update keypairs slot kp) = indexOf keypairs := by
  funext i
  by_cases hi : i = slot
  · subst hi
    simp [indexOf, h]
  · simp [indexOf, update_of_ne hi]

theorem NoiseRemote.Inv.update_keypair (h : r.Inv)
    (hkp : kp.kpLocalIndex = (r.rKeypair slot).kpLocalIndex) :
    Inv { r with rKeypair := update r.rKeypair slot kp } :=
  h.of_same_slots rfl rfl rfl rfl (indexOf_update hkp) fun _ => rfl

theorem NoiseRemote.Inv.invalidate (h : r.Inv) (kp : Option (Fin 3)) : (r.invalidate kp).Inv := by
  cases kp with
  | none => exact h
  | some kp => exact h.update_keypair rfl

theorem NoiseRemote.Inv.clear (h : r.Inv) : (noiseRemoteClear r).Inv := by
  have h₀ := (inv_iff _).mp h.zero_handshake
  rw [noiseRemoteClear, inv_iff]
  generalize { noiseRemoteHandshakeIndexDrop r with rHandshake := .zero } = r₀ at h₀
  refine ⟨fun slot => ?_, fun index => ?_⟩
  · have := h₀.1 slot
    simp only [slotCount, free_rUnusedKeypairs, free_rCurrent, free_rPrevious,
      count_append, toList_none, count_nil] at this ⊢
    omega
  · have := h₀.2 index
    simp only [pointersHold, heldBy, free_rHandshake, free_rCurrent,
      free_rPrevious, free_indexOf, free_timesSet, free_timesDropped, map_none,
      holds_none] at this ⊢
    omega

theorem NoiseRemote.Inv.confirm (h : r.Inv) (uptime : Timespec)
    (kp : Fin 3) (rIdx : BitVec 32) : (noiseRemoteConfirm r uptime kp rIdx).1.Inv := by
  rw [noiseRemoteConfirm]
  split
  · rw [inv_iff] at h ⊢
    refine ⟨fun slot => ?_, fun index => ?_⟩
    · have := h.1 slot
      simp only [slotCount, free_rUnusedKeypairs, free_rCurrent, free_rNext,
        count_append, toList_none, count_nil] at this ⊢
      omega
    · have := h.2 index
      simp only [pointersHold, heldBy, free_rHandshake, free_rCurrent,
        free_rNext, free_indexOf, free_timesSet, free_timesDropped, map_none, holds_none] at this ⊢
      omega
  · split <;> exact h

theorem NoiseRemote.Inv.decrypt (h : r.Inv) (uptime : Timespec)
    (rIdx : BitVec 32) (nonce : BitVec 64) (buf : Bytes) :
    (noiseRemoteDecrypt C r uptime rIdx nonce buf).1.Inv := by
  rw [noiseRemoteDecrypt]
  split
  · exact h
  · dsimp only
    split
    · exact h
    · split
      · exact h
      · generalize noiseCounterRecv _ nonce = recv
        split
        · exact h.update_keypair rfl
        · refine Inv.confirm ?_ uptime _ rIdx
          exact h.update_keypair rfl

theorem NoiseRemote.Inv.encrypt (h : r.Inv) (uptime : Timespec)
    (buf : Bytes) : (noiseRemoteEncrypt C r uptime buf).1.Inv := by
  rw [noiseRemoteEncrypt]
  split
  · exact h
  · dsimp only
    split
    · exact h
    · split
      · exact h.update_keypair rfl
      · split <;> exact h.update_keypair rfl

/-- A call of the module on one remote.  The local identity may change between calls, and
`noise_consume_response` may store a copy that it took in an earlier state. -/
inductive RemoteStep : NoiseRemote m → NoiseRemote m → Prop
  | setPsk r psk : RemoteStep r (noiseRemoteSetPsk r psk).1
  | precompute r l : RemoteStep r (noiseRemotePrecompute C l r)
  | createInitiation r l random now index :
    RemoteStep r (noiseCreateInitiation C l r random now index).1
  | createResponse r random : RemoteStep r (noiseCreateResponse C r random).1
  | consumeResponse r l msg : RemoteStep r (noiseConsumeResponse C l r msg).1
  | storeResponse r l hs hs' psk msg (hopen : noiseOpenResponse C l hs psk msg = some hs') :
    RemoteStep r (noiseStoreResponse r hs').1
  | beginSession r r' err uptime (h : noiseRemoteBeginSession C r uptime = some (r', err)) :
    RemoteStep r r'
  | clear r : RemoteStep r (noiseRemoteClear r)
  | expireCurrent r : RemoteStep r (noiseRemoteExpireCurrent r)
  | encrypt r uptime buf : RemoteStep r (noiseRemoteEncrypt C r uptime buf).1
  | decrypt r uptime rIdx nonce buf : RemoteStep r (noiseRemoteDecrypt C r uptime rIdx nonce buf).1

inductive NoiseStep {ι : Type} [DecidableEq ι] : (ι → NoiseRemote m) → (ι → NoiseRemote m) → Prop
  | remote remotes i r (h : RemoteStep C (remotes i) r) :
    NoiseStep remotes (Function.update remotes i r)
  | consumeInitiation remotes l uRemoteGet msg uptime index :
    NoiseStep remotes (noiseConsumeInitiation C l uRemoteGet remotes msg uptime index).1

variable {C}

theorem RemoteStep.inv (hstep : RemoteStep C r r') (h : r.Inv) : r'.Inv := by
  cases hstep with
  | setPsk psk =>
    rw [noiseRemoteSetPsk]
    split
    · exact h
    · exact h.of_same_slots rfl rfl rfl rfl rfl fun _ => rfl
  | precompute l => exact h.precompute C l
  | createInitiation l random now index => exact h.createInitiation C l random now index
  | createResponse random => exact h.createResponse C random
  | consumeResponse l msg => exact h.consumeResponse C l msg
  | storeResponse l hs hs' psk msg hopen =>
    refine h.storeResponse ?_
    rw [openResponse_created C hopen]
    exact noConfusion
  | beginSession _ err uptime hbegin => exact h.beginSession C hbegin
  | clear => exact h.clear
  | expireCurrent => exact (h.invalidate _).invalidate _
  | encrypt uptime buf => exact h.encrypt C uptime buf
  | decrypt uptime rIdx nonce buf => exact h.decrypt C uptime rIdx nonce buf

variable {ι : Type} [DecidableEq ι]

theorem NoiseStep.inv {remotes remotes' : ι → NoiseRemote m}
    (hstep : NoiseStep C remotes remotes') (h : ∀ i, (remotes i).Inv) (i : ι) :
    (remotes' i).Inv := by
  cases hstep with
  | remote j r hr =>
    by_cases hij : i = j
    · subst hij
      simpa using hr.inv (h i)
    · simpa [update_of_ne hij] using h i
  | consumeInitiation l uRemoteGet msg uptime index =>
    exact Inv.consumeInitiation C h l uRemoteGet msg uptime index i

theorem noiseRun_inv {remotes remotes' : ι → NoiseRemote m}
    (hrun : Relation.ReflTransGen (NoiseStep C) remotes remotes') (h : ∀ i, (remotes i).Inv) :
    ∀ i, (remotes' i).Inv := by
  induction hrun with
  | refl => exact h
  | tail _ hstep ih => exact hstep.inv ih

def FreshIndices : List NoiseUpcall → Prop
  | [] => True
  | .indexDrop _ :: calls => FreshIndices calls
  | .indexSet index :: calls =>
    timesSet calls index = timesDropped calls index ∧ FreshIndices calls

omit C in
theorem FreshIndices.timesSet_le {calls : List NoiseUpcall} (h : FreshIndices calls)
    (index : BitVec 32) : timesSet calls index ≤ timesDropped calls index + 1 := by
  induction calls with
  | nil => exact Nat.zero_le 1
  | cons call calls ih =>
    cases call with
    | indexDrop i =>
      have := ih h
      simp only [timesSet_drop, timesDropped_drop]
      omega
    | indexSet i =>
      have := ih h.2
      simp only [timesSet_set, timesDropped_set, holds]
      split
      next hi =>
        cases hi
        exact Nat.le_of_eq (congrArg (· + 1) h.1)
      · exact this

omit C in
theorem NoiseRemote.Inv.beginSession_ne_none (h : r.Inv) (C : NoiseCrypto)
    (uptime : Timespec) : noiseRemoteBeginSession C r uptime ≠ none := by
  rw [noiseRemoteBeginSession]
  split
  · exact some_ne_none _
  next kp _ =>
    obtain ⟨r', hr', -⟩ := addNewKeypair_installed h.slots kp
    rw [hr']
    exact some_ne_none _

/-- In every state of every run the slots are partitioned, a new keypair finds a free slot, and
every index that was obtained is held or was dropped, once for each time it was obtained. -/
theorem noiseRun_keypairs_accounted (l : ι → NoiseLocal) (pub : ι → Bytes)
    {remotes : ι → NoiseRemote m}
    (hrun : Relation.ReflTransGen (NoiseStep C) (fun i => noiseRemoteInit C (l i) (pub i)) remotes)
    (i : ι) : (remotes i).SlotsPartitioned ∧
    (∀ uptime, noiseRemoteBeginSession C (remotes i) uptime ≠ none) ∧
    (∀ index, ((remotes i).holders index).length + timesDropped (remotes i).upcalls index =
      timesSet (remotes i).upcalls index) ∧ (FreshIndices (remotes i).upcalls → ∀ index,
      (∃ holder, (remotes i).holders index = [holder] ∧
        timesSet (remotes i).upcalls index = timesDropped (remotes i).upcalls index + 1) ∨
      ((remotes i).holders index = [] ∧
        timesSet (remotes i).upcalls index = timesDropped (remotes i).upcalls index)) := by
  have h := noiseRun_inv hrun (fun i => Inv.init C (l i) (pub i)) i
  refine ⟨h.slots, h.beginSession_ne_none C, h.indices, fun hfresh index => ?_⟩
  have hsum := h.indices index
  have hle := hfresh.timesSet_le index
  match hh : (remotes i).holders index with
  | [] => exact .inr ⟨rfl, by simpa [hh] using hsum.symm⟩
  | [holder] => exact .inl ⟨holder, rfl, by simpa [hh, Nat.add_comm] using hsum.symm⟩
  | _ :: _ :: _ =>
    rw [hh, length_cons, length_cons] at hsum
    omega

end Steps

/-- Primitives simple enough to evaluate: the ladder is a bytewise exclusive or, the tag of the
cipher the first bytes of the additional data and the key. -/
def xorCrypto : NoiseCrypto where
  blake2s x := x.take 32
  blake2sHmac x key := (x ++ key).take 32
  ladder := List.zipWith (· ^^^ ·)
  chacha20poly1305Encrypt src ad _ key := src ++ (ad ++ key ++ List.replicate 16 0).take 16
  chacha20poly1305Decrypt src ad _ key :=
    if src.drop (src.length - 16) = (ad ++ key ++ List.replicate 16 0).take 16 then
      some (src.take (src.length - 16))
    else none

def aliceLocal : NoiseLocal := noiseLocalSetPrivate xorCrypto (List.replicate 32 16)
def bobLocal : NoiseLocal := noiseLocalSetPrivate xorCrypto (List.replicate 32 32)

def freshRemote : NoiseRemote .lp64 := noiseRemoteInit xorCrypto aliceLocal bobLocal.lPublic

def retryInitiation (r : NoiseRemote .lp64) (index : BitVec 32) : NoiseRemote .lp64 :=
  (noiseCreateInitiation xorCrypto aliceLocal r (List.replicate 32 64) ⟨5, 0⟩ index).1

theorem retryInitiation_step (r : NoiseRemote .lp64) (index : BitVec 32) :
    NoiseStep xorCrypto (fun _ : Unit => r) (fun _ => retryInitiation r index) := by
  have := NoiseStep.remote (fun _ => r) () _ (.createInitiation (C := xorCrypto) r aliceLocal
    (replicate 32 64) ⟨5, 0⟩ index)
  rwa [update_eq_const_of_subsingleton] at this

/-- After two initiations in a row the second index is held and the first one was dropped. -/
theorem noiseRun_keypairs_accounted_retry :
    (retryInitiation (retryInitiation freshRemote 7) 9).upcalls =
      [.indexSet 9, .indexDrop 7, .indexSet 7] ∧
    (retryInitiation (retryInitiation freshRemote 7) 9).SlotsPartitioned ∧
    ∃ holder, (retryInitiation (retryInitiation freshRemote 7) 9).holders 9 = [holder] := by
  have hcalls : (retryInitiation (retryInitiation freshRemote 7) 9).upcalls =
      [.indexSet 9, .indexDrop 7, .indexSet 7] := by
    decide +kernel
  have hrun := (Relation.ReflTransGen.single (retryInitiation_step freshRemote 7)).tail
    (retryInitiation_step _ 9)
  have h := noiseRun_keypairs_accounted (fun _ => aliceLocal) (fun _ => bobLocal.lPublic) hrun ()
  refine ⟨hcalls, h.1, ?_⟩
  have hfresh : FreshIndices (retryInitiation (retryInitiation freshRemote 7) 9).upcalls := by
    rw [hcalls]
    exact ⟨rfl, rfl, trivial⟩
  rcases h.2.2.2 hfresh 9 with ⟨holder, hholder, -⟩ | ⟨-, heq⟩
  · exact ⟨holder, hholder⟩
  · rw [hcalls] at heq
    cases heq

end Mbsd.Net.WgNoise
