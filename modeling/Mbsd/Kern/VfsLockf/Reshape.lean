import Mbsd.Kern.VfsLockf.Blocking

namespace Mbsd.Kern.VfsLockf

open Held Lib.Tailq List Function LockfState

variable {L : List LockPtr} {p lock : LockPtr} {f : Lockf → Lockf} {l : Lockf}

def LockfState.owner (s : LockfState) (p : LockPtr) : Nat × Int × Bool :=
  ((s.mem p).lfId, (s.mem p).lfPid, (s.mem p).lfFlags.posix)

namespace LockfState

variable (s : LockfState) (p q : LockPtr) (f : Lockf → Lockf)

theorem id_eq_owner : (s.held p).id = (s.owner p).1 := rfl

@[simp] theorem modify_mem_self : (s.modify p f).mem p = f (s.mem p) := update_self ..

variable {p q}

theorem modify_mem_of_ne (h : q ≠ p) : (s.modify p f).mem q = s.mem q :=
  update_of_ne h ..

theorem modify_held_of_ne (h : q ≠ p) : (s.modify p f).held q = s.held q := by
  rw [held, s.modify_mem_of_ne f h, held]

theorem modify_owner {f : Lockf → Lockf} (h : (s.modify p f).owner p = s.owner p) (q : LockPtr) :
    (s.modify p f).owner q = s.owner q := by
  by_cases hq : q = p
  · rw [hq, h]
  · rw [owner, s.modify_mem_of_ne f hq, owner]

theorem map_modify_held (h : p ∉ L) : L.map (s.modify p f).held = L.map s.held :=
  map_congr_left fun _ hq => s.modify_held_of_ne f fun heq => h (heq ▸ hq)

end LockfState

theorem LockfState.Blocking.wakelock_owner {s : LockfState} (h : s.Blocking) (b : LockPtr)
    (intr : Bool) (p : LockPtr) : (lfWakelock s b intr).owner p = s.owner p := by
  rw [owner, h.wakelock_mem]
  split
  · rfl
  · split <;> rfl

def LockfState.relink (s : LockfState) (L : List LockPtr) : LockfState := { s with lsLocks := L }

@[simp] theorem LockfState.relink_mem (s : LockfState) (L : List LockPtr) :
    (s.relink L).mem = s.mem := rfl

@[simp] theorem LockfState.relink_held (s : LockfState) (L : List LockPtr) :
    (s.relink L).held = s.held := rfl

@[simp] theorem LockfState.relink_lsLocks (s : LockfState) (L : List LockPtr) :
    (s.relink L).lsLocks = L := rfl

structure Frame (lock : LockPtr) (s s' : LockfState) : Prop where
  pending : s'.lsPending = s.lsPending
  panicked : s'.panicked = s.panicked
  requests : ∀ p, p = lock ∨ p ∈ s.lsPending → s'.held p = s.held p ∧ s'.owner p = s.owner p
  others : ∀ p ∈ s.lsLocks, (s.held p).id ≠ (s.held lock).id →
    p ∈ s'.lsLocks ∧ s'.held p = s.held p
  origin : ∀ p ∈ s'.lsLocks, ∃ q, (q ∈ s.lsLocks ∨ q = lock) ∧ s'.owner p = s.owner q
  blk : ∀ p ∈ s.lsPending, ∀ b', (s'.mem p).lfBlk = some b' →
    ∃ b, (s.mem p).lfBlk = some b ∧ (s'.held b').id = (s.held b).id

namespace Frame

variable {lock : LockPtr} {s s' s'' : LockfState}

theorem refl (lock : LockPtr) (s : LockfState) : Frame lock s s where
  pending := rfl
  panicked := rfl
  requests _ _ := ⟨rfl, rfl⟩
  others _ hp _ := ⟨hp, rfl⟩
  origin p hp := ⟨p, .inl hp, rfl⟩
  blk _ _ b hb := ⟨b, hb, rfl⟩

theorem held_lock (h : Frame lock s s') : s'.held lock = s.held lock :=
  (h.requests lock (.inl rfl)).1

theorem trans (h : Frame lock s s') (h' : Frame lock s' s'') : Frame lock s s'' where
  pending := h'.pending.trans h.pending
  panicked := h'.panicked.trans h.panicked
  requests p hp := by
    have hp' : p = lock ∨ p ∈ s'.lsPending := by rwa [h.pending]
    exact ⟨(h'.requests p hp').1.trans (h.requests p hp).1,
      (h'.requests p hp').2.trans (h.requests p hp).2⟩
  others p hp hid := by
    obtain ⟨hp', heq⟩ := h.others p hp hid
    rw [← heq, ← h.held_lock] at hid
    obtain ⟨hp'', heq'⟩ := h'.others p hp' hid
    exact ⟨hp'', heq'.trans heq⟩
  origin p hp := by
    obtain ⟨q, hq, heq⟩ := h'.origin p hp
    rcases hq with hq | rfl
    · obtain ⟨r, hr, heq'⟩ := h.origin q hq
      exact ⟨r, hr, heq.trans heq'⟩
    · exact ⟨q, .inr rfl, heq.trans (h.requests q (.inl rfl)).2⟩
  blk p hp b'' hb'' := by
    obtain ⟨b', hb', heq'⟩ := h'.blk p (h.pending ▸ hp) b'' hb''
    obtain ⟨b, hb, heq⟩ := h.blk p hp b' hb'
    exact ⟨b, hb, heq'.trans heq⟩

theorem set_locks (hL : ∀ p ∈ L, ∃ q, (q ∈ s.lsLocks ∨ q = lock) ∧ s.owner p = s.owner q)
    (hkeep : ∀ p ∈ s.lsLocks, (s.held p).id ≠ (s.held lock).id → p ∈ L) :
    Frame lock s (s.relink L) where
  pending := rfl
  panicked := rfl
  requests _ _ := ⟨rfl, rfl⟩
  others p hp hid := ⟨hkeep p hp hid, rfl⟩
  origin := hL
  blk _ _ b hb := ⟨b, hb, rfl⟩

theorem insert (hL : L.Perm (lock :: s.lsLocks)) : Frame lock s (s.relink L) := by
  refine set_locks (fun p hp => ⟨p, ?_, rfl⟩) fun p hp _ => ?_
  · exact Or.symm (mem_cons.mp (hL.mem_iff.mp hp))
  · exact hL.mem_iff.mpr (mem_cons_of_mem _ hp)

theorem remove (hid : (s.held p).id = (s.held lock).id) : Frame lock s (s.remove p) := by
  refine set_locks (fun q hq => ⟨q, .inl (mem_of_mem_erase hq), rfl⟩) fun q hq hne => ?_
  refine (mem_erase_of_ne ?_).mpr hq
  rintro rfl
  exact hne hid

theorem modify (hp : p ∉ s.lsPending) (hne : p ≠ lock)
    (hid : (s.held p).id = (s.held lock).id) (howner : (s.modify p f).owner p = s.owner p) :
    Frame lock s (s.modify p f) := by
  have hall := s.modify_owner howner
  refine ⟨rfl, rfl, fun q hq => ⟨?_, hall q⟩, fun q hq hqid => ⟨hq, ?_⟩,
    fun q hq => ⟨q, .inl hq, hall q⟩, fun q hq b hb => ⟨b, ?_, ?_⟩⟩
  · refine s.modify_held_of_ne f ?_
    rintro rfl
    exact hq.elim hne hp
  · refine s.modify_held_of_ne f ?_
    rintro rfl
    exact hqid hid
  · have hqp : q ≠ p := fun heq => hp (heq ▸ hq)
    rwa [s.modify_mem_of_ne f hqp] at hb
  · simp only [id_eq_owner, hall]

theorem wakelock (h : s.Blocking) (b : LockPtr) (intr : Bool) :
    Frame lock s (lfWakelock s b intr) := by
  refine ⟨rfl, rfl, fun p _ => ⟨by rw [h.wakelock_held], h.wakelock_owner b intr p⟩,
    fun p hp _ => ⟨hp, by rw [h.wakelock_held]⟩,
    fun p hp => ⟨p, .inl hp, h.wakelock_owner b intr p⟩,
    fun p _ c hc => ⟨c, ?_, by rw [h.wakelock_held]⟩⟩
  rw [h.wakelock_blk] at hc
  split at hc
  · cases hc
  · exact hc

theorem takeWaiters (h : s.Blocking) {overlap : LockPtr} (hne : lock ≠ overlap)
    (hlock : lock ∉ s.lsPending) (hov : overlap ∉ s.lsPending)
    (hid : (s.held overlap).id = (s.held lock).id) :
    Frame lock s (lfTakeWaiters s lock overlap) := by
  have howner (p : LockPtr) : (lfTakeWaiters s lock overlap).owner p = s.owner p := by
    rw [owner, h.takeWaiters_mem hne hlock]
    split
    · rfl
    · split
      · rfl
      · split <;> rfl
  refine ⟨rfl, rfl, fun p _ => ⟨by rw [h.takeWaiters_held hne hlock], howner p⟩,
    fun p hp _ => ⟨hp, by rw [h.takeWaiters_held hne hlock]⟩, fun p hp => ⟨p, .inl hp, howner p⟩,
    fun p hp c hc => ?_⟩
  rw [h.takeWaiters_blk hne hlock hp hov] at hc
  rw [h.takeWaiters_held hne hlock]
  split at hc
  next hin =>
    cases hc
    exact ⟨overlap, (h.waiting overlap p hin).2, hid.symm⟩
  · exact ⟨c, hc, rfl⟩

theorem free (hp : (s.mem p).lfBlkhd = []) : Frame lock s (lfFree s p) where
  pending := rfl
  panicked := by simp [lfFree, hp]
  requests _ _ := ⟨rfl, rfl⟩
  others _ hp _ := ⟨hp, rfl⟩
  origin p hp := ⟨p, .inl hp, rfl⟩
  blk _ _ b hb := ⟨b, hb, rfl⟩

theorem alloc (h : s.Blocking) (hd : lock < s.next) {allowfail : AllowFail}
    (halloc : lfAlloc s allowfail l = some (p, s')) : Frame lock s s' := by
  rw [lfAlloc] at halloc
  split at halloc
  · cases halloc
  cases halloc
  have hmem (q : LockPtr) (hq : q < s.next) : update s.mem s.next l q = s.mem q :=
    update_of_ne (Nat.ne_of_lt hq) ..
  refine ⟨rfl, rfl, fun q hq => ?_, fun q hq _ => ⟨hq, ?_⟩, fun q hq => ⟨q, .inl hq, ?_⟩,
    fun q hq b hb => ⟨b, ?_, ?_⟩⟩
  · have hlt : q < s.next := by
      rcases hq with rfl | hq
      · exact hd
      · exact h.pending_lt q hq
    simp only [held, owner, hmem q hlt, and_self]
  · simp only [held, hmem q (h.locks_lt q hq)]
  · simp only [owner, hmem q (h.locks_lt q hq)]
  · simpa only [hmem q (h.pending_lt q hq)] using hb
  · simp only [hmem q (h.pending_lt q hq)] at hb
    simp only [held, hmem b (h.locks_lt b (h.blocked q hq b hb).1)]

end Frame

structure Reshapes (f : Lockf → Lockf) : Prop where
  comm : ∀ l W, f { l with lfBlkhd := W } = { f l with lfBlkhd := W }
  blkhd : ∀ l, (f l).lfBlkhd = l.lfBlkhd
  id : ∀ l, (f l).lfId = l.lfId
  pid : ∀ l, (f l).lfPid = l.lfPid
  posix : ∀ l, (f l).lfFlags.posix = l.lfFlags.posix

theorem reshapes_start (x : Int) : Reshapes fun l => { l with lfStart := x } :=
  ⟨fun _ _ => rfl, fun _ => rfl, fun _ => rfl, fun _ => rfl, fun _ => rfl⟩

theorem reshapes_end (x : Int) : Reshapes fun l => { l with lfEnd := x } :=
  ⟨fun _ _ => rfl, fun _ => rfl, fun _ => rfl, fun _ => rfl, fun _ => rfl⟩

theorem reshapes_type (t : LfType) : Reshapes fun l => { l with lfType := t } :=
  ⟨fun _ _ => rfl, fun _ => rfl, fun _ => rfl, fun _ => rfl, fun _ => rfl⟩

theorem Reshapes.owner (hf : Reshapes f) (s : LockfState) (p : LockPtr) :
    (s.modify p f).owner p = s.owner p := by
  rw [LockfState.owner, s.modify_mem_self, hf.id, hf.pid, hf.posix, LockfState.owner]

def LockfState.reshape (s : LockfState) (o : LockPtr) (f : Lockf → Lockf) : LockfState :=
  (lfWakelock s o false).modify o f

section

variable {s : LockfState} (h : s.Blocking) {o : LockPtr} {f : Lockf → Lockf}

include h

theorem lfWakelock_modify (hf : Reshapes f) :
    lfWakelock (s.modify o f) o false = s.reshape o f := by
  have hhd : ((s.modify o f).mem o).lfBlkhd = (s.mem o).lfBlkhd := by
    rw [s.modify_mem_self, hf.blkhd]
  have hwake (p : LockPtr) : (lfWakelock (s.modify o f) o false).mem p = _ :=
    foldl_lfWakeOne rfl (fun hb => h.ne_of_mem_blkhd (hhd ▸ hb) rfl) (hhd ▸ h.nodup_blkhd o) p
  have hmem : (lfWakelock (s.modify o f) o false).mem = (s.reshape o f).mem := by
    funext p
    rw [hwake, hhd, reshape]
    by_cases hp : p = o
    · subst hp
      rw [if_pos rfl, modify_mem_self, modify_mem_self, h.wakelock_mem, if_pos rfl]
      exact (hf.comm _ _).symm
    · rw [if_neg hp, modify_mem_of_ne _ _ hp, modify_mem_of_ne _ _ hp, h.wakelock_mem, if_neg hp]
  exact congrArg (fun m => { s with mem := m }) hmem

theorem LockfState.Blocking.wakelock_lfStart (b p : LockPtr) (intr : Bool) :
    ((lfWakelock s b intr).mem p).lfStart = (s.mem p).lfStart :=
  congrArg (fun held => (held p).start) (h.wakelock_held b intr)

theorem LockfState.Blocking.wakelock_lfEnd (b p : LockPtr) (intr : Bool) :
    ((lfWakelock s b intr).mem p).lfEnd = (s.mem p).lfEnd :=
  congrArg (fun held => (held p).stop) (h.wakelock_held b intr)

theorem reshape_mem (hp : p ≠ o) (hpending : p ∉ s.lsPending) :
    (s.reshape o f).mem p = s.mem p := by
  rw [reshape, modify_mem_of_ne _ _ hp, h.wakelock_mem, if_neg hp, if_neg]
  exact fun hin => hpending (h.waiting o p hin).1

theorem reshape_held_of_ne (hp : p ≠ o) : (s.reshape o f).held p = s.held p := by
  rw [reshape, modify_held_of_ne _ _ hp, h.wakelock_held]

theorem map_reshape_held (ho : o ∉ L) : L.map (s.reshape o f).held = L.map s.held :=
  map_congr_left fun _ hp => reshape_held_of_ne h fun heq => ho (heq ▸ hp)

theorem reshape_held_self (hf : Reshapes f) : (s.reshape o f).held o = (f (s.mem o)).held := by
  rw [reshape, held, modify_mem_self, h.wakelock_mem, if_pos rfl, hf.comm]
  rfl

theorem reshape_owner (hf : Reshapes f) (p : LockPtr) : (s.reshape o f).owner p = s.owner p := by
  rw [reshape, modify_owner _ (hf.owner _ o), h.wakelock_owner]

theorem LockfState.Blocking.reshape (hf : Reshapes f) (ho : o ∉ s.lsPending) :
    (s.reshape o f).Blocking := by
  refine (h.wakelock o false).modify ho (hf.blkhd _) fun q hq => ?_
  rw [h.wakelock_blkhd, if_pos rfl] at hq
  cases hq

theorem Frame.reshape (hf : Reshapes f) (ho : o ∉ s.lsPending) (hne : o ≠ lock)
    (hid : (s.held o).id = (s.held lock).id) : Frame lock s (s.reshape o f) := by
  refine (Frame.wakelock h o false).trans (Frame.modify ho hne ?_ (hf.owner _ o))
  rwa [h.wakelock_held]

theorem LockfState.Detached.reshape (hd : s.Detached lock) (ho : lock ≠ o) :
    (s.reshape o f).Detached lock where
  not_locks := hd.not_locks
  not_pending := hd.not_pending
  lt := hd.lt
  blk := by rw [reshape_mem h ho hd.not_pending, hd.blk]

omit h in
theorem LockfState.Detached.alloc (hd : s.Detached lock)
    {allowfail : AllowFail} {s' : LockfState} (halloc : lfAlloc s allowfail l = some (p, s')) :
    s'.Detached lock := by
  rw [lfAlloc] at halloc
  split at halloc
  · cases halloc
  cases halloc
  refine ⟨hd.not_locks, hd.not_pending, Nat.lt_succ_of_lt hd.lt, ?_⟩
  simpa only [update_of_ne (Nat.ne_of_lt hd.lt)] using hd.blk

theorem LockfState.Blocking.free (p : LockPtr) : (lfFree s p).Blocking :=
  ⟨h.nodup_locks, h.nodup_pending, h.not_pending, h.locks_lt, h.pending_lt, h.nodup_blkhd,
    h.blocked, h.waiting⟩

theorem LockfState.Blocking.remove (hp : (s.mem p).lfBlkhd = []) : (s.remove p).Blocking := by
  refine h.set_locks (h.nodup_locks.erase p) (fun q hq => ?_) fun b hb hnot => ?_
  · have hq := mem_of_mem_erase hq
    exact ⟨h.not_pending q hq, h.locks_lt q hq⟩
  · by_cases hbp : b = p
    · rw [hbp, hp]
    · exact absurd ((mem_erase_of_ne hbp).mpr hb) hnot

theorem LockfState.Blocking.insert (hd : s.Detached p)
    (hL : L.Perm (p :: s.lsLocks)) : (s.relink L).Blocking := by
  refine h.set_locks (hL.nodup_iff.mpr (h.nodup_locks.cons hd.not_locks)) (fun q hq => ?_)
    fun b hb hnot => ?_
  · rcases mem_cons.mp (hL.mem_iff.mp hq) with rfl | hq
    · exact ⟨hd.not_pending, hd.lt⟩
    · exact ⟨h.not_pending q hq, h.locks_lt q hq⟩
  · exact absurd (hL.mem_iff.mpr (mem_cons_of_mem _ hb)) hnot

end

end Mbsd.Kern.VfsLockf
