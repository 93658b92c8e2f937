import Mbsd.Kern.VfsLockf.Set

namespace Mbsd.Kern.VfsLockf

open Held Sys List Function LockfState

structure LockfState.Inv (s : LockfState) : Prop where
  blocking : s.Blocking
  valid : AllValid s.helds
  sorted : Sorted s.helds
  exclusive : Exclusive s.helds
  requests : ∀ p ∈ s.lsPending, (s.held p).Valid ∧ (s.held p).type ≠ .unlck
  sound : s.panicked = false

structure LockfState.Request (s : LockfState) (lock : LockPtr) : Prop where
  detached : s.Detached lock
  valid : (s.held lock).Valid
  type : (s.held lock).type ≠ .unlck

variable {s s' : LockfState} {lock : LockPtr}

theorem LockfState.Inv.of_frame (hi : s.Inv) (hb : s'.Blocking) (hf : Frame lock s s')
    (hv : AllValid s'.helds) (hs : Sorted s'.helds) (he : Exclusive s'.helds) : s'.Inv where
  blocking := hb
  valid := hv
  sorted := hs
  exclusive := he
  requests p hp := by
    rw [hf.pending] at hp
    rw [(hf.requests p (.inr hp)).1]
    exact hi.requests p hp
  sound := hf.panicked.trans hi.sound

theorem LockfState.Inv.free (hi : s.Inv) (hd : s.Detached lock) : (lfFree s lock).Inv := by
  have hf : Frame lock s (lfFree s lock) := Frame.free (hi.blocking.blkhd_eq_nil hd.not_locks)
  exact hi.of_frame (hi.blocking.free lock) hf hi.valid hi.sorted hi.exclusive

section Clear

theorem LockfState.Inv.cleared (hi : s.Inv) (hl : (s.held lock).Valid)
    (hc : Cleared lock [] s.lsLocks s s') : s'.Inv := by
  have hhelds : s'.helds = clearHeld (s.held lock) s.helds := hc.helds
  refine hi.of_frame hc.blocking hc.frame ?_ ?_ ?_ <;> rw [hhelds]
  · exact allValid_clearHeld hl hi.valid
  · exact sorted_clearHeld hl hi.valid hi.sorted
  · exact exclusive_clearHeld hl hi.valid hi.exclusive

theorem LockfState.Inv.clearlock (hi : s.Inv) (hd : s.Detached lock) :
    Cleared lock [] s.lsLocks s (lfClearlock s lock) :=
  lfClearlock_spec hi.blocking hd hi.sorted hi.valid

end Clear

section Grant

theorem LockfState.Inv.granted (hi : s.Inv) (hl : (s.held lock).Valid)
    (hfree : ∀ p ∈ s.lsLocks, ¬ Blocks s lock p) (hg : Granted lock s s') : s'.Inv := by
  rcases hg.helds with hins | ⟨hsame, -⟩
  · have hv := allValid_clearHeld hl hi.valid
    refine hi.of_frame hg.blocking hg.frame (hins.allValid hl hv)
      (hins.sorted (sorted_clearHeld hl hi.valid hi.sorted))
      (hins.exclusive (exclusive_clearHeld hl hi.valid hi.exclusive) fun k hk hkid hkov hkc => ?_)
    obtain ⟨h, hh, hpart, -⟩ := exists_part_of_mem_clearHeld hl hi.valid hk
    obtain ⟨p, hp, rfl⟩ := mem_map.mp hh
    refine hfree p hp ⟨hpart.id ▸ hkid, hpart.overlaps (PartOf.refl _) hkov, ?_⟩
    rwa [Conflicts, ← hpart.type]
  · refine hi.of_frame hg.blocking hg.frame ?_ ?_ ?_ <;> rw [hsame]
    · exact hi.valid
    · exact hi.sorted
    · exact hi.exclusive

end Grant

section GiveUp

theorem Frame.retype {t t' : LfType} (hd : s.Detached lock)
    (h : Frame lock (s.modify lock fun l => { l with lfType := t }) s')
    (ht' : t' = (s.mem lock).lfType) :
    Frame lock s (s'.modify lock fun l => { l with lfType := t' }) := by
  have hheld {p : LockPtr} (hp : p ≠ lock) :
      (s.modify lock fun l => { l with lfType := t }).held p = s.held p :=
    s.modify_held_of_ne _ hp
  have howner := s.modify_owner ((reshapes_type t).owner s lock)
  have howner' := s'.modify_owner ((reshapes_type t').owner s' lock)
  refine ⟨h.pending, h.panicked, fun p hp => ⟨?_, ?_⟩, fun p hp hid => ?_, fun p hp => ?_,
    fun p hp b hb => ?_⟩
  · by_cases hpl : p = lock
    · have hlock := h.held_lock
      subst hpl
      simp only [LockfState.held, LockfState.modify_mem_self, Lockf.held, Held.mk.injEq] at hlock ⊢
      exact ⟨hlock.1, ht', hlock.2.2⟩
    · rw [LockfState.modify_held_of_ne _ _ hpl, (h.requests p hp).1, hheld hpl]
  · rw [howner', (h.requests p hp).2, howner]
  · have hpl : p ≠ lock := hd.ne hp
    obtain ⟨hin, heq⟩ := h.others p hp (by simpa only [LockfState.id_eq_owner, howner] using hid)
    refine ⟨hin, ?_⟩
    rw [LockfState.modify_held_of_ne _ _ hpl, heq, hheld hpl]
  · obtain ⟨q, hq, heq⟩ := h.origin p hp
    exact ⟨q, hq, by rw [howner', heq, howner]⟩
  · have hpl : p ≠ lock := fun heq => hd.not_pending (heq ▸ hp)
    rw [LockfState.modify_mem_of_ne _ _ hpl] at hb
    obtain ⟨c, hc, hid⟩ := h.blk p hp b hb
    rw [LockfState.modify_mem_of_ne _ _ hpl] at hc
    refine ⟨c, hc, ?_⟩
    simpa only [LockfState.id_eq_owner, howner, howner'] using hid

structure GaveUp (lock : LockPtr) (s s' : LockfState) : Prop where
  blocking : s'.Blocking
  detached : s'.Detached lock
  frame : Frame lock s s'
  helds : s'.helds = s.helds ∨ s'.helds = clearHeld (s.held lock) s.helds

theorem lfGiveUp_spec (hi : s.Inv) (hd : s.Detached lock) : GaveUp lock s (lfGiveUp s lock) := by
  rw [lfGiveUp]
  split
  next hflock =>
    have hb : (s.modify lock fun l => { l with lfType := .unlck }).Blocking := by
      refine hi.blocking.modify hd.not_pending rfl fun q hq => ?_
      rw [hi.blocking.blkhd_eq_nil hd.not_locks] at hq
      cases hq
    have hd' : (s.modify lock fun l => { l with lfType := .unlck }).Detached lock :=
      ⟨hd.not_locks, hd.not_pending, hd.lt, by rw [s.modify_mem_self]; exact hd.blk⟩
    have hhelds : (s.modify lock fun l => { l with lfType := .unlck }).helds = s.helds :=
      s.map_modify_held _ hd.not_locks
    have hc := lfClearlock_spec hb hd' (hhelds ▸ hi.sorted) (hhelds ▸ hi.valid)
    have hd'' := hc.detached hd'
    refine ⟨?_, ⟨hd''.not_locks, hd''.not_pending, hd''.lt, ?_⟩,
      Frame.retype hd hc.frame hflock.2.symm, .inr ?_⟩
    · refine hc.blocking.modify hd''.not_pending rfl fun q hq => ?_
      rw [hc.blocking.blkhd_eq_nil hd''.not_locks] at hq
      cases hq
    · rw [modify_mem_self]
      exact hd''.blk
    · have hcl := hc.helds
      rw [map_nil, nil_append, ← helds, hhelds] at hcl
      refine (map_modify_held _ _ hd''.not_locks).trans (hcl.trans ?_)
      rw [held, s.modify_mem_self]
      rfl
  · exact ⟨hi.blocking, hd, Frame.refl _ _, .inl rfl⟩

theorem LockfState.Inv.gaveUp (hi : s.Inv) (hl : (s.held lock).Valid) (hg : GaveUp lock s s') :
    s'.Inv := by
  rcases hg.helds with hhelds | hhelds
  · refine hi.of_frame hg.blocking hg.frame ?_ ?_ ?_ <;> rw [hhelds]
    · exact hi.valid
    · exact hi.sorted
    · exact hi.exclusive
  · exact hi.cleared hl ⟨hg.blocking, fun _ => hg.detached, hg.frame, hhelds⟩

end GiveUp

section Setlock

inductive Passed (s : LockfState) (lock : LockPtr) : LockfState × SetResult → Prop
  | refused (e : Errno) : Passed s lock (lfFree s lock, .done (some e))
  | granted (s' : LockfState) (hfree : ∀ p ∈ s.lsLocks, ¬ Blocks s lock p)
      (hg : Granted lock s s') : Passed s lock (s', .done none)
  | slept (s' : LockfState) (M T : List LockPtr) (block : LockPtr)
      (hs : s.lsLocks = M ++ block :: T) (hfirst : ∀ p ∈ M, ¬ Blocks s lock p)
      (hblocks : Blocks s lock block) (hwait : (s.mem lock).lfFlags.wait = true)
      (hdeadlock : (s.mem lock).lfFlags.posix = true →
        lfDeadlock s lock (s.lsLocks.length + 1) s.lsLocks = false)
      (hg : GaveUp lock s s') : Passed s lock (lfSleep s' lock block, .sleeping)

theorem lfSetlock_passed (hi : s.Inv) (hr : s.Request lock) : Passed s lock (lfSetlock s lock) := by
  rw [lfSetlock]
  rcases lfGetblock_spec s lock (Nat.lt_succ_self s.lsLocks.length) with
    ⟨hget, hfree⟩ | ⟨M, b, T, hget, hs, hM, hb⟩
  · rw [hget]
    exact .granted _ hfree (lfSetLoop_spec hi.blocking hr.detached hr.valid hr.type hi.sorted
      hi.valid (Nat.lt_succ_self _))
  · rw [hget]
    change Passed s lock (if _ then _ else _)
    split
    · exact .refused _
    next hwait =>
      split
      · exact .refused _
      next hnot =>
        refine .slept _ M T b hs hM hb (Bool.not_eq_false _ ▸ hwait) (fun hposix => ?_) (lfGiveUp_spec hi hr.detached)
        exact Bool.eq_false_iff.mpr fun hdl => hnot ⟨hposix, hdl⟩

theorem LockfState.Inv.passed (hi : s.Inv) (hr : s.Request lock) {r : LockfState × SetResult}
    (hp : Passed s lock r) : r.1.Inv := by
  cases hp with
  | refused e => exact hi.free hr.detached
  | granted s' hfree hg => exact hi.granted hr.valid hfree hg
  | slept s' M T block hs _ hblocks _ _ hg =>
    have hin : block ∈ s.lsLocks := hs ▸ by simp
    have hi' := hi.gaveUp hr.valid hg
    have hlock := hg.frame.held_lock
    obtain ⟨hin', heq⟩ := hg.frame.others block hin hblocks.1
    have hne : lock ≠ block := fun h => hr.detached.not_locks (h ▸ hin)
    have hheld := lfSleep_held s' hne
    have hhelds : (lfSleep s' lock block).helds = s'.helds :=
      congrArg (fun held => s'.lsLocks.map held) hheld
    refine ⟨hg.blocking.sleep hg.detached hin' ?_, ?_, ?_, ?_, fun p hp => ?_, hi'.sound⟩
    · rw [Blocks, hlock, heq]
      exact hblocks
    · rw [hhelds]
      exact hi'.valid
    · rw [hhelds]
      exact hi'.sorted
    · rw [hhelds]
      exact hi'.exclusive
    · rw [hheld]
      rcases mem_append.mp hp with hp | hp
      · exact hi'.requests p hp
      · rw [mem_singleton.mp hp, hlock]
        exact ⟨hr.valid, hr.type⟩

end Setlock

section Wakeup

@[simp] theorem lfUnblock_lsLocks : (lfUnblock s lock).lsLocks = s.lsLocks := by
  rw [lfUnblock]
  split <;> rfl

@[simp] theorem lfUnblock_lsPending : (lfUnblock s lock).lsPending = s.lsPending.erase lock := by
  rw [lfUnblock]
  split <;> rfl

@[simp] theorem lfUnblock_panicked : (lfUnblock s lock).panicked = s.panicked := by
  rw [lfUnblock]
  split <;> rfl

theorem LockfState.Inv.unblock (hi : s.Inv) (hp : lock ∈ s.lsPending) :
    (lfUnblock s lock).Inv ∧ (lfUnblock s lock).Request lock := by
  obtain ⟨hb, hd, hheld⟩ := hi.blocking.unblock hp
  have hhelds : (lfUnblock s lock).helds = s.helds := by
    rw [helds, hheld, lfUnblock_lsLocks, helds]
  refine ⟨⟨hb, hhelds ▸ hi.valid, hhelds ▸ hi.sorted, hhelds ▸ hi.exclusive, fun p hp => ?_, ?_⟩,
    ⟨hd, ?_, ?_⟩⟩
  · rw [lfUnblock_lsPending] at hp
    rw [hheld]
    exact hi.requests p (mem_of_mem_erase hp)
  · rw [lfUnblock_panicked, hi.sound]
  · rw [hheld]
    exact (hi.requests lock hp).1
  · rw [hheld]
    exact (hi.requests lock hp).2

theorem lfResume_passed (hi : s.Inv) (hp : lock ∈ s.lsPending) (error : Option Errno) :
    Passed (lfUnblock s lock) lock (lfResume s lock error) := by
  obtain ⟨hi', hr⟩ := hi.unblock hp
  rw [lfResume]
  cases error with
  | some e => exact .refused e
  | none =>
    simp only [ne_eq, not_true_eq_false, if_false]
    split
    · exact .refused _
    · exact lfSetlock_passed hi' hr

end Wakeup

section Alloc

variable {allowfail : AllowFail} {l : Lockf}

theorem LockfState.Inv.alloc (hi : s.Inv) (hblk : l.lfBlk = none) (hblkhd : l.lfBlkhd = [])
    (halloc : lfAlloc s allowfail l = some (lock, s')) :
    s'.Inv ∧ s'.Detached lock ∧ s'.helds = s.helds ∧ s'.held lock = l.held := by
  obtain ⟨hb, hd, hmem, hlocks, hpending, hpanicked⟩ := hi.blocking.alloc hblk hblkhd halloc
  have hold {p : LockPtr} (hp : p ≠ lock) : s'.held p = s.held p := by
    rw [held, hmem, update_of_ne hp, held]
  have hhelds : s'.helds = s.helds := by
    rw [helds, hlocks]
    exact map_congr_left fun p hp => hold fun heq => hd.not_locks (hlocks ▸ heq ▸ hp)
  refine ⟨⟨hb, hhelds ▸ hi.valid, hhelds ▸ hi.sorted, hhelds ▸ hi.exclusive, fun p hp => ?_, ?_⟩,
    hd, hhelds, ?_⟩
  · rw [hold fun heq => hd.not_pending (heq ▸ hp)]
    exact hi.requests p (hpending ▸ hp)
  · rw [hpanicked, hi.sound]
  · rw [held, hmem, update_self]

theorem lfRange_valid {size start stop : Int} {fl : Flock}
    (h : lfRange size fl = .ok (start, stop)) : 0 ≤ start ∧ (stop = -1 ∨ start ≤ stop) := by
  rw [lfRange] at h
  split at h
  · cases h
  dsimp only at h
  generalize (if fl.lWhence = 2 then size + fl.lStart else fl.lStart) = pos at h
  split at h
  · cases h
  split at h
  · split at h
    · cases h
    · simp only [Except.ok.injEq, Prod.mk.injEq] at h
      split at h <;> omega
  · split at h
    · split at h
      · cases h
      · simp only [Except.ok.injEq, Prod.mk.injEq] at h
        omega
    · simp only [Except.ok.injEq, Prod.mk.injEq] at h
      omega

end Alloc

end Mbsd.Kern.VfsLockf
