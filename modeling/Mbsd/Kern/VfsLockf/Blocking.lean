import Mbsd.Kern.VfsLockf.Model

namespace Mbsd.Kern.VfsLockf

open Held Lib.Tailq List Option Function Nat LockfState

variable {lock b q p : LockPtr} {W : List LockPtr} {mem : LockPtr → Lockf}

structure LockfState.Blocking (s : LockfState) : Prop where
  nodup_locks : s.lsLocks.Nodup
  nodup_pending : s.lsPending.Nodup
  not_pending : ∀ p ∈ s.lsLocks, p ∉ s.lsPending
  locks_lt : ∀ p ∈ s.lsLocks, p < s.next
  pending_lt : ∀ p ∈ s.lsPending, p < s.next
  nodup_blkhd : ∀ b, (s.mem b).lfBlkhd.Nodup
  blocked : ∀ p ∈ s.lsPending, ∀ b, (s.mem p).lfBlk = some b →
    b ∈ s.lsLocks ∧ Blocks s p b ∧ p ∈ (s.mem b).lfBlkhd
  waiting : ∀ b q, q ∈ (s.mem b).lfBlkhd → q ∈ s.lsPending ∧ (s.mem q).lfBlk = some b

structure LockfState.Detached (s : LockfState) (p : LockPtr) : Prop where
  not_locks : p ∉ s.lsLocks
  not_pending : p ∉ s.lsPending
  lt : p < s.next
  blk : (s.mem p).lfBlk = none

theorem foldl_lfWakeOne {intr : Bool}
    (hW : (mem lock).lfBlkhd = W) (hlock : lock ∉ W) (hnodup : W.Nodup)
    (p : LockPtr) : W.foldl (lfWakeOne lock intr) mem p =
      if p = lock then { mem p with lfBlkhd := [] }
      else if p ∈ W then (mem p).woken intr else mem p := by
  induction W generalizing mem with
  | nil =>
    by_cases hp : p = lock
    · subst hp
      rw [foldl_nil, if_pos rfl, ← hW]
    · simp [hp]
  | cons w W ih =>
    have hw : lock ≠ w := fun heq => hlock (heq ▸ mem_cons_self)
    have hone : (lfWakeOne lock intr mem w lock).lfBlkhd = W := by
      simp [lfWakeOne, update_of_ne hw, hW]
    rw [foldl_cons, ih hone (fun hm => hlock (mem_cons_of_mem _ hm)) (nodup_cons.mp hnodup).2]
    by_cases hp : p = lock
    · subst hp
      simp [lfWakeOne, update_of_ne hw]
    · by_cases hpw : p = w
      · subst hpw
        simp [lfWakeOne, hp, (nodup_cons.mp hnodup).1]
      · simp [lfWakeOne, hp, hpw]

theorem foldl_lfTakeOne {overlap : LockPtr}
    (hne : lock ≠ overlap) (hW : (mem overlap).lfBlkhd = W) (hoverlap : overlap ∉ W)
    (hlock : lock ∉ W) (hnodup : W.Nodup) (p : LockPtr) : W.foldl (lfTakeOne lock overlap) mem p =
      if p = overlap then { mem p with lfBlkhd := [] }
      else if p = lock then { mem p with lfBlkhd := (mem p).lfBlkhd ++ W }
      else if p ∈ W then { mem p with lfBlk := some lock } else mem p := by
  induction W generalizing mem with
  | nil =>
    by_cases hp : p = overlap
    · subst hp
      rw [foldl_nil, if_pos rfl, ← hW]
    · by_cases hpl : p = lock
      · subst hpl
        simp [hp]
      · simp [hp, hpl]
  | cons w W ih =>
    have hwo : overlap ≠ w := fun heq => hoverlap (heq ▸ mem_cons_self)
    have hwl : lock ≠ w := fun heq => hlock (heq ▸ mem_cons_self)
    have hone : (lfTakeOne lock overlap mem w overlap).lfBlkhd = W := by
      simp [lfTakeOne, update_of_ne hwo, update_of_ne hne.symm, hW]
    rw [foldl_cons, ih hone (fun hm => hoverlap (mem_cons_of_mem _ hm))
      (fun hm => hlock (mem_cons_of_mem _ hm)) (nodup_cons.mp hnodup).2]
    by_cases hp : p = overlap
    · subst hp
      simp [lfTakeOne, update_of_ne hwo, update_of_ne hne.symm]
    · by_cases hpl : p = lock
      · subst hpl
        simp [lfTakeOne, hp, update_of_ne hwl]
      · by_cases hpw : p = w
        · subst hpw
          simp [lfTakeOne, hp, hpl, (nodup_cons.mp hnodup).1]
        · simp [lfTakeOne, hp, hpl, hpw]

section Sleep

variable (s : LockfState) {lock block : LockPtr} (hne : lock ≠ block) (p : LockPtr)

include hne

theorem lfSleep_mem : (lfSleep s lock block).mem p =
    if p = block then { s.mem p with lfBlkhd := (s.mem p).lfBlkhd ++ [lock] }
    else if p = lock then { s.mem p with lfBlk := some block } else s.mem p := by
  simp only [lfSleep, LockfState.modify, update_apply, if_neg hne.symm]
  split_ifs with hp hp <;> simp [hp]

theorem lfSleep_held : (lfSleep s lock block).held = s.held := by
  funext p
  rw [held, lfSleep_mem s hne]
  split
  · rfl
  · split <;> rfl

theorem lfSleep_blkhd : ((lfSleep s lock block).mem p).lfBlkhd =
    if p = block then (s.mem p).lfBlkhd ++ [lock] else (s.mem p).lfBlkhd := by
  rw [lfSleep_mem s hne]
  split
  · rfl
  · split <;> rfl

theorem lfSleep_blk : ((lfSleep s lock block).mem p).lfBlk =
    if p = lock then some block else (s.mem p).lfBlk := by
  rw [lfSleep_mem s hne]
  split
  next heq =>
    subst heq
    rw [if_neg hne.symm]
  · split <;> rfl

end Sleep

namespace LockfState.Blocking

variable {s : LockfState} (h : s.Blocking)

include h

theorem blkhd_eq_nil (hb : b ∉ s.lsLocks) : (s.mem b).lfBlkhd = [] := by
  refine eq_nil_iff_forall_not_mem.mpr fun q hq => ?_
  obtain ⟨hpending, hblk⟩ := h.waiting b q hq
  exact hb (h.blocked q hpending b hblk).1

theorem blocks_of_mem_blkhd (hq : q ∈ (s.mem b).lfBlkhd) : Blocks s q b := by
  obtain ⟨hpending, hblk⟩ := h.waiting b q hq
  exact (h.blocked q hpending b hblk).2.1

theorem ne_of_mem_blkhd (hq : q ∈ (s.mem b).lfBlkhd) : q ≠ b := by
  rintro rfl
  exact (h.blocks_of_mem_blkhd hq).1 rfl

theorem set_locks {L : List LockPtr} (hnodup : L.Nodup)
    (hmem : ∀ p ∈ L, p ∉ s.lsPending ∧ p < s.next)
    (hkeep : ∀ b ∈ s.lsLocks, b ∉ L → (s.mem b).lfBlkhd = []) :
    Blocking { s with lsLocks := L } where
  nodup_locks := hnodup
  nodup_pending := h.nodup_pending
  not_pending p hp := (hmem p hp).1
  locks_lt p hp := (hmem p hp).2
  pending_lt := h.pending_lt
  nodup_blkhd := h.nodup_blkhd
  blocked p hp b hb := by
    obtain ⟨hmemb, hblocks, hin⟩ := h.blocked p hp b hb
    refine ⟨?_, hblocks, hin⟩
    by_contra hout
    rw [hkeep b hmemb hout] at hin
    cases hin
  waiting := h.waiting

theorem modify {f : Lockf → Lockf} (hp : p ∉ s.lsPending)
    (hblkhd : (f (s.mem p)).lfBlkhd = (s.mem p).lfBlkhd)
    (hblocks : ∀ q ∈ (s.mem p).lfBlkhd, Blocks (s.modify p f) q p) : (s.modify p f).Blocking := by
  have hhd : ∀ b, ((s.modify p f).mem b).lfBlkhd = (s.mem b).lfBlkhd := by
    intro b
    by_cases hb : b = p
    · subst hb
      simpa [modify] using hblkhd
    · simp [LockfState.modify, update_of_ne hb]
  have hmem : ∀ q, q ≠ p → (s.modify p f).mem q = s.mem q := fun q hq =>
    update_of_ne hq _ _
  refine ⟨h.nodup_locks, h.nodup_pending, h.not_pending, h.locks_lt, h.pending_lt,
    fun b => ?_, fun q hq b hb => ?_, fun b q hq => ?_⟩
  · rw [hhd]
    exact h.nodup_blkhd b
  · have hqp : q ≠ p := fun heq => hp (heq ▸ hq)
    rw [hmem q hqp] at hb
    obtain ⟨hlocks, hb', hin⟩ := h.blocked q hq b hb
    refine ⟨hlocks, ?_, by rwa [hhd]⟩
    by_cases hbp : b = p
    · subst hbp
      exact hblocks q hin
    · simpa only [Blocks, held, hmem q hqp, hmem b hbp] using hb'
  · rw [hhd] at hq
    obtain ⟨hpending, hblk⟩ := h.waiting b q hq
    refine ⟨hpending, ?_⟩
    rw [hmem q fun heq => hp (heq ▸ hpending)]
    exact hblk

section

variable (b : LockPtr) (intr : Bool)

theorem wakelock_mem (p : LockPtr) : (lfWakelock s b intr).mem p =
      if p = b then { s.mem p with lfBlkhd := [] }
      else if p ∈ (s.mem b).lfBlkhd then (s.mem p).woken intr else s.mem p :=
  foldl_lfWakeOne rfl (fun hb => h.ne_of_mem_blkhd hb rfl) (h.nodup_blkhd b) p

@[simp] theorem wakelock_held : (lfWakelock s b intr).held = s.held := by
  funext p
  rw [held, h.wakelock_mem]
  split
  · rfl
  · split <;> rfl

theorem wakelock_blkhd (p : LockPtr) :
    ((lfWakelock s b intr).mem p).lfBlkhd = if p = b then [] else (s.mem p).lfBlkhd := by
  rw [h.wakelock_mem]
  split
  · rfl
  · split <;> rfl

theorem wakelock_blk (p : LockPtr) : ((lfWakelock s b intr).mem p).lfBlk =
      if p ∈ (s.mem b).lfBlkhd then none else (s.mem p).lfBlk := by
  rw [h.wakelock_mem]
  split
  next heq =>
    subst heq
    rw [if_neg fun hb => h.ne_of_mem_blkhd hb rfl]
  · split <;> rfl

theorem wakelock : (lfWakelock s b intr).Blocking where
  nodup_locks := h.nodup_locks
  nodup_pending := h.nodup_pending
  not_pending := h.not_pending
  locks_lt := h.locks_lt
  pending_lt := h.pending_lt
  nodup_blkhd p := by
    rw [h.wakelock_blkhd]
    split
    · exact nodup_nil
    · exact h.nodup_blkhd p
  blocked q hq c hc := by
    rw [h.wakelock_blk] at hc
    split at hc
    · cases hc
    next hnot =>
      obtain ⟨hlocks, hblocks, hin⟩ := h.blocked q hq c hc
      have hcb : c ≠ b := by
        rintro rfl
        exact hnot hin
      refine ⟨hlocks, ?_, ?_⟩
      · simpa only [Blocks, h.wakelock_held] using hblocks
      · rwa [h.wakelock_blkhd, if_neg hcb]
  waiting c q hq := by
    rw [h.wakelock_blkhd] at hq
    split at hq
    · cases hq
    next hcb =>
      obtain ⟨hpending, hblk⟩ := h.waiting c q hq
      refine ⟨hpending, ?_⟩
      rw [h.wakelock_blk, if_neg, hblk]
      intro hqb
      exact hcb (some.inj (hblk.symm.trans (h.waiting b q hqb).2))

end

section TakeWaiters

variable {lock overlap : LockPtr} (hne : lock ≠ overlap) (hlock : lock ∉ s.lsPending)

include hne hlock

theorem takeWaiters_mem (p : LockPtr) : (lfTakeWaiters s lock overlap).mem p =
      if p = overlap then { s.mem p with lfBlkhd := [] }
      else if p = lock then
        { s.mem p with lfBlkhd := (s.mem p).lfBlkhd ++ (s.mem overlap).lfBlkhd }
      else if p ∈ (s.mem overlap).lfBlkhd then { s.mem p with lfBlk := some lock }
      else s.mem p :=
  foldl_lfTakeOne hne rfl (fun hb => h.ne_of_mem_blkhd hb rfl)
    (fun hb => hlock (h.waiting overlap lock hb).1) (h.nodup_blkhd overlap) p

theorem takeWaiters_held : (lfTakeWaiters s lock overlap).held = s.held := by
  funext p
  rw [held, h.takeWaiters_mem hne hlock]
  split
  · rfl
  · split
    · rfl
    · split <;> rfl

theorem takeWaiters_blkhd (p : LockPtr) : ((lfTakeWaiters s lock overlap).mem p).lfBlkhd =
      if p = overlap then []
      else if p = lock then (s.mem p).lfBlkhd ++ (s.mem overlap).lfBlkhd
      else (s.mem p).lfBlkhd := by
  rw [h.takeWaiters_mem hne hlock]
  split
  · rfl
  · split
    · rfl
    · split <;> rfl

theorem takeWaiters_blk (hp : p ∈ s.lsPending) (hov : overlap ∉ s.lsPending) :
    ((lfTakeWaiters s lock overlap).mem p).lfBlk =
      if p ∈ (s.mem overlap).lfBlkhd then some lock else (s.mem p).lfBlk := by
  have hpo : p ≠ overlap := fun heq => hov (heq ▸ hp)
  have hpl : p ≠ lock := fun heq => hlock (heq ▸ hp)
  rw [h.takeWaiters_mem hne hlock, if_neg hpo, if_neg hpl]
  split <;> rfl

theorem takeWaiters (hin : lock ∈ s.lsLocks) (hov : overlap ∉ s.lsPending)
    (hblocks : ∀ q ∈ (s.mem overlap).lfBlkhd, Blocks s q lock) :
    (lfTakeWaiters s lock overlap).Blocking where
  nodup_locks := h.nodup_locks
  nodup_pending := h.nodup_pending
  not_pending := h.not_pending
  locks_lt := h.locks_lt
  pending_lt := h.pending_lt
  nodup_blkhd p := by
    rw [h.takeWaiters_blkhd hne hlock]
    split
    · exact nodup_nil
    next hpo =>
      split
      · refine nodup_append.mpr ⟨h.nodup_blkhd p, h.nodup_blkhd overlap, ?_⟩
        rintro q hq _ hq' rfl
        exact hpo (some.inj ((h.waiting p q hq).2.symm.trans (h.waiting overlap q hq').2))
      · exact h.nodup_blkhd p
  blocked q hq c hc := by
    rw [h.takeWaiters_blk hne hlock hq hov] at hc
    split at hc
    next hqo =>
      cases hc
      refine ⟨hin, ?_, ?_⟩
      · simpa only [Blocks, h.takeWaiters_held hne hlock] using hblocks q hqo
      · rw [h.takeWaiters_blkhd hne hlock, if_neg hne, if_pos rfl]
        exact mem_append_right _ hqo
    next hqo =>
      obtain ⟨hlocks, hb, hqc⟩ := h.blocked q hq c hc
      have hco : c ≠ overlap := by
        rintro rfl
        exact hqo hqc
      refine ⟨hlocks, ?_, ?_⟩
      · simpa only [Blocks, h.takeWaiters_held hne hlock] using hb
      · rw [h.takeWaiters_blkhd hne hlock, if_neg hco]
        split
        next heq =>
          subst heq
          exact mem_append_left _ hqc
        · exact hqc
  waiting c q hq := by
    rw [h.takeWaiters_blkhd hne hlock] at hq
    split at hq
    · cases hq
    next hco =>
      have hother (hqc : q ∈ (s.mem c).lfBlkhd) : q ∈ s.lsPending ∧
          ((lfTakeWaiters s lock overlap).mem q).lfBlk = some c := by
        obtain ⟨hpending, hblk⟩ := h.waiting c q hqc
        refine ⟨hpending, ?_⟩
        rw [h.takeWaiters_blk hne hlock hpending hov, if_neg, hblk]
        intro hqo
        exact hco (some.inj (hblk.symm.trans (h.waiting overlap q hqo).2))
      split at hq
      next hcl =>
        subst hcl
        rcases mem_append.mp hq with hq | hq
        · exact hother hq
        · have hpending := (h.waiting overlap q hq).1
          refine ⟨hpending, ?_⟩
          rw [h.takeWaiters_blk hne hlock hpending hov, if_pos hq]
      · exact hother hq

end TakeWaiters

theorem sleep {block : LockPtr} (hd : s.Detached lock) (hin : block ∈ s.lsLocks)
    (hblocks : Blocks s lock block) : (lfSleep s lock block).Blocking := by
  have hne : lock ≠ block := fun heq => hd.not_locks (heq ▸ hin)
  have hblkhd := lfSleep_blkhd s hne
  have hblk := lfSleep_blk s hne
  have hnot : ∀ b, lock ∉ (s.mem b).lfBlkhd := fun b hb => hd.not_pending (h.waiting b lock hb).1
  refine ⟨h.nodup_locks, ?_, fun p hp => ?_, h.locks_lt, fun p hp => ?_, fun b => ?_,
    fun q hq c hc => ?_, fun c q hq => ?_⟩
  · refine nodup_append.mpr ⟨h.nodup_pending, nodup_singleton _, ?_⟩
    rintro p hp _ hq rfl
    exact hd.not_pending (mem_singleton.mp hq ▸ hp)
  · intro hmem
    rcases mem_append.mp hmem with hmem | hmem
    · exact h.not_pending p hp hmem
    · exact hd.not_locks (mem_singleton.mp hmem ▸ hp)
  · rcases mem_append.mp hp with hp | hp
    · exact h.pending_lt p hp
    · exact mem_singleton.mp hp ▸ hd.lt
  · rw [hblkhd]
    split
    · refine nodup_append.mpr ⟨h.nodup_blkhd b, nodup_singleton _, ?_⟩
      rintro p hp _ hq rfl
      exact hnot b (mem_singleton.mp hq ▸ hp)
    · exact h.nodup_blkhd b
  · rw [hblk] at hc
    rw [Blocks, lfSleep_held s hne, hblkhd]
    split at hc
    next heq =>
      subst heq
      cases hc
      exact ⟨hin, hblocks, by simp⟩
    next hql =>
      have hq : q ∈ s.lsPending :=
        (mem_append.mp hq).resolve_right fun hm => hql (mem_singleton.mp hm)
      obtain ⟨hlocks, hb, hqc⟩ := h.blocked q hq c hc
      refine ⟨hlocks, hb, ?_⟩
      split
      next heq => exact mem_append_left _ (heq ▸ hqc)
      · exact hqc
  · rw [hblkhd] at hq
    have hold (hqc : q ∈ (s.mem c).lfBlkhd) : q ∈ (lfSleep s lock block).lsPending ∧
        ((lfSleep s lock block).mem q).lfBlk = some c := by
      obtain ⟨hpending, hb⟩ := h.waiting c q hqc
      refine ⟨mem_append_left _ hpending, ?_⟩
      have hql : q ≠ lock := fun heq => hnot c (heq ▸ hqc)
      rw [hblk, if_neg hql, hb]
    split at hq
    next heq =>
      subst heq
      rcases mem_append.mp hq with hq | hq
      · exact hold hq
      · rw [mem_singleton] at hq
        subst hq
        exact ⟨mem_append_right _ mem_cons_self, by rw [hblk, if_pos rfl]⟩
    · exact hold hq

theorem unblock (hp : lock ∈ s.lsPending) :
    (lfUnblock s lock).Blocking ∧ (lfUnblock s lock).Detached lock ∧
      (lfUnblock s lock).held = s.held := by
  have hnot : lock ∉ s.lsLocks := fun hin => h.not_pending lock hin hp
  have hmem (q : LockPtr) : q ∈ s.lsPending.erase lock ↔ q ≠ lock ∧ q ∈ s.lsPending :=
    h.nodup_pending.mem_erase_iff
  have herase : ∀ b ∈ s.lsLocks, b ∉ s.lsPending.erase lock := fun b hb hb' =>
    h.not_pending b hb ((hmem b).mp hb').2
  cases hblk : (s.mem lock).lfBlk with
  | none =>
    have hs : lfUnblock s lock = { s with lsPending := s.lsPending.erase lock } := by
      simp only [lfUnblock, hblk]
    rw [hs]
    refine ⟨⟨h.nodup_locks, h.nodup_pending.erase _, herase, h.locks_lt, fun q hq => ?_,
      h.nodup_blkhd, fun q hq => ?_, fun b q hq => ?_⟩, ⟨hnot, ?_, h.pending_lt lock hp, hblk⟩, rfl⟩
    · exact h.pending_lt q ((hmem q).mp hq).2
    · exact h.blocked q ((hmem q).mp hq).2
    · obtain ⟨hpending, hb⟩ := h.waiting b q hq
      refine ⟨(hmem q).mpr ⟨?_, hpending⟩, hb⟩
      rintro rfl
      rw [hblk] at hb
      cases hb
    · exact fun hin => ((hmem lock).mp hin).1 rfl
  | some blk =>
    obtain ⟨hin, -, hlb⟩ := h.blocked lock hp blk hblk
    have hne : lock ≠ blk := fun heq => hnot (heq ▸ hin)
    have hmem' (p : LockPtr) : (lfUnblock s lock).mem p =
        if p = lock then { s.mem p with lfBlk := none }
        else if p = blk then { s.mem p with lfBlkhd := (s.mem p).lfBlkhd.erase lock }
        else s.mem p := by
      simp only [lfUnblock, hblk, LockfState.modify, update_apply, if_neg hne]
      split_ifs with hp hp <;> simp [hp]
    have hlocks : (lfUnblock s lock).lsLocks = s.lsLocks := by
      simp only [lfUnblock, hblk, LockfState.modify]
    have hpend : (lfUnblock s lock).lsPending = s.lsPending.erase lock := by
      simp only [lfUnblock, hblk, LockfState.modify]
    have hnext : (lfUnblock s lock).next = s.next := by
      simp only [lfUnblock, hblk, LockfState.modify]
    have hheld : (lfUnblock s lock).held = s.held := by
      funext p
      rw [LockfState.held, hmem']
      split
      · rfl
      · split <;> rfl
    have hblkhd (p : LockPtr) : ((lfUnblock s lock).mem p).lfBlkhd =
        if p = blk then (s.mem p).lfBlkhd.erase lock else (s.mem p).lfBlkhd := by
      rw [hmem']
      split
      next heq =>
        subst heq
        rw [if_neg hne]
      · split <;> rfl
    have hblk' (p : LockPtr) : ((lfUnblock s lock).mem p).lfBlk =
        if p = lock then none else (s.mem p).lfBlk := by
      rw [hmem']
      split
      · rfl
      · split <;> rfl
    have hsub {b q : LockPtr} (hq : q ∈ ((lfUnblock s lock).mem b).lfBlkhd) :
        q ≠ lock ∧ q ∈ (s.mem b).lfBlkhd := by
      rw [hblkhd] at hq
      split at hq
      next heq =>
        subst heq
        exact (h.nodup_blkhd b).mem_erase_iff.mp hq
      next hb =>
        refine ⟨?_, hq⟩
        rintro rfl
        exact hb (some.inj ((h.waiting b q hq).2.symm.trans hblk))
    refine ⟨⟨?_, ?_, ?_, ?_, fun q hq => ?_, fun b => ?_, fun q hq c hc => ?_, fun c q hq => ?_⟩,
      ⟨?_, ?_, ?_, ?_⟩, hheld⟩
    · rw [hlocks]
      exact h.nodup_locks
    · rw [hpend]
      exact h.nodup_pending.erase _
    · rw [hlocks, hpend]
      exact herase
    · rw [hlocks, hnext]
      exact h.locks_lt
    · rw [hpend] at hq
      rw [hnext]
      exact h.pending_lt q ((hmem q).mp hq).2
    · rw [hblkhd]
      split
      · exact (h.nodup_blkhd b).erase _
      · exact h.nodup_blkhd b
    · rw [hpend, hmem] at hq
      rw [hblk', if_neg hq.1] at hc
      obtain ⟨hc', hb, hqc⟩ := h.blocked q hq.2 c hc
      rw [hlocks, Blocks, hheld, hblkhd]
      refine ⟨hc', hb, ?_⟩
      split
      next heq =>
        subst heq
        exact (h.nodup_blkhd c).mem_erase_iff.mpr ⟨hq.1, hqc⟩
      · exact hqc
    · obtain ⟨hql, hqc⟩ := hsub hq
      obtain ⟨hpending, hb⟩ := h.waiting c q hqc
      rw [hpend, hblk', if_neg hql]
      exact ⟨(hmem q).mpr ⟨hql, hpending⟩, hb⟩
    · rw [hlocks]
      exact hnot
    · rw [hpend]
      exact fun hin => ((hmem lock).mp hin).1 rfl
    · rw [hnext]
      exact h.pending_lt lock hp
    · rw [hblk', if_pos rfl]

theorem alloc {lock : Lockf} {allowfail : AllowFail} {s' : LockfState}
    (hblk : lock.lfBlk = none) (hblkhd : lock.lfBlkhd = [])
    (halloc : lfAlloc s allowfail lock = some (p, s')) :
    s'.Blocking ∧ s'.Detached p ∧ s'.mem = update s.mem p lock ∧
      s'.lsLocks = s.lsLocks ∧ s'.lsPending = s.lsPending ∧ s'.panicked = s.panicked := by
  rw [lfAlloc] at halloc
  split at halloc
  · cases halloc
  cases halloc
  have hlt : ∀ q, q ∈ s.lsLocks ∨ q ∈ s.lsPending → q ≠ s.next := by
    rintro q hq rfl
    rcases hq with hq | hq
    · exact Nat.lt_irrefl _ (h.locks_lt _ hq)
    · exact Nat.lt_irrefl _ (h.pending_lt _ hq)
  have hhd (b : LockPtr) : (update s.mem s.next lock b).lfBlkhd = (s.mem b).lfBlkhd := by
    by_cases hb : b = s.next
    · subst hb
      rw [update_self, hblkhd, h.blkhd_eq_nil fun hin => hlt _ (.inl hin) rfl]
    · rw [update_of_ne hb]
  refine ⟨⟨h.nodup_locks, h.nodup_pending, h.not_pending,
    fun q hq => lt_succ_of_lt (h.locks_lt q hq),
    fun q hq => lt_succ_of_lt (h.pending_lt q hq), fun b => ?_, fun q hq c hc => ?_,
    fun c q hq => ?_⟩, ⟨fun hin => hlt _ (.inl hin) rfl, fun hin => hlt _ (.inr hin) rfl,
      lt_succ_self _, ?_⟩, rfl, rfl, rfl, rfl⟩
  · rw [hhd]
    exact h.nodup_blkhd b
  · have hqn := hlt q (.inr hq)
    simp only [update_of_ne hqn] at hc
    obtain ⟨hlocks, hb, hqc⟩ := h.blocked q hq c hc
    refine ⟨hlocks, ?_, by rwa [hhd]⟩
    simpa only [Blocks, held, update_of_ne hqn, update_of_ne (hlt c (.inl hlocks))] using hb
  · rw [hhd] at hq
    obtain ⟨hpending, hb⟩ := h.waiting c q hq
    refine ⟨hpending, ?_⟩
    simpa only [update_of_ne (hlt q (.inr hpending))] using hb
  · simpa using hblk

end LockfState.Blocking

end Mbsd.Kern.VfsLockf
