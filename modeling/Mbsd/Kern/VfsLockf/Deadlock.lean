import Mbsd.Kern.VfsLockf.Runs
import Mbsd.Lib.Acyclic

/-! Which process waits for which, and what `lf_deadlock` does about it. -/

namespace Mbsd.Kern.VfsLockf

open Held Sys Lib Relation List Function LockfState

variable {block lock : LockPtr}

def Waits (s : LockfState) (x y : Int) : Prop :=
  ∃ p ∈ s.lsPending, ∃ b, (s.mem p).lfBlk = some b ∧ (s.mem p).lfPid = x ∧ (s.mem b).lfPid = y

def Tagged (pidOf : Nat → Int) (s : LockfState) (p : LockPtr) : Prop :=
  (s.mem p).lfPid = pidOf (s.mem p).lfId ∧ (s.mem p).lfFlags.posix = true

def AllTagged (pidOf : Nat → Int) (s : LockfState) : Prop :=
  ∀ p, p ∈ s.lsLocks ∨ p ∈ s.lsPending → Tagged pidOf s p

section

variable {pidOf : Nat → Int} {s s' : LockfState} {lock p q : LockPtr} {x y : Int}

theorem Tagged.of_owner (h : Tagged pidOf s p) (heq : s'.owner q = s.owner p) :
    Tagged pidOf s' q := by
  simp only [owner, Prod.mk.injEq] at heq
  rw [Tagged, heq.1, heq.2.1, heq.2.2]
  exact h

theorem AllTagged.of_frame (ht : AllTagged pidOf s) (hlock : Tagged pidOf s lock)
    (hf : Frame lock s s') : AllTagged pidOf s' := by
  rintro p (hp | hp)
  · obtain ⟨q, hq | rfl, heq⟩ := hf.origin p hp
    · exact (ht q (.inl hq)).of_owner heq
    · exact hlock.of_owner heq
  · rw [hf.pending] at hp
    exact (ht p (.inr hp)).of_owner (hf.requests p (.inr hp)).2

theorem Frame.waits (hf : Frame lock s s') (hb : s.Blocking) (hb' : s'.Blocking)
    (ht : AllTagged pidOf s) (ht' : AllTagged pidOf s') (h : Waits s' x y) : Waits s x y := by
  obtain ⟨p, hp, c', hc', rfl, rfl⟩ := h
  have hpending := hf.pending ▸ hp
  obtain ⟨c, hc, hid⟩ := hf.blk p hpending c' hc'
  have hpid := (hf.requests p (.inr hpending)).2
  simp only [owner, Prod.mk.injEq] at hpid
  refine ⟨p, hpending, c, hc, hpid.2.1.symm, ?_⟩
  rw [(ht c (.inl (hb.blocked p hpending c hc).1)).1, (ht' c' (.inl (hb'.blocked p hp c' hc').1)).1]
  exact congrArg pidOf hid.symm

theorem lfSleep_owner (hne : lock ≠ block) (p : LockPtr) :
    (lfSleep s lock block).owner p = s.owner p := by
  rw [owner, lfSleep_mem s hne]
  split
  · rfl
  · split <;> rfl

theorem lfSleep_waits (hne : lock ≠ block) (h : Waits (lfSleep s lock block) x y) :
    Waits s x y ∨ x = (s.mem lock).lfPid ∧ y = (s.mem block).lfPid := by
  have hpid (p : LockPtr) : ((lfSleep s lock block).mem p).lfPid = (s.mem p).lfPid :=
    congrArg (fun owner => owner.2.1) (lfSleep_owner hne p)
  obtain ⟨p, hp, c, hc, rfl, rfl⟩ := h
  rw [lfSleep_blk s hne] at hc
  split at hc
  next heq =>
    cases hc
    exact .inr ⟨by rw [hpid, heq], hpid block⟩
  next hpl =>
    have hp : p ∈ s.lsPending :=
      (mem_append.mp hp).resolve_right fun hm => hpl (mem_singleton.mp hm)
    exact .inl ⟨p, hp, c, hc, (hpid p).symm, (hpid c).symm⟩

def Held.Bars (h l : Held) : Prop := h.id ≠ l.id ∧ h.Overlaps l ∧ h.Conflicts l

/-- The first lock that bars the request belongs to a process from which two or more waits lead
to the process that asks. -/
def ClosesLongCycle (s : LockfState) (l : Held) (pid : Int) : Prop :=
  ∃ M block T z, s.lsLocks = M ++ block :: T ∧ (∀ p ∈ M, ¬ (s.held p).Bars l) ∧
    (s.held block).Bars l ∧ Waits s (s.mem block).lfPid z ∧ TransGen (Waits s) z pid

/-- Nothing leads from the process that holds the first blocking lock to the process that asks:
`lf_deadlock` has looked for one wait. -/
theorem no_path (hinj : Injective pidOf) (ht : AllTagged pidOf s)
    (hlock : Tagged pidOf s lock) {M T : List LockPtr}
    (hs : s.lsLocks = M ++ block :: T) (hfirst : ∀ p ∈ M, ¬ Blocks s lock p)
    (hblocks : Blocks s lock block)
    (hdeadlock : lfDeadlock s lock (s.lsLocks.length + 1) s.lsLocks = false)
    (hsafe : ¬ ClosesLongCycle s (s.held lock) (s.mem lock).lfPid) :
    ¬ ReflTransGen (Waits s) (s.mem block).lfPid (s.mem lock).lfPid := by
  have hin : block ∈ s.lsLocks := hs ▸ by simp
  have htb := ht block (.inl hin)
  intro hpath
  rcases hpath.cases_head with heq | ⟨z, hz, hrest⟩
  · rw [htb.1, hlock.1] at heq
    exact hblocks.1 (hinj heq)
  rcases reflTransGen_iff_eq_or_transGen.mp hrest with rfl | hrest
  · obtain ⟨p, hp, c, hc, hpid, hcid⟩ := hz
    have hpair := lfDeadlock_spec (Nat.lt_succ_self _) hdeadlock hin hblocks htb.2 hp
    simp [lfDeadlockPair, hc, hpid, hcid] at hpair
  · exact hsafe ⟨M, block, T, z, hs, hfirst, hblocks, hz, hrest⟩

theorem Passed.acyclic (hinj : Injective pidOf) (hi : s.Inv) (hr : s.Request lock)
    (ht : AllTagged pidOf s) (hlock : Tagged pidOf s lock) (hac : Acyclic (Waits s))
    (hsafe : (s.mem lock).lfFlags.wait = true →
      ¬ ClosesLongCycle s (s.held lock) (s.mem lock).lfPid)
    {r : LockfState × SetResult} (hp : Passed s lock r) :
    AllTagged pidOf r.1 ∧ Acyclic (Waits r.1) := by
  cases hp with
  | refused e => exact ⟨ht, hac⟩
  | granted s' _ hg =>
    have ht' := ht.of_frame hlock hg.frame
    exact ⟨ht', hac.mono fun x y => hg.frame.waits hi.blocking hg.blocking ht ht'⟩
  | slept s' M T block hs hfirst hblocks hwait hdeadlock hg =>
    have hin : block ∈ s.lsLocks := hs ▸ by simp
    have hne : lock ≠ block := fun h => hr.detached.not_locks (h ▸ hin)
    have ht' := ht.of_frame hlock hg.frame
    have hlock' : Tagged pidOf s' lock := hlock.of_owner (hg.frame.requests lock (.inl rfl)).2
    obtain ⟨hin', hheld⟩ := hg.frame.others block hin hblocks.1
    have hpid : (s'.mem lock).lfPid = (s.mem lock).lfPid := by
      rw [hlock'.1, hlock.1]
      exact congrArg (fun h => pidOf h.id) hg.frame.held_lock
    have hpid' : (s'.mem block).lfPid = (s.mem block).lfPid := by
      rw [(ht' block (.inl hin')).1, (ht block (.inl hin)).1]
      exact congrArg (fun h => pidOf h.id) hheld
    have hpath := no_path hinj ht hlock hs hfirst hblocks (hdeadlock hlock.2) (hsafe hwait)
    refine ⟨?_, hac.insert (fun x y hxy => ?_) hpath⟩
    · rintro p (hp | hp)
      · exact (ht' p (.inl hp)).of_owner (lfSleep_owner hne p)
      · rcases mem_append.mp hp with hp | hp
        · exact (ht' p (.inr hp)).of_owner (lfSleep_owner hne p)
        · exact (mem_singleton.mp hp ▸ hlock').of_owner (lfSleep_owner hne p)
    · rw [← hpid, ← hpid']
      exact (lfSleep_waits hne hxy).imp_left (hg.frame.waits hi.blocking hg.blocking ht ht')

theorem ClosesLongCycle.of_locks {l : Held} {pid : Int} (hlocks : s'.lsLocks = s.lsLocks)
    (hheld : ∀ p ∈ s.lsLocks, s'.held p = s.held p)
    (hpid : ∀ p ∈ s.lsLocks, (s'.mem p).lfPid = (s.mem p).lfPid)
    (hwaits : ∀ x y, Waits s' x y → Waits s x y) (h : ClosesLongCycle s' l pid) :
    ClosesLongCycle s l pid := by
  obtain ⟨M, block, T, z, hs, hfirst, hbars, hz, hrest⟩ := h
  rw [hlocks] at hs
  have hin : block ∈ s.lsLocks := hs ▸ by simp
  refine ⟨M, block, T, z, hs, fun p hp => ?_, ?_, ?_, TransGen.mono hwaits _ _ hrest⟩
  · rw [← hheld p (hs ▸ mem_append_left _ hp)]
    exact hfirst p hp
  · rwa [← hheld block hin]
  · rw [← hpid block hin]
    exact hwaits _ _ hz

section Alloc

variable {allowfail : AllowFail} {l : Lockf} (hi : s.Inv) (hblk : l.lfBlk = none)
  (hblkhd : l.lfBlkhd = []) (halloc : lfAlloc s allowfail l = some (lock, s'))

include hi hblk hblkhd halloc

theorem lfAlloc_mem (hp : p ∈ s.lsLocks ∨ p ∈ s.lsPending) : s'.mem p = s.mem p := by
  obtain ⟨-, hd, hmem, hlocks, hpending, -⟩ := hi.blocking.alloc hblk hblkhd halloc
  rw [hmem, update_of_ne]
  rintro rfl
  rcases hp with hp | hp
  · exact hd.not_locks (hlocks ▸ hp)
  · exact hd.not_pending (hpending ▸ hp)

theorem lfAlloc_waits (h : Waits s' x y) : Waits s x y := by
  obtain ⟨hb, -, -, -, hpending, -⟩ := hi.blocking.alloc hblk hblkhd halloc
  obtain ⟨p, hp, c, hc, rfl, rfl⟩ := h
  rw [hpending] at hp
  have hmem := lfAlloc_mem hi hblk hblkhd halloc (.inr hp)
  rw [hmem] at hc ⊢
  have hin := (hi.blocking.blocked p hp c hc).1
  rw [lfAlloc_mem hi hblk hblkhd halloc (.inl hin)]
  exact ⟨p, hp, c, hc, rfl, rfl⟩

end Alloc

theorem lfUnblock_owner (p : LockPtr) : (lfUnblock s lock).owner p = s.owner p := by
  rw [lfUnblock]
  split
  · rfl
  · rw [modify_owner, modify_owner]
    · rfl
    · rw [owner, modify_mem_self]
      rfl
    · rw [owner, modify_mem_self]
      rfl

theorem lfUnblock_blk (hp : p ≠ lock) : ((lfUnblock s lock).mem p).lfBlk = (s.mem p).lfBlk := by
  rw [lfUnblock]
  split
  · rfl
  next blk _ =>
    rw [modify_mem_of_ne _ _ hp]
    by_cases hpb : p = blk
    · subst hpb
      rw [modify_mem_self]
    · rw [modify_mem_of_ne _ _ hpb]

theorem lfUnblock_waits (hb : s.Blocking) (h : Waits (lfUnblock s lock) x y) : Waits s x y := by
  have hpid (p : LockPtr) : ((lfUnblock s lock).mem p).lfPid = (s.mem p).lfPid :=
    congrArg (fun owner => owner.2.1) (lfUnblock_owner p)
  obtain ⟨p, hp, c, hc, rfl, rfl⟩ := h
  rw [lfUnblock_lsPending] at hp
  obtain ⟨hpl, hp⟩ := hb.nodup_pending.mem_erase_iff.mp hp
  rw [lfUnblock_blk hpl] at hc
  exact ⟨p, hp, c, hc, (hpid p).symm, (hpid c).symm⟩

end

def Call.Posix (pidOf : Nat → Int) : Call → Prop
  | .advlock _ c _ _ => c.posix = true ∧ c.pid = pidOf c.id
  | _ => True

/-- The step puts no request to sleep that closes a cycle of three or more processes. -/
def Call.Safe (s : LockfState) : Call → Prop
  | .advlock size c op fl => op = .setlk → c.wait = true → ∀ start stop,
    lfRange size fl = .ok (start, stop) →
      ¬ ClosesLongCycle s ⟨c.id, fl.lType, start, stop⟩ c.pid
  | .resume lock _ => ¬ ClosesLongCycle s (s.held lock) (s.mem lock).lfPid
  | _ => True

inductive PosixRun (pidOf : Nat → Int) (Ok : LockfState → Call → Prop) : LockfState → Prop
  | initial : PosixRun pidOf Ok initial
  | step {s : LockfState} (hs : PosixRun pidOf Ok s) (call : Call) (h : call.Enabled s)
    (hposix : call.Posix pidOf) (hok : Ok s call) : PosixRun pidOf Ok (step s call)

structure PosixInv (pidOf : Nat → Int) (s : LockfState) : Prop where
  inv : s.Inv
  tagged : AllTagged pidOf s
  acyclic : Acyclic (Waits s)

section

variable {pidOf : Nat → Int} (hinj : Function.Injective pidOf) {s : LockfState}
  (hi : PosixInv pidOf s)

include hi

theorem PosixInv.of_frame {s' : LockfState} (hlock : Tagged pidOf s lock)
    (hf : Frame lock s s') (hi' : s'.Inv) : PosixInv pidOf s' := by
  have ht := hi.tagged.of_frame hlock hf
  exact ⟨hi', ht, hi.acyclic.mono fun x y =>
    hf.waits hi.inv.blocking hi'.blocking hi.tagged ht⟩

theorem PosixInv.wakelock {p : LockPtr} (hp : p ∈ s.lsLocks) (intr : Bool) :
    PosixInv pidOf (lfWakelock s p intr) :=
  hi.of_frame (hi.tagged p (.inl hp)) (Frame.wakelock hi.inv.blocking p intr)
    (hi.inv.wakelock p intr)

theorem PosixInv.purgeStart : PosixInv pidOf (lfPurgeStart s) := by
  have hwake {L : List LockPtr} (hL : ∀ p ∈ L, p ∈ s.lsLocks) :
      PosixInv pidOf (L.foldl (fun s lock => lfWakelock s lock true) s) := by
    induction L generalizing s with
    | nil => exact hi
    | cons p L ih =>
      exact ih (hi.wakelock (hL p mem_cons_self) true)
        fun q hq => hL q (mem_cons_of_mem _ hq)
  exact hwake fun _ hp => hp

theorem PosixInv.purgeFinish (hnone : s.lsPending = []) : PosixInv pidOf (lfPurgeFinish s) := by
  rw [lfPurgeFinish]
  generalize s.lsLocks = L
  induction L generalizing s with
  | nil => exact hi
  | cons p L ih =>
    refine ih ⟨hi.inv.remove_free hnone p, fun q hq => hi.tagged q ?_, hi.acyclic⟩ hnone
    exact hq.imp_left mem_of_mem_erase

include hinj

theorem PosixInv.resume (hp : lock ∈ s.lsPending) (error : Option Errno)
    (hsafe : (Call.resume lock error).Safe s) : PosixInv pidOf (lfResume s lock error).1 := by
  obtain ⟨hi', hr⟩ := hi.inv.unblock hp
  have hheld := (hi.inv.blocking.unblock hp).2.2
  have hwaits (x y : Int) : Waits (lfUnblock s lock) x y → Waits s x y :=
    lfUnblock_waits hi.inv.blocking
  have hpid (p : LockPtr) : ((lfUnblock s lock).mem p).lfPid = (s.mem p).lfPid :=
    congrArg (fun owner => owner.2.1) (lfUnblock_owner p)
  have ht : AllTagged pidOf (lfUnblock s lock) := by
    intro p hp
    rw [lfUnblock_lsLocks, lfUnblock_lsPending] at hp
    exact (hi.tagged p (hp.imp_right mem_of_mem_erase)).of_owner (lfUnblock_owner p)
  have hpassed := lfResume_passed hi.inv hp error
  obtain ⟨ht', hac⟩ := hpassed.acyclic hinj hi' hr ht
    ((hi.tagged lock (.inr hp)).of_owner (lfUnblock_owner lock)) (hi.acyclic.mono hwaits)
    fun _ hcloses => by
      rw [hheld, hpid] at hcloses
      exact hsafe (hcloses.of_locks lfUnblock_lsLocks (fun p _ => by rw [hheld])
        (fun p _ => hpid p) hwaits)
  exact ⟨hi'.passed hr hpassed, ht', hac⟩

theorem PosixInv.advlock {size : Int} {c : Caller} {op : LockOp} {fl : Flock}
    (htype : op = .setlk → fl.lType ≠ .unlck) (hposix : c.posix = true ∧ c.pid = pidOf c.id)
    (hsafe : (Call.advlock size c op fl).Safe s) : PosixInv pidOf (lfAdvlock s size c op fl).1 := by
  have hinv := hi.inv.advlock size c htype
  rcases lfAdvlock_cases s size c op fl with
    ⟨hsame, -⟩ | ⟨start, stop, allowfail, lock, s', hrange, halloc, hop⟩
  · rwa [hsame]
  obtain ⟨hi', hd, hhelds, hheld⟩ := hi.inv.alloc rfl rfl halloc
  obtain ⟨-, -, hmem, hlocks, hpending, -⟩ := hi.inv.blocking.alloc rfl rfl halloc
  have hold {p : LockPtr} (hp : p ∈ s.lsLocks ∨ p ∈ s.lsPending) : s'.mem p = s.mem p :=
    lfAlloc_mem hi.inv rfl rfl halloc hp
  have hwaits (x y : Int) : Waits s' x y → Waits s x y := lfAlloc_waits hi.inv rfl rfl halloc
  have hlock : s'.mem lock = c.request fl start stop := by rw [hmem, update_self]
  have htag : Tagged pidOf s' lock := by
    rw [Tagged, hlock, Caller.request, hposix.1, if_pos rfl]
    exact ⟨hposix.2, rfl⟩
  have hpi : PosixInv pidOf s' := by
    refine ⟨hi', fun p hp => ?_, hi.acyclic.mono hwaits⟩
    rw [hlocks, hpending] at hp
    rw [Tagged, hold hp]
    exact hi.tagged p hp
  rcases hop with ⟨rfl, heq⟩ | ⟨rfl, heq⟩ | ⟨rfl, heq⟩
  · have hr : s'.Request lock := ⟨hd, hheld ▸ lfRange_valid hrange, hheld ▸ htype rfl⟩
    have hpassed := lfSetlock_passed hi' hr
    rw [← heq] at hpassed
    obtain ⟨ht', hac⟩ := hpassed.acyclic hinj hi' hr hpi.tagged htag hpi.acyclic
      fun hwait hcloses => by
        rw [hheld, hlock, Caller.request, hposix.1, if_pos rfl] at hcloses
        rw [hlock] at hwait
        refine hsafe rfl hwait start stop hrange (hcloses.of_locks hlocks (fun p hp => ?_)
          (fun p hp => ?_) hwaits)
        · rw [held, hold (.inl hp), held]
        · rw [hold (.inl hp)]
    exact ⟨hinv, ht', hac⟩
  · have hc := hi'.clearlock hd
    have hpc := hpi.of_frame htag hc.frame (hi'.cleared (hheld ▸ lfRange_valid hrange) hc)
    rw [heq] at hinv ⊢
    exact ⟨hinv, hpc.tagged, hpc.acyclic⟩
  · rw [heq] at hinv ⊢
    exact ⟨hinv, hpi.tagged, hpi.acyclic⟩

theorem PosixInv.step {call : Call} (h : call.Enabled s) (hposix : call.Posix pidOf)
    (hsafe : call.Safe s) : PosixInv pidOf (step s call) := by
  cases call with
  | advlock size c op fl => exact hi.advlock hinj h hposix hsafe
  | resume lock error => exact hi.resume hinj h error hsafe
  | purgeStart => exact hi.purgeStart
  | purgeFinish => exact hi.purgeFinish h
  | otherFiles uiLockcnt => exact ⟨hi.inv.set_uiLockcnt uiLockcnt, hi.tagged, hi.acyclic⟩

end

/-- As long as no request goes to sleep that closes a cycle of three or more processes, no
process waits for itself. -/
theorem waits_acyclic {pidOf : Nat → Int} (hinj : Function.Injective pidOf) {s : LockfState}
    (hs : PosixRun pidOf (fun s call => call.Safe s) s) : Acyclic (Waits s) := by
  suffices hi : PosixInv pidOf s from hi.acyclic
  induction hs with
  | initial =>
    refine ⟨Reachable.initial.inv, nofun, fun x hx => ?_⟩
    obtain ⟨y, ⟨p, hp, -⟩, -⟩ := TransGen.head'_iff.mp hx
    cases hp
  | step _ call h hposix hok ih => exact ih.step hinj h hposix hok

theorem safe_of_no_pending {s : LockfState} (hnone : s.lsPending = []) (call : Call) :
    call.Safe s := by
  have hno {l : Held} {pid : Int} : ¬ ClosesLongCycle s l pid := by
    rintro ⟨-, -, -, -, -, -, -, ⟨p, hp, -⟩, -⟩
    rw [hnone] at hp
    cases hp
  cases call with
  | advlock size c op fl => exact fun _ _ _ _ _ => hno
  | resume lock error => exact hno
  | purgeStart => trivial
  | purgeFinish => trivial
  | otherFiles uiLockcnt => trivial

theorem waits_acyclic_contended : Waits contended 2 1 ∧ Acyclic (Waits contended) := by
  refine ⟨⟨3, by decide, 0, by decide, by decide, by decide⟩,
    waits_acyclic (fun _ _ => Int.ofNat.inj) ?_⟩
  have hrun {s : LockfState} (hs : PosixRun (fun n => n) (fun s call => call.Safe s) s)
      (hnone : s.lsPending = []) (n : Nat) {type : LfType} (start stop : Int)
      (htype : type ≠ .unlck) :
      PosixRun (fun n => n) (fun s call => call.Safe s)
        (step s (posixCall n .setlk type start stop)) :=
    hs.step _ (fun _ => htype) ⟨rfl, rfl⟩ (safe_of_no_pending hnone _)
  exact hrun (hrun (hrun (hrun .initial rfl 1 0 9 (by decide)) (by decide) 1 20 20 (by decide))
    (by decide) 2 20 20 (by decide)) (by decide) 2 5 5 (by decide)

def circle : LockfState :=
  [posixCall 1 .setlk .wrlck 1 1, posixCall 2 .setlk .wrlck 2 2, posixCall 3 .setlk .wrlck 3 3,
    posixCall 1 .setlk .wrlck 2 2, posixCall 2 .setlk .wrlck 3 3,
    posixCall 3 .setlk .wrlck 1 1].foldl step initial

theorem three_processes_deadlock :
    PosixRun (fun n => n) (fun _ _ => True) circle ∧ ¬ Acyclic (Waits circle) := by
  have hrun {s : LockfState} (hs : PosixRun (fun n => n) (fun _ _ => True) s) (n : Nat) (b : Int) :
      PosixRun (fun n => n) (fun _ _ => True) (step s (posixCall n .setlk .wrlck b b)) :=
    hs.step _ (fun _ => nofun) ⟨rfl, rfl⟩ trivial
  refine ⟨hrun (hrun (hrun (hrun (hrun (hrun .initial 1 1) 2 2) 3 3) 1 2) 2 3) 3 1, fun hac => ?_⟩
  have h12 : Waits circle 1 2 := ⟨3, by decide, 1, by decide, by decide, by decide⟩
  have h23 : Waits circle 2 3 := ⟨4, by decide, 2, by decide, by decide, by decide⟩
  have h31 : Waits circle 3 1 := ⟨5, by decide, 0, by decide, by decide, by decide⟩
  exact hac 1 (((TransGen.single h12).tail h23).tail h31)

end Mbsd.Kern.VfsLockf
