import Mbsd.Kern.VfsLockf.Invariant

/-! Runs of the lock manager for one file: calls of any processes, and wakeups of sleeping requests
in any order. -/

namespace Mbsd.Kern.VfsLockf

open Held Sys List LockfState

variable {fl : Flock} {H : List Held} {start stop : Int}

inductive Call
  | advlock (size : Int) (c : Caller) (op : LockOp) (fl : Flock)
  | resume (lock : LockPtr) (error : Option Errno)
  | purgeStart
  | purgeFinish
  | otherFiles (uiLockcnt : Nat → Int)

/-- A lock is never set with type `F_UNLCK`, and only a pending request wakes up. -/
def Call.Enabled (s : LockfState) : Call → Prop
  | .advlock _ _ op fl => op = .setlk → fl.lType ≠ .unlck
  | .resume lock _ => lock ∈ s.lsPending
  | .purgeStart => True
  | .purgeFinish => s.lsPending = []
  | .otherFiles _ => True

instance (s : LockfState) (call : Call) : Decidable (call.Enabled s) :=
  match call with
  | .advlock _ _ op fl => inferInstanceAs (Decidable (op = .setlk → fl.lType ≠ .unlck))
  | .resume lock _ => inferInstanceAs (Decidable (lock ∈ s.lsPending))
  | .purgeStart => .isTrue trivial
  | .purgeFinish => inferInstanceAs (Decidable (s.lsPending = []))
  | .otherFiles _ => .isTrue trivial

def step (s : LockfState) : Call → LockfState
  | .advlock size c op fl => (lfAdvlock s size c op fl).1
  | .resume lock error => (lfResume s lock error).1
  | .purgeStart => lfPurgeStart s
  | .purgeFinish => lfPurgeFinish s
  | .otherFiles uiLockcnt => { s with uiLockcnt := uiLockcnt }

def unusedLock : Lockf where
  lfFlags := ⟨false, false, false, false⟩
  lfType := .unlck
  lfStart := 0
  lfEnd := 0
  lfId := 0
  lfBlk := none
  lfBlkhd := []
  lfUid := 0
  lfPid := 0

def initial : LockfState where
  mem := fun _ => unusedLock
  lsLocks := []
  lsPending := []
  next := 0
  uiLockcnt := fun _ => 0
  panicked := false

inductive Reachable : LockfState → Prop
  | initial : Reachable initial
  | step {s : LockfState} (hs : Reachable s) (call : Call) (h : call.Enabled s) :
    Reachable (step s call)

variable {s : LockfState}

theorem lfAdvlock_cases (s : LockfState) (size : Int) (c : Caller) (op : LockOp) (fl : Flock) :
    ((lfAdvlock s size c op fl).1 = s ∧ ((∃ e, (lfAdvlock s size c op fl).2.1 = .done (some e)) ∨
        s.lsLocks = [] ∧ op ≠ .setlk ∧ (lfAdvlock s size c op fl).2.1 = .done none)) ∨
    ∃ start stop allowfail lock s', lfRange size fl = .ok (start, stop) ∧
      lfAlloc s allowfail (c.request fl start stop) = some (lock, s') ∧
      ((op = .setlk ∧ ((lfAdvlock s size c op fl).1, (lfAdvlock s size c op fl).2.1) =
          lfSetlock s' lock) ∨
        (op = .unlck ∧ (lfAdvlock s size c op fl).1 = lfFree (lfClearlock s' lock) lock) ∨
        op = .getlk ∧ (lfAdvlock s size c op fl).1 = lfFree s' lock) := by
  rw [lfAdvlock]
  cases hrange : lfRange size fl with
  | error e => exact .inl ⟨rfl, .inl ⟨e, rfl⟩⟩
  | ok r =>
    obtain ⟨start, stop⟩ := r
    dsimp only
    split
    next hnone => exact .inl ⟨rfl, .inr ⟨hnone.1, hnone.2.2, rfl⟩⟩
    next hsome =>
      cases halloc : lfAlloc s (if op = .setlk then .atLimit else .atDoubleLimit)
        (c.request fl start stop) with
      | none => exact .inl ⟨rfl, .inl ⟨_, rfl⟩⟩
      | some r =>
        refine .inr ⟨start, stop, _, r.1, r.2, rfl, halloc, ?_⟩
        cases op with
        | setlk => exact .inl ⟨rfl, rfl⟩
        | unlck => exact .inr (.inl ⟨rfl, rfl⟩)
        | getlk => exact .inr (.inr ⟨rfl, rfl⟩)

section

variable (hi : s.Inv)

include hi

theorem LockfState.Inv.set_uiLockcnt (uiLockcnt : Nat → Int) :
    Inv { s with uiLockcnt := uiLockcnt } where
  blocking := ⟨hi.blocking.nodup_locks, hi.blocking.nodup_pending, hi.blocking.not_pending,
    hi.blocking.locks_lt, hi.blocking.pending_lt, hi.blocking.nodup_blkhd, hi.blocking.blocked,
    hi.blocking.waiting⟩
  valid := hi.valid
  sorted := hi.sorted
  exclusive := hi.exclusive
  requests := hi.requests
  sound := hi.sound

theorem LockfState.Inv.wakelock (lock : LockPtr) (intr : Bool) : (lfWakelock s lock intr).Inv := by
  have hhelds : (lfWakelock s lock intr).helds = s.helds :=
    congrArg (fun held => s.lsLocks.map held) (hi.blocking.wakelock_held lock intr)
  exact hi.of_frame (hi.blocking.wakelock lock intr) (Frame.wakelock hi.blocking lock intr :
    Frame lock s _) (hhelds ▸ hi.valid) (hhelds ▸ hi.sorted) (hhelds ▸ hi.exclusive)

theorem LockfState.Inv.purgeStart : (lfPurgeStart s).Inv := by
  rw [lfPurgeStart]
  generalize s.lsLocks = L
  induction L generalizing s with
  | nil => exact hi
  | cons p L ih => exact ih (hi.wakelock p true)

theorem LockfState.Inv.remove_free (hnone : s.lsPending = []) (lock : LockPtr) :
    (lfFree (s.remove lock) lock).Inv := by
  have hblkhd : (s.mem lock).lfBlkhd = [] := by
    refine eq_nil_iff_forall_not_mem.mpr fun q hq => ?_
    have hpending := (hi.blocking.waiting lock q hq).1
    rw [hnone] at hpending
    cases hpending
  have hsub : (s.remove lock).helds.Sublist s.helds := erase_sublist.map _
  have hmem : (s.remove lock).helds ⊆ s.helds := hsub.subset
  refine ⟨(hi.blocking.remove hblkhd).free lock, fun h hh => hi.valid h (hmem hh),
    Pairwise.sublist hsub hi.sorted,
    fun h hh k hk => hi.exclusive h (hmem hh) k (hmem hk), hi.requests, ?_⟩
  simp [lfFree, remove, hblkhd, hi.sound]

theorem LockfState.Inv.purgeFinish (hnone : s.lsPending = []) : (lfPurgeFinish s).Inv := by
  rw [lfPurgeFinish]
  generalize s.lsLocks = L
  induction L generalizing s with
  | nil => exact hi
  | cons p L ih => exact ih (hi.remove_free hnone p) hnone

theorem LockfState.Inv.advlock (size : Int) (c : Caller) {op : LockOp}
    (htype : op = .setlk → fl.lType ≠ .unlck) : (lfAdvlock s size c op fl).1.Inv := by
  rcases lfAdvlock_cases s size c op fl with
    ⟨hsame, -⟩ | ⟨start, stop, allowfail, lock, s', hrange, halloc, hop⟩
  · rwa [hsame]
  obtain ⟨hi', hd, -, hheld⟩ := hi.alloc rfl rfl halloc
  have hvalid : (s'.held lock).Valid := hheld ▸ lfRange_valid hrange
  rcases hop with ⟨rfl, heq⟩ | ⟨rfl, heq⟩ | ⟨rfl, heq⟩
  · have hr : s'.Request lock := ⟨hd, hvalid, hheld ▸ htype rfl⟩
    exact hi'.passed hr (heq ▸ lfSetlock_passed hi' hr)
  · have hc := hi'.clearlock hd
    rw [heq]
    exact (hi'.cleared hvalid hc).free (hc.detached hd)
  · rw [heq]
    exact hi'.free hd

theorem LockfState.Inv.step {call : Call} (h : call.Enabled s) : (step s call).Inv := by
  cases call with
  | advlock size c op fl => exact hi.advlock size c h
  | resume lock error => exact (hi.unblock h).1.passed (hi.unblock h).2 (lfResume_passed hi h error)
  | purgeStart => exact hi.purgeStart
  | purgeFinish => exact hi.purgeFinish h
  | otherFiles uiLockcnt => exact hi.set_uiLockcnt uiLockcnt

end

theorem Reachable.inv (hs : Reachable s) : s.Inv := by
  induction hs with
  | initial =>
    refine ⟨⟨nodup_nil, nodup_nil, nofun, nofun, nofun, fun _ => nodup_nil, nofun,
      nofun⟩, nofun, Pairwise.nil, nofun, nofun, rfl⟩
  | step _ call h ih => exact ih.step h

/-- No byte is covered by an exclusive lock of one owner and any lock of another. -/
theorem locks_exclusive (hs : Reachable s) {p q : LockPtr} (hp : p ∈ s.lsLocks)
    (hq : q ∈ s.lsLocks) (hid : (s.mem p).lfId ≠ (s.mem q).lfId) (hw : (s.mem p).lfType = .wrlck)
    (b : Int) : ¬ ((s.held p).Covers b ∧ (s.held q).Covers b) := by
  rintro ⟨hpb, hqb⟩
  exact hs.inv.exclusive _ (mem_map_of_mem hp) _ (mem_map_of_mem hq) hid
    (overlaps_of_covers hpb hqb) (.inl hw)

/-- A pending request is awake, or it waits in the queue of an active lock of another owner that it
conflicts with; and no lock has been freed while somebody waited for it. -/
theorem pending_blocked (hs : Reachable s) :
    (∀ p ∈ s.lsPending, (s.mem p).lfBlk = none ∨ ∃ b ∈ s.lsLocks, (s.mem p).lfBlk = some b ∧
      (s.mem b).lfId ≠ (s.mem p).lfId ∧ (s.held b).Overlaps (s.held p) ∧
      ((s.mem b).lfType = .wrlck ∨ (s.mem p).lfType = .wrlck) ∧ p ∈ (s.mem b).lfBlkhd) ∧
    s.panicked = false := by
  refine ⟨fun p hp => ?_, hs.inv.sound⟩
  cases hblk : (s.mem p).lfBlk with
  | none => exact .inl rfl
  | some b =>
    obtain ⟨hin, ⟨hid, hov, hc⟩, hwait⟩ := hs.inv.blocking.blocked p hp b hblk
    exact .inr ⟨b, hin, rfl, hid, hov, hc, hwait⟩

def posixCall (n : Nat) (op : LockOp) (type : LfType) (start stop : Int) : Call :=
  .advlock 0 ⟨n, n, n, true, true⟩ op ⟨start, stop - start + 1, type, 0, 0⟩

/-- Process 1 holds bytes 0 to 9 alone and shares byte 20 with process 2, which waits for byte 5. -/
def contended : LockfState :=
  step (step (step (step initial (posixCall 1 .setlk .wrlck 0 9)) (posixCall 1 .setlk .rdlck 20 20))
    (posixCall 2 .setlk .rdlck 20 20)) (posixCall 2 .setlk .wrlck 5 5)

theorem reachable_contended : Reachable contended :=
  (((Reachable.initial.step (posixCall 1 .setlk .wrlck 0 9) (by decide)).step
    (posixCall 1 .setlk .rdlck 20 20) (by decide)).step
    (posixCall 2 .setlk .rdlck 20 20) (by decide)).step (posixCall 2 .setlk .wrlck 5 5) (by decide)

theorem locks_exclusive_contended : contended.lsLocks = [0, 1, 2] ∧
      ¬ ((contended.held 0).Covers 5 ∧ (contended.held 2).Covers 5) :=
  ⟨by decide, locks_exclusive reachable_contended (by decide) (by decide) (by decide) (by decide) 5⟩

theorem pending_blocked_contended :
    contended.lsPending = [3] ∧ (contended.mem 3).lfBlk = some 0 ∧ contended.panicked = false :=
  ⟨by decide, by decide, (pending_blocked reachable_contended).2⟩

/-! The queue of active locks as a map from owners and bytes to the type of lock. -/

def OwnersOrdered (H : List Held) : Prop :=
  H.Pairwise fun h k => h.id = k.id → h.start < k.start ∧ ∀ b, ¬ (h.Covers b ∧ k.Covers b)

theorem Sorted.ownersOrdered (hs : Sorted H) (hv : AllValid H) :
    OwnersOrdered H := by
  refine hs.imp_of_mem fun {h k} hh _ hb hid => ⟨?_, fun b hcov => ?_⟩
  · have hbefore := hb hid
    have hvalid := hv h hh
    simp only [Before, Valid] at *
    omega
  · exact (hb hid).not_overlaps (overlaps_of_covers hcov.1 hcov.2)

theorem typeAt_of_mem (hs : Sorted H) {h : Held} (hh : h ∈ H) {b : Int}
    (hb : h.Covers b) : typeAt H h.id b = some h.type := by
  induction H with
  | nil => cases hh
  | cons k H ih =>
    rw [Sorted, pairwise_cons] at hs
    rw [typeAt_cons]
    rcases mem_cons.mp hh with rfl | hh
    · rw [if_pos ⟨rfl, hb⟩]
    · rw [if_neg, ih hs.2 hh]
      rintro ⟨hid, hkb⟩
      exact (hs.1 h hh hid).not_overlaps (overlaps_of_covers hkb hb)

def Updated (l : Held) (t : Option LfType) (s s' : LockfState) : Prop :=
  ∀ id b, typeAt s'.helds id b = if id = l.id ∧ l.Covers b then t else typeAt s.helds id b

def SetEffect (l : Held) (s s' : LockfState) : SetResult → Prop
  | .done none => Updated l (some l.type) s s'
  | .done (some _) => s'.helds = s.helds
  | .sleeping => ∀ id b, ¬ (id = l.id ∧ l.Covers b) → typeAt s'.helds id b = typeAt s.helds id b

section

variable {s s' : LockfState} {lock : LockPtr}

theorem Cleared.updated (hi : s.Inv) (hl : (s.held lock).Valid)
    (hc : Cleared lock [] s.lsLocks s s') : Updated (s.held lock) none s s' := by
  intro id b
  rw [hc.helds]
  exact typeAt_clearHeld hl hi.valid id b

theorem Granted.updated (hi : s.Inv) (hl : (s.held lock).Valid) (hg : Granted lock s s') :
    Updated (s.held lock) (some (s.held lock).type) s s' := by
  intro id b
  rcases hg.helds with hins | ⟨hsame, h, hh, hpart⟩
  · rw [hins.typeAt, typeAt_clearHeld hl hi.valid]
    split <;> rfl
  · rw [hsame]
    split
    next hcov => rw [hcov.1, hpart.id, hpart.type, typeAt_of_mem hi.sorted hh (hpart.covers hcov.2)]
    · rfl

theorem Passed.setEffect (hi : s.Inv) (hr : s.Request lock) {r : LockfState × SetResult}
    (hp : Passed s lock r) : SetEffect (s.held lock) s r.1 r.2 := by
  cases hp with
  | refused e => rfl
  | granted s' _ hg => exact hg.updated hi hr.valid
  | slept s' M T block hs _ _ _ _ hg =>
    intro id b hnot
    have hne : lock ≠ block := fun h => hr.detached.not_locks (h ▸ hs ▸ by simp)
    have hhelds : (lfSleep s' lock block).helds = s'.helds :=
      congrArg (fun held => s'.lsLocks.map held) (lfSleep_held s' hne)
    rw [hhelds]
    rcases hg.helds with hsame | hclear
    · rw [hsame]
    · rw [hclear, typeAt_clearHeld hr.valid hi.valid, if_neg hnot]

theorem SetEffect.of_helds {t : LockfState} (heq : t.helds = s.helds) {l : Held} {r : SetResult}
    (h : SetEffect l t s' r) : SetEffect l s s' r := by
  match r, h with
  | .done none, h => exact fun id b => by rw [h id b, heq]
  | .done (some _), h => exact h.trans heq
  | .sleeping, h => exact fun id b hnot => by rw [h id b hnot, heq]

theorem LockfState.Inv.ownersOrdered (hi : s.Inv) : OwnersOrdered s.helds :=
  hi.sorted.ownersOrdered hi.valid

end

variable {s : LockfState}

theorem lfAdvlock_setEffect (hi : s.Inv) (size : Int) (c : Caller)
    (htype : fl.lType ≠ .unlck) (hrange : lfRange size fl = .ok (start, stop)) :
    SetEffect ⟨c.id, fl.lType, start, stop⟩ s (lfAdvlock s size c .setlk fl).1
      (lfAdvlock s size c .setlk fl).2.1 := by
  rcases lfAdvlock_cases s size c .setlk fl with
    ⟨hsame, ⟨e, he⟩ | ⟨-, hop, -⟩⟩ | ⟨start', stop', allowfail, lock, s', hrange', halloc, hop⟩
  · rw [hsame, he]
    rfl
  · exact absurd rfl hop
  rw [hrange] at hrange'
  cases hrange'
  obtain ⟨hi', hd, hhelds, hheld⟩ := hi.alloc rfl rfl halloc
  rcases hop with ⟨-, heq⟩ | ⟨hop, -⟩ | ⟨hop, -⟩
  · have hr : s'.Request lock := ⟨hd, hheld ▸ lfRange_valid hrange, hheld ▸ htype⟩
    have heff := (lfSetlock_passed hi' hr).setEffect hi' hr
    rw [← heq, hheld] at heff
    exact heff.of_helds hhelds
  · cases hop
  · cases hop

theorem lfResume_setEffect (hi : s.Inv) {lock : LockPtr} (hp : lock ∈ s.lsPending)
    (error : Option Errno) :
    SetEffect (s.held lock) s (lfResume s lock error).1 (lfResume s lock error).2 := by
  obtain ⟨hi', hr⟩ := hi.unblock hp
  have hheld := (hi.blocking.unblock hp).2.2
  have heff := (lfResume_passed hi hp error).setEffect hi' hr
  rw [hheld] at heff
  refine heff.of_helds ?_
  rw [helds, hheld, lfUnblock_lsLocks, helds]

theorem lfAdvlock_updated (hi : s.Inv) (size : Int) (c : Caller)
    (hrange : lfRange size fl = .ok (start, stop))
    (hdone : (lfAdvlock s size c .unlck fl).2.1 = .done none) :
    Updated ⟨c.id, fl.lType, start, stop⟩ none s (lfAdvlock s size c .unlck fl).1 := by
  rcases lfAdvlock_cases s size c .unlck fl with
    ⟨hsame, ⟨e, he⟩ | ⟨hnone, -, -⟩⟩ | ⟨start', stop', allowfail, lock, s', hrange', halloc, hop⟩
  · rw [he] at hdone
    cases hdone
  · intro id b
    rw [hsame, helds, hnone, map_nil, typeAt_nil, ite_self]
  rw [hrange] at hrange'
  cases hrange'
  obtain ⟨hi', hd, hhelds, hheld⟩ := hi.alloc rfl rfl halloc
  rcases hop with ⟨hop, -⟩ | ⟨-, heq⟩ | ⟨hop, -⟩
  · cases hop
  · have hvalid : (s'.held lock).Valid := hheld ▸ lfRange_valid hrange
    have hup := (hi'.clearlock hd).updated hi' hvalid
    rw [heq]
    intro id b
    have hub := hup id b
    rw [hhelds, hheld] at hub
    exact hub
  · cases hop

/-- Setting a lock, at once or after a sleep, and clearing one change the map for the owner at the
requested bytes and nowhere else. -/
theorem lockf_refines_byteMap (hs : Reachable s) :
    (∀ size c fl start stop, fl.lType ≠ .unlck → lfRange size fl = .ok (start, stop) →
      SetEffect ⟨c.id, fl.lType, start, stop⟩ s (lfAdvlock s size c .setlk fl).1
        (lfAdvlock s size c .setlk fl).2.1 ∧ OwnersOrdered (lfAdvlock s size c .setlk fl).1.helds) ∧
    (∀ lock ∈ s.lsPending, ∀ error,
      SetEffect (s.held lock) s (lfResume s lock error).1 (lfResume s lock error).2 ∧
      OwnersOrdered (lfResume s lock error).1.helds) ∧
    ∀ size c fl start stop, lfRange size fl = .ok (start, stop) →
      (lfAdvlock s size c .unlck fl).2.1 = .done none →
      Updated ⟨c.id, fl.lType, start, stop⟩ none s (lfAdvlock s size c .unlck fl).1 ∧
      OwnersOrdered (lfAdvlock s size c .unlck fl).1.helds := by
  have hi := hs.inv
  have hordered (call : Call) (h : call.Enabled s) : OwnersOrdered (step s call).helds :=
    (hi.step h).ownersOrdered
  refine ⟨fun size c fl start stop htype hrange => ⟨?_, ?_⟩, fun lock hp error => ⟨?_, ?_⟩,
    fun size c fl start stop hrange hdone => ⟨?_, ?_⟩⟩
  · exact lfAdvlock_setEffect hi size c htype hrange
  · exact hordered (.advlock size c .setlk fl) fun _ => htype
  · exact lfResume_setEffect hi hp error
  · exact hordered (.resume lock error) hp
  · exact lfAdvlock_updated hi size c hrange hdone
  · exact hordered (.advlock size c .unlck fl) nofun

def downgraded : LockfState × SetResult × Flock :=
  lfAdvlock contended 0 ⟨1, 1, 1, true, true⟩ .setlk ⟨3, 4, .rdlck, 0, 0⟩

theorem lockf_refines_byteMap_downgraded :
    downgraded.2.1 = .done none ∧ SetEffect ⟨1, .rdlck, 3, 6⟩ contended downgraded.1 downgraded.2.1 ∧
      OwnersOrdered downgraded.1.helds :=
  ⟨by decide, (lockf_refines_byteMap reachable_contended).1 0 ⟨1, 1, 1, true, true⟩
    ⟨3, 4, .rdlck, 0, 0⟩ 3 6 (by decide) (by decide)⟩

end Mbsd.Kern.VfsLockf
