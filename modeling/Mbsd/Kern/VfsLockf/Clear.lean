import Mbsd.Kern.VfsLockf.Reshape

namespace Mbsd.Kern.VfsLockf

open Held Lib.Tailq List Function VfsLockf.Frame LockfState

variable {s : LockfState} {lock o : LockPtr} {P Q : List LockPtr} {A T K : List LockPtr}

theorem LockfState.Blocking.not_mem_of_eq (h : s.Blocking) (hs : s.lsLocks = P ++ o :: Q) :
    o ∉ P ∧ o ∉ Q := by
  have hnodup := h.nodup_locks
  rw [hs, nodup_append, nodup_cons] at hnodup
  exact ⟨fun ho => hnodup.2.2 o ho o mem_cons_self rfl, hnodup.2.1.1⟩

theorem LockfState.Detached.ne (hd : s.Detached lock) {p : LockPtr} (hp : p ∈ s.lsLocks) :
    p ≠ lock := fun heq => hd.not_locks (heq ▸ hp)

theorem perm_insert_after (lock : LockPtr) (hs : s.lsLocks = P ++ o :: Q) :
    (P ++ o :: lock :: Q).Perm (lock :: s.lsLocks) := by
  rw [hs]
  exact ((Perm.swap lock o Q).append_left P).trans perm_middle

theorem lfAlloc_always (s : LockfState) (l : Lockf) :
    ∃ s', lfAlloc s .always l = some (s.next, s') ∧ s'.mem = update s.mem s.next l := by
  refine ⟨_, if_neg ?_, rfl⟩
  simp [AllowFail.cutoff]

/-- `o` keeps the bytes before the request, the request follows it, and a new lock `R` keeps
the bytes after the request. -/
structure Split (lock o : LockPtr) (P Q R : List LockPtr) (s s' : LockfState) : Prop where
  blocking : s'.Blocking
  frame : Frame lock s s'
  locks : s'.lsLocks = P ++ o :: lock :: (R ++ Q)
  request : s'.mem lock = s.mem lock
  before : P.map s'.held = P.map s.held
  after : Q.map s'.held = Q.map s.held
  left : [s'.held o] = (s.held lock).cutLeft (s.held o)
  right : R.map s'.held = (s.held lock).cutRight (s.held o)

section

variable (h : s.Blocking) (hd : s.Detached lock) (hs : s.lsLocks = P ++ o :: Q)
  (hid : (s.held o).id = (s.held lock).id) (hlt : (s.held o).start < (s.held lock).start)

include h hd hs hid hlt

theorem lfSplit_end (hend : (s.mem o).lfEnd = (s.mem lock).lfEnd) :
    Split lock o P Q [] s (lfWakelock (lfSplit s o lock) o false) := by
  have ho : o ∈ s.lsLocks := hs ▸ by simp
  have hop := h.not_pending o ho
  have hne := hd.ne ho
  obtain ⟨hP, hQ⟩ := h.not_mem_of_eq hs
  have hf := reshapes_end ((s.mem lock).lfStart - 1)
  have hsplit : lfWakelock (lfSplit s o lock) o false =
      (s.reshape o fun l => { l with lfEnd := (s.mem lock).lfStart - 1 }).relink
        (P ++ o :: lock :: Q) := by
    have hstart : ¬ (s.mem o).lfStart = (s.mem lock).lfStart := Int.ne_of_lt hlt
    rw [lfSplit, if_neg hstart, if_pos hend, ← lfWakelock_modify h hf]
    simp [LockfState.modify, LockfState.relink, hs, hP, lfWakelock]
  rw [hsplit]
  have hb := h.reshape hf hop
  have hperm := perm_insert_after lock hs
  refine ⟨hb.insert (hd.reshape h hne.symm) hperm,
    (Frame.reshape h hf hop hne hid).trans (Frame.insert hperm), rfl, ?_,
    by rw [LockfState.relink_held, map_reshape_held h hP],
    by rw [LockfState.relink_held, map_reshape_held h hQ], ?_, ?_⟩
  · rw [LockfState.relink_mem, reshape_mem h hne.symm hd.not_pending]
  · rw [LockfState.relink_held, reshape_held_self h hf, cutLeft_eq hlt]
    rfl
  · rw [cutRight_eq_nil, map_nil]
    simp only [EndsBy, LockfState.held, Lockf.held]
    omega

theorem lfSplit_middle (hend : (s.mem o).lfEnd ≠ (s.mem lock).lfEnd)
    (hcontains : (s.held lock).EndsBy (s.held o)) :
    Split lock o P Q [s.next] s (lfWakelock (lfSplit s o lock) o false) := by
  have ho : o ∈ s.lsLocks := hs ▸ by simp
  have hne := hd.ne ho
  obtain ⟨hP, hQ⟩ := h.not_mem_of_eq hs
  have hf := reshapes_end ((s.mem lock).lfStart - 1)
  obtain ⟨s', halloc, -⟩ := lfAlloc_always s { s.mem o with
    lfStart := (s.mem lock).lfEnd + 1, lfBlk := none, lfBlkhd := [] }
  obtain ⟨h', hd', hmem, hlocks, hpending, -⟩ := h.alloc rfl rfl halloc
  have hframe := alloc h hd.lt halloc
  have hold {p : LockPtr} (hp : p < s.next) : s'.mem p = s.mem p := by
    rw [hmem, update_of_ne (Nat.ne_of_lt hp)]
  have hlock' : s'.Detached lock := hd.alloc halloc
  have hsplit : lfWakelock (lfSplit s o lock) o false =
      (s'.reshape o fun l => { l with lfEnd := (s.mem lock).lfStart - 1 }).relink
        (P ++ o :: lock :: s.next :: Q) := by
    have hstart : ¬ (s.mem o).lfStart = (s.mem lock).lfStart := Int.ne_of_lt hlt
    have hlP : lock ∉ P ++ [o] := by
      refine fun hin => hd.not_locks ?_
      rw [hs, append_cons]
      exact mem_append_left _ hin
    have hafter := insertAfter_append (x := s.next) (Q := Q) hlP
    rw [append_assoc, append_assoc] at hafter
    rw [lfSplit, if_neg hstart, if_neg hend, halloc, ← lfWakelock_modify h' hf]
    simpa [LockfState.modify, LockfState.relink, hlocks, hs, hP, lfWakelock] using hafter
  rw [hsplit]
  have hop : o ∉ s'.lsPending := hpending ▸ h.not_pending o ho
  have hid' : (s'.held o).id = (s'.held lock).id := by
    rwa [(hframe.requests lock (.inl rfl)).1, held, hold (h.locks_lt o ho)]
  have hperm := perm_insert_after lock (hlocks.trans hs)
  have hperm' : (P ++ o :: lock :: s.next :: Q).Perm (s.next :: (P ++ o :: lock :: Q)) := by
    have hmiddle : ((P ++ [o, lock]) ++ s.next :: Q).Perm (s.next :: ((P ++ [o, lock]) ++ Q)) :=
      perm_middle
    simpa using hmiddle
  have hnext {p : LockPtr} (hp : p ∈ P ++ o :: lock :: Q) : p ∈ s'.lsLocks ∨ p = lock :=
    Or.symm (mem_cons.mp (hperm.mem_iff.mp hp))
  have hheld {L : List LockPtr} (hL : ∀ p ∈ L, p ∈ s.lsLocks) : L.map s'.held = L.map s.held :=
    map_congr_left fun p hp => by
      rw [held, hold (h.locks_lt p (hL p hp)), held]
  have hlocked := (h'.reshape hf hop).insert (hlock'.reshape h' hne.symm) hperm
  have hdnext : (s'.reshape o fun l => { l with lfEnd := (s.mem lock).lfStart - 1 }).Detached
      s.next := hd'.reshape h' fun heq => hd'.not_locks (heq ▸ hlocks ▸ ho)
  refine ⟨hlocked.insert ⟨?_, hdnext.not_pending, hdnext.lt, hdnext.blk⟩ hperm',
    (hframe.trans (reshape h' hf hop hne hid')).trans (set_locks ?_ ?_), rfl, ?_, ?_, ?_, ?_, ?_⟩
  · intro hin
    rcases hnext hin with hin | heq
    · exact hd'.not_locks hin
    · exact Nat.lt_irrefl _ (heq ▸ hd.lt)
  · intro p hp
    rcases mem_cons.mp (hperm'.mem_iff.mp hp) with rfl | hp
    · refine ⟨o, .inl (hlocks ▸ ho), ?_⟩
      rw [reshape_owner h' hf, reshape_owner h' hf, owner, owner,
        hold (h.locks_lt o ho), hmem, update_self]
    · exact ⟨p, hnext hp, rfl⟩
  · intro p hp _
    exact hperm'.mem_iff.mpr (mem_cons_of_mem _ (hperm.mem_iff.mpr (mem_cons_of_mem _ hp)))
  · rw [relink_mem, reshape_mem h' hne.symm hlock'.not_pending, hold hd.lt]
  · rw [relink_held, map_reshape_held h' hP, hheld fun p hp => ?_]
    exact hs ▸ mem_append_left _ hp
  · rw [relink_held, map_reshape_held h' hQ, hheld fun p hp => ?_]
    exact hs ▸ mem_append_right _ (mem_cons_of_mem _ hp)
  · rw [relink_held, reshape_held_self h' hf, hold (h.locks_lt o ho), cutLeft_eq hlt]
    rfl
  · have hno : s.next ≠ o := fun heq => hd'.not_locks (heq ▸ hlocks ▸ ho)
    rw [relink_held, map_singleton, reshape_held_of_ne h' hno, held, hmem, update_self, cutRight_eq]
    · rfl
    all_goals
      simp only [EndsBy, held, Lockf.held] at hcontains ⊢
      omega

theorem lfSplit_spec (hcontains : (s.held lock).EndsBy (s.held o)) :
    ∃ R, Split lock o P Q R s (lfWakelock (lfSplit s o lock) o false) := by
  by_cases hend : (s.mem o).lfEnd = (s.mem lock).lfEnd
  · exact ⟨[], lfSplit_end h hd hs hid hlt hend⟩
  · exact ⟨[s.next], lfSplit_middle h hd hs hid hlt hend hcontains⟩

end

theorem lfSplit_quiet (lock : LockPtr) (ho : o < s.next) (hblkhd : (s.mem o).lfBlkhd = []) :
    lfWakelock (lfSplit s o lock) o false = lfSplit s o lock := by
  have hquiet : ((lfSplit s o lock).mem o).lfBlkhd = [] := by
    rw [lfSplit]
    split
    · simpa using hblkhd
    · split
      · simpa using hblkhd
      · obtain ⟨s', halloc, hmem⟩ := lfAlloc_always s { s.mem o with
          lfStart := (s.mem lock).lfEnd + 1, lfBlk := none, lfBlkhd := [] }
        rw [halloc]
        simpa [hmem, update_of_ne (Nat.ne_of_lt ho)] using hblkhd
  rw [lfWakelock, hquiet]
  rfl

structure Carved (lock o : LockPtr) (A T K : List LockPtr) (s s' : LockfState) : Prop where
  blocking : s'.Blocking
  detached : s.Detached lock → s'.Detached lock
  frame : Frame lock s s'
  locks : s'.lsLocks = A ++ (K ++ T)
  before : A.map s'.held = A.map s.held
  after : T.map s'.held = T.map s.held
  parts : K.map s'.held = pieces (s.held lock) (s.held o)

theorem LockfState.Detached.wakelock (h : s.Blocking) (hd : s.Detached lock) (b : LockPtr) :
    (lfWakelock s b false).Detached lock where
  not_locks := hd.not_locks
  not_pending := hd.not_pending
  lt := hd.lt
  blk := by
    rw [h.wakelock_blk, hd.blk]
    exact ite_self _

theorem Carved.of_held {s' s'' : LockfState} (hheld : s'.held = s.held)
    (hframe : Frame lock s s') (hd : s.Detached lock → s'.Detached lock)
    (hc : Carved lock o A T K s' s'') : Carved lock o A T K s s'' := by
  refine ⟨hc.blocking, fun h => hc.detached (hd h), hframe.trans hc.frame, hc.locks, ?_, ?_, ?_⟩
  · rw [hc.before, hheld]
  · rw [hc.after, hheld]
  · rw [hc.parts, hheld]

theorem Carved.of_wakelock {s' : LockfState} (h : s.Blocking)
    (hc : Carved lock o A T K (lfWakelock s o false) s') : Carved lock o A T K s s' :=
  hc.of_held (h.wakelock_held o false) (wakelock h o false) fun hd => hd.wakelock h o

section

variable {A T : List LockPtr} (h : s.Blocking) (hs : s.lsLocks = A ++ o :: T)
  (hid : (s.held o).id = (s.held lock).id) (hov : (s.held o).Overlaps (s.held lock))

include h hs hid hov

theorem carved_reshape {f : Lockf → Lockf} (hne : o ≠ lock) (hf : Reshapes f)
    (hparts : [(f (s.mem o)).held] = (s.held lock).cut (s.held o)) :
    Carved lock o A T [o] s (s.reshape o f) := by
  have hop := h.not_pending o (hs ▸ by simp)
  obtain ⟨hA, hT⟩ := h.not_mem_of_eq hs
  refine ⟨h.reshape hf hop, fun hd => hd.reshape h hne.symm, reshape h hf hop hne hid, hs,
    map_reshape_held h hA, map_reshape_held h hT, ?_⟩
  rw [map_singleton, reshape_held_self h hf, hparts, pieces, if_pos ⟨hid, hov⟩]

theorem carved_remove (hblkhd : (s.mem o).lfBlkhd = [])
    (hstart : (s.held lock).start ≤ (s.held o).start)
    (hstop : (s.held o).EndsBy (s.held lock)) :
    Carved lock o A T [] s (lfFree (s.remove o) o) := by
  have hlocks : (s.remove o).lsLocks = A ++ T := by
    rw [LockfState.remove, hs]
    exact erase_append_cons (h.not_mem_of_eq hs).1
  refine ⟨(h.remove hblkhd).free o, fun hd => ⟨fun hin => ?_, hd.not_pending, hd.lt, hd.blk⟩,
    (remove hid).trans (free hblkhd), hlocks, rfl, rfl, ?_⟩
  · exact hd.not_locks (mem_of_mem_erase hin)
  · rw [pieces, if_pos ⟨hid, hov⟩, cut, cutLeft_eq_nil hstart, cutRight_eq_nil hstop]
    rfl

theorem carved_split (hd : s.Detached lock) (hblkhd : (s.mem o).lfBlkhd = [])
    (hlt : (s.held o).start < (s.held lock).start) (hcontains : (s.held lock).EndsBy (s.held o)) :
    ∃ K, Carved lock o A T K s ((lfSplit s o lock).remove lock) := by
  obtain ⟨R, hsplit⟩ := lfSplit_spec h hd hs hid hlt hcontains
  have hquiet := lfSplit_quiet lock (h.locks_lt o (hs ▸ by simp)) hblkhd
  rw [hquiet] at hsplit
  have hin : lock ∈ (lfSplit s o lock).lsLocks := hsplit.locks ▸ by simp
  have hlA : lock ∉ A ++ [o] := by
    refine fun hin => hd.not_locks ?_
    rw [hs, append_cons]
    exact mem_append_left _ hin
  have hlocks : ((lfSplit s o lock).remove lock).lsLocks = A ++ (o :: R ++ T) := by
    rw [LockfState.remove, hsplit.locks, append_cons, erase_append_cons hlA]
    simp
  refine ⟨o :: R, hsplit.blocking.remove ?_, fun _ => ⟨?_, ?_, ?_, ?_⟩,
    hsplit.frame.trans (remove rfl), hlocks, hsplit.before, hsplit.after, ?_⟩
  · rw [hsplit.request, h.blkhd_eq_nil hd.not_locks]
  · exact hsplit.blocking.nodup_locks.not_mem_erase
  · exact hsplit.blocking.not_pending lock hin
  · exact hsplit.blocking.locks_lt lock hin
  · exact hsplit.request ▸ hd.blk
  · rw [pieces, if_pos ⟨hid, hov⟩, cut, ← hsplit.left, ← hsplit.right]
    rfl

end

/-- The owner has given up the bytes of the request, from the part `B` of the queue on. -/
structure Cleared (lock : LockPtr) (P B : List LockPtr) (s s' : LockfState) : Prop where
  blocking : s'.Blocking
  detached : s.Detached lock → s'.Detached lock
  frame : Frame lock s s'
  helds : s'.helds = P.map s.held ++ clearHeld (s.held lock) (B.map s.held)

section

variable {M T K B : List LockPtr} {s' s'' : LockfState}

theorem Cleared.refl (h : s.Blocking) (hs : s.lsLocks = P ++ B)
    (hB : ∀ p ∈ B, (s.held p).id = (s.held lock).id → ¬ (s.held p).Overlaps (s.held lock)) :
    Cleared lock P B s s := by
  refine ⟨h, id, Frame.refl _ _, ?_⟩
  rw [LockfState.helds, hs, map_append, clearHeld_of_disjoint]
  simpa using hB

theorem Cleared.nothing (h : s.Blocking) (hs : s.lsLocks = P ++ B) (hB : B = M ++ T)
    (hM : ∀ p ∈ M, (s.held p).id = (s.held lock).id → (s.held p).Before (s.held lock))
    (hT : ∀ p ∈ T, (s.held p).id = (s.held lock).id → (s.held lock).Before (s.held p)) :
    Cleared lock P B s s := by
  refine Cleared.refl h hs fun p hp hpid hpov => ?_
  rw [hB] at hp
  rcases mem_append.mp hp with hp | hp
  · exact (hM p hp hpid).not_overlaps hpov
  · exact (hT p hp hpid).not_overlaps hpov.symm

variable (hM : ∀ p ∈ M, (s.held p).id = (s.held lock).id → (s.held p).Before (s.held lock))
  (h : Carved lock o (P ++ M) T K s s')

include hM h

theorem Carved.cleared (h' : Cleared lock (P ++ M ++ K) T s' s'') :
    Cleared lock P (M ++ o :: T) s s'' := by
  refine ⟨h'.blocking, fun hd => h'.detached (h.detached hd), h.frame.trans h'.frame, ?_⟩
  rw [h'.helds, map_append, h.before, h.parts, h.after, h.frame.held_lock, map_append,
    map_append, map_cons, clearHeld_append_cons (by simpa using hM)]
  simp only [append_assoc]

theorem Carved.cleared_last (hsorted : Sorted ((M ++ o :: T).map s.held))
    (hid : (s.held o).id = (s.held lock).id) (hstop : (s.held lock).EndsBy (s.held o)) :
    Cleared lock P (M ++ o :: T) s s' := by
  refine h.cleared hM (Cleared.refl h.blocking (by simpa using h.locks) fun p hp hpid => ?_)
  have hpeq : s'.held p = s.held p := map_inj_left.mp h.after p hp
  rw [map_append, map_cons, Sorted, pairwise_append] at hsorted
  rw [hpeq, h.frame.held_lock] at hpid ⊢
  have hb := (pairwise_cons.mp hsorted.2.1).1 _ (mem_map_of_mem hp) (hid.trans hpid.symm)
  simp only [Before, Overlaps] at *
  omega

end

theorem lfClearLoop_spec {fuel : Nat} {B : List LockPtr} (h : s.Blocking) (hd : s.Detached lock)
    (hs : s.lsLocks = P ++ B) (hsorted : Sorted (B.map s.held))
    (hvalid : AllValid (B.map s.held)) (hf : B.length < fuel) :
    Cleared lock P B s (lfClearLoop lock fuel B s) := by
  induction fuel generalizing s P B with
  | zero => cases hf
  | succ fuel ih =>
    obtain ⟨M, hB, hM, hfound⟩ := lfFindoverlap_self lock hsorted hvalid
    rw [lfClearLoop]
    rcases hfound with ⟨hnone, hbeyond⟩ | ⟨o, T, hfound, hid, hov⟩
    · have hdone := Cleared.nothing h hs hB hM hbeyond
      split
      · exact hdone
      · exact hdone
      next hfound =>
        rw [hfound] at hnone
        cases hnone
        contradiction
    rw [hfound]
    replace hB : B = M ++ o :: T := by simpa only [hfound] using hB
    subst hB
    have hs' : s.lsLocks = (P ++ M) ++ o :: T := by rw [hs, append_assoc]
    have hne : o ≠ lock := hd.ne (hs ▸ by simp)
    have hw := h.wakelock o false
    have hheld := h.wakelock_held o false
    have hwo : ((lfWakelock s o false).mem o).lfBlkhd = [] := by
      rw [h.wakelock_blkhd, if_pos rfl]
    have hlen : T.length < fuel := by
      rw [length_append, length_cons] at hf
      omega
    have hremove (hstart : (s.held lock).start ≤ (s.held o).start)
        (hstop : (s.held o).EndsBy (s.held lock)) :
        Carved lock o (P ++ M) T [] s
          (lfFree ((lfWakelock s o false).remove o) o) := by
      apply Carved.of_wakelock h
      rw [← hheld] at hid hov hstart hstop
      exact carved_remove hw hs' hid hov hwo hstart hstop
    have hnext {K : List LockPtr} {s' : LockfState} (hc : Carved lock o (P ++ M) T K s s') :
        Cleared lock P (M ++ o :: T) s (lfClearLoop lock fuel T s') := by
      rw [map_append, map_cons] at hsorted hvalid
      refine hc.cleared hM (ih hc.blocking (hc.detached hd) ?_ ?_ ?_ hlen)
      · simpa using hc.locks
      · rw [hc.after]
        exact (pairwise_cons.mp (pairwise_append.mp hsorted).2.1).2
      · rw [hc.after]
        exact fun k hk => hvalid k (mem_append_right _ (mem_cons_of_mem _ hk))
    rcases ovcase_cases hov with ⟨hcase, hstart, hstop⟩ | ⟨hcase, hneq, hstart, hstop⟩ |
      ⟨hcase, hneq, hstart, hstop⟩ | ⟨hcase, hstart, hfin, hstop⟩ | ⟨hcase, hstart, hfin, hstop⟩
    · rw [hcase]
      exact (hremove (by omega) (by omega)).cleared_last hM hsorted hid (by omega)
    · rw [hcase]
      simp only [h.wakelock_lfStart, h.wakelock_lfEnd]
      split
      next heq =>
        have heq : (s.held o).start = (s.held lock).start := heq
        refine (carved_reshape h hs' hid hov hne (reshapes_start _) ?_).cleared_last hM hsorted hid
          hstop
        rw [cut, cutLeft_eq_nil (by omega), cutRight_eq (by omega) (by omega)]
        rfl
      next hlt =>
        have hlt : (s.held o).start < (s.held lock).start := Int.lt_iff_le_and_ne.mpr ⟨hstart, hlt⟩
        have hstop' := hstop
        rw [← hheld] at hid hov hlt hstop'
        obtain ⟨K, hc⟩ := carved_split hw hs' hid hov (hd.wakelock h o) hwo hlt hstop'
        rw [hheld] at hid
        exact (Carved.of_wakelock h hc).cleared_last hM hsorted hid hstop
    · rw [hcase]
      exact hnext (hremove hstart hstop)
    · rw [hcase]
      refine hnext (carved_reshape h hs' hid hov hne (reshapes_end _) ?_)
      rw [cut, cutLeft_eq hstart, cutRight_eq_nil (by omega), h.wakelock_lfStart]
      rfl
    · rw [hcase]
      refine (carved_reshape h hs' hid hov hne (reshapes_start _) ?_).cleared_last hM hsorted hid
        (by omega)
      rw [cut, cutLeft_eq_nil (by omega), cutRight_eq hfin hstop, h.wakelock_lfEnd]
      rfl

theorem lfClearlock_spec (h : s.Blocking) (hd : s.Detached lock) (hsorted : Sorted s.helds)
    (hvalid : AllValid s.helds) : Cleared lock [] s.lsLocks s (lfClearlock s lock) :=
  lfClearLoop_spec h hd rfl hsorted hvalid (Nat.lt_succ_self _)

end Mbsd.Kern.VfsLockf
