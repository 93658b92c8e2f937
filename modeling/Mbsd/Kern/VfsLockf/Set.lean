import Mbsd.Kern.VfsLockf.Clear

namespace Mbsd.Kern.VfsLockf

open Held Lib.Tailq List VfsLockf.Frame LockfState

variable {s : LockfState} {lock o : LockPtr} {Q B : List LockPtr} {fuel : Nat}

theorem lfAbsorb_lsLocks : (lfAbsorb s lock o).lsLocks = s.lsLocks := by
  rw [lfAbsorb]
  split <;> rfl

theorem lfAbsorb_relink (L : List LockPtr) :
    lfAbsorb (s.relink L) lock o = (lfAbsorb s lock o).relink L := by
  rw [lfAbsorb, lfAbsorb, relink_mem]
  split <;> rfl

section Absorb

variable (h : s.Blocking) (hlock : lock ∈ s.lsLocks) (hne : o ≠ lock)

include h hlock hne

theorem lfAbsorb_held : (lfAbsorb s lock o).held = s.held := by
  rw [lfAbsorb]
  split
  · exact h.wakelock_held o false
  · exact h.takeWaiters_held hne.symm (h.not_pending lock hlock)

theorem lfAbsorb_blkhd : ((lfAbsorb s lock o).mem o).lfBlkhd = [] := by
  rw [lfAbsorb]
  split
  · rw [h.wakelock_blkhd, if_pos rfl]
  · rw [h.takeWaiters_blkhd hne.symm (h.not_pending lock hlock), if_pos rfl]

theorem Frame.absorb (ho : o ∈ s.lsLocks) (hid : (s.held o).id = (s.held lock).id) :
    Frame lock s (lfAbsorb s lock o) := by
  rw [lfAbsorb]
  split
  · exact wakelock h o false
  · exact takeWaiters h hne.symm (h.not_pending lock hlock) (h.not_pending o ho) hid

theorem LockfState.Blocking.absorb (ho : o ∈ s.lsLocks)
    (hid : (s.held o).id = (s.held lock).id) (htype : (s.mem lock).lfType ≠ .unlck)
    (hstart : (s.held lock).start ≤ (s.held o).start)
    (hstop : (s.held o).EndsBy (s.held lock)) :
    (lfAbsorb s lock o).Blocking := by
  rw [lfAbsorb]
  split
  · exact h.wakelock o false
  next hnot =>
    refine h.takeWaiters hne.symm (h.not_pending lock hlock) hlock (h.not_pending o ho)
      fun q hq => ?_
    obtain ⟨hqid, hqov, hqc⟩ := h.blocks_of_mem_blkhd hq
    refine ⟨hid ▸ hqid, ?_, ?_⟩
    · simp only [Overlaps] at hqov ⊢
      omega
    · exact hqc.replace htype hnot

end Absorb

theorem lfSetLoop_linked (h : s.Blocking) (hs : s.lsLocks = Q ++ B)
    (hlock : lock ∈ Q) (htype : (s.held lock).type ≠ .unlck) (hsorted : Sorted (B.map s.held))
    (hvalid : AllValid (B.map s.held)) (hlater : ∀ p ∈ B, (s.held p).id = (s.held lock).id →
      (s.held lock).start < (s.held p).start ∨ ovcase (s.held p) (s.held lock) = .contained)
    (hf : B.length < fuel) : Cleared lock Q B s (lfSetLoop lock fuel B false s) := by
  induction fuel generalizing s Q B with
  | zero => cases hf
  | succ fuel ih =>
    obtain ⟨M, hB, hM, hfound⟩ := lfFindoverlap_self lock hsorted hvalid
    rw [lfSetLoop]
    rcases hfound with ⟨hnone, hbeyond⟩ | ⟨o, T, hfound, hid, hov⟩
    · have hdone := Cleared.nothing h hs hB hM hbeyond
      split
      · exact hdone
      · exact hdone
      · exact hdone
      next hfound =>
        rw [hfound] at hnone
        cases hnone
        contradiction
    rw [hfound]
    replace hB : B = M ++ o :: T := by simpa only [hfound] using hB
    subst hB
    have hs' : s.lsLocks = (Q ++ M) ++ o :: T := by rw [hs, append_assoc]
    have hin : lock ∈ s.lsLocks := hs ▸ mem_append_left _ hlock
    have ho : o ∈ s.lsLocks := hs ▸ by simp
    have hne : o ≠ lock := by
      rintro rfl
      exact (h.not_mem_of_eq hs').1 (mem_append_left _ hlock)
    have hlt : (s.held lock).start < (s.held o).start ∨
        ovcase (s.held o) (s.held lock) = .contained := hlater o (by simp) hid
    rcases ovcase_cases hov with ⟨hcase, hstart, -⟩ | ⟨hcase, -, hstart, -⟩ |
      ⟨hcase, -, hstart, hstop⟩ | ⟨hcase, hstart, -, -⟩ | ⟨hcase, hstart, hfin, hstop⟩
    · rw [hcase] at hlt
      exact hlt.elim (fun hlt => by omega) nofun
    · rw [hcase] at hlt
      exact hlt.elim (fun hlt => by omega) nofun
    · rw [hcase]
      have hheld := lfAbsorb_held h hin hne
      have hc : Carved lock o (Q ++ M) T [] s (lfFree ((lfAbsorb s lock o).remove o) o) := by
        have hb := h.absorb hin hne ho hid htype hstart hstop
        refine Carved.of_held hheld (absorb h hin hne ho hid)
          (fun hd => absurd hin hd.not_locks) ?_
        have hblkhd := lfAbsorb_blkhd h hin hne
        rw [← hheld] at hid hov hstart hstop
        exact carved_remove hb (lfAbsorb_lsLocks.trans hs') hid hov hblkhd hstart hstop
      have hafter := map_inj_left.mp hc.after
      rw [map_append, map_cons] at hsorted hvalid
      refine hc.cleared hM (ih hc.blocking (by simpa using hc.locks) ?_ ?_ ?_ ?_ ?_ ?_)
      · exact mem_append_left _ (mem_append_left _ hlock)
      · rwa [hc.frame.held_lock]
      · rw [hc.after]
        exact (pairwise_cons.mp (pairwise_append.mp hsorted).2.1).2
      · rw [hc.after]
        exact fun k hk => hvalid k (mem_append_right _ (mem_cons_of_mem _ hk))
      · intro p hp
        rw [hafter p hp, hc.frame.held_lock]
        exact hlater p (mem_append_right _ (mem_cons_of_mem _ hp))
      · rw [length_append, length_cons] at hf
        omega
    · rw [hcase] at hlt
      exact hlt.elim (fun hlt => by omega) nofun
    · rw [hcase]
      have hc := carved_reshape h hs' hid hov hne (reshapes_start ((s.mem lock).lfEnd + 1)) (by
        rw [cut, cutLeft_eq_nil (by omega), cutRight_eq hfin hstop]
        rfl)
      rw [← lfWakelock_modify h (reshapes_start _)] at hc
      exact hc.cleared_last hM hsorted hid (by omega)

/-- The request is granted: it takes the place of what the owner held of its bytes, or the
owner held all of them in the same way already. -/
structure Granted (lock : LockPtr) (s s' : LockfState) : Prop where
  blocking : s'.Blocking
  frame : Frame lock s s'
  helds : Inserted (s.held lock) (clearHeld (s.held lock) s.helds) s'.helds ∨
    (s'.helds = s.helds ∧ ∃ h ∈ s.helds, PartOf (s.held lock) h)

theorem sorted_valid_after {M : List LockPtr} (hs : s.lsLocks = M ++ B) (hsorted : Sorted s.helds)
    (hvalid : AllValid s.helds) : Sorted (B.map s.held) ∧ AllValid (B.map s.held) := by
  rw [helds, hs, map_append] at hsorted hvalid
  exact ⟨(pairwise_append.mp hsorted).2.1, fun k hk => hvalid k (mem_append_right _ hk)⟩

section Cases

variable {M N T : List LockPtr} (h : s.Blocking) (hd : s.Detached lock) (hl : (s.held lock).Valid)
  (htype : (s.held lock).type ≠ .unlck)
  (hM : ∀ p ∈ M, (s.held p).id = (s.held lock).id → (s.held p).Before (s.held lock))

include h hM in
theorem granted_insert (hd : s.Detached lock) (hs : s.lsLocks = M ++ N)
    (hN : ∀ p ∈ N, (s.held p).id = (s.held lock).id → (s.held lock).Before (s.held p)) :
    Granted lock s (s.relink (M ++ lock :: N)) := by
  have hperm : (M ++ lock :: N).Perm (lock :: s.lsLocks) := hs ▸ perm_middle
  refine ⟨h.insert hd hperm, insert hperm, .inl ⟨M.map s.held, N.map s.held, ?_, ?_, ?_, ?_⟩⟩
  · have hcl := (Cleared.nothing (P := []) h rfl hs hM hN).helds
    rw [map_nil, nil_append] at hcl
    rw [← helds] at hcl
    rw [← hcl, helds, hs, map_append]
  · rw [helds, relink_lsLocks, relink_held, map_append, map_cons]
  · simpa using hM
  · simpa using hN

variable (hs : s.lsLocks = M ++ o :: T) (hid : (s.held o).id = (s.held lock).id)
  (hov : (s.held o).Overlaps (s.held lock)) (hsorted : Sorted s.helds)

include hs hid hov hsorted

theorem start_le_of_mem {p : LockPtr} (hp : p ∈ T) (hpid : (s.held p).id = (s.held lock).id) :
    (s.held lock).start < (s.held p).start := by
  rw [helds, hs, map_append, map_cons, Sorted, pairwise_append] at hsorted
  have hb := (pairwise_cons.mp hsorted.2.1).1 _ (mem_map_of_mem hp) (hid.trans hpid.symm)
  simp only [Before, Overlaps] at *
  omega

include hM hl in
theorem granted_of_helds {s' : LockfState} (hvalid : AllValid s.helds) (hb : s'.Blocking)
    (hframe : Frame lock s s')
    (hhelds : s'.helds = M.map s.held ++ ((s.held lock).cutLeft (s.held o) ++ s.held lock ::
      ((s.held lock).cutRight (s.held o) ++ clearHeld (s.held lock) (T.map s.held)))) :
    Granted lock s s' := by
  have hM' : ∀ k ∈ M.map s.held, k.id = (s.held lock).id → k.Before (s.held lock) := by
    simpa using hM
  have hvalid' := hvalid
  rw [helds, hs, map_append, map_cons] at hvalid'
  have hvo : (s.held o).Valid := hvalid' _ (by simp)
  have hT : AllValid (T.map s.held) := fun k hk =>
    hvalid' k (mem_append_right _ (mem_cons_of_mem _ hk))
  refine ⟨hb, hframe, .inl ⟨M.map s.held ++ (s.held lock).cutLeft (s.held o),
    (s.held lock).cutRight (s.held o) ++ clearHeld (s.held lock) (T.map s.held), ?_, ?_, ?_, ?_⟩⟩
  · rw [helds, hs, map_append, map_cons, clearHeld_append_cons hM', pieces, if_pos ⟨hid, hov⟩, cut]
    simp only [append_assoc]
  · rw [hhelds, append_assoc]
  · intro k hk hkid
    rcases mem_append.mp hk with hk | hk
    · exact hM' k hk hkid
    · exact before_of_mem_cutLeft hvo hk
  · intro k hk hkid
    rcases mem_append.mp hk with hk | hk
    · exact before_of_mem_cutRight hk
    · refine before_of_mem_clearHeld hl hT (fun h' hh' hid' => ?_) hk hkid
      obtain ⟨p, hp, rfl⟩ := mem_map.mp hh'
      exact Int.le_of_lt (start_le_of_mem hs hid hov hsorted hp hid')

omit hov in
theorem clearHeld_beyond (hstop : (s.held lock).EndsBy (s.held o)) :
    clearHeld (s.held lock) (T.map s.held) = T.map s.held := by
  rw [helds, hs, map_append, map_cons, Sorted, pairwise_append] at hsorted
  refine clearHeld_of_disjoint fun k hk hkid => ?_
  have hb := (pairwise_cons.mp hsorted.2.1).1 k hk (hid.trans hkid.symm)
  simp only [Before, Overlaps] at *
  omega

include h hd

omit hov hsorted in
theorem granted_contains_same (htype : (s.held o).type = (s.held lock).type)
    (hstart : (s.held o).start ≤ (s.held lock).start) (hstop : (s.held lock).EndsBy (s.held o)) :
    Granted lock s (lfFree s lock) := by
  refine ⟨h.free lock, free (h.blkhd_eq_nil hd.not_locks), .inr ⟨rfl, s.held o, ?_, ?_⟩⟩
  · rw [helds, hs]
    simp
  · exact ⟨hid.symm, htype.symm, hstart, hstop⟩

variable (hvalid : AllValid s.helds)

include hM hl hvalid

theorem granted_equal (htype : (s.held lock).type ≠ .unlck)
    (hstart : (s.held o).start = (s.held lock).start)
    (hstop : (s.held o).stop = (s.held lock).stop) : Granted lock s (lfFree (modify
      (if (s.mem lock).lfType = .rdlck ∧ (s.mem o).lfType = .wrlck then lfWakelock s o false else s)
      o fun l => { l with lfType := (s.mem lock).lfType }) lock) := by
  have ho : o ∈ s.lsLocks := hs ▸ by simp
  have hop := h.not_pending o ho
  have hne := hd.ne ho
  have hf := reshapes_type (s.mem lock).lfType
  obtain ⟨hM', hT⟩ := h.not_mem_of_eq hs
  have hgrant {s' : LockfState} (hb : s'.Blocking) (hframe : Frame lock s s')
      (hlocks : s'.lsLocks = s.lsLocks) (hother : ∀ p, p ≠ o → s'.held p = s.held p)
      (hself : s'.held o =
        ⟨(s.held o).id, (s.held lock).type, (s.held o).start, (s.held o).stop⟩) :
      Granted lock s (lfFree s' lock) := by
    have hlock : (s'.mem lock).lfBlkhd = [] := hb.blkhd_eq_nil (hlocks ▸ hd.not_locks)
    refine granted_of_helds hl hM hs hid hov hsorted hvalid (hb.free lock)
      (hframe.trans (free hlock)) ?_
    have hmap {L : List LockPtr} (hL : o ∉ L) : L.map s'.held = L.map s.held :=
      map_congr_left fun p hp => hother p fun heq => hL (heq ▸ hp)
    change s'.helds = _
    rw [helds, hlocks, hs, map_append, map_cons, hmap hM', hmap hT, hself,
      cutLeft_eq_nil (by omega), cutRight_eq_nil (by omega),
      clearHeld_beyond hs hid hsorted (by omega), hid, hstart, hstop]
    rfl
  split
  · exact hgrant (h.reshape hf hop) (reshape h hf hop hne hid) rfl
      (fun p hp => reshape_held_of_ne h hp) (reshape_held_self h hf)
  next hnot =>
    refine hgrant (h.modify hop rfl fun q hq => ?_) (modify hop hne hid (hf.owner s o)) rfl
      (fun p hp => s.modify_held_of_ne _ hp) (by rw [held, s.modify_mem_self]; rfl)
    obtain ⟨hqid, hqov, hqc⟩ := h.blocks_of_mem_blkhd hq
    rw [Blocks, s.modify_held_of_ne _ (h.ne_of_mem_blkhd hq), held, s.modify_mem_self]
    exact ⟨hqid, hqov, hqc.replace htype hnot⟩

theorem granted_contains_start (hstart : (s.held o).start = (s.held lock).start)
    (hstop : (s.held lock).EndsBy (s.held o))
    (hne : (s.held o).stop ≠ (s.held lock).stop) :
    Granted lock s ((s.relink (M ++ lock :: o :: T)).reshape o
      fun l => { l with lfStart := (s.mem lock).lfEnd + 1 }) := by
  have ho : o ∈ s.lsLocks := hs ▸ by simp
  have hop := h.not_pending o ho
  have hol := hd.ne ho
  obtain ⟨hM', hT⟩ := h.not_mem_of_eq hs
  have hperm : (M ++ lock :: o :: T).Perm (lock :: s.lsLocks) := hs ▸ perm_middle
  have hb := h.insert hd hperm
  have hf := reshapes_start ((s.mem lock).lfEnd + 1)
  refine granted_of_helds hl hM hs hid hov hsorted hvalid (hb.reshape hf hop)
    ((insert hperm).trans (reshape hb hf hop hol hid)) ?_
  have hlocks : ((s.relink (M ++ lock :: o :: T)).reshape o
    fun l => { l with lfStart := (s.mem lock).lfEnd + 1 }).lsLocks = M ++ lock :: o :: T := rfl
  rw [helds, hlocks, map_append, map_cons, map_cons,
    map_reshape_held hb hM', map_reshape_held hb hT, reshape_held_of_ne hb hol.symm,
    reshape_held_self hb hf, cutLeft_eq_nil (by omega), cutRight_eq (by omega) (by omega),
    clearHeld_beyond hs hid hsorted hstop]
  rfl

theorem granted_contains_split (hstart : (s.held o).start < (s.held lock).start)
    (hstop : (s.held lock).EndsBy (s.held o)) :
    Granted lock s (lfWakelock (lfSplit s o lock) o false) := by
  obtain ⟨R, hsplit⟩ := lfSplit_spec h hd hs hid hstart hstop
  refine granted_of_helds hl hM hs hid hov hsorted hvalid hsplit.blocking hsplit.frame ?_
  rw [helds, hsplit.locks, map_append, hsplit.before, map_cons, map_cons,
    map_append, hsplit.right, hsplit.after, hsplit.frame.held_lock, ← hsplit.left,
    clearHeld_beyond hs hid hsorted hstop]
  rfl

theorem granted_link (htype : (s.held lock).type ≠ .unlck)
    (hstart : (s.held lock).start ≤ (s.held o).start)
    (hcase : (s.held lock).start < (s.held o).start ∨
      ovcase (s.held o) (s.held lock) = .contained) (hf : (o :: T).length < fuel) :
    Granted lock s (lfSetLoop lock fuel (o :: T) false (s.relink (M ++ lock :: o :: T))) := by
  have hperm : (M ++ lock :: o :: T).Perm (lock :: s.lsLocks) := hs ▸ perm_middle
  have hb := h.insert hd hperm
  obtain ⟨hsort, hval⟩ := sorted_valid_after hs hsorted hvalid
  have hcl : Cleared lock (M ++ [lock]) (o :: T) (s.relink (M ++ lock :: o :: T))
      (lfSetLoop lock fuel (o :: T) false (s.relink (M ++ lock :: o :: T))) := by
    refine lfSetLoop_linked hb (by simp) (by simp) htype hsort hval (fun p hp hpid => ?_) hf
    rcases mem_cons.mp hp with rfl | hp
    · exact hcase
    · exact .inl (start_le_of_mem hs hid hov hsorted hp hpid)
  refine granted_of_helds hl hM hs hid hov hsorted hvalid hcl.blocking
    ((insert hperm).trans hcl.frame) ?_
  rw [hcl.helds, relink_held, map_append, map_cons, map_cons,
    clearHeld_cons, pieces, if_pos ⟨hid, hov⟩, cut, cutLeft_eq_nil hstart]
  simp

theorem granted_starts_before (htype : (s.held lock).type ≠ .unlck)
    (hstart : (s.held o).start < (s.held lock).start)
    (hstop : (s.held o).EndsBy (s.held lock))
    (hf : T.length < fuel) :
    Granted lock s (lfSetLoop lock fuel T false ((s.relink (M ++ o :: lock :: T)).reshape o
      fun l => { l with lfEnd := (s.mem lock).lfStart - 1 })) := by
  have ho : o ∈ s.lsLocks := hs ▸ by simp
  have hop := h.not_pending o ho
  have hne := hd.ne ho
  obtain ⟨hoM, hoT⟩ := h.not_mem_of_eq hs
  have hperm := perm_insert_after lock hs
  have hb := h.insert hd hperm
  have hf' := reshapes_end ((s.mem lock).lfStart - 1)
  have hframe := (insert hperm).trans (reshape hb hf' hop hne hid)
  have hself : [_] = (s.held lock).cutLeft (s.held o) :=
    (congrArg (fun k => [k]) (reshape_held_self hb hf')).trans (cutLeft_eq hstart).symm
  have hMmap := map_reshape_held hb hoM (f := fun l => { l with lfEnd := (s.mem lock).lfStart - 1 })
  have hTmap := map_reshape_held hb hoT (f := fun l => { l with lfEnd := (s.mem lock).lfStart - 1 })
  have hb' := hb.reshape hf' hop
  have hlocks : ((s.relink (M ++ o :: lock :: T)).reshape o fun l =>
      { l with lfEnd := (s.mem lock).lfStart - 1 }).lsLocks = (M ++ [o, lock]) ++ T := by
    change M ++ o :: lock :: T = _
    simp
  generalize (s.relink (M ++ o :: lock :: T)).reshape o
    (fun l => { l with lfEnd := (s.mem lock).lfStart - 1 }) = s' at *
  obtain ⟨hsort, hval⟩ := sorted_valid_after hs hsorted hvalid
  rw [relink_held] at hMmap hTmap
  have hcl : Cleared lock (M ++ [o, lock]) T s' (lfSetLoop lock fuel T false s') := by
    refine lfSetLoop_linked hb' hlocks (by simp) ?_ ?_ ?_ (fun p hp hpid => ?_) hf
    · rwa [hframe.held_lock]
    · rw [hTmap]
      exact (pairwise_cons.mp hsort).2
    · rw [hTmap]
      exact fun k hk => hval k (mem_cons_of_mem _ hk)
    · rw [hframe.held_lock, map_inj_left.mp hTmap p hp] at hpid ⊢
      exact .inl (start_le_of_mem hs hid hov hsorted hp hpid)
  refine granted_of_helds hl hM hs hid hov hsorted hvalid hcl.blocking (hframe.trans hcl.frame) ?_
  rw [hcl.helds, map_append, hMmap, hTmap, hframe.held_lock, ← hself, cutRight_eq_nil hstop,
    map_cons, map_singleton, hframe.held_lock, append_assoc]
  rfl

end Cases

theorem lfSetLoop_link {M T : List LockPtr} {ov : Ovcase}
    (hs : s.lsLocks = M ++ o :: T) (hM : o ∉ M)
    (hfound : lfFindoverlap s lock .self s.lsLocks = (ov, o :: T))
    (hid : (s.held o).id = (s.held lock).id) (hov : ovcase (s.held o) (s.held lock) = ov)
    (hcase : ov = .contained ∨ ov = .endsAfter) : lfSetLoop lock (fuel + 1) s.lsLocks true s =
      lfSetLoop lock (fuel + 1) (o :: T) false (s.relink (M ++ lock :: o :: T)) := by
  have hfound' : lfFindoverlap (s.relink (M ++ lock :: o :: T)) lock .self (o :: T) =
      (ov, o :: T) := by
    have hown : (s.mem o).lfId = (s.mem lock).lfId := hid
    rcases hcase with rfl | rfl <;> simp [lfFindoverlap, hown, hov]
  have hlocks : insertBefore o lock s.lsLocks = M ++ lock :: o :: T := by
    rw [hs, insertBefore_append hM]
  rw [lfSetLoop, lfSetLoop, hfound, hfound']
  rcases hcase with rfl | rfl
  · have hlink : (lfAbsorb s lock o).link true lock o =
        (lfAbsorb s lock o).relink (M ++ lock :: o :: T) := by
      rw [link, if_pos rfl, lfAbsorb_lsLocks, hlocks]
      rfl
    simp only [hlink, lfAbsorb_relink]
    rfl
  · simp only [link, if_true, hlocks]
    rfl

theorem lfSetLoop_spec (h : s.Blocking) (hd : s.Detached lock)
    (hl : (s.held lock).Valid) (htype : (s.held lock).type ≠ .unlck) (hsorted : Sorted s.helds)
    (hvalid : AllValid s.helds) (hf : s.lsLocks.length < fuel) :
    Granted lock s (lfSetLoop lock fuel s.lsLocks true s) := by
  obtain ⟨fuel, rfl⟩ := Nat.exists_eq_add_one_of_ne_zero (Nat.ne_zero_of_lt hf)
  obtain ⟨M, hB, hM, hfound⟩ := lfFindoverlap_self lock hsorted hvalid
  rcases hfound with ⟨hnone, hbeyond⟩ | ⟨o, T, hfound, hid, hov⟩
  · have hins := granted_insert h hM hd hB hbeyond
    rw [lfSetLoop]
    split
    next hfound =>
      rw [hfound] at hins hB
      rw [if_pos rfl, hB, append_nil]
      exact hins
    next hfound =>
      rw [hfound] at hins hB
      rw [link, if_pos rfl, hB, insertBefore_append (h.not_mem_of_eq hB).1]
      exact hins
    next hfound =>
      rw [hfound] at hnone
      cases hnone
      contradiction
    next hfound =>
      rw [hfound] at hnone
      cases hnone
      contradiction
  have hs : s.lsLocks = M ++ o :: T := by simpa only [hfound] using hB
  have hoM := (h.not_mem_of_eq hs).1
  have hlen : (o :: T).length < fuel + 1 := by
    rw [hs, length_append] at hf
    omega
  rcases ovcase_cases hov with ⟨hcase, hstart, hstop⟩ | ⟨hcase, hneq, hstart, hstop⟩ |
    ⟨hcase, hneq, hstart, hstop⟩ | ⟨hcase, hstart, hfin, hstop⟩ | ⟨hcase, hstart, hfin, hstop⟩
  · rw [lfSetLoop, hfound, hcase]
    exact granted_equal h hd hl hM hs hid hov hsorted hvalid htype hstart hstop
  · rw [lfSetLoop, hfound, hcase]
    change Granted lock s (if (s.held o).type = (s.held lock).type then lfFree s lock else
      if (s.held o).start = (s.held lock).start then _ else _)
    split
    next heq => exact granted_contains_same h hd hs hid heq hstart hstop
    next =>
      split
      next heq =>
        have hgrant := granted_contains_start h hd hl hM hs hid hov hsorted hvalid heq hstop
          fun hstop => hneq ⟨heq, hstop⟩
        have hb := h.insert hd (L := M ++ lock :: o :: T) (hs ▸ perm_middle)
        rw [← lfWakelock_modify hb (reshapes_start _)] at hgrant
        simp only [if_true, hs, insertBefore_append hoM]
        exact hgrant
      next hlt =>
        exact granted_contains_split h hd hl hM hs hid hov hsorted hvalid
          (Int.lt_iff_le_and_ne.mpr ⟨hstart, hlt⟩) hstop
  · rw [lfSetLoop_link hs hoM hfound hid rfl (.inl hcase)]
    exact granted_link h hd hl hM hs hid hov hsorted hvalid htype hstart (.inr hcase) hlen
  · rw [lfSetLoop, hfound, hcase]
    have hgrant := granted_starts_before h hd hl hM hs hid hov hsorted hvalid htype hstart
      (by omega) (Nat.lt_of_succ_lt_succ hlen)
    have hb := h.insert hd (perm_insert_after lock hs)
    rw [← lfWakelock_modify hb (reshapes_end _)] at hgrant
    simp only [if_true, hs, insertAfter_append hoM]
    exact hgrant
  · rw [lfSetLoop_link hs hoM hfound hid rfl (.inr hcase)]
    exact granted_link h hd hl hM hs hid hov hsorted hvalid htype (Int.le_of_lt hstart)
      (.inl hstart) hlen

end Mbsd.Kern.VfsLockf
