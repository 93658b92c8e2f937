import Mbsd.Kern.KernTimeout.Inv

/-! When a tick timeout runs: `softclock` looks at its time again, the threads do not. -/

namespace Mbsd.Kern.KernTimeout

open Lib Sys List Option BitVec St

namespace St

variable {ι : Type} (s : St ι)

def Waiting (id : ι) : Prop := id ∈ s.queues .proc ∨ id ∈ s.queues .procMp

/-- No timeout that waits for a thread is put off, or waits for so long that its time seems to lie
ahead again. -/
def Keeps : Act ι → Prop
  | .add id toTicks => s.Waiting id → toTicks = 0#32
  | .tick => ∀ id, s.Waiting id → (s.timeouts id).toKclock = .none →
      (s.timeouts id).toTime - s.ticks ≠ BitVec.intMin 32
  | _ => True

def WaitingDue : Prop := ∀ id, s.Waiting id → s.DueNow id

variable {s} {s' : St ι} {id : ι}

theorem WaitingDue.frame (h : s.WaitingDue) (hticks : s'.ticks = s.ticks)
    (hmem : ∀ id, s'.Waiting id → s.Waiting id ∧
      (s'.timeouts id).toKclock = (s.timeouts id).toKclock ∧
      (s'.timeouts id).toTime = (s.timeouts id).toTime) : s'.WaitingDue := by
  intro id hw hk
  obtain ⟨hw, hkclock, htime⟩ := hmem id hw
  rw [htime, hticks]
  exact h id hw (hkclock ▸ hk)

theorem tick_le {x : BitVec 32} (h : x.toInt ≤ 0) (hne : x ≠ intMin 32) : (x - 1#32).toInt ≤ 0 := by
  have hmin : x.toNat ≠ 2147483648 := fun heq => hne (eq_of_toNat_eq heq)
  rw [toInt_eq_toNat_cond] at h ⊢
  rw [toNat_sub]
  simp only [toNat_ofNat] at h ⊢
  split at h <;> split <;> omega

theorem waiting_of_toTodo {q : Queues ι} (h : ToTodo s.queues q) {j : ι}
    (hj : j ∈ q .proc ∨ j ∈ q .procMp) : s.Waiting j := by
  rcases hj with hj | hj
  · exact .inl (h.keep .proc j nofun hj)
  · exact .inr (h.keep .procMp j nofun hj)

variable [DecidableEq ι] {act : Act ι} {called : Option ι} {mp : Bool}

theorem timeouts_setTimeout (id : ι) (t : Timeout) (j : ι) :
    (s.setTimeout id t).timeouts j = if j = id then t else s.timeouts j :=
  Function.update_apply ..

theorem Inv.waiting_of_requeue (h : s.Inv) {earlier : Bool} {j : ι}
    (hj : j ∈ s.requeue id earlier .proc ∨ j ∈ s.requeue id earlier .procMp) : s.Waiting j := by
  rcases hj with hj | hj
  · exact .inl (h.of_mem_requeue (k := .proc) nofun hj).1
  · exact .inr (h.of_mem_requeue (k := .procMp) nofun hj).1

theorem WaitingDue.run (h : s.WaitingDue) (id : ι) :
    ({ s with queues := Circq.remove s.queues id }.timeoutRun id).WaitingDue := by
  refine h.frame rfl fun j hj => ?_
  have hne : j ≠ id := hj.elim (fun hj => (Circq.mem_remove.mp hj).2)
    fun hj => (Circq.mem_remove.mp hj).2
  refine ⟨hj.imp (fun hj => (Circq.mem_remove.mp hj).1) fun hj => (Circq.mem_remove.mp hj).1, ?_⟩
  have hsame := timeouts_setTimeout (s := { s with queues := Circq.remove s.queues id }) id
    { s.timeouts id with onqueue := false, triggered := true } j
  rw [if_neg hne] at hsame
  exact ⟨congrArg Timeout.toKclock hsame, congrArg Timeout.toTime hsame⟩

theorem WaitingDue.processed (h : s.WaitingDue) (hp : s.Processed id s' called) :
    s'.WaitingDue := by
  cases hp with
  | run => exact h.run id
  | queued k hk =>
    intro j hj
    -- what is new on a queue of a thread was due when `softclock` looked at it
    have hcases : s.Waiting j ∨ s.DueNow j := by
      rcases hj with hj | hj <;> rcases Circq.mem_insertTail.mp hj with hj | ⟨rfl, rfl⟩
      · exact .inl (.inl (Circq.mem_remove.mp hj).1)
      · cases hk with
        | proc hdue => exact .inr hdue
      · exact .inl (.inr (Circq.mem_remove.mp hj).1)
      · cases hk with
        | procMp hdue => exact .inr hdue
    exact hcases.elim (h j) fun hdue => hdue

theorem WaitingDue.step (h : s.WaitingDue) (hinv : s.Inv) (hkeep : s.Keeps act)
    (hs : s.step mp act = some (s', called)) : s'.WaitingDue := by
  cases act with
  | add id toTicks =>
    obtain ⟨rfl, rfl⟩ := step_add hs
    intro j hj hk
    have hw : s.Waiting j := hinv.waiting_of_requeue hj
    show (((s.setTimeout id _).timeouts j).toTime - s.ticks).toInt ≤ 0
    change ((s.setTimeout id _).timeouts j).toKclock = _ at hk
    rw [timeouts_setTimeout] at hk ⊢
    by_cases hji : j = id
    · subst hji
      rw [if_pos rfl, hkeep hw, BitVec.add_sub_cancel]
      exact Int.le_refl 0
    · rw [if_neg hji] at hk ⊢
      exact h j hw hk
  | absTs id abstime =>
    obtain ⟨rfl, rfl⟩ := step_absTs hs
    refine h.frame rfl fun j hj => ⟨hinv.waiting_of_requeue hj, ?_⟩
    rw [timeouts_setTimeout]
    split
    · next hji => exact hji ▸ ⟨rfl, rfl⟩
    · exact ⟨rfl, rfl⟩
  | del id =>
    cases hs
    refine h.frame rfl fun j hj => ⟨?_, ?_⟩
    · unfold timeoutDel at hj
      dsimp only at hj
      split at hj
      · exact hj.imp (fun hj => (Circq.mem_remove.mp hj).1) fun hj => (Circq.mem_remove.mp hj).1
      · exact hj
    · show ((s.setTimeout id _).timeouts j).toKclock = _ ∧
        ((s.setTimeout id _).timeouts j).toTime = _
      rw [timeouts_setTimeout]
      split
      · next hji => exact hji ▸ ⟨rfl, rfl⟩
      · exact ⟨rfl, rfl⟩
  | tick =>
    cases hs
    intro j hj hk
    have hle := tick_le (h j hj hk) (hkeep j hj hk)
    rw [BitVec.sub_sub] at hle
    exact hle
  | hardclockUpdate now =>
    cases hs
    have hq := toTodo_hardclockUpdate s now
    exact h.frame rfl fun j hj => ⟨waiting_of_toTodo hq hj, rfl, rfl⟩
  | softclock =>
    simp only [step] at hs
    split at hs
    · cases hs
    · cases hs
      have hq := ToTodo.concat s.queues (k := .new) (by simp)
      exact h.frame rfl fun j hj => ⟨waiting_of_toTodo hq hj, rfl, rfl⟩
  | softclockNext =>
    simp only [step] at hs
    split at hs
    · rcases softclockNext_cases hs with ⟨rfl, -⟩ | ⟨id, -, hp⟩
      · exact h
      · exact h.processed hp
    · cases hs
  | thread =>
    have hs := some.inj hs
    unfold softclockThreadRun at hs
    split at hs
    · cases hs
      exact h
    · cases hs
      exact h.run _
  | threadMp =>
    have hs := some.inj hs
    unfold softclockThreadRun at hs
    split at hs
    · cases hs
      exact h
    · cases hs
      exact h.run _

theorem dueNow_timeoutRun {q : Queues ι} (h : s.DueNow id) :
    ({ s with queues := q }.timeoutRun id).DueNow id := by
  intro hk
  unfold timeoutRun at hk ⊢
  rw [timeouts_setTimeout, if_pos rfl] at hk ⊢
  exact h hk

theorem WaitingDue.thread (h : s.WaitingDue) {queue : Queue} (hq : ∀ id ∈ s.queues queue, s.Waiting id)
    (hs : s.softclockThreadRun queue = (s', some id)) : s'.DueNow id := by
  unfold softclockThreadRun at hs
  cases hl : s.queues queue with
  | nil =>
    rw [hl] at hs
    cases hs
  | cons j rest =>
    rw [hl] at hs
    cases hs
    exact dueNow_timeoutRun (h _ (hq _ (hl ▸ mem_cons_self)))

theorem WaitingDue.of_called (h : s.WaitingDue) (hs : s.step mp act = some (s', some id)) :
    s'.DueNow id := by
  cases act with
  | add j toTicks =>
    obtain ⟨r, -, heq⟩ := map_eq_some_iff.mp hs
    cases heq
  | absTs j abstime =>
    obtain ⟨r, -, heq⟩ := map_eq_some_iff.mp hs
    cases heq
  | del j => cases hs
  | tick => cases hs
  | hardclockUpdate now => cases hs
  | softclock =>
    simp only [St.step] at hs
    split at hs
    · cases hs
    · cases hs
  | softclockNext =>
    simp only [St.step] at hs
    split at hs
    · rcases softclockNext_cases hs with ⟨-, hc⟩ | ⟨j, -, hp⟩
      · cases hc
      · cases hp with
        | run hdue => exact dueNow_timeoutRun hdue
    · cases hs
  | thread => exact h.thread (fun _ hm => .inl hm) (some.inj hs)
  | threadMp => exact h.thread (fun _ hm => .inr hm) (some.inj hs)

end St

variable {ι : Type} [DecidableEq ι]

/-- A tick timeout never runs early, as long as none is put off while it waits for a thread. -/
theorem never_early (mp : Bool) (timeouts : ι → Timeout) (ticks : BitVec 32) (acts : List (Act ι))
    (hkeeps : Along mp St.Keeps (timeoutStartup timeouts ticks) acts) :
    Always mp (fun _ s called => ∀ id ∈ called, s.DueNow id) (timeoutStartup timeouts ticks)
      acts := by
  refine Always.of_inv (I := WaitingDue) (fun {s act s' called} hinv hdue hkeep hs => ?_)
    (timeoutStartup_inv timeouts ticks) ?_ acts hkeeps
  · refine ⟨hdue.step hinv hkeep hs, fun id hc => ?_⟩
    cases hc
    exact hdue.of_called hs
  · exact fun _ hw => hw.elim (absurd · not_mem_nil) (absurd · not_mem_nil)

def procTimeout : Timeout := ⟨.none, 0#32, ⟨0, 0, Timespec.zero_lt⟩, true, false, false, false⟩

theorem never_early_once : Always true (fun _ s called => ∀ id ∈ called, s.DueNow id)
      (timeoutStartup (fun _ : Unit => procTimeout) 7#32)
      [.add () 0#32, .softclock, .softclockNext, .thread] :=
  never_early true _ _ _ ⟨fun _ => rfl, fun _ _ _ => ⟨trivial, fun _ _ _ => ⟨trivial, fun _ _ _ =>
    ⟨trivial, fun _ _ _ => trivial⟩⟩⟩⟩

/-- A timeout that is put off while it waits for its thread runs all the same. -/
theorem early_when_put_off : ¬Always true (fun _ s called => ∀ id ∈ called, s.DueNow id)
      (timeoutStartup (fun _ : Unit => procTimeout) 7#32)
      [.add () 0#32, .softclock, .softclockNext, .add () 5#32, .thread] := by
  intro h
  have hdue := ((((((h _ _ rfl).2 _ _ rfl).2 _ _ rfl).2 _ _ rfl).2 _ _ rfl).1 () rfl) rfl
  revert hdue
  decide

end Mbsd.Kern.KernTimeout
