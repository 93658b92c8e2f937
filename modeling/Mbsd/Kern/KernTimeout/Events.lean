import Mbsd.Kern.KernTimeout.Inv
import Mbsd.Kern.KernTimeout.Links

/-! What a step does to the flags of each timeout and to the queues it is on, told by the event that
the step is for the timeout. -/

namespace Mbsd.Kern.KernTimeout

open Lib Sys Option Function St

variable {ι : Type} {q : Queues ι} {k : Queue} {t : Timeout}

def Queue.Valid : Queue → Prop
  | .wheel b => b < WHEELCOUNT * WHEELSIZE
  | .wheelKc b => b < WHEELCOUNT * WHEELSIZE
  | _ => True

def St.Queued (s : St ι) (id : ι) : Prop := ∃ k, id ∈ s.queues k

structure St.Full (s : St ι) : Prop where
  exclusive : Circq.Exclusive s.queues
  onqueue_iff : ∀ id, (s.timeouts id).onqueue = true ↔ s.Queued id
  valid : ∀ k id, id ∈ s.queues k → k.Valid

variable {s s' s'' : St ι} {id : ι} {ev : Option (Event ι)} {called : Option ι} {mp : Bool}

theorem St.Full.inv (h : s.Full) : s.Inv :=
  ⟨h.exclusive, fun k id hm => (h.onqueue_iff id).mpr ⟨k, hm⟩⟩

def Keeps (q q' : Queues ι) : Prop := ∀ k id, id ∈ q k → ∃ j, id ∈ q' j

theorem Keeps.trans {q' q'' : Queues ι} (h : Keeps q q') (h' : Keeps q' q'') : Keeps q q'' :=
  fun k id hm => by
    obtain ⟨j, hj⟩ := h k id hm
    exact h' j id hj

theorem Keeps.concat (q : Queues ι) (hk : Queue.todo ≠ k) :
    Keeps q (Circq.concat q .todo k) := by
  intro j id hm
  by_cases hj : j = .todo ∨ j = k
  · refine ⟨.todo, (Circq.mem_concat hk).mpr (.inl ⟨rfl, ?_⟩)⟩
    rcases hj with rfl | rfl
    · exact .inl hm
    · exact .inr hm
  · rw [not_or] at hj
    exact ⟨j, (Circq.mem_concat hk).mpr (.inr ⟨hj.1, hj.2, hm⟩)⟩

theorem keeps_moveBuckets (ticks : BitVec 32) (q : Queues ι) : Keeps q (moveBuckets ticks q) :=
  moveBuckets_induct (fun _ _ _ => .trans) (fun q _ => .concat q nofun) q

theorem keeps_dump (l : List Nat) (q : Queues ι) :
    Keeps q (l.foldl (fun q b => Circq.concat q .todo (.wheelKc b)) q) := by
  induction l generalizing q with
  | nil => exact fun k _ hm => ⟨k, hm⟩
  | cons b l ih => exact (Keeps.concat q (k := .wheelKc b) nofun).trans (ih _)

section Buckets

theorem maskwheel_lt (x : BitVec 32) : (x &&& WHEELMASK).toNat < WHEELSIZE := by
  rw [BitVec.toNat_and]
  exact Nat.lt_of_le_of_lt Nat.and_le_right (by decide)

theorem BUCKET_lt (rel abs : BitVec 32) : BUCKET rel abs < WHEELCOUNT * WHEELSIZE := by
  have hmask (wheel : Nat) : MASKWHEEL wheel abs < 256 := maskwheel_lt _
  have h0 := hmask 0
  have h1 := hmask 1
  have h2 := hmask 2
  have h3 := hmask 3
  rw [BUCKET]
  simp only [WHEELSIZE, WHEELCOUNT]
  split
  · split
    · omega
    · omega
  · split
    · omega
    · omega

theorem level_le (p₀ p₁ p₂ : Prop) [Decidable p₀] [Decidable p₁] [Decidable p₂] :
    (if p₀ then 0 else if p₁ then 1 else if p₂ then 2 else 3) ≤ 3 := by
  split
  · decide
  · split
    · decide
    · split <;> decide

theorem St.timeoutBucket_lt {b : Nat} (h : s.timeoutBucket t = some b) :
    b < WHEELCOUNT * WHEELSIZE := by
  have hbucket (level : Nat) (hle : level ≤ 3) (hb : level * WHEELSIZE +
      timeoutMaskwheel level (timespecAdd t.toAbstime s.kcOffset) = b) :
      b < WHEELCOUNT * WHEELSIZE := by
    have hmask : timeoutMaskwheel level (timespecAdd t.toAbstime s.kcOffset) < WHEELSIZE :=
      maskwheel_lt _
    simp only [WHEELSIZE, WHEELCOUNT] at hmask hb ⊢
    omega
  rw [timeoutBucket] at h
  simp only [bind_eq_bind, bind_eq_some_iff, some.injEq] at h
  obtain ⟨_, _, h⟩ := h
  refine hbucket _ ?_ h
  exact level_le _ _ _

end Buckets

variable [DecidableEq ι]

def Event.flags (id : ι) : Event ι → Option (Bool × Bool)
  | .set j => if j = id then some (false, false) else none
  | .add j => if j = id then some (true, false) else none
  | .del j => if j = id then some (false, false) else none
  | .run j => if j = id then some (false, true) else none

structure Effect (s s' : St ι) (ev : Option (Event ι)) : Prop where
  flags : ∀ id, ((s'.timeouts id).onqueue, (s'.timeouts id).triggered) =
    (ev.bind (Event.flags id)).getD ((s.timeouts id).onqueue, (s.timeouts id).triggered)
  queued : ∀ id, s'.Queued id ↔ match ev.bind (Event.flags id) with
    | some f => f.1 = true
    | none => s.Queued id
  valid : ∀ k id, id ∈ s'.queues k → id ∈ s.queues k ∨ k.Valid

theorem Effect.full (he : Effect s s' ev) (h : s.Full) (hexcl : Circq.Exclusive s'.queues) :
    s'.Full := by
  refine ⟨hexcl, fun id => ?_, fun k id hm => (he.valid k id hm).elim (h.valid k id) fun hv => hv⟩
  have hflags := congrArg Prod.fst (he.flags id)
  dsimp only at hflags
  rw [he.queued id, hflags]
  cases ev.bind (Event.flags id) with
  | none => exact h.onqueue_iff id
  | some f => exact Iff.rfl

theorem Effect.quiet (hflags : ∀ id, (s'.timeouts id).onqueue = (s.timeouts id).onqueue ∧
      (s'.timeouts id).triggered = (s.timeouts id).triggered)
    (hqueued : ∀ id, s'.Queued id ↔ s.Queued id)
    (hvalid : ∀ k id, id ∈ s'.queues k → id ∈ s.queues k ∨ k.Valid) : Effect s s' none :=
  ⟨fun id => Prod.ext (hflags id).1 (hflags id).2, hqueued, hvalid⟩

theorem Effect.toTodo (hflags : s'.timeouts = s.timeouts) (hq : ToTodo s.queues s'.queues)
    (hkeeps : Keeps s.queues s'.queues) : Effect s s' none := by
  refine .quiet (fun id => ?_) (fun id => ⟨fun ⟨k, hm⟩ => hq.mem k id hm, fun ⟨k, hm⟩ =>
    hkeeps k id hm⟩) fun k id hm => ?_
  · rw [hflags]
    exact ⟨rfl, rfl⟩
  · by_cases hk : k = .todo
    · subst hk
      exact .inr trivial
    · exact .inl (hq.keep k id hk hm)

namespace St

theorem effect_of_one
    (hother : ∀ j k, j ≠ id → (j ∈ q k ↔ j ∈ s.queues k)) (hflags : ∀ j, ev.bind (Event.flags j) =
      if id = j then some (t.onqueue, t.triggered) else none)
    (hqueued : (∃ k, id ∈ q k) ↔ t.onqueue = true)
    (hvalid : ∀ k, id ∈ q k → id ∈ s.queues k ∨ k.Valid) :
    Effect s { s.setTimeout id t with queues := q } ev := by
  refine ⟨fun j => ?_, fun j => ?_, fun k j hm => ?_⟩
  · rw [hflags]
    by_cases hj : id = j
    · subst hj
      rw [if_pos rfl]
      simp only [setTimeout, update_self]
      rfl
    · rw [if_neg hj]
      simp only [setTimeout, update_of_ne (Ne.symm hj)]
      rfl
  · rw [hflags]
    by_cases hj : id = j
    · subst hj
      rw [if_pos rfl]
      exact hqueued
    · rw [if_neg hj]
      exact exists_congr fun k => hother j k (Ne.symm hj)
  · by_cases hj : id = j
    · subst hj
      exact hvalid k hm
    · exact .inl ((hother j k (Ne.symm hj)).mp hm)

theorem Full.effect_requeue (h : s.Full) (hon : t.onqueue = true)
    (htrig : t.triggered = false) (earlier : Bool) :
    Effect s { s.setTimeout id t with queues := s.requeue id earlier } (some (.add id)) := by
  refine effect_of_one (fun j k hne => ?_) (fun j => by rw [hon, htrig]; rfl) (iff_of_true ?_ hon)
    fun k hm => ?_
  · unfold requeue
    cases (s.timeouts id).onqueue with
    | false =>
      rw [if_neg Bool.false_ne_true, Circq.mem_insertTail]
      exact or_iff_left fun heq => hne heq.2
    | true =>
      rw [if_pos rfl]
      cases earlier with
      | false => exact Iff.rfl
      | true =>
        rw [if_pos rfl, Circq.mem_insertTail, Circq.mem_remove]
        exact (or_iff_left fun heq => hne heq.2).trans (and_iff_left hne)
  · unfold requeue
    cases ho : (s.timeouts id).onqueue with
    | false => exact ⟨.new, Circq.mem_insertTail.mpr (.inr ⟨rfl, rfl⟩)⟩
    | true =>
      cases earlier with
      | false => exact (h.onqueue_iff id).mp ho
      | true =>
        rw [if_pos rfl, if_pos rfl]
        exact ⟨.new, Circq.mem_insertTail.mpr (.inr ⟨rfl, rfl⟩)⟩
  · by_cases hk : k = .new
    · subst hk
      exact .inr trivial
    · exact .inl (h.inv.of_mem_requeue hk hm).1

theorem Full.effect_del (h : s.Full) (id : ι) : Effect s (s.timeoutDel id).1 (some (.del id)) := by
  have hout : ¬∃ k, id ∈
      (if (s.timeouts id).onqueue then Circq.remove s.queues id else s.queues) k := by
    rintro ⟨k, hm⟩
    cases ho : (s.timeouts id).onqueue with
    | false =>
      rw [ho, if_neg Bool.false_ne_true] at hm
      exact h.inv.not_mem ho k hm
    | true =>
      rw [ho, if_pos rfl] at hm
      exact (Circq.mem_remove.mp hm).2 rfl
  refine effect_of_one (fun j k hne => ?_) (fun j => rfl) (iff_of_false hout Bool.false_ne_true)
    fun k hm => absurd ⟨k, hm⟩ hout
  split
  · rw [Circq.mem_remove]
    exact and_iff_left hne
  · exact Iff.rfl

theorem effect_run (id : ι) :
    Effect s ({ s with queues := Circq.remove s.queues id }.timeoutRun id) (some (.run id)) := by
  have hout : ¬∃ k, id ∈ Circq.remove s.queues id k := fun ⟨k, hm⟩ => (Circq.mem_remove.mp hm).2 rfl
  refine effect_of_one (fun j k hne => ?_) (fun j => rfl) (iff_of_false hout Bool.false_ne_true)
    fun k hm => absurd ⟨k, hm⟩ hout
  rw [Circq.mem_remove]
  exact and_iff_left hne

theorem effect_queue (hid : s.Queued id) (hk : k.Valid) :
    Effect s { s with queues := Circq.insertTail (Circq.remove s.queues id) k id } none := by
  have hmem {j : Queue} {i : ι} : i ∈ Circq.insertTail (Circq.remove s.queues id) k id j ↔
      i ∈ s.queues j ∧ i ≠ id ∨ j = k ∧ i = id := by
    rw [Circq.mem_insertTail, Circq.mem_remove]
  refine .quiet (fun _ => ⟨rfl, rfl⟩) (fun i => ?_) fun j i hm => ?_
  · by_cases hi : i = id
    · subst hi
      exact iff_of_true ⟨k, hmem.mpr (.inr ⟨rfl, rfl⟩)⟩ hid
    · refine exists_congr fun j => hmem.trans ?_
      rw [and_iff_left hi]
      exact or_iff_left fun heq => hi heq.2
  · rcases hmem.mp hm with ⟨hm, -⟩ | ⟨rfl, -⟩
    · exact .inl hm
    · exact .inr hk

end St

namespace St

theorem effect_softclockNext (hs : s.softclockNext mp = some (s', called)) :
    Effect s s' (called.map .run) := by
  unfold softclockNext at hs
  cases htodo : s.queues .todo with
  | nil =>
    rw [htodo] at hs
    cases hs
    exact .quiet (fun _ => ⟨rfl, rfl⟩) (fun _ => Iff.rfl) fun _ _ hm => .inl hm
  | cons id rest =>
    rw [htodo] at hs
    have hid : s.Queued id := ⟨.todo, htodo ▸ List.mem_cons_self⟩
    have hdue {s' : St ι} {called : Option ι} (hs : { s with
        queues := Circq.remove s.queues id }.processDue mp id = (s', called)) :
        Effect s s' (called.map .run) := by
      unfold processDue at hs
      dsimp only at hs
      split at hs
      · split at hs
        · cases hs
          exact effect_queue hid trivial
        · cases hs
          exact effect_queue hid trivial
      · cases hs
        exact effect_run id
    dsimp only at hs
    cases hk : (s.timeouts id).toKclock with
    | none =>
      rw [hk] at hs
      simp only [softclockProcessTickTimeout, some.injEq] at hs
      split at hs
      · cases hs
        exact effect_queue hid (BUCKET_lt _ _)
      · exact hdue hs
    | uptime =>
      rw [hk] at hs
      simp only [softclockProcessKclockTimeout] at hs
      split at hs
      · simp only [bind_eq_bind, bind_eq_some_iff] at hs
        obtain ⟨b, hb, hs⟩ := hs
        cases hs
        exact effect_queue hid (timeoutBucket_lt hb)
      · exact hdue (some.inj hs)

theorem effect_softclockThreadRun (s : St ι) (queue : Queue) :
    Effect s (s.softclockThreadRun queue).1 ((s.softclockThreadRun queue).2.map .run) := by
  unfold softclockThreadRun
  cases s.queues queue with
  | nil => exact .quiet (fun _ => ⟨rfl, rfl⟩) (fun _ => Iff.rfl) fun _ _ hm => .inl hm
  | cons id rest => exact effect_run id

end St

theorem St.Full.effect_step {act : Act ι} (h : s.Full)
    (hs : s.step mp act = some (s', called)) : Effect s s' (act.event called) := by
  cases act with
  | add id toTicks =>
    obtain ⟨rfl, rfl⟩ := step_add hs
    exact h.effect_requeue rfl rfl _
  | absTs id abstime =>
    obtain ⟨rfl, rfl⟩ := step_absTs hs
    exact h.effect_requeue rfl rfl _
  | del id =>
    cases hs
    exact h.effect_del id
  | tick =>
    cases hs
    exact .quiet (fun _ => ⟨rfl, rfl⟩) (fun _ => Iff.rfl) fun _ _ hm => .inl hm
  | hardclockUpdate now =>
    cases hs
    exact .toTodo rfl (toTodo_hardclockUpdate s now)
      ((keeps_moveBuckets s.ticks s.queues).trans (keeps_dump _ _))
  | softclock =>
    simp only [step] at hs
    split at hs
    · cases hs
    · cases hs
      exact .toTodo rfl (ToTodo.concat s.queues (k := .new) (by simp)) (Keeps.concat s.queues (by simp))
  | softclockNext =>
    simp only [step] at hs
    split at hs
    · exact effect_softclockNext hs
    · cases hs
  | thread =>
    have heffect := effect_softclockThreadRun s .proc
    rwa [some.inj hs] at heffect
  | threadMp =>
    have heffect := effect_softclockThreadRun s .procMp
    rwa [some.inj hs] at heffect

end Mbsd.Kern.KernTimeout
