import Mathlib.Data.Finset.Lattice.Fold
import Mbsd.Kern.KernTimeout.Events

/-! The circular lists in memory are the queues of the list model, step by step. -/

namespace Mbsd.Kern.KernTimeout

open Lib Sys Circular Option Mem

variable {ι : Type} [DecidableEq ι] {m m' : Mem ι} {q : Queues ι} {L : Links (Node ι)} {id : ι}
  {called : Option ι} {mp : Bool} {act : Act ι} {r : Mem ι × Option ι} {proc mpsafe : Bool}
  {k : Queue}

theorem rings_requeue (hr : Rings m.links q) (hf : (m.st q).Full) (id : ι) (earlier : Bool) :
    Rings (m.requeue id earlier) ((m.st q).requeue id earlier) := by
  have hon := hf.onqueue_iff id
  unfold requeue St.requeue
  rw [st_timeouts, st_queues]
  cases ho : (m.timeouts id).onqueue with
  | false =>
    rw [if_neg Bool.false_ne_true, if_neg Bool.false_ne_true]
    exact hr.insertTail (hf.inv.not_mem ho)
  | true =>
    rw [if_pos rfl, if_pos rfl]
    cases earlier with
    | false => exact hr
    | true =>
      obtain ⟨k, hk⟩ := hon.mp ho
      exact (hr.remove hk).insertTail fun j hj => (Circq.mem_remove.mp hj).2 rfl

theorem rings_del (hr : Rings m.links q) (hf : (m.st q).Full) (id : ι) :
    Rings (m.timeoutDel id).1.links ((m.st q).timeoutDel id).1.queues := by
  have hon := hf.onqueue_iff id
  dsimp only [timeoutDel, St.timeoutDel]
  rw [st_timeouts]
  split
  next ho =>
    obtain ⟨k, hk⟩ := hon.mp ho
    exact hr.remove hk
  next => exact hr

theorem rings_moveBuckets (ticks : BitVec 32) (hr : Rings L q) :
    Rings (moveBucketsLinks ticks L) (moveBuckets ticks q) := by
  have hmove {L : Links (Node ι)} {q : Queues ι} (hr : Rings L q) (wheel : Nat) :
      Rings (moveBucketLinks ticks L wheel) (moveBucket ticks q wheel) := hr.concat nofun
  unfold moveBucketsLinks moveBuckets
  split
  · split
    · split
      · exact hmove (hmove (hmove (hmove hr 0) 1) 2) 3
      · exact hmove (hmove (hmove hr 0) 1) 2
    · exact hmove (hmove hr 0) 1
  · exact hmove hr 0

theorem rings_dump (l : List Nat) (hr : Rings L q) :
    Rings (l.foldl (fun L b => L.concat (.inl .todo) (.inl (.wheelKc b))) L)
      (l.foldl (fun q b => Circq.concat q .todo (.wheelKc b)) q) := by
  induction l generalizing L q with
  | nil => exact hr
  | cons b l ih => exact ih (hr.concat nofun)

def Refined (r : Mem ι × Option ι) (s : St ι × Option ι) : Prop :=
  ∃ q', Rings r.1.links q' ∧ s = (r.1.st q', r.2)

section Process

variable (hr : Rings m.links q) (hid : ∀ k, id ∉ q k)

include hr hid

theorem insertTail_refined (k : Queue) : Refined (m.insertTail k id, none)
    ({ m.st q with queues := Circq.insertTail q k id }, none) :=
  ⟨_, hr.insertTail hid, rfl⟩

theorem processDue_refined : Refined (m.processDue mp id) ((m.st q).processDue mp id) := by
  unfold processDue St.processDue
  dsimp only
  split
  next hproc =>
    rw [if_pos (show ((m.st q).timeouts id).proc = true from hproc)]
    split
    next hmp =>
      rw [if_pos (show (mp && ((m.st q).timeouts id).mpsafe) = true from hmp)]
      exact insertTail_refined hr hid .procMp
    next hmp =>
      rw [if_neg (show ¬(mp && ((m.st q).timeouts id).mpsafe) = true from hmp)]
      exact insertTail_refined hr hid .proc
  next hproc =>
    rw [if_neg (show ¬((m.st q).timeouts id).proc = true from hproc)]
    exact ⟨q, hr, rfl⟩

theorem processTick_refined : Refined (m.softclockProcessTickTimeout mp id)
    ((m.st q).softclockProcessTickTimeout mp id) := by
  unfold softclockProcessTickTimeout St.softclockProcessTickTimeout
  dsimp only
  split
  next hlater =>
    rw [if_pos (show 0 < (((m.st q).timeouts id).toTime - (m.st q).ticks).toInt from hlater)]
    exact insertTail_refined hr hid _
  next hdue =>
    rw [if_neg (show ¬0 < (((m.st q).timeouts id).toTime - (m.st q).ticks).toInt from hdue)]
    exact processDue_refined hr hid

theorem processKclock_refined (hs : m.softclockProcessKclockTimeout mp id = some r) :
    ∃ s, (m.st q).softclockProcessKclockTimeout mp id = some s ∧ Refined r s := by
  unfold softclockProcessKclockTimeout at hs
  unfold St.softclockProcessKclockTimeout
  dsimp only at hs ⊢
  split at hs
  next hlt =>
    rw [if_pos (show timespecLt (m.st q).kcLastscan ((m.st q).timeouts id).toAbstime = true
      from hlt)]
    obtain ⟨b, hb, hs⟩ := bind_eq_some_iff.mp hs
    cases hs
    exact ⟨_, bind_eq_some_iff.mpr ⟨b, hb, rfl⟩, insertTail_refined hr hid _⟩
  next hge =>
    rw [if_neg (show ¬timespecLt (m.st q).kcLastscan ((m.st q).timeouts id).toAbstime = true
      from hge)]
    cases hs
    exact ⟨_, rfl, processDue_refined hr hid⟩

end Process

theorem first_eq (hr : Rings m.links q) (hempty : ¬m.links.Empty (.inl k))
    (hnext : m.links.next (.inl k) = .inr id) : ∃ l, q k = id :: l := by
  cases hq : q k with
  | nil => exact absurd (hr.empty_iff.mpr hq) hempty
  | cons a l =>
    rw [hr.next_head hq] at hnext
    exact ⟨l, by rw [Sum.inr.inj hnext]⟩

theorem softclockNext_refined (hr : Rings m.links q)
    (hs : m.softclockNext mp = some r) : ∃ s, (m.st q).softclockNext mp = some s ∧ Refined r s := by
  unfold softclockNext at hs
  unfold St.softclockNext
  split at hs
  next hempty =>
    cases hs
    rw [show (m.st q).queues .todo = [] from hr.empty_iff.mp hempty]
    exact ⟨_, rfl, q, hr, rfl⟩
  next hempty =>
    split at hs
    next => cases hs
    next id hnext =>
      obtain ⟨l, hq⟩ := first_eq hr hempty hnext
      rw [show (m.st q).queues .todo = id :: l from hq]
      have hr' := hr.remove (a := id) (k := .todo) (hq ▸ List.mem_cons_self)
      have hid : ∀ k, id ∉ Circq.remove q id k := fun k hm => (Circq.mem_remove.mp hm).2 rfl
      dsimp only at hs ⊢
      split at hs
      next hk =>
        rw [show ((m.st q).timeouts id).toKclock = .none from hk]
        cases hs
        exact ⟨_, rfl,
          processTick_refined (m := { m with links := m.links.remove (.inr id) }) hr' hid⟩
      next hk =>
        rw [show ((m.st q).timeouts id).toKclock = .uptime from hk]
        exact processKclock_refined (m := { m with links := m.links.remove (.inr id) }) hr' hid hs

theorem softclockThreadRun_refined {tctx : Ctx} (hr : Rings m.links q)
    (hs : m.softclockThreadRun tctx = some r) :
    Refined r ((m.st q).softclockThreadRun tctx.todo) := by
  unfold softclockThreadRun at hs
  unfold St.softclockThreadRun
  split at hs
  next hempty =>
    cases hs
    rw [show (m.st q).queues tctx.todo = [] from hr.empty_iff.mp hempty]
    exact ⟨q, hr, rfl⟩
  next hempty =>
    split at hs
    next => cases hs
    next id hnext =>
      obtain ⟨l, hq⟩ := first_eq hr hempty hnext
      rw [show (m.st q).queues tctx.todo = id :: l from hq]
      cases hs
      exact ⟨_, hr.remove (a := id) (k := tctx.todo) (hq ▸ List.mem_cons_self), rfl⟩

section Add

variable (hr : Rings m.links q) (hf : (m.st q).Full) {n : Nat}

include hr hf

theorem timeoutAdd_refined {toTicks : BitVec 32} (hs : m.timeoutAdd id toTicks = some (m', n)) :
    ∃ q', Rings m'.links q' ∧ (m.st q).timeoutAdd id toTicks = some (m'.st q', n) := by
  simp only [timeoutAdd, bind_eq_bind, bind_eq_some_iff] at hs
  obtain ⟨u, hkclock, v, hticks, hs⟩ := hs
  cases hs
  refine ⟨_, rings_requeue hr hf id _, bind_eq_some_iff.mpr ⟨u, hkclock, ?_⟩⟩
  exact bind_eq_some_iff.mpr ⟨v, hticks, rfl⟩

theorem timeoutAbsTs_refined {abstime : Timespec} (hs : m.timeoutAbsTs id abstime = some (m', n)) :
    ∃ q', Rings m'.links q' ∧ (m.st q).timeoutAbsTs id abstime = some (m'.st q', n) := by
  simp only [timeoutAbsTs, bind_eq_bind, bind_eq_some_iff] at hs
  obtain ⟨u, hkclock, hs⟩ := hs
  cases hs
  exact ⟨_, rings_requeue hr hf id _, bind_eq_some_iff.mpr ⟨u, hkclock, rfl⟩⟩

end Add

theorem stepAct_refines (hr : Rings m.links q) (hf : (m.st q).Full)
    (hs : m.stepAct mp act = some (m', called)) :
    ∃ q', Rings m'.links q' ∧ (m.st q).step mp act = some (m'.st q', called) := by
  have hwrap {s : Option (St ι × Option ι)} (h : ∃ r, s = some r ∧ Refined (m', called) r) :
      ∃ q', Rings m'.links q' ∧ s = some (m'.st q', called) := by
    obtain ⟨_, rfl, q', hr', rfl⟩ := h
    exact ⟨q', hr', rfl⟩
  cases act with
  | add id toTicks =>
    obtain ⟨⟨_, n⟩, hadd, heq⟩ := map_eq_some_iff.mp hs
    cases heq
    obtain ⟨q', hr', hadd⟩ := timeoutAdd_refined hr hf hadd
    exact ⟨q', hr', map_eq_some_iff.mpr ⟨_, hadd, rfl⟩⟩
  | absTs id abstime =>
    obtain ⟨⟨_, n⟩, habs, heq⟩ := map_eq_some_iff.mp hs
    cases heq
    obtain ⟨q', hr', habs⟩ := timeoutAbsTs_refined hr hf habs
    exact ⟨q', hr', map_eq_some_iff.mpr ⟨_, habs, rfl⟩⟩
  | del id =>
    cases hs
    exact ⟨_, rings_del hr hf id, rfl⟩
  | tick =>
    cases hs
    exact ⟨q, hr, rfl⟩
  | hardclockUpdate now =>
    cases hs
    exact ⟨_, rings_dump _ (rings_moveBuckets m.ticks hr), rfl⟩
  | softclock =>
    simp only [stepAct] at hs
    simp only [St.step]
    split at hs
    next => cases hs
    next hidle =>
      cases hs
      rw [if_neg (show ¬(m.st q).softclock = true from hidle)]
      exact ⟨_, hr.concat (by simp), rfl⟩
  | softclockNext =>
    simp only [stepAct] at hs
    simp only [St.step]
    split at hs
    next hbusy =>
      rw [if_pos (show (m.st q).softclock = true from hbusy.1)]
      exact hwrap (softclockNext_refined hr hs)
    next => cases hs
  | thread =>
    simp only [stepAct] at hs
    split at hs
    next => exact hwrap ⟨_, rfl, softclockThreadRun_refined hr hs⟩
    next => cases hs
  | threadMp =>
    simp only [stepAct] at hs
    split at hs
    next => exact hwrap ⟨_, rfl, softclockThreadRun_refined hr hs⟩
    next => cases hs

/-! The queues and the flags in every memory that calls lead to. -/

open List Function

variable {ι : Type} [DecidableEq ι] {m m' : Mem ι} {q q' : Queues ι} {h es : List (Event ι)}
  {e : Option (Event ι)} {id : ι} {mp : Bool}

def LastRun (h : List (Event ι)) (id : ι) : Prop :=
  h.find? (fun e => e.timeout = id) = some (.run id)

theorem Event.flags_of_ne {e : Event ι} (hne : e.timeout ≠ id) : e.flags id = none := by
  cases e <;> exact if_neg hne

theorem Event.flags_self (e : Event ι) :
    ∃ b, e.flags e.timeout = some (b, decide (e = .run e.timeout)) := by
  cases e <;> exact ⟨_, by simp [Event.flags, Event.timeout]; rfl⟩

theorem lastRun_cons_of_ne {e : Event ι} (hne : e.timeout ≠ id) :
    LastRun (e :: h) id ↔ LastRun h id := by
  rw [LastRun, find?_cons_of_neg (by simpa using hne), LastRun]

theorem lastRun_cons_self {e : Event ι} : LastRun (e :: h) e.timeout ↔ e = .run e.timeout := by
  rw [LastRun, find?_cons_of_pos (by simp), some.injEq]

/-- The lists that are in memory, and what the flags say about them and about the events. -/
structure Consistent (m : Mem ι) (q : Queues ι) (h : List (Event ι)) : Prop where
  rings : Rings m.links q
  full : (m.st q).Full
  triggered : ∀ id, (m.timeouts id).triggered = true ↔ LastRun h id

theorem Consistent.effect (hc : Consistent m q h) (hr : Rings m'.links q')
    (he : Effect (m.st q) (m'.st q') e) : Consistent m' q' (e.toList ++ h) := by
  refine ⟨hr, he.full hc.full hr.exclusive, fun id => ?_⟩
  have hflags := congrArg Prod.snd (he.flags id)
  dsimp only [st_timeouts] at hflags
  rw [hflags]
  cases e with
  | none => exact hc.triggered id
  | some e =>
    rw [bind_some, toList_some, singleton_append]
    by_cases hid : e.timeout = id
    · subst hid
      obtain ⟨b, hb⟩ := e.flags_self
      rw [hb, lastRun_cons_self]
      exact decide_eq_true_iff
    · rw [Event.flags_of_ne hid, lastRun_cons_of_ne hid]
      exact hc.triggered id

section Set

variable (hc : Consistent m q h)

include hc

theorem Consistent.setFlags {kclock : Kclock} (hfresh : (m.timeouts id).onqueue = false)
    (hs : m.timeoutSetFlags id kclock proc mpsafe = some m') : Consistent m' q (.set id :: h) := by
  obtain ⟨-, -, hs⟩ := bind_eq_some_iff.mp hs
  cases hs
  have hout := hc.full.inv.not_mem hfresh
  exact hc.effect (e := some (.set id)) hc.rings <| St.effect_of_one (fun _ _ _ => Iff.rfl)
    (fun _ => rfl) (iff_of_false (fun ⟨k, hk⟩ => hout k hk) Bool.false_ne_true)
    fun k hk => absurd hk (hout k)

theorem Consistent.insertHead {t : Timeout} (hfresh : (m.timeouts id).onqueue = false)
    (hon : t.onqueue = true) (htrig : t.triggered = false) (hk : k.Valid) :
    Consistent { m.setTimeout id t with links := m.links.insertHead (.inl k) (.inr id) }
      (Circq.insertHead q k id) (.add id :: h) := by
  have hout := hc.full.inv.not_mem hfresh
  refine hc.effect (e := some (.add id)) (hc.rings.insertHead hout) <| St.effect_of_one
    (fun j i hne => ?_) (fun j => by rw [hon, htrig]; rfl) (iff_of_true ?_ hon) fun j hj => ?_
  · exact Circq.mem_insertHead.trans (or_iff_left fun heq => hne heq.2)
  · exact ⟨k, Circq.mem_insertHead.mpr (.inr ⟨rfl, rfl⟩)⟩
  · rcases Circq.mem_insertHead.mp hj with hj | ⟨rfl, -⟩
    · exact .inl hj
    · exact .inr hk

end Set

theorem Mem.timeoutSetFlags_timeout {kclock : Kclock}
    (hs : m.timeoutSetFlags id kclock proc mpsafe = some m') :
    (m'.timeouts id).onqueue = false ∧ (m'.timeouts id).triggered = false := by
  obtain ⟨-, -, hs⟩ := bind_eq_some_iff.mp hs
  cases hs
  simp only [setTimeout, update_self, and_self]

theorem Ctx.todo_valid (tctx : Ctx) : tctx.todo.Valid := by
  cases tctx <;> exact trivial

theorem Consistent.barrier {to_ b : ι} (hc : Consistent m q h)
    (hfresh : (m.timeouts b).onqueue = false)
    (hs : m.timeoutBarrier mp to_ b proc mpsafe = some m') : ∃ q', Consistent m' q'
      ((if (m'.timeouts b).onqueue then [.add b, .set b] else [.set b]) ++ h) := by
  obtain ⟨m₁, hset, hs⟩ := bind_eq_some_iff.mp hs
  have hc₁ := hc.setFlags hfresh hset
  obtain ⟨hon, htrig⟩ := timeoutSetFlags_timeout hset
  dsimp only at hs
  generalize (if proc then if mp && mpsafe then Ctx.procMp else .proc else .si) = tctx at hs
  split at hs
  · cases hs
    rw [hon]
    exact ⟨q, hc₁⟩
  · cases hs
    have hb : ((m₁.setTimeout b { m₁.timeouts b with
        toTime := m₁.ticks, onqueue := true }).timeouts b).onqueue = true := by
      simp only [setTimeout, update_self]
    refine ⟨Circq.insertHead q tctx.todo b, ?_⟩
    rw [if_pos hb]
    exact hc₁.insertHead hon rfl htrig tctx.todo_valid

section AdjustTicks

variable {adj : BitVec 32} {b turns : Nat}

theorem Consistent.setTime (hc : Consistent m q h) (id : ι) (toTime : BitVec 32) :
    Consistent (m.setTimeout id { m.timeouts id with toTime := toTime }) q h := by
  refine hc.effect (e := none) hc.rings (.quiet (fun j => ?_) (fun _ => Iff.rfl)
    fun _ _ hj => .inl hj)
  by_cases hj : j = id
  · subst hj
    simp only [st_timeouts, setTimeout, update_self, and_self]
  · simp only [st_timeouts, setTimeout, update_of_ne hj, and_self]

theorem Consistent.toTodo (hc : Consistent m q h) (hid : id ∈ q k) :
    Consistent ({ m with links := m.links.remove (.inr id) }.insertTail .todo id)
      (Circq.insertTail (Circq.remove q id) .todo id) h := by
  have hout : ∀ j, id ∉ Circq.remove q id j := fun j hj => (Circq.mem_remove.mp hj).2 rfl
  exact hc.effect (e := none) ((hc.rings.remove hid).insertTail hout)
    (St.effect_queue (s := m.st q) ⟨k, hid⟩ trivial)

theorem Consistent.adjustBucket (adj newTicks : BitVec 32) (turns : Nat) {p : Node ι}
    {l : List ι} (hc : Consistent m q h) (hl : q (.wheel b) = l)
    (hp : some p = (l.map .inr ++ [.inl (.wheel b)] : List (Node ι)).head?) :
    (l.length ≤ turns → (m.adjustBucket adj newTicks b turns p).isSome) ∧
      ∀ m', m.adjustBucket adj newTicks b turns p = some m' → ∃ q', Consistent m' q' h ∧
        ∀ j, j ≠ b → q' (.wheel j) = q (.wheel j) := by
  induction l generalizing turns m q p with
  | nil =>
    cases hp
    rw [m.adjustBucket_head]
    refine ⟨fun _ => rfl, fun m' hm' => ?_⟩
    cases hm'
    exact ⟨q, hc, fun _ _ => rfl⟩
  | cons id l ih =>
    cases hp
    cases turns with
    | zero =>
      rw [m.adjustBucket_zero]
      exact ⟨(by simp), (by simp)⟩
    | succ turns =>
      rw [adjustBucket, if_neg Sum.inr_ne_inl]
      dsimp only
      have hc₁ : Consistent (if (m.timeouts id).toTime - m.ticks |>.slt adj then
          m.setTimeout id { m.timeouts id with toTime := newTicks } else m) q h := by
        split
        · exact hc.setTime id newTicks
        · exact hc
      generalize (if (m.timeouts id).toTime - m.ticks |>.slt adj then
        m.setTimeout id { m.timeouts id with toTime := newTicks } else m) = m₁ at hc₁ ⊢
      have hne (j : Nat) : Queue.wheel j ≠ .todo := (by simp)
      have hid : id ∈ q (.wheel b) := hl ▸ mem_cons_self
      have hrest : Circq.insertTail (Circq.remove q id) .todo id (.wheel b) = l := by
        rw [Circq.insertTail, update_of_ne (hne _), hc.rings.exclusive.remove_eq hid,
          update_self, hl, erase_cons_head]
      obtain ⟨hsome, hkeep⟩ := ih turns (hc₁.toTodo hid) hrest
        (hc.rings.next_first hl)
      refine ⟨fun hle => hsome (Nat.le_of_succ_le_succ hle), fun m' hm' => ?_⟩
      obtain ⟨q', hc', hother⟩ := hkeep m' hm'
      refine ⟨q', hc', fun j hj => (hother j hj).trans ?_⟩
      rw [Circq.insertTail, update_of_ne (hne _), hc.rings.exclusive.remove_eq hid,
        update_of_ne fun heq => hj (Queue.wheel.inj heq)]

theorem Consistent.adjustBuckets (adj newTicks : BitVec 32) (turns : Nat) {bs : List Nat}
    (hc : Consistent m q h) (hbs : bs.Nodup) : ((∀ j ∈ bs, (q (.wheel j)).length ≤ turns) →
      (m.adjustBuckets turns adj newTicks bs).isSome) ∧
      ∀ m', m.adjustBuckets turns adj newTicks bs = some m' → ∃ q', Consistent m' q' h := by
  induction bs generalizing m q with
  | nil =>
    refine ⟨fun _ => rfl, fun m' hm' => ?_⟩
    cases hm'
    exact ⟨q, hc⟩
  | cons b bs ih =>
    obtain ⟨hb, hbs⟩ := nodup_cons.mp hbs
    obtain ⟨hsome, hkeep⟩ := hc.adjustBucket adj newTicks turns rfl
      (hc.rings.head?_eq (.wheel b))
    refine ⟨fun hle => ?_, fun m' hm' => ?_⟩
    · obtain ⟨m₁, hm₁⟩ := isSome_iff_exists.mp (hsome (hle b mem_cons_self))
      obtain ⟨q₁, hc₁, hother⟩ := hkeep m₁ hm₁
      rw [adjustBuckets, hm₁]
      refine (ih hc₁ hbs).1 fun j hj => ?_
      rw [hother j (ne_of_mem_of_not_mem hj hb)]
      exact hle j (mem_cons_of_mem _ hj)
    · obtain ⟨m₁, hm₁, hrest⟩ := bind_eq_some_iff.mp hm'
      obtain ⟨q₁, hc₁, -⟩ := hkeep m₁ hm₁
      exact (ih hc₁ hbs).2 m' hrest

theorem Consistent.adjustTicks (hc : Consistent m q h)
    (hs : m.timeoutAdjustTicks turns adj = some m') : ∃ q', Consistent m' q' h := by
  rw [timeoutAdjustTicks] at hs
  split at hs
  · cases hs
    exact ⟨q, hc⟩
  · obtain ⟨m₁, hm₁, hs⟩ := bind_eq_some_iff.mp hs
    cases hs
    obtain ⟨q', hc'⟩ := (hc.adjustBuckets adj (m.ticks + adj) turns nodup_range).2 m₁ hm₁
    exact ⟨q', hc'.effect (e := none) hc'.rings
      (.quiet (fun _ => ⟨rfl, rfl⟩) (fun _ => Iff.rfl) fun _ _ hj => .inl hj)⟩

theorem Consistent.adjustTicks_returns (hc : Consistent m q h) (adj : BitVec 32) :
    ∃ turns, (m.timeoutAdjustTicks turns adj).isSome := by
  let turns := (Finset.range (WHEELCOUNT * WHEELSIZE)).sup fun j => (q (.wheel j)).length
  have hle (j : Nat) (hj : j ∈ range (WHEELCOUNT * WHEELSIZE)) :
      (q (.wheel j)).length ≤ turns :=
    Finset.le_sup (f := fun j => (q (.wheel j)).length)
      (Finset.mem_range.mpr (mem_range.mp hj))
  refine ⟨turns, ?_⟩
  rw [timeoutAdjustTicks]
  split
  · rfl
  · obtain ⟨m₁, hm₁⟩ := isSome_iff_exists.mp
      ((hc.adjustBuckets adj (m.ticks + adj) turns nodup_range).1 hle)
    exact isSome_iff_exists.mpr ⟨_, bind_eq_some_iff.mpr ⟨m₁, hm₁, rfl⟩⟩

end AdjustTicks

theorem Consistent.startup (timeouts : ι → Timeout) (L : Links (Node ι)) (ticks : BitVec 32) :
    Consistent (.timeoutStartup timeouts L ticks) (fun _ => []) [] where
  rings := .nil fun _ => ⟨rfl, rfl⟩
  full := ⟨.nil, fun _ => iff_of_false Bool.false_ne_true nofun, nofun⟩
  triggered _ := iff_of_false Bool.false_ne_true nofun

theorem Consistent.step {call : Call ι} (hc : Consistent m q h) (hfresh : call.Fresh m)
    (hs : m.step mp call = some (m', es)) : ∃ q', Consistent m' q' (es ++ h) := by
  cases call with
  | act act =>
    obtain ⟨⟨_, called⟩, hstep, heq⟩ := map_eq_some_iff.mp hs
    cases heq
    obtain ⟨q', hr, hstep⟩ := stepAct_refines hc.rings hc.full hstep
    exact ⟨q', hc.effect hr (hc.full.effect_step hstep)⟩
  | set id kclock proc mpsafe =>
    obtain ⟨_, hset, heq⟩ := map_eq_some_iff.mp hs
    cases heq
    exact ⟨q, hc.setFlags hfresh hset⟩
  | barrier to_ b proc mpsafe =>
    obtain ⟨_, hbarrier, heq⟩ := map_eq_some_iff.mp hs
    cases heq
    exact hc.barrier hfresh hbarrier
  | adjustTicks turns adj =>
    obtain ⟨_, hadjust, heq⟩ := map_eq_some_iff.mp hs
    cases heq
    exact hc.adjustTicks hadjust
  | ret tctx =>
    cases hs
    exact ⟨q, hc.effect (e := none) hc.rings
      (.quiet (fun _ => ⟨rfl, rfl⟩) (fun _ => Iff.rfl) fun _ _ hj => .inl hj)⟩

theorem Reach.consistent (hreach : Reach mp Call.Fresh m h) : ∃ q, Consistent m q h := by
  induction hreach with
  | timeoutStartup timeouts L ticks => exact ⟨_, .startup timeouts L ticks⟩
  | step _ hfresh hs ih =>
    obtain ⟨q, hc⟩ := ih
    exact hc.step hfresh hs

/-- Whichever calls were made, a timeout says that it is on a queue exactly while it is on one
queue, every queue is a circular list, a concatenation moves all of a queue, and a timeout is
triggered exactly while a run is the last that happened to it. -/
theorem timeout_membership (hreach : Reach mp Call.Fresh m h) :
    ∃ q : Queues ι, Rings m.links q ∧ (∀ k id, id ∈ q k → k.Valid) ∧
      (∀ id, (m.timeouts id).onqueue = true ↔ ∃! k, id ∈ q k) ∧
      (∀ k ≠ .todo, Rings (m.links.concat (.inl .todo) (.inl k)) (Circq.concat q .todo k) ∧
        ∀ id, (∃ j, id ∈ Circq.concat q .todo k j) ↔ ∃ j, id ∈ q j) ∧
      (∀ id, (m.timeouts id).triggered = true ↔ LastRun h id) ∧
      ∀ adj, ∃ turns, (m.timeoutAdjustTicks turns adj).isSome := by
  obtain ⟨q, hc⟩ := hreach.consistent
  refine ⟨q, hc.rings, hc.full.valid, fun id => (hc.full.onqueue_iff id).trans ?_,
    fun k hk => ⟨hc.rings.concat hk.symm, fun id => ?_⟩, hc.triggered, hc.adjustTicks_returns⟩
  · constructor
    · rintro ⟨k, hm⟩
      exact ⟨k, hm, fun j hj => hc.rings.exclusive.unique hj hm⟩
    · exact ExistsUnique.exists
  · constructor
    · rintro ⟨j, hj⟩
      exact Circq.mem_of_concat hk.symm hj
    · rintro ⟨j, hj⟩
      exact Keeps.concat q hk.symm j id hj

def unitStartup : Mem Unit :=
  .timeoutStartup (fun _ => ⟨.none, 0, ⟨0, 0, Timespec.zero_lt⟩, false, false, false, false⟩)
    ⟨fun n => n, fun n => n⟩ 0

theorem reach_run : ∃ m : Mem Unit, Reach true Call.Fresh m [.run (), .add (), .set ()] ∧
    (m.timeouts ()).onqueue = false := by
  have hstart : Reach true Call.Fresh unitStartup [] := .timeoutStartup _ _ _
  have hset := hstart.step (c := .set () .none false false) rfl rfl
  have hadd := hset.step (c := .act (.add () 0)) trivial rfl
  have hsoft := hadd.step (c := .act .softclock) trivial rfl
  have hrun := hsoft.step (c := .act .softclockNext) trivial rfl
  exact ⟨_, hrun, rfl⟩

/-- A timeout is set, added and run. -/
theorem timeout_membership_run : ∃ (m : Mem Unit) (h : List (Event Unit)),
    Reach true Call.Fresh m h ∧ h = [.run (), .add (), .set ()] ∧
      ∃ q : Queues Unit, Rings m.links q ∧ (∀ k id, id ∈ q k → k.Valid) ∧
        (∀ id, (m.timeouts id).onqueue = true ↔ ∃! k, id ∈ q k) ∧
        (∀ k ≠ .todo, Rings (m.links.concat (.inl .todo) (.inl k)) (Circq.concat q .todo k) ∧
          ∀ id, (∃ j, id ∈ Circq.concat q .todo k j) ↔ ∃ j, id ∈ q j) ∧
        (∀ id, (m.timeouts id).triggered = true ↔ LastRun h id) ∧
        ∀ adj, ∃ turns, (m.timeoutAdjustTicks turns adj).isSome := by
  obtain ⟨m, hrun, -⟩ := reach_run
  exact ⟨m, _, hrun, rfl, timeout_membership hrun⟩

/-- `timeout_set` leaves a pending timeout on its queue without the flag, and one that has run
without its other flag. -/
theorem timeout_membership_set : (¬∀ (m : Mem Unit) h, Reach true (fun _ _ => True) m h →
      ∃ q : Queues Unit, Rings m.links q ∧ ∀ id, (m.timeouts id).onqueue = true ↔ ∃! k, id ∈ q k) ∧
      ¬∀ (m : Mem Unit) h, Reach true Call.Fresh m h → ∀ id, (m.timeouts id).triggered = true ↔
        (h.filter (· ≠ .set id)).find? (fun e => e.timeout = id) = some (.run id) := by
  constructor
  · intro hall
    have hstart : Reach true (fun _ _ => True) unitStartup [] := .timeoutStartup _ _ _
    have hset := hstart.step (c := .set () .none false false) trivial rfl
    have hadd := hset.step (c := .act (.add () 5)) trivial rfl
    have hagain := hadd.step (c := .set () .none false false) trivial rfl
    obtain ⟨q, hr, hon⟩ := hall _ _ hagain
    obtain ⟨l, hq⟩ : ∃ l, q .new = () :: l := first_eq hr (by decide) rfl
    have hnew : () ∈ q .new := hq ▸ mem_cons_self
    cases (hon ()).mpr ⟨.new, hnew, fun j hj => hr.exclusive.unique hj hnew⟩
  · intro hall
    obtain ⟨m, hrun, hon⟩ := reach_run
    have hagain := hrun.step (c := .set () .none false false) hon rfl
    cases (hall _ _ hagain ()).mpr rfl

end Mbsd.Kern.KernTimeout
