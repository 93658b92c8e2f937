import Mbsd.Kern.KernTimeout.Model

/-! A timeout is on at most one queue, and only while it says so. -/

namespace Mbsd.Kern.KernTimeout

open Lib Sys List Option Function St

variable {ι : Type} {s s' : St ι} {id : ι} {called : Option ι} {mp : Bool} {q : Queues ι}
  {k : Queue} {t : Timeout} {r : St ι × Nat}

structure St.Inv (s : St ι) : Prop where
  exclusive : Circq.Exclusive s.queues
  onqueue : ∀ k id, id ∈ s.queues k → (s.timeouts id).onqueue = true

structure St.Detached (s : St ι) (id : ι) : Prop where
  inv : s.Inv
  notMem : ∀ k, id ∉ s.queues k
  onqueue : (s.timeouts id).onqueue = true

structure ToTodo (q q' : Queues ι) : Prop where
  exclusive : Circq.Exclusive q → Circq.Exclusive q'
  mem : ∀ k id, id ∈ q' k → ∃ j, id ∈ q j
  keep : ∀ k id, k ≠ .todo → id ∈ q' k → id ∈ q k

theorem ToTodo.refl (q : Queues ι) : ToTodo q q :=
  ⟨fun h => h, fun k _ h => ⟨k, h⟩, fun _ _ _ h => h⟩

theorem ToTodo.trans {q' q'' : Queues ι} (h : ToTodo q q') (h' : ToTodo q' q'') :
    ToTodo q q'' where
  exclusive hq := h'.exclusive (h.exclusive hq)
  mem k id hm := by
    obtain ⟨j, hj⟩ := h'.mem k id hm
    exact h.mem j id hj
  keep k id hk hm := h.keep k id hk (h'.keep k id hk hm)

theorem ToTodo.concat (q : Queues ι) (hk : Queue.todo ≠ k) :
    ToTodo q (Circq.concat q .todo k) where
  exclusive hq := hq.concat hk
  mem _ _ hm := Circq.mem_of_concat hk hm
  keep j id hj hm := by
    rcases (Circq.mem_concat hk).mp hm with ⟨rfl, -⟩ | ⟨-, -, hm⟩
    · exact absurd rfl hj
    · exact hm

theorem moveBuckets_induct {P : Queues ι → Queues ι → Prop} {ticks : BitVec 32}
    (htrans : ∀ q q' q'', P q q' → P q' q'' → P q q'')
    (hmove : ∀ q wheel, P q (moveBucket ticks q wheel)) (q : Queues ι) :
    P q (moveBuckets ticks q) := by
  unfold moveBuckets
  split
  · refine htrans _ _ _ (hmove q 0) ?_
    split
    · refine htrans _ _ _ (hmove _ 1) ?_
      split
      · exact htrans _ _ _ (hmove _ 2) (hmove _ 3)
      · exact hmove _ 2
    · exact hmove _ 1
  · exact hmove q 0

theorem toTodo_moveBuckets (ticks : BitVec 32) (q : Queues ι) : ToTodo q (moveBuckets ticks q) :=
  moveBuckets_induct (fun _ _ _ => .trans) (fun q _ => .concat q nofun) q

theorem toTodo_dump (l : List Nat) (q : Queues ι) :
    ToTodo q (l.foldl (fun q b => Circq.concat q .todo (.wheelKc b)) q) := by
  induction l generalizing q with
  | nil => exact .refl q
  | cons b l ih => exact (ToTodo.concat q (k := .wheelKc b) nofun).trans (ih _)

namespace St

def DueNow (s : St ι) (id : ι) : Prop :=
  (s.timeouts id).toKclock = .none → ((s.timeouts id).toTime - s.ticks).toInt ≤ 0

inductive Goes (s : St ι) (id : ι) : Queue → Prop
  | wheel (b : Nat) : (s.timeouts id).toKclock = .none → Goes s id (.wheel b)
  | wheelKc (b : Nat) : (s.timeouts id).toKclock = .uptime →
      timespecLt s.kcLastscan (s.timeouts id).toAbstime = true →
      s.timeoutBucket (s.timeouts id) = some b → Goes s id (.wheelKc b)
  | proc : s.DueNow id → Goes s id .proc
  | procMp : s.DueNow id → Goes s id .procMp

theorem Inv.toTodo (h : s.Inv) (hq : ToTodo s.queues q) :
    { s with queues := q }.Inv where
  exclusive := hq.exclusive h.exclusive
  onqueue k id hm := by
    obtain ⟨j, hj⟩ := hq.mem k id hm
    exact h.onqueue j id hj

theorem Detached.insert (h : s.Detached id) (k : Queue) :
    { s with queues := Circq.insertTail s.queues k id }.Inv where
  exclusive := h.inv.exclusive.insertTail h.notMem
  onqueue j i hi := by
    rcases Circq.mem_insertTail.mp hi with hi | ⟨-, rfl⟩
    · exact h.inv.onqueue j i hi
    · exact h.onqueue

theorem Inv.not_mem (h : s.Inv) (ho : (s.timeouts id).onqueue = false) (k : Queue) :
    id ∉ s.queues k := fun hm => by
  have := h.onqueue k id hm
  rw [ho] at this
  exact nomatch this

variable [DecidableEq ι]

theorem Inv.detach (h : s.Inv) (hm : id ∈ s.queues k) :
    { s with queues := Circq.remove s.queues id }.Detached id where
  inv := ⟨h.exclusive.remove, fun k j hj => h.onqueue k j (Circq.mem_remove.mp hj).1⟩
  notMem _ hj := (Circq.mem_remove.mp hj).2 rfl
  onqueue := h.onqueue k id hm

theorem Inv.setTimeout (h : s.Inv) (hn : ∀ k, id ∉ s.queues k) (t : Timeout) :
    (s.setTimeout id t).Inv where
  exclusive := h.exclusive
  onqueue k i hi := by
    have hne : i ≠ id := fun heq => hn k (heq ▸ hi)
    show (update s.timeouts id t i).onqueue = true
    rw [update_of_ne hne]
    exact h.onqueue k i hi

theorem Inv.setTimeout_onqueue (h : s.Inv) (ht : t.onqueue = true) (id : ι) :
    (s.setTimeout id t).Inv where
  exclusive := h.exclusive
  onqueue k i hi := by
    show (update s.timeouts id t i).onqueue = true
    by_cases hne : i = id
    · rw [hne, update_self, ht]
    · rw [update_of_ne hne]
      exact h.onqueue k i hi

theorem Inv.requeue (h : s.Inv) (ht : t.onqueue = true) (earlier : Bool) :
    { s.setTimeout id t with queues := s.requeue id earlier }.Inv := by
  have hset := h.setTimeout_onqueue ht id
  have hon : ((s.setTimeout id t).timeouts id).onqueue = true := by
    show (update s.timeouts id t id).onqueue = true
    rw [update_self, ht]
  unfold St.requeue
  cases ho : (s.timeouts id).onqueue with
  | false => exact Detached.insert ⟨hset, h.not_mem ho, hon⟩ .new
  | true =>
    cases earlier with
    | false => exact hset
    | true =>
      have hrem : { s.setTimeout id t with queues := Circq.remove s.queues id }.Detached id :=
        ⟨⟨h.exclusive.remove, fun k j hj => hset.onqueue k j (Circq.mem_remove.mp hj).1⟩,
          fun _ hj => (Circq.mem_remove.mp hj).2 rfl, hon⟩
      exact hrem.insert .new

theorem Inv.of_mem_requeue (h : s.Inv) {earlier : Bool} {j : ι} (hk : k ≠ .new)
    (hm : j ∈ s.requeue id earlier k) : j ∈ s.queues k ∧ (j = id → earlier = false) := by
  unfold St.requeue at hm
  cases ho : (s.timeouts id).onqueue with
  | false =>
    rw [ho, if_neg Bool.false_ne_true] at hm
    have hj := (Circq.mem_insertTail.mp hm).resolve_right fun hn => hk hn.1
    exact ⟨hj, fun heq => absurd (heq ▸ hj) (h.not_mem ho k)⟩
  | true =>
    rw [ho, if_pos rfl] at hm
    cases earlier with
    | false => exact ⟨hm, fun _ => rfl⟩
    | true =>
      have hj := (Circq.mem_insertTail.mp hm).resolve_right fun hn => hk hn.1
      obtain ⟨hj, hne⟩ := Circq.mem_remove.mp hj
      exact ⟨hj, fun heq => absurd heq hne⟩

theorem Inv.timeoutDel (h : s.Inv) (id : ι) : (s.timeoutDel id).1.Inv := by
  unfold St.timeoutDel
  dsimp only
  cases ho : (s.timeouts id).onqueue with
  | false => exact h.setTimeout (h.not_mem ho) _
  | true =>
    have hrem : { s with queues := Circq.remove s.queues id }.Inv :=
      ⟨h.exclusive.remove, fun k j hj => h.onqueue k j (Circq.mem_remove.mp hj).1⟩
    exact hrem.setTimeout (fun _ hj => (Circq.mem_remove.mp hj).2 rfl) _

theorem Detached.run (h : s.Detached id) : (s.timeoutRun id).Inv := h.inv.setTimeout h.notMem _

inductive Processed (s : St ι) (id : ι) : St ι → Option ι → Prop
  | queued (k : Queue) : s.Goes id k →
      Processed s id { s with queues := Circq.insertTail (Circq.remove s.queues id) k id } none
  | run : s.DueNow id →
      Processed s id ({ s with queues := Circq.remove s.queues id }.timeoutRun id) (some id)

theorem processed_of_due (hdue : s.DueNow id)
    (hs : { s with queues := Circq.remove s.queues id }.processDue mp id = (s', called)) :
    s.Processed id s' called := by
  unfold processDue at hs
  dsimp only at hs
  split at hs
  · split at hs
    · cases hs
      exact .queued .procMp (.procMp hdue)
    · cases hs
      exact .queued .proc (.proc hdue)
  · cases hs
    exact .run hdue

theorem softclockNext_cases (hs : s.softclockNext mp = some (s', called)) :
    (s' = { s with softclock := false } ∧ called = none) ∨
      ∃ id, id ∈ s.queues .todo ∧ s.Processed id s' called := by
  unfold softclockNext at hs
  cases htodo : s.queues .todo with
  | nil =>
    rw [htodo] at hs
    cases hs
    exact .inl ⟨rfl, rfl⟩
  | cons id rest =>
    rw [htodo] at hs
    refine .inr ⟨id, mem_cons_self, ?_⟩
    dsimp only at hs
    cases hk : (s.timeouts id).toKclock with
    | none =>
      rw [hk] at hs
      simp only [softclockProcessTickTimeout, some.injEq] at hs
      split at hs
      · cases hs
        exact .queued _ (.wheel _ hk)
      · next hdelta => exact processed_of_due (fun _ => not_lt.mp hdelta) hs
    | uptime =>
      rw [hk] at hs
      simp only [softclockProcessKclockTimeout] at hs
      split at hs
      · next hlt =>
        simp only [bind_eq_bind, bind_eq_some_iff] at hs
        obtain ⟨b, hb, hs⟩ := hs
        cases hs
        exact .queued _ (.wheelKc b hk hlt hb)
      · have hdue : s.DueNow id := fun h => by
          rw [hk] at h
          exact nomatch h
        exact processed_of_due hdue (some.inj hs)

theorem Inv.softclockNext (h : s.Inv) (hs : s.softclockNext mp = some (s', called)) : s'.Inv := by
  rcases softclockNext_cases hs with ⟨rfl, -⟩ | ⟨id, htodo, hp⟩
  · exact ⟨h.exclusive, h.onqueue⟩
  · cases hp with
    | queued k => exact (h.detach htodo).insert k
    | run => exact (h.detach htodo).run

theorem Inv.softclockThreadRun (h : s.Inv) (queue : Queue) :
    (s.softclockThreadRun queue).1.Inv := by
  unfold St.softclockThreadRun
  cases hq : s.queues queue with
  | nil => exact h
  | cons id rest => exact (h.detach (k := queue) (hq ▸ mem_cons_self)).run

end St

theorem toTodo_hardclockUpdate [DecidableEq ι] (s : St ι) (now : Timespec) :
    ToTodo s.queues (s.timeoutHardclockUpdate now).queues :=
  (toTodo_moveBuckets s.ticks s.queues).trans (toTodo_dump _ _)

theorem timeoutStartup_inv (timeouts : ι → Timeout) (ticks : BitVec 32) :
    (timeoutStartup timeouts ticks).Inv :=
  ⟨.nil, fun _ _ hm => absurd hm not_mem_nil⟩

variable [DecidableEq ι] {act : Act ι}

theorem step_add {toTicks : BitVec 32}
    (h : s.step mp (.add id toTicks) = some (s', called)) : called = none ∧
      s' = { s.setTimeout id { s.timeouts id with
          toTime := toTicks + s.ticks, triggered := false, onqueue := true } with
        queues := s.requeue id (toTicks.slt ((s.timeouts id).toTime - s.ticks)) } := by
  obtain ⟨r, hr, heq⟩ := map_eq_some_iff.mp h
  cases heq
  unfold timeoutAdd at hr
  simp only [bind_eq_bind, bind_eq_some_iff] at hr
  obtain ⟨_, -, _, -, hr⟩ := hr
  rw [BitVec.add_sub_cancel] at hr
  cases hr
  exact ⟨rfl, rfl⟩

theorem step_absTs {abstime : Timespec}
    (h : s.step mp (.absTs id abstime) = some (s', called)) : called = none ∧
      s' = { s.setTimeout id { s.timeouts id with
          toAbstime := abstime, triggered := false, onqueue := true } with
        queues := s.requeue id (timespecLt abstime (s.timeouts id).toAbstime) } := by
  obtain ⟨r, hr, heq⟩ := map_eq_some_iff.mp h
  cases heq
  unfold timeoutAbsTs at hr
  simp only [bind_eq_bind, bind_eq_some_iff] at hr
  obtain ⟨_, -, hr⟩ := hr
  cases hr
  exact ⟨rfl, rfl⟩

theorem St.Inv.step (h : s.Inv) (hs : s.step mp act = some (s', called)) : s'.Inv := by
  cases act with
  | add id toTicks =>
    obtain ⟨rfl, rfl⟩ := step_add hs
    exact h.requeue rfl _
  | absTs id abstime =>
    obtain ⟨rfl, rfl⟩ := step_absTs hs
    exact h.requeue rfl _
  | del id =>
    cases hs
    exact h.timeoutDel id
  | tick =>
    cases hs
    exact ⟨h.exclusive, h.onqueue⟩
  | hardclockUpdate now =>
    cases hs
    have hq := h.toTodo (toTodo_hardclockUpdate s now)
    exact ⟨hq.exclusive, hq.onqueue⟩
  | softclock =>
    simp only [step] at hs
    split at hs
    · cases hs
    · cases hs
      have hq := h.toTodo (ToTodo.concat s.queues (k := .new) nofun)
      exact ⟨hq.exclusive, hq.onqueue⟩
  | softclockNext =>
    simp only [step] at hs
    split at hs
    · exact h.softclockNext hs
    · cases hs
  | thread =>
    have := h.softclockThreadRun .proc
    rwa [some.inj hs] at this
  | threadMp =>
    have := h.softclockThreadRun .procMp
    rwa [some.inj hs] at this

def Along (mp : Bool) (P : St ι → Act ι → Prop) (s : St ι) : List (Act ι) → Prop
  | [] => True
  | act :: acts =>
    P s act ∧ ∀ s' called, s.step mp act = some (s', called) → Along mp P s' acts

def Always (mp : Bool) (Q : Act ι → St ι → Option ι → Prop) (s : St ι) : List (Act ι) → Prop
  | [] => True
  | act :: acts =>
    ∀ s' called, s.step mp act = some (s', called) → Q act s' called ∧ Always mp Q s' acts

theorem Always.of_inv {I : St ι → Prop} {P : St ι → Act ι → Prop}
    {Q : Act ι → St ι → Option ι → Prop} (hstep : ∀ {s act s' called}, s.Inv → I s → P s act →
      s.step mp act = some (s', called) → I s' ∧ Q act s' called)
    (hinv : s.Inv) (hI : I s) (acts : List (Act ι)) (h : Along mp P s acts) :
    Always mp Q s acts := by
  induction acts generalizing s with
  | nil => trivial
  | cons act acts ih =>
    intro s' called hs
    obtain ⟨hI', hQ⟩ := hstep hinv hI h.1 hs
    exact ⟨hQ, ih (hinv.step hs) hI' (h.2 s' called hs)⟩

end Mbsd.Kern.KernTimeout
