import Mbsd.Kern.SysvSem.AllOrNothing

/-! Nobody sleeps in `sys_semop` on a vector that could be carried out. -/

namespace Mbsd.Kern.SysvSem

open Mbsd.Sys List Option Function Call SysvSem.Sys

variable {π : Type} {r : Sys π × Outcome π}

def CanCarryOut (ops : List Sembuf) (d : SemidDs) : Prop :=
  ∀ pre op post, ops = pre ++ op :: post →
    op.semNum.toNat < d.semNsems ∧
    (op.semOp.toInt < 0 → 0 ≤ (d.semBase op.semNum.toNat).semval.toNat +
      total pre op.semNum.toNat + op.semOp.toInt) ∧
    (op.semOp = 0#16 →
      (d.semBase op.semNum.toNat).semval.toNat + total pre op.semNum.toNat = 0)

def Sembuf.zero (op : Sembuf) : Bool := op.semOp = 0

def Sem.cnt (sem : Sem) (zero : Bool) : BitVec 16 := if zero then sem.semzcnt else sem.semncnt

def Call.waitsAt (i n : Nat) (zero : Bool) (c : Call π) : Bool :=
  match c.phase with
  | .asleep f _ => !c.freed && c.semid = i && f.semNum.toNat = n && f.zero == zero
  | _ => false

def Sys.waiting (s : Sys π) (i n : Nat) (zero : Bool) : Nat :=
  s.calls.countP (Call.waitsAt i n zero)

def Unsatisfied (c : Call π) (d : SemidDs) (f : Sembuf) : Prop :=
  ∃ pre post, c.sops = pre ++ f :: post ∧ pre.length = c.i ∧
    ((f.semOp.toInt < 0 ∧ (d.semBase f.semNum.toNat).semval.toNat +
        total pre f.semNum.toNat + f.semOp.toInt < 0) ∨
      (f.semOp = 0#16 ∧
        (d.semBase f.semNum.toNat).semval.toNat + total pre f.semNum.toNat ≠ 0))

structure Waits (s : Sys π) : Prop where
  blocked : ∀ c ∈ s.calls, ∀ f, c.phase = .asleep f false →
    c.freed = false ∧ ∃ d, s.sema c.semid = some d ∧ Unsatisfied c d f
  counts : ∀ i d n zero, s.sema i = some d → ((d.semBase n).cnt zero).toNat = s.waiting i n zero

variable {s s' s₀ : Sys π} {c c' : Call π} {d d' : SemidDs} {f : Sembuf} {i n k : Nat} {zero : Bool}

theorem Unsatisfied.not_canCarryOut (h : Unsatisfied c d f) : ¬CanCarryOut c.sops d := by
  obtain ⟨pre, post, hs, -, hf⟩ := h
  intro hc
  obtain ⟨-, hneg, hz⟩ := hc pre f post hs
  rcases hf with ⟨h₁, h₂⟩ | ⟨h₁, h₂⟩
  · have := hneg h₁
    omega
  · exact h₂ (hz h₁)

theorem Unsatisfied.congr (h : Unsatisfied c d f)
    (hv : ∀ n, (d'.semBase n).semval = (d.semBase n).semval) : Unsatisfied c d' f := by
  obtain ⟨pre, post, hs, hl, hf⟩ := h
  exact ⟨pre, post, hs, hl, by rwa [hv]⟩

/-! ### The counters -/

theorem cnt_count (base : Nat → Sem) (v : BitVec 16) : (count base f v n).cnt zero =
    if f.semNum.toNat = n ∧ f.zero = zero then (base n).cnt zero + v else (base n).cnt zero := by
  by_cases hn : f.semNum.toNat = n
  · subst hn
    by_cases hz : f.semOp = 0#16 <;> cases zero <;> simp [count, Sem.cnt, Sembuf.zero, hz]
  · simp [count, hn, Ne.symm hn]

theorem Call.waitsAt_asleep {awake : Bool} (hp : c.phase = .asleep f awake) (hf : c.freed = false) :
    c.waitsAt i n zero = (decide (c.semid = i) && decide (f.semNum.toNat = n) && f.zero == zero) := by
  simp [waitsAt, hp, hf]

theorem Call.waitsAt_eq_false (h : c.phase = .copyin ∨ c.freed = true) :
    c.waitsAt i n zero = false := by
  unfold waitsAt
  rcases h with h | h
  · rw [h]
  · cases c.phase <;> simp [h]

theorem Call.waitsAt_awaken : c.awaken.waitsAt i n zero = c.waitsAt i n zero := by
  unfold waitsAt awaken Phase.awaken
  cases c.phase <;> rfl

theorem countP_awoken {ids : List Nat} :
    (s.awoken ids).countP (waitsAt i n zero) = s.waiting i n zero := by
  rw [awoken, countP_map, waiting]
  congr 1
  funext c
  simp only [comp_def]
  split
  · exact waitsAt_awaken
  · rfl

theorem Sys.waiting_drop (hc : s.calls[k]? = some c) :
    s.waiting i n zero = (s.drop k).waiting i n zero + (c.waitsAt i n zero).toNat := by
  obtain ⟨hk, rfl⟩ := List.getElem?_eq_some_iff.1 hc
  have hp := (getElem_cons_eraseIdx_perm hk).countP_eq (waitsAt i n zero)
  rw [waiting, ← hp, countP_cons]
  cases (s.calls[k]).waitsAt i n zero <;> rfl

theorem Waits.awoken (ids : List Nat) (h : Waits s) (hf : s'.frame = s.frame)
    (hs : ∀ i ∉ ids, s'.sema i = s.sema i) (hc : s'.calls = s.awoken ids) : Waits s' where
  blocked c' hm f hp := by
    rw [hc] at hm
    obtain ⟨c, hmem, rfl⟩ := mem_map.1 hm
    by_cases hi : c.semid ∈ ids
    · rw [if_pos hi] at hp
      cases hphase : c.phase <;> simp [awaken, Phase.awaken, hphase] at hp
    · rw [if_neg hi] at hp ⊢
      rw [hs _ hi]
      exact h.blocked c hmem f hp
  counts i d' n zero hd' := by
    have hfr := congrFun hf i
    obtain ⟨d, hd, e⟩ := map_eq_some_iff.1
      (hfr.symm.trans (congrArg (Option.map _) hd'))
    have hcnt : (d'.semBase n).cnt zero = (d.semBase n).cnt zero := by
      have := congrFun (congrArg (fun x => x.2.2) e) n
      obtain ⟨h₁, h₂⟩ := Prod.ext_iff.1 this
      cases zero
      · exact h₁.symm
      · exact h₂.symm
    rw [hcnt, waiting, hc, countP_awoken]
    exact h.counts i d n zero hd

theorem Waits.drop (h : Waits s) (hc : s.calls[k]? = some c)
    (hp : c.phase = .copyin ∨ c.freed = true) : Waits (s.drop k) where
  blocked c hm f := h.blocked c (mem_of_mem_eraseIdx hm) f
  counts i d n zero hd := by
    have := h.counts i d n zero hd
    rw [waiting_drop hc, waitsAt_eq_false hp] at this
    simpa using this

theorem Waits.blocked_count (h : Waits s) (hd : s.sema i = some d) (v : BitVec 16) (g : Sembuf) :
    ∀ c ∈ s.calls, ∀ f, c.phase = .asleep f false → c.freed = false ∧
      ∃ d', (s.setBase i d (count d.semBase g v)).sema c.semid = some d' ∧ Unsatisfied c d' f := by
  intro c hc f hp
  obtain ⟨hf, dc, hdc, hu⟩ := h.blocked c hc f hp
  refine ⟨hf, ?_⟩
  by_cases hi : c.semid = i
  · obtain rfl : d = dc := some.inj (hd.symm.trans (hi ▸ hdc))
    exact ⟨_, by rw [setBase_sema, hi, update_self], hu.congr fun n => count_semval _ _ _⟩
  · exact ⟨dc, by simpa [hi] using hdc, hu⟩

theorem Waits.counts_count {w : Nat → Nat → Bool → Nat} (h : Waits s) (hd : s.sema i = some d)
    {v : BitVec 16}
    (hw : ∀ n zero, ((if f.semNum.toNat = n ∧ f.zero = zero then (d.semBase n).cnt zero + v
      else (d.semBase n).cnt zero) : BitVec 16).toNat = w i n zero)
    (hne : ∀ j n zero, j ≠ i → s.waiting j n zero = w j n zero) :
    ∀ j d' n zero, (s.setBase i d (count d.semBase f v)).sema j = some d' →
      ((d'.semBase n).cnt zero).toNat = w j n zero := by
  intro j d' n zero hd'
  by_cases hj : j = i
  · subst hj
    obtain rfl : { d with semBase := count d.semBase f v } = d' := by simpa using hd'
    rw [cnt_count]
    exact hw n zero
  · rw [h.counts j d' n zero (by simpa [hj] using hd'), hne j n zero hj]

theorem Waits.leave {awake : Bool} (h : Waits s) (hc : s.calls[k]? = some c)
    (hp : c.phase = .asleep f awake) (hf : c.freed = false) (hd : s.sema c.semid = some d) :
    Waits ((s.drop k).setBase c.semid d (count d.semBase f (-1))) where
  blocked c' hm := h.blocked_count hd _ _ c' (List.mem_of_mem_eraseIdx hm)
  counts := by
    refine h.counts_count (w := (s.drop k).waiting) hd (fun n zero => ?_) fun j n zero hj => ?_
    · have := h.counts c.semid d n zero hd
      rw [Sys.waiting_drop hc, Call.waitsAt_asleep hp hf] at this
      by_cases hn : f.semNum.toNat = n ∧ f.zero = zero
      · have hlt := ((d.semBase n).cnt zero).isLt
        simp only [hn, decide_true, Bool.true_and, beq_self_eq_true, Bool.toNat_true] at this
        simp only [hn, and_self, if_true, BitVec.toNat_add, BitVec.toNat_neg]
        have h1 : (1 : BitVec 16).toNat = 1 := rfl
        omega
      · have hw : (decide (f.semNum.toNat = n) && f.zero == zero) = false := by simpa using hn
        simp only [decide_true, Bool.true_and, hw, Bool.toNat_false, add_zero] at this
        rw [if_neg hn, this]
    · rw [Sys.waiting_drop hc, Call.waitsAt_asleep hp hf]
      simp [Ne.symm hj]

theorem Waits.sleep (h : Waits s) (hp : c.phase = .asleep f false) (hf : c.freed = false)
    (hd : s.sema c.semid = some d) (hu : Unsatisfied c d f)
    (hlt : ((d.semBase f.semNum.toNat).cnt f.zero).toNat < 0xffff)
    (hs' : s'.sema = (s.setBase c.semid d (count d.semBase f 1)).sema)
    (hc' : s'.calls = c :: s.calls) : Waits s' where
  blocked c' hm g hg := by
    rw [hs']
    rcases List.mem_cons.1 (hc' ▸ hm) with rfl | hm
    · obtain rfl : f = g := by simpa using hp.symm.trans hg
      exact ⟨hf, _, by rw [Sys.setBase_sema, Function.update_self],
        hu.congr fun n => count_semval _ _ _⟩
    · exact h.blocked_count hd _ _ c' hm g hg
  counts := by
    rw [hs']
    refine h.counts_count (w := s'.waiting) hd (fun n zero => ?_) fun j n zero hj => ?_
    · have := h.counts c.semid d n zero hd
      rw [Sys.waiting, hc', List.countP_cons, ← Sys.waiting, ← this, Call.waitsAt_asleep hp hf]
      by_cases hn : f.semNum.toNat = n ∧ f.zero = zero
      · obtain ⟨rfl, rfl⟩ := hn
        simp only [and_self, if_true, decide_true, Bool.true_and, beq_self_eq_true,
          BitVec.toNat_add]
        have h1 : (1 : BitVec 16).toNat = 1 := rfl
        omega
      · have hw : (decide (f.semNum.toNat = n) && f.zero == zero) = false := by simpa using hn
        simp only [decide_true, Bool.true_and, hw, if_neg hn]
        simp
    · rw [Sys.waiting, Sys.waiting, hc', List.countP_cons, Call.waitsAt_asleep hp hf]
      simp [Ne.symm hj]

/-! ### A turn of the loop -/

def CounterOk (c : Call π) (d : SemidDs) : Prop :=
  ∀ f, (c.walk d).stop = .blocked f → f.nowait = false →
    ((d.semBase f.semNum.toNat).cnt f.zero).toNat < 0xffff

/-- A vector that wakes nobody gives no sleeper its zero that has changed the semaphore itself before
it has come to wait for zero. -/
def ZeroOk (s : Sys π) (c : Call π) (d : SemidDs) : Prop :=
  (c.walk d).stop = .through → ¬Wakes c.sops d.semBase →
    ∀ c' ∈ s.calls, c'.semid = c.semid → c'.freed = false → ∀ f, c'.phase = .asleep f false →
      f.semOp = 0#16 →
      (d.semBase f.semNum.toNat).semval.toNat + total c.sops f.semNum.toNat +
        total (c'.sops.take c'.i) f.semNum.toNat = 0 →
      total (c'.sops.take c'.i) f.semNum.toNat = 0

structure WakeupOk (s : Sys π) (c : Call π) (d : SemidDs) : Prop where
  efbig : EfbigOk c d
  overflow : NoOverflow (c.walk d).passed d.semBase
  counter : CounterOk c d
  zero : ZeroOk s c d

theorem Call.walk_val (h : NoOverflow (c.walk d).passed d.semBase) (n : Nat) :
    (((c.walk d).semBase n).semval.toNat : Int) =
      (d.semBase n).semval.toNat + total (c.walk d).passed n := NoOverflow.walk h n

theorem Call.walk_counts (c : Call π) (d : SemidDs) : SameCounts d.semBase (c.walk d).semBase := by
  intro n
  rw [walk, walk_semBase]
  exact ⟨rfl, rfl⟩

theorem Unsatisfied.of_blocked (h : NoOverflow (c.walk d).passed d.semBase)
    (hst : (c.walk d).stop = .blocked f) (hs : c'.sops = c.sops)
    (hi : c'.i = (c.walk d).passed.length) : Unsatisfied c' d f := by
  have hstop : StopsAt d.semNsems c.sops (c.walk d).passed (c.walk d).stop := walk_stops ..
  rw [hst] at hstop
  cases hstop with
  | @blocked _ rest e hn =>
    refine ⟨(c.walk d).passed, rest, hs.trans e, hi.symm, ?_⟩
    have hv := Call.walk_val h f.semNum.toNat
    rw [← hv]
    rcases walk_blocked hst with hb | ⟨hz, hb⟩
    · exact .inl hb
    · refine .inr ⟨hz, fun he => hb ?_⟩
      exact BitVec.eq_of_toNat_eq (by exact_mod_cast he)

theorem Unsatisfied.quiet (h : Unsatisfied c' d f) (ho : NoOverflow (c.walk d).passed d.semBase)
    (ht : (c.walk d).stop = .through) (hw : (c.walk d).doWakeup = false)
    (hcnt : 0#16 < (d.semBase f.semNum.toNat).cnt f.zero)
    (hz : ¬Wakes c.sops d.semBase → f.semOp = 0#16 →
      (d.semBase f.semNum.toNat).semval.toNat + total c.sops f.semNum.toNat +
        total (c'.sops.take c'.i) f.semNum.toNat = 0 →
      total (c'.sops.take c'.i) f.semNum.toNat = 0) :
    Unsatisfied c' { d with semBase := (c.walk d).semBase } f := by
  have hstop : StopsAt d.semNsems c.sops (c.walk d).passed (c.walk d).stop := walk_stops ..
  rw [ht] at hstop
  cases hstop with
  | through hpassed =>
  have hno : ¬Wakes c.sops d.semBase := by
    intro hwk
    rw [← hpassed] at hwk
    rw [Call.walk, walk_doWakeup _ _ ho hwk] at hw
    cases hw
  have hval := Call.walk_val ho f.semNum.toNat
  rw [hpassed] at hval
  obtain ⟨pre, post, hs, hl, hf⟩ := h
  refine ⟨pre, post, hs, hl, ?_⟩
  rw [hval]
  rcases hf with ⟨hneg, hlt⟩ | ⟨hzero, hne⟩
  · refine .inl ⟨hneg, ?_⟩
    have hle : total c.sops f.semNum.toNat ≤ 0 := by
      refine total_nonpos fun op hop hn => not_lt.1 fun hpos => hno ?_
      obtain ⟨l₁, l₂, e⟩ := append_of_mem hop
      refine ⟨l₁, op, l₂, e, .inl ⟨hpos, ?_⟩⟩
      have hfz : f.zero = false := by
        have : f.semOp ≠ 0#16 := by
          rintro e
          simp [e] at hneg
        simpa [Sembuf.zero] using this
      rw [hn]
      simpa [Sem.cnt, hfz] using hcnt
    omega
  · refine .inr ⟨hzero, fun he => hne ?_⟩
    have htake : c'.sops.take c'.i = pre := by rw [hs, ← hl, take_left]
    have hpre := hz hno hzero (by rw [htake]; exact he)
    rw [htake] at hpre
    rw [hpre, add_zero]
    by_contra hv
    obtain ⟨l₁, op, l₂, e, hn, hneg, hsum⟩ := exists_drain
      (fun pre post e => walk_prefix_nonneg (hpassed.trans e) f.semNum.toNat)
      (by rw [hpre] at he; simpa using he) hv
    refine hno ⟨l₁, op, l₂, e, .inr ⟨hneg, by rw [hn]; exact hsum, ?_⟩⟩
    have hfz : f.zero = true := by simp [Sembuf.zero, hzero]
    rw [hn]
    simpa [Sem.cnt, hfz] using hcnt

theorem Waits.of_eq (h : Waits s) (hs : s'.sema = s.sema) (hc : s'.calls = s.calls) : Waits s' where
  blocked := by
    rw [hc, hs]
    exact h.blocked
  counts i d n zero := by
    rw [hs, waiting, hc]
    exact h.counts i d n zero

theorem Waits.quiet (h : Waits s) (hd : s.sema c.semid = some d) (ht : (c.walk d).stop = .through)
    (hw : (c.walk d).doWakeup = false) (ho : WakeupOk s₀ c d) (hsub : s.calls ⊆ s₀.calls) :
    Waits (s.setBase c.semid d (c.walk d).semBase) where
  blocked c' hm f hp := by
    obtain ⟨hf, d', hd', hu⟩ := h.blocked c' hm f hp
    refine ⟨hf, ?_⟩
    by_cases hi : c'.semid = c.semid
    · obtain rfl : d = d' := some.inj (hd.symm.trans (hi ▸ hd'))
      refine ⟨{ d with semBase := (c.walk d).semBase }, by simp [hi], ?_⟩
      refine hu.quiet ho.overflow ht hw ?_ fun hwk hz he =>
        ho.zero ht hwk c' (hsub hm) hi hf f hp hz he
      have hcnt := h.counts c.semid d f.semNum.toNat f.zero hd
      have hpos : 0 < s.waiting c.semid f.semNum.toNat f.zero :=
        countP_pos_iff.2 ⟨c', hm, by simp [waitsAt_asleep hp hf, hi]⟩
      rw [BitVec.lt_def, hcnt]
      exact hpos
    · exact ⟨d', by simpa [hi] using hd', hu⟩
  counts j d' n zero hd' := by
    by_cases hj : j = c.semid
    · subst hj
      obtain rfl : { d with semBase := (c.walk d).semBase } = d' := by simpa using hd'
      have hcnt := h.counts c.semid d n zero hd
      obtain ⟨h₁, h₂⟩ := c.walk_counts d n
      cases zero
      · exact (congrArg BitVec.toNat h₁).trans hcnt
      · exact (congrArg BitVec.toNat h₂).trans hcnt
    · exact h.counts j d' n zero (by simpa [hj] using hd')

theorem Waits.removed (h : Waits s) (ix semtot : Nat) : Waits (removed s ix semtot) where
  blocked c' hm f hp := by
    rw [SysvSem.removed, wakeup_calls] at hm
    obtain ⟨c₁, hm₁, rfl⟩ := mem_map.1 hm
    obtain ⟨c, hc, rfl⟩ := mem_map.1 hm₁
    by_cases hi : c.semid = ix
    · cases hphase : c.phase <;> simp [hi, awaken, Phase.awaken, hphase] at hp
    · rw [if_neg hi, if_neg (by simpa using hi)] at hp ⊢
      obtain ⟨hf, d, hd, hu⟩ := h.blocked c hc f hp
      exact ⟨hf, d, by simpa [SysvSem.removed, free, hi] using hd, hu⟩
  counts j d n zero hd := by
    have hj : j ≠ ix := by
      rintro rfl
      simp [SysvSem.removed, free] at hd
    have hd : s.sema j = some d := by simpa [SysvSem.removed, free, hj] using hd
    rw [h.counts j d n zero hd, waiting, waiting, SysvSem.removed, wakeup_calls,
      countP_awoken, waiting, mark_calls, setSemu_calls, free, countP_map]
    refine countP_congr fun c _ => ?_
    by_cases hi : c.semid = ix
    · have hne : c.semid ≠ j := fun e => hj (e.symm.trans hi)
      unfold waitsAt
      cases hphase : c.phase <;> simp [hi, hphase, hj.symm]
    · simp [hi]

variable [DecidableEq π] {info : Seminfo} {e : Event π}

theorem Waits.conclude_ret {error : Option Errno} (h : Waits s) :
    Waits (s₀.conclude (s, .ret c error)) := h.of_eq rfl rfl

theorem Waits.tried {s₁ : Sys π} (h : Waits s)
    (hd : s.sema c.semid = some d) (hf : c.freed = false) (ho : WakeupOk s₀ c d)
    (hsub : s.calls ⊆ s₀.calls) (ht : Tried info s c d r) : Waits (s₁.conclude r) := by
  cases ht with
  | slept hst hn =>
    refine h.sleep (c := { c.counted d with
      i := (c.walk d).passed.length, phase := .asleep _ false,
      steps := (c.counted d).steps ++ [s₁.change (s.setBase c.semid d _)] }) rfl hf hd ?_
      (ho.counter _ hst hn) rfl rfl
    exact Unsatisfied.of_blocked ho.overflow hst rfl rfl
  | failed _ _ _ => exact Waits.conclude_ret (h.of_eq rfl rfl)
  | efbig hst =>
    have hbase : (c.walk d).semBase = d.semBase := by
      rw [Call.walk, walk_semBase, ← Call.walk, funext (ho.efbig hst), addShift_zero]
    rw [hbase, setBase_self hd]
    exact h.conclude_ret
  | done hst _ _ =>
    refine Waits.conclude_ret ?_
    unfold carriedOut
    cases hw : (c.walk d).doWakeup with
    | true =>
      refine h.awoken [c.semid] (frame_setBase hd (c.walk_counts d)) (fun i hi => ?_)
        wakeup_calls
      have hne : i ≠ c.semid := by simpa using hi
      simp [hne]
    | false => exact (h.quiet hd hst hw ho hsub).of_eq rfl rfl

theorem Waits.moved (h : Waits s)
    (ho : ∀ c d, Tries s e c d → WakeupOk s c d) (hc : s.calls[k]? = some c)
    (hm : Moved info s e k c r) : Waits ((s.drop k).conclude r) := by
  have hsub : (s.drop k).calls ⊆ s.calls := (eraseIdx_sublist ..).subset
  cases hm with
  | failed error hp => exact (h.drop hc hp).conclude_ret
  | left hp hf hd => exact (h.leave hc hp hf hd).conclude_ret
  | @tried sops _ _ hp hf hd _ htr ht =>
    exact (h.drop hc (.inl hp)).tried (c := { c with sops }) hd hf (ho _ _ htr) hsub ht
  | retried hp hf hd hd' htr ht =>
    subst hd'
    exact (h.leave hc hp hf hd).tried (by simp) hf (ho _ _ htr) hsub ht

theorem Waits.created (h : Waits s) (hi : Inv info s) (hd : s.sema i = none) {nsems : Nat}
    {seq : BitVec 16} {key : BitVec 32}
    (hs : s'.sema = update s.sema i (some ⟨key, seq, nsems, fun _ => ⟨0, 0, 0⟩⟩))
    (hc : s'.calls = s.calls) : Waits s' where
  blocked c hm f hp := by
    rw [hc] at hm
    rw [hs]
    obtain ⟨hf, d, hd', hu⟩ := h.blocked c hm f hp
    have hne : c.semid ≠ i := by
      rintro rfl
      rw [hd] at hd'
      cases hd'
    exact ⟨hf, d, by simpa [hne] using hd', hu⟩
  counts j d n zero hd' := by
    rw [waiting, hc, ← waiting]
    rw [hs] at hd'
    by_cases hj : j = i
    · subst hj
      have hnone : s.waiting j n zero = 0 := by
        refine countP_eq_zero.2 fun c hc hw => ?_
        cases hp : c.phase <;> simp [waitsAt, hp] at hw
        obtain ⟨d, hd'', -⟩ := hi.alive hc hw.1.1.1
        rw [hw.1.1.2, hd] at hd''
        cases hd''
      obtain rfl : _ = d := by simpa using hd'
      exact Eq.trans (by cases zero <;> rfl) hnone.symm
    · exact h.counts j d n zero (by simpa [hj] using hd')

theorem Waits.stepped (h : Waits s) (hi : Inv info s)
    (ho : ∀ c d, Tries s e c d → WakeupOk s c d) (hs : Stepped info s e s') : Waits s' := by
  have hcleared {ix : Nat} {d : SemidDs} {base : Nat → Sem} (hd : s.sema ix = some d)
      (hb : SameCounts d.semBase base) (semnum : Option Nat) (m : Mark π) :
      Waits (cleared s ix d base semnum m) := by
    refine h.awoken [ix] (frame_setBase hd hb) (fun i hi => ?_) wakeup_calls
    have hne : i ≠ ix := by simpa using hi
    simp [cleared, hne]
  cases hs with
  | same => exact h
  | refused _ _ _ => exact h.conclude_ret
  | @asked c d _ _ hp _ _ _ =>
    have hno (i n : Nat) (zero : Bool) : c.waitsAt i n zero = false := by simp [waitsAt, hp]
    constructor
    · intro c' hm f hf
      rcases mem_cons.1 hm with rfl | hm
      · rw [show _ = Phase.copyin from hp] at hf
        cases hf
      · exact h.blocked c' hm f hf
    · intro i d n zero hd
      rw [h.counts i d n zero hd]
      refine (countP_cons_of_neg ?_).symm
      rw [Bool.not_eq_true]
      exact hno i n zero
  | moved hc hm => exact h.moved ho hc hm
  | setval _ hl _ _ hb => exact hcleared (lookup_eq_some hl).1 hb _ _
  | setall hd hb => exact hcleared hd hb _ _
  | removed _ => exact h.removed _ _
  | created hd => exact h.created hi hd rfl rfl
  | gone _ => exact h.of_eq rfl rfl
  | exited _ hx => exact h.awoken _ hx.frame hx.sema hx.calls

structure NoLostWakeup (s : Sys π) : Prop where
  asleep : ∀ c ∈ s.calls, ∀ f, c.phase = .asleep f false →
    ∃ d, s.semaptr c = some d ∧ ¬CanCarryOut c.sops d
  counts : ∀ i d n zero, s.sema i = some d → ((d.semBase n).cnt zero).toNat = s.waiting i n zero

/-- In every run in which nothing overflows, and no sleeper is given its zero that has changed the
semaphore itself. -/
theorem no_lost_wakeup
    (h : Run info (fun s e => Sound s e ∧ ∀ c d, Tries s e c d → WakeupOk s c d) s) :
    NoLostWakeup s := by
  have hw : Waits s := (Run.induct (P := Waits) (fun _ _ ho => ho.1)
    ⟨by simp [seminit], by simp [seminit]⟩
    (fun _ _ _ hi hw ho hs => hw.stepped hi ho.2 hs) h).2
  refine ⟨fun c hc f hp => ?_, hw.counts⟩
  obtain ⟨hf, d, hd, hu⟩ := hw.blocked c hc f hp
  exact ⟨d, by simp [semaptr, hf, hd], hu.not_canCarryOut⟩

/-- A process sleeps until a semaphore that is zero comes up. -/
theorem no_lost_wakeup_down : ∃ s : Sys Unit,
    Run defaults (fun s e => Sound s e ∧ ∀ c d, Tries s e c d → WakeupOk s c d) s ∧
      s.waiting 0 0 false = 1 ∧ NoLostWakeup s := by
  have h₀ : Run defaults (fun s e => Sound s e ∧ ∀ c d, Tries s e c d → WakeupOk s c d)
    (seminit : Sys Unit) := .seminit
  have h₁ := h₀.step rfl rfl (by exact ⟨trivial, fun _ _ ht => by cases ht⟩) (.semget 0 1 false false none)
  have h₂ := h₁.step rfl rfl (by exact ⟨trivial, fun _ _ ht => by cases ht⟩) (.semop () 0x10000 none 1)
  have h₃ := h₂.step rfl rfl (by
      refine ⟨⟨by simp [Sembuf.records], fun _ _ => rfl, ?_⟩, ?_⟩
      · rintro c ⟨⟩
        rfl
      · rintro _ _ ⟨⟨⟩, -, -, ⟨⟩⟩
        refine ⟨by rintro ⟨⟩, fun pre op post e => ?_, ?_, by rintro ⟨⟩⟩
        · exact absurd e.symm (append_ne_nil_of_right_ne_nil _ (cons_ne_nil _ _))
        · rintro f ⟨⟩ -
          decide)
    (.copied (k := 0) (.ok [⟨0, -1, false, false⟩]) (fun _ _ => true) rfl rfl
      (by rintro _ ⟨⟩; rfl))
  exact ⟨_, h₃, rfl, no_lost_wakeup h₃⟩

/-- One process waits for zero behind its own decrement, and another takes the semaphore from 2
to 1. -/
theorem not_no_lost_wakeup :
    ¬∀ s : Sys Bool, Run defaults (fun _ _ => True) s → NoLostWakeup s := by
  intro h
  have h₀ : Run defaults (fun _ _ => True) (seminit : Sys Bool) := .seminit
  have h₁ := h₀.step rfl rfl trivial (.semget 0 1 false false none)
  have h₂ := h₁.step rfl rfl trivial (.setval 0x10000 none 0 2)
  have h₃ := h₂.step rfl rfl trivial (.semop true 0x10000 none 2)
  have h₄ := h₃.step rfl rfl trivial
    (.copied (k := 0) (.ok [⟨0, -1, false, false⟩, ⟨0, 0, false, false⟩]) (fun _ _ => true) rfl rfl
      (by rintro _ ⟨⟩; rfl))
  have h₅ := h₄.step rfl rfl trivial (.semop false 0x10000 none 1)
  have h₆ := h₅.step rfl rfl trivial
    (.copied (k := 0) (.ok [⟨0, -1, false, false⟩]) (fun _ _ => true) rfl rfl
      (by rintro _ ⟨⟩; rfl))
  obtain ⟨d, hd, hno⟩ := (h _ h₆).asleep _ (mem_singleton.2 rfl) ⟨0, 0, false, false⟩ rfl
  cases hd
  refine hno fun pre op post e => ?_
  rcases pre with _ | ⟨x, _ | ⟨y, pre⟩⟩
  · cases e
    decide
  · cases e
    decide
  · cases pre <;> cases e

end Mbsd.Kern.SysvSem
