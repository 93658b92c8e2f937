import Mbsd.Kern.SysvMsg.Messages

/-! A queue from `que_create` to `que_free`, and processes that refer to no queue. -/

namespace Mbsd.Kern.SysvMsg

open Lib.Tally Sys State List Option Function Phase

variable {s s' : State} {i q : Nat} {p p' : Phase} {que que' : Que} {m : Msg} {ix : Nat → Nat}
  {new nextix : Nat} {l : List Nat}

def Phase.Idle (p : Phase) : Prop := p.held = none ∧ p.removed = none

structure Weightless (w : Phase → Nat) : Prop where
  idle {p : Phase} : p.Idle → w p = 0

theorem Phase.Idle.carried (h : p.Idle) : p.carried = none := by
  cases p <;> first | rfl | cases h.1

theorem Phase.Idle.read (h : p.Idle) : p.read = none := by
  cases p <;> first | rfl | cases h.1

theorem Phase.Idle.msgsz (h : p.Idle) : p.msgsz = 0 := by
  cases p <;> first | rfl | cases h.1

theorem weightless_refs (q : Nat) : Weightless (refs q) :=
  ⟨fun h => by rw [refs, h.1]; rfl⟩

theorem weightless_removes (q : Nat) : Weightless (removes q) :=
  ⟨fun h => by rw [Phase.removes, h.2]; rfl⟩

theorem weightless_promised (q : Nat) : Weightless (promised q) :=
  ⟨fun {p} h => by cases p <;> first | rfl | cases h.1⟩

theorem weightless_allocated : Weightless allocated := ⟨fun h => if_pos h.carried⟩

theorem weightless_carries (id : Nat) : Weightless (carries id) :=
  ⟨fun h => by rw [carries, h.carried]; rfl⟩

theorem weightless_reads (id : Nat) : Weightless (reads id) :=
  ⟨fun h => by rw [reads, h.read]; rfl⟩

theorem Inv.procs (h : Inv s) {procs : List Phase} {awake : Nat → Bool}
    (htally : ∀ w, Weightless w → tally w procs = tally w s.procs)
    (hproc : ∀ j p, procs[j]? = some p →
      p.Idle ∨ s.procs[j]? = some p ∧ (awake j = true → s.awake j = true)) :
    Inv { s with procs, awake } := by
  have hold : ∀ j p, procs[j]? = some p → ¬p.Idle →
      s.procs[j]? = some p ∧ (awake j = true → s.awake j = true) :=
    fun j p hp hidle => (hproc j p hp).resolve_left hidle
  refine ⟨h.faulted, ?_, ?_, ?_⟩
  · constructor
    case references =>
      intro q que hq
      rw [htally _ (weightless_refs q)]
      exact h.refs.references hq
    case removers =>
      intro q que hq
      rw [htally _ (weightless_removes q)]
      exact h.refs.removers hq
    case alive =>
      intro j q p hp hk
      refine h.refs.alive (hold j p hp ?_).1 hk
      rintro ⟨hheld, hremoved⟩
      rcases hk with hk | hk
      · cases hheld.symm.trans hk
      · cases hremoved.symm.trans hk
    case awake =>
      intro j q hp ha
      obtain ⟨hp, ha'⟩ := hold j _ hp fun hidle => nomatch hidle.2
      rw [htally _ (weightless_refs q)]
      exact h.refs.awake hp (ha' ha)
    case listed => exact h.refs.listed
    case nodup => exact h.refs.nodup
  · constructor
    case qnum => exact h.counts.qnum
    case cbytes => exact h.counts.cbytes
    case room =>
      intro q que hq hlow
      rw [htally _ (weightless_promised q)]
      exact h.counts.room hq hlow
    case numMsgs =>
      rw [htally _ weightless_allocated]
      exact h.counts.numMsgs
  · constructor
    case once =>
      intro id
      have hid := h.custody.once id
      unfold occ at hid ⊢
      rw [htally _ (weightless_carries id)]
      exact hid
    case readers =>
      intro id
      rw [htally _ (weightless_reads id)]
      exact h.custody.readers id
    case length => exact h.custody.length
    case size =>
      intro j p hp
      rcases hproc j p hp with hidle | ⟨hp, -⟩
      · rw [hidle.msgsz]
        exact Nat.zero_le _
      · exact h.custody.size hp
    case selected =>
      intro j q msgsz m msgtyp hp
      exact h.custody.selected (hold j _ hp fun hidle => nomatch hidle.1).1
    case queued => exact h.custody.queued
    case kept => exact h.custody.kept
    case old => exact h.custody.old
    case received => exact h.custody.received

theorem Inv.idle (h : Inv s) (hp : s.procs[i]? = some p) (hidle : p.Idle) (hidle' : p'.Idle) :
    Inv (s.goOn i p') := by
  have hi := (List.getElem?_eq_some_iff.1 hp).1
  refine h.procs (fun w hw => tally_set_eq hp ?_) fun j x hx => ?_
  · rw [hw.idle hidle, hw.idle hidle']
  · rcases eq_or_ne j i with rfl | hj
    · rw [getElem?_set_self hi] at hx
      exact .inl (some.inj hx ▸ hidle')
    · rw [getElem?_set_ne hj.symm] at hx
      exact .inr ⟨hx, fun ha => by rwa [update_of_ne hj] at ha⟩

theorem Inv.fork (h : Inv s) : Inv { s with procs := s.procs ++ [.returned (.ok 0)] } := by
  refine h.procs (fun w hw => ?_) fun j x hx => ?_
  · rw [tally_append, tally_cons, hw.idle ⟨rfl, rfl⟩]
    rfl
  · rcases Nat.lt_or_ge j s.procs.length with hj | hj
    · rw [getElem?_append_left hj] at hx
      exact .inr ⟨hx, id⟩
    · rw [getElem?_append_right hj] at hx
      obtain rfl := mem_singleton.1 (mem_of_getElem? hx)
      exact .inl ⟨rfl, rfl⟩

theorem Phase.removes_rmWait (q : Nat) : (rmWait q).removes q = 1 := if_pos rfl

theorem Running.remove (h : Running s i q) (hq : s.que q = some que) (hd : que.dying = false)
    (hque : que' = { que with dying := true, queReferences := que.queReferences - 1 }) :
    Inv (({ s with msgQueues := s.msgQueues.erase q }.setQue q que').goOn i (.rmWait q)) := by
  subst hque
  set que' : Que := { que with dying := true, queReferences := que.queReferences - 1 }
  set s' := ({ s with msgQueues := s.msgQueues.erase q }.setQue q que').goOn i (.rmWait q) with hs'
  have c : Change (s.goOn i (.statCopyout q)) s' i q (.statCopyout q) (.rmWait q) que que' :=
    ⟨h.proc, hq, rfl, by simp [hs', State.goOn, State.setQue]⟩
  have hrefs := h.inv.refs
  have hnodup : s.msgQueues.Nodup := hrefs.nodup
  have herase : ∀ k, k ∈ s'.msgQueues ↔ k ≠ q ∧ k ∈ s.msgQueues := fun k =>
    hnodup.mem_erase_iff
  have hnone : tally (removes q) (s.goOn i (.statCopyout q)).procs = 0 := by
    rw [hrefs.removers hq, hd]
    rfl
  refine ⟨h.inv.faulted, ?_,
    h.inv.counts.change c (h.inv.counts.qnum hq :) (h.inv.counts.cbytes hq :)
      (fun hlow => c.room h.inv.counts hlow (Nat.le_refl _)) (fun _ _ => Nat.le_refl _) rfl,
    h.inv.custody.change c (fun _ => Nat.le_refl _) (fun _ => .inl (Nat.le_refl _))
      (fun m hm => h.inv.custody.length hq hm) (Nat.zero_le _) (fun _ _ _ _ _ _ hsel => hsel)
      (fun _ _ _ _ hx => by cases hx) (Subset.refl _) (fun hd => by cases hd)
      (fun m hm => ?_) (fun e he => .inl he) (Subset.refl _) erase_subset (fun r hr => .inl hr)⟩
  · constructor
    case references =>
      intro k x hx
      have htally := c.tally_procs (refs k)
      have hrm : (rmWait q).refs k = 0 := rfl
      rcases c.que_cases hx with ⟨rfl, rfl⟩ | ⟨hk, hx⟩
      · have hone : (statCopyout k).refs k = 1 := refs_pos rfl
        have hself := hrefs.references hq
        show que.queReferences - 1 = _
        omega
      · have hzero : (statCopyout q).refs k = 0 :=
          if_neg fun he => hk (some.inj he).symm
        rw [hrefs.references hx]
        omega
    case removers =>
      intro k x hx
      have htally := c.tally_procs (removes k)
      have hzero : (statCopyout q).removes k = 0 := rfl
      rcases c.que_cases hx with ⟨rfl, rfl⟩ | ⟨hk, hx⟩
      · have hone := removes_rmWait k
        show _ = 1
        omega
      · have hrm : (rmWait q).removes k = 0 := if_neg fun he => hk (some.inj he).symm
        rw [← hrefs.removers hx]
        omega
    case alive =>
      intro j k x hx hk
      rcases c.proc_cases hx with ⟨rfl, rfl⟩ | ⟨-, hx⟩
      · rcases hk with hk | hk
        · cases hk
        · obtain rfl : q = k := some.inj hk
          exact ⟨que', c.que_self⟩
      · obtain ⟨y, hy⟩ := hrefs.alive hx hk
        rcases eq_or_ne k q with rfl | hkq
        · exact ⟨que', c.que_self⟩
        · exact ⟨y, (c.que_ne hkq).trans hy⟩
    case awake =>
      intro j k hj ha
      rcases c.proc_cases hj with ⟨rfl, -⟩ | ⟨hji, hj⟩
      · simp [hs', State.goOn] at ha
      · have hkq : k ≠ q := by
          rintro rfl
          have hzero := tally_eq_zero.1 hnone _ (mem_of_getElem? hj)
          rw [removes_rmWait] at hzero
          cases hzero
        have htally := c.tally_procs (refs k)
        have hrm : (rmWait q).refs k = 0 := rfl
        have hzero := hrefs.awake hj ha
        omega
    case listed =>
      intro k
      rw [herase]
      rcases eq_or_ne k q with rfl | hk
      · simp [c.que_self, que']
      · rw [c.que_ne hk, ← hrefs.listed]
        exact and_iff_right hk
    case nodup => exact hnodup.erase q
  · rcases hm with ⟨x, hx, hm⟩ | ⟨r, hr, hrm⟩ | hm
    · refine .inr (.inr fun hin => ((herase q).1 hin).1 rfl)
    · exact .inr (.inl ⟨r, hr, hrm⟩)
    · exact .inr (.inr fun hin => hm ((herase q).1 hin).2)

theorem Inv.free (h : Inv s) (hp : s.procs[i]? = some (.rmWait q)) (hq : s.que q = some que)
    (hnone : tally (Phase.refs q) s.procs = 0) (r : Except Errno Nat) :
    Inv ((queFree s q que).goOn i (.returned r)) := by
  have hfree : ¬0 < que.queReferences := by
    rw [h.refs.references hq, hnone]
    exact Nat.lt_irrefl 0
  rw [queFree, if_neg hfree]
  set s' : State := { s with
    heap := s.heap.set q none
    numMsgs := s.numMsgs - que.queMsgs.length
    numQues := s.numQues - 1 }.goOn i (.returned r) with hs'
  have hheap := que_eq_some.1 hq
  have hgone : s'.que q = none := by
    simp [hs', State.que, State.goOn, (List.getElem?_eq_some_iff.1 hheap).1]
  have hother : ∀ k ≠ q, s'.que k = s.que k := fun k hk => by
    simp [hs', State.que, State.goOn, getElem?_set_ne hk.symm]
  have hkeep : ∀ {k x}, s'.que k = some x → k ≠ q ∧ s.que k = some x := fun {k x} hx => by
    rcases eq_or_ne k q with rfl | hk
    · cases hgone.symm.trans hx
    · exact ⟨hk, hother k hk ▸ hx⟩
  have hprocs : ∀ {j x}, s'.procs[j]? = some x → x = .returned r ∨ j ≠ i ∧ s.procs[j]? = some x :=
    fun {j x} hx => by
      have hx : (s.procs.set i (.returned r))[j]? = some x := hx
      rcases eq_or_ne j i with rfl | hj
      · rw [getElem?_set_self (List.getElem?_eq_some_iff.1 hp).1] at hx
        exact Or.inl (some.inj hx).symm
      · exact Or.inr ⟨hj, getElem?_set_ne hj.symm ▸ hx⟩
  have hsame : ∀ w : Phase → Nat, w (.rmWait q) = w (.returned r) →
      tally w s'.procs = tally w s.procs := fun w hw => tally_set_eq hp hw.symm
  have hdying : que.dying = true := by
    by_contra hd
    have hzero := h.refs.removers hq
    rw [if_neg hd] at hzero
    have hzero := tally_eq_zero.1 hzero _ (mem_of_getElem? hp)
    rw [Phase.removes_rmWait] at hzero
    cases hzero
  have hplace := fun w => tally_set w hheap (none : Option Que)
  refine ⟨h.faulted, ?_, ?_, ?_⟩
  · constructor
    case references =>
      intro k x hx
      rw [hsame _ rfl]
      exact h.refs.references (hkeep hx).2
    case removers =>
      intro k x hx
      obtain ⟨hk, hx⟩ := hkeep hx
      rw [hsame _ (if_neg fun he => hk (some.inj he).symm)]
      exact h.refs.removers hx
    case alive =>
      intro j k x hx hk
      rcases hprocs hx with rfl | ⟨hj, hold⟩
      · rcases hk with hk | hk <;> cases hk
      · obtain ⟨y, hy⟩ := h.refs.alive hold hk
        refine ⟨y, (hother k ?_).trans hy⟩
        rintro rfl
        rcases hk with hk | hk
        · have hzero := tally_eq_zero.1 hnone _ (mem_of_getElem? hold)
          rw [Phase.refs_pos hk] at hzero
          cases hzero
        · have htwo := add_le_tally (w := Phase.removes k) hold hp hj
          rw [h.refs.removers hq, if_pos hdying, Phase.removes_rmWait, Phase.removes,
            if_pos hk] at htwo
          omega
    case awake =>
      intro j k hx ha
      rcases hprocs hx with hx | ⟨hj, hx⟩
      · cases hx
      · rw [hsame _ rfl]
        refine h.refs.awake hx ?_
        simpa [hs', State.goOn, update_of_ne hj] using ha
    case listed =>
      intro k
      show k ∈ s.msgQueues ↔ _
      rw [h.refs.listed]
      rcases eq_or_ne k q with rfl | hk
      · simp [hq, hgone, hdying]
      · rw [hother k hk]
    case nodup => exact h.refs.nodup
  · constructor
    case qnum => exact fun hx => h.counts.qnum (hkeep hx).2
    case cbytes => exact fun hx => h.counts.cbytes (hkeep hx).2
    case room =>
      intro k x hx hlow
      rw [hsame _ rfl]
      exact h.counts.room (hkeep hx).2 hlow
    case numMsgs =>
      have hlen := hplace fun o => (queMsgsAt o).length
      have hcount := h.counts.numMsgs
      have hat : (queMsgsAt (some que)).length = que.queMsgs.length := rfl
      have hempty : (queMsgsAt none).length = 0 := rfl
      rw [hsame _ rfl]
      show s.numMsgs - que.queMsgs.length = tally _ (s.heap.set q none) + _
      omega
  · constructor
    case once =>
      intro id
      have hid := h.custody.once id
      have hcount := hplace fun o => countId id (queMsgsAt o)
      have hempty : countId id (queMsgsAt none) = 0 := rfl
      unfold State.occ at hid ⊢
      rw [hsame _ rfl]
      show tally _ (s.heap.set q none) + _ + s.received.countP (·.msg.id = id) ≤
        if id < s.nextMsg then 1 else 0
      omega
    case readers =>
      intro id
      rw [hsame _ rfl]
      exact h.custody.readers id
    case length => exact fun hx => h.custody.length (hkeep hx).2
    case size =>
      intro j x hx
      rcases hprocs hx with rfl | ⟨-, hx⟩
      · exact Nat.zero_le _
      · exact h.custody.size hx
    case selected =>
      intro j k msgsz m msgtyp hx
      rcases hprocs hx with hx | ⟨-, hold⟩
      · cases hx
      · obtain ⟨⟨y, hy, hsel⟩, hm⟩ := h.custody.selected hold
        refine ⟨⟨y, (hother k ?_).trans hy, hsel⟩, hm⟩
        rintro rfl
        have hzero := tally_eq_zero.1 hnone _ (mem_of_getElem? hold)
        rw [Phase.refs_pos rfl] at hzero
        cases hzero
    case queued => exact fun hx => h.custody.queued (hkeep hx).2
    case kept =>
      intro k m hm
      rcases h.custody.kept hm with ⟨x, hx, hm⟩ | hr | hk
      · rcases eq_or_ne k q with rfl | hk
        · refine Or.inr (Or.inr fun hin => ?_)
          obtain ⟨y, hy, hd⟩ := h.refs.listed.1 hin
          obtain rfl : que = y := some.inj (hq.symm.trans hy)
          cases hdying.symm.trans hd
        · exact Or.inl ⟨x, (hother k hk).trans hx, hm⟩
      · exact Or.inr (Or.inl hr)
      · exact Or.inr (Or.inr hk)
    case old =>
      intro k m hm
      show k < (s.heap.set q none).length
      rw [length_set]
      exact h.custody.old hm
    case received => exact h.custody.received

@[simp] theorem mem_nextIx {k : Nat} :
    k ∈ (nextIx ix new nextix l).2 ↔ k = new ∨ k ∈ l := by
  induction l generalizing nextix with
  | nil => simp [nextIx]
  | cons q l ih =>
    rw [nextIx]
    split
    · simp
    · simp only [mem_cons, ih]
      tauto

theorem nodup_nextIx (hnew : new ∉ l)
    (h : l.Nodup) : (nextIx ix new nextix l).2.Nodup := by
  induction l generalizing nextix with
  | nil => exact nodup_singleton new
  | cons q l ih =>
    rw [nodup_cons] at h
    rw [mem_cons, not_or] at hnew
    rw [nextIx]
    split
    · exact nodup_cons.2 ⟨by simpa using hnew, nodup_cons.2 h⟩
    · refine nodup_cons.2 ⟨fun hq => ?_, ih hnew.2 h.2⟩
      rcases mem_nextIx.1 hq with hq | hq
      · exact hnew.1 hq.symm
      · exact h.1 hq

theorem Inv.create (h : Inv s) (key : Int) : Inv (queCreate s key).1 := by
  unfold queCreate
  dsimp only
  set q := s.heap.length with hlen
  set ix : Nat → Nat := fun q => (s.que q).elim 0 (·.queIx)
  set que : Que := ⟨(nextIx ix q 1 s.msgQueues).1, key, (s.sequence + 1) % 0x8000, msginfo.msgmnb,
    0, 0, false, false, false, 0, [], false⟩
  set s' : State := { s with
    heap := s.heap ++ [some que]
    msgQueues := (nextIx ix q 1 s.msgQueues).2
    sequence := s.sequence + 1
    numQues := s.numQues + 1 } with hs'
  have hfresh : s.que q = none := by simp [State.que, hlen]
  have hself : s'.que q = some que := by simp [hs', State.que, hlen]
  have hother : ∀ k ≠ q, s'.que k = s.que k := by
    intro k hk
    rcases Nat.lt_or_gt_of_ne hk with hlt | hgt
    · simp [hs', State.que, getElem?_append_left (hlen ▸ hlt)]
    · have hs : s.heap[k]? = none := getElem?_eq_none (hlen ▸ Nat.le_of_lt hgt)
      have hs'' : (s.heap ++ [some que])[k]? = none := getElem?_eq_none (by simp; omega)
      simp [hs', State.que, hs, hs'']
  have hkeep : ∀ {k x}, s'.que k = some x → k = q ∧ x = que ∨ k ≠ q ∧ s.que k = some x :=
    fun {k x} hx => by
      rcases eq_or_ne k q with rfl | hk
      · exact Or.inl ⟨rfl, some.inj (hx.symm.trans hself)⟩
      · exact Or.inr ⟨hk, hother k hk ▸ hx⟩
  have hlive : ∀ {k x}, s.que k = some x → s'.que k = some x := fun {k x} hx => by
    rw [hother k, hx]
    rintro rfl
    cases hfresh.symm.trans hx
  have hunref : ∀ p ∈ s.procs, p.held ≠ some q ∧ p.removed ≠ some q := by
    intro p hp
    obtain ⟨j, hj⟩ := getElem?_of_mem hp
    refine ⟨fun hk => ?_, fun hk => ?_⟩
    · obtain ⟨x, hx⟩ := h.refs.alive hj (Or.inl hk)
      cases hfresh.symm.trans hx
    · obtain ⟨x, hx⟩ := h.refs.alive hj (Or.inr hk)
      cases hfresh.symm.trans hx
  have hrefs : tally (Phase.refs q) s.procs = 0 :=
    tally_eq_zero.2 fun p hp => if_neg (hunref p hp).1
  have hremoves : tally (Phase.removes q) s.procs = 0 :=
    tally_eq_zero.2 fun p hp => if_neg (hunref p hp).2
  have hpromised : tally (Phase.promised q) s.procs = 0 := by
    refine tally_eq_zero.2 fun p hp => ?_
    have hheld := (hunref p hp).1
    cases p <;> first | rfl | exact if_neg fun he => hheld (congrArg some he)
  refine ⟨h.faulted, ?_, ?_, ?_⟩
  · constructor
    case references =>
      intro k x hx
      rcases hkeep hx with ⟨rfl, rfl⟩ | ⟨-, hx⟩
      · exact hrefs.symm
      · exact h.refs.references hx
    case removers =>
      intro k x hx
      rcases hkeep hx with ⟨rfl, rfl⟩ | ⟨-, hx⟩
      · exact hremoves
      · exact h.refs.removers hx
    case alive =>
      intro j k p hp hk
      obtain ⟨x, hx⟩ := h.refs.alive hp hk
      exact ⟨x, hlive hx⟩
    case awake => exact h.refs.awake
    case listed =>
      intro k
      rw [mem_nextIx]
      rcases eq_or_ne k q with rfl | hk
      · simp [hself, que]
      · rw [hother k hk, h.refs.listed]
        exact or_iff_right hk
    case nodup =>
      refine nodup_nextIx (fun hin => ?_) h.refs.nodup
      obtain ⟨x, hx, -⟩ := h.refs.listed.1 hin
      cases hfresh.symm.trans hx
  · constructor
    case qnum =>
      intro k x hx
      rcases hkeep hx with ⟨rfl, rfl⟩ | ⟨-, hx⟩
      · rfl
      · exact h.counts.qnum hx
    case cbytes =>
      intro k x hx
      rcases hkeep hx with ⟨rfl, rfl⟩ | ⟨-, hx⟩
      · rfl
      · exact h.counts.cbytes hx
    case room =>
      intro k x hx hlow
      rcases hkeep hx with ⟨rfl, rfl⟩ | ⟨-, hx⟩
      · show 0 + tally (Phase.promised q) s.procs ≤ _
        rw [hpromised]
        exact Nat.zero_le _
      · exact h.counts.room hx hlow
    case numMsgs =>
      rw [tally_append, h.counts.numMsgs]
      rfl
  · constructor
    case once =>
      intro id
      have hid := h.custody.once id
      unfold State.occ at hid ⊢
      rw [tally_append]
      exact hid
    case readers => exact h.custody.readers
    case length =>
      intro k x m hx hm
      rcases hkeep hx with ⟨rfl, rfl⟩ | ⟨-, hx⟩
      · cases hm
      · exact h.custody.length hx hm
    case size => exact h.custody.size
    case selected =>
      intro j k msgsz m msgtyp hx
      obtain ⟨⟨x, hx, hsel⟩, hm⟩ := h.custody.selected hx
      exact ⟨⟨x, hlive hx, hsel⟩, hm⟩
    case queued =>
      intro k x m hx hd hm
      rcases hkeep hx with ⟨rfl, rfl⟩ | ⟨-, hx⟩
      · cases hm
      · exact h.custody.queued hx hd hm
    case kept =>
      intro k m hm
      rcases h.custody.kept hm with ⟨x, hx, hmx⟩ | hr | hk
      · exact Or.inl ⟨x, hlive hx, hmx⟩
      · exact Or.inr (Or.inl hr)
      · refine Or.inr (Or.inr fun hin => ?_)
        rcases mem_nextIx.1 hin with rfl | hin
        · exact Nat.lt_irrefl _ (h.custody.old hm)
        · exact hk hin
    case old =>
      intro k m hm
      rw [length_append]
      exact Nat.lt_add_right _ (h.custody.old hm)
    case received => exact h.custody.received

end Mbsd.Kern.SysvMsg
