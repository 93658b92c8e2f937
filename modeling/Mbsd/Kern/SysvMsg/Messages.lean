import Mbsd.Kern.SysvMsg.Changes

/-! A process that runs with a reference to a queue, as if it were in `IPC_STAT`, and what each part
of a call makes of the invariant. -/

namespace Mbsd.Kern.SysvMsg

open Lib.Tally Sys State List Function Phase Option

variable {s s' : State} {i q k : Nat} {p p' : Phase} {que que' : Que} {m : Msg}

theorem getElem?_goOn (hi : i < s.procs.length) : (s.goOn i p).procs[i]? = some p :=
  getElem?_set_self hi

theorem set_self {α : Type} {l : List α} {i : Nat} {a : α} (h : l[i]? = some a) :
    l.set i a = l := by
  obtain ⟨hi, rfl⟩ := List.getElem?_eq_some_iff.1 h
  exact set_getElem_self hi

namespace Change

theorem phase (hp : s.procs[i]? = some p) (hq : s.que q = some que) (heap : s'.heap = s.heap)
    (procs : s'.procs = s.procs.set i p') : Change s s' i q p p' que que :=
  ⟨hp, hq, heap.trans (set_self (que_eq_some.1 hq)).symm, procs⟩

theorem queue (hp : s.procs[i]? = some p) (hq : s.que q = some que) (que' : Que) :
    Change s (s.setQue q que') i q p p que que' :=
  ⟨hp, hq, rfl, (set_self hp).symm⟩

end Change

structure Running (s : State) (i q : Nat) : Prop where
  lt : i < s.procs.length
  inv : Inv (s.goOn i (.statCopyout q))

namespace Running

theorem proc (h : Running s i q) : (s.goOn i (.statCopyout q)).procs[i]? = some (.statCopyout q) :=
  getElem?_goOn h.lt

theorem exists_que (h : Running s i q) : ∃ que, s.que q = some que :=
  h.inv.refs.alive h.proc (.inl rfl)

theorem deref_iff {P : State → Prop} (h : Running s i q) {f : Que → State}
    (hf : ∀ que, s.que q = some que → P (f que)) : P (s.deref q f) := by
  obtain ⟨que, hq⟩ := h.exists_que
  rw [deref, hq]
  exact hf que hq

end Running

theorem Inv.awake (h : Inv s) {awake : Nat → Bool}
    (hawake : ∀ j k, s.procs[j]? = some (.rmWait k) → awake j = true → s.awake j = true) :
    Inv { s with awake } where
  faulted := h.faulted
  refs :=
    ⟨h.refs.references, h.refs.removers, h.refs.alive,
      fun {j k} hj ha => h.refs.awake hj (hawake j k hj ha), h.refs.listed, h.refs.nodup⟩
  counts := ⟨h.counts.qnum, h.counts.cbytes, h.counts.room, h.counts.numMsgs⟩
  custody :=
    ⟨h.custody.once, h.custody.readers, h.custody.length, h.custody.size, h.custody.selected,
      h.custody.queued, h.custody.kept, h.custody.old, h.custody.received⟩

theorem Running.wakeup (h : Running s i q) (k : Nat) : Running (s.wakeup k) i q := by
  refine ⟨h.lt, h.inv.awake fun j k' hj ha => ?_⟩
  rcases eq_or_ne j i with rfl | hji
  · cases (getElem?_goOn h.lt).symm.trans hj
  · have hj' : s.procs[j]? = some (.rmWait k') := (getElem?_set_ne hji.symm).symm.trans hj
    simp only [State.wakeup, State.goOn, update_of_ne hji, sleepsOn, hj', Bool.or_false] at ha ⊢
    exact ha

theorem Running.setQue (h : Running s i q) (hk : s.que k = some que)
    (hmsgs : que'.queMsgs = que.queMsgs) (hdying : que'.dying = que.dying)
    (hrefs : que'.queReferences = que.queReferences) (hqnum : que'.msgQnum = que.msgQnum)
    (hcbytes : que'.msgCbytes = que.msgCbytes)
    (hroom : que'.lowered = false → que.lowered = false ∧ que.msgQbytes ≤ que'.msgQbytes) :
    Running (s.setQue k que') i q := by
  have c := Change.queue h.proc hk que'
  refine ⟨h.lt, h.inv.faulted, h.inv.refs.change c rfl hdying rfl (fun _ _ => rfl)
    (fun _ => Nat.le_refl _) (by rw [hrefs]) (c.asleep rfl fun _ _ => rfl),
    h.inv.counts.change c ?_ ?_ (fun hlow => ?_) (fun _ _ => Nat.le_refl _) ?_,
    h.inv.custody.quiet c ⟨hmsgs, hdying, rfl, rfl, rfl, rfl, rfl, rfl⟩ (Nat.zero_le _)⟩
  · rw [hqnum, hmsgs, h.inv.counts.qnum hk]
  · rw [hcbytes, hmsgs, h.inv.counts.cbytes hk]
  · obtain ⟨hlow, hle⟩ := hroom hlow
    exact c.room h.inv.counts hlow (by rw [hcbytes]; exact Nat.add_le_add_left hle _)
  · rw [hmsgs]
    rfl

theorem Running.flags (h : Running s i q) (hk : s.que k = some que) (readers writers : Bool) :
    Running (s.setQue k { que with readers, writers }) i q :=
  h.setQue hk rfl rfl rfl rfl rfl fun hlow => ⟨hlow, Nat.le_refl _⟩

theorem Running.goOn (h : Running s i q) (hheld : p'.held = some q) (hremoved : p'.removed = none)
    (hcarried : p'.carried = none) (hread : p'.read = none) (hsize : p'.msgsz ≤ msginfo.msgmax)
    (hother : ∀ k ≠ q, p'.promised k = 0) (hroom : ∀ que, s.que q = some que → que.lowered = false →
      que.msgCbytes + tally (promised q) (s.goOn i (.statCopyout q)).procs + p'.promised q ≤
        que.msgQbytes) : Inv (s.goOn i p') := by
  obtain ⟨que, hq⟩ := h.exists_que
  have c : Change (s.goOn i (.statCopyout q)) (s.goOn i p') i q (.statCopyout q) p' que que :=
    .phase h.proc hq rfl (by simp [State.goOn])
  have hrefs : ∀ k, p'.refs k = (statCopyout q).refs k := fun k => by
    rw [refs, hheld]
    rfl
  have halloc : p'.allocated = 0 := if_pos hcarried
  refine ⟨h.inv.faulted, h.inv.refs.change c rfl rfl hremoved (fun k _ => hrefs k)
    (fun _ => Nat.le_of_eq (hrefs q)) (by rw [hrefs]) (c.asleep hremoved fun _ _ => rfl),
    h.inv.counts.change c (h.inv.counts.qnum hq) (h.inv.counts.cbytes hq) (fun hlow => ?_)
      (fun k hk => Nat.le_of_eq (hother k hk)) ?_,
    h.inv.custody.quiet c ⟨rfl, rfl, hcarried, hread, rfl, rfl, rfl, rfl⟩ hsize⟩
  · have htally := c.tally_procs (promised q)
    have := hroom que hq hlow
    omega
  · rw [halloc]
    rfl

theorem Inv.takeRef (h : Inv s) (hp : s.procs[i]? = some (.returned r)) (hq : s.que q = some que)
    (hd : que.dying = false) : Running (s.setQue q (qref que)) i q := by
  have hi := (List.getElem?_eq_some_iff.1 hp).1
  have c : Change s ((s.setQue q (SysvMsg.qref que)).goOn i (.statCopyout q)) i q (.returned r)
    (.statCopyout q) que (SysvMsg.qref que) := ⟨hp, hq, rfl, rfl⟩
  have hone : (statCopyout q).refs q = 1 := refs_pos rfl
  refine ⟨hi, h.faulted, h.refs.change c rfl rfl rfl (fun k hk => ?_) (fun hdead => ?_) (hone ▸ rfl)
    (c.asleep rfl fun j hj => update_of_ne hj ..),
    h.counts.change c (h.counts.qnum hq :) (h.counts.cbytes hq :)
      (fun hlow => c.room h.counts hlow (Nat.le_refl _)) (fun _ _ => Nat.le_refl _) rfl,
    h.custody.quiet c ⟨rfl, rfl, rfl, rfl, rfl, rfl, rfl, rfl⟩ (Nat.zero_le _)⟩
  · exact if_neg fun hkq => hk (some.inj hkq).symm
  · rw [hd] at hdead
    cases hdead

theorem Running.rele (h : Running s i q) (hq : s.que q = some que)
    (hque : que' = { que with queReferences := que.queReferences - 1 }) (r : Except Errno Nat)
    {awake : Nat → Bool} (hawake : ∀ j k, j ≠ i → s.procs[j]? = some (.rmWait k) → awake j = true →
      s.awake j = true ∨ k = q ∧ que'.queReferences = 0) :
    Inv { (s.setQue q que').goOn i (.returned r) with awake } := by
  subst hque
  set que' : Que := { que with queReferences := que.queReferences - 1 }
  have c : Change (s.goOn i (.statCopyout q))
      { (s.setQue q que').goOn i (.returned r) with awake } i q (.statCopyout q) (.returned r)
      que que' := ⟨h.proc, hq, rfl, by simp [State.goOn, State.setQue]⟩
  have hone : (statCopyout q).refs q = 1 := refs_pos rfl
  have hzero : (returned r).refs q = 0 := rfl
  have hrefs := h.inv.refs.references hq
  have hpos := le_tally (w := refs q) (mem_of_getElem? h.proc)
  have hminus : que'.queReferences = que.queReferences - 1 := rfl
  refine ⟨h.inv.faulted, h.inv.refs.change c rfl rfl rfl (fun k hk => ?_)
    (fun _ => Nat.zero_le _) (by omega) (fun j k hj ha => ?_),
    h.inv.counts.change c (h.inv.counts.qnum hq :) (h.inv.counts.cbytes hq :)
      (fun hlow => c.room h.inv.counts hlow (Nat.le_refl _)) (fun _ _ => Nat.le_refl _) rfl,
    h.inv.custody.quiet c ⟨rfl, rfl, rfl, rfl, rfl, rfl, rfl, rfl⟩ (Nat.zero_le _)⟩
  · exact (if_neg fun hkq => hk (some.inj hkq).symm).symm
  · rcases c.proc_cases hj with ⟨-, hj⟩ | ⟨hji, hj⟩
    · cases hj
    · have hj' : s.procs[j]? = some (.rmWait k) := (getElem?_set_ne hji.symm).symm.trans hj
      rcases hawake j k hji hj' ha with ha | ⟨rfl, hnone⟩
      · exact Or.inl ⟨hj, by simpa [State.goOn, update_of_ne hji] using ha⟩
      · have htally := c.tally_procs (refs k)
        exact .inr (by omega)

theorem Running.out (h : Running s i q) (r : Except Errno Nat) : Inv (out s i q r) := by
  refine h.deref_iff fun que hq => ?_
  unfold qrele
  dsimp only
  split
  case isTrue hnone =>
    refine h.rele hq rfl r fun j k hji hj ha => ?_
    rw [update_of_ne hji] at ha
    rcases Bool.or_eq_true_iff.1 ha with ha | ha
    · exact .inl ha
    · refine .inr ⟨?_, hnone.1⟩
      simpa [State.removes, State.setQue, hj] using ha
  case isFalse =>
    refine h.rele hq rfl r fun j k hji _ ha => .inl ?_
    rwa [update_of_ne hji] at ha

/-! A message on its way: allocated, freed again, put on its queue, selected, and taken off. -/

open Option

variable {s s' : State} {i q id msgsz msgLen : Nat} {p : Phase} {que : Que} {m x : Msg}
  {msgtyp : Int}
variable {msgs : List Msg}

namespace Selects

theorem append (h : Selects msgs msgtyp m) (x : Msg) : Selects (msgs ++ [x]) msgtyp m where
  mem := mem_append_left _ h.mem
  exact := fun ht => by rw [find?_append, h.exact ht, some_or]
  any := fun ht => by rw [head?_append, h.any ht, some_or]
  upTo := h.upTo

theorem find?_erase {l : List Msg} {f : Msg → Bool} (h : l.find? f = some m) (hx : m ≠ x) :
    (l.erase x).find? f = some m := by
  induction l with
  | nil => cases h
  | cons a l ih =>
    rcases eq_or_ne a x with rfl | hax
    · rw [erase_cons_head]
      rw [find?_cons] at h
      split at h
      · exact absurd (some.inj h).symm hx
      · exact h
    · rw [erase_cons_tail (by simpa using hax), find?_cons]
      rw [find?_cons] at h
      split
      case h_1 hf => rwa [hf] at h
      case h_2 hf =>
        rw [hf] at h
        exact ih h

theorem head?_eq_find? (l : List Msg) : l.head? = l.find? fun _ => true := by
  cases l <;> rfl

theorem erase (h : Selects msgs msgtyp m) (hx : m ≠ x) : Selects (msgs.erase x) msgtyp m where
  mem := (mem_erase_of_ne hx).2 h.mem
  exact := fun ht => find?_erase (h.exact ht) hx
  any := fun ht => by
    have hall := h.any ht
    rw [head?_eq_find?] at hall ⊢
    exact find?_erase hall hx
  upTo := h.upTo

end Selects

theorem copyinLens_loop_lt (len xfer rounds : Nat) (h : msgLen < len + xfer) :
    msgLen + (copyinLens.loop len xfer rounds msgLen).sum < len + xfer := by
  induction rounds generalizing msgLen with
  | zero => exact h
  | succ rounds ih =>
    rw [copyinLens.loop]
    split
    case isTrue hlt =>
      rw [sum_cons, ← Nat.add_assoc]
      exact ih (by omega)
    case isFalse => exact h

theorem dvd_copyinLens_loop (len xfer rounds msgLen : Nat) :
    xfer ∣ (copyinLens.loop len xfer rounds msgLen).sum := by
  induction rounds generalizing msgLen with
  | zero => exact dvd_zero _
  | succ rounds ih =>
    rw [copyinLens.loop]
    split
    · exact Nat.dvd_add (dvd_refl xfer) (ih _)
    · exact dvd_zero _

theorem copiedLen_le (h : msgsz ≤ msginfo.msgmax) : copiedLen msgsz ≤ msginfo.msgmax := by
  have hmax : msginfo.msgmax = 16384 := rfl
  have hmin : minclsize = 369 := rfl
  have hcl : mclbytes = 2048 := rfl
  have hlen : mlen = 224 := rfl
  have hmod : ∀ n < 16385, n % 2 ^ 32 = n := fun n hn => Nat.mod_eq_of_lt (by omega)
  rcases Nat.eq_zero_or_pos msgsz with rfl | hpos
  · exact Nat.zero_le _
  unfold copiedLen copyinLens umin
  rw [hmod msgsz (by omega), hmod mclbytes (by omega), hmod mlen (by omega)]
  split
  case isTrue =>
    dsimp only
    have hlt := copyinLens_loop_lt msgsz (min msgsz mclbytes) msgsz (show 0 < _ by omega)
    have hdvd := dvd_copyinLens_loop msgsz (min msgsz mclbytes) msgsz 0
    rcases Nat.lt_or_ge mclbytes msgsz with hbig | hsmall
    · rw [Nat.min_eq_right (by omega)] at hlt hdvd ⊢
      rw [hcl] at hlt hdvd ⊢
      omega
    · omega
  case isFalse =>
    dsimp only
    have hlt := copyinLens_loop_lt msgsz (min msgsz mlen) msgsz (show 0 < _ by omega)
    omega

theorem Inv.running (h : Inv s) (hp : s.procs[i]? = some p) (hheld : p.held = some q)
    (hcarried : p.carried = none) : Running s i q := by
  have hi := (List.getElem?_eq_some_iff.1 hp).1
  obtain ⟨que, hq⟩ := h.refs.alive hp (.inl hheld)
  have c : Change s (s.goOn i (.statCopyout q)) i q p (.statCopyout q) que que :=
    .phase hp hq rfl rfl
  have hrefs : ∀ k, (statCopyout q).refs k = p.refs k := fun k => by
    rw [Phase.refs, Phase.refs, hheld]
    rfl
  have hremoved : p.removed = none := by
    cases p <;> first | rfl | cases hheld
  have halloc : p.allocated = 0 := if_pos hcarried
  refine ⟨hi, h.faulted, h.refs.change c rfl rfl hremoved.symm (fun k _ => hrefs k)
    (fun _ => Nat.le_of_eq (hrefs q)) (by rw [hrefs])
    (c.asleep rfl fun j hj => update_of_ne hj ..),
    h.counts.change c (h.counts.qnum hq) (h.counts.cbytes hq) (fun hlow => c.room h.counts hlow ?_)
      (fun _ _ => Nat.zero_le _) (by rw [halloc]; rfl),
    h.custody.quiet c ⟨rfl, rfl, hcarried.symm, rfl, rfl, rfl, rfl, rfl⟩ (Nat.zero_le _)⟩
  · exact Nat.add_le_add_right (Nat.add_le_add_left (Nat.zero_le _) _) _

theorem Inv.allocate (h : Inv s) (hp : s.procs[i]? = some (.sndCreate q msgsz)) :
    Inv ({ s with numMsgs := s.numMsgs + 1, nextMsg := s.nextMsg + 1 }.goOn i
      (.sndCopyin q msgsz s.nextMsg)) := by
  obtain ⟨que, hq⟩ := h.refs.alive hp (.inl rfl)
  have c : Change s ({ s with numMsgs := s.numMsgs + 1, nextMsg := s.nextMsg + 1 }.goOn i
      (.sndCopyin q msgsz s.nextMsg)) i q (.sndCreate q msgsz) (.sndCopyin q msgsz s.nextMsg)
      que que := .phase hp hq rfl rfl
  refine ⟨h.faulted, h.refs.change c rfl rfl rfl (fun _ _ => rfl) (fun _ => Nat.le_refl _) rfl
    (c.asleep rfl fun j hj => update_of_ne hj ..),
    h.counts.change c (h.counts.qnum hq) (h.counts.cbytes hq) (fun hlow => c.room h.counts hlow ?_)
      (fun _ _ => Nat.le_refl _) ?_,
    h.custody.change c (fun id => ?_) (fun _ => .inl (Nat.le_refl _))
      (fun m hm => h.custody.length hq hm) (h.custody.size hp :) (fun _ _ _ _ _ _ hsel => hsel)
      (fun _ _ _ _ hx => by cases hx) (Subset.refl _)
      (fun hd m hm => h.custody.queued hq hd hm)
      (fun m hm => hm) (fun e he => .inl he) (Subset.refl _) (Subset.refl _)
      (fun r hr => .inl hr)⟩
  · exact Nat.le_refl _
  · show s.numMsgs + 1 + _ + 0 = s.numMsgs + _ + 1
    omega
  · show countId id que.queMsgs + (if some s.nextMsg = some id then 1 else 0) +
        s.received.countP (·.msg.id = id) + (if id < s.nextMsg then 1 else 0) ≤
      countId id que.queMsgs + 0 + s.received.countP (·.msg.id = id) +
        if id < s.nextMsg + 1 then 1 else 0
    simp only [some.injEq]
    split_ifs <;> omega

theorem Inv.unallocate (h : Inv s) (hp : s.procs[i]? = some (.sndCopyin q msgsz id)) :
    Running { s with numMsgs := s.numMsgs - 1 } i q := by
  have hi := (List.getElem?_eq_some_iff.1 hp).1
  obtain ⟨que, hq⟩ := h.refs.alive hp (.inl rfl)
  have c : Change s ({ s with numMsgs := s.numMsgs - 1 }.goOn i (.statCopyout q)) i q
    (.sndCopyin q msgsz id) (.statCopyout q) que que := .phase hp hq rfl rfl
  refine ⟨hi, h.faulted, h.refs.change c rfl rfl rfl (fun _ _ => rfl) (fun _ => Nat.le_refl _) rfl
    (c.asleep rfl fun j hj => update_of_ne hj ..),
    h.counts.change c (h.counts.qnum hq) (h.counts.cbytes hq) (fun hlow => c.room h.counts hlow ?_)
      (fun _ _ => Nat.zero_le _) ?_,
    h.custody.change c (fun id => ?_) (fun _ => .inl (Nat.le_refl _))
      (fun m hm => h.custody.length hq hm) (Nat.zero_le _) (fun _ _ _ _ _ _ hsel => hsel)
      (fun _ _ _ _ hx => by cases hx) (Subset.refl _)
      (fun hd m hm => h.custody.queued hq hd hm)
      (fun m hm => hm) (fun e he => .inl he) (Subset.refl _) (Subset.refl _)
      (fun r hr => .inl hr)⟩
  · exact Nat.add_le_add_right (Nat.add_le_add_left (Nat.zero_le _) _) _
  · have hone := le_tally (w := allocated) (mem_of_getElem? hp)
    have hcount := h.counts.numMsgs
    have hsnd : (sndCopyin q msgsz id).allocated = 1 := rfl
    have hout : (statCopyout q).allocated = 0 := rfl
    show s.numMsgs - 1 + _ + _ = _
    omega
  · have hzero : (statCopyout q).carries id = 0 := rfl
    show _ + (statCopyout q).carries id + s.received.countP (·.msg.id = id) +
      (if id < s.nextMsg then 1 else 0) ≤ _ + _ + _ + if id < s.nextMsg then 1 else 0
    omega

theorem countId_append (id : Nat) (msgs : List Msg) (m : Msg) :
    countId id (msgs ++ [m]) = countId id msgs + if m.id = id then 1 else 0 := by
  simp [countId, countP_append, countP_singleton]

theorem Inv.enqueue (h : Inv s) (hp : s.procs[i]? = some (.sndCopyin q msgsz m.id))
    (hq : s.que q = some que) (hlen : m.msgLen = copiedLen msgsz) :
    Running { s.setQue q (msgEnqueue que m) with
      sent := if que.dying then s.sent else s.sent ++ [(q, m)] } i q := by
  have hi := (List.getElem?_eq_some_iff.1 hp).1
  set s' : State := { s.setQue q (msgEnqueue que m) with
    sent := if que.dying then s.sent else s.sent ++ [(q, m)] } with hs'
  have c : Change s (s'.goOn i (.statCopyout q)) i q (.sndCopyin q msgsz m.id) (.statCopyout q) que
    (msgEnqueue que m) := ⟨hp, hq, rfl, rfl⟩
  have hsub : s.sent ⊆ s'.sent := by
    simp only [hs']
    split
    · exact Subset.refl _
    · exact subset_append_left ..
  refine ⟨hi, h.faulted, h.refs.change c rfl rfl rfl (fun _ _ => rfl) (fun _ => Nat.le_refl _) rfl
    (c.asleep rfl fun j hj => update_of_ne hj ..),
    h.counts.change c ?_ ?_ (fun hlow => c.room h.counts hlow ?_) (fun _ _ => Nat.zero_le _) ?_,
    h.custody.change c (fun id => ?_) (fun _ => .inl (Nat.le_refl _)) (fun x hx => ?_)
      (Nat.zero_le _) (fun _ _ _ _ _ _ hsel => hsel.append m) (fun _ _ _ _ hx => by cases hx) hsub
      (fun hd x hx => ?_) (fun x hx => ?_) (fun e he => ?_) (Subset.refl _)
      (Subset.refl _) (fun r hr => .inl hr)⟩
  · rw [msgEnqueue, length_append, ← h.counts.qnum hq]
    rfl
  · rw [msgEnqueue, tally_append, ← h.counts.cbytes hq]
    rfl
  · have hsnd : (sndCopyin q msgsz m.id).promised q = copiedLen msgsz := if_pos rfl
    rw [hsnd, ← hlen]
    exact Nat.le_refl _
  · show s.numMsgs + que.queMsgs.length + 1 = s.numMsgs + (que.queMsgs ++ [m]).length + 0
    rw [length_append, length_singleton]
    omega
  · show countId id (que.queMsgs ++ [m]) + 0 + s.received.countP (·.msg.id = id) +
        (if id < s.nextMsg then 1 else 0) ≤
      countId id que.queMsgs + (if some m.id = some id then 1 else 0) +
        s.received.countP (·.msg.id = id) + if id < s.nextMsg then 1 else 0
    simp only [countId_append, some.injEq]
    omega
  · rcases mem_append.1 hx with hx | hx
    · exact h.custody.length hq hx
    · obtain rfl := mem_singleton.1 hx
      rw [hlen]
      exact copiedLen_le (h.custody.size hp :)
  · have hd' : que.dying = false := hd
    simp only [hs', hd', Bool.false_eq_true, if_false]
    rcases mem_append.1 hx with hx | hx
    · exact mem_append_left _ (h.custody.queued hq hd' hx)
    · obtain rfl := mem_singleton.1 hx
      exact mem_append_right _ (mem_singleton_self _)
  · rcases hx with ⟨que₀, hq₀, hx⟩ | hx
    · obtain rfl : que = que₀ := some.inj (hq.symm.trans hq₀)
      exact .inl ⟨_, c.que_self, mem_append_left _ hx⟩
    · exact .inr hx
  · change e ∈ s'.sent at he
    simp only [hs'] at he
    split at he
    · exact .inl he
    · rcases mem_append.1 he with he | he
      · exact .inl he
      · obtain rfl := mem_singleton.1 he
        exact .inr ⟨rfl, mem_append_right _ (mem_singleton_self _)⟩

theorem Running.select (h : Running s i q) (hq : s.que q = some que) (hd : que.dying = false)
    (hsel : Selects que.queMsgs msgtyp m)
    (hfree : ∀ p ∈ (s.goOn i (.statCopyout q)).procs, p.read.map Msg.id ≠ some m.id) :
    Inv (s.goOn i (.rcvCopyout q m msgtyp msgsz)) := by
  have c : Change (s.goOn i (.statCopyout q)) (s.goOn i (.rcvCopyout q m msgtyp msgsz)) i q
      (.statCopyout q) (.rcvCopyout q m msgtyp msgsz) que que :=
    .phase h.proc hq rfl (by simp [State.goOn])
  have hcustody := h.inv.custody
  refine ⟨h.inv.faulted, h.inv.refs.change c rfl rfl rfl (fun _ _ => rfl) (fun _ => Nat.le_refl _)
    rfl (c.asleep rfl fun _ _ => rfl),
    h.inv.counts.change c (h.inv.counts.qnum hq) (h.inv.counts.cbytes hq)
      (fun hlow => c.room h.inv.counts hlow (Nat.le_refl _)) (fun _ _ => Nat.le_refl _) rfl,
    hcustody.change c (fun _ => Nat.le_refl _) (fun id => ?_) (fun m hm => hcustody.length hq hm)
      (Nat.zero_le _) (fun _ _ _ _ _ _ hsel => hsel) (fun k x t z hx => ?_) (Subset.refl _)
      (fun hd m hm => hcustody.queued hq hd hm) (fun m hm => hm) (fun e he => .inl he)
      (Subset.refl _) (Subset.refl _) (fun r hr => .inl hr)⟩
  · rcases eq_or_ne m.id id with rfl | hid
    · exact .inr (tally_eq_zero.2 fun p hp => if_neg (hfree p hp))
    · refine .inl (Nat.le_of_eq (if_neg fun hm => hid ?_))
      exact some.inj hm
  · cases hx
    exact ⟨rfl, hsel, hcustody.queued hq hd hsel.mem⟩

theorem countId_erase (id : Nat) (hm : m ∈ msgs) :
    countId id (msgs.erase m) + (if m.id = id then 1 else 0) = countId id msgs := by
  rw [countId, countId, (perm_cons_erase hm).countP_eq, countP_cons]
  simp only [decide_eq_true_eq]

theorem Inv.dequeue (h : Inv s) (hp : s.procs[i]? = some (.rcvCopyout q m msgtyp msgsz))
    (hq : s.que q = some que) : m ∈ que.queMsgs ∧ Running { s.setQue q (msgDequeue que m) with
      numMsgs := s.numMsgs - 1
      received := s.received ++ [⟨q, msgtyp, que.queMsgs, m⟩] } i q := by
  have hi := (List.getElem?_eq_some_iff.1 hp).1
  obtain ⟨⟨que₀, hq₀, hsel⟩, hsent⟩ := h.custody.selected hp
  obtain rfl : que = que₀ := some.inj (hq.symm.trans hq₀)
  have hperm := perm_cons_erase hsel.mem
  set s' : State := { s.setQue q (msgDequeue que m) with
    numMsgs := s.numMsgs - 1
    received := s.received ++ [⟨q, msgtyp, que.queMsgs, m⟩] }
  have c : Change s (s'.goOn i (.statCopyout q)) i q (.rcvCopyout q m msgtyp msgsz) (.statCopyout q)
    que (msgDequeue que m) := ⟨hp, hq, rfl, rfl⟩
  have hlen : que.queMsgs.length = (que.queMsgs.erase m).length + 1 := hperm.length_eq
  have hbytes : tally Msg.msgLen que.queMsgs = m.msgLen + tally Msg.msgLen (que.queMsgs.erase m) :=
    tally_perm _ hperm
  have hqnum := h.counts.qnum hq
  have hcbytes := h.counts.cbytes hq
  refine ⟨hsel.mem, hi, h.faulted, h.refs.change c rfl rfl rfl (fun _ _ => rfl)
    (fun _ => Nat.le_refl _) rfl (c.asleep rfl fun j hj => update_of_ne hj ..),
    h.counts.change c ?_ ?_ (fun hlow => c.room h.counts hlow ?_) (fun _ _ => Nat.le_refl _) ?_,
    h.custody.change c (fun id => ?_) (fun _ => .inl (Nat.zero_le _))
      (fun x hx => h.custody.length hq (mem_of_mem_erase hx))
      (Nat.zero_le _) (fun j x t z hj hx hselx => ?_) (fun _ _ _ _ hx => by cases hx)
      (Subset.refl _) (fun hd x hx => h.custody.queued hq hd (mem_of_mem_erase hx))
      (fun x hx => ?_) (fun e he => .inl he) (subset_append_left ..) (Subset.refl _)
      (fun r hr => ?_)⟩
  · show que.msgQnum - 1 = (que.queMsgs.erase m).length
    omega
  · show que.msgCbytes - m.msgLen = tally Msg.msgLen (que.queMsgs.erase m)
    omega
  · show que.msgCbytes - m.msgLen + 0 + que.msgQbytes ≤ que.msgCbytes + 0 + que.msgQbytes
    omega
  · have hplace := le_tally (w := fun o => (queMsgsAt o).length)
      (mem_of_getElem? (que_eq_some.1 hq))
    have hcount := h.counts.numMsgs
    have hat : (queMsgsAt (some que)).length = que.queMsgs.length := rfl
    show s.numMsgs - 1 + que.queMsgs.length + 0 = s.numMsgs + (que.queMsgs.erase m).length + 0
    omega
  · have herase := countId_erase id hsel.mem
    show countId id (que.queMsgs.erase m) + 0 +
        (s.received ++ [(⟨q, msgtyp, que.queMsgs, m⟩ : Receipt)]).countP (·.msg.id = id) +
          (if id < s.nextMsg then 1 else 0) ≤
      countId id que.queMsgs + 0 + s.received.countP (·.msg.id = id) +
        if id < s.nextMsg then 1 else 0
    simp only [countP_append, countP_singleton, decide_eq_true_eq]
    omega
  · refine hselx.erase ?_
    rintro rfl
    have htwo := add_le_tally (w := reads x.id) hx hp hj
    have hone := h.custody.readers x.id
    have hread : ∀ t z, (rcvCopyout q x t z).reads x.id = 1 := fun _ _ => if_pos rfl
    rw [hread, hread] at htwo
    omega
  · rcases hx with ⟨que₀, hq₀, hx⟩ | ⟨r, hr, hrx⟩ | hx
    · obtain rfl : que = que₀ := some.inj (hq.symm.trans hq₀)
      rcases eq_or_ne x m with rfl | hxm
      · exact .inr (.inl ⟨_, mem_append_right _ (mem_singleton_self _), rfl, rfl⟩)
      · exact .inl ⟨_, c.que_self, (mem_erase_of_ne hxm).2 hx⟩
    · exact .inr (.inl ⟨r, mem_append_left _ hr, hrx⟩)
    · exact .inr (.inr hx)
  · rcases mem_append.1 hr with hr | hr
    · exact .inl hr
    · obtain rfl := mem_singleton.1 hr
      exact .inr ⟨hsel, hsent⟩

end Mbsd.Kern.SysvMsg
