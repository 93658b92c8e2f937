import Mbsd.Kern.SysvMsg.Model

/-! What holds whenever every process sleeps or is out of the calls: the references to a queue, the
counts of messages and bytes, and where each message is. -/

namespace Mbsd.Kern.SysvMsg

open Lib.Tally Sys State

def Phase.held : Phase → Option Nat
  | .returned _ => none
  | .sndWait q _ => some q
  | .sndCreate q _ => some q
  | .sndCopyin q _ _ => some q
  | .rcvWait q _ _ => some q
  | .rcvCopyout q _ _ _ => some q
  | .rmWait _ => none
  | .setCopyin q => some q
  | .statCopyout q => some q
  | .queCreate _ _ _ => none

def Phase.removed : Phase → Option Nat
  | .rmWait q => some q
  | _ => none

def Phase.carried : Phase → Option Nat
  | .sndCopyin _ _ id => some id
  | _ => none

def Phase.read : Phase → Option Msg
  | .rcvCopyout _ m _ _ => some m
  | _ => none

def Phase.promised (q : Nat) : Phase → Nat
  | .sndCreate q' msgsz => if q' = q then copiedLen msgsz else 0
  | .sndCopyin q' msgsz _ => if q' = q then copiedLen msgsz else 0
  | _ => 0

def Phase.msgsz : Phase → Nat
  | .sndWait _ msgsz => msgsz
  | .sndCreate _ msgsz => msgsz
  | .sndCopyin _ msgsz _ => msgsz
  | _ => 0

def Phase.refs (q : Nat) (p : Phase) : Nat := if p.held = some q then 1 else 0

def Phase.removes (q : Nat) (p : Phase) : Nat := if p.removed = some q then 1 else 0

def Phase.carries (id : Nat) (p : Phase) : Nat := if p.carried = some id then 1 else 0

def Phase.reads (id : Nat) (p : Phase) : Nat := if p.read.map Msg.id = some id then 1 else 0

def Phase.allocated (p : Phase) : Nat := if p.carried = none then 0 else 1

def queMsgsAt (o : Option Que) : List Msg := o.elim [] Que.queMsgs

def countId (id : Nat) (msgs : List Msg) : Nat := msgs.countP (·.id = id)

def State.occ (s : State) (id : Nat) : Nat :=
  tally (fun o => countId id (queMsgsAt o)) s.heap + tally (Phase.carries id) s.procs +
    s.received.countP (·.msg.id = id)

structure Selects (msgs : List Msg) (msgtyp : Int) (m : Msg) : Prop where
  mem : m ∈ msgs
  exact : 0 < msgtyp → msgs.find? (·.msgType = msgtyp) = some m
  any : msgtyp = 0 → msgs.head? = some m
  upTo : msgtyp < 0 → m.msgType ≤ -msgtyp

/-- A message that was sent is on its queue, or was received, or its queue was removed. -/
def State.Kept (s : State) (q : Nat) (m : Msg) : Prop :=
  (∃ que, s.que q = some que ∧ m ∈ que.queMsgs) ∨ (∃ r ∈ s.received, r.que = q ∧ r.msg = m) ∨
    q ∉ s.msgQueues

variable {s s' : State} {i j q : Nat} {p p' : Phase} {que que' : Que} {m : Msg}

structure Refs (s : State) : Prop where
  references {q : Nat} {que : Que} :
    s.que q = some que → que.queReferences = tally (Phase.refs q) s.procs
  removers {q : Nat} {que : Que} :
    s.que q = some que → tally (Phase.removes q) s.procs = if que.dying then 1 else 0
  alive {i q : Nat} {p : Phase} :
    s.procs[i]? = some p → p.held = some q ∨ p.removed = some q → ∃ que, s.que q = some que
  awake {i q : Nat} :
    s.procs[i]? = some (.rmWait q) → s.awake i = true → tally (Phase.refs q) s.procs = 0
  listed {q : Nat} : q ∈ s.msgQueues ↔ ∃ que, s.que q = some que ∧ que.dying = false
  nodup : s.msgQueues.Nodup

structure Counts (s : State) : Prop where
  qnum {q : Nat} {que : Que} : s.que q = some que → que.msgQnum = que.queMsgs.length
  cbytes {q : Nat} {que : Que} : s.que q = some que → que.msgCbytes = tally Msg.msgLen que.queMsgs
  room {q : Nat} {que : Que} : s.que q = some que → que.lowered = false →
    que.msgCbytes + tally (Phase.promised q) s.procs ≤ que.msgQbytes
  numMsgs : s.numMsgs =
    tally (fun o => (queMsgsAt o).length) s.heap + tally Phase.allocated s.procs

structure Custody (s : State) : Prop where
  once (id : Nat) : s.occ id ≤ if id < s.nextMsg then 1 else 0
  readers (id : Nat) : tally (Phase.reads id) s.procs ≤ 1
  length {q : Nat} {que : Que} {m : Msg} :
    s.que q = some que → m ∈ que.queMsgs → m.msgLen ≤ msginfo.msgmax
  size {i : Nat} {p : Phase} : s.procs[i]? = some p → p.msgsz ≤ msginfo.msgmax
  selected {i q msgsz : Nat} {m : Msg} {msgtyp : Int} :
    s.procs[i]? = some (.rcvCopyout q m msgtyp msgsz) →
      (∃ que, s.que q = some que ∧ Selects que.queMsgs msgtyp m) ∧ (q, m) ∈ s.sent
  queued {q : Nat} {que : Que} {m : Msg} :
    s.que q = some que → que.dying = false → m ∈ que.queMsgs → (q, m) ∈ s.sent
  kept {q : Nat} {m : Msg} : (q, m) ∈ s.sent → s.Kept q m
  old {q : Nat} {m : Msg} : (q, m) ∈ s.sent → q < s.heap.length
  received {r : Receipt} :
    r ∈ s.received → Selects r.msgs r.msgtyp r.msg ∧ (r.que, r.msg) ∈ s.sent

structure Inv (s : State) : Prop where
  faulted : s.faulted = false
  refs : Refs s
  counts : Counts s
  custody : Custody s

/-! One process and one queue change, and what this asks for so that each part of the invariant goes
on to hold. -/

open List Option Phase

variable {s s' : State} {i q : Nat} {p p' : Phase} {que que' : Que} {m : Msg}

theorem que_eq_some : s.que q = some que ↔ s.heap[q]? = some (some que) :=
  join_eq_some_iff

structure Change (s s' : State) (i q : Nat) (p p' : Phase) (que que' : Que) : Prop where
  proc : s.procs[i]? = some p
  que : s.que q = some que
  heap : s'.heap = s.heap.set q (some que')
  procs : s'.procs = s.procs.set i p'

namespace Change

section

variable (c : Change s s' i q p p' que que')

include c

theorem que_self : s'.que q = some que' := by
  have h := que_eq_some.1 c.que
  rw [que_eq_some, c.heap, getElem?_set_self (List.getElem?_eq_some_iff.1 h).1]

theorem que_ne (h : k ≠ q) : s'.que k = s.que k := by
  rw [State.que, c.heap, getElem?_set_ne h.symm, ← State.que]

theorem que_cases (h : s'.que k = some x) : k = q ∧ x = que' ∨ k ≠ q ∧ s.que k = some x := by
  rcases eq_or_ne k q with rfl | hk
  · exact .inl ⟨rfl, some.inj (h.symm.trans c.que_self)⟩
  · exact .inr ⟨hk, c.que_ne hk ▸ h⟩

theorem proc_cases {j : Nat} {x : Phase}
    (h : s'.procs[j]? = some x) : j = i ∧ x = p' ∨ j ≠ i ∧ s.procs[j]? = some x := by
  rw [c.procs] at h
  rcases eq_or_ne j i with rfl | hj
  · rw [getElem?_set_self (List.getElem?_eq_some_iff.1 c.proc).1] at h
    exact .inl ⟨rfl, (some.inj h).symm⟩
  · rw [getElem?_set_ne hj.symm] at h
    exact .inr ⟨hj, h⟩

theorem tally_procs (w : Phase → Nat) : tally w s'.procs + w p = tally w s.procs + w p' := by
  rw [c.procs]
  exact tally_set w c.proc p'

theorem tally_heap (w : Option Que → Nat) :
    tally w s'.heap + w (some que) = tally w s.heap + w (some que') := by
  rw [c.heap]
  exact tally_set w (que_eq_some.1 c.que) (some que')

end

end Change

theorem Phase.refs_pos (h : p.held = some q) : p.refs q = 1 := if_pos h

theorem Phase.held_of_refs (h : p.refs q ≠ 0) : p.held = some q := by
  by_contra hp
  exact h (if_neg hp)

theorem Refs.change (h : Refs s) (c : Change s s' i q p p' que que')
    (hlist : s'.msgQueues = s.msgQueues) (hdying : que'.dying = que.dying)
    (hremoved : p'.removed = p.removed) (hother : ∀ k ≠ q, p'.refs k = p.refs k)
    (hmono : que.dying = true → p'.refs q ≤ p.refs q)
    (hrefs : que'.queReferences + p.refs q = que.queReferences + p'.refs q)
    (hawake : ∀ j k, s'.procs[j]? = some (.rmWait k) → s'.awake j = true →
      s.procs[j]? = some (.rmWait k) ∧ s.awake j = true ∨ tally (refs k) s'.procs = 0) :
    Refs s' := by
  have hself := h.references c.que
  have hremoves : ∀ k, tally (removes k) s'.procs = tally (removes k) s.procs := by
    intro k
    have htally := c.tally_procs (removes k)
    simp only [Phase.removes, hremoved] at htally ⊢
    omega
  have hfrefs : ∀ k ≠ q, tally (refs k) s'.procs = tally (refs k) s.procs := by
    intro k hk
    have htally := c.tally_procs (refs k)
    have hk := hother k hk
    omega
  have hthere : ∀ k, (∃ x, s.que k = some x) → ∃ x, s'.que k = some x := by
    rintro k ⟨x, hx⟩
    rcases eq_or_ne k q with rfl | hk
    · exact ⟨que', c.que_self⟩
    · exact ⟨x, (c.que_ne hk).trans hx⟩
  constructor
  case references =>
    intro k x hx
    rcases c.que_cases hx with ⟨rfl, rfl⟩ | ⟨hk, hx⟩
    · have htally := c.tally_procs (refs k)
      omega
    · rw [hfrefs k hk, h.references hx]
  case removers =>
    intro k x hx
    rw [hremoves]
    rcases c.que_cases hx with ⟨rfl, rfl⟩ | ⟨hk, hx⟩
    · rw [h.removers c.que, hdying]
    · exact h.removers hx
  case alive =>
    intro j k x hx hk
    rcases c.proc_cases hx with ⟨rfl, rfl⟩ | ⟨-, hx⟩
    · rcases eq_or_ne k q with rfl | hne
      · exact ⟨que', c.que_self⟩
      · refine hthere k (h.alive c.proc ?_)
        rcases hk with hk | hk
        · refine .inl (held_of_refs ?_)
          rw [← hother k hne, refs_pos hk]
          exact Nat.one_ne_zero
        · exact .inr (hremoved ▸ hk)
    · exact hthere k (h.alive hx hk)
  case awake =>
    intro j k hj ha
    rcases hawake j k hj ha with ⟨hj', ha'⟩ | hzero
    · have hzero := h.awake hj' ha'
      rcases eq_or_ne k q with rfl | hk
      · have hdead : que.dying = true := by
          by_contra hdead
          have hnone := h.removers c.que
          rw [if_neg hdead] at hnone
          have := tally_eq_zero.1 hnone _ (mem_of_getElem? hj')
          simp [Phase.removes, Phase.removed] at this
        have htally := c.tally_procs (refs k)
        have := hmono hdead
        omega
      · rw [hfrefs k hk, hzero]
    · exact hzero
  case listed =>
    intro k
    rw [hlist, h.listed]
    rcases eq_or_ne k q with rfl | hk
    · simp [c.que, c.que_self, hdying]
    · rw [c.que_ne hk]
  case nodup => rw [hlist]; exact h.nodup

theorem Change.asleep (c : Change s s' i q p p' que que') (hremoved : p'.removed = none)
    (hawake : ∀ j ≠ i, s'.awake j = s.awake j) (j k : Nat) (hj : s'.procs[j]? = some (.rmWait k))
    (ha : s'.awake j = true) : s.procs[j]? = some (.rmWait k) ∧ s.awake j = true ∨
      tally (refs k) s'.procs = 0 := by
  rcases c.proc_cases hj with ⟨-, hj⟩ | ⟨hji, hj⟩
  · rw [← hj] at hremoved
    cases hremoved
  · exact .inl ⟨hj, hawake j hji ▸ ha⟩

theorem Change.room (c : Change s s' i q p p' que que') (h : Counts s) (hlow : que.lowered = false)
    (hle : que'.msgCbytes + p'.promised q + que.msgQbytes ≤
      que.msgCbytes + p.promised q + que'.msgQbytes) :
    que'.msgCbytes + tally (promised q) s'.procs ≤ que'.msgQbytes := by
  have htally := c.tally_procs (promised q)
  have hroom := h.room c.que hlow
  omega

theorem Counts.change (h : Counts s) (c : Change s s' i q p p' que que')
    (hqnum : que'.msgQnum = que'.queMsgs.length)
    (hcbytes : que'.msgCbytes = tally Msg.msgLen que'.queMsgs) (hroom : que'.lowered = false →
      que'.msgCbytes + tally (promised q) s'.procs ≤ que'.msgQbytes)
    (hother : ∀ k ≠ q, p'.promised k ≤ p.promised k)
    (hnum : s'.numMsgs + que.queMsgs.length + p.allocated =
      s.numMsgs + que'.queMsgs.length + p'.allocated) : Counts s' := by
  constructor
  case qnum =>
    intro k x hx
    rcases c.que_cases hx with ⟨rfl, rfl⟩ | ⟨-, hx⟩
    · exact hqnum
    · exact h.qnum hx
  case cbytes =>
    intro k x hx
    rcases c.que_cases hx with ⟨rfl, rfl⟩ | ⟨-, hx⟩
    · exact hcbytes
    · exact h.cbytes hx
  case room =>
    intro k x hx hlow
    rcases c.que_cases hx with ⟨rfl, rfl⟩ | ⟨hk, hx⟩
    · exact hroom hlow
    · have htally := c.tally_procs (promised k)
      have := hother k hk
      have := h.room hx hlow
      omega
  case numMsgs =>
    have hheap := c.tally_heap fun o => (queMsgsAt o).length
    have hprocs := c.tally_procs allocated
    have hcount := h.numMsgs
    simp only [queMsgsAt, elim_some] at hheap hcount ⊢
    omega

structure Quiet (s s' : State) (p p' : Phase) (que que' : Que) : Prop where
  msgs : que'.queMsgs = que.queMsgs
  dying : que'.dying = que.dying
  carried : p'.carried = p.carried
  read : p'.read = none
  nextMsg : s'.nextMsg = s.nextMsg
  sent : s'.sent = s.sent
  received : s'.received = s.received
  msgQueues : s'.msgQueues = s.msgQueues

theorem Custody.change (h : Custody s) (c : Change s s' i q p p' que que')
    (honce : ∀ id, countId id que'.queMsgs + p'.carries id +
        s'.received.countP (·.msg.id = id) + (if id < s.nextMsg then 1 else 0) ≤
      countId id que.queMsgs + p.carries id + s.received.countP (·.msg.id = id) +
        if id < s'.nextMsg then 1 else 0)
    (hreads : ∀ id, p'.reads id ≤ p.reads id ∨ tally (reads id) s.procs = 0)
    (hlength : ∀ m ∈ que'.queMsgs, m.msgLen ≤ msginfo.msgmax) (hsize : p'.msgsz ≤ msginfo.msgmax)
    (hselects : ∀ j m msgtyp msgsz, j ≠ i → s.procs[j]? = some (.rcvCopyout q m msgtyp msgsz) →
      Selects que.queMsgs msgtyp m → Selects que'.queMsgs msgtyp m)
    (hselected : ∀ k m msgtyp msgsz, p' = .rcvCopyout k m msgtyp msgsz →
      k = q ∧ Selects que'.queMsgs msgtyp m ∧ (q, m) ∈ s'.sent) (hsent : s.sent ⊆ s'.sent)
    (hqueued : que'.dying = false → ∀ m ∈ que'.queMsgs, (q, m) ∈ s'.sent)
    (hkept : ∀ m, s.Kept q m → s'.Kept q m)
    (hnew : ∀ e ∈ s'.sent, e ∈ s.sent ∨ e.1 = q ∧ e.2 ∈ que'.queMsgs)
    (hold : s.received ⊆ s'.received) (hlist : s'.msgQueues ⊆ s.msgQueues)
    (hreceived : ∀ r ∈ s'.received, r ∈ s.received ∨
      Selects r.msgs r.msgtyp r.msg ∧ (r.que, r.msg) ∈ s'.sent) : Custody s' := by
  have hle : ∀ id, p'.reads id ≤ 1 := by
    intro id
    unfold reads
    split <;> omega
  constructor
  case once =>
    intro id
    have hheap := c.tally_heap fun o => countId id (queMsgsAt o)
    have hprocs := c.tally_procs (carries id)
    have hid := h.once id
    have := honce id
    simp only [queMsgsAt, elim_some] at hheap
    unfold occ at hid ⊢
    simp only [queMsgsAt] at hid ⊢
    omega
  case readers =>
    intro id
    have htally := c.tally_procs (reads id)
    have := h.readers id
    have := hle id
    rcases hreads id with hr | hr <;> omega
  case length =>
    intro k x m hx hm
    rcases c.que_cases hx with ⟨rfl, rfl⟩ | ⟨-, hx⟩
    · exact hlength m hm
    · exact h.length hx hm
  case size =>
    intro j x hx
    rcases c.proc_cases hx with ⟨rfl, rfl⟩ | ⟨-, hx⟩
    · exact hsize
    · exact h.size hx
  case selected =>
    intro j k msgsz m msgtyp hx
    rcases c.proc_cases hx with ⟨rfl, hx⟩ | ⟨hj, hx⟩
    · obtain ⟨rfl, hsel, hm⟩ := hselected k m msgtyp msgsz hx.symm
      exact ⟨⟨que', c.que_self, hsel⟩, hm⟩
    · obtain ⟨⟨x, hx', hsel⟩, hm⟩ := h.selected hx
      refine ⟨?_, hsent hm⟩
      rcases eq_or_ne k q with rfl | hk
      · obtain rfl : que = x := some.inj (c.que.symm.trans hx')
        exact ⟨que', c.que_self, hselects j m msgtyp msgsz hj hx hsel⟩
      · exact ⟨x, (c.que_ne hk).trans hx', hsel⟩
  case queued =>
    intro k x m hx hd hm
    rcases c.que_cases hx with ⟨rfl, rfl⟩ | ⟨-, hx⟩
    · exact hqueued hd m hm
    · exact hsent (h.queued hx hd hm)
  case kept =>
    intro k m hm
    rcases hnew _ hm with hm | ⟨rfl, hm⟩
    · rcases eq_or_ne k q with rfl | hk
      · exact hkept m (h.kept hm)
      · rcases h.kept hm with ⟨x, hx, hmx⟩ | ⟨r, hr, hrm⟩ | hq
        · exact .inl ⟨x, (c.que_ne hk).trans hx, hmx⟩
        · exact .inr (.inl ⟨r, hold hr, hrm⟩)
        · exact .inr (.inr fun hk => hq (hlist hk))
    · exact .inl ⟨que', c.que_self, hm⟩
  case old =>
    intro k m hm
    rw [c.heap, length_set]
    rcases hnew _ hm with hm | ⟨rfl, -⟩
    · exact h.old hm
    · exact (List.getElem?_eq_some_iff.1 (que_eq_some.1 c.que)).1
  case received =>
    intro r hr
    rcases hreceived r hr with hr | hr
    · exact ⟨(h.received hr).1, hsent (h.received hr).2⟩
    · exact hr

theorem Custody.quiet (h : Custody s) (c : Change s s' i q p p' que que')
    (hquiet : Quiet s s' p p' que que') (hsize : p'.msgsz ≤ msginfo.msgmax) : Custody s' := by
  have hread : ∀ id, p'.reads id = 0 := fun id => by simp [reads, hquiet.read]
  refine h.change c ?_ ?_ ?_ hsize ?_ ?_ ?_ ?_ ?_ ?_ ?_ (hquiet.msgQueues ▸ Subset.refl _) ?_
  · intro id
    simp only [hquiet.msgs, hquiet.received, hquiet.nextMsg, carries, hquiet.carried, Nat.le_refl]
  · exact fun id => .inl (hread id ▸ Nat.zero_le _)
  · exact fun m hm => h.length c.que (hquiet.msgs ▸ hm)
  · exact fun _ _ _ _ _ _ hsel => hquiet.msgs ▸ hsel
  · rintro k m msgtyp msgsz rfl
    cases hquiet.read
  · exact hquiet.sent ▸ Subset.refl _
  · intro hd m hm
    rw [hquiet.msgs] at hm
    exact hquiet.sent ▸ h.queued c.que (hquiet.dying ▸ hd) hm
  · rintro m (⟨x, hx, hm⟩ | ⟨r, hr, hrm⟩ | hq)
    · obtain rfl : que = x := some.inj (c.que.symm.trans hx)
      exact .inl ⟨que', c.que_self, hquiet.msgs ▸ hm⟩
    · exact .inr (.inl ⟨r, hquiet.received ▸ hr, hrm⟩)
    · exact .inr (.inr (hquiet.msgQueues ▸ hq))
  · exact fun e he => .inl (hquiet.sent ▸ he)
  · exact hquiet.received ▸ Subset.refl _
  · exact fun r hr => .inl (hquiet.received ▸ hr)

end Mbsd.Kern.SysvMsg
