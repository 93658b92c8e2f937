import Mbsd.Kern.SysvMsg.Queues

/-! The loops of the two calls keep the invariant, as long as a sender finds room for what it will
really put on the queue, and a receiver finds a message that it may take and that nobody else copies
out. -/

namespace Mbsd.Kern.SysvMsg

open Lib.Tally Sys State List

variable {s s' : State} {i k q msgsz : Nat} {p : Phase} {que : Que} {m : Msg} {msgtyp : Int}
  {id : Nat} {perm : Option Errno}

/-- A sender that passes the check of `sys_msgsnd` finds room for all that `msg_copyin` makes of
its message, besides what the senders that have passed the check before it will bring. -/
def RoomFor (s : State) (q msgsz : Nat) : Prop :=
  ∀ que, s.que q = some que → que.dying = false → que.lowered = false →
    msgsz ≤ msgqSpace que → s.numMsgs < msginfo.msgtql →
      que.msgCbytes + tally (Phase.promised q) s.procs + copiedLen msgsz ≤ que.msgQbytes

/-- A receiver that finds a message has a `msgtyp` that is an `int` with its absolute value, if it
is negative the oldest message of at least that type is of that type, and no other process copies
the message out. -/
def MayTake (s : State) (q : Nat) (msgtyp : Int) : Prop :=
  ∀ que m, s.que q = some que → msgLookup que.queMsgs (toInt msgtyp) = some m →
    (-2 ^ 31 < msgtyp ∧ msgtyp < 2 ^ 31) ∧
    (msgtyp < 0 → ∀ x, que.queMsgs.find? (fun x => -msgtyp ≤ x.msgType) = some x →
      x.msgType = -msgtyp) ∧
    ∀ p ∈ s.procs, p.read.map Msg.id ≠ some m.id

theorem toInt_eq {x : Int} (h : -2 ^ 31 ≤ x) (h' : x < 2 ^ 31) : toInt x = x := by
  unfold toInt
  rw [Int.bmod_def]
  split <;> omega

theorem selects_msgLookup {msgs : List Msg} (h : msgLookup msgs (toInt msgtyp) = some m)
    (hrange : -2 ^ 31 < msgtyp ∧ msgtyp < 2 ^ 31)
    (hneg : msgtyp < 0 → ∀ x, msgs.find? (fun x => -msgtyp ≤ x.msgType) = some x →
      x.msgType = -msgtyp) : Selects msgs msgtyp m := by
  rw [toInt_eq (Int.le_of_lt hrange.1) hrange.2] at h
  unfold msgLookup at h
  refine ⟨mem_of_find?_eq_some h, fun ht => ?_, fun ht => ?_, fun ht => ?_⟩
  · rw [← h]
    congr 1
    funext x
    simp only [decide_eq_decide]
    omega
  · rw [Selects.head?_eq_find?, ← h]
    congr 1
    funext x
    simp [ht]
  · rw [toInt_eq (by omega) (by omega)] at h
    refine Int.le_of_eq (hneg ht m ?_)
    rw [← h]
    congr 1
    funext x
    have := x.one_le
    simp only [decide_eq_decide]
    omega

namespace Running

section

variable (h : Running s i q)

include h

theorem maxmsgs (maxmsgs : Bool) : Running { s with maxmsgs } i q := by
  obtain ⟨hlt, hfault, ⟨⟩, ⟨⟩, ⟨⟩⟩ := h
  exact ⟨hlt, hfault, ⟨‹_›, ‹_›, ‹_›, ‹_›, ‹_›, ‹_›⟩, ⟨‹_›, ‹_›, ‹_›, ‹_›⟩,
    ⟨‹_›, ‹_›, ‹_›, ‹_›, ‹_›, ‹_›, ‹_›, ‹_›, ‹_›⟩⟩

theorem sndLoop (hsize : msgsz ≤ msginfo.msgmax)
    (hd : ∀ que, s.que q = some que → que.dying = false)
    (hroom : RoomFor (s.goOn i (.statCopyout q)) q msgsz) (nowait : Bool) :
    Inv (sndLoop s i q msgsz nowait) := by
  refine h.deref_iff fun que hq => ?_
  split
  case isTrue =>
    split
    · exact h.out _
    · have hflag := (h.maxmsgs (s.maxmsgs || decide (msginfo.msgtql ≤ s.numMsgs))).flags hq
        que.readers true
      refine hflag.goOn rfl rfl rfl rfl hsize (fun _ _ => rfl) fun x hx hlow => ?_
      exact hflag.inv.counts.room hx hlow
  case isFalse hpass =>
    rw [not_or, Nat.not_lt, Nat.not_le] at hpass
    refine h.goOn rfl rfl rfl rfl hsize (fun k hk => if_neg hk.symm) fun x hx hlow => ?_
    have hone : (Phase.sndCreate q msgsz).promised q = copiedLen msgsz := if_pos rfl
    obtain rfl : que = x := Option.some.inj (hq.symm.trans hx)
    rw [hone]
    exact hroom que hq (hd que hq) hlow hpass.1 hpass.2

theorem rcvLoop (hd : ∀ que, s.que q = some que → que.dying = false)
    (htake : MayTake (s.goOn i (.statCopyout q)) q msgtyp) (nowait : Bool) :
    Inv (rcvLoop s i q msgtyp msgsz nowait) := by
  refine h.deref_iff fun que hq => ?_
  cases hm : msgLookup que.queMsgs (toInt msgtyp) with
  | none =>
    dsimp only
    split
    · exact h.out _
    · have hflag := h.flags hq true que.writers
      refine hflag.goOn rfl rfl rfl rfl (Nat.zero_le _) (fun _ _ => rfl) fun x hx hlow => ?_
      exact hflag.inv.counts.room hx hlow
  | some m =>
    obtain ⟨hrange, hneg, hfree⟩ := htake que m hq hm
    have hsel := selects_msgLookup hm hrange hneg
    have hlen := h.inv.custody.length hq hsel.mem
    dsimp only
    rw [if_neg (Nat.not_lt.2 hlen)]
    exact h.select hq (hd que hq) hsel hfree

theorem clearReaders : Running (wakeReaders s q) i q := by
  refine h.deref_iff (P := fun t => Running t i q) fun que hq => ?_
  split
  · exact (h.flags hq false que.writers).wakeup q
  · exact h

theorem wakewriter (hk : ∃ que, s.que k = some que) : Running (queWakewriter s k) i q := by
  obtain ⟨que, hk⟩ := hk
  rw [queWakewriter, deref, hk]
  show Running (if _ then _ else _) i q
  split
  · exact (h.flags hk que.readers false).wakeup k
  · exact h

end

theorem exists_que_wakewriter (k j : Nat) (hj : ∃ que, s.que j = some que) :
    ∃ que, (queWakewriter s k).que j = some que := by
  obtain ⟨y, hy⟩ := hj
  unfold queWakewriter deref
  cases hk : s.que k with
  | none => exact ⟨y, hy⟩
  | some que =>
    dsimp only [Option.elim]
    split
    · rcases eq_or_ne j k with rfl | hjk
      · have hlt := (List.getElem?_eq_some_iff.1 (que_eq_some.1 hk)).1
        exact ⟨_, que_eq_some.2 (getElem?_set_self hlt)⟩
      · exact ⟨y, que_eq_some.2 ((getElem?_set_ne hjk.symm).trans (que_eq_some.1 hy))⟩
    · exact ⟨y, hy⟩

theorem wakewriters_foldl (l : List Nat) (h : Running s i q)
    (hl : ∀ k ∈ l, ∃ que, s.que k = some que) : Running (l.foldl queWakewriter s) i q := by
  induction l generalizing s with
  | nil => exact h
  | cons k l ih =>
    rw [forall_mem_cons] at hl
    exact ih (h.wakewriter hl.1) fun j hj => exists_que_wakewriter k j (hl.2 j hj)

theorem wakewriters (h : Running s i q) :
    Running (queWakewriters { s with maxmsgs := false }) i q := by
  have h' : Running { s with maxmsgs := false } i q := h.maxmsgs false
  refine wakewriters_foldl _ h' fun k hk => ?_
  obtain ⟨que, hq, -⟩ := h'.inv.refs.listed.1 hk
  exact ⟨que, hq⟩

end Running

/-! The queues are typed FIFOs with exactly-once delivery in every run whose actions meet the
condition. -/

open Option

variable {s s' : State} {i q msgsz : Nat} {p : Phase} {que : Que} {m : Msg} {msgtyp : Int}

def Meets (s : State) : Action → Prop
  | .msgsnd _ msqid msgsz _ none => ∀ q, queLookup s msqid = some q → RoomFor s q msgsz
  | .msgrcv _ msqid _ msgtyp _ none => ∀ q, queLookup s msqid = some q → MayTake s q msgtyp
  | .woken i none =>
    (∀ q msgsz, s.procs[i]? = some (.sndWait q msgsz) → RoomFor s q msgsz) ∧
      ∀ q msgtyp msgsz, s.procs[i]? = some (.rcvWait q msgtyp msgsz) → MayTake s q msgtyp
  | _ => True

inductive Reachable : State → Prop
  | init : Reachable msginit
  | step {s s' : State} {a : Action} : Reachable s → act s a = some s' → Reachable s'

inductive Runs : State → Prop
  | init : Runs msginit
  | step {s s' : State} {a : Action} : Runs s → Meets s a → act s a = some s' → Runs s'

structure TypedFifo (s : State) : Prop where
  atMostOnce : (s.received.map fun r => r.msg.id).Nodup
  wasSent {r : Receipt} : r ∈ s.received → (r.que, r.msg) ∈ s.sent
  neverLost {q : Nat} {m : Msg} : (q, m) ∈ s.sent → s.Kept q m
  taken {r : Receipt} : r ∈ s.received → Selects r.msgs r.msgtyp r.msg
  qnum {q : Nat} {que : Que} : s.que q = some que → que.msgQnum = que.queMsgs.length
  cbytes {q : Nat} {que : Que} : s.que q = some que → que.msgCbytes = tally Msg.msgLen que.queMsgs
  room {q : Nat} {que : Que} :
    s.que q = some que → que.lowered = false → que.msgCbytes ≤ que.msgQbytes
  numMsgs : s.numMsgs =
    tally (fun o => (queMsgsAt o).length) s.heap + tally Phase.allocated s.procs
  referred {i q : Nat} {p : Phase} :
    s.procs[i]? = some p → p.held = some q ∨ p.removed = some q → ∃ que, s.que q = some que
  faulted : s.faulted = false

theorem queLookup_eq_some (h : queLookup s id = some q) :
    ∃ que, s.que q = some que ∧ que.dying = false := by
  have hd := (filter_eq_some_iff.1 h).2
  obtain ⟨que, hq, hd⟩ := Option.any_eq_true .. |>.1 hd
  exact ⟨que, hq, by simpa using hd⟩

theorem que_setQue_self (hq : s.que q = some que) (que' : Que) :
    (s.setQue q que').que q = some que' :=
  que_eq_some.2 (getElem?_set_self (List.getElem?_eq_some_iff.1 (que_eq_some.1 hq)).1)

theorem RoomFor.qref (h : RoomFor s q msgsz) (hq : s.que q = some que) :
    RoomFor (s.setQue q (qref que)) q msgsz := by
  intro x hx
  obtain rfl : SysvMsg.qref que = x := some.inj ((que_setQue_self hq _).symm.trans hx)
  exact h que hq

theorem RoomFor.goOn (h : RoomFor s q msgsz) (hp : s.procs[i]? = some p)
    (hnone : p.promised q = 0) : RoomFor (s.goOn i (.statCopyout q)) q msgsz := by
  intro x hx hd hlow hspace hnum
  have hsame : tally (Phase.promised q) (s.goOn i (.statCopyout q)).procs =
      tally (Phase.promised q) s.procs := tally_set_eq hp hnone.symm
  rw [hsame]
  exact h x hx hd hlow hspace hnum

theorem MayTake.qref (h : MayTake s q msgtyp) (hq : s.que q = some que) :
    MayTake (s.setQue q (qref que)) q msgtyp := by
  intro x m hx hm
  obtain rfl : SysvMsg.qref que = x := some.inj ((que_setQue_self hq _).symm.trans hx)
  exact h que m hq hm

theorem MayTake.goOn (h : MayTake s q msgtyp) (i : Nat) :
    MayTake (s.goOn i (.statCopyout q)) q msgtyp := by
  intro x m hx hm
  obtain ⟨hrange, hneg, hfree⟩ := h x m hx hm
  refine ⟨hrange, hneg, fun p hp => ?_⟩
  rcases mem_or_eq_of_mem_set hp with hp | rfl
  · exact hfree p hp
  · exact nofun

theorem msgCopyin_ok {type : Except Errno Int} {ubuf : Except Errno (Nat → Byte)}
    (h : msgCopyin id msgsz type ubuf = .ok m) : m.id = id ∧ m.msgLen = copiedLen msgsz := by
  unfold msgCopyin at h
  cases type with
  | error e => cases h
  | ok t =>
    dsimp only at h
    split at h
    · cases h
    · cases hdata : copyinChunks ubuf (copyinLens msgsz) with
      | error e =>
        rw [hdata] at h
        cases h
      | ok data =>
        rw [hdata] at h
        cases h
        exact ⟨rfl, rfl⟩

namespace Inv

theorem sysMsgsnd (h : Inv s) (hp : s.procs[i]? = some (.returned r))
    (hmeets : Meets s (.msgsnd i msqid msgsz nowait perm)) :
    Inv (sysMsgsnd s i msqid msgsz nowait perm) := by
  have hback : ∀ r, Inv (s.goOn i (.returned r)) := fun r => h.idle hp ⟨rfl, rfl⟩ ⟨rfl, rfl⟩
  unfold SysvMsg.sysMsgsnd
  cases hl : queLookup s msqid with
  | none => exact hback _
  | some q =>
    obtain ⟨que, hq, hd⟩ := queLookup_eq_some hl
    dsimp only [State.deref]
    rw [hq, Option.elim_some]
    split
    case isTrue => exact hback _
    case isFalse hsize =>
      rw [not_or, Nat.not_lt, Nat.not_lt] at hsize
      cases perm with
      | some e => exact hback _
      | none =>
        have hrun := h.takeRef hp hq hd
        have hroom : RoomFor (s.setQue q (qref que)) q msgsz := (hmeets q hl).qref hq
        refine hrun.sndLoop hsize.2 (fun x hx => ?_) (hroom.goOn hp rfl) nowait
        obtain rfl : qref que = x := Option.some.inj ((que_setQue_self hq _).symm.trans hx)
        exact hd

theorem sysMsgrcv (h : Inv s) (hp : s.procs[i]? = some (.returned r))
    (hmeets : Meets s (.msgrcv i msqid msgsz msgtyp nowait perm)) :
    Inv (sysMsgrcv s i msqid msgsz msgtyp nowait perm) := by
  have hback : ∀ r, Inv (s.goOn i (.returned r)) := fun r => h.idle hp ⟨rfl, rfl⟩ ⟨rfl, rfl⟩
  unfold SysvMsg.sysMsgrcv
  cases hl : queLookup s msqid with
  | none => exact hback _
  | some q =>
    obtain ⟨que, hq, hd⟩ := queLookup_eq_some hl
    cases perm with
    | some e => exact hback _
    | none =>
      dsimp only [deref]
      rw [hq, elim_some]
      have hrun := h.takeRef hp hq hd
      have htake : MayTake (s.setQue q (qref que)) q msgtyp := (hmeets q hl).qref hq
      refine hrun.rcvLoop (fun x hx => ?_) (htake.goOn i) nowait
      obtain rfl : qref que = x := some.inj ((que_setQue_self hq _).symm.trans hx)
      exact hd

theorem ipcRmid (h : Running s i q) (hd : ∀ que, s.que q = some que → que.dying = false) :
    Inv (ipcRmid s i q) := by
  refine h.deref_iff fun que hq => ?_
  dsimp only
  set que' : Que := { que with dying := true, queReferences := que.queReferences - 1 } with hque
  set t : State := { s with msgQueues := s.msgQueues.erase q }.setQue q que' with ht
  have hinv : Inv (t.goOn i (.rmWait q)) := h.remove hq (hd que hq) hque
  split
  case isTrue =>
    refine hinv.awake fun j k hj ha => ?_
    rcases eq_or_ne j i with rfl | hji
    · simp at ha
    · have hj' : t.procs[j]? = some (.rmWait k) := (getElem?_set_ne hji.symm).symm.trans hj
      simpa [wakeup, goOn, Function.update_of_ne hji, sleepsOn, hj'] using ha
  case isFalse hnone =>
    have hproc : (t.goOn i (.rmWait q)).procs[i]? = some (.rmWait q) := getElem?_goOn h.lt
    have hque' : (t.goOn i (.rmWait q)).que q = some que' :=
      que_setQue_self (s := { s with msgQueues := s.msgQueues.erase q }) hq que'
    have hzero : tally (Phase.refs q) (t.goOn i (.rmWait q)).procs = 0 := by
      rw [← hinv.refs.references hque']
      exact Nat.eq_zero_of_not_pos hnone
    have hfree := hinv.free hproc hque' hzero (.ok 0)
    have hsame : (queFree (t.goOn i (.rmWait q)) q que').goOn i (.returned (.ok 0)) =
        (queFree t q que').goOn i (.returned (.ok 0)) := by
      rw [queFree, queFree, if_neg hnone, if_neg hnone]
      simp [goOn]
    exact hsame ▸ hfree

section

variable (h : Inv s)

include h

theorem sysMsgctl (hp : s.procs[i]? = some (.returned r)) (cmd : Cmd)
    (perm : Option Errno) : Inv (sysMsgctl s i msqid cmd perm) := by
  unfold SysvMsg.sysMsgctl
  cases hl : queLookup s msqid with
  | none => exact h.idle hp ⟨rfl, rfl⟩ ⟨rfl, rfl⟩
  | some q =>
    obtain ⟨que, hq, hd⟩ := queLookup_eq_some hl
    have hrun := h.takeRef hp hq hd
    have hstay : ∀ x, (s.setQue q (qref que)).que q = some x → x.lowered = false →
        x.msgCbytes + tally (Phase.promised q)
          ((s.setQue q (qref que)).goOn i (.statCopyout q)).procs + 0 ≤ x.msgQbytes :=
      fun x hx hlow => hrun.inv.counts.room hx hlow
    dsimp only [deref]
    rw [hq, elim_some]
    split
    · exact hrun.out _
    · exact hrun.out _
    · refine ipcRmid hrun fun x hx => ?_
      obtain rfl : qref que = x := some.inj ((que_setQue_self hq _).symm.trans hx)
      exact hd
    · exact hrun.goOn rfl rfl rfl rfl (Nat.zero_le _) (fun _ _ => rfl) hstay
    · exact hrun.goOn rfl rfl rfl rfl (Nat.zero_le _) (fun _ _ => rfl) hstay

section

variable (hp : s.procs[i]? = some p) (hidle : p.Idle) (key : Int) (creat excl : Bool)
  (perm : Option Errno)

include hp hidle

theorem sysMsgget : Inv (sysMsgget s i key creat excl perm) := by
  have hback : ∀ r, Inv (s.goOn i (.returned r)) := fun r => h.idle hp hidle ⟨rfl, rfl⟩
  unfold SysvMsg.sysMsgget
  cases hl : queKeyLookup s key with
  | none =>
    dsimp only
    split
    · exact hback _
    · split
      · exact hback _
      · exact h.idle hp hidle ⟨rfl, rfl⟩
  | some q =>
    dsimp only
    split
    · exact hback _
    · cases perm with
      | some e => exact hback _
      | none =>
        unfold queKeyLookup at hl
        split at hl
        · cases hl
        · have hany := (filter_eq_some_iff.1 hl).2
          obtain ⟨que, hq, -⟩ := Option.any_eq_true .. |>.1 hany
          dsimp only [deref]
          rw [hq]
          exact hback _

theorem queAllocated : Inv (queAllocated s i key creat excl perm) := by
  unfold SysvMsg.queAllocated
  cases queKeyLookup s key with
  | some q => exact h.sysMsgget hp hidle key creat excl perm
  | none => exact (h.create key).idle hp hidle ⟨rfl, rfl⟩

end

theorem sndWoken (hp : s.procs[i]? = some (.sndWait q msgsz)) (error : Option Errno)
    (hroom : error = none → RoomFor s q msgsz) : Inv (sndWoken s i q msgsz error) := by
  have hrun := h.running hp rfl rfl
  cases error with
  | some e => exact hrun.out _
  | none =>
    refine hrun.deref_iff fun que hq => ?_
    split
    case isTrue => exact hrun.out _
    case isFalse hd =>
      refine hrun.sndLoop (h.custody.size hp :) (fun x hx => ?_) ((hroom rfl).goOn hp rfl) false
      obtain rfl : que = x := some.inj (hq.symm.trans hx)
      exact Bool.eq_false_of_not_eq_true hd

theorem rcvWoken (hp : s.procs[i]? = some (.rcvWait q msgtyp msgsz))
    (error : Option Errno) (htake : error = none → MayTake s q msgtyp) :
    Inv (rcvWoken s i q msgtyp msgsz error) := by
  have hrun := h.running hp rfl rfl
  cases error with
  | some e => exact hrun.out _
  | none =>
    refine hrun.deref_iff fun que hq => ?_
    split
    case isTrue => exact hrun.out _
    case isFalse hd =>
      refine hrun.rcvLoop (fun x hx => ?_) ((htake rfl).goOn i) false
      obtain rfl : que = x := some.inj (hq.symm.trans hx)
      exact Bool.eq_false_of_not_eq_true hd

theorem msgCreate (hp : s.procs[i]? = some (.sndCreate q msgsz)) : Inv (msgCreate s i q msgsz) := by
  have hrun := h.running hp rfl rfl
  refine hrun.deref_iff fun que _ => ?_
  split
  · exact (hrun.wakeup q).out _
  · exact h.allocate hp

theorem sndCopied (hp : s.procs[i]? = some (.sndCopyin q msgsz id))
    (type : Except Errno Int) (ubuf : Except Errno (Nat → Byte)) :
    Inv (sndCopied s i q (msgCopyin id msgsz type ubuf)) := by
  cases hm : msgCopyin id msgsz type ubuf with
  | error e => exact (h.unallocate hp).out _
  | ok m =>
    obtain ⟨hid, hlen⟩ := msgCopyin_ok hm
    obtain ⟨que, hq⟩ := h.refs.alive hp (.inl rfl)
    subst hid
    have hout : ∀ t, Running t i q →
        Inv (if que.dying then out (t.wakeup q) i q (.error .EIDRM) else out t i q (.ok 0)) := by
      intro t hrun
      split
      · exact (hrun.wakeup q).out _
      · exact hrun.out _
    unfold SysvMsg.sndCopied
    dsimp only [deref]
    rw [hq, elim_some]
    exact hout _ (h.enqueue hp hq hlen).clearReaders

theorem rcvCopied (hp : s.procs[i]? = some (.rcvCopyout q m msgtyp msgsz))
    (error : Option Errno) : Inv (rcvCopied s i q m msgtyp msgsz error) := by
  cases error with
  | some e => exact (h.running hp rfl rfl).out _
  | none =>
    obtain ⟨que, hq⟩ := h.refs.alive hp (.inl rfl)
    obtain ⟨hmem, hrun⟩ := h.dequeue hp hq
    have hwake := hrun.wakewriter hrun.exists_que
    unfold SysvMsg.rcvCopied
    dsimp only [deref]
    rw [hq, elim_some, if_pos hmem]
    split
    · exact hwake.wakewriters.out _
    · exact hwake.out _

theorem setCopied (hp : s.procs[i]? = some (.setCopyin q)) (qbytes : Except Errno Nat)
    (root : Bool) : Inv (setCopied s i q qbytes root) := by
  have hrun := h.running hp rfl rfl
  cases qbytes with
  | error e => exact hrun.out _
  | ok n =>
    refine hrun.deref_iff fun que hq => ?_
    dsimp only
    split
    · exact hrun.out _
    · generalize (if msginfo.msgmnb < n then msginfo.msgmnb else n) = n
      split
      · exact hrun.out _
      · have hset : Running (s.setQue q { que with
            msgQbytes := n
            lowered := que.lowered || decide (n < que.msgQbytes) }) i q := by
          refine hrun.setQue hq rfl rfl rfl rfl rfl fun hlow => ?_
          rw [Bool.or_eq_false_iff, decide_eq_false_iff_not, Nat.not_lt] at hlow
          exact hlow
        exact hset.out _

theorem rmWoken (hp : s.procs[i]? = some (.rmWait q)) (ha : s.awake i = true) :
    Inv (rmWoken s i q) := by
  obtain ⟨que, hq⟩ := h.refs.alive hp (.inr rfl)
  unfold SysvMsg.rmWoken
  dsimp only [deref]
  rw [hq]
  exact h.free hp hq (h.refs.awake hp ha) _

theorem act {a : Action} (hmeets : Meets s a) (hact : act s a = some s') : Inv s' := by
  cases a with
  | fork =>
    cases hact
    exact h.fork
  | msgget i key creat excl perm =>
    simp only [SysvMsg.act] at hact
    split at hact
    case h_1 hp =>
      cases hact
      exact h.sysMsgget hp ⟨rfl, rfl⟩ key creat excl perm
    case h_2 => cases hact
  | msgctl i msqid cmd perm =>
    simp only [SysvMsg.act] at hact
    split at hact
    case h_1 hp =>
      cases hact
      exact h.sysMsgctl hp cmd perm
    case h_2 => cases hact
  | msgsnd i msqid msgsz nowait perm =>
    simp only [SysvMsg.act] at hact
    split at hact
    case h_1 hp =>
      cases hact
      exact h.sysMsgsnd hp hmeets
    case h_2 => cases hact
  | msgrcv i msqid msgsz msgtyp nowait perm =>
    simp only [SysvMsg.act] at hact
    split at hact
    case h_1 hp =>
      cases hact
      exact h.sysMsgrcv hp hmeets
    case h_2 => cases hact
  | woken i error =>
    simp only [SysvMsg.act] at hact
    split at hact
    case h_1 q msgsz hp =>
      split at hact
      · cases hact
      · cases hact
        refine h.sndWoken hp error ?_
        rintro rfl
        exact hmeets.1 q msgsz hp
    case h_2 q msgtyp msgsz hp =>
      split at hact
      · cases hact
      · cases hact
        refine h.rcvWoken hp error ?_
        rintro rfl
        exact hmeets.2 q msgtyp msgsz hp
    case h_3 q hp =>
      split at hact
      case isTrue ha =>
        cases hact
        exact h.rmWoken hp ha
      case isFalse => cases hact
    case h_4 => cases hact
  | allocated i perm =>
    simp only [SysvMsg.act] at hact
    split at hact
    case h_1 hp =>
      cases hact
      exact h.msgCreate hp
    case h_2 key creat excl hp =>
      cases hact
      exact h.queAllocated hp ⟨rfl, rfl⟩ key creat excl perm
    case h_3 => cases hact
  | sndCopied i type ubuf =>
    simp only [SysvMsg.act] at hact
    split at hact
    case h_1 hp =>
      cases hact
      exact h.sndCopied hp type ubuf
    case h_2 => cases hact
  | setCopied i qbytes root =>
    simp only [SysvMsg.act] at hact
    split at hact
    case h_1 hp =>
      cases hact
      exact h.setCopied hp qbytes root
    case h_2 => cases hact
  | copiedOut i error =>
    simp only [SysvMsg.act] at hact
    split at hact
    case h_1 hp =>
      cases hact
      exact h.rcvCopied hp error
    case h_2 hp =>
      cases hact
      exact (h.running hp rfl rfl).out _
    case h_3 => cases hact

end

theorem init : Inv msginit := by
  refine ⟨rfl, ⟨?_, ?_, ?_, ?_, ?_, nodup_nil⟩, ⟨?_, ?_, ?_, rfl⟩,
    ⟨fun id => ?_, fun _ => Nat.zero_le _, ?_, ?_, ?_, ?_, nofun, nofun, nofun⟩⟩
  all_goals simp [msginit, que, occ]

theorem typedFifo (h : Inv s) : TypedFifo s where
  atMostOnce := by
    refine nodup_iff_count_le_one.2 fun id => ?_
    have hocc := h.custody.once id
    have hone : (if id < s.nextMsg then 1 else 0) ≤ 1 := by split <;> omega
    have hcount : (s.received.map fun r => r.msg.id).count id =
        s.received.countP (·.msg.id = id) := by
      rw [count, countP_map]
      rfl
    unfold occ at hocc
    omega
  wasSent hr := (h.custody.received hr).2
  neverLost := h.custody.kept
  taken hr := (h.custody.received hr).1
  qnum := h.counts.qnum
  cbytes := h.counts.cbytes
  room hq hlow := Nat.le_trans (Nat.le_add_right ..) (h.counts.room hq hlow)
  numMsgs := h.counts.numMsgs
  referred := h.refs.alive
  faulted := h.faulted

end Inv

theorem Runs.inv (h : Runs s) : Inv s := by
  induction h with
  | init => exact Inv.init
  | step _ hmeets hact ih => exact ih.act hmeets hact

/-- Where every sender that passes the check has room for what it will put on the queue, and every
receiver that finds a message may take it, the queues are typed FIFOs. -/
theorem messages_delivered_once (s : State) (h : Runs s) : TypedFifo s := h.inv.typedFifo

/-- A message of type 5 is sent and received. -/
theorem messages_delivered_once_five :
    ∃ s, (∃ r ∈ s.received, r.msg.msgType = 5) ∧ TypedFifo s := by
  have hopen := ((Runs.init.step (a := .fork) trivial rfl).step
    (a := .msgget 0 1 true false none) trivial rfl).step (a := .allocated 0 none) trivial rfl
  have hsend := ((hopen.step (a := .msgsnd 0 1 0 false none) (by
    intro q hq que hque _ _ _ _
    obtain rfl : 0 = q := some.inj hq
    obtain rfl := some.inj hque
    decide) rfl).step (a := .allocated 0 none) trivial rfl).step
    (a := .sndCopied 0 (.ok 5) (.ok fun _ => 0)) trivial rfl
  have hreceive := (hsend.step (a := .msgrcv 0 1 0 5 false none) (by
    intro q _ que m _ _
    refine ⟨by decide, fun h => absurd h (by decide), fun p hp => ?_⟩
    obtain rfl := mem_singleton.1 hp
    exact nofun) rfl).step (a := .copiedOut 0 none) trivial rfl
  exact ⟨_, ⟨_, mem_singleton_self _, rfl⟩, messages_delivered_once _ hreceive⟩

def actAll (s : State) (l : List Action) : Option State := l.foldlM act s

theorem reachable_actAll {l : List Action} (h : Reachable s) (hrun : actAll s l = some s') :
    Reachable s' := by
  induction l generalizing s with
  | nil =>
    cases hrun
    exact h
  | cons a l ih =>
    obtain ⟨t, ha, hrun⟩ := bind_eq_some_iff.1 hrun
    exact ih (h.step ha) hrun

def takesLarger : List Action :=
  [.fork, .msgget 0 1 true false none, .allocated 0 none, .msgsnd 0 1 0 false none,
    .allocated 0 none, .sndCopied 0 (.ok 5) (.ok fun _ => 0), .msgrcv 0 1 0 (-3) false none,
    .copiedOut 0 none]

theorem messages_not_typed : ¬∀ s, Reachable s → TypedFifo s := by
  intro h
  have hrun : ∃ s, actAll msginit takesLarger = some s ∧
      ∃ r ∈ s.received, r.msgtyp = -3 ∧ r.msg.msgType = 5 := by
    refine ⟨_, rfl, _, mem_singleton_self _, rfl, rfl⟩
  obtain ⟨s, hs, r, hr, htyp, htype⟩ := hrun
  have hle := ((h s (reachable_actAll .init hs)).taken hr).upTo (by rw [htyp]; decide)
  rw [htyp, htype] at hle
  exact absurd hle (by decide)

end Mbsd.Kern.SysvMsg
