import Mbsd.Kern.SysPipe.Transfer

/-! Each step keeps the invariant. -/

namespace Mbsd.Kern.SysPipe

open Lib RingSlice Mbsd.Sys List Option Nat Quiet

variable {ι : Type} {s s' : Sys ι} {i j : ι} {b : Pipebuf} {r : Read} {w : Write}
  {size segsize addr n k : Nat} {second : Bool} {got taken : List Byte} {error : Option Errno}
  {log : List (Nat × List Byte)} {calls : List (List Byte)} {io : Io}

theorem Quiet.setBusy (s : Sys ι) (pipeBusy : Nat) : Quiet s (s.setPipe { s.pipe with pipeBusy }) :=
  ⟨rfl, rfl, rfl, rfl, rfl, rfl, fun _ => rfl⟩

theorem Quiet.setWantr (s : Sys ι) : Quiet s (s.setPipe { s.pipe with wantr := true }) :=
  ⟨rfl, rfl, rfl, rfl, rfl, rfl, fun _ => rfl⟩

theorem Quiet.setWantw (s : Sys ι) : Quiet s (s.setPipe { s.pipe with wantw := true }) :=
  ⟨rfl, rfl, rfl, rfl, rfl, rfl, fun _ => rfl⟩

theorem Quiet.setLwant (s : Sys ι) : Quiet s (s.setPipe { s.pipe with lwant := true }) :=
  ⟨rfl, rfl, rfl, rfl, rfl, rfl, fun _ => rfl⟩

theorem Quiet.writeOk (h : Quiet s s') (hw : WriteOk s.log s.calls w taken) :
    WriteOk s'.log s'.calls w taken := h.log ▸ h.calls ▸ hw

structure Owns (s : Sys ι) (i : ι) : Prop where
  rest : Rest s i
  alone : Alone s i
  lock : s.pipe.lock = true

theorem Quiet.owns (h : Quiet s s') (ho : Owns s i) : Owns s' i :=
  ⟨h.rest ho.rest, h.alone ho.alone, h.lock.trans ho.lock⟩

theorem Owns.iounlock (h : Owns s i) : Rest (pipeIounlock s) i :=
  (quiet_pipeIounlock h.lock).rest (h.rest.setLock h.alone false)

theorem Inv.owns (h : Inv s) (hi : (s.threads i).phase.holds) : Owns s i :=
  ⟨h.rest i, h.alone hi, h.lock i hi⟩

theorem Owns.update (h : Owns s i) (hc : Core s') (hthreads : s'.threads = s.threads)
    (hlock : s'.pipe.lock = s.pipe.lock)
    (hw : ∀ j ≠ i, ∀ w, (s.threads j).phase.write? = some w → WriteOk s.log s.calls w [] →
      WriteOk s'.log s'.calls w []) : Owns s' i := by
  refine ⟨⟨hc, fun j hj => ?_, fun j hj hh => ?_, ?_, ?_⟩, ?_, hlock.trans h.lock⟩
  · rw [hthreads]
    have hp := h.rest.phases j hj
    have hh := h.alone j hj
    cases hphase : (s.threads j).phase with
    | readMove => exact absurd (by rw [hphase]; trivial) hh
    | writeMove => exact absurd (by rw [hphase]; trivial) hh
    | returned => trivial
    | asleep io wait =>
      cases io with
      | read r => trivial
      | write w =>
        rw [hphase] at hp
        exact hw j hj w (by rw [hphase]; rfl) hp
  · rw [hthreads] at hh
    exact absurd hh (h.alone j hj)
  · rw [hthreads]
    exact h.rest.unique
  · rw [hthreads]
    exact h.rest.distinct
  · rw [Alone, hthreads]
    exact h.alone

def IoOk (s : Sys ι) (i : ι) : Io → Prop
  | .read _ => True
  | .write w => WriteOk s.log s.calls w [] ∧ Fresh s i w.call

theorem writeCommit_eq (hseg : s.pipe.pipeBuffer.size ≤ s.pipe.pipeBuffer.inp + size →
      s.pipe.pipeBuffer.inp + size = size - segsize + s.pipe.pipeBuffer.size)
    (hcnt : ¬s.pipe.pipeBuffer.size < (produced s.pipe.pipeBuffer size segsize).cnt) :
    writeCommit s w size segsize taken =
      { s.setBuffer (produced s.pipe.pipeBuffer size segsize) with
        log := s.log ++ [(w.call, taken)] } := by
  unfold writeCommit
  dsimp only
  rw [show s.kassert _ = s from if_pos hseg, show s.kassert _ = s from if_pos hcnt]
  rfl

theorem Owns.resize (h : Owns s i) (w : Write) (grow : Option (Nat → Byte)) :
    Owns (resize s w grow) i ∧ (resize s w grow).log = s.log ∧
      (resize s w grow).calls = s.calls ∧ (resize s w grow).threads = s.threads := by
  unfold SysPipe.resize
  split
  next hbig =>
    cases grow with
    | none => exact ⟨h, rfl, rfl, rfl⟩
    | some buffer =>
      have hcnt : s.pipe.pipeBuffer.cnt = 0 := hbig.2.2
      unfold pipeBufferRealloc
      dsimp only
      rw [show s.kassert (s.pipe.lock = true) = s from if_pos h.lock,
        show s.kassert _ = s from if_pos hcnt]
      refine ⟨h.update ⟨⟨zero_lt_succ _, zero_lt_succ _, ?_, ?_⟩, ?_, h.rest.calls,
        h.rest.log_lt, h.rest.no_panic⟩ rfl rfl fun _ _ _ _ hw => hw, rfl, rfl, rfl⟩
      · exact Nat.le_trans (Nat.le_of_eq hcnt) (Nat.zero_le _)
      · show 0 = wrap bigPipeSize (0 + s.pipe.pipeBuffer.cnt)
        rw [hcnt]
        rfl
      · have hold := h.rest.contents
        rw [Pipebuf.contents, hcnt] at hold
        rw [hcnt]
        exact hold
  next => exact ⟨h, rfl, rfl, rfl⟩

theorem Inv.pipeCreate (buffer : Nat → Byte) : Inv (pipeCreate buffer : Sys ι) :=
  ⟨⟨⟨zero_lt_succ _, zero_lt_succ _, Nat.zero_le _, rfl⟩, rfl,
    fun _ _ hdata => (nomatch hdata), fun _ he => (nomatch he), rfl⟩, fun _ => trivial,
    fun _ hh => hh.elim, fun _ _ hh => hh.elim, fun _ _ _ _ hw => (nomatch hw)⟩

theorem Inv.reading (h : Inv s) (hp : (s.threads i).phase = .readMove r size addr n got) :
    Owns s i ∧ ReadMoveOk s.pipe.pipeBuffer size addr n got := by
  have hphase := h.phases i
  rw [hp] at hphase
  exact ⟨h.owns (by rw [hp]; trivial), hphase⟩

theorem Inv.writing (h : Inv s)
    (hp : (s.threads i).phase = .writeMove w size segsize second addr n taken) :
    Owns s i ∧ Fresh s i w.call ∧ WriteOk s.log s.calls w taken ∧
      WriteMoveOk s.pipe.pipeBuffer w size segsize second addr n taken := by
  have hphase := h.phases i
  rw [hp] at hphase
  exact ⟨h.owns (by rw [hp]; trivial), h.fresh (by rw [hp]; rfl), hphase⟩

variable [DecidableEq ι]

theorem Rest.returned (h : Rest s i) (error : Option Errno) : Inv (s.goOn i (.returned error)) :=
  h.goOn trivial nofun nofun

theorem Rest.asleep_read (h : Rest s i) (r : Read) (wait : Wait) :
    Inv (s.goOn i (.asleep (.read r) wait)) :=
  h.goOn trivial nofun nofun

theorem Rest.asleep_write (h : Rest s i) (hw : WriteOk s.log s.calls w []) (hf : Fresh s i w.call)
    (wait : Wait) : Inv (s.goOn i (.asleep (.write w) wait)) := by
  refine h.goOn hw nofun fun v hv => ?_
  obtain rfl : w = v := some.inj hv
  exact hf

theorem readUnlocked_inv (h : Rest s i) (error : Option Errno) : Inv (readUnlocked s i error) := by
  have hq := (setBusy s (s.pipe.pipeBusy - 1)).trans quiet_pipeRundown
  unfold readUnlocked
  dsimp only
  split
  · exact ((hq.trans quiet_wakeWriter).rest h).returned error
  · exact (hq.rest h).returned error

theorem writeUnlocked_inv (h : Rest s i) (w : Write) (error : Option Errno) :
    Inv (writeUnlocked s i w error) := by
  have hq := (setBusy s (s.pipe.pipeBusy - 1)).trans quiet_pipeRundown
  unfold writeUnlocked
  dsimp only
  split
  · exact ((hq.trans quiet_wakeReader).rest h).returned _
  · exact (hq.rest h).returned _

theorem Owns.readDone (h : Owns s i) (error : Option Errno) : Inv (readDone s i error) :=
  readUnlocked_inv h.iounlock error

theorem Owns.writeDone (h : Owns s i) (w : Write) (error : Option Errno) :
    Inv (writeDone s i w error) :=
  writeUnlocked_inv h.iounlock w error

theorem Owns.readLoop (h : Owns s i) (r : Read) : Inv (readLoop s i r) := by
  unfold SysPipe.readLoop
  dsimp only
  split
  · exact h.readDone none
  split
  · exact h.rest.goOn (readMoveOk_start h.rest.ring r) (fun _ => ⟨h.lock, h.alone⟩) nofun
  split
  · exact h.readDone none
  have hw := quiet_wakeWriter.owns h
  split
  · exact hw.readDone none
  split
  · exact hw.readDone _
  · exact ((setWantr _).owns hw).iounlock.asleep_read r _

theorem Owns.writeLoop (h : Owns s i) (hw : WriteOk s.log s.calls w []) (hf : Fresh s i w.call) :
    Inv (writeLoop s i w) := by
  unfold SysPipe.writeLoop
  dsimp only
  split
  · exact h.writeDone w none
  next hne =>
  split
  · exact h.writeDone w _
  split
  next hspace =>
    refine h.rest.goOn ⟨hw, writeMoveOk_start h.rest.ring hspace hne⟩
      (fun _ => ⟨h.lock, h.alone⟩) fun v hv => ?_
    obtain rfl : w = v := some.inj hv
    exact hf
  split
  · exact (quiet_wakeReader.owns h).writeDone w _
  · have hq := quiet_wakeReader.trans (setWantw (wakeReader s))
    have hu := quiet_pipeIounlock (hq.owns h).lock
    exact (hq.owns h).iounlock.asleep_write (hu.writeOk (hq.writeOk hw)) (hu.fresh (hq.fresh hf)) _

theorem Inv.readMoved (h : Inv s) (hp : (s.threads i).phase = .readMove r size addr n got)
    (hn : error = none → n = 0) : Inv (readMoved s i r size got error) := by
  obtain ⟨ho, hm⟩ := h.reading hp
  unfold SysPipe.readMoved
  split
  · exact ho.readDone _
  · have hlen : got.length = size := by
      have := hm.length_eq
      have := hn rfl
      omega
    obtain ⟨hring, hcontents⟩ := consumed_spec h.ring hm.size_le hm.end_le
    have ho' : Owns { s.setBuffer (consumed s.pipe.pipeBuffer size) with
        delivered := s.delivered ++ got } i := by
      refine ho.update ⟨hring, ?_, h.calls, h.log_lt, h.no_panic⟩ rfl rfl fun _ _ _ _ hw => hw
      show s.delivered ++ got ++ (consumed s.pipe.pipeBuffer size).contents = committed s.log
      rw [hm.got_eq, hlen, append_assoc, ← hcontents, h.contents]
    exact ho'.readLoop _

theorem Inv.writeMoved (h : Inv s)
    (hp : (s.threads i).phase = .writeMove w size segsize second addr n taken)
    (hn : error = none → n = 0) : Inv (writeMoved s i w size segsize second taken error) := by
  obtain ⟨ho, hf, hw, hm⟩ := h.writing hp
  have hmoved := hm.moved
  unfold SysPipe.writeMoved
  split
  · exact ho.writeDone w _
  have hn := hn rfl
  split
  next hagain =>
    obtain ⟨hsecond, hlt⟩ := hagain
    obtain rfl : second = false := by simpa using hsecond
    dsimp only
    rw [show s.kassert _ = s from if_pos (hm.wraps hlt)]
    refine ho.rest.goOn ⟨hw, ?_⟩ (fun _ => ⟨ho.lock, ho.alone⟩) fun v hv => ?_
    · obtain ⟨-, hlen⟩ := hmoved
      refine ⟨hm.size_pos, hm.size_le, hm.seg_le, hm.end_le, hm.wraps, hm.atomic, hm.uio_le,
        ⟨hlt, by omega, by omega⟩, hm.taken_eq⟩
    · obtain rfl : w = v := some.inj hv
      exact hf
  next hlast =>
    have hlen : taken.length = size := by
      have := hm.seg_le
      cases second with
      | false =>
        have hlt : ¬segsize < size := fun hlt => hlast ⟨rfl, hlt⟩
        have hlen : taken.length + n = segsize := hmoved.2
        omega
      | true =>
        have hlen : taken.length + n = size := hmoved.2.2
        omega
    obtain ⟨hseg, hcnt, hring, hcontents⟩ := produced_spec h.ring hm hlen
    have hatomic : w.origResid ≤ pipeBuf → w.uio = [] := by
      intro hsmall
      have := hm.atomic hsmall
      exact length_eq_zero_iff.mp (by omega)
    have ho' : Owns { s.setBuffer (produced s.pipe.pipeBuffer size segsize) with
        log := s.log ++ [(w.call, taken)] } i := by
      refine ho.update ⟨hring, ?_, CallOk.commit h.calls hw (hlen ▸ hm.size_pos) hatomic, ?_,
        h.no_panic⟩ rfl rfl fun j hj v hv hok => hok.of_ne (hf j hj v hv) taken
      · show s.delivered ++ (produced s.pipe.pipeBuffer size segsize).contents =
          committed (s.log ++ [(w.call, taken)])
        rw [hcontents, ← append_assoc, h.contents]
        simp [committed]
      · intro e he
        rcases mem_append.mp he with he | he
        · exact h.log_lt e he
        · obtain rfl := mem_singleton.mp he
          exact hw.call_lt
    rw [writeCommit_eq hseg hcnt]
    exact ho'.writeLoop hw.commit hf

theorem Inv.copyout (h : Inv s) (hp : (s.threads i).phase = .readMove r size addr n got)
    (hpos : 0 < k) (hk : k ≤ n) : Inv (copyout s i r size addr n got k) := by
  obtain ⟨ho, hm⟩ := h.reading hp
  exact ho.rest.goOn (copyout_ok hm hpos hk) (fun _ => ⟨ho.lock, ho.alone⟩) nofun

theorem Inv.copyin (h : Inv s)
    (hp : (s.threads i).phase = .writeMove w size segsize second addr n taken)
    (hpos : 0 < k) (hk : k ≤ n) : Inv (copyin s i w size segsize second addr n taken k) := by
  obtain ⟨ho, hf, hw, hm⟩ := h.writing hp
  obtain ⟨hm', hcontents⟩ := copyin_ok h.ring hm hpos hk
  have hring := h.ring
  have ho' : Owns (s.setBuffer { s.pipe.pipeBuffer with
      buffer := put s.pipe.pipeBuffer.buffer addr (w.uio.take k) }) i :=
    ho.update ⟨⟨hring.size_pos, hring.out_lt, hring.cnt_le, hring.inp_eq⟩,
      (congrArg (s.delivered ++ ·) hcontents).trans h.contents, h.calls, h.log_lt, h.no_panic⟩
      rfl rfl fun _ _ _ _ hw => hw
  refine ho'.rest.goOn ⟨?_, hm'⟩ (fun _ => ⟨ho'.lock, ho'.alone⟩) fun v hv => ?_
  · show WriteOk s.log s.calls _ _
    rw [WriteOk, append_assoc, take_append_drop]
    exact hw
  · obtain rfl := some.inj hv
    exact hf

theorem Owns.locked (h : Owns s i) (hio : IoOk s i io) (entry : Bool)
    (grow : Option (Nat → Byte)) : Inv (locked s i io entry grow) := by
  cases io with
  | read r => exact h.readLoop r
  | write w =>
    obtain ⟨hw, hf⟩ := hio
    unfold SysPipe.locked
    dsimp only
    split
    · obtain ⟨ho, hlog, hcalls, hthreads⟩ := h.resize w grow
      refine ho.writeLoop (by rwa [hlog, hcalls]) ?_
      rwa [Fresh, hthreads]
    split
    · exact h.writeDone w _
    · exact h.writeLoop hw hf

theorem Rest.iolock (h : Rest s i) (hio : IoOk s i io) (entry : Bool)
    (grow : Option (Nat → Byte)) : Inv (pipeIolock s i io entry grow) := by
  unfold pipeIolock
  split
  · have hq := setLwant s
    cases io with
    | read r => exact (hq.rest h).asleep_read r _
    | write w => exact (hq.rest h).asleep_write (hq.writeOk hio.1) (hq.fresh hio.2) _
  next hfree =>
    have ha : Alone s i := fun j hj hh => hfree (h.lock j hj hh)
    refine Owns.locked ⟨h.setLock ha true, ha, rfl⟩ ?_ entry grow
    cases io with
    | read r => trivial
    | write w => exact hio

theorem Inv.pipeRead (h : Inv s) (i : ι) (uioResid : Nat) (nonblock : Bool) :
    Inv (pipeRead s i uioResid nonblock) := by
  have hr : Rest (busy s) i := (setBusy s _).rest (h.rest i)
  have hio : IoOk (busy s) i (.read ⟨uioResid, 0, nonblock⟩) := trivial
  exact hr.iolock hio true none

theorem Inv.pipeWrite (h : Inv s) (i : ι) (uio : List Byte) (nonblock : Bool)
    (grow : Option (Nat → Byte)) : Inv (pipeWrite s i uio nonblock grow) := by
  unfold SysPipe.pipeWrite
  split
  · exact (h.rest i).returned _
  · have hr : Rest { busy s with calls := s.calls ++ [uio] } i :=
      ⟨⟨h.ring, h.contents, CallOk.newCall h.calls h.log_lt uio, fun e he => by
        rw [length_append]
        exact Nat.lt_add_right _ (h.log_lt e he), h.no_panic⟩,
        fun j _ => (h.phases j).newCall uio, fun j _ => h.lock j, fun j _ k _ => h.unique j k,
        fun j _ k _ => h.distinct j k⟩
    have hio : IoOk { busy s with calls := s.calls ++ [uio] } i
        (.write ⟨s.calls.length, uio, uio.length, nonblock⟩) :=
      ⟨WriteOk.new h.log_lt uio nonblock, fun j _ v hv => Nat.ne_of_lt ((h.phases j).call_lt hv)⟩
    exact hr.iolock hio true grow

theorem Inv.resume {wait : Wait} (h : Inv s)
    (hp : (s.threads i).phase = .asleep io wait) (error : Option Errno)
    (grow : Option (Nat → Byte)) : Inv (resume s i io wait error grow) := by
  have hio : IoOk s i io := by
    have hok := h.phases i
    rw [hp] at hok
    cases io with
    | read r => trivial
    | write w => exact ⟨hok, h.fresh (by rw [hp]; rfl)⟩
  have hbusy := (setBusy s (s.pipe.pipeBusy - 1)).trans quiet_pipeRundown
  have hr := h.rest i
  unfold SysPipe.resume
  split
  · exact (hbusy.rest hr).returned _
  · cases io with
    | read r => exact readUnlocked_inv hr _
    | write w => exact writeUnlocked_inv hr w _
  · exact hr.iolock hio _ grow
  · exact hr.iolock hio _ grow

theorem Inv.step (h : Inv s) (hs : Step s s') : Inv s' := by
  cases hs with
  | read uioResid nonblock => exact h.pipeRead _ uioResid nonblock
  | write uio nonblock grow => exact h.pipeWrite _ uio nonblock grow
  | resume error grow hp => exact h.resume hp error grow
  | copyout k hp hpos hk => exact h.copyout hp hpos hk
  | readMoved error hp hn => exact h.readMoved hp hn
  | copyin k hp hpos hk => exact h.copyin hp hpos hk
  | writeMoved error hp hn => exact h.writeMoved hp hn
  | destroy wantd =>
    have hq : Quiet s (pipeDestroy s wantd) := ⟨rfl, rfl, rfl, rfl, rfl, rfl, fun _ => rfl⟩
    exact hq.inv h

/-! Runs of any readers and writers. -/

variable {ι : Type} [DecidableEq ι] {s : Sys ι}

theorem Reachable.inv (h : Reachable s) : Inv s := by
  induction h with
  | create buffer => exact .pipeCreate buffer
  | step _ hs ih => exact ih.step hs

/-- The readers get the bytes that the writers commit, in that order, and a small write is committed
as a whole. -/
theorem pipe_fifo (h : Reachable s) : s.delivered ++ s.pipe.pipeBuffer.contents = committed s.log ∧
      s.pipe.pipeBuffer.cnt ≤ s.pipe.pipeBuffer.size ∧
      (∀ k data, s.calls[k]? = some data → (commitsOf s.log k).flatten <+: data ∧
        (data.length ≤ pipeBuf → commitsOf s.log k = [] ∨ commitsOf s.log k = [data])) ∧
      s.panicked = false :=
  ⟨h.inv.contents, h.inv.ring.cnt_le, h.inv.calls, h.inv.no_panic⟩

/-- One thread writes two bytes, and the other reads the first. -/
theorem pipe_fifo_pair : ∃ s : Sys Bool, Reachable s ∧ s.delivered = [7] ∧ s.calls = [[7, 8]] ∧
    s.delivered ++ s.pipe.pipeBuffer.contents = committed s.log ∧ s.panicked = false := by
  have h₀ : Reachable (pipeCreate (fun _ => 0) : Sys Bool) := .create _
  have h₁ := h₀.step (.write (i := true) [7, 8] false none rfl)
  have h₂ := h₁.step (.copyin (i := true) 2 rfl (by decide) (by decide))
  have h₃ := h₂.step (.writeMoved (i := true) none rfl fun _ => rfl)
  have h₄ := h₃.step (.read (i := false) 1 false rfl)
  have h₅ := h₄.step (.copyout (i := false) 1 rfl (by decide) (by decide))
  have h₆ := h₅.step (.readMoved (i := false) none rfl fun _ => rfl)
  exact ⟨_, h₆, rfl, rfl, (pipe_fifo h₆).1, (pipe_fifo h₆).2.2.2⟩

end Mbsd.Kern.SysPipe
