import Mbsd.Kern.SysPipe.Model

/-! What holds whenever `pipe_lock` is free, and what of it a thread keeps while it has it. -/

namespace Mbsd.Kern.SysPipe

open Lib RingSlice SysPipe.Sys Pipebuf

def commitsOf (log : List (Nat × List Byte)) (k : Nat) : List (List Byte) :=
  (log.filter (·.1 = k)).map (·.2)

def committed (log : List (Nat × List Byte)) : List Byte := log.flatMap (·.2)

def Pipebuf.contents (b : Pipebuf) : List Byte := slice b.buffer b.size b.out b.cnt

structure Pipebuf.Ring (b : Pipebuf) : Prop where
  size_pos : 0 < b.size
  out_lt : b.out < b.size
  cnt_le : b.cnt ≤ b.size
  inp_eq : b.inp = wrap b.size (b.out + b.cnt)

/-- A write has committed a part of its bytes from the start, and a small one all or nothing. -/
def CallOk (log : List (Nat × List Byte)) (calls : List (List Byte)) (k : Nat) : Prop :=
  ∀ data, calls[k]? = some data → (commitsOf log k).flatten <+: data ∧
    (data.length ≤ pipeBuf → commitsOf log k = [] ∨ commitsOf log k = [data])

/-- What a write has committed, what it has copied since, and what is left are its bytes. -/
def WriteOk (log : List (Nat × List Byte)) (calls : List (List Byte)) (w : Write)
    (taken : List Byte) : Prop :=
  calls[w.call]? = some ((commitsOf log w.call).flatten ++ (taken ++ w.uio)) ∧
    w.origResid = ((commitsOf log w.call).flatten ++ (taken ++ w.uio)).length

structure ReadMoveOk (b : Pipebuf) (size addr n : Nat) (got : List Byte) : Prop where
  size_le : size ≤ b.cnt
  end_le : b.out + size ≤ b.size
  addr_eq : addr = b.out + got.length
  length_eq : got.length + n = size
  got_eq : got = slice b.buffer b.size b.out got.length

/-- `size` bytes from `in` on are on their way to the buffer, in one or two segments. -/
structure WriteMoveOk (b : Pipebuf) (w : Write) (size segsize : Nat) (second : Bool) (addr n : Nat)
    (taken : List Byte) : Prop where
  size_pos : 0 < size
  size_le : b.cnt + size ≤ b.size
  seg_le : segsize ≤ size
  end_le : b.inp + segsize ≤ b.size
  wraps : segsize < size → b.inp + segsize = b.size
  atomic : w.origResid ≤ pipeBuf → taken.length + w.uio.length = size
  uio_le : size ≤ taken.length + w.uio.length
  moved : if second then segsize < size ∧ segsize + addr = taken.length ∧ taken.length + n = size
    else addr = b.inp + taken.length ∧ taken.length + n = segsize
  taken_eq : slice b.buffer b.size b.out (b.cnt + taken.length) = b.contents ++ taken

def Phase.holds : Phase → Prop
  | .readMove .. | .writeMove .. => True
  | _ => False

def Phase.write? : Phase → Option Write
  | .asleep (.write w) _ => some w
  | .writeMove w .. => some w
  | _ => none

def PhaseOk (b : Pipebuf) (log : List (Nat × List Byte)) (calls : List (List Byte)) : Phase → Prop
  | .asleep (.write w) _ => WriteOk log calls w []
  | .readMove _ size addr n got => ReadMoveOk b size addr n got
  | .writeMove w size segsize second addr n taken =>
    WriteOk log calls w taken ∧ WriteMoveOk b w size segsize second addr n taken
  | _ => True

variable {ι : Type} {s s' : Sys ι} {i j : ι} {phase : Phase}

structure Core (s : Sys ι) : Prop where
  ring : s.pipe.pipeBuffer.Ring
  contents : s.delivered ++ s.pipe.pipeBuffer.contents = committed s.log
  calls : ∀ k, CallOk s.log s.calls k
  log_lt : ∀ e ∈ s.log, e.1 < s.calls.length
  no_panic : s.panicked = false

def Alone (s : Sys ι) (i : ι) : Prop := ∀ j ≠ i, ¬(s.threads j).phase.holds

def Fresh (s : Sys ι) (i : ι) (k : Nat) : Prop :=
  ∀ j ≠ i, ∀ v, (s.threads j).phase.write? = some v → v.call ≠ k

structure Rest (s : Sys ι) (i : ι) : Prop extends Core s where
  phases : ∀ j ≠ i, PhaseOk s.pipe.pipeBuffer s.log s.calls (s.threads j).phase
  lock : ∀ j ≠ i, (s.threads j).phase.holds → s.pipe.lock = true
  unique : ∀ j ≠ i, ∀ k ≠ i, (s.threads j).phase.holds → (s.threads k).phase.holds → j = k
  distinct : ∀ j ≠ i, ∀ k ≠ i, ∀ v w, (s.threads j).phase.write? = some v →
    (s.threads k).phase.write? = some w → v.call = w.call → j = k

structure Inv (s : Sys ι) : Prop extends Core s where
  phases : ∀ j, PhaseOk s.pipe.pipeBuffer s.log s.calls (s.threads j).phase
  lock : ∀ j, (s.threads j).phase.holds → s.pipe.lock = true
  unique : ∀ j k, (s.threads j).phase.holds → (s.threads k).phase.holds → j = k
  distinct : ∀ j k v w, (s.threads j).phase.write? = some v →
    (s.threads k).phase.write? = some w → v.call = w.call → j = k

theorem Inv.rest (h : Inv s) (i : ι) : Rest s i :=
  ⟨h.toCore, fun j _ => h.phases j, fun j _ => h.lock j, fun j _ k _ => h.unique j k,
    fun j _ k _ => h.distinct j k⟩

theorem Inv.alone (h : Inv s) (hi : (s.threads i).phase.holds) : Alone s i :=
  fun j hj hh => hj (h.unique j i hh hi)

theorem Inv.fresh {w : Write} (h : Inv s) (hi : (s.threads i).phase.write? = some w) :
    Fresh s i w.call :=
  fun j hj v hv heq => hj (h.distinct j i v w hv hi heq)

structure Quiet (s s' : Sys ι) : Prop where
  buffer : s'.pipe.pipeBuffer = s.pipe.pipeBuffer
  lock : s'.pipe.lock = s.pipe.lock
  panicked : s'.panicked = s.panicked
  delivered : s'.delivered = s.delivered
  log : s'.log = s.log
  calls : s'.calls = s.calls
  phases : ∀ i, (s'.threads i).phase = (s.threads i).phase

theorem Quiet.refl (s : Sys ι) : Quiet s s := ⟨rfl, rfl, rfl, rfl, rfl, rfl, fun _ => rfl⟩

section

variable (h : Quiet s s')

include h

theorem Quiet.trans {s'' : Sys ι} (h' : Quiet s' s'') : Quiet s s'' :=
  ⟨h'.buffer.trans h.buffer, h'.lock.trans h.lock, h'.panicked.trans h.panicked,
    h'.delivered.trans h.delivered, h'.log.trans h.log, h'.calls.trans h.calls,
    fun i => (h'.phases i).trans (h.phases i)⟩

theorem Quiet.alone (ha : Alone s i) : Alone s' i :=
  fun j hj => h.phases j ▸ ha j hj

theorem Quiet.fresh {k : Nat} (hf : Fresh s i k) : Fresh s' i k :=
  fun j hj => h.phases j ▸ hf j hj

theorem Quiet.core (hc : Core s) : Core s' := by
  constructor
  · exact h.buffer ▸ hc.ring
  · rw [h.delivered, h.buffer, h.log, hc.contents]
  · exact h.log ▸ h.calls ▸ hc.calls
  · exact h.log ▸ h.calls ▸ hc.log_lt
  · rw [h.panicked, hc.no_panic]

theorem Quiet.rest (hr : Rest s i) : Rest s' i := by
  refine ⟨h.core hr.toCore, ?_, ?_, ?_, ?_⟩
  · intro j hj
    rw [h.phases, h.buffer, h.log, h.calls]
    exact hr.phases j hj
  · intro j hj
    rw [h.phases, h.lock]
    exact hr.lock j hj
  · intro j hj k hk
    rw [h.phases, h.phases]
    exact hr.unique j hj k hk
  · intro j hj k hk
    rw [h.phases, h.phases]
    exact hr.distinct j hj k hk

theorem Quiet.inv (hi : Inv s) : Inv s' := by
  refine ⟨h.core hi.toCore, fun j => ?_, fun j => ?_, fun j k => ?_, fun j k => ?_⟩
  · rw [h.phases, h.buffer, h.log, h.calls]
    exact hi.phases j
  · rw [h.phases, h.lock]
    exact hi.lock j
  · rw [h.phases, h.phases]
    exact hi.unique j k
  · rw [h.phases, h.phases]
    exact hi.distinct j k

end

theorem quiet_wakeReader : Quiet s (wakeReader s) := by
  unfold wakeReader
  split
  · exact ⟨rfl, rfl, rfl, rfl, rfl, rfl, fun _ => rfl⟩
  · exact .refl s

theorem quiet_wakeWriter : Quiet s (wakeWriter s) := by
  unfold wakeWriter
  split
  · exact ⟨rfl, rfl, rfl, rfl, rfl, rfl, fun _ => rfl⟩
  · exact .refl s

theorem quiet_pipeRundown : Quiet s (pipeRundown s).1 := by
  unfold pipeRundown
  split
  · exact .refl s
  · exact ⟨rfl, rfl, rfl, rfl, rfl, rfl, fun _ => rfl⟩

theorem Rest.setLock (hr : Rest s i) (ha : Alone s i) (lock : Bool) :
    Rest (s.setPipe { s.pipe with lock }) i :=
  ⟨⟨hr.ring, hr.contents, hr.calls, hr.log_lt, hr.no_panic⟩, hr.phases,
    fun j hj hh => absurd hh (ha j hj), hr.unique, hr.distinct⟩

theorem quiet_pipeIounlock (hl : s.pipe.lock = true) :
    Quiet (s.setPipe { s.pipe with lock := false }) (pipeIounlock s) := by
  have hk : s.kassert (s.pipe.lock = true) = s := if_pos hl
  unfold pipeIounlock
  rw [hk]
  dsimp only
  split
  · exact ⟨rfl, rfl, rfl, rfl, rfl, rfl, fun _ => rfl⟩
  · exact .refl _

section GoOn

variable [DecidableEq ι]

@[simp] theorem goOn_self : ((s.goOn i phase).threads i).phase = phase := by simp [Sys.goOn]

theorem goOn_of_ne (h : j ≠ i) : (s.goOn i phase).threads j = s.threads j := by
  simp [Sys.goOn, h]

theorem Rest.goOn (h : Rest s i) (hp : PhaseOk s.pipe.pipeBuffer s.log s.calls phase)
    (hl : phase.holds → s.pipe.lock = true ∧ Alone s i)
    (hw : ∀ w, phase.write? = some w → Fresh s i w.call) : Inv (s.goOn i phase) := by
  refine ⟨⟨h.ring, h.contents, h.calls, h.log_lt, h.no_panic⟩, fun j => ?_, fun j => ?_,
    fun j k => ?_, fun j k => ?_⟩
  · by_cases hj : j = i
    · subst hj
      rwa [goOn_self]
    · rw [goOn_of_ne hj]
      exact h.phases j hj
  · by_cases hj : j = i
    · subst hj
      rw [goOn_self]
      exact fun hh => (hl hh).1
    · rw [goOn_of_ne hj]
      exact h.lock j hj
  · by_cases hj : j = i <;> by_cases hk : k = i
    · exact fun _ _ => hj.trans hk.symm
    · subst hj
      rw [goOn_self, goOn_of_ne hk]
      exact fun hh hh' => absurd hh' ((hl hh).2 k hk)
    · subst hk
      rw [goOn_self, goOn_of_ne hj]
      exact fun hh' hh => absurd hh' ((hl hh).2 j hj)
    · rw [goOn_of_ne hj, goOn_of_ne hk]
      exact h.unique j hj k hk
  · by_cases hj : j = i <;> by_cases hk : k = i
    · exact fun _ _ _ _ _ => hj.trans hk.symm
    · subst hj
      rw [goOn_self, goOn_of_ne hk]
      exact fun v w hv hw' heq => absurd heq.symm (hw v hv k hk w hw')
    · subst hk
      rw [goOn_self, goOn_of_ne hj]
      exact fun v w hv hw' heq => absurd heq (hw w hw' j hj v hv)
    · rw [goOn_of_ne hj, goOn_of_ne hk]
      exact h.distinct j hj k hk

end GoOn

/-! Transfers into and out of the ring, and what a write has committed of its bytes. -/

open List Option

variable {b : Pipebuf} {r : Read} {w : Write} {size segsize addr n k : Nat} {second : Bool}
  {got taken : List Byte} {log : List (Nat × List Byte)} {calls : List (List Byte)}

theorem readMoveOk_start (h : b.Ring) (r : Read) :
    ReadMoveOk b (min (min (b.size - b.out) b.cnt) r.uioResid) b.out
      (min (min (b.size - b.out) b.cnt) r.uioResid) [] := by
  have := h.out_lt
  exact ⟨by omega, by omega, rfl, by simp, rfl⟩

theorem writeSpace_eq (hpos : 0 < writeSpace b w) : writeSpace b w = b.size - b.cnt ∧
    (w.origResid ≤ pipeBuf → w.uio.length ≤ b.size - b.cnt) := by
  unfold writeSpace at hpos ⊢
  dsimp only at hpos ⊢
  split at hpos
  · omega
  next hfit =>
    rw [if_neg hfit]
    refine ⟨rfl, fun hsmall => ?_⟩
    by_contra hlt
    exact hfit ⟨by omega, hsmall⟩

theorem writeMoveOk_start (h : b.Ring) (hspace : 0 < writeSpace b w) (hne : w.uio ≠ []) :
    WriteMoveOk b w (min (writeSpace b w) w.uio.length)
      (min (b.size - b.inp) (min (writeSpace b w) w.uio.length)) false b.inp
      (min (b.size - b.inp) (min (writeSpace b w) w.uio.length)) [] := by
  obtain ⟨heq, hsmall⟩ := writeSpace_eq hspace
  have hpos := length_pos_iff.mpr hne
  have hinp : b.inp < b.size := h.inp_eq ▸ wrap_lt h.out_lt h.cnt_le
  rw [heq] at hspace ⊢
  constructor
  · omega
  · omega
  · omega
  · omega
  · omega
  · intro hatomic
    rw [length_nil]
    omega
  · rw [length_nil]
    omega
  · simp
  · simp [contents]

theorem consumed_spec (h : b.Ring) (hle : size ≤ b.cnt) (hend : b.out + size ≤ b.size) :
    (consumed b size).Ring ∧
      b.contents = slice b.buffer b.size b.out size ++ (consumed b size).contents := by
  have hout : (if b.size ≤ b.out + size then 0 else b.out + size) = wrap b.size (b.out + size) := by
    rw [wrap]
    split <;> split <;> omega
  have hsplit : b.contents = slice b.buffer b.size b.out size ++
      slice b.buffer b.size (wrap b.size (b.out + size)) (b.cnt - size) := by
    rw [contents, ← slice_append h.out_lt (by have := h.cnt_le; omega),
      Nat.add_sub_cancel' hle]
  have hlt := wrap_lt h.out_lt (show size ≤ b.size by omega)
  unfold consumed
  dsimp only
  rw [hout]
  split
  next hzero =>
    refine ⟨⟨h.size_pos, h.size_pos, ?_, ?_⟩, ?_⟩
    · simp [hzero]
    · simp [hzero, wrap]
    · rw [hsplit, contents, hzero]
      rfl
  next =>
    refine ⟨⟨h.size_pos, hlt, ?_, ?_⟩, hsplit⟩
    · exact Nat.le_trans (Nat.sub_le ..) h.cnt_le
    · have := h.cnt_le
      show b.inp = wrap b.size (wrap b.size (b.out + size) + (b.cnt - size))
      rw [h.inp_eq, wrap_wrap h.out_lt (by omega), Nat.add_sub_cancel' hle]

theorem produced_spec (h : b.Ring) (hm : WriteMoveOk b w size segsize second addr n taken)
    (hlen : taken.length = size) :
    (b.size ≤ b.inp + size → b.inp + size = size - segsize + b.size) ∧
      ¬b.size < (produced b size segsize).cnt ∧ (produced b size segsize).Ring ∧
      (produced b size segsize).contents = b.contents ++ taken := by
  have hle := hm.size_le
  have hend := hm.end_le
  have hwraps := hm.wraps
  refine ⟨by omega, Nat.not_lt.mpr hle, ⟨h.size_pos, h.out_lt, hle, ?_⟩, ?_⟩
  · have hinp : (if b.size ≤ b.inp + size then size - segsize else b.inp + size) =
        wrap b.size (b.inp + size) := by
      rw [wrap]
      split <;> split <;> omega
    show (if b.size ≤ b.inp + size then size - segsize else b.inp + size) = _
    rw [hinp, h.inp_eq, wrap_wrap h.out_lt hle]
    rfl
  · rw [← hm.taken_eq, hlen]
    rfl

theorem copyout_ok (hm : ReadMoveOk b size addr n got) (hpos : 0 < k) (hk : k ≤ n) :
    ReadMoveOk b size (addr + k) (n - k) (got ++ (range k).map fun j => b.buffer (addr + j)) := by
  have haddr := hm.addr_eq
  have hlen := hm.length_eq
  have hend := hm.end_le
  refine ⟨hm.size_le, hend, ?_, ?_, ?_⟩
  · simp only [length_append, length_map, length_range]
    omega
  · simp only [length_append, length_map, length_range]
    omega
  · have hw : wrap b.size (b.out + got.length) = addr := by
      rw [wrap_of_lt (by omega), haddr]
    rw [length_append, length_map, length_range,
      slice_append (by omega) (by omega), ← hm.got_eq, hw, slice_of_le (by omega)]

theorem copyin_ok (h : b.Ring) (hm : WriteMoveOk b w size segsize second addr n taken)
    (hpos : 0 < k) (hk : k ≤ n) : WriteMoveOk { b with buffer := put b.buffer addr (w.uio.take k) }
      { w with uio := w.uio.drop k } size segsize second (addr + k) (n - k)
      (taken ++ w.uio.take k) ∧
    contents { b with buffer := put b.buffer addr (w.uio.take k) } = b.contents := by
  have hle := hm.size_le
  have hend := hm.end_le
  have hwraps := hm.wraps
  have huio := hm.uio_le
  have hmoved := hm.moved
  have haddr : addr = wrap b.size (b.out + (b.cnt + taken.length)) ∧ addr + k ≤ b.size ∧
      taken.length + k ≤ size := by
    have htaken : taken.length ≤ size := by split at hmoved <;> have := hm.seg_le <;> omega
    rw [← wrap_wrap h.out_lt (by omega), ← h.inp_eq, wrap]
    split at hmoved <;> split <;> have := hm.seg_le <;> omega
  obtain ⟨haddr, hend', hk'⟩ := haddr
  have hl : (w.uio.take k).length = k := length_take_of_le (by omega)
  have hput : slice (put b.buffer addr (w.uio.take k)) b.size b.out (b.cnt + taken.length + k) =
      b.contents ++ taken ++ w.uio.take k := by
    have hput := slice_put_append (c := b.buffer) (l := w.uio.take k) h.out_lt
      (show b.cnt + taken.length + (w.uio.take k).length ≤ b.size by omega) (by omega)
    rwa [← haddr, hl, hm.taken_eq] at hput
  have hcontents : slice (put b.buffer addr (w.uio.take k)) b.size b.out b.cnt = b.contents := by
    have hlen : b.contents.length = b.cnt := length_slice
    have htake := congrArg (take b.cnt) hput
    rwa [take_slice h.out_lt (by omega) (by omega), append_assoc, take_left' hlen] at htake
  refine ⟨⟨hm.size_pos, hle, hm.seg_le, hend, hwraps, ?_, ?_, ?_, ?_⟩, hcontents⟩
  · intro hsmall
    have := hm.atomic hsmall
    simp only [length_append, length_drop, hl]
    omega
  · simp only [length_append, length_drop, hl]
    omega
  · rw [length_append, hl]
    cases second with
    | false =>
      obtain ⟨haddr', hn⟩ := hmoved
      exact ⟨show addr + k = b.inp + _ by omega, by omega⟩
    | true =>
      obtain ⟨hlt, haddr', hn⟩ := hmoved
      exact ⟨hlt, by omega, by omega⟩
  · show slice _ b.size b.out (b.cnt + (taken ++ w.uio.take k).length) =
      slice _ b.size b.out b.cnt ++ _
    rw [hcontents, length_append, hl, ← Nat.add_assoc, hput, append_assoc]

theorem commitsOf_append (log : List (Nat × List Byte)) (k l : Nat) (bytes : List Byte) :
    commitsOf (log ++ [(k, bytes)]) l =
      if k = l then commitsOf log l ++ [bytes] else commitsOf log l := by
  by_cases h : k = l <;> simp [commitsOf, filter_append, h]

theorem commitsOf_eq_nil (h : ∀ e ∈ log, e.1 ≠ k) : commitsOf log k = [] := by
  simpa [commitsOf] using h

theorem WriteOk.of_ne {l : Nat} (h : WriteOk log calls w taken) (hne : w.call ≠ l)
    (bytes : List Byte) : WriteOk (log ++ [(l, bytes)]) calls w taken := by
  rwa [WriteOk, commitsOf_append, if_neg (Ne.symm hne)]

theorem WriteOk.call_lt (h : WriteOk log calls w taken) : w.call < calls.length :=
  (List.getElem?_eq_some_iff.mp h.1).1

theorem WriteOk.commit (h : WriteOk log calls w taken) :
    WriteOk (log ++ [(w.call, taken)]) calls w [] := by
  rw [WriteOk, commitsOf_append, if_pos rfl]
  simpa [WriteOk] using h

theorem CallOk.commit (h : ∀ k, CallOk log calls k) (hw : WriteOk log calls w taken)
    (hpos : 0 < taken.length) (hatomic : w.origResid ≤ pipeBuf → w.uio = []) (k : Nat) :
    CallOk (log ++ [(w.call, taken)]) calls k := by
  intro data hdata
  obtain ⟨hpre, hsmall⟩ := h k data hdata
  rw [commitsOf_append]
  split
  next hk =>
    subst hk
    obtain ⟨hcall, horig⟩ := hw
    obtain rfl : data = _ := some.inj (hdata.symm.trans hcall)
    rw [← horig] at hsmall ⊢
    refine ⟨⟨w.uio, by simp⟩, fun hle => ?_⟩
    have huio := hatomic hle
    rcases hsmall hle with hnil | hone
    · right
      simp [hnil, huio]
    · have hlen := congrArg (fun l => (flatten l).length) hone
      simp only [flatten_cons, flatten_nil, append_nil, length_append] at hlen
      omega
  next => exact ⟨hpre, hsmall⟩

theorem getElem?_append_calls {data uio : List Byte} (h : calls[k]? = some data) :
    (calls ++ [uio])[k]? = some data := by
  rw [getElem?_append_left (List.getElem?_eq_some_iff.mp h).1, h]

theorem WriteOk.newCall (h : WriteOk log calls w taken) (uio : List Byte) :
    WriteOk log (calls ++ [uio]) w taken := ⟨getElem?_append_calls h.1, h.2⟩

theorem PhaseOk.newCall {phase : Phase} (h : PhaseOk b log calls phase) (uio : List Byte) :
    PhaseOk b log (calls ++ [uio]) phase := by
  cases phase with
  | returned => trivial
  | readMove => exact h
  | writeMove => exact ⟨h.1.newCall uio, h.2⟩
  | asleep io wait =>
    cases io with
    | read r => trivial
    | write w => exact WriteOk.newCall h uio

theorem CallOk.newCall (h : ∀ k, CallOk log calls k) (hlt : ∀ e ∈ log, e.1 < calls.length)
    (uio : List Byte) (k : Nat) : CallOk log (calls ++ [uio]) k := by
  intro data hdata
  by_cases hk : k < calls.length
  · rw [getElem?_append_left hk] at hdata
    exact h k data hdata
  · have hnil : commitsOf log k = [] :=
      commitsOf_eq_nil fun e he heq => hk (heq ▸ hlt e he)
    rw [hnil]
    exact ⟨ nil_prefix, fun _ => .inl rfl⟩

theorem WriteOk.new (hlt : ∀ e ∈ log, e.1 < calls.length) (uio : List Byte) (nonblock : Bool) :
    WriteOk log (calls ++ [uio]) ⟨calls.length, uio, uio.length, nonblock⟩ [] := by
  have hnil : commitsOf log calls.length = [] :=
    commitsOf_eq_nil fun e he heq => absurd (hlt e he) (by omega)
  simp [WriteOk, hnil]

theorem PhaseOk.call_lt {phase : Phase} (h : PhaseOk b log calls phase)
    (hw : phase.write? = some w) : w.call < calls.length := by
  cases phase with
  | returned => exact nomatch hw
  | readMove => exact nomatch hw
  | writeMove v =>
    obtain rfl : v = w := some.inj hw
    exact h.1.call_lt
  | asleep io wait =>
    cases io with
    | read r => exact nomatch hw
    | write v =>
      obtain rfl : v = w := some.inj hw
      exact WriteOk.call_lt h

end Mbsd.Kern.SysPipe
