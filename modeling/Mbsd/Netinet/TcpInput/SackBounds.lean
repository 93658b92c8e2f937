import Mbsd.Netinet.TcpInput.SackRuns

/-! Where the holes of the scoreboard are: in order, and between `snd_una` and `snd_max`.  Nothing is
assumed of the options. -/

namespace Mbsd.Netinet.TcpInput

open Lib.SeqSpace TcpSeq List Option

def ahead (una x : Seq) : Nat := (x - una).toNat

variable {una x y : Seq}

theorem seqAt_ahead (una x : Seq) : seqAt una (ahead una x) = x := by
  rw [seqAt, ahead, BitVec.ofNat_toNat, BitVec.setWidth_eq, BitVec.add_comm, BitVec.sub_add_cancel]

@[simp] theorem ahead_self (una : Seq) : ahead una una = 0 := by
  rw [ahead, BitVec.sub_self]
  rfl

section Compare

variable (hx : ahead una x < 2 ^ 31) (hy : ahead una y < 2 ^ 31)

include hx hy

theorem near_ahead : Near (ahead una x) (ahead una y) := ⟨by omega, by omega⟩

theorem seqLt_ahead : seqLt x y = decide (ahead una x < ahead una y) := by
  conv_lhs => rw [← seqAt_ahead una x, ← seqAt_ahead una y]
  exact (near_ahead hx hy).seqLt

theorem seqLeq_ahead : seqLeq x y = decide (ahead una x ≤ ahead una y) := by
  conv_lhs => rw [← seqAt_ahead una x, ← seqAt_ahead una y]
  exact (near_ahead hx hy).seqLeq

theorem seqGt_ahead : seqGt x y = decide (ahead una y < ahead una x) := by
  conv_lhs => rw [← seqAt_ahead una x, ← seqAt_ahead una y]
  exact (near_ahead hx hy).seqGt

theorem seqGeq_ahead : seqGeq x y = decide (ahead una y ≤ ahead una x) := by
  conv_lhs => rw [← seqAt_ahead una x, ← seqAt_ahead una y]
  exact (near_ahead hx hy).seqGeq

theorem ahead_seqMax : ahead una (seqMax x y) = max (ahead una x) (ahead una y) := by
  rw [seqMax, seqGt_ahead hx hy]
  simp only [decide_eq_true_eq]
  split
  next h => exact (Nat.max_eq_left h.le).symm
  next h => exact (Nat.max_eq_right (Nat.le_of_not_lt h)).symm

theorem ahead_seqMin : ahead una (seqMin x y) = min (ahead una x) (ahead una y) := by
  rw [seqMin, seqLt_ahead hx hy]
  simp only [decide_eq_true_eq]
  split
  next h => exact (Nat.min_eq_left h.le).symm
  next h => exact (Nat.min_eq_right (Nat.le_of_not_lt h)).symm

end Compare

theorem ahead_lt_of_seqLt (h : seqLt x una = false) : ahead una x < 2 ^ 31 := by
  rw [seqLt, decide_eq_false_iff_not, BitVec.toInt_neg_iff] at h
  rw [ahead]
  omega

theorem seqLt_of_seqLeq (h : seqLeq x y = false) : seqLt x y = false := by
  rw [seqLeq, decide_eq_false_iff_not] at h
  rw [seqLt, decide_eq_false_iff_not]
  omega

theorem ahead_of_le (h : ahead una x ≤ ahead una y) : ahead x y = ahead una y - ahead una x := by
  conv_lhs => rw [ahead, ← seqAt_ahead una x, ← seqAt_ahead una y]
  exact toNat_seqAt_sub h (by rw [ahead]; omega)

structure Sackhole.Between (una : Seq) (lo hi : Nat) (h : Sackhole) : Prop where
  lo : lo ≤ ahead una h.start
  start : ahead una h.start ≤ ahead una h.rxmit
  rxmit : ahead una h.rxmit ≤ ahead una h.end
  hi : ahead una h.end ≤ hi

def Placed (una : Seq) (hi : Nat) : Nat → List Sackhole → Prop
  | _, [] => True
  | lo, h :: l => h.Between una lo hi ∧ Placed una hi (ahead una h.end) l

variable {lo lo' hi hi' top n pool : Nat} {cur : Sackhole} {holes next : List Sackhole}
  {sack : Sackblk} {maxseg : BitVec 16} {numholes : Int} {w : Walk}

section

variable (h : cur.Between una lo hi)

include h

theorem Sackhole.Between.le : lo ≤ ahead una cur.end :=
  h.lo.trans (h.start.trans h.rxmit)

theorem Sackhole.Between.dup (maxseg : BitVec 16) (sackEnd : Seq) :
    (cur.dup maxseg sackEnd).Between una lo hi := ⟨h.lo, h.start, h.rxmit, h.hi⟩

theorem Sackhole.Between.mono (hlo : lo' ≤ lo) :
    cur.Between una lo' hi := ⟨hlo.trans h.lo, h.start, h.rxmit, h.hi⟩

theorem Sackhole.Between.move (hr : ahead una cur.rxmit < 2 ^ 31)
    (hx : ahead una x < 2 ^ 31) (hle : ahead una x ≤ ahead una cur.end) :
    Sackhole.Between una (ahead una x) hi { cur with start := x, rxmit := seqMax cur.rxmit x } where
  lo := le_rfl
  start := by
    rw [ahead_seqMax hr hx]
    exact Nat.le_max_right _ _
  rxmit := by
    rw [ahead_seqMax hr hx]
    exact Nat.max_le.mpr ⟨h.rxmit, hle⟩
  hi := h.hi

theorem Sackhole.Between.cut (hr : ahead una cur.rxmit < 2 ^ 31)
    (hx : ahead una x < 2 ^ 31) (hle : ahead una cur.start ≤ ahead una x)
    (hhi : ahead una x ≤ ahead una cur.end) :
    Sackhole.Between una lo hi { cur with «end» := x, rxmit := seqMin cur.rxmit x } where
  lo := h.lo
  start := by
    rw [ahead_seqMin hr hx]
    exact Nat.le_min.mpr ⟨h.start, hle⟩
  rxmit := by
    rw [ahead_seqMin hr hx]
    exact Nat.min_le_right _ _
  hi := hhi.trans h.hi

end

section

variable (h : Placed una hi lo holes)

include h

theorem Placed.mono (hlo : lo' ≤ lo) (hhi : hi ≤ hi') : Placed una hi' lo' holes := by
  induction holes generalizing lo lo' with
  | nil => trivial
  | cons cur next ih =>
    exact ⟨⟨hlo.trans h.1.lo, h.1.start, h.1.rxmit, h.1.hi.trans hhi⟩, ih h.2 le_rfl⟩

theorem Placed.le (hne : holes ≠ []) : lo ≤ hi := by
  cases holes with
  | nil => exact absurd rfl hne
  | cons cur next => exact h.1.le.trans h.1.hi

theorem Placed.between : ∀ cur ∈ holes, cur.Between una lo hi := by
  induction holes generalizing lo with
  | nil => exact fun _ hm => absurd hm not_mem_nil
  | cons cur next ih =>
    intro c hc
    rcases mem_cons.mp hc with rfl | hc
    · exact h.1
    · have hb := ih h.2 c hc
      exact ⟨h.1.le.trans hb.lo, hb.start, hb.rxmit, hb.hi⟩

theorem Placed.sorted : holes.Pairwise fun a b => ahead una a.end ≤ ahead una b.start := by
  induction holes generalizing lo with
  | nil => exact .nil
  | cons cur next ih => exact .cons (fun b hb => (h.2.between b hb).lo) (ih h.2)

theorem Placed.append (hcur : cur.Between una hi hi')
    (hne : holes ≠ []) : Placed una hi' lo (holes ++ [cur]) := by
  induction holes generalizing lo with
  | nil => exact absurd rfl hne
  | cons c next ih =>
    have hhi : hi ≤ hi' := hcur.le.trans hcur.hi
    refine ⟨⟨h.1.lo, h.1.start, h.1.rxmit, h.1.hi.trans hhi⟩, ?_⟩
    cases next with
    | nil => exact ⟨⟨h.1.hi.trans hcur.lo, hcur.start, hcur.rxmit, hcur.hi⟩, trivial⟩
    | cons _ _ => exact ih h.2 (cons_ne_nil _ _)

end

structure Walked (una : Seq) (hi lo : Nat) (sack : Sackblk) (numholes : Int) (count : Nat)
    (w : Walk) : Prop where
  placed : Placed una hi lo (w.passed ++ w.cur)
  count : w.numholes + count = numholes + (w.passed ++ w.cur).length
  limit : numholes ≤ tcpSackholeLimit → w.numholes ≤ tcpSackholeLimit
  before : w.dropped = false → ∀ c ∈ w.cur.head?, ahead una sack.end ≤ ahead una c.start

theorem Sackhole.Between.pass (hcur : cur.Between una lo hi)
    (h : Walked una hi (ahead una cur.end) sack numholes n w) :
    Walked una hi lo sack numholes (n + 1) (w.pass [cur]) where
  placed := ⟨hcur, h.placed⟩
  count := by
    have hcount := h.count
    simp only [Walk.pass, List.cons_append, List.nil_append, List.length_cons]
    omega
  limit := h.limit
  before := h.before

theorem walked_rest {dropped : Bool} (h : Placed una hi lo holes)
    (hbefore : dropped = false → ∀ c ∈ holes.head?, ahead una sack.end ≤ ahead una c.start) :
    Walked una hi lo sack numholes holes.length
      { passed := [], cur := holes, numholes, pool, dropped } where
  placed := h
  count := rfl
  limit := id
  before := hbefore

theorem sackWalk_walked (maxseg : BitVec 16) (numholes : Int) (pool : Nat)
    (hlt : ahead una sack.start < ahead una sack.end)
    (hsack : ahead una sack.end < 2 ^ 31) (hhi : hi < 2 ^ 31) (h : Placed una hi lo holes) :
    ∃ w, sackWalk maxseg sack numholes pool holes = some w ∧
      Walked una hi lo sack numholes holes.length w := by
  have hstart : ahead una sack.start < 2 ^ 31 := hlt.trans hsack
  induction holes generalizing lo numholes pool with
  | nil => exact ⟨_, rfl, walked_rest trivial fun _ => (by simp)⟩
  | cons cur next ih =>
    obtain ⟨hcur, hnext⟩ := h
    have hcs := hcur.start
    have hcr := hcur.rxmit
    have hchi := hcur.hi
    have hs : ahead una cur.start < 2 ^ 31 := by omega
    have hr : ahead una cur.rxmit < 2 ^ 31 := by omega
    have he : ahead una cur.end < 2 ^ 31 := by omega
    rw [sackWalk]
    simp only [seqLeq_ahead hsack hs, seqGeq_ahead hstart he, seqLeq_ahead hstart hs,
      seqGeq_ahead hsack he, seqLt_ahead hs hstart, seqGt_ahead he hsack, decide_eq_true_eq]
    by_cases hbefore : ahead una sack.end ≤ ahead una cur.start
    · rw [if_pos hbefore]
      refine ⟨_, rfl, walked_rest ⟨hcur, hnext⟩ fun _ c hc => ?_⟩
      obtain rfl := Option.mem_some.mp hc
      exact hbefore
    rw [if_neg hbefore]
    by_cases hbeyond : ahead una cur.end ≤ ahead una sack.start
    · obtain ⟨w, hw, hwalked⟩ := ih numholes pool hnext
      rw [if_pos hbeyond, hw]
      exact ⟨_, rfl, (hcur.dup maxseg sack.end).pass hwalked⟩
    rw [if_neg hbeyond]
    by_cases hfrom : ahead una sack.start ≤ ahead una cur.start
    · rw [if_pos hfrom]
      by_cases hall : ahead una cur.end ≤ ahead una sack.end
      · -- the hole is deleted
        obtain ⟨w, hw, hwalked⟩ := ih (numholes - 1) pool (hnext.mono hcur.le le_rfl)
        have hcount := hwalked.count
        have hlimit := hwalked.limit
        rw [if_pos hall]
        refine ⟨w, hw, hwalked.placed, ?_, fun hle => hlimit (by omega), hwalked.before⟩
        rw [List.length_cons]
        omega
      · obtain ⟨w, hw, hwalked⟩ := ih numholes pool hnext
        have hmoved := hcur.move hr hsack (by omega)
        rw [if_neg hall, hw]
        exact ⟨_, rfl, (hmoved.mono (by have := hcur.lo; omega)).pass hwalked⟩
    rw [if_neg hfrom]
    have hcut := hcur.cut hr hstart (by omega) (by omega)
    by_cases hto : ahead una cur.end ≤ ahead una sack.end
    · have hnext' : Placed una hi (ahead una sack.start) next := hnext.mono (by omega) le_rfl
      obtain ⟨w, hw, hwalked⟩ := ih numholes pool hnext'
      rw [if_pos hto, hw]
      exact ⟨_, rfl, (hcut.dup maxseg sack.end).pass hwalked⟩
    rw [if_neg hto, if_pos ⟨by omega, by omega⟩]
    by_cases hfull : numholes ≥ tcpSackholeLimit ∨ pool = 0
    · rw [if_pos hfull]
      exact ⟨_, rfl, walked_rest ⟨hcur, hnext⟩ (by simp)⟩
    · -- the hole is split
      obtain ⟨w, hw, hwalked⟩ := ih (numholes + 1) (pool - 1) hnext
      have hmoved := hcur.move hr hsack (by omega)
      have hboth := (hcut.dup maxseg sack.end).pass ((hmoved.mono hlt.le).pass hwalked)
      have hcount := hwalked.count
      have hlimit := hwalked.limit
      rw [if_neg hfull, hw]
      refine ⟨_, rfl, hboth.placed, ?_, fun _ => hlimit (by omega), hwalked.before⟩
      simp only [Walk.pass, List.cons_append, List.nil_append, List.length_cons]
      omega

structure Within (una : Seq) (lo : Nat) (tp : SackTcpcb) : Prop where
  sndUna : tp.sndUna = una
  sndMax : ahead una tp.sndMax < 2 ^ 31
  count : tp.sndNumholes = tp.sndHoles.length
  limit : tp.sndNumholes ≤ tcpSackholeLimit
  placed : Placed una (ahead una tp.rcvLastsack) lo tp.sndHoles
  last : tp.sndHoles ≠ [] → ahead una tp.rcvLastsack ≤ ahead una tp.sndMax

variable {tp : SackTcpcb} {th : SackTcphdr} {r : SackResult} {blks : List Sackblk}

def Floor (una : Seq) (lo : Nat) (tp : SackTcpcb) (th : SackTcphdr) : Prop :=
  lo ≤ ahead una th.thAck ∧ ahead una th.thAck ≤ ahead una tp.sndMax

theorem Floor.frame {tp' : SackTcpcb} (h : Floor una lo tp th) (hf : SackFrame tp tp') :
    Floor una lo tp' th := by
  rw [Floor, hf.sndMax]
  exact h

theorem Within.accept (h : Within una lo tp) (hf : Floor una lo tp th)
    (hacc : sackAccept tp th sack = true) :
    ahead una th.thAck ≤ ahead una sack.start ∧ ahead una sack.start < ahead una sack.end ∧
      ahead una sack.end ≤ ahead una tp.sndMax := by
  have hmax := h.sndMax
  have hack : ahead una th.thAck < 2 ^ 31 := hf.2.trans_lt hmax
  have hzero : ahead una una < 2 ^ 31 := by simp
  rw [sackAccept, h.sndUna] at hacc
  simp only [Bool.not_eq_true', Bool.or_eq_false_iff] at hacc
  obtain ⟨⟨⟨⟨hlt, hold⟩, hbefore⟩, htop⟩, hstart⟩ := hacc
  have hs := ahead_lt_of_seqLt hstart
  have he := ahead_lt_of_seqLt (seqLt_of_seqLeq hold)
  rw [seqLeq_ahead he hs, decide_eq_false_iff_not] at hlt
  rw [seqGt_ahead he hmax, decide_eq_false_iff_not] at htop
  rw [seqGt_ahead hack hzero, seqLt_ahead hs hack, ahead_self, Bool.and_eq_false_iff,
    decide_eq_false_iff_not, decide_eq_false_iff_not] at hbefore
  omega

theorem Within.setMax (h : Within una lo tp) {sndMax : Seq}
    (hle : ahead una tp.sndMax ≤ ahead una sndMax) (hlt : ahead una sndMax < 2 ^ 31) :
    Within una lo { tp with sndMax } :=
  { h with sndMax := hlt, last := fun hne => (h.last hne).trans hle }

theorem Within.append (hw : Walked una (ahead una tp.rcvLastsack) lo sack tp.sndNumholes n w)
    (h : Within una lo tp) (hn : n = tp.sndHoles.length)
    (hlt : ahead una sack.start < ahead una sack.end)
    (htop : ahead una sack.end ≤ ahead una tp.sndMax) (hd : w.dropped = false)
    (happ : w.upto ≠ []) (hbeyond : ahead una tp.rcvLastsack < ahead una sack.start)
    (hroom : w.numholes < tcpSackholeLimit) : Within una lo (sackAppend { tp with
      sndHoles := w.passed ++ w.cur, sndNumholes := w.numholes } sack w.upto) := by
  have hcur : w.cur = [] := by
    cases hcur : w.cur with
    | nil => rfl
    | cons c next =>
      have hbefore := hw.before hd c (by rw [hcur]; rfl)
      have hc := hw.placed.between c (by rw [hcur]; simp)
      have := hc.start
      have := hc.rxmit
      have := hc.hi
      omega
  have hupto : w.upto = w.passed ++ w.cur := by
    rw [Walk.upto, hcur]
    split
    next hnil => rw [hnil]; rfl
    next => rw [append_nil]
  have hcount := hw.count
  refine ⟨h.sndUna, h.sndMax, ?_, Int.add_one_le_of_lt hroom, ?_, fun _ => htop⟩
  · have hold := h.count
    simp only [sackAppend, hupto, length_append, length_singleton] at hcount ⊢
    omega
  · refine (hupto ▸ hw.placed).append ⟨le_rfl, le_rfl, hbeyond.le, hlt.le⟩ happ

theorem Within.block (h : Within una lo tp) (hf : Floor una lo tp th) (sack : Sackblk)
    (pool : Nat) : ∃ r, sackBlock tp th sack pool = some r ∧ Within una lo r.tp := by
  rw [sackBlock]
  cases hacc : sackAccept tp th sack with
  | false => exact ⟨_, rfl, h⟩
  | true =>
    obtain ⟨hack, hlt, htop⟩ := h.accept hf hacc
    have hmax := h.sndMax
    rw [Bool.not_true, if_neg Bool.false_ne_true]
    by_cases hnil : tp.sndHoles = []
    · rw [if_pos hnil]
      split
      next => exact ⟨_, rfl, h⟩
      next =>
        refine ⟨_, rfl, h.sndUna, hmax, rfl, (by decide : (1 : Int) ≤ 128), ⟨⟨hf.1, le_rfl, hack, hlt.le⟩, trivial⟩,
          fun _ => htop⟩
    · have hlast := h.last hnil
      obtain ⟨w, hw, hwalked⟩ := sackWalk_walked tp.tMaxseg tp.sndNumholes pool hlt
        (htop.trans_lt hmax) (hlast.trans_lt hmax) h.placed
      have hcount := hwalked.count
      have hold := h.count
      have hrest : Within una lo { tp with
          sndHoles := w.passed ++ w.cur, sndNumholes := w.numholes } :=
        ⟨h.sndUna, hmax, by simp only; omega, hwalked.limit h.limit, hwalked.placed, fun _ => hlast⟩
      rw [if_neg hnil, hw, bind_eq_bind, bind_some]
      dsimp only
      split
      next => exact ⟨_, rfl, hrest⟩
      next hd =>
        have hbeyond := seqLt_ahead (hlast.trans_lt hmax) (hlt.trans (htop.trans_lt hmax))
        split
        next happ =>
          rw [hbeyond, decide_eq_true_eq] at happ
          split
          next => exact ⟨_, rfl, hrest⟩
          next hroom =>
            exact ⟨_, rfl, Within.append hwalked h rfl hlt htop (Bool.eq_false_iff.mpr hd)
              happ.1 happ.2 (by omega)⟩
        next => exact ⟨_, rfl, hrest⟩

theorem Within.loop (h : Within una lo tp) (hf : Floor una lo tp th) (blks : List Sackblk)
    (pool : Nat) :
    ∃ r, sackLoop tp th pool blks = some r ∧ Within una lo r.tp ∧ SackFrame tp r.tp := by
  induction blks generalizing tp pool with
  | nil => exact ⟨_, rfl, h, SackFrame.refl tp⟩
  | cons sack blks ih =>
    obtain ⟨r, hr, hin⟩ := h.block hf sack pool
    have hframe := sackBlock_frame hr
    rw [sackLoop, hr, bind_eq_bind, bind_some]
    split
    next => exact ⟨r, rfl, hin, hframe⟩
    next =>
      obtain ⟨r', hr', hin', hframe'⟩ := ih hin (hf.frame hframe) r.pool
      exact ⟨r', hr', hin', hframe.trans hframe'⟩

theorem Within.option (h : Within una lo tp) (hlo : lo ≤ ahead una th.thAck)
    (cp : List (BitVec 8)) (pool : Nat) :
    tp.tMaxseg = 0 ∨ ∃ r, tcpSackOption tp th cp pool = some r ∧ Within una lo r.tp ∧
      SackFrame tp r.tp := by
  rw [tcpSackOption]
  split
  next => exact .inr ⟨_, rfl, h, SackFrame.refl tp⟩
  next hig =>
    by_cases hseg : tp.tMaxseg = 0
    · exact .inl hseg
    rw [if_neg hseg]
    have hready : Within una lo (sackReady tp) := by
      have hcount := h.count
      rw [sackReady, if_neg (by omega)]
      exact h
    have hf : Floor una lo tp th := by
      simp only [sackIgnore, Bool.not_eq_true, Bool.or_eq_false_iff] at hig
      obtain ⟨⟨⟨⟨-, hlt⟩, hgt⟩, -⟩, -⟩ := hig
      rw [h.sndUna] at hlt
      have hack := ahead_lt_of_seqLt hlt
      rw [seqGt_ahead hack h.sndMax, decide_eq_false_iff_not, Nat.not_lt] at hgt
      exact ⟨hlo, hgt⟩
    obtain ⟨r, hr, hin, hframe⟩ := hready.loop hf (sackblks (cp.drop 2)) pool
    have hstart : SackFrame tp (sackReady tp) := ⟨rfl, rfl, rfl, rfl⟩
    exact .inr ⟨r, hr, hin, hstart.trans hframe⟩

theorem delSackholes_placed (hx : ahead una x < 2 ^ 31) (hhi : holes ≠ [] → hi < 2 ^ 31)
    (h : Placed una hi lo holes) : Placed una hi (ahead una x) (delSackholes x holes).1 ∧
      (delSackholes x holes).1.length + (delSackholes x holes).2 = holes.length := by
  induction holes generalizing lo with
  | nil => exact ⟨trivial, rfl⟩
  | cons cur next ih =>
    obtain ⟨hcur, hnext⟩ := h
    have hhi := hhi (cons_ne_nil _ _)
    have hcs := hcur.start
    have hcr := hcur.rxmit
    have hchi := hcur.hi
    have hs : ahead una cur.start < 2 ^ 31 := by omega
    have hr : ahead una cur.rxmit < 2 ^ 31 := by omega
    have he : ahead una cur.end < 2 ^ 31 := by omega
    rw [delSackholes]
    simp only [seqLeq_ahead he hx, seqLt_ahead hs hx, seqLt_ahead hr hx, decide_eq_true_eq]
    split
    next =>
      obtain ⟨hplaced, hlen⟩ := ih (fun _ => hhi) hnext
      exact ⟨hplaced, by rw [← Nat.add_assoc, hlen, length_cons]⟩
    next hle =>
      split
      next =>
        refine ⟨⟨⟨le_rfl, ?_, ?_, hchi⟩, hnext⟩, rfl⟩
        · simp only
          split <;> omega
        · simp only
          split <;> omega
      next hlt => exact ⟨⟨⟨Nat.le_of_not_lt hlt, hcs, hcr, hchi⟩, hnext⟩, rfl⟩

def lastack (una : Seq) (th : SackTcphdr) : Seq := if seqGt th.thAck una then th.thAck else una

theorem ahead_lastack_lt (una : Seq) (th : SackTcphdr) : ahead una (lastack una th) < 2 ^ 31 := by
  rw [lastack]
  split
  next hgt =>
    refine ahead_lt_of_seqLt ?_
    rw [seqGt, decide_eq_true_eq] at hgt
    rw [seqLt, decide_eq_false_iff_not]
    omega
  next => simp

theorem Within.del (h : Within una lo tp) (hstate : tp.tState ≠ tcpsListen)
    (hen : tp.sackEnable = true ∨ tp.sndHoles = []) (th : SackTcphdr) :
    Within una (ahead una (lastack una th)) (tcpDelSackholes tp th) ∧
      SackFrame tp (tcpDelSackholes tp th) := by
  rw [tcpDelSackholes]
  split
  next =>
    obtain rfl : tp.sndUna = una := h.sndUna
    have hcount := h.count
    have hlimit := h.limit
    obtain ⟨hplaced, hlen⟩ := delSackholes_placed (ahead_lastack_lt tp.sndUna th)
      (fun hne => (h.last hne).trans_lt h.sndMax) h.placed
    refine ⟨⟨rfl, h.sndMax, ?_, ?_, hplaced, fun hne => h.last fun hnil => hne ?_⟩,
      ⟨rfl, rfl, rfl, rfl⟩⟩
    · change tp.sndNumholes - ((delSackholes (lastack tp.sndUna th) tp.sndHoles).2 : Int) =
        (delSackholes (lastack tp.sndUna th) tp.sndHoles).1.length
      omega
    · change tp.sndNumholes - ((delSackholes (lastack tp.sndUna th) tp.sndHoles).2 : Int) ≤ _
      omega
    · change (delSackholes (lastack tp.sndUna th) tp.sndHoles).1 = []
      rw [hnil]
      rfl
  next hoff =>
    have hnil : tp.sndHoles = [] := hen.resolve_left fun hon => hoff ⟨hon, hstate⟩
    refine ⟨{ h with placed := ?_ }, SackFrame.refl tp⟩
    rw [hnil]
    trivial

theorem Placed.advance {a : Seq} (ha : ahead una a ≤ lo) (h : Placed una hi lo holes) :
    Placed a (hi - ahead una a) (lo - ahead una a) holes := by
  induction holes generalizing lo with
  | nil => trivial
  | cons cur next ih =>
    obtain ⟨hcur, hnext⟩ := h
    have hs := hcur.lo
    have hr := hcur.start
    have he := hcur.rxmit
    have hhi := hcur.hi
    have hends : ahead a cur.end = ahead una cur.end - ahead una a := ahead_of_le (by omega)
    refine ⟨⟨?_, ?_, ?_, ?_⟩, hends ▸ ih (by omega) hnext⟩
    · rw [ahead_of_le (by omega : ahead una a ≤ ahead una cur.start)]
      omega
    · rw [ahead_of_le (by omega : ahead una a ≤ ahead una cur.start),
        ahead_of_le (by omega : ahead una a ≤ ahead una cur.rxmit)]
      omega
    · rw [hends, ahead_of_le (by omega : ahead una a ≤ ahead una cur.rxmit)]
      omega
    · rw [hends]
      omega

theorem Within.advance {a : Seq} (h : Within una (ahead una a) tp)
    (ha : ahead una a ≤ ahead una tp.sndMax) : Within a 0 { tp with sndUna := a } := by
  have hmax := h.sndMax
  have htop : ahead a tp.sndMax = ahead una tp.sndMax - ahead una a := ahead_of_le ha
  refine ⟨rfl, by simp only; omega, h.count, h.limit, ?_, fun hne => ?_⟩
  · by_cases hnil : tp.sndHoles = []
    · simp only [hnil]
      trivial
    · have hrcv : ahead a tp.rcvLastsack = ahead una tp.rcvLastsack - ahead una a :=
        ahead_of_le (h.placed.le hnil)
      rw [← Nat.sub_self (ahead una a), hrcv]
      exact h.placed.advance le_rfl
  · have hlast := h.last hne
    have hrcv : ahead a tp.rcvLastsack = ahead una tp.rcvLastsack - ahead una a :=
      ahead_of_le (h.placed.le hne)
    simp only
    omega

/-- The options of a segment; the number says how many holes the pool gives for each. -/
def sackOptions (th : SackTcphdr) : SackTcpcb → List (List (BitVec 8) × Nat) → Option SackTcpcb
  | tp, [] => some tp
  | tp, (cp, pool) :: os => (tcpSackOption tp th cp pool).bind fun r => sackOptions th r.tp os

/-- The calls that a connection makes: more is sent, an option comes in, or a segment whose options
are looked at between `tcp_del_sackholes` and the move of `snd_una`. -/
inductive SackCalls : SackTcpcb → Prop
  | start {tp : SackTcpcb} :
      tp.sndHoles = [] → tp.sndNumholes = 0 → tp.tState ≠ tcpsListen →
      ahead tp.sndUna tp.sndMax < 2 ^ 31 → SackCalls tp
  | sent {tp : SackTcpcb} {sndMax : Seq} :
      SackCalls tp → ahead tp.sndUna tp.sndMax ≤ ahead tp.sndUna sndMax →
      ahead tp.sndUna sndMax < 2 ^ 31 → SackCalls { tp with sndMax }
  | option {tp : SackTcpcb} {th : SackTcphdr} {cp : List (BitVec 8)} {pool : Nat}
      {r : SackResult} :
      SackCalls tp → tcpSackOption tp th cp pool = some r → SackCalls r.tp
  | segment {tp tp' : SackTcpcb} {th : SackTcphdr} {os : List (List (BitVec 8) × Nat)} :
      SackCalls tp → sackOptions th (tcpDelSackholes tp th) os = some tp' →
      SackCalls (advanceUna tp' th)

variable {tp' : SackTcpcb} {os : List (List (BitVec 8) × Nat)}

structure Sacking (una : Seq) (lo : Nat) (tp : SackTcpcb) : Prop where
  within : Within una lo tp
  tState : tp.tState ≠ tcpsListen
  enabled : tp.sackEnable = true ∨ tp.sndHoles = []

theorem Sacking.option (h : Sacking una lo tp) (hlo : lo ≤ ahead una th.thAck)
    {cp : List (BitVec 8)} (hr : tcpSackOption tp th cp pool = some r) :
    Sacking una lo r.tp ∧ SackFrame tp r.tp := by
  rcases h.within.option hlo cp pool with hseg | ⟨r', hr', hin, hframe⟩
  · rw [tcpSackOption] at hr
    split at hr
    · rw [← some.inj hr]
      exact ⟨h, SackFrame.refl tp⟩
    · exact absurd hr (by simp)
  · obtain rfl := some.inj (hr.symm.trans hr')
    refine ⟨⟨hin, hframe.tState ▸ h.tState, ?_⟩, hframe⟩
    rcases h.enabled with hon | hnil
    · exact .inl (hframe.sackEnable.trans hon)
    · cases hon : tp.sackEnable with
      | true => exact .inl (hframe.sackEnable.trans hon)
      | false =>
        rw [tcpSackOption, sackIgnore, hon] at hr
        rw [← some.inj hr]
        exact .inr hnil

theorem Sacking.options (h : Sacking una lo tp) (hlo : lo ≤ ahead una th.thAck)
    (hr : sackOptions th tp os = some tp') : Sacking una lo tp' ∧ SackFrame tp tp' := by
  induction os generalizing tp with
  | nil =>
    rw [← some.inj hr]
    exact ⟨h, SackFrame.refl tp⟩
  | cons o os ih =>
    obtain ⟨r, hopt, hrest⟩ := bind_eq_some_iff.mp hr
    obtain ⟨hin, hframe⟩ := h.option hlo hopt
    obtain ⟨hin', hframe'⟩ := ih hin hrest
    exact ⟨hin', hframe.trans hframe'⟩

theorem Sacking.segment (h : Sacking una 0 tp)
    (hr : sackOptions th (tcpDelSackholes tp th) os = some tp') :
    Sacking (advanceUna tp' th).sndUna 0 (advanceUna tp' th) := by
  obtain ⟨hdel, hframe⟩ := h.within.del h.tState h.enabled th
  have hlast : ahead una (lastack una th) ≤ ahead una th.thAck := by
    rw [lastack]
    split
    · exact le_rfl
    · simp
  have hen : (tcpDelSackholes tp th).sackEnable = true ∨ (tcpDelSackholes tp th).sndHoles = [] :=
    h.enabled.imp hframe.sackEnable.trans sndHoles_del
  obtain ⟨⟨hin, hstate, hen'⟩, -⟩ :=
    Sacking.options ⟨hdel, hframe.tState ▸ h.tState, hen⟩ hlast hr
  rw [advanceUna]
  split
  next =>
    rw [hin.sndUna]
    exact ⟨{ hin with placed := hin.placed.mono (Nat.zero_le _) le_rfl }, hstate, hen'⟩
  next hno =>
    rw [hin.sndUna, not_or, Bool.not_eq_true, Bool.not_eq_true] at hno
    have hack := ahead_lt_of_seqLt (seqLt_of_seqLeq hno.1)
    have hgt : seqGt th.thAck una = true := by
      have hleq := hno.1
      rw [seqLeq, decide_eq_false_iff_not] at hleq
      rw [seqGt, decide_eq_true_eq]
      omega
    rw [seqGt_ahead hack hin.sndMax, decide_eq_false_iff_not, Nat.not_lt] at hno
    rw [lastack, if_pos hgt] at hin
    exact ⟨hin.advance hno.2, hstate, hen'⟩

theorem SackCalls.sacking (h : SackCalls tp) : Sacking tp.sndUna 0 tp := by
  induction h with
  | @start tp hnil hzero hstate hmax =>
    refine ⟨⟨rfl, hmax, by simp [hnil, hzero], by simp [hzero, tcpSackholeLimit], ?_,
      fun hne => absurd hnil hne⟩, hstate, .inr hnil⟩
    rw [hnil]
    trivial
  | sent _ hle hlt ih => exact ⟨ih.within.setMax hle hlt, ih.tState, ih.enabled⟩
  | option _ hr ih =>
    obtain ⟨hin, hframe⟩ := ih.option (Nat.zero_le _) hr
    exact hframe.sndUna ▸ hin
  | segment _ hr ih => exact ih.segment hr

/-- The holes are sorted and apart, each is between `snd_una` and `snd_max`, and they are counted.
Distances from `snd_una` on are compared, all of them less than half the sequence space. -/
structure ScoreboardBounds (tp : SackTcpcb) : Prop where
  sorted : tp.sndHoles.Pairwise fun a b => ahead tp.sndUna a.end ≤ ahead tp.sndUna b.start
  ordered : ∀ cur ∈ tp.sndHoles, ahead tp.sndUna cur.start ≤ ahead tp.sndUna cur.rxmit ∧
    ahead tp.sndUna cur.rxmit ≤ ahead tp.sndUna cur.end ∧
    ahead tp.sndUna cur.end ≤ ahead tp.sndUna tp.sndMax
  half : ahead tp.sndUna tp.sndMax < 2 ^ 31
  count : tp.sndNumholes = tp.sndHoles.length
  limit : tp.sndNumholes ≤ tcpSackholeLimit

theorem Within.bounds (h : Within tp.sndUna lo tp) : ScoreboardBounds tp where
  sorted := h.placed.sorted
  ordered cur hm := by
    have hb := h.placed.between cur hm
    exact ⟨hb.start, hb.rxmit, hb.hi.trans (h.last (ne_nil_of_mem hm))⟩
  half := h.sndMax
  count := h.count
  limit := h.limit

/-- After any calls the scoreboard is in order, and the next option is gone through to its end. -/
theorem sack_scoreboard_bounds (tp : SackTcpcb) (h : SackCalls tp) :
    ScoreboardBounds tp ∧ ∀ th cp pool, tp.tMaxseg ≠ 0 →
      ∃ r, tcpSackOption tp th cp pool = some r := by
  refine ⟨h.sacking.within.bounds, fun th cp pool hseg => ?_⟩
  obtain ⟨r, hr, -⟩ := (h.sacking.within.option (Nat.zero_le _) cp pool).resolve_left hseg
  exact ⟨r, hr⟩

/-- Two holes, the first of which is then acknowledged in part. -/
theorem sack_scoreboard_bounds_two : ∃ tp, SackCalls tp ∧ tp.sndHoles.length = 2 ∧
    ScoreboardBounds tp ∧ ∃ r, tcpSackOption tp ackNothing [] 0 = some r := by
  have hstart : SackCalls sackIdle := .start rfl rfl (by decide) (by decide)
  have hopt : SackCalls _ := hstart.option
    (show tcpSackOption sackIdle ackNothing (sackOptOf [(10, 20), (30, 40)]).cp 2 = some _ from rfl)
  have hack : SackCalls _ := hopt.segment (show sackOptions ⟨5, thAck⟩ _ [] = some _ from rfl)
  exact ⟨_, hack, by decide, (sack_scoreboard_bounds _ hack).1,
    (sack_scoreboard_bounds _ hack).2 _ _ _ (by decide)⟩

end Mbsd.Netinet.TcpInput
