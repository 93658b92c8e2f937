import Mathlib.Data.List.Forall2
import Mbsd.Lib.Gaps
import Mbsd.Netinet.TcpSeq

/-! The sender's side of selective acknowledgements: `tcp_sack_option` and `tcp_del_sackholes`. -/

namespace Mbsd.Netinet.TcpInput

open TcpSeq

def thAck : BitVec 8 := 0x10

def tcpsListen : Nat := 1

def tcpolenSack : Nat := 8

def tcpSackholeLimit : Int := 128

def tcprexmtthresh : Nat := 3

structure Sackhole where
  start : Seq
  «end» : Seq
  dups : Int
  rxmit : Seq
  deriving DecidableEq

structure Sackblk where
  start : Seq
  «end» : Seq
  deriving DecidableEq

structure SackTcpcb where
  tState : Nat
  tMaxseg : BitVec 16
  sndUna : Seq
  sndMax : Seq
  sackEnable : Bool
  sndNumholes : Int
  sndHoles : List Sackhole
  rcvLastsack : Seq
  deriving DecidableEq

structure SackTcphdr where
  thAck : Seq
  thFlags : BitVec 8

def ntohl (a b c d : BitVec 8) : Seq := a ++ b ++ c ++ d

def sackblks : List (BitVec 8) → List Sackblk
  | a :: b :: c :: d :: e :: f :: g :: h :: cp =>
    { start := ntohl a b c d, «end» := ntohl e f g h } :: sackblks cp
  | _ => []

/-- How many segments the block has sent beyond the hole, as `(sack.end - cur->end)/tp->t_maxseg`
counts them. -/
def segsBeyond (maxseg : BitVec 16) (first last : Seq) : Nat := (last - first).toNat / maxseg.toNat

/-- One more duplicate acknowledgement for a hole, after a block that ends at `sackEnd`. -/
def Sackhole.dup (cur : Sackhole) (maxseg : BitVec 16) (sackEnd : Seq) : Sackhole :=
  { cur with
    dups := if segsBeyond maxseg cur.end sackEnd ≥ tcprexmtthresh then tcprexmtthresh
      else cur.dups + 1 }

def firstDups (maxseg : BitVec 16) (first last : Seq) : Int :=
  if min tcprexmtthresh (segsBeyond maxseg first last) < 1 then 1
  else min tcprexmtthresh (segsBeyond maxseg first last)

/-- Where the walk of a block through the holes has come: the holes passed, the holes from `cur` on,
and whether the block is dropped.  `pool` counts the holes that the pool still gives. -/
structure Walk where
  passed : List Sackhole
  cur : List Sackhole
  numholes : Int
  pool : Nat
  dropped : Bool

def Walk.pass (w : Walk) (hs : List Sackhole) : Walk := { w with passed := hs ++ w.passed }

def sackWalk (maxseg : BitVec 16) (sack : Sackblk) (numholes : Int) (pool : Nat) :
    List Sackhole → Option Walk
  | [] => some { passed := [], cur := [], numholes, pool, dropped := false }
  | cur :: next =>
    if seqLeq sack.end cur.start then
      some { passed := [], cur := cur :: next, numholes, pool, dropped := false }
    else if seqGeq sack.start cur.end then
      (sackWalk maxseg sack numholes pool next).map (·.pass [cur.dup maxseg sack.end])
    else if seqLeq sack.start cur.start then
      if seqGeq sack.end cur.end then sackWalk maxseg sack (numholes - 1) pool next
      else
        let cur := { cur with start := sack.end, rxmit := seqMax cur.rxmit sack.end }
        (sackWalk maxseg sack numholes pool next).map (·.pass [cur])
    else if seqGeq sack.end cur.end then
      let cur := { cur with «end» := sack.start, rxmit := seqMin cur.rxmit sack.start }
      (sackWalk maxseg sack numholes pool next).map (·.pass [cur.dup maxseg sack.end])
    else if seqLt cur.start sack.start ∧ seqGt cur.end sack.end then
      if numholes ≥ tcpSackholeLimit ∨ pool = 0 then
        some { passed := [], cur := cur :: next, numholes, pool, dropped := true }
      else
        let temp := { cur with start := sack.end, rxmit := seqMax cur.rxmit sack.end }
        let cur := { cur with «end» := sack.start, rxmit := seqMin cur.rxmit sack.start }
        (sackWalk maxseg sack (numholes + 1) (pool - 1) next).map
          (·.pass [cur.dup maxseg sack.end, temp])
    -- the loop does not move on
    else none

/-- The list up to the hole that `p` points to after the walk; empty when `p` is `NULL`. -/
def Walk.upto (w : Walk) : List Sackhole := if w.passed = [] then w.cur.take 1 else w.passed

/-- The connection after a block or after an option, what the pool still gives, and whether the rest
of the option is dropped. -/
structure SackResult where
  tp : SackTcpcb
  pool : Nat
  dropped : Bool
  deriving DecidableEq

def sackAccept (tp : SackTcpcb) (th : SackTcphdr) (sack : Sackblk) : Bool :=
  !(seqLeq sack.end sack.start || seqLeq sack.end tp.sndUna ||
    seqGt th.thAck tp.sndUna && seqLt sack.start th.thAck ||
    seqGt sack.end tp.sndMax || seqLt sack.start tp.sndUna)

def sackFirstHole (tp : SackTcpcb) (th : SackTcphdr) (sack : Sackblk) : SackTcpcb :=
  { tp with
    sndHoles := [{
      start := th.thAck
      «end» := sack.start
      rxmit := th.thAck
      dups := firstDups tp.tMaxseg sack.start sack.end }]
    sndNumholes := 1
    rcvLastsack := sack.end }

def sackAppend (tp : SackTcpcb) (sack : Sackblk) (upto : List Sackhole) : SackTcpcb :=
  { tp with
    sndHoles := upto ++ [{
      start := tp.rcvLastsack
      «end» := sack.start
      dups := firstDups tp.tMaxseg sack.start sack.end
      rxmit := tp.rcvLastsack }]
    rcvLastsack := sack.end
    sndNumholes := tp.sndNumholes + 1 }

def sackBlock (tp : SackTcpcb) (th : SackTcphdr) (sack : Sackblk) (pool : Nat) :
    Option SackResult :=
  if !sackAccept tp th sack then some { tp, pool, dropped := false }
  else if tp.sndHoles = [] then
    if pool = 0 then some { tp, pool, dropped := true }
    else some { tp := sackFirstHole tp th sack, pool := pool - 1, dropped := false }
  else do
    let w ← sackWalk tp.tMaxseg sack tp.sndNumholes pool tp.sndHoles
    let tp := { tp with sndHoles := w.passed ++ w.cur, sndNumholes := w.numholes }
    if w.dropped then some { tp, pool := w.pool, dropped := true }
    else if w.upto ≠ [] ∧ seqLt tp.rcvLastsack sack.start then
      if w.numholes ≥ tcpSackholeLimit ∨ w.pool = 0 then
        some { tp, pool := w.pool, dropped := true }
      else some { tp := sackAppend tp sack w.upto, pool := w.pool - 1, dropped := false }
    else some { tp, pool := w.pool, dropped := false }

def sackLoop (tp : SackTcpcb) (th : SackTcphdr) (pool : Nat) : List Sackblk → Option SackResult
  | [] => some { tp, pool, dropped := false }
  | sack :: l => do
    let r ← sackBlock tp th sack pool
    if r.dropped then some r else sackLoop r.tp th r.pool l

def sackIgnore (tp : SackTcpcb) (th : SackTcphdr) (cp : List (BitVec 8)) : Bool :=
  !tp.sackEnable || th.thFlags &&& thAck = 0 || seqLt th.thAck tp.sndUna ||
    seqGt th.thAck tp.sndMax || cp.length ≤ 2 || (cp.length - 2) % tcpolenSack ≠ 0

def sackReady (tp : SackTcpcb) : SackTcpcb :=
  { tp with sndNumholes := if tp.sndNumholes < 0 then 0 else tp.sndNumholes }

/-- `cp` is the whole option.  There is no result when the call panics or does not end. -/
def tcpSackOption (tp : SackTcpcb) (th : SackTcphdr) (cp : List (BitVec 8)) (pool : Nat) :
    Option SackResult :=
  if sackIgnore tp th cp then some { tp, pool, dropped := false }
  else if tp.tMaxseg = 0 then none
  else sackLoop (sackReady tp) th pool (sackblks (cp.drop 2))

/-- The loop of `tcp_del_sackholes`: the holes that are left, and how many were deleted. -/
def delSackholes (lastack : Seq) : List Sackhole → List Sackhole × Nat
  | [] => ([], 0)
  | cur :: next =>
    if seqLeq cur.end lastack then
      let (holes, n) := delSackholes lastack next
      (holes, n + 1)
    else if seqLt cur.start lastack then
      ({ cur with
        start := lastack
        rxmit := if seqLt cur.rxmit lastack then lastack else cur.rxmit } :: next, 0)
    else (cur :: next, 0)

def tcpDelSackholes (tp : SackTcpcb) (th : SackTcphdr) : SackTcpcb :=
  if tp.sackEnable ∧ tp.tState ≠ tcpsListen then
    let lastack := if seqGt th.thAck tp.sndUna then th.thAck else tp.sndUna
    let (holes, n) := delSackholes lastack tp.sndHoles
    { tp with sndHoles := holes, sndNumholes := tp.sndNumholes - n }
  else tp

/-! The walk of a SACK block fills a range of the gaps that the holes stand for. -/

open Lib.Gaps Lib.SeqSpace List Option

def Shows (base : Seq) (holes : List Sackhole) (gaps : List Gap) : Prop :=
  List.Forall₂ (fun (h : Sackhole) (g : Gap) =>
    h.start = seqAt base g.start ∧ h.end = seqAt base g.stop) holes gaps

def sackblkOf (base : Seq) (b : Gap) : Sackblk where
  start := seqAt base b.start
  «end» := seqAt base b.stop

/-- All positions that are compared lie in the half of the sequence space from `lo` on. -/
def InSpan (lo p : Nat) : Prop := lo ≤ p ∧ p < lo + 2 ^ 31

instance (lo p : Nat) : Decidable (InSpan lo p) :=
  inferInstanceAs (Decidable (lo ≤ p ∧ p < lo + 2 ^ 31))

theorem InSpan.near {lo m n : Nat} (hm : InSpan lo m) (hn : InSpan lo n) : Near m n := by
  obtain ⟨hm, hm'⟩ := hm
  obtain ⟨hn, hn'⟩ := hn
  exact ⟨by omega, by omega⟩

structure Gap.InSpan (lo : Nat) (g : Gap) : Prop where
  start : TcpInput.InSpan lo g.start
  stop : TcpInput.InSpan lo g.stop

instance (lo : Nat) (g : Gap) : Decidable (Gap.InSpan lo g) :=
  decidable_of_iff (InSpan lo g.start ∧ InSpan lo g.stop)
    ⟨fun h => ⟨h.1, h.2⟩, fun h => ⟨h.start, h.stop⟩⟩

variable {base : Seq} {holes next : List Sackhole} {gaps : List Gap} {b g : Gap} {cur : Sackhole}
  {lo pool : Nat} {numholes : Int} {maxseg : BitVec 16} {w : Walk}

theorem Shows.nil : Shows base [] [] := Forall₂.nil

theorem Shows.append {holes' : List Sackhole} {gaps' : List Gap} (h : Shows base holes gaps)
    (h' : Shows base holes' gaps') : Shows base (holes ++ holes') (gaps ++ gaps') :=
  rel_append h h'

theorem Shows.gap_of_mem (h : Shows base holes gaps) (hm : cur ∈ holes) :
    ∃ g ∈ gaps, cur.start = seqAt base g.start := by
  induction h with
  | nil => exact absurd hm not_mem_nil
  | @cons hole gap next gaps hhead _ ih =>
    rcases mem_cons.mp hm with rfl | hm
    · exact ⟨gap, mem_cons_self, hhead.1⟩
    · obtain ⟨g, hg, hstart⟩ := ih hm
      exact ⟨g, mem_cons_of_mem _ hg, hstart⟩

theorem Shows.pass {w : Walk} {holes : List Sackhole} {gaps' : List Gap}
    (h : Shows base holes gaps) (hw : Shows base (w.passed ++ w.cur) gaps') :
    Shows base ((w.pass holes).passed ++ (w.pass holes).cur) (gaps ++ gaps') := by
  rw [Walk.pass, append_assoc]
  exact h.append hw

theorem shows_single (hs : cur.start = seqAt base g.start) (he : cur.end = seqAt base g.stop) :
    Shows base [cur] [g] :=
  Forall₂.cons ⟨hs, he⟩ Forall₂.nil

theorem walk_tests (hb : Gap.InSpan lo b) (hg : Gap.InSpan lo g)
    (hs : cur.start = seqAt base g.start) (he : cur.end = seqAt base g.stop) :
    seqLeq (sackblkOf base b).end cur.start = decide (b.stop ≤ g.start) ∧
      seqGeq (sackblkOf base b).start cur.end = decide (g.stop ≤ b.start) ∧
      seqLeq (sackblkOf base b).start cur.start = decide (b.start ≤ g.start) ∧
      seqGeq (sackblkOf base b).end cur.end = decide (g.stop ≤ b.stop) ∧
      seqLt cur.start (sackblkOf base b).start = decide (g.start < b.start) ∧
      seqGt cur.end (sackblkOf base b).end = decide (b.stop < g.stop) := by
  rw [hs, he, sackblkOf]
  exact ⟨(hb.stop.near hg.start).seqLeq, (hb.start.near hg.stop).seqGeq,
    (hb.start.near hg.start).seqLeq, (hb.stop.near hg.stop).seqGeq,
    (hg.start.near hb.start).seqLt, (hg.stop.near hb.stop).seqGt⟩

section

variable (hlt : b.start < b.stop) (hb : Gap.InSpan lo b) (h : Shows base holes gaps)
  (hgaps : Ordered gaps) (hspan : ∀ g ∈ gaps, Gap.InSpan lo g)

include hlt hb h hgaps hspan

theorem sackWalk_fill : ∃ w, sackWalk maxseg (sackblkOf base b) numholes pool holes = some w ∧
      (w.dropped = false → Shows base (w.passed ++ w.cur) (fillAll b.start b.stop gaps)) := by
  induction h generalizing numholes pool with
  | nil => exact ⟨_, rfl, fun _ => Shows.nil⟩
  | @cons cur g next gaps hhead htail ih =>
    obtain ⟨hs, he⟩ := hhead
    obtain ⟨t₁, t₂, t₃, t₄, t₅, t₆⟩ := walk_tests hb (hspan g mem_cons_self) hs he
    have hne := hgaps.head
    have ih := fun numholes pool => @ih pool numholes hgaps.tail fun g hg =>
      hspan g (mem_cons_of_mem _ hg)
    have hcons : fillAll b.start b.stop (g :: gaps) =
        g.fill b.start b.stop ++ fillAll b.start b.stop gaps := flatMap_cons
    rw [sackWalk]
    simp only [t₁, t₂, t₃, t₄, t₅, t₆, decide_eq_true_eq]
    by_cases hbefore : b.stop ≤ g.start
    · rw [if_pos hbefore]
      refine ⟨_, rfl, fun _ => ?_⟩
      rw [fillAll_of_outside hgaps hlt.le (.inl fun a ha => ?_)]
      · exact Forall₂.cons ⟨hs, he⟩ htail
      · rcases mem_cons.mp ha with rfl | ha
        · exact hbefore
        · have := hgaps.stop_le ha
          omega
    rw [if_neg hbefore]
    by_cases hbeyond : g.stop ≤ b.start
    · obtain ⟨w, hw, hfill⟩ := ih numholes pool
      rw [if_pos hbeyond, hw, hcons, Gap.fill_of_outside hne hlt.le (.inr hbeyond)]
      refine ⟨_, rfl, fun hd => Shows.pass ?_ (hfill hd)⟩
      exact shows_single hs he
    rw [if_neg hbeyond]
    by_cases hstart : b.start ≤ g.start
    · rw [if_pos hstart]
      by_cases hall : g.stop ≤ b.stop
      · rw [if_pos hall, hcons, Gap.fill_of_covered hstart hall, nil_append]
        exact ih (numholes - 1) pool
      · obtain ⟨w, hw, hfill⟩ := ih numholes pool
        rw [if_neg hall, hw, hcons, Gap.fill_start hstart (by omega) (by omega)]
        refine ⟨_, rfl, fun hd => Shows.pass ?_ (hfill hd)⟩
        exact shows_single rfl he
    rw [if_neg hstart]
    by_cases hend : g.stop ≤ b.stop
    · obtain ⟨w, hw, hfill⟩ := ih numholes pool
      rw [if_pos hend, hw, hcons, Gap.fill_stop (by omega) (by omega) hend]
      refine ⟨_, rfl, fun hd => Shows.pass ?_ (hfill hd)⟩
      exact shows_single hs rfl
    rw [if_neg hend, if_pos ⟨by omega, by omega⟩]
    split
    · exact ⟨_, rfl, fun hd => absurd hd nofun⟩
    · obtain ⟨w, hw, hfill⟩ := ih (numholes + 1) (pool - 1)
      rw [hw, hcons, Gap.fill_middle (by omega) hlt (by omega)]
      refine ⟨_, rfl, fun hd => Shows.pass ?_ (hfill hd)⟩
      exact Forall₂.cons ⟨hs, rfl⟩ (shows_single rfl he)

variable (hbeyond : ∀ g ∈ gaps, g.stop ≤ b.start)
  (hw : sackWalk maxseg (sackblkOf base b) numholes pool holes = some w)

include hbeyond hw

theorem sackWalk_beyond : w.cur = [] := by
  induction h generalizing w with
  | nil =>
    rw [sackWalk, some.injEq] at hw
    rw [← hw]
  | @cons cur g next gaps hhead htail ih =>
    obtain ⟨t₁, t₂, -⟩ := walk_tests hb (hspan g mem_cons_self) hhead.1 hhead.2
    have hne := hgaps.head
    have hg := hbeyond g mem_cons_self
    rw [sackWalk] at hw
    simp only [t₁, t₂, decide_eq_true_eq] at hw
    rw [if_neg (by omega), if_pos hg, map_eq_some_iff] at hw
    obtain ⟨w', hw', rfl⟩ := hw
    have hcur : w'.cur = [] := ih hgaps.tail (fun g hg => hspan g (mem_cons_of_mem _ hg))
      (fun g hg => hbeyond g (mem_cons_of_mem _ hg)) hw'
    exact hcur

theorem sackWalk_upto (hd : w.dropped = false) : Shows base w.upto gaps := by
  obtain ⟨w', hw', hfill⟩ : ∃ w', sackWalk maxseg (sackblkOf base b) numholes pool holes = some w' ∧
      (w'.dropped = false → Shows base (w'.passed ++ w'.cur) (fillAll b.start b.stop gaps)) :=
    sackWalk_fill hlt hb h hgaps hspan
  obtain rfl : w = w' := some.inj (hw.symm.trans hw')
  have hcur := sackWalk_beyond hlt hb h hgaps hspan hbeyond hw
  have hshows := hfill hd
  rw [fillAll_of_outside hgaps hlt.le (.inr hbeyond), hcur, append_nil] at hshows
  rw [Walk.upto, hcur]
  split
  next hnil => rwa [hnil] at hshows
  next => exact hshows

end

theorem delSackholes_fill {floor : Nat} (hfloor : InSpan lo floor) (h : Shows base holes gaps)
    (hgaps : Ordered gaps) (hspan : ∀ g ∈ gaps, Gap.InSpan lo g) :
    Shows base (delSackholes (seqAt base floor) holes).1 (fillAll 0 floor gaps) := by
  induction h with
  | nil => exact Shows.nil
  | @cons cur g next gaps hhead htail ih =>
    obtain ⟨hs, he⟩ := hhead
    have hg := hspan g mem_cons_self
    have hcons : fillAll 0 floor (g :: gaps) = g.fill 0 floor ++ fillAll 0 floor gaps :=
      flatMap_cons
    rw [delSackholes]
    simp only [hs, he, (hg.stop.near hfloor).seqLeq, (hg.start.near hfloor).seqLt,
      decide_eq_true_eq]
    by_cases hall : g.stop ≤ floor
    · rw [if_pos hall, hcons, Gap.fill_of_covered (Nat.zero_le _) hall]
      exact ih hgaps.tail fun g hg => hspan g (mem_cons_of_mem _ hg)
    rw [if_neg hall]
    by_cases hstart : g.start < floor
    · rw [if_pos hstart, hcons, Gap.fill_start (Nat.zero_le _) hstart (by omega),
        fillAll_of_outside hgaps.tail (Nat.zero_le _) (.inl fun a ha => ?_)]
      · exact Forall₂.cons ⟨rfl, rfl⟩ htail
      · have := hgaps.stop_le ha
        omega
    · rw [if_neg hstart, fillAll_of_outside hgaps (Nat.zero_le _) (.inl fun a ha => ?_)]
      · exact Forall₂.cons ⟨hs, he⟩ htail
      · rcases mem_cons.mp ha with rfl | ha
        · omega
        · have := hgaps.stop_le ha
          omega

end Mbsd.Netinet.TcpInput
