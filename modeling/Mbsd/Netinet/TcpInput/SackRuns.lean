import Mbsd.Netinet.TcpInput.Scoreboard

/-! The scoreboard over the run of a connection. -/

namespace Mbsd.Netinet.TcpInput

open Lib.Gaps Lib.SeqSpace TcpSeq List Option

structure SackOpt where
  cp : List (BitVec 8)
  pool : Nat
  blocks : List Gap

inductive Options (base : Seq) (C : BlockCond) (th : SackTcphdr) :
    SackTcpcb → Sacked → List SackOpt → SackTcpcb → Sacked → Prop
  | nil {tp : SackTcpcb} {g : Sacked} : Options base C th tp g [] tp g
  | ignored {tp tp' : SackTcpcb} {g g' : Sacked} {o : SackOpt} {os : List SackOpt}
      {r : SackResult} :
      sackIgnore tp th o.cp = true → tcpSackOption tp th o.cp o.pool = some r →
      Options base C th r.tp g os tp' g' → Options base C th tp g (o :: os) tp' g'
  | taken {tp tp' : SackTcpcb} {g g₁ g' : Sacked} {o : SackOpt} {os : List SackOpt}
      {r : SackResult} :
      sackIgnore tp th o.cp = false → tcpSackOption tp th o.cp o.pool = some r →
      r.dropped = false → sackblks (o.cp.drop 2) = o.blocks.map (sackblkOf base) →
      Blocks base C th (sackReady tp) o.pool g o.blocks g₁ →
      Options base C th r.tp g₁ os tp' g' → Options base C th tp g (o :: os) tp' g'

/-- The connection, the positions of `snd_una` and `snd_max`, and what has been sacked. -/
structure Sender where
  tp : SackTcpcb
  una : Nat
  max : Nat
  sacked : Sacked

def advanceUna (tp : SackTcpcb) (th : SackTcphdr) : SackTcpcb :=
  if seqLeq th.thAck tp.sndUna ∨ seqGt th.thAck tp.sndMax then tp
  else { tp with sndUna := th.thAck }

structure Arrives (base : Seq) (s : Sender) (th : SackTcphdr) (ack : Nat) (os : List SackOpt)
    (lo : Nat) : Prop where
  ackSeq : th.thAck = seqAt base ack
  ackFlag : th.thFlags &&& thAck ≠ 0
  unaIn : InSpan lo s.una
  maxIn : InSpan lo s.max
  ackIn : InSpan lo ack
  blocks : ∀ o ∈ os, ∀ b ∈ o.blocks, Gap.InSpan lo b

inductive SackRun (base : Seq) (C : BlockCond) : Sender → Prop
  | start {tp : SackTcpcb} {una max : Nat} :
      tp.sndHoles = [] → tp.tState ≠ tcpsListen → tp.sndUna = seqAt base una →
      tp.sndMax = seqAt base max → una ≤ max → max < una + 2 ^ 31 →
      SackRun base C { tp, una, max, sacked := { blocks := [], edge := 0 } }
  | sent {s : Sender} {max : Nat} :
      SackRun base C s → s.max ≤ max → max < s.una + 2 ^ 31 →
      SackRun base C { s with tp := { s.tp with sndMax := seqAt base max }, max }
  | segment {s : Sender} {th : SackTcphdr} {ack lo : Nat} {os : List SackOpt} {tp : SackTcpcb}
      {g : Sacked} :
      SackRun base C s → Arrives base s th ack os lo →
      Options base C th (tcpDelSackholes s.tp th) s.sacked os tp g →
      SackRun base C {
        tp := advanceUna tp th
        una := if s.una < ack ∧ ack ≤ s.max then ack else s.una
        max := s.max
        sacked := g }

structure SackInv (base : Seq) (s : Sender) : Prop where
  tState : s.tp.tState ≠ tcpsListen
  sndUna : s.tp.sndUna = seqAt base s.una
  sndMax : s.tp.sndMax = seqAt base s.max
  una_le : s.una ≤ s.max
  max_lt : s.max < s.una + 2 ^ 31
  enabled : s.tp.sackEnable = true ∨ s.tp.sndHoles = []
  scored : Scored base s.una s.max s.tp s.sacked

variable {base : Seq} {tp tp' : SackTcpcb} {th : SackTcphdr} {g g' : Sacked} {os : List SackOpt}
  {lo una ack top floor : Nat} {s : Sender}

theorem Options.eq_of_ignored {C : BlockCond} (h : Options base C th tp g os tp' g')
    (hi : ∀ cp, sackIgnore tp th cp = true) : tp' = tp ∧ g' = g := by
  induction h with
  | nil => exact ⟨rfl, rfl⟩
  | ignored hig hr _ ih =>
    rw [tcpSackOption, if_pos hig, some.injEq] at hr
    subst hr
    exact ih hi
  | taken hig => exact absurd (hig.symm.trans (hi _)) nofun

theorem Scored.ready (h : Scored base floor top tp g) : Scored base floor top (sackReady tp) g :=
  h.imp id fun ⟨gaps, last, hex⟩ =>
    ⟨gaps, last, { hex with shows := hex.shows, rcvLastsack := hex.rcvLastsack }⟩

theorem Options.scored (h : Options base (InStep base) th tp g os tp' g')
    (hscored : Scored base ack top tp g) (ha : Acking base lo una ack top tp th)
    (hbs : ∀ o ∈ os, ∀ b ∈ o.blocks, Gap.InSpan lo b)
    (hen : tp.sackEnable = true ∨ tp.sndHoles = []) :
    Scored base ack top tp' g' ∧ SackFrame tp tp' ∧
      (tp'.sackEnable = true ∨ tp'.sndHoles = []) := by
  induction h with
  | nil => exact ⟨hscored, SackFrame.refl _, hen⟩
  | ignored hig hr _ ih =>
    rw [tcpSackOption, if_pos hig, some.injEq] at hr
    subst hr
    exact ih hscored ha (fun o ho => hbs o (mem_cons_of_mem _ ho)) hen
  | @taken tp _ _ _ _ o _ r hig hr hd hblks hC _ ih =>
    have hon : tp.sackEnable = true := by
      by_contra hoff
      simp [sackIgnore, hoff] at hig
    rw [tcpSackOption, hig, if_neg Bool.false_ne_true] at hr
    split at hr
    · exact absurd hr nofun
    have hready : SackFrame tp (sackReady tp) := ⟨rfl, rfl, rfl, rfl⟩
    rw [hblks] at hr
    obtain ⟨hscored', hframe⟩ := hscored.ready.loop (ha.frame hready)
      (hbs o mem_cons_self) hC hr hd
    have hframe := hready.trans hframe
    obtain ⟨hlast, hrest, hen'⟩ := ih hscored' (ha.frame hframe)
      (fun o ho => hbs o (mem_cons_of_mem _ ho)) (.inl (hframe.sackEnable.trans hon))
    exact ⟨hlast, hframe.trans hrest, hen'⟩

section

variable (h : Arrives base s th ack os lo) (hs : SackInv base s)

include h hs

theorem Arrives.lastack : (if seqGt th.thAck s.tp.sndUna then th.thAck else s.tp.sndUna) =
      seqAt base (max s.una ack) := by
  rw [h.ackSeq, hs.sndUna, (h.ackIn.near h.unaIn).seqGt]
  by_cases hlt : s.una < ack
  · rw [decide_eq_true hlt, if_pos rfl, Nat.max_eq_right hlt.le]
  · rw [decide_eq_false hlt, if_neg Bool.false_ne_true, Nat.max_eq_left (Nat.le_of_not_lt hlt)]

theorem Arrives.ignored (hf : SackFrame s.tp tp) (hout : ack < s.una ∨ s.max < ack)
    (cp : List (BitVec 8)) : sackIgnore tp th cp = true := by
  rw [sackIgnore, hf.sndUna, hf.sndMax, hs.sndUna, hs.sndMax, h.ackSeq, (h.ackIn.near h.unaIn).seqLt,
    (h.ackIn.near h.maxIn).seqGt]
  rcases hout with hout | hout <;> simp [hout]

theorem Arrives.advanceUna (hf : SackFrame s.tp tp) :
    advanceUna tp th = if s.una < ack ∧ ack ≤ s.max then { tp with sndUna := th.thAck } else tp := by
  rw [TcpInput.advanceUna, hf.sndUna, hf.sndMax, hs.sndUna, hs.sndMax, h.ackSeq,
    (h.ackIn.near h.unaIn).seqLeq, (h.ackIn.near h.maxIn).seqGt]
  by_cases hin : s.una < ack ∧ ack ≤ s.max
  · rw [if_pos hin, if_neg]
    simp only [decide_eq_true_eq]
    omega
  · rw [if_neg hin, if_pos]
    simp only [decide_eq_true_eq]
    omega

end

theorem sndHoles_del (h : tp.sndHoles = []) : (tcpDelSackholes tp th).sndHoles = [] := by
  rw [tcpDelSackholes]
  split
  · rw [h]
    rfl
  · exact h

theorem Scored.sndUna {seq : Seq} (h : Scored base floor top tp g) :
    Scored base floor top { tp with sndUna := seq } g :=
  h.imp id fun ⟨gaps, last, hex⟩ =>
    ⟨gaps, last, { hex with shows := hex.shows, rcvLastsack := hex.rcvLastsack }⟩

theorem SackInv.segment (hs : SackInv base s) (h : Arrives base s th ack os lo)
    (ho : Options base (InStep base) th (tcpDelSackholes s.tp th) s.sacked os tp g) : SackInv base {
      tp := TcpInput.advanceUna tp th
      una := if s.una < ack ∧ ack ≤ s.max then ack else s.una
      max := s.max
      sacked := g } := by
  have hle := hs.una_le
  have hlt := hs.max_lt
  have hlastIn : InSpan lo (max s.una ack) := by
    rcases Nat.le_total s.una ack with hua | hua
    · rw [Nat.max_eq_right hua]
      exact h.ackIn
    · rw [Nat.max_eq_left hua]
      exact h.unaIn
  obtain ⟨hdel, hframe⟩ := hs.scored.delSackholes h.unaIn h.maxIn hlastIn (Nat.le_max_left _ _)
    (h.lastack hs) hs.tState hs.enabled
  have hen : (tcpDelSackholes s.tp th).sackEnable = true ∨ (tcpDelSackholes s.tp th).sndHoles = [] :=
    hs.enabled.imp hframe.sackEnable.trans sndHoles_del
  by_cases hin : s.una ≤ ack ∧ ack ≤ s.max
  · rw [Nat.max_eq_right hin.1] at hdel
    have hacking : Acking base lo s.una ack s.max (tcpDelSackholes s.tp th) th :=
      ⟨hframe.sndUna.trans hs.sndUna, hframe.sndMax.trans hs.sndMax, h.ackSeq, h.unaIn, h.ackIn,
        h.maxIn, hin.1, hin.2⟩
    obtain ⟨hscored, hframe', hen'⟩ := ho.scored hdel hacking h.blocks hen
    have hframe := hframe.trans hframe'
    rw [h.advanceUna hs hframe]
    split
    next =>
      exact ⟨hframe.tState ▸ hs.tState, h.ackSeq, hframe.sndMax.trans hs.sndMax, hin.2, by
        simp only; omega, hen', hscored.sndUna⟩
    next hno =>
      have heq : ack = s.una := by omega
      exact ⟨hframe.tState ▸ hs.tState, hframe.sndUna.trans hs.sndUna,
        hframe.sndMax.trans hs.sndMax, hle, hlt, hen', heq ▸ hscored⟩
  · have hout : ack < s.una ∨ s.max < ack := by omega
    obtain ⟨rfl, rfl⟩ := ho.eq_of_ignored (h.ignored hs hframe hout)
    rw [h.advanceUna hs hframe, if_neg (by omega), if_neg (by omega)]
    refine ⟨hframe.tState ▸ hs.tState, hframe.sndUna.trans hs.sndUna,
      hframe.sndMax.trans hs.sndMax, hle, hlt, hen, ?_⟩
    rcases hout with hold | hnew
    · rwa [Nat.max_eq_left hold.le] at hdel
    · rw [Nat.max_eq_right (hle.trans hnew.le)] at hdel
      refine .inl (hdel.elim id fun ⟨gaps, last, hex⟩ => hex.eq_nil ?_)
      have := hex.last_le
      have := hex.edge_le
      omega

theorem SackRun.inv (h : SackRun base (InStep base) s) : SackInv base s := by
  induction h with
  | start hnil hstate huna hmax hle hlt =>
    exact ⟨hstate, huna, hmax, hle, hlt, .inr hnil, .inl hnil⟩
  | sent _ hle hlt ih =>
    have := ih.una_le
    refine ⟨ih.tState, ih.sndUna, rfl, this.trans hle, hlt, ih.enabled, ?_⟩
    exact ih.scored.imp id fun ⟨gaps, last, hex⟩ => ⟨gaps, last, { hex with
      shows := hex.shows, rcvLastsack := hex.rcvLastsack, edge_le := hex.edge_le.trans hle }⟩
  | segment _ harr ho ih => exact ih.segment harr ho

/-- The holes are exactly what no block has covered, from `snd_una` to the highest edge, and none is
empty. -/
def ScoreboardExact (base : Seq) (s : Sender) : Prop :=
  ∃ gaps, Shows base s.tp.sndHoles gaps ∧ Ordered gaps ∧
    ∀ k, Missing gaps k ↔ s.una ≤ k ∧ k < s.sacked.edge ∧ ¬s.sacked.Covers k

/-- As long as each block is in step, the scoreboard is exact. -/
theorem sack_scoreboard_exact (base : Seq) (s : Sender) (h : SackRun base (InStep base) s)
    (hne : s.tp.sndHoles ≠ []) : ScoreboardExact base s := by
  obtain ⟨gaps, last, hex⟩ := h.inv.scored.resolve_left hne
  refine ⟨gaps, hex.shows, hex.ordered, fun k => ?_⟩
  rw [hex.missing]
  constructor
  · rintro ⟨hf, hl, hcov⟩
    exact ⟨hf, hl.trans_le hex.last_le, hcov⟩
  · rintro ⟨hf, hl, hcov⟩
    refine ⟨hf, ?_, hcov⟩
    by_contra hge
    exact hcov (hex.covered k (Nat.le_of_not_lt hge) hl)

theorem ScoreboardExact.start {cur : Sackhole} (h : ScoreboardExact base s)
    (hm : cur ∈ s.tp.sndHoles) :
    ∃ k, cur.start = seqAt base k ∧ k < s.sacked.edge ∧ ¬s.sacked.Covers k := by
  obtain ⟨gaps, hshows, hord, hex⟩ := h
  obtain ⟨a, ha, hstart⟩ := hshows.gap_of_mem hm
  obtain ⟨-, hk, hcov⟩ := (hex a.start).mp ⟨a, ha, le_rfl, hord.nonempty a ha⟩
  exact ⟨a.start, hstart, hk, hcov⟩

/-- An established connection that waits for the acknowledgement of the first 100 bytes. -/
def sackIdle : SackTcpcb where
  tState := 4
  tMaxseg := 10
  sndUna := 0
  sndMax := 100
  sackEnable := true
  sndNumholes := 0
  sndHoles := []
  rcvLastsack := 0

def sackOptOf (l : List (BitVec 8 × BitVec 8)) : SackOpt where
  cp := [5, BitVec.ofNat 8 (2 + 8 * l.length)] ++ l.flatMap fun b => [0, 0, 0, b.1, 0, 0, 0, b.2]
  pool := 10
  blocks := l.map fun b => ⟨b.1.toNat, b.2.toNat⟩

def sackSender : Sender := { tp := sackIdle, una := 0, max := 100, sacked := ⟨[], 0⟩ }

def ackNothing : SackTcphdr := { thAck := 0, thFlags := thAck }

theorem sackSender_run (C : BlockCond) : SackRun 0 C sackSender :=
  .start rfl (by decide) rfl rfl (by decide) (by decide)

/-- Two holes, as the blocks come in order. -/
theorem sack_scoreboard_exact_two :
    ∃ s, SackRun 0 (InStep 0) s ∧ s.tp.sndHoles.length = 2 ∧ ScoreboardExact 0 s := by
  have harr : Arrives 0 sackSender ackNothing 0 [sackOptOf [(10, 20), (30, 40)]] 0 :=
    ⟨rfl, by decide, by decide, by decide, by decide, by decide⟩
  have hrun : SackRun 0 (InStep 0) _ := .segment (sackSender_run _) harr
    (.taken (by decide) rfl rfl (by decide)
      (.cons (by decide) rfl (.cons (by decide) rfl .nil)) .nil)
  exact ⟨_, hrun, by decide, sack_scoreboard_exact 0 _ hrun (by decide)⟩

/-- The second block starts at `rcv_lastsack`, which then stays behind: the hole before the third
block takes in what the second has sacked. -/
theorem sack_scoreboard_stale :
    ∃ s, SackRun 0 (fun _ _ _ _ => True) s ∧ s.tp.sndHoles ≠ [] ∧ ¬ScoreboardExact 0 s := by
  have harr : Arrives 0 sackSender ackNothing 0 [sackOptOf [(10, 20), (20, 30), (40, 50)]] 0 :=
    ⟨rfl, by decide, by decide, by decide, by decide, by decide⟩
  have hrun : SackRun 0 (fun _ _ _ _ => True) _ := .segment (sackSender_run _) harr
    (.taken (by decide) rfl rfl (by decide)
      (.cons trivial rfl (.cons trivial rfl (.cons trivial rfl .nil))) .nil)
  refine ⟨_, hrun, by decide, fun hexact => ?_⟩
  obtain ⟨k, hstart, hk, hcov⟩ := hexact.start
    (show ({ start := 20, «end» := 40, dups := 1, rxmit := 20 } : Sackhole) ∈ _ by decide)
  have hk : k < 50 := hk
  have hseq : seqAt (0 : Seq) k = seqAt 0 20 := hstart.symm
  have hk20 : k = 20 := (Near.seq_inj ⟨by omega, by omega⟩).mp hseq
  exact hcov ⟨⟨20, 30⟩, by decide, by rw [hk20]; exact ⟨by decide, by decide⟩⟩

end Mbsd.Netinet.TcpInput
