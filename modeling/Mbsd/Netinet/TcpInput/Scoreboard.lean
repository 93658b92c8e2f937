import Mbsd.Netinet.TcpInput.Holes

/-! The holes against what the SACK blocks have said. -/

namespace Mbsd.Netinet.TcpInput

open Lib.Gaps Lib.SeqSpace TcpSeq List Option

/-- The blocks accepted since the list of holes was last empty, and the highest edge of them. -/
structure Sacked where
  blocks : List Gap
  edge : Nat

def Sacked.Covers (g : Sacked) (k : Nat) : Prop := ∃ b ∈ g.blocks, b.Has k

def Sacked.block (base : Seq) (tp : SackTcpcb) (th : SackTcphdr) (g : Sacked) (b : Gap) : Sacked :=
  if !sackAccept tp th (sackblkOf base b) then g
  else if tp.sndHoles = [] then { blocks := [b], edge := b.stop }
  else { blocks := b :: g.blocks, edge := max g.edge b.stop }

abbrev BlockCond := SackTcpcb → SackTcphdr → Sacked → Gap → Prop

/-- The first block of a list does not start at the acknowledgement, and a block that starts after
`rcv_lastsack` comes in when this is the highest edge. -/
def InStep (base : Seq) : BlockCond := fun tp th g b =>
  sackAccept tp th (sackblkOf base b) →
    (tp.sndHoles = [] → seqAt base b.start ≠ th.thAck) ∧
    (tp.sndHoles ≠ [] → seqLt tp.rcvLastsack (seqAt base b.start) →
      tp.rcvLastsack = seqAt base g.edge)

instance (base : Seq) (tp : SackTcpcb) (th : SackTcphdr) (g : Sacked) (b : Gap) :
    Decidable (InStep base tp th g b) :=
  inferInstanceAs (Decidable (_ → _ ∧ _))

/-- What is remembered after the blocks of an option, if each of them meets the condition. -/
inductive Blocks (base : Seq) (C : BlockCond) (th : SackTcphdr) :
    SackTcpcb → Nat → Sacked → List Gap → Sacked → Prop
  | nil {tp : SackTcpcb} {pool : Nat} {g : Sacked} : Blocks base C th tp pool g [] g
  | cons {tp : SackTcpcb} {pool : Nat} {g g' : Sacked} {b : Gap} {bs : List Gap} {r : SackResult} :
      C tp th g b → sackBlock tp th (sackblkOf base b) pool = some r →
      Blocks base C th r.tp r.pool (g.block base tp th b) bs g' →
      Blocks base C th tp pool g (b :: bs) g'

/-- The holes show what no block has covered, from `floor` to `last`, and from there to the edge all
is covered. -/
structure Exact (base : Seq) (floor top : Nat) (tp : SackTcpcb) (g : Sacked) (gaps : List Gap)
    (last : Nat) : Prop where
  shows : Shows base tp.sndHoles gaps
  ordered : Ordered gaps
  floor_le : ∀ a ∈ gaps, floor ≤ a.start
  le_last : ∀ a ∈ gaps, a.stop ≤ last
  rcvLastsack : tp.rcvLastsack = seqAt base last
  last_le : last ≤ g.edge
  edge_le : g.edge ≤ top
  lt_edge : ∀ k, g.Covers k → k < g.edge
  covered : ∀ k, last ≤ k → k < g.edge → g.Covers k
  missing : ∀ k, Missing gaps k ↔ floor ≤ k ∧ k < last ∧ ¬g.Covers k

def Scored (base : Seq) (floor top : Nat) (tp : SackTcpcb) (g : Sacked) : Prop :=
  tp.sndHoles = [] ∨ ∃ gaps last, Exact base floor top tp g gaps last

variable {base : Seq} {lo floor floor' top last pool k : Nat} {tp tp' : SackTcpcb} {th : SackTcphdr}
  {g : Sacked} {gaps : List Gap} {b : Gap} {r : SackResult}

theorem Shows.eq_nil_iff {holes : List Sackhole} (h : Shows base holes gaps) :
    holes = [] ↔ gaps = [] := by
  cases h <;> simp

theorem covers_cons : Sacked.Covers ⟨b :: g.blocks, last⟩ k ↔ b.Has k ∨ g.Covers k := by
  simp only [Sacked.Covers, mem_cons, or_and_right, exists_or, exists_eq_left]

section

variable (h : Exact base floor top tp g gaps last)

include h

theorem Exact.inSpan (hf : InSpan lo floor) (ht : InSpan lo top) : ∀ a ∈ gaps, Gap.InSpan lo a := by
  intro a ha
  have hfa := h.floor_le a ha
  have hne := h.ordered.nonempty a ha
  have hlast := h.le_last a ha
  have hedge := h.last_le
  have htop := h.edge_le
  obtain ⟨hf, hf'⟩ := hf
  obtain ⟨ht, ht'⟩ := ht
  exact ⟨⟨by omega, by omega⟩, ⟨by omega, by omega⟩⟩

theorem Exact.fill (hlt : b.start < b.stop) (hlast : b.start ≤ last) (htop : b.stop ≤ top)
    (hshows : Shows base tp'.sndHoles (fillAll b.start b.stop gaps))
    (hrcv : tp'.rcvLastsack = tp.rcvLastsack) :
    Exact base floor top tp' ⟨b :: g.blocks, max g.edge b.stop⟩ (fillAll b.start b.stop gaps)
      last where
  shows := hshows
  ordered := h.ordered.fillAll hlt.le
  floor_le a ha := by
    obtain ⟨a', ha', -, hle, -⟩ := mem_fillAll ha
    exact (h.floor_le a' ha').trans hle
  le_last a ha := by
    obtain ⟨a', ha', -, -, hle⟩ := mem_fillAll ha
    exact hle.trans (h.le_last a' ha')
  rcvLastsack := hrcv.trans h.rcvLastsack
  last_le := h.last_le.trans (Nat.le_max_left _ _)
  edge_le := Nat.max_le.mpr ⟨h.edge_le, htop⟩
  lt_edge k hk := by
    rcases covers_cons.mp hk with hk | hk
    · exact hk.2.trans_le (Nat.le_max_right _ _)
    · exact (h.lt_edge k hk).trans_le (Nat.le_max_left _ _)
  covered k hle hk := by
    rw [covers_cons]
    by_cases hold : k < g.edge
    · exact Or.inr (h.covered k hle hold)
    · simp only [lt_max_iff, hold, false_or] at hk
      exact Or.inl ⟨hlast.trans hle, hk⟩
  missing k := by
    rw [missing_fillAll, h.missing, covers_cons, not_or, and_assoc, and_assoc,
      and_comm (a := ¬g.Covers k)]
    rfl

theorem Exact.append (hedge : last = g.edge)
    (hfloor : floor ≤ last) (hlast : last < b.start) (hlt : b.start < b.stop) (htop : b.stop ≤ top)
    (hshows : Shows base tp'.sndHoles (gaps ++ [⟨last, b.start⟩]))
    (hrcv : tp'.rcvLastsack = seqAt base b.stop) :
    Exact base floor top tp' ⟨b :: g.blocks, max g.edge b.stop⟩ (gaps ++ [⟨last, b.start⟩])
      b.stop where
  shows := hshows
  ordered := h.ordered.append (Ordered.singleton hlast) fun a ha c hc => by
    rw [List.mem_singleton.mp hc]
    exact h.le_last a ha
  floor_le a ha := by
    rcases List.mem_append.mp ha with ha | ha
    · exact h.floor_le a ha
    · rw [List.mem_singleton.mp ha]
      exact hfloor
  le_last a ha := by
    rcases List.mem_append.mp ha with ha | ha
    · have := h.le_last a ha
      omega
    · rw [List.mem_singleton.mp ha]
      exact hlt.le
  rcvLastsack := hrcv
  last_le := Nat.le_max_right _ _
  edge_le := Nat.max_le.mpr ⟨h.edge_le, htop⟩
  lt_edge k hk := by
    rcases covers_cons.mp hk with hk | hk
    · exact hk.2.trans_le (Nat.le_max_right _ _)
    · exact (h.lt_edge k hk).trans_le (Nat.le_max_left _ _)
  covered k hle hk := by
    simp only [lt_max_iff] at hk
    omega
  missing k := by
    have hk := h.lt_edge k
    rw [missing_append, missing_singleton, h.missing, covers_cons, Gap.Has, Gap.Has, not_or]
    by_cases hcov : g.Covers k
    · have := hk hcov
      simp only [hcov, not_true, and_false, false_or, iff_false, not_and]
      omega
    · simp only [hcov, not_false_eq_true, and_true]
      omega

end

theorem exact_first (hfloor : floor < b.start) (hlt : b.start < b.stop) (htop : b.stop ≤ top)
    (hshows : Shows base tp'.sndHoles [⟨floor, b.start⟩])
    (hrcv : tp'.rcvLastsack = seqAt base b.stop) :
    Exact base floor top tp' ⟨[b], b.stop⟩ [⟨floor, b.start⟩] b.stop where
  shows := hshows
  ordered := Ordered.singleton hfloor
  floor_le a ha := by rw [mem_singleton.mp ha]
  le_last a ha := by
    rw [mem_singleton.mp ha]
    exact hlt.le
  rcvLastsack := hrcv
  last_le := le_rfl
  edge_le := htop
  lt_edge k hk := by
    obtain ⟨c, hc, hk⟩ := hk
    rw [mem_singleton.mp hc] at hk
    exact hk.2
  covered k hle hk := absurd hk (Nat.not_lt_of_le hle)
  missing k := by
    simp only [missing_singleton, Sacked.Covers, mem_singleton, exists_eq_left, Gap.Has]
    omega

theorem Exact.raise (h : Exact base floor top tp g gaps last) (hle : floor ≤ floor')
    (hshows : Shows base tp'.sndHoles (fillAll 0 floor' gaps))
    (hrcv : tp'.rcvLastsack = tp.rcvLastsack) :
    Exact base floor' top tp' g (fillAll 0 floor' gaps) last where
  shows := hshows
  ordered := h.ordered.fillAll (Nat.zero_le _)
  floor_le a ha := by
    have hne := ((h.ordered.fillAll (Nat.zero_le floor')).nonempty a ha)
    have hk := (missing_fillAll.mp ⟨a, ha, le_rfl, hne⟩).2
    omega
  le_last a ha := by
    obtain ⟨a', ha', -, -, hle⟩ := mem_fillAll ha
    exact hle.trans (h.le_last a' ha')
  rcvLastsack := hrcv.trans h.rcvLastsack
  last_le := h.last_le
  edge_le := h.edge_le
  lt_edge := h.lt_edge
  covered := h.covered
  missing k := by
    rw [missing_fillAll, h.missing]
    by_cases hcov : g.Covers k
    · simp [hcov]
    · simp only [hcov, not_false_eq_true, and_true]
      omega

theorem Exact.eq_nil (h : Exact base floor top tp g gaps last) (hlast : last ≤ floor) :
    tp.sndHoles = [] := by
  rw [h.shows.eq_nil_iff, eq_nil_iff_forall_not_mem]
  intro a ha
  have := h.floor_le a ha
  have := h.le_last a ha
  have := h.ordered.nonempty a ha
  omega

structure SackFrame (tp tp' : SackTcpcb) : Prop where
  tState : tp'.tState = tp.tState
  sackEnable : tp'.sackEnable = tp.sackEnable
  sndUna : tp'.sndUna = tp.sndUna
  sndMax : tp'.sndMax = tp.sndMax

theorem SackFrame.refl (tp : SackTcpcb) : SackFrame tp tp := ⟨rfl, rfl, rfl, rfl⟩

theorem SackFrame.trans {tp₁ tp₂ tp₃ : SackTcpcb} (h : SackFrame tp₁ tp₂)
    (h' : SackFrame tp₂ tp₃) : SackFrame tp₁ tp₃ where
  tState := h'.tState.trans h.tState
  sackEnable := h'.sackEnable.trans h.sackEnable
  sndUna := h'.sndUna.trans h.sndUna
  sndMax := h'.sndMax.trans h.sndMax

structure Acking (base : Seq) (lo una ack top : Nat) (tp : SackTcpcb) (th : SackTcphdr) : Prop where
  sndUna : tp.sndUna = seqAt base una
  sndMax : tp.sndMax = seqAt base top
  thAck : th.thAck = seqAt base ack
  unaIn : InSpan lo una
  ackIn : InSpan lo ack
  topIn : InSpan lo top
  una_le : una ≤ ack
  ack_le : ack ≤ top

variable {ack una : Nat}

theorem Acking.frame (h : Acking base lo una ack top tp th) (hf : SackFrame tp tp') :
    Acking base lo una ack top tp' th :=
  { h with sndUna := hf.sndUna.trans h.sndUna, sndMax := hf.sndMax.trans h.sndMax }

theorem Acking.accept (h : Acking base lo una ack top tp th) (hb : Gap.InSpan lo b)
    (hacc : sackAccept tp th (sackblkOf base b) = true) :
    b.start < b.stop ∧ ack ≤ b.start ∧ b.stop ≤ top := by
  rw [sackAccept, sackblkOf, h.sndUna, h.sndMax, h.thAck, (hb.stop.near hb.start).seqLeq,
    (hb.stop.near h.unaIn).seqLeq, (h.ackIn.near h.unaIn).seqGt, (hb.start.near h.ackIn).seqLt,
    (hb.stop.near h.topIn).seqGt, (hb.start.near h.unaIn).seqLt] at hacc
  simp only [Bool.not_eq_true', Bool.or_eq_false_iff, Bool.and_eq_false_iff,
    decide_eq_false_iff_not] at hacc
  omega

theorem Exact.floor_lt (h : Exact base floor top tp g gaps last) (hne : tp.sndHoles ≠ []) :
    floor < last := by
  have hgaps : gaps ≠ [] := fun hnil => hne (h.shows.eq_nil_iff.mpr hnil)
  obtain ⟨a, ha⟩ := exists_mem_of_ne_nil gaps hgaps
  have := h.floor_le a ha
  have := h.le_last a ha
  have := h.ordered.nonempty a ha
  omega

theorem Exact.block (h : Exact base ack top tp g gaps last) (hne : tp.sndHoles ≠ [])
    (ha : Acking base lo una ack top tp th) (hb : Gap.InSpan lo b)
    (hacc : sackAccept tp th (sackblkOf base b) = true) (hC : InStep base tp th g b)
    (hr : sackBlock tp th (sackblkOf base b) pool = some r) (hd : r.dropped = false) :
    ∃ gaps last, Exact base ack top r.tp ⟨b :: g.blocks, max g.edge b.stop⟩ gaps last := by
  obtain ⟨hlt, hfloor, htop⟩ := ha.accept hb hacc
  have hspan := h.inSpan ha.ackIn ha.topIn
  have hack := h.floor_lt hne
  have hlastIn : InSpan lo last := by
    have hle := h.last_le
    have hedge := h.edge_le
    obtain ⟨hlo, -⟩ := ha.ackIn
    obtain ⟨-, hhi⟩ := ha.topIn
    exact ⟨by omega, by omega⟩
  have hafter : seqLt tp.rcvLastsack (sackblkOf base b).start = decide (last < b.start) := by
    rw [h.rcvLastsack]
    exact (hlastIn.near hb.start).seqLt
  obtain ⟨w, hw, hfill⟩ : ∃ w,
      sackWalk tp.tMaxseg (sackblkOf base b) tp.sndNumholes pool tp.sndHoles = some w ∧
        (w.dropped = false → Shows base (w.passed ++ w.cur) (fillAll b.start b.stop gaps)) :=
    sackWalk_fill hlt hb h.shows h.ordered hspan
  rw [sackBlock, hacc] at hr
  simp only [Bool.not_true, Bool.false_eq_true, if_false, if_neg hne, hw, bind_eq_bind,
    bind_some, hafter, decide_eq_true_eq] at hr
  have hupto : last < b.start → w.dropped = false → Shows base w.upto gaps := fun hlt' hwd =>
    sackWalk_upto hlt hb h.shows h.ordered hspan (fun a ha => (h.le_last a ha).trans hlt'.le) hw hwd
  split at hr
  · rw [← some.inj hr] at hd
    exact absurd hd nofun
  next hdrop =>
    have hwd := Bool.eq_false_iff.mpr hdrop
    split at hr
    next happ =>
      split at hr
      · rw [← some.inj hr] at hd
        exact absurd hd nofun
      next =>
        have hedge : last = g.edge := by
          have hseq := (hC hacc).2 hne (hafter.trans (decide_eq_true happ.2))
          rw [h.rcvLastsack] at hseq
          have hle := h.last_le
          have hedge := h.edge_le
          have hlo := hlastIn.1
          have hhi := ha.topIn.2
          exact (InSpan.near hlastIn ⟨by omega, by omega⟩).seq_inj.mp hseq
        rw [← some.inj hr]
        refine ⟨_, _, h.append hedge hack.le happ.2 hlt htop ?_ rfl⟩
        exact (hupto happ.2 hwd).append (shows_single h.rcvLastsack rfl)
    next hno =>
      rw [← some.inj hr]
      have hle : b.start ≤ last := by
        by_contra hgt
        refine hno ⟨fun hnil => hne ?_, by omega⟩
        have hshows := hupto (by omega) hwd
        rw [hnil] at hshows
        rw [h.shows.eq_nil_iff, ← hshows.eq_nil_iff]
      exact ⟨_, _, h.fill hlt hle htop (hfill hwd) rfl⟩

theorem sackBlock_frame {sack : Sackblk} (hr : sackBlock tp th sack pool = some r) :
    SackFrame tp r.tp := by
  rw [sackBlock] at hr
  split at hr
  · rw [← some.inj hr]
    exact SackFrame.refl tp
  split at hr
  · split at hr
    · rw [← some.inj hr]
      exact SackFrame.refl tp
    · rw [← some.inj hr]
      exact ⟨rfl, rfl, rfl, rfl⟩
  · obtain ⟨w, -, hr⟩ := bind_eq_some_iff.mp hr
    dsimp only at hr
    split at hr
    · rw [← some.inj hr]
      exact ⟨rfl, rfl, rfl, rfl⟩
    split at hr
    · split at hr
      · rw [← some.inj hr]
        exact ⟨rfl, rfl, rfl, rfl⟩
      · rw [← some.inj hr]
        exact ⟨rfl, rfl, rfl, rfl⟩
    · rw [← some.inj hr]
      exact ⟨rfl, rfl, rfl, rfl⟩

theorem Scored.block (h : Scored base ack top tp g) (ha : Acking base lo una ack top tp th)
    (hb : Gap.InSpan lo b) (hC : InStep base tp th g b)
    (hr : sackBlock tp th (sackblkOf base b) pool = some r) (hd : r.dropped = false) :
    Scored base ack top r.tp (g.block base tp th b) := by
  rw [Sacked.block]
  cases hacc : sackAccept tp th (sackblkOf base b) with
  | false =>
    rw [sackBlock, hacc, Bool.not_false, if_pos rfl] at hr
    rw [Bool.not_false, if_pos rfl, ← some.inj hr]
    exact h
  | true =>
    rw [if_neg (by simp)]
    by_cases hnil : tp.sndHoles = []
    · obtain ⟨hlt, hfloor, htop⟩ := ha.accept hb hacc
      have hne : b.start ≠ ack := fun heq => (hC hacc).1 hnil (by rw [heq, ha.thAck])
      rw [sackBlock, hacc, if_neg (by simp), if_pos hnil] at hr
      split at hr
      · rw [← some.inj hr] at hd
        exact absurd hd nofun
      · rw [if_pos hnil, ← some.inj hr]
        exact .inr ⟨_, _, exact_first (by omega) hlt htop (shows_single ha.thAck rfl) rfl⟩
    · obtain ⟨gaps, last, hex⟩ := h.resolve_left hnil
      rw [if_neg hnil]
      exact .inr (hex.block hnil ha hb hacc hC hr hd)

theorem Scored.loop {bs : List Gap} {g' : Sacked} (h : Scored base ack top tp g)
    (ha : Acking base lo una ack top tp th) (hbs : ∀ b ∈ bs, Gap.InSpan lo b)
    (hC : Blocks base (InStep base) th tp pool g bs g')
    (hr : sackLoop tp th pool (bs.map (sackblkOf base)) = some r) (hd : r.dropped = false) :
    Scored base ack top r.tp g' ∧ SackFrame tp r.tp := by
  induction hC with
  | nil =>
    rw [← some.inj hr]
    exact ⟨h, SackFrame.refl _⟩
  | cons hstep hblock hrest ih =>
    rw [map_cons, sackLoop, hblock, bind_eq_bind, bind_some] at hr
    split at hr
    next hdrop =>
      rw [← some.inj hr, hdrop] at hd
      exact absurd hd nofun
    next hdrop =>
      have hframe := sackBlock_frame hblock
      have hscored := h.block ha (hbs _ mem_cons_self) hstep hblock
        (Bool.eq_false_iff.mpr hdrop)
      obtain ⟨hscored', hframe'⟩ := ih hscored (ha.frame hframe)
        (fun b hb => hbs b (mem_cons_of_mem _ hb)) hr
      exact ⟨hscored', hframe.trans hframe'⟩

theorem Scored.delSackholes (h : Scored base floor top tp g) (hf : InSpan lo floor)
    (ht : InSpan lo top) (hf' : InSpan lo floor') (hle : floor ≤ floor')
    (hlastack : (if seqGt th.thAck tp.sndUna then th.thAck else tp.sndUna) = seqAt base floor')
    (hstate : tp.tState ≠ tcpsListen) (hen : tp.sackEnable = true ∨ tp.sndHoles = []) :
    Scored base floor' top (tcpDelSackholes tp th) g ∧ SackFrame tp (tcpDelSackholes tp th) := by
  rw [tcpDelSackholes]
  split
  next =>
    simp only [hlastack]
    refine ⟨?_, ⟨rfl, rfl, rfl, rfl⟩⟩
    rcases h with hnil | ⟨gaps, last, hex⟩
    · rw [hnil]
      exact .inl rfl
    · have hfill := delSackholes_fill hf' hex.shows hex.ordered (hex.inSpan hf ht)
      exact .inr ⟨_, last, hex.raise hle hfill rfl⟩
  next hoff =>
    have hnil : tp.sndHoles = [] := hen.resolve_left fun hen => hoff ⟨hen, hstate⟩
    exact ⟨.inl hnil, SackFrame.refl tp⟩

end Mbsd.Netinet.TcpInput
