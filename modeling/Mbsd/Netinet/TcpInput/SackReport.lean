import Mbsd.Netinet.TcpInput.Holes

/-! The receiver's side of selective acknowledgements: `tcp_update_sack_list`. -/

namespace Mbsd.Netinet.TcpInput

open Lib.Gaps Lib.SeqSpace TcpSeq List Bool

def maxSackBlks : Nat := 6

/-- The part of `struct tcpcb` that keeps the report: `sackblks` up to `rcv_numsacks`. -/
structure RcvTcpcb where
  rcvNxt : Seq
  sackblks : List Sackblk

def Sackblk.zero : Sackblk := { start := 0, «end» := 0 }

def Sackblk.isZero (sack : Sackblk) : Bool := sack.start = 0 ∧ sack.end = 0

def cleanSackblks (rcvNxt : Seq) (l : List Sackblk) : List Sackblk :=
  l.filter fun sack => !sack.isZero && !seqLeq sack.end rcvNxt

def coalesce (firstsack : Sackblk) : List Sackblk → Sackblk × List Sackblk × Bool
  | [] => (firstsack, [], false)
  | sack :: l =>
    if seqLt sack.end firstsack.start || seqGt sack.start firstsack.end then
      let (first, rest, merged) := coalesce firstsack l
      (first, sack :: rest, merged)
    else if sack.start = firstsack.start ∧ sack.end = firstsack.end then
      let (first, rest, _) := coalesce firstsack l
      (first, .zero :: rest, true)
    else
      let start := if seqLeq sack.start firstsack.start then sack.start else firstsack.start
      let «end» := if seqGeq sack.end firstsack.end then sack.end else firstsack.end
      let (first, rest, _) := coalesce { start, «end» } l
      (first, .zero :: rest, true)

def tcpUpdateSackList (tp : RcvTcpcb) (rcvLaststart rcvLastend : Seq) : RcvTcpcb :=
  let l := cleanSackblks tp.rcvNxt tp.sackblks
  if l = [] then
    { tp with
      sackblks := if seqLt tp.rcvNxt rcvLaststart then [⟨rcvLaststart, rcvLastend⟩] else [] }
  else if seqGeq tp.rcvNxt rcvLastend then { tp with sackblks := l }
  else
    let (firstsack, l, merged) := coalesce ⟨rcvLaststart, rcvLastend⟩ l
    if merged then
      { tp with
        sackblks := firstsack :: l.filter fun sack => !sack.isZero }
    -- all blocks are shifted, the last one out of a full array
    else { tp with sackblks := firstsack :: l.take (maxSackBlks - 1) }

theorem tcpUpdateSackList_rcvNxt (tp : RcvTcpcb) (rcvLaststart rcvLastend : Seq) :
    (tcpUpdateSackList tp rcvLaststart rcvLastend).rcvNxt = tp.rcvNxt := by
  rw [tcpUpdateSackList]
  split
  · rfl
  · split
    · rfl
    · dsimp only
      split <;> rfl

def lacksRoom (tp : RcvTcpcb) (rcvLaststart rcvLastend : Seq) : Bool :=
  (cleanSackblks tp.rcvNxt tp.sackblks).length = maxSackBlks &&
    !seqGeq tp.rcvNxt rcvLastend &&
    !(coalesce ⟨rcvLaststart, rcvLastend⟩ (cleanSackblks tp.rcvNxt tp.sackblks)).2.2

variable {base : Seq} {lo k : Nat} {f g : Gap} {l : List Gap}

theorem Gap.InSpan.hull (hf : Gap.InSpan lo f) (hg : Gap.InSpan lo g) :
    Gap.InSpan lo (f.hull g) where
  start := ⟨Nat.le_min.mpr ⟨hf.start.1, hg.start.1⟩, (Nat.min_le_left _ _).trans_lt hf.start.2⟩
  stop := ⟨hf.stop.1.trans (Nat.le_max_left _ _), Nat.max_lt.mpr ⟨hf.stop.2, hg.stop.2⟩⟩

theorem Sackblk.isZero_iff {sack : Sackblk} : sack.isZero = true ↔ sack = .zero := by
  cases sack
  simp [isZero, zero]

theorem block_tests (base : Seq) (hf : Gap.InSpan lo f) (hg : Gap.InSpan lo g) :
    (seqLt (sackblkOf base g).end (sackblkOf base f).start ||
        seqGt (sackblkOf base g).start (sackblkOf base f).end) = decide (f.Apart g) ∧
      ((sackblkOf base g).start = (sackblkOf base f).start ∧
        (sackblkOf base g).end = (sackblkOf base f).end ↔ g = f) ∧
      (if seqLeq (sackblkOf base g).start (sackblkOf base f).start then (sackblkOf base g).start
        else (sackblkOf base f).start) = seqAt base (min f.start g.start) ∧
      (if seqGeq (sackblkOf base g).end (sackblkOf base f).end then (sackblkOf base g).end
        else (sackblkOf base f).end) = seqAt base (max f.stop g.stop) := by
  simp only [sackblkOf, (hg.stop.near hf.start).seqLt, (hg.start.near hf.stop).seqGt,
    (hg.start.near hf.start).seq_inj, (hg.stop.near hf.stop).seq_inj,
    (hg.start.near hf.start).seqLeq, (hg.stop.near hf.stop).seqGeq, decide_eq_true_eq]
  refine ⟨?_, ?_, ?_, ?_⟩
  · rw [← decide_or]
    exact decide_eq_decide.mpr or_comm
  · cases f
    cases g
    simp
  · split
    next h => rw [Nat.min_eq_right h]
    next h => rw [Nat.min_eq_left (Nat.le_of_not_le h)]
  · split
    next h => rw [Nat.max_eq_right h]
    next h => rw [Nat.max_eq_left (Nat.le_of_not_le h)]

def Marked (base : Seq) (blks : List Sackblk) (l : List Gap) : Prop :=
  blks.filter (fun sack => !sack.isZero) = l.map (sackblkOf base)

theorem coalesce_absorb (hf : Gap.InSpan lo f) (hl : ∀ g ∈ l, Gap.InSpan lo g)
    (hzero : ∀ g ∈ l, sackblkOf base g ≠ .zero) :
    ∃ blks merged, coalesce (sackblkOf base f) (l.map (sackblkOf base)) =
        (sackblkOf base (absorb f l).1, blks, merged) ∧
      Marked base blks (absorb f l).2 ∧ (merged = true ↔ ¬∀ g ∈ l, f.Apart g) ∧
      (merged = false → blks = l.map (sackblkOf base)) := by
  induction l generalizing f with
  | nil => exact ⟨[], false, rfl, rfl, by simp, fun _ => rfl⟩
  | cons g l ih =>
    have hg := hl g mem_cons_self
    have hne := hzero g mem_cons_self
    have ih := fun f hf => @ih f hf (fun g hg => hl g (mem_cons_of_mem _ hg))
      fun g hg => hzero g (mem_cons_of_mem _ hg)
    obtain ⟨hapart, hsame, hstart, hend⟩ := block_tests base hf hg
    rw [map_cons, coalesce, hapart, absorb]
    by_cases hfg : f.Apart g
    · obtain ⟨blks, merged, heq, hmarked, hmerged, hkept⟩ := ih f hf
      rw [decide_eq_true hfg, if_pos rfl, if_pos hfg, heq]
      refine ⟨_, merged, rfl, ?_, ?_, fun h => by rw [hkept h]⟩
      · have hkeep : (!(sackblkOf base g).isZero) = true := by
          simpa using mt Sackblk.isZero_iff.mp hne
        rw [Marked, filter_cons, if_pos hkeep, hmarked, map_cons]
      · simp [hmerged, hfg]
    · have hmeets : ¬∀ a ∈ g :: l, f.Apart a := fun hall => hfg (hall g mem_cons_self)
      obtain ⟨blks, merged, heq, hmarked, -⟩ := ih (f.hull g) (hf.hull hg)
      rw [decide_eq_false hfg, if_neg Bool.false_ne_true, if_neg hfg]
      refine ⟨.zero :: blks, true, ?_, hmarked, by simpa using hmeets, nofun⟩
      split
      next hsack =>
        obtain rfl := hsame.mp hsack
        rw [Gap.hull_self] at heq ⊢
        rw [heq]
      next =>
        rw [hstart, hend]
        change ((coalesce (sackblkOf base (f.hull g)) _).1,
          _ :: (coalesce (sackblkOf base (f.hull g)) _).2.1, true) = _
        rw [heq]

/-- The receiver of a stream: what has come in, the first byte that has not, the last segment, and
whether a block has ever been shifted out of the report. -/
structure Receiver where
  tp : RcvTcpcb
  got : Set Nat
  nxt : Nat
  last : Option Gap
  full : Bool

def Receiver.idle (base : Seq) (nxt : Nat) : Receiver where
  tp := { rcvNxt := seqAt base nxt, sackblks := [] }
  got := {k | k < nxt}
  nxt := nxt
  last := none
  full := false

def Receiver.receive (base : Seq) (s : Receiver) (seg : Gap) (nxt : Nat) : Receiver :=
  let tp := { s.tp with rcvNxt := seqAt base nxt }
  { tp := tcpUpdateSackList tp (seqAt base seg.start) (seqAt base seg.stop)
    got := s.got ∪ {k | seg.Has k}
    nxt
    last := some seg
    full := s.full || lacksRoom tp (seqAt base seg.start) (seqAt base seg.stop) }

/-- Segments come in in any order; what is before `rcv_nxt` or beyond the window has been cut off. -/
inductive SackReports (base : Seq) : Receiver → Prop
  | start {nxt : Nat} : SackReports base (.idle base nxt)
  | segment {s : Receiver} {seg : Gap} {nxt : Nat} :
      SackReports base s → s.nxt ≤ seg.start → seg.start ≤ seg.stop →
      seg.stop < s.nxt + 2 ^ 31 → (∀ k < nxt, k ∈ s.got ∪ {k | seg.Has k}) →
      nxt ∉ s.got ∪ {k | seg.Has k} → SackReports base (s.receive base seg nxt)

structure Reports (base : Seq) (nxt top : Nat) (got : Set Nat) (blks : List Sackblk)
    (l : List Gap) : Prop where
  shows : blks = l.map (sackblkOf base)
  length : l.length ≤ maxSackBlks
  apart : l.Pairwise Gap.Apart
  le : ∀ g ∈ l, g.start ≤ g.stop
  above : ∀ g ∈ l, nxt < g.start
  below : ∀ g ∈ l, g.stop < top
  got : ∀ g ∈ l, ∀ k, g.Has k → k ∈ got

def Accounted (nxt : Nat) (got : Set Nat) (l : List Gap) : Prop :=
  ∀ k ∈ got, nxt < k → ∃ g ∈ l, g.Has k

variable {nxt nxt' top : Nat} {got : Set Nat} {blks : List Sackblk} {seg : Gap}

theorem Reports.inSpan (h : Reports base nxt top got blks l) (htop : top ≤ nxt + 2 ^ 31) :
    ∀ g ∈ l, Gap.InSpan nxt g := fun g hg => by
  have habove := h.above g hg
  have hbelow := h.below g hg
  have hle := h.le g hg
  exact ⟨⟨habove.le, by omega⟩, ⟨by omega, by omega⟩⟩

theorem Reports.sublist {l' : List Gap} (h : Reports base nxt top got blks l) (hl : l'.Sublist l)
    (habove : ∀ g ∈ l', nxt' < g.start) :
    Reports base nxt' top got (l'.map (sackblkOf base)) l' where
  shows := rfl
  length := hl.length_le.trans h.length
  apart := h.apart.sublist hl
  le g hg := h.le g (hl.subset hg)
  above := habove
  below g hg := h.below g (hl.subset hg)
  got g hg := h.got g (hl.subset hg)

theorem Gap.InSpan.ne_zero (hg : Gap.InSpan lo g) (hk : g.Has k) : sackblkOf base g ≠ .zero := by
  intro hzero
  have hsame : seqAt base g.start = seqAt base g.stop :=
    (congrArg Sackblk.start hzero).trans (congrArg Sackblk.end hzero).symm
  have heq := (hg.start.near hg.stop).seq_inj.mp hsame
  exact absurd (hk.1.trans_lt hk.2) (by omega)

theorem Reports.clean (h : Reports base nxt top got blks l) (hle : nxt ≤ nxt') (hnxt : nxt' < top)
    (htop : top ≤ nxt + 2 ^ 31) (hno : nxt' ∉ got) :
    ∃ l', Reports base nxt' top got (cleanSackblks (seqAt base nxt') blks) l' ∧
      (∀ g ∈ l', sackblkOf base g ≠ .zero) ∧ (Accounted nxt got l → Accounted nxt' got l') := by
  let kept (g : Gap) : Bool := !(sackblkOf base g).isZero && decide (nxt' < g.stop)
  have hclean : cleanSackblks (seqAt base nxt') blks = (l.filter kept).map (sackblkOf base) := by
    rw [cleanSackblks, h.shows, filter_map]
    refine congrArg _ (filter_congr fun g hg => ?_)
    have hin := h.inSpan htop g hg
    have hnear : Near g.stop nxt' := hin.stop.near ⟨hle, by omega⟩
    have hcmp : seqLeq (sackblkOf base g).end (seqAt base nxt') = decide (g.stop ≤ nxt') :=
      hnear.seqLeq
    rw [Function.comp_apply, hcmp, ← decide_not]
    exact congrArg _ (decide_eq_decide.mpr Nat.not_le)
  have hmem : ∀ g ∈ l.filter kept, g ∈ l ∧ sackblkOf base g ≠ .zero ∧ nxt' < g.stop := by
    intro g hg
    obtain ⟨hg, hkept⟩ := mem_filter.mp hg
    simp only [kept, and_eq_true, not_eq_true', decide_eq_true_eq] at hkept
    exact ⟨hg, fun hzero => absurd (Sackblk.isZero_iff.mpr hzero) (by simp [hkept.1]), hkept.2⟩
  refine ⟨l.filter kept, hclean ▸ h.sublist filter_sublist fun g hg => ?_,
    fun g hg => (hmem g hg).2.1, fun hcov k hk hlt => ?_⟩
  · obtain ⟨hg, -, hstop⟩ := hmem g hg
    exact Nat.lt_of_not_le fun hstart => hno (h.got g hg _ ⟨hstart, hstop⟩)
  · obtain ⟨g, hg, hgk⟩ := hcov k hk (hle.trans_lt hlt)
    have hne : sackblkOf base g ≠ .zero := (h.inSpan htop g hg).ne_zero hgk
    have hzero : (sackblkOf base g).isZero = false :=
      eq_false_iff.mpr fun hz => hne (Sackblk.isZero_iff.mp hz)
    refine ⟨g, mem_filter.mpr ⟨hg, ?_⟩, hgk⟩
    simp only [kept, hzero, Bool.not_false, Bool.true_and, decide_eq_true_eq]
    exact hlt.trans hgk.2

theorem Reports.first (h : Reports base nxt top got blks l) (habove : nxt < seg.start)
    (hle : seg.start ≤ seg.stop) (hbelow : seg.stop < top) {rest : List Gap}
    (hrest : rest.Sublist (absorb seg l).2) (hlen : rest.length < maxSackBlks) :
    Reports base nxt top (got ∪ {k | seg.Has k})
      (((absorb seg l).1 :: rest).map (sackblkOf base)) ((absorb seg l).1 :: rest) := by
  have hbetween := absorb_between ⟨habove, hbelow⟩ fun g hg => ⟨h.above g hg, h.below g hg⟩
  have hge := absorb_ge seg l
  have hmem : ∀ g ∈ rest, g ∈ l := fun g hg => (absorb_sublist seg l).subset (hrest.subset hg)
  have hgot : ∀ g ∈ (absorb seg l).1 :: rest, ∀ k, g.Has k → k ∈ got ∪ {k | seg.Has k} := by
    intro g hg k hk
    have hall : seg.Has k ∨ ∃ g ∈ l, g.Has k := by
      rw [← absorb_has]
      rcases mem_cons.mp hg with rfl | hg
      · exact .inl hk
      · exact .inr ⟨g, hrest.subset hg, hk⟩
    rcases hall with hk | ⟨g, hg, hk⟩
    · exact .inr hk
    · exact .inl (h.got g hg k hk)
  refine ⟨rfl, hlen, (absorb_apart h.apart h.le).sublist (hrest.cons_cons _), ?_, ?_, ?_, hgot⟩
  · rintro g (_ | ⟨_, hg⟩)
    · omega
    · exact h.le g (hmem g hg)
  · rintro g (_ | ⟨_, hg⟩)
    · exact hbetween.1
    · exact h.above g (hmem g hg)
  · rintro g (_ | ⟨_, hg⟩)
    · exact hbetween.2
    · exact h.below g (hmem g hg)

theorem Accounted.first (h : Accounted nxt got l) :
    Accounted nxt (got ∪ {k | seg.Has k}) ((absorb seg l).1 :: (absorb seg l).2) := by
  intro k hk hlt
  rw [exists_mem_cons_iff, absorb_has]
  exact hk.symm.imp_right fun hk => h k hk hlt

def First (seg : Gap) (l : List Gap) : Prop :=
  ∃ g, l.head? = some g ∧ g.start ≤ seg.start ∧ seg.stop ≤ g.stop

theorem Reports.mono {got' : Set Nat} (h : Reports base nxt top got blks l) (hle : got ⊆ got') :
    Reports base nxt top got' blks l := { h with got := fun g hg k hk => hle (h.got g hg k hk) }

theorem Reports.update (tp : RcvTcpcb) (seg : Gap) (hrcv : tp.rcvNxt = seqAt base nxt)
    (h : Reports base nxt top got (cleanSackblks tp.rcvNxt tp.sackblks) l)
    (hzero : ∀ g ∈ l, sackblkOf base g ≠ .zero) (hnxt : InSpan lo nxt) (hseg : Gap.InSpan lo seg)
    (hle : seg.start ≤ seg.stop) (hbelow : seg.stop < top) (htop : top ≤ lo + 2 ^ 31)
    (hno : ¬seg.Has nxt) : ∃ l', Reports base nxt top (got ∪ {k | seg.Has k})
        (tcpUpdateSackList tp (seqAt base seg.start) (seqAt base seg.stop)).sackblks l' ∧
      (nxt < seg.start → First seg l') ∧
      (lacksRoom tp (seqAt base seg.start) (seqAt base seg.stop) = false → Accounted nxt got l →
        Accounted nxt (got ∪ {k | seg.Has k}) l') := by
  have hspan : ∀ g ∈ l, Gap.InSpan lo g := fun g hg => by
    have habove := h.above g hg
    have hle := h.le g hg
    have hbelow := h.below g hg
    have hlo := hnxt.1
    exact ⟨⟨by omega, by omega⟩, ⟨by omega, by omega⟩⟩
  have hbefore : seqLt (seqAt base nxt) (seqAt base seg.start) = decide (nxt < seg.start) :=
    (hnxt.near hseg.start).seqLt
  have hbeyond : seqGeq (seqAt base nxt) (seqAt base seg.stop) = decide (seg.stop ≤ nxt) :=
    (hnxt.near hseg.stop).seqGeq
  have hl : Reports base nxt top got (l.map (sackblkOf base)) l := { h with shows := rfl }
  rw [tcpUpdateSackList, lacksRoom]
  simp only
  rw [h.shows, hrcv, hbefore, hbeyond]
  by_cases hnil : l = []
  · -- the segment's block is the only one
    subst hnil
    rw [map_nil, if_pos rfl]
    by_cases hlt : nxt < seg.start
    · have hrep := h.first hlt hle hbelow (nil_sublist _) (by decide)
      refine ⟨[seg], ?_, fun _ => ⟨seg, rfl, le_rfl, le_rfl⟩, fun _ hcov => hcov.first⟩
      simp only [hlt, decide_true, if_true]
      exact hrep
    · refine ⟨[], ?_, fun hlt' => absurd hlt' hlt, fun _ hcov k hk hklt => ?_⟩
      · simp only [hlt, decide_false, false_eq_true, if_false]
        exact hl.mono Set.subset_union_left
      rcases hk with hk | hk
      · exact hcov k hk hklt
      · exact absurd ⟨Nat.le_of_not_lt hlt, hklt.trans hk.2⟩ hno
  rw [if_neg (mt map_eq_nil_iff.mp hnil)]
  by_cases hold : seg.stop ≤ nxt
  · rw [decide_eq_true hold, if_pos rfl]
    refine ⟨l, hl.mono Set.subset_union_left, fun hlt => absurd hle (by omega),
      fun _ hcov k hk hklt => ?_⟩
    rcases hk with hk | hk
    · exact hcov k hk hklt
    · exact absurd (hklt.trans hk.2) (by omega)
  have hlt : nxt < seg.start := Nat.lt_of_not_le fun hstart => hno ⟨hstart, Nat.lt_of_not_le hold⟩
  have hge := absorb_ge seg l
  obtain ⟨blks, merged, heq, hmarked, hmerged, hkept⟩ := coalesce_absorb hseg hspan hzero
  have heq : coalesce ⟨seqAt base seg.start, seqAt base seg.stop⟩ (l.map (sackblkOf base)) =
      (sackblkOf base (absorb seg l).1, blks, merged) := heq
  rw [decide_eq_false hold, heq, if_neg Bool.false_ne_true]
  cases merged with
  | true =>
    have hlen := absorb_length (hmerged.mp rfl)
    have hrep := h.first hlt hle hbelow (Sublist.refl _) (hlen.trans_le h.length)
    refine ⟨_, ?_, fun _ => ⟨_, rfl, hge⟩, fun _ hcov => hcov.first⟩
    rw [if_pos rfl, hmarked]
    exact hrep
  | false =>
    have hall : ∀ g ∈ l, seg.Apart g := by
      by_contra hmeets
      exact absurd (hmerged.mpr hmeets) Bool.false_ne_true
    have hsame := absorb_of_apart hall
    have hsub : (l.take 5).Sublist (absorb seg l).2 := by
      rw [hsame]
      exact take_sublist 5 l
    have hrep := h.first hlt hle hbelow hsub (by
      rw [length_take, maxSackBlks]
      omega)
    refine ⟨(absorb seg l).1 :: l.take 5, ?_, fun _ => ⟨_, rfl, hge⟩, fun hroom hcov => ?_⟩
    · rw [if_neg Bool.false_ne_true, hkept rfl, ← map_take]
      exact hrep
    · have hlen := h.length
      have hne : l.length ≠ maxSackBlks := by simpa using hroom
      have hlen : l.length ≤ 5 := Nat.lt_succ_iff.mp (Nat.lt_of_le_of_ne hlen hne)
      have hcov : Accounted nxt (got ∪ {k | seg.Has k}) ((absorb seg l).1 :: (absorb seg l).2) :=
        hcov.first
      rw [hsame] at hcov ⊢
      rwa [take_of_length_le hlen]

/-- The report tells the truth: few blocks that keep away from each other and from `rcv_nxt`, all of
them received; the last segment is in the first one; and all that has come in above `rcv_nxt` is
reported unless a block had to go. -/
structure Truthful (base : Seq) (s : Receiver) (l : List Gap) : Prop where
  rcvNxt : s.tp.rcvNxt = seqAt base s.nxt
  reports : Reports base s.nxt (s.nxt + 2 ^ 31) s.got s.tp.sackblks l
  first : ∀ seg, s.last = some seg → s.nxt < seg.start → First seg l
  covers : s.full = false → Accounted s.nxt s.got l

structure Consistent (s : Receiver) : Prop where
  before : ∀ k < s.nxt, k ∈ s.got
  missing : s.nxt ∉ s.got
  below : ∀ k ∈ s.got, k + 1 < s.nxt + 2 ^ 31

variable {s : Receiver}

theorem Consistent.receive (base : Seq) (h : Consistent s) (hbelow : seg.stop < s.nxt + 2 ^ 31)
    (hbefore : ∀ k < nxt, k ∈ s.got ∪ {k | seg.Has k}) (hno : nxt ∉ s.got ∪ {k | seg.Has k}) :
    s.nxt ≤ nxt ∧ nxt < s.nxt + 2 ^ 31 ∧ Consistent (s.receive base seg nxt) := by
  have hle : s.nxt ≤ nxt := Nat.le_of_not_lt fun hlt => hno (.inl (h.before nxt hlt))
  have hall : ∀ k ∈ s.got ∪ {k | seg.Has k}, k + 1 < s.nxt + 2 ^ 31 := by
    rintro k (hk | hk)
    · exact h.below k hk
    · exact Nat.lt_of_le_of_lt hk.2 hbelow
  refine ⟨hle, ?_, hbefore, hno, fun k hk => (hall k hk).trans_le (Nat.add_le_add_right hle _)⟩
  rcases Nat.eq_zero_or_pos nxt with rfl | hpos
  · omega
  · have hlast := hall (nxt - 1) (hbefore (nxt - 1) (by omega))
    omega

theorem SackReports.truthful (h : SackReports base s) : Consistent s ∧ ∃ l, Truthful base s l := by
  induction h with
  | start =>
    refine ⟨⟨fun _ hk => hk, Nat.lt_irrefl _, fun k hk => ?_⟩, [], rfl, ?_, nofun, ?_⟩
    · exact Nat.add_lt_add_of_lt_of_le hk (by decide)
    · exact ⟨rfl, by decide, .nil, nofun, nofun, nofun, nofun⟩
    · exact fun _ k hk hlt => absurd hk (Nat.lt_asymm hlt)
  | @segment s seg nxt _ hstart hle hbelow hbefore hno ih =>
    obtain ⟨hrec, l, hl⟩ := ih
    obtain ⟨hnxt, hlt, hrec'⟩ := hrec.receive base hbelow hbefore hno
    obtain ⟨l₁, hl₁, hzero, hcov₁⟩ := hl.reports.clean hnxt hlt le_rfl fun hk => hno (Or.inl hk)
    obtain ⟨l', hl', hfirst, hcov⟩ := Reports.update { s.tp with rcvNxt := seqAt base nxt } seg rfl
      hl₁ hzero ⟨hnxt, hlt⟩ ⟨⟨hstart, by omega⟩, ⟨by omega, hbelow⟩⟩ hle hbelow
      le_rfl fun hk => hno (Or.inr hk)
    refine ⟨hrec', l', ?_, ?_, ?_, ?_⟩
    · exact tcpUpdateSackList_rcvNxt _ _ _
    · exact { hl' with below := fun g hg => (hl'.below g hg).trans_le (Nat.add_le_add_right hnxt _) }
    · rintro _ ⟨⟩
      exact hfirst
    · intro hfull
      obtain ⟨hold, hroom⟩ := or_eq_false_iff.mp hfull
      exact hcov hroom (hcov₁ (hl.covers hold))

/-- In every run. -/
theorem sack_report_truthful (base : Seq) (s : Receiver) (h : SackReports base s) :
    ∃ l, Truthful base s l :=
  h.truthful.2

/-- A segment that leaves a hole, and the one after it. -/
theorem sack_report_truthful_merged : ∃ s, SackReports 0 s ∧ s.tp.sackblks = [⟨10, 30⟩] ∧
    ∃ l, Truthful 0 s l := by
  have hfirst : SackReports 0 ((Receiver.idle 0 0).receive 0 ⟨10, 20⟩ 0) :=
    .segment .start (by decide) (by decide) (by decide) (by simp) (by simp [Receiver.idle, Gap.Has])
  have hnext : SackReports 0 (((Receiver.idle 0 0).receive 0 ⟨10, 20⟩ 0).receive 0 ⟨20, 30⟩ 0) :=
    .segment hfirst (by decide) (by decide) (by decide) (by simp)
      (by simp [Receiver.receive, Receiver.idle, Gap.Has])
  exact ⟨_, hnext, rfl, sack_report_truthful 0 _ hnext⟩

end Mbsd.Netinet.TcpInput
