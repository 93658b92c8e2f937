import Mbsd.Lib.SegmentQueue
import Mbsd.Netinet.TcpInput.Reass

/-! The reassembly queue holds the pieces of the stream that came early. -/

namespace Mbsd.Netinet.TcpInput

open Kern.UipcMbuf Lib.SegmentQueue Lib.SeqSpace TcpSeq List Option BitVec

abbrev Part := Seg (BitVec 8) (BitVec 8)

def Part.header (base : Seq) (s : Part) : Tcphdr where
  thSeq := seqAt base s.off
  thFlags := s.tag
  thReseqlen := BitVec.ofNat 16 s.data.length

def Part.entry (base : Seq) (s : Part) : Tcpqent where
  tcpqeTcp := s.header base
  tcpqeM := s.data

/-- The segments that can be in the queue or come in, while `rcv` is the next position. -/
structure Part.InWindow (rcv : Nat) (s : Part) : Prop where
  le : rcv ≤ s.off
  fin_le : s.fin ≤ rcv + 2 ^ 31
  pos : 0 < s.data.length
  length_le : s.data.length ≤ 65535

variable {base : Seq} {rcv : Nat} {s a : Part} {l : List Part}

theorem toNat_reseqlen (h : s.data.length ≤ 65535) :
    (BitVec.ofNat 16 s.data.length).toNat = s.data.length := by
  rw [toNat_ofNat, Nat.mod_eq_of_lt (by omega)]

theorem seq_add_reseqlen (h : s.data.length ≤ 65535) :
    (s.header base).thSeq + (s.header base).thReseqlen.setWidth 32 = seqAt base s.fin := by
  rw [Part.header, Seg.fin, seqAt_add]
  congr 1
  apply eq_of_toNat_eq
  rw [toNat_setWidth, toNat_reseqlen h, toNat_ofNat]

theorem seq_add_length (base : Seq) (off n : Nat) :
    seqAt base off + BitVec.ofInt 32 n = seqAt base (off + n) := by
  rw [seqAt_add, ofInt_natCast]

theorem seqGt_entry (hs : s.InWindow rcv) (ha : a.InWindow rcv) :
    (!seqGt (a.header base).thSeq (s.header base).thSeq) = decide (a.off ≤ s.off) := by
  have := hs.le
  have := hs.fin_le
  have := ha.le
  have := ha.fin_le
  have := ha.pos
  simp only [Seg.fin] at *
  rw [seqGt, Part.header, Part.header, toInt_seqAt_sub (by decide) (by omega) (by omega),
    Bool.eq_iff_iff]
  simp

theorem trim_entry {i : Nat} (hi : i ≤ s.data.length) : (Part.entry base (s.trim i)) =
      { tcpqeTcp := { s.header base with
          thSeq := (s.header base).thSeq + BitVec.ofInt 32 i
          thReseqlen := (s.header base).thReseqlen - BitVec.ofInt 16 i }
        tcpqeM := mAdj s.data i } := by
  have hlen : BitVec.ofNat 16 (s.data.length - i) =
      BitVec.ofNat 16 s.data.length - BitVec.ofInt 16 i := by
    obtain ⟨n, hn⟩ := Nat.exists_eq_add_of_le hi
    rw [hn, ofInt_natCast, Nat.add_sub_cancel_left, ofNat_add, BitVec.add_comm,
      BitVec.add_sub_cancel]
  rw [Part.entry, Part.header, Part.header, mAdj_natCast, seq_add_length, Seg.trim_off, Seg.trim_tag,
    Seg.trim, length_drop, hlen]

theorem trimSucceeding_eq (base : Seq) {stop : Nat} (hlo : rcv < stop) (hhi : stop ≤ rcv + 2 ^ 31)
    (hl : ∀ a ∈ l, Part.InWindow rcv a ∧ rcv < a.off) :
    trimSucceeding (seqAt base stop) (l.map (Part.entry base)) =
      (clear stop l).map (Part.entry base) := by
  induction l with
  | nil => rfl
  | cons q l ih =>
    obtain ⟨hq, hlt⟩ := hl q mem_cons_self
    have hfin := hq.fin_le
    rw [Seg.fin] at hfin
    have hi : (seqAt base stop - seqAt base q.off).toInt = stop - q.off :=
      toInt_seqAt_sub (by decide) (by omega) (by omega)
    rw [map_cons, trimSucceeding, clear]
    simp only [Part.entry, Part.header, hi, toNat_reseqlen hq.length_le]
    by_cases hle : stop ≤ q.off
    · rw [if_pos (by omega), if_pos hle]
      rfl
    · obtain ⟨i, rfl⟩ := Nat.exists_eq_add_of_le (Nat.le_of_not_le hle)
      have hcast : ((q.off + i : Nat) : Int) - q.off = i := by omega
      rw [if_neg (by omega), if_neg hle, hcast, Nat.add_sub_cancel_left]
      by_cases hcut : i < q.data.length
      · rw [if_pos (by omega), if_pos (by rw [Seg.fin]; omega), map_cons,
          trim_entry (Nat.le_of_lt hcut)]
        rfl
      · rw [if_neg (by omega), if_neg (by rw [Seg.fin]; omega)]
        exact ih fun a ha => hl a (mem_cons_of_mem _ ha)

def Sockbuf.deliver (sb : Sockbuf) (got : Mbuf) : Sockbuf :=
  if sb.cantrcvmore then sb else sbappendstream sb got

theorem Sockbuf.deliver_deliver (sb : Sockbuf) (got m : Mbuf) :
    (sb.deliver got).deliver m = sb.deliver (got ++ m) := by
  by_cases hs : sb.cantrcvmore
  · simp only [Sockbuf.deliver, hs, if_true]
  · have hs' : ¬(sbappendstream sb got).cantrcvmore := hs
    have hgot : sb.deliver got = sbappendstream sb got := if_neg hs
    rw [hgot, Sockbuf.deliver, if_neg hs', Sockbuf.deliver, if_neg hs]
    simp only [sbappendstream, List.append_assoc]

structure Tcpcb.Holds (tp : Tcpcb) (base : Seq) (sb : Sockbuf) (rcv : Nat) (got : Mbuf)
    (l : List Part) : Prop where
  rcvNxt : tp.rcvNxt = seqAt base rcv
  tSegq : tp.tSegq = l.map (Part.entry base)
  established : tcpsHaveestablished tp.tState
  soRcv : tp.soRcv = sb.deliver got

variable {tp : Tcpcb} {sb : Sockbuf} {got : Mbuf}

theorem Tcpcb.Holds.present {q : Part} (h : tp.Holds base sb rcv got (q :: l)) (hq : q.off = rcv)
    (hlen : q.data.length ≤ 65535) :
    (tp.present (q.entry base) (l.map (Part.entry base))).Holds base sb q.fin (got ++ q.data) l where
  rcvNxt := by
    rw [Tcpcb.present, h.rcvNxt, ← hq]
    exact seq_add_reseqlen hlen
  tSegq := rfl
  established := h.established
  soRcv := by
    rw [← Sockbuf.deliver_deliver, ← h.soRcv]
    rfl

theorem Part.InWindow.mono (h : s.InWindow rcv) {rcv' : Nat} (hle : rcv ≤ rcv')
    (hoff : rcv' ≤ s.off) : s.InWindow rcv' where
  le := hoff
  fin_le := h.fin_le.trans (Nat.add_le_add_right hle _)
  pos := h.pos
  length_le := h.length_le

theorem Part.InWindow.seq_eq_iff (h : s.InWindow rcv) :
    (s.header base).thSeq = seqAt base rcv ↔ s.off = rcv := by
  have := h.fin_le
  rw [Seg.fin] at this
  exact seqAt_inj h.le (by omega)

section

variable (h : tp.Holds base sb rcv got l) (hl : Sorted l) (hwin : ∀ a ∈ l, Part.InWindow rcv a)

include h hl hwin

theorem Tcpcb.Holds.flushLoop (flags : BitVec 8) :
    (flushLoop tp flags (l.map (Part.entry base))).2.Holds base sb (flush rcv l).1
      (got ++ (flush rcv l).2.1) (flush rcv l).2.2 := by
  induction l generalizing tp rcv got flags with
  | nil => simpa [TcpInput.flushLoop, flush] using h
  | cons q l ih =>
    have hq := hwin q mem_cons_self
    have hseq : (q.entry base).tcpqeTcp.thSeq = tp.rcvNxt ↔ q.off = rcv :=
      h.rcvNxt ▸ hq.seq_eq_iff
    rw [map_cons, TcpInput.flushLoop, flush]
    simp only [hseq]
    by_cases hoff : q.off = rcv
    · rw [if_pos hoff, if_pos hoff]
      have hfin : rcv ≤ q.fin := hoff ▸ q.off_le_fin
      have := ih (h.present hoff hq.length_le) hl.tail
        (fun a ha => (hwin a (mem_cons_of_mem _ ha)).mono hfin (hl.head a ha))
        ((q.entry base).tcpqeTcp.thFlags &&& thFin)
      rwa [List.append_assoc] at this
    · rw [if_neg hoff, if_neg hoff]
      simpa using h

theorem Tcpcb.Holds.tcpFlushQueue :
    (tcpFlushQueue tp).2.Holds base sb (flush rcv l).1 (got ++ (flush rcv l).2.1)
      (flush rcv l).2.2 := by
  have hest := h.established
  rw [TcpInput.tcpFlushQueue, if_neg (not_not.mpr hest), h.tSegq]
  cases l with
  | nil => simpa [flush] using h
  | cons q l =>
    have hseq : (q.entry base).tcpqeTcp.thSeq = tp.rcvNxt ↔ q.off = rcv :=
      h.rcvNxt ▸ (hwin q mem_cons_self).seq_eq_iff
    simp only [map_cons, ne_eq, hseq]
    by_cases hoff : q.off = rcv
    · have hstate : tp.tState ≠ tcpsSynReceived := by
        simp only [tcpsHaveestablished, tcpsEstablished] at hest
        rw [tcpsSynReceived]
        omega
      rw [if_neg (not_not.mpr hoff), if_neg fun hsyn => hstate hsyn.1]
      exact h.flushLoop hl hwin 0
    · rw [if_pos hoff, flush, if_neg hoff, append_nil]
      exact h

end

theorem flush_of_lt (h : ∀ a ∈ l, rcv < a.off) : flush rcv l = (rcv, [], l) := by
  cases l with
  | nil => rfl
  | cons q l => rw [flush, if_neg (h q mem_cons_self).ne']

def Part.arrive (base : Seq) (s : Part) (urp : BitVec 16) : Tcphdr :=
  { s.header base with thReseqlen := urp }

theorem Part.InWindow.within (hs : s.InWindow rcv) {b : Part} (hb : b.Within s)
    (hpos : 0 < b.data.length) : b.InWindow rcv where
  le := hs.le.trans hb.off_le
  fin_le := hb.fin ▸ hs.fin_le
  pos := hpos
  length_le := by
    obtain ⟨i, -, rfl⟩ := hb
    have := hs.length_le
    simp only [Seg.trim, length_drop]
    omega

def Waiting (rcv : Nat) (l : List Part) : Prop := ∀ a ∈ l, Part.InWindow rcv a ∧ rcv < a.off

theorem Waiting.clear (h : Waiting rcv l) (stop : Nat) : Waiting rcv (clear stop l) := by
  intro b hb
  obtain ⟨a, ha, hba⟩ := mem_clear hb
  have hpos := length_pos_of_mem_clear (fun a ha => (h a ha).1.pos) hb
  exact ⟨(h a ha).1.within hba hpos, (h a ha).2.trans_le hba.off_le⟩

theorem Tcpcb.Holds.reassInsert {before after l' : List Part} {urp : BitVec 16}
    (h : tp.Holds base sb rcv got l) (hs : s.InWindow rcv) (hbefore : Waiting rcv before)
    (hafter : Waiting rcv after) (hl' : before ++ s :: clear s.fin after = l')
    (hsorted : Sorted l') : (TcpInput.reassInsert tp (s.arrive base urp) s.data s.data.length
      (before.map (Part.entry base)) (after.map (Part.entry base))).2.1.Holds base sb
        (flush rcv l').1 (got ++ (flush rcv l').2.1) (flush rcv l').2.2 := by
  have hpos := hs.pos
  have hle := hs.le
  have hmem : ∀ a ∈ l', a = s ∨ Part.InWindow rcv a ∧ rcv < a.off := by
    intro a ha
    rw [← hl'] at ha
    rcases mem_append.mp ha with ha | ha
    · exact Or.inr (hbefore a ha)
    · exact (mem_cons.mp ha).imp_right (hafter.clear s.fin a)
  have hstop : (s.arrive base urp).thSeq + BitVec.ofInt 32 s.data.length = seqAt base s.fin :=
    seq_add_length base s.off s.data.length
  have hlt : rcv < s.fin := by
    rw [Seg.fin]
    omega
  have hclear := trimSucceeding_eq base hlt hs.fin_le hafter
  have hentry : ({ tcpqeTcp := { s.arrive base urp with
      thReseqlen := BitVec.ofInt 16 s.data.length }, tcpqeM := s.data } : Tcpqent) =
      s.entry base := by
    rw [ofInt_natCast]
    rfl
  have hqueue : before.map (Part.entry base) ++ s.entry base :: (clear s.fin after).map
      (Part.entry base) = l'.map (Part.entry base) := by
    rw [← hl', map_append, map_cons]
  have hseq : (s.arrive base urp).thSeq = tp.rcvNxt ↔ s.off = rcv := h.rcvNxt ▸ hs.seq_eq_iff
  rw [TcpInput.reassInsert]
  simp only [hstop, hclear, hentry, hqueue, ne_eq, hseq]
  have hqueued : ({ tp with
      tRcvoopack := tp.tRcvoopack + 1
      tSegq := l'.map (Part.entry base) } : Tcpcb).Holds base sb rcv got l' :=
    ⟨h.rcvNxt, rfl, h.established, h.soRcv⟩
  by_cases hoff : s.off = rcv
  · rw [if_neg (not_not.mpr hoff)]
    refine hqueued.tcpFlushQueue hsorted fun a ha => ?_
    rcases hmem a ha with rfl | hwait
    · exact hs
    · exact hwait.1
  · have hlt : ∀ a ∈ l', rcv < a.off := by
      intro a ha
      rcases hmem a ha with rfl | hwait
      · omega
      · exact hwait.2
    rw [if_pos hoff, flush_of_lt hlt, append_nil]
    exact hqueued

theorem Tcpcb.Holds.tcpReass {l' : List Part} (h : tp.Holds base sb rcv got l) (hl : Sorted l)
    (hwait : Waiting rcv l) (hs : s.InWindow rcv) (urp : BitVec 16) (hl' : add s l = l') :
    (TcpInput.tcpReass tp (s.arrive base urp) s.data s.data.length true).2.1.Holds base sb
      (flush rcv l').1 (got ++ (flush rcv l').2.1) (flush rcv l').2.2 := by
  obtain ⟨hbefore, hafter⟩ := search_map (s := s) (f := Part.entry base)
    (p := fun q => !seqGt q.tcpqeTcp.thSeq (s.arrive base urp).thSeq)
    fun a ha => seqGt_entry hs (hwait a ha).1
  have hwb : Waiting rcv (l.takeWhile (·.off ≤ s.off)) := fun a ha =>
    hwait a ((takeWhile_sublist _).subset ha)
  have hwa : Waiting rcv (l.dropWhile (·.off ≤ s.off)) := fun a ha =>
    hwait a ((dropWhile_sublist _).subset ha)
  have hsorted : Sorted l' := hl' ▸ hl.add s
  rw [TcpInput.tcpReass, if_pos rfl, reassQueue, h.tSegq, hbefore, hafter, getLast?_map]
  rw [add, enqueue] at hl'
  cases hp : (l.takeWhile (·.off ≤ s.off)).getLast? with
  | none =>
    simp only [hp, getD_some] at hl'
    have hnil := getLast?_eq_none_iff.mp hp
    exact h.reassInsert hs hwb hwa (by rw [hnil, nil_append, hl']) hsorted
  | some p =>
    have hmem := mem_of_getLast? hp
    have hpo : p.off ≤ s.off := by simpa using mem_takeWhile_imp hmem
    obtain ⟨hp', hlt⟩ := hwb p hmem
    have hpf := hp'.fin_le
    have hsf := hs.fin_le
    have hi : ((p.entry base).tcpqeTcp.thSeq + (p.entry base).tcpqeTcp.thReseqlen.setWidth 32 -
        (s.arrive base urp).thSeq).toInt = p.fin - s.off := by
      rw [Part.entry, seq_add_reseqlen hp'.length_le]
      rw [Seg.fin] at *
      exact toInt_seqAt_sub (by decide) (by omega) (by omega)
    simp only [hp, map_some, hi] at hl' ⊢
    by_cases hgt : p.fin ≤ s.off
    · have hzero : p.fin - s.off = 0 := by omega
      rw [hzero, if_neg (by omega), getD_some, Seg.trim_zero] at hl'
      rw [if_neg (by omega)]
      exact h.reassInsert hs hwb hwa hl' hsorted
    · obtain ⟨i, hfin⟩ := Nat.exists_eq_add_of_le (Nat.le_of_not_le hgt)
      have hcast : ((p.fin : Nat) : Int) - s.off = i := by omega
      have hnat : p.fin - s.off = i := by omega
      rw [if_pos (by omega), hcast]
      rw [hnat] at hl'
      by_cases hcov : s.data.length ≤ i
      · rw [if_pos ⟨by omega, hcov⟩, getD_none] at hl'
        rw [if_pos (by omega), ← hl', flush_of_lt fun a ha => (hwait a ha).2, append_nil]
        exact h
      · have hrest : Part.InWindow rcv (s.trim i) := hs.within ⟨i, by omega, rfl⟩ (by
          simp only [Seg.trim, length_drop]
          omega)
        have hlen : (s.data.length : Int) - i = (s.trim i).data.length := by
          simp only [Seg.trim, length_drop]
          omega
        have hth : ({ s.arrive base urp with
            thSeq := (s.arrive base urp).thSeq + BitVec.ofInt 32 i } : Tcphdr) =
            Part.arrive base (s.trim i) urp := by
          rw [Part.arrive, Part.header, seq_add_length]
          rfl
        rw [if_neg fun hc => hcov hc.2, getD_some, ← Seg.fin_trim (i := i) (by omega)] at hl'
        rw [if_neg (by omega), hlen, mAdj_natCast, hth]
        exact h.reassInsert hrest hwb hwa hl' hsorted

end Mbsd.Netinet.TcpInput

/-! What the user gets is the stream, once and in order. -/

namespace Mbsd.Netinet.TcpInput

open Kern.UipcMbuf Lib.SegmentQueue Lib.SeqSpace TcpSeq List TcpInput.Part

/-- The bytes `off, …, off + len - 1` of a stream, in a segment with these flags and this urgent
pointer. -/
structure Piece where
  off : Nat
  len : Nat
  flags : BitVec 8
  urp : BitVec 16

abbrev Stream := Nat → BitVec 8

def Piece.part (stream : Stream) (p : Piece) : Part where
  off := p.off
  data := (List.range p.len).map fun i => stream (p.off + i)
  tag := p.flags

def Received (ps : List Piece) (k : Nat) : Prop := ∃ p ∈ ps, p.off ≤ k ∧ k < p.off + p.len

structure Conn where
  tp : Tcpcb
  rcv : Nat

def Conn.recv (base : Seq) (stream : Stream) (c : Conn) (p : Piece) : Conn :=
  let s := p.part stream
  let tp := (tcpReass c.tp (s.arrive base p.urp) s.data p.len true).2.1
  { tp, rcv := c.rcv + (tp.rcvNxt - c.tp.rcvNxt).toNat }

structure Conn.Admits (c : Conn) (p : Piece) : Prop where
  pos : 0 < p.len
  len_le : p.len ≤ 65535
  le : c.rcv ≤ p.off
  fin_le : p.off + p.len ≤ c.rcv + 2 ^ 31

inductive Run (stream : Stream) (tp : Tcpcb) : List Piece → Conn → Prop
  | start : Run stream tp [] { tp, rcv := 0 }
  | recv {ps : List Piece} {c : Conn} {p : Piece} :
      Run stream tp ps c → c.Admits p → Run stream tp (p :: ps) (c.recv tp.rcvNxt stream p)

structure Queued (stream : Stream) (base : Seq) (c : Conn) (l : List Part) : Prop where
  tSegq : c.tp.tSegq = l.map (Part.entry base)
  sorted : Sorted l
  carries : ∀ a ∈ l, a.Carries fun k b => b = stream k
  waiting : Waiting c.rcv l

structure Delivered (stream : Stream) (tp : Tcpcb) (ps : List Piece) (c : Conn) : Prop where
  queued : ∃ l, Queued stream tp.rcvNxt c l ∧ ∀ k, Received ps k ↔ k < c.rcv ∨ Covers l k
  rcvNxt : c.tp.rcvNxt = seqAt tp.rcvNxt c.rcv
  soRcv : c.tp.soRcv = tp.soRcv.deliver ((List.range c.rcv).map stream)
  established : tcpsHaveestablished c.tp.tState

variable {stream : Stream} {tp : Tcpcb} {ps : List Piece} {c : Conn} {p : Piece} {l : List Part}
  {rcv k : Nat}

theorem Piece.length_part (p : Piece) : (p.part stream).data.length = p.len := by
  rw [Piece.part, length_map, length_range]

theorem Piece.carries_part (stream : Stream) (p : Piece) : (p.part stream).Carries fun k b => b = stream k := by
  intro i d hd
  rw [Piece.part, getElem?_map, Option.map_eq_some_iff] at hd
  obtain ⟨j, hj, rfl⟩ := hd
  obtain ⟨hi, hj⟩ := List.getElem?_eq_some_iff.mp hj
  rw [← hj, getElem_range]
  rfl

theorem Conn.Admits.inWindow (stream : Stream) (h : c.Admits p) : InWindow c.rcv (p.part stream) where
  le := h.le
  fin_le := by
    rw [Seg.fin, p.length_part]
    exact h.fin_le
  pos := p.length_part.symm ▸ h.pos
  length_le := p.length_part.symm ▸ h.len_le

theorem received_cons (stream : Stream) : Received (p :: ps) k ↔ (p.part stream).Has k ∨ Received ps k := by
  rw [Seg.Has, Seg.fin, p.length_part]
  simp only [Received, mem_cons, or_and_right, exists_or, exists_eq_left]
  rfl

theorem Waiting.add {s : Part} (h : Waiting rcv l) (hl : Sorted l) (hs : s.InWindow rcv) :
    ∀ a ∈ add s l, InWindow rcv a := by
  intro b hb
  have hpos := length_pos_of_mem_add hl (fun a ha => (h a ha).1.pos) hs.pos hb
  rcases mem_add hl hb with hbs | ⟨a, ha, hba⟩
  · exact hs.within hbs hpos
  · exact (h a ha).1.within hba hpos

theorem carries_add {s : Part} {P : Nat → BitVec 8 → Prop} (hl : Sorted l)
    (h : ∀ a ∈ l, a.Carries P) (hs : s.Carries P) : ∀ a ∈ add s l, a.Carries P := by
  intro b hb
  rcases mem_add hl hb with hbs | ⟨a, ha, hba⟩
  · exact hbs.carries hs
  · exact hba.carries (h a ha)

theorem data_flush (h : ∀ a ∈ l, a.Carries fun k b => b = stream k) (rcv : Nat) :
    (range rcv).map stream ++ (flush rcv l).2.1 = (range (flush rcv l).1).map stream := by
  have hdata : (flush rcv l).2.1 =
      (range (flush rcv l).2.1.length).map fun i => stream (rcv + i) := by
    apply ext_getElem
    · rw [length_map, length_range]
    · intro i hi hi'
      rw [getElem_map, getElem_range]
      exact flush_carries h (getElem?_eq_getElem hi)
  rw [fst_flush, range_add, map_append, map_map]
  congr 1

theorem fst_flush_le (hl : Sorted l) (hwin : ∀ a ∈ l, InWindow rcv a) :
    (flush rcv l).1 ≤ rcv + 2 ^ 31 := by
  by_contra hgt
  have hcov : Covers l (rcv + 2 ^ 31) :=
    (covers_flush hl fun a ha => (hwin a ha).le).mpr (.inl ⟨by omega, by omega⟩)
  obtain ⟨a, ha, hk⟩ := hcov
  have := (hwin a ha).fin_le
  have := hk.2
  omega

theorem Waiting.flush (hl : Sorted l) (hwin : ∀ a ∈ l, InWindow rcv a) :
    Waiting (flush rcv l).1 (flush rcv l).2.2 := by
  intro a ha
  have hmem := (flush_suffix rcv l).subset ha
  have hlt := flush_lt hl (fun a ha => (hwin a ha).le) ha
  exact ⟨(hwin a hmem).mono (le_fst_flush rcv l) hlt.le, hlt⟩

theorem Delivered.recv (h : Delivered stream tp ps c) (hp : c.Admits p) :
    Delivered stream tp (p :: ps) (c.recv tp.rcvNxt stream p) := by
  obtain ⟨l, hq, hcov⟩ := h.queued
  have hs := hp.inWindow stream
  have hsorted := hq.sorted.add (p.part stream)
  have hwin := hq.waiting.add hq.sorted hs
  have hcarries := carries_add hq.sorted hq.carries (p.carries_part stream)
  have hle := le_fst_flush c.rcv (add (p.part stream) l)
  have hfin := fst_flush_le hsorted hwin
  have hholds : c.tp.Holds tp.rcvNxt tp.soRcv c.rcv ((range c.rcv).map stream) l :=
    ⟨h.rcvNxt, hq.tSegq, h.established, h.soRcv⟩
  have hnext := hholds.tcpReass hq.sorted hq.waiting hs p.urp rfl
  rw [data_flush hcarries, p.length_part] at hnext
  have hrcv : (c.recv tp.rcvNxt stream p).rcv = (flush c.rcv (add (p.part stream) l)).1 := by
    have hmove := hnext.rcvNxt
    rw [Conn.recv, hmove, h.rcvNxt]
    simp only
    rw [toNat_seqAt_sub hle (by omega)]
    omega
  refine ⟨⟨_, ⟨hnext.tSegq, hsorted.flush _, fun a ha => ?_, ?_⟩, fun k => ?_⟩, ?_, ?_,
    hnext.established⟩
  · exact hcarries a ((flush_suffix _ _).subset ha)
  · rw [hrcv]
    exact Waiting.flush hsorted hwin
  · rw [hrcv, received_cons stream, hcov]
    have hflush := covers_flush (k := k) hsorted fun a ha => (hwin a ha).le
    have hadd := covers_add (s := p.part stream) (k := k) hq.sorted
    rw [hadd] at hflush
    constructor
    · rintro (hk | hk | hk)
      · exact (hflush.mp (.inl hk)).imp_left And.right
      · exact .inl (hk.trans_le hle)
      · exact (hflush.mp (.inr hk)).imp_left And.right
    · intro hk
      by_cases hlt : k < c.rcv
      · exact .inr (.inl hlt)
      · have := hflush.mpr (hk.imp_left fun hk => ⟨Nat.le_of_not_lt hlt, hk⟩)
        exact this.imp_right .inr
  · rw [hrcv]
    exact hnext.rcvNxt
  · rw [hrcv]
    exact hnext.soRcv

theorem Run.delivered (hstate : tcpsHaveestablished tp.tState) (hq : tp.tSegq = [])
    (h : Run stream tp ps c) : Delivered stream tp ps c := by
  induction h with
  | start =>
    refine ⟨⟨[], ⟨hq, Pairwise.nil, by simp, by simp [Waiting]⟩, ?_⟩, ?_, ?_, hstate⟩
    · simp [Received, Covers]
    · rw [seqAt_zero]
    · simp [Sockbuf.deliver, sbappendstream]
  | recv _ hp ih => exact ih.recv hp

/-- The queue holds what came early, `rcv_nxt` is the first position that is missing, and the user
has got the stream up to it, unless the socket takes no more data. -/
theorem tcp_reass_delivers (stream : Stream) (tp : Tcpcb) (ps : List Piece) (c : Conn)
    (hstate : tcpsHaveestablished tp.tState) (hq : tp.tSegq = []) (h : Run stream tp ps c) :
    (∃ l, Queued stream tp.rcvNxt c l ∧ ∀ k, Received ps k ↔ k < c.rcv ∨ Covers l k) ∧
      c.tp.rcvNxt = seqAt tp.rcvNxt c.rcv ∧ (∀ k < c.rcv, Received ps k) ∧ ¬Received ps c.rcv ∧
      c.tp.soRcv.sbMb = if tp.soRcv.cantrcvmore then tp.soRcv.sbMb
        else tp.soRcv.sbMb ++ (List.range c.rcv).map stream := by
  have hd := h.delivered hstate hq
  obtain ⟨l, hl, hcov⟩ := hd.queued
  refine ⟨hd.queued, hd.rcvNxt, fun k hk => (hcov k).mpr (.inl hk), fun hmiss => ?_, ?_⟩
  · obtain ⟨a, ha, hk⟩ := ((hcov c.rcv).mp hmiss).resolve_left (Nat.lt_irrefl _)
    exact absurd hk.1 (Nat.not_le_of_lt (hl.waiting a ha).2)
  · rw [hd.soRcv, Sockbuf.deliver]
    split <;> rfl

def Tcpcb.idle (rcvNxt : Seq) (sbState : BitVec 16) : Tcpcb where
  tSegq := []
  tState := tcpsEstablished
  rcvNxt := rcvNxt
  tRcvoopack := 0
  soRcv := { sbState, sbMb := [] }

/-- The second half of four bytes comes first, and the numbers wrap between the halves. -/
theorem tcp_reass_delivers_wrapped :
    ∃ c, Run (BitVec.ofNat 8 ·) (Tcpcb.idle 0xfffffffe 0) [⟨0, 3, 0, 0⟩, ⟨2, 2, 1, 0⟩] c ∧
      c.tp.rcvNxt = seqAt 0xfffffffe c.rcv ∧ c.rcv = 4 ∧
      c.tp.soRcv.sbMb = [] ++ (List.range c.rcv).map (BitVec.ofNat 8 ·) := by
  have hrun : Run (BitVec.ofNat 8 ·) (Tcpcb.idle 0xfffffffe 0) [⟨0, 3, 0, 0⟩, ⟨2, 2, 1, 0⟩] _ :=
    .recv (.recv .start ⟨by decide, by decide, by decide, by decide⟩)
      ⟨by decide, by decide, by decide, by decide⟩
  obtain ⟨-, hnxt, -, -, hmb⟩ := tcp_reass_delivers _ _ _ _ (by decide) rfl hrun
  exact ⟨_, hrun, hnxt, by decide, hmb⟩

/-- A socket that is shut down for reading drops the byte that `rcv_nxt` counts. -/
theorem tcp_reass_cantrcvmore :
    ∃ c, Run (fun _ => 7) (Tcpcb.idle 0 ssCantrcvmore) [⟨0, 1, 0, 0⟩] c ∧ c.rcv = 1 ∧
      c.tp.soRcv.sbMb ≠ (Tcpcb.idle 0 ssCantrcvmore).soRcv.sbMb ++
        (List.range c.rcv).map fun _ => 7 :=
  ⟨_, .recv .start ⟨by decide, by decide, by decide, by decide⟩, by decide, by decide⟩

end Mbsd.Netinet.TcpInput
