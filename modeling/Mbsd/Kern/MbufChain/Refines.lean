import Mbsd.Kern.MbufChain.Copyback
import Mbsd.Kern.MbufChain.Copym
import Mbsd.Kern.MbufChain.Makespace
import Mbsd.Kern.MbufChain.Pullup

/-! The operations on mbuf chains against operations on byte strings. -/

namespace Mbsd.Kern.MbufChain

open Lib.Run List Option

variable {s s' : Mem × List (List Mbuf)}

/-- A call on a chain, with its arguments.  `m_copyback` is called with any buffer of `len` bytes. -/
inductive Op
  | copym (off len : Nat)
  | copydata (off len : Nat)
  | copyback (off len : Nat)
  | cat (n : List Mbuf)
  | adj (reqLen : Int)
  | prepend (len : Nat)
  | pullup (len : Nat)
  | split (len0 : Nat)
  | makespace (skip hlen : Nat)

def Op.InRange (mem : Mem) (ms : List Mbuf) : Op → Prop
  | .copym off len => 0 < len ∧ Served ms off len
  | .copydata off len => 0 < len ∧ off + len ≤ total ms
  | .copyback _ len => 0 < len
  | .cat n => Wf mem (ms ++ n)
  | .adj _ => True
  | .prepend len => 0 < len ∧ len ≤ mhlen
  | .pullup len => 0 < len ∧ len ≤ total ms
  | .split len0 => len0 ≤ total ms
  | .makespace skip hlen => (hdr ms).isSome ∧ skip ≤ total ms ∧ 0 < hlen ∧ hlen < mhlen

/-- No request for space is more than the pools serve; see `Op.Bounded`. -/
def Op.Allocates (mem : Mem) (ms : List Mbuf) : Op → Prop
  | .copyback off len =>
    ∀ cp : List Byte, cp.length = len → mCopyback mem ms off cp ≠ .error .nospace
  | .pullup len => mPullup mem ms len ≠ .error .nospace
  | .makespace skip hlen => mMakespace mem ms skip hlen ≠ .error .nospace
  | _ => True

theorem mtodAdj_lt (mem : Mem) (m : Mbuf) : mtodAdj mem m < sizeofLong := by
  rw [mtodAdj]
  split <;> exact Nat.mod_lt _ (by decide)

/-- The space that the call asks for is not too much for the pools. -/
def Serves {α : Type} (x : Except Fault α) : Prop := x ≠ .error .nospace

namespace Serves

variable {α β : Type} {x y : Except Fault α} {f : α → Except Fault β} {P : Prop} [Decidable P]
  {e : Fault} {mem : Mem} {m : Mbuf} {ms : List Mbuf} {l : List Byte} {last : Bool}
  {p j off len limit space : Nat}

theorem ok {a : α} : Serves (.ok a) := fun h => by cases h

theorem error (he : e ≠ .nospace) : Serves (.error e : Except Fault α) :=
  fun h => he (Except.error.inj h)

theorem exists_of_bind {b : β} (h : x >>= f = .ok b) : ∃ a, x = .ok a ∧ f a = .ok b := by
  cases x with
  | error e => cases h
  | ok a => exact ⟨a, rfl, h⟩

theorem bind (hx : Serves x) (hf : ∀ a, x = .ok a → Serves (f a)) : Serves (x >>= f) := by
  cases x with
  | error e => exact .error fun he => hx (congrArg _ he)
  | ok a => exact hf a rfl

theorem ite (hx : P → Serves x) (hy : ¬P → Serves y) : Serves (if P then x else y) := by
  split
  · exact hx ‹_›
  · exact hy ‹_›

theorem ensure (he : e ≠ .nospace) : Serves (ensure P e) := .ite (fun _ => .ok) fun _ => .error he

theorem mRead : Serves (mRead mem m p len) := .bind (.ensure (by decide)) fun _ _ => .ok

theorem mWrite : Serves (mWrite mem m p l) := .bind (.ensure (by decide)) fun _ _ => .ok

theorem mLeadingspace : Serves (mLeadingspace mem m) :=
  .ite (fun _ => .ok) fun _ => .bind (.ensure (by decide)) fun _ _ => .ok

theorem mTrailingspace : Serves (mTrailingspace mem m) :=
  .ite (fun _ => .ok) fun _ => .bind (.ensure (by decide)) fun _ _ => .ok

theorem slide : Serves (slide mem m p j len) :=
  .ite (fun _ => .ok) fun _ => .bind .mRead fun _ _ => .mWrite

theorem mGetl (h : space ≤ maxmclbytes) : Serves (mGetl mem limit space) := by
  rw [MbufChain.mGetl, mClget]
  cases hpool : mClpool space with
  | none => exact absurd h (by simpa using find?_eq_none.mp hpool maxmclbytes (by decide))
  | some size => split <;> exact .ok

theorem fillOne : Serves (fillOne mem m last off l) :=
  .bind (.ite (fun _ => .bind .mTrailingspace fun _ _ => .ok) fun _ => .ok) fun _ _ =>
    .bind .mWrite fun _ _ => .ok

theorem length_fillOne {r : Mem × Mbuf × List Byte}
    (h : MbufChain.fillOne mem m last off l = .ok r) : r.2.2.length ≤ l.length := by
  obtain ⟨_, -, h⟩ := exists_of_bind h
  obtain ⟨_, -, h⟩ := exists_of_bind h
  cases h
  exact length_drop ▸ Nat.sub_le _ _

theorem fill (h : l.length ≤ maxmclbytes) : Serves (fill mem ms off l) := by
  induction ms generalizing mem off l with
  | nil => exact .error (by decide)
  | cons m rest ih =>
    cases rest with
    | nil =>
      exact .ite (fun _ => .ok) fun _ => .bind .fillOne fun r hr => .ite (fun _ => .ok) fun _ =>
        .bind (.mGetl ((length_fillOne hr).trans h)) fun _ _ => .bind .fillOne fun _ _ => .ok
    | cons m' rest =>
      exact .ite (fun _ => .ok) fun _ => .bind .fillOne fun r hr => .ite (fun _ => .ok) fun _ =>
        .bind (ih ((length_fillOne hr).trans h)) fun _ _ => .ok

theorem copybackFrom (h : off - total ms + l.length ≤ maxmclbytes) :
    Serves (copybackFrom mem ms off l) := by
  induction ms generalizing off with
  | nil => exact .error (by decide)
  | cons m rest ih =>
    rw [total_cons] at h
    cases rest with
    | nil =>
      rw [total_nil] at h
      exact .ite (fun _ => .bind (.mGetl (by omega)) fun _ _ => .bind .mWrite fun _ _ =>
        .bind (.fill (by omega)) fun _ _ => .ok) fun _ => .fill (by omega)
    | cons m' rest =>
      exact .ite (fun _ => .bind (ih (by omega)) fun _ _ => .ok) fun _ => .fill (by omega)

theorem mPullupLoop (ms : List Mbuf) (m0 : Mbuf) : Serves (mPullupLoop mem m0 ms len) := by
  induction ms generalizing mem m0 len with
  | nil => exact .error (by decide)
  | cons m ms ih =>
    exact .bind .mRead fun _ _ => .bind .mWrite fun _ _ => .ite (fun _ => .ok) fun _ =>
      .ite (fun _ => .ok) fun _ => ih _

theorem mPullupTail {m0 : Mbuf} (h : j + len ≤ maxmclbytes) :
    Serves (mPullupTail mem m0 m ms j len) := by
  refine .ite (fun _ => .bind ?_ fun _ _ => .bind (mPullupLoop _ _) fun _ _ => .ok) fun _ =>
    .bind ?_ fun _ _ => .bind (mPullupLoop _ _) fun _ _ => .ok
  · exact .ite (fun _ => .ok) fun _ =>
      .ite (fun _ => .bind .mRead fun _ _ => .bind .mWrite fun _ _ => .ok) fun _ => .ok
  · exact .bind (ensure_ok h _ ▸ .ok) fun _ _ => .bind (.mGetl h) fun _ _ => .ok

theorem spaceAt (h : m.len - j ≤ maxmclbytes) : Serves (spaceAt mem m j len) := by
  refine .bind .mLeadingspace fun _ _ => .ite (fun _ => .bind .slide fun _ _ => .ok) fun _ =>
    .bind .mTrailingspace fun _ _ => .ite (fun _ => .bind ?_ fun _ _ => .bind .mTrailingspace
      fun _ _ => .ite (fun _ => .ok) fun _ => .ok) fun _ => .bind .slide fun _ _ => .ok
  exact .ite (fun _ => .bind (.mGetl h) fun _ _ => .bind .mRead fun _ _ => .bind .mWrite fun _ _ =>
    .ok) fun _ => .ok

end Serves

/-- What the call may ask room for is not too much for the pools. -/
def Op.Bounded (ms : List Mbuf) : Op → Prop
  | .copyback off len => off - total ms + len ≤ maxmclbytes
  | .pullup len => len + sizeofLong ≤ maxmclbytes
  | .makespace skip _ =>
    ∀ pre m post off, mSeek ms skip = some (pre, m, post, off) → m.len - off ≤ maxmclbytes
  | _ => True

theorem Op.Bounded.allocates {mem : Mem} {ms : List Mbuf} {op : Op} (h : op.Bounded ms) :
    op.Allocates mem ms := by
  cases op with
  | copyback off len =>
    intro cp hcp
    cases ms with
    | nil => exact Serves.ok
    | cons m rest => exact Serves.bind (.copybackFrom (hcp ▸ h)) fun _ _ => .ok
  | pullup len =>
    cases ms with
    | nil => exact Serves.error (by decide)
    | cons m0 rest =>
      have hadj (mem : Mem) (m : Mbuf) : mtodAdj mem m + len ≤ maxmclbytes := by
        rw [Nat.add_comm]
        exact Nat.le_trans (Nat.add_le_add_left (Nat.le_of_lt (mtodAdj_lt mem m)) len) h
      refine Serves.ite (fun _ => .ok) fun _ => ?_
      split
      · exact Serves.error (by decide)
      · split
        · exact .mPullupTail (hadj _ _)
        · exact .mPullupTail (hadj _ _)
  | makespace skip hlen =>
    refine Serves.bind (.ensure (by decide)) fun _ _ => .bind (.ensure (by decide)) fun _ _ => ?_
    cases hseek : mSeek ms skip with
    | none => exact Serves.error (by decide)
    | some r => exact .bind (.spaceAt (h _ _ _ _ hseek)) fun _ _ => .ok
  | _ => trivial

def Headed (ms ms' : List Mbuf) : Prop := (hdr ms).isSome → hdr ms' = some (total ms' : Int)

/-- The call returns, what it returns is well formed, and it stands for what the operation on byte
strings gives. -/
def Op.Refines (mem : Mem) (ms : List Mbuf) : Op → Prop
  | .copym off len => ∃ mem' top, mCopym mem ms off len = .ok (mem', top) ∧ Wf mem' (ms ++ top) ∧
    view mem' ms = view mem ms ∧
    view mem' top =
      (if len = mCopyall then (view mem ms).drop off else ((view mem ms).drop off).take len) ∧
    (off = 0 → Headed ms top)
  | .copydata off len => mCopydata mem ms off len = .ok (((view mem ms).drop off).take len)
  | .copyback off len => ∀ cp : List Byte, cp.length = len →
    ∃ mem' ms', mCopyback mem ms off cp = .ok (mem', ms') ∧ Wf mem' ms' ∧
      view mem' ms' = overwrite (view mem ms ++ List.replicate (off - total ms) 0) off cp ∧
      Headed ms ms'
  | .cat n => ∃ mem' ms', mCat mem ms n = .ok (mem', ms') ∧ Wf mem' ms' ∧
    view mem' ms' = view mem ms ++ view mem n ∧ hdr ms' = hdr ms
  | .adj reqLen => Wf mem (mAdj ms reqLen) ∧
    view mem (mAdj ms reqLen) =
      (if reqLen ≥ 0 then (view mem ms).drop reqLen.toNat
      else (view mem ms).take (total ms - (-reqLen).toNat)) ∧
    Headed ms (mAdj ms reqLen)
  | .prepend len => ∃ ms', mPrepend mem ms len = .ok ms' ∧ Wf mem ms' ∧
    (∃ l : List Byte, l.length = len ∧ view mem ms' = l ++ view mem ms) ∧ Headed ms ms'
  | .pullup len => ∃ mem' m rest, mPullup mem ms len = .ok (mem', m :: rest) ∧
    Wf mem' (m :: rest) ∧ view mem' (m :: rest) = view mem ms ∧ len ≤ m.len ∧
    Headed ms (m :: rest)
  | .split len0 => ∀ depth ≥ 2, ∃ mem' front back,
    mSplit mem depth ms len0 = .ok (mem', front, back) ∧ Wf mem' (front ++ back) ∧
    view mem' front = (view mem ms).take len0 ∧ view mem' back = (view mem ms).drop len0 ∧
    Headed ms front ∧ Headed ms back
  | .makespace skip hlen => ∃ mem' ms' i off,
    mMakespace mem ms skip hlen = .ok (mem', ms', i, off) ∧ Wf mem' ms' ∧
    (∃ l : List Byte, l.length = hlen ∧
      view mem' ms' = (view mem ms).take skip ++ l ++ (view mem ms).drop skip) ∧
    (∃ x, ms'[i]? = some x ∧ total (ms'.take i) + off = skip ∧ off + hlen ≤ x.len) ∧
    Headed ms ms'

/-- The copy of a header has no room for the data of a plain mbuf behind it, a length above
`M_COPYALL` may come to be `M_COPYALL` on the way, and `m_copyback` writes to shared storage. -/
def Op.Meets (ms : List Mbuf) : Op → Prop
  | .copym off len => ¬HeaderSpills ms off len ∧ ¬Overcopies ms off len
  | .copyback off len => Unshared ms off len
  | _ => True

variable {mem mem' : Mem} {ms ms' : List Mbuf} {op : Op} {l : List Byte} {off len : Nat}

theorem HdrOk.headed_eq (h : HdrOk ms) (hhdr : hdr ms' = hdr ms) (htotal : total ms' = total ms) :
    Headed ms ms' := fun hsome => by
  obtain ⟨k, hk⟩ := isSome_iff_exists.1 hsome
  rw [hhdr, hk, h k hk, htotal]

theorem HdrOk.headed_map {f : Int → Int} (h : HdrOk ms) (hhdr : hdr ms' = (hdr ms).map f)
    (htotal : f (total ms) = total ms') : Headed ms ms' := fun hsome => by
  obtain ⟨k, hk⟩ := isSome_iff_exists.1 hsome
  rw [hhdr, hk, map_some, h k hk, htotal]

theorem total_of_view (h : view mem' ms' = l) : total ms' = l.length := by
  rw [← h, length_view]

section

variable (hwf : Wf mem ms) (hne : ms ≠ [])

include hwf hne

theorem refines_copym (hhdr : HdrOk ms) (hlen : 0 < len)
    (hserved : Served ms off len) (hspill : ¬HeaderSpills ms off len)
    (hover : ¬Overcopies ms off len) : (Op.copym off len).Refines mem ms := by
  obtain ⟨mem', top, hrun, hlocal, hold, hall, htake, htop⟩ :=
    mCopym_ok hwf hne hserved (by omega) hspill
  have hview : view mem' top = if len = mCopyall then (view mem ms).drop off
      else ((view mem ms).drop off).take len := by
    split
    next h => exact hall (.inl h)
    next h => exact htake h hover
  refine ⟨mem', top, hrun, hlocal.wf hwf, hold, hview, fun hoff => ?_⟩
  rw [if_pos hoff] at htop
  have htotal := total_of_view hview
  split at htop
  next h =>
    rw [if_pos h, hoff, drop_zero, length_view] at htotal
    exact hhdr.headed_eq htop htotal
  next h =>
    rw [if_neg h, hoff, drop_zero, length_take, length_view] at htotal
    have hle : len ≤ total ms := by
      rw [Served, hoff] at hserved
      omega
    exact hhdr.headed_map htop (by omega)

theorem not_refines_copym (hlen : 0 < len)
    (hserved : Served ms off len) (h : HeaderSpills ms off len ∨ Overcopies ms off len) :
    ¬(Op.copym off len).Refines mem ms := by
  rintro ⟨mem', top, hrun, -, -, hview, -⟩
  by_cases hspill : HeaderSpills ms off len
  · have herr := mCopym_spills hwf hne hserved (by omega) hspill
    rw [hrun] at herr
    cases herr
  · have hover := h.resolve_left hspill
    obtain ⟨mem1, top1, hrun1, -, -, hall, -⟩ := mCopym_ok hwf hne hserved (by omega) hspill
    rw [hrun] at hrun1
    cases hrun1
    have hne' : len ≠ mCopyall := Nat.ne_of_gt hover.1
    have hlong := hover.2.1
    rw [hall (.inr hover), if_neg hne'] at hview
    have hlength := congrArg length hview
    rw [length_take, length_drop, length_view] at hlength
    omega

theorem refines_copyback (hhdr : HdrOk ms) (hlen : 0 < len)
    (h : (Op.copyback off len).Allocates mem ms) (hun : Unshared ms off len) :
    (Op.copyback off len).Refines mem ms := fun cp hcp => by
  have hcp' : cp ≠ [] := ne_nil_of_length_pos (by omega)
  rw [← hcp] at hun
  obtain ⟨mem', ms', hrun, hwf', -, hview, hset⟩ := mCopyback_ok hwf hne hcp' (h cp hcp)
  refine ⟨mem', ms', hrun, hwf', hview hun, hhdr.headed_map hset ?_⟩
  have htotal := total_of_view (hview hun)
  simp only [overwrite, length_append, length_take, length_drop, length_view,
    length_replicate] at htotal
  split <;> omega

end

theorem refines_adj (hwf : Wf mem ms) (hhdr : HdrOk ms) (reqLen : Int) :
    (Op.adj reqLen).Refines mem ms := by
  refine ⟨(local_mAdj ms reqLen).wf hwf, ?_, fun hsome => ?_⟩
  · rw [mAdj_view, UipcMbuf.mAdj, length_view]
  · have hkept : (hdr (mAdj ms reqLen)).isSome := by
      rwa [isSome_hdr_mAdj]
    obtain ⟨k, hk⟩ := isSome_iff_exists.1 hkept
    rw [hk, mAdj_hdr hhdr reqLen k hk]

theorem refines_split (hwf : Wf mem ms) (hne : ms ≠ []) (hhdr : HdrOk ms) (hlen : len ≤ total ms) :
    (Op.split len).Refines mem ms := fun depth hdepth => by
  obtain ⟨m0, rest, rfl⟩ := exists_cons_of_ne_nil hne
  obtain ⟨depth, rfl⟩ := Nat.exists_eq_add_of_le' hdepth
  obtain ⟨mem', front, back, hrun, hlocal, hfront, hback, hhdr1, hhdr2⟩ := mSplit_ok hwf hlen depth
  refine ⟨mem', front, back, hrun, hlocal.wf hwf, hfront, hback, hhdr.headed_map hhdr1 ?_,
    fun hsome => ?_⟩
  · rw [total_of_view hfront, length_take, length_view, Nat.min_eq_left hlen]
  · obtain ⟨k, hk⟩ := isSome_iff_exists.1 hsome
    rw [hhdr2 k hk, hhdr k hk, total_of_view hback, length_drop, length_view]
    congr 1
    omega

/-- All nine operations refine their operation on byte strings, but for two. -/
theorem mbuf_chain_refines (hwf : Wf mem ms) (hne : ms ≠ []) (hhdr : HdrOk ms)
    (hrange : op.InRange mem ms) (halloc : op.Allocates mem ms) :
    op.Refines mem ms ↔ op.Meets ms := by
  cases op with
  | copym off len =>
    refine ⟨fun h => ?_, fun h => refines_copym hwf hne hhdr hrange.1 hrange.2 h.1 h.2⟩
    have hnot := mt (not_refines_copym hwf hne hrange.1 hrange.2) (not_not_intro h)
    exact not_or.1 hnot
  | copydata off len =>
    exact iff_of_true (mCopydata_ok hwf.inside hne hrange.2) trivial
  | copyback off len =>
    refine ⟨fun h => ?_, refines_copyback hwf hne hhdr hrange halloc⟩
    by_contra hshared
    obtain ⟨cp, hcp, hwrong⟩ := mCopyback_shared hwf hne hrange hshared halloc
    obtain ⟨mem', ms', hrun, -, hview, -⟩ := h cp hcp
    exact hwrong mem' ms' hrun hview
  | cat n =>
    obtain ⟨mem', ms', hrun, hlocal, hview, hkept⟩ := mCat_ok hne hrange
    exact iff_of_true ⟨mem', ms', hrun, hlocal.wf hrange, hview, hkept⟩ trivial
  | adj reqLen => exact iff_of_true (refines_adj hwf hhdr reqLen) trivial
  | prepend len =>
    obtain ⟨m, rest, rfl⟩ := exists_cons_of_ne_nil hne
    obtain ⟨ms', hrun, hlocal, ⟨l, hl, hview⟩, hset⟩ := mPrepend_ok hwf.head hrange.2 rest
    refine iff_of_true ⟨ms', hrun, hlocal.wf hwf, ⟨l, hl, hview⟩, hhdr.headed_map hset ?_⟩ trivial
    rw [total_of_view hview, length_append, length_view, hl]
    push_cast
    omega
  | pullup len =>
    obtain ⟨m, rest, rfl⟩ := exists_cons_of_ne_nil hne
    obtain ⟨mem', ms', hrun, hlocal, hview, ⟨m', rest', rfl, hle⟩, hkept⟩ :=
      mPullup_ok hwf hrange.2 halloc
    refine iff_of_true ⟨mem', m', rest', hrun, hlocal.wf hwf, hview, hle,
      hhdr.headed_eq hkept ?_⟩ trivial
    rw [total_of_view hview, length_view]
  | split len0 => exact iff_of_true (refines_split hwf hne hhdr hrange) trivial
  | makespace skip hlen =>
    obtain ⟨hsome, hskip, hpos, hmax⟩ := hrange
    obtain ⟨mem', ms', i, off, hrun, hlocal, ⟨l, hl, hview⟩, hplace, hset⟩ :=
      mMakespace_ok hwf hsome hskip hpos hmax halloc
    refine iff_of_true ⟨mem', ms', i, off, hrun, hlocal.wf hwf, ⟨l, hl, hview⟩, hplace,
      hhdr.headed_map hset ?_⟩ trivial
    rw [total_of_view hview]
    simp only [length_append, length_take, length_drop, length_view, hl]
    push_cast
    omega

section Trimmed

def noClusters : Mem := ⟨fun _ => ⟨0, 0, fun _ => 0, 0⟩, 0, fun _ => 0, 0⟩

def packet : List Mbuf :=
  [⟨none, false, some 368, fun _ => 0, 80, 144⟩, ⟨none, false, none, fun _ => 0, 0, 224⟩]

def trimmed : List Mbuf :=
  [⟨none, false, some 224, fun _ => 0, 224, 0⟩, ⟨none, false, none, fun _ => 0, 0, 224⟩]

theorem wf_trimmed : Wf noClusters trimmed where
  unborn _ _ := rfl
  shares _ := Nat.le_refl 0
  inside m hm := by
    simp only [trimmed, mem_cons, not_mem_nil, or_false] at hm
    rcases hm with rfl | rfl
    · exact ⟨by decide, by decide⟩
    · exact ⟨by decide, by decide⟩

theorem hdrOk_trimmed : HdrOk trimmed := fun h hh => by
  cases hh
  rfl

theorem headerSpills_trimmed : HeaderSpills trimmed 0 mCopyall :=
  ⟨rfl, rfl, ⟨none, false, none, fun _ => 0, 0, 224⟩, [], 0, rfl, rfl, rfl, by decide⟩

theorem served_trimmed : Served trimmed 0 mCopyall := .inr ⟨rfl, by decide⟩

theorem mbuf_chain_refines_trimmed : (Op.split 100).Refines noClusters trimmed ∧
    ((Op.copym 0 mCopyall).Refines noClusters trimmed ↔ (Op.copym 0 mCopyall).Meets trimmed) :=
  ⟨Iff.mpr (mbuf_chain_refines wf_trimmed (cons_ne_nil _ _) hdrOk_trimmed
      (show 100 ≤ total trimmed by decide) trivial) trivial,
    mbuf_chain_refines wf_trimmed (cons_ne_nil _ _) hdrOk_trimmed ⟨by decide, served_trimmed⟩
      trivial⟩

/-- The copy of a packet whose first mbuf has been trimmed away runs over the end of an mbuf. -/
theorem copym_trimmed_overrun : mAdj packet 144 = trimmed ∧ Wf noClusters trimmed ∧ HdrOk trimmed ∧
      (Op.copym 0 mCopyall).InRange noClusters trimmed ∧
      mCopym noClusters trimmed 0 mCopyall = .error .overrun ∧
      ¬(Op.copym 0 mCopyall).Refines noClusters trimmed := by
  have herr : mCopym noClusters trimmed 0 mCopyall = .error .overrun :=
    mCopym_spills wf_trimmed (cons_ne_nil _ _) served_trimmed (by decide) headerSpills_trimmed
  refine ⟨rfl, wf_trimmed, hdrOk_trimmed, ⟨by decide, served_trimmed⟩, herr, ?_⟩
  rintro ⟨mem', top, hrun, -⟩
  rw [herr] at hrun
  cases hrun

end Trimmed

/-! Any number of packets that share their storage, over any calls. -/

/-- The calls that take chains and leave chains.  `m_copyback`, which writes to storage that other
chains may have, is not among them. -/
inductive ChainCall
  | gethdr
  | copym (off len : Nat)
  | cat
  | adj (reqLen : Int)
  | prepend (len : Nat)
  | pullup (len : Nat)
  | split (len0 : Nat)
  | makespace (skip hlen : Nat)
  | freem

/-- A call in its range that returns, with the chains that it takes and those that it leaves. -/
inductive ChainCall.Exec (mem : Mem) :
    ChainCall → List (List Mbuf) → Mem → List (List Mbuf) → Prop
  | gethdr : Exec mem .gethdr [] mem [[{ mGethdr mem with len := 0 }]]
  | copym {m n : List Mbuf} {mem' : Mem} {off len : Nat} : 0 < len → m ≠ [] → Served m off len →
    mCopym mem m off len = .ok (mem', n) → Exec mem (.copym off len) [m] mem' [m, n]
  | cat {m n r : List Mbuf} {mem' : Mem} : m ≠ [] → mCat mem m n = .ok (mem', r) →
    Exec mem .cat [m, n] mem' [r]
  | adj {m : List Mbuf} {reqLen : Int} : Exec mem (.adj reqLen) [m] mem [mAdj m reqLen]
  | prepend {m r : List Mbuf} {len : Nat} : len ≤ mhlen → m ≠ [] → mPrepend mem m len = .ok r →
    Exec mem (.prepend len) [m] mem [r]
  | pullup {m r : List Mbuf} {mem' : Mem} {len : Nat} : m ≠ [] → len ≤ total m →
    mPullup mem m len = .ok (mem', r) → Exec mem (.pullup len) [m] mem' [r]
  | split {m n n' : List Mbuf} {mem' : Mem} {len0 : Nat} : m ≠ [] → len0 ≤ total m →
    mSplit mem 2 m len0 = .ok (mem', n, n') → Exec mem (.split len0) [m] mem' [n, n']
  | makespace {m r : List Mbuf} {mem' : Mem} {skip hlen : Nat} {place : Nat × Nat} :
    (hdr m).isSome → skip ≤ total m → 0 < hlen → hlen < mhlen →
    mMakespace mem m skip hlen = .ok (mem', r, place) → Exec mem (.makespace skip hlen) [m] mem' [r]
  | freem {m : List Mbuf} : Exec mem .freem [m] (m.foldl mFree mem) []

/-- What the call does to byte strings. -/
inductive ChainCall.Means : ChainCall → List (List Byte) → List (List Byte) → Prop
  | gethdr : Means .gethdr [] [[]]
  | copym {s : List Byte} {off len : Nat} :
    Means (.copym off len) [s] [s, (s.drop off).take len]
  | copyall {s : List Byte} {off len : Nat} : mCopyall ≤ len →
    Means (.copym off len) [s] [s, s.drop off]
  | cat {s t : List Byte} : Means .cat [s, t] [s ++ t]
  | adj {s : List Byte} {reqLen : Int} : Means (.adj reqLen) [s] [UipcMbuf.mAdj s reqLen]
  | prepend {s l : List Byte} : Means (.prepend l.length) [s] [l ++ s]
  | pullup {s : List Byte} {len : Nat} : Means (.pullup len) [s] [s]
  | split {s : List Byte} {len0 : Nat} : Means (.split len0) [s] [s.take len0, s.drop len0]
  | makespace {s l : List Byte} {skip : Nat} :
    Means (.makespace skip l.length) [s] [s.take skip ++ l ++ s.drop skip]
  | freem {s : List Byte} : Means .freem [s] []

variable {mem mem' : Mem} {call : ChainCall} {taken left : List (List Mbuf)}

theorem local_mFreem (mem : Mem) (ms : List Mbuf) : Local mem ms (ms.foldl mFree mem) [] := by
  induction ms generalizing mem with
  | nil => exact Local.refl
  | cons m ms ih => exact ((local_mFree mem m).frame ms).trans (ih _)

/-- A call touches only the chains that it takes, and it leaves what it does to byte strings. -/
theorem ChainCall.Exec.means (h : call.Exec mem taken mem' left) (hwf : Wf mem taken.flatten) :
    Local mem taken.flatten mem' left.flatten ∧
      call.Means (taken.map (view mem)) (left.map (view mem')) := by
  cases h <;> simp only [flatten_cons, flatten_nil, append_nil, map_cons, map_nil] at hwf ⊢
  case gethdr => exact ⟨local_new rfl ⟨Nat.le_refl _, Nat.le_add_right _ _⟩, .gethdr⟩
  case copym m n off len hlen hne hserved hrun =>
    have hspill : ¬HeaderSpills m off len := fun hspill => by
      rw [mCopym_spills hwf hne hserved (Nat.ne_of_gt hlen) hspill] at hrun
      cases hrun
    obtain ⟨_, _, hrun', hlocal, hold, hall, htake, -⟩ :=
      mCopym_ok hwf hne hserved (Nat.ne_of_gt hlen) hspill
    cases hrun.symm.trans hrun'
    rw [hold]
    refine ⟨hlocal, ?_⟩
    by_cases hwhole : len = mCopyall ∨ Overcopies m off len
    · rw [hall hwhole]
      exact .copyall (hwhole.elim Eq.ge fun hover => Nat.le_of_lt hover.1)
    · rw [htake (not_or.mp hwhole).1 (not_or.mp hwhole).2]
      exact .copym
  case cat m n r hne hrun =>
    obtain ⟨_, _, hrun', hlocal, hview, -⟩ := mCat_ok hne hwf
    cases hrun.symm.trans hrun'
    rw [hview]
    exact ⟨hlocal, .cat⟩
  case adj m reqLen =>
    rw [mAdj_view]
    exact ⟨local_mAdj m reqLen, .adj⟩
  case prepend m r len hlen hne hrun =>
    obtain ⟨m0, rest, rfl⟩ := exists_cons_of_ne_nil hne
    obtain ⟨_, hrun', hlocal, ⟨l, rfl, hview⟩, -⟩ := mPrepend_ok hwf.head hlen rest
    cases hrun.symm.trans hrun'
    rw [hview]
    exact ⟨hlocal, .prepend⟩
  case pullup m r len hne hle hrun =>
    obtain ⟨m0, rest, rfl⟩ := exists_cons_of_ne_nil hne
    obtain ⟨_, _, hrun', hlocal, hview, -⟩ := mPullup_ok hwf hle (by rw [hrun]; nofun)
    cases hrun.symm.trans hrun'
    rw [hview]
    exact ⟨hlocal, .pullup⟩
  case split m n n' len0 hne hle hrun =>
    obtain ⟨m0, rest, rfl⟩ := exists_cons_of_ne_nil hne
    obtain ⟨_, _, _, hrun', hlocal, hfront, hback, -⟩ := mSplit_ok hwf hle 0
    cases hrun.symm.trans hrun'
    rw [hfront, hback]
    exact ⟨hlocal, .split⟩
  case makespace m r skip hlen place hhdr hskip hpos hmax hrun =>
    obtain ⟨_, _, i, off, hrun', hlocal, ⟨l, rfl, hview⟩, -⟩ :=
      mMakespace_ok hwf hhdr hskip hpos hmax (by rw [hrun]; nofun)
    cases hrun.symm.trans hrun'
    rw [hview]
    exact ⟨hlocal, .makespace⟩
  case freem m => exact ⟨local_mFreem mem m, .freem⟩

/-- A call takes any packets out of those that there are, and puts back what it leaves. -/
def OnPackets (call : ChainCall) (s s' : Mem × List (List Mbuf)) : Prop :=
  ∃ taken left rest, s.2.Perm (taken ++ rest) ∧ call.Exec s.1 taken s'.1 left ∧ s'.2 = left ++ rest

def OnStrings (call : ChainCall) (ss ss' : List (List Byte)) : Prop :=
  ∃ taken left rest, ss.Perm (taken ++ rest) ∧ call.Means taken left ∧ ss' = left ++ rest

theorem OnPackets.onStrings (h : OnPackets call s s')
    (hwf : Wf s.1 s.2.flatten) :
    Wf s'.1 s'.2.flatten ∧ OnStrings call (s.2.map (view s.1)) (s'.2.map (view s'.1)) := by
  obtain ⟨taken, left, rest, hperm, hexec, hleft⟩ := h
  have hwf' : Wf s.1 (taken.flatten ++ rest.flatten) := by
    rw [← flatten_append]
    exact hwf.perm hperm.flatten
  obtain ⟨hlocal, hmeans⟩ := hexec.means hwf'.left
  have hrest : rest.map (view s'.1) = rest.map (view s.1) := map_congr_left fun ms hms =>
    view_congr fun m hm => (hlocal _ hwf').2 m (mem_flatten_of_mem hms hm)
  rw [hleft, flatten_append, map_append, hrest]
  exact ⟨hlocal.wf_frame _ hwf', _, _, _, map_append ▸ hperm.map _, hmeans, rfl⟩

/-- The steps of a run, one call after the other. -/
inductive Calls {σ : Type} (Step : ChainCall → σ → σ → Prop) : List ChainCall → σ → σ → Prop
  | nil {s : σ} : Calls Step [] s s
  | cons {call : ChainCall} {calls : List ChainCall} {s t u : σ} : Step call s t →
    Calls Step calls t u → Calls Step (call :: calls) s u

/-- All packets stay well formed, and a run does to them what it does to byte strings that have
nothing to do with each other, whatever storage the packets share. -/
theorem packets_refine {calls : List ChainCall}
    (h : Calls OnPackets calls s s') (hwf : Wf s.1 s.2.flatten) :
    Wf s'.1 s'.2.flatten ∧ Calls OnStrings calls (s.2.map (view s.1)) (s'.2.map (view s'.1)) := by
  induction h with
  | nil => exact ⟨hwf, .nil⟩
  | cons hstep _ ih =>
    obtain ⟨hwf', hstep'⟩ := hstep.onStrings hwf
    obtain ⟨hend, hcalls⟩ := ih hwf'
    exact ⟨hend, .cons hstep' hcalls⟩

def fresh : List Mbuf := [{ mGethdr noClusters with len := 0 }]

theorem packets_refine_freed :
    Calls OnStrings [.gethdr, .prepend 14, .gethdr, .cat, .adj (-4), .freem] [] [] := by
  obtain ⟨m, mem', r, hprepend, hcat⟩ : ∃ m mem' r, mPrepend noClusters fresh 14 = .ok m ∧
      mCat noClusters fresh m = .ok (mem', r) := ⟨_, _, _, rfl, rfl⟩
  have hget (rest : List (List Mbuf)) : OnPackets .gethdr (noClusters, rest)
      (noClusters, fresh :: rest) := ⟨[], [fresh], rest, .refl _, .gethdr, rfl⟩
  have hcalls : Calls OnPackets [.gethdr, .prepend 14, .gethdr, .cat, .adj (-4), .freem]
      (noClusters, []) ((mAdj r (-4)).foldl mFree mem', []) := by
    refine .cons (hget []) (.cons (t := (noClusters, [m])) ?_ (.cons (hget [m])
      (.cons (t := (mem', [r])) ?_ (.cons (t := (mem', [mAdj r (-4)])) ?_ (.cons ?_ .nil)))))
    · exact ⟨[fresh], [m], [], .refl _, .prepend (by decide) (cons_ne_nil _ _) hprepend, rfl⟩
    · exact ⟨[fresh, m], [r], [], .refl _, .cat (cons_ne_nil _ _) hcat, rfl⟩
    · exact ⟨[r], [mAdj r (-4)], [], .refl _, .adj, rfl⟩
    · exact ⟨[mAdj r (-4)], [], [], .refl _, .freem, rfl⟩
  exact (packets_refine hcalls ⟨fun _ _ => rfl, fun _ => Nat.le_refl 0, nofun⟩).2

end Mbsd.Kern.MbufChain
