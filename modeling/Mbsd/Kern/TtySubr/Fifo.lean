import Mbsd.Kern.TtySubr.Repr

/-! A clist is a bounded queue. -/

namespace Mbsd.Kern.TtySubr

open Lib.RingSlice List Option Nat TtySubr

variable {cc count cl fuel i k : Nat}

namespace Clist

variable {clp clp' : Clist} {q : Fifo} {f j : Nat}

section

variable (h : clp.Repr q)

include h

theorem getc_repr :
    ∃ clp', clp.step .getc = some ((q.step .getc).1, clp') ∧ clp'.Repr (q.step .getc).2 := by
  rw [Clist.step, getc, Fifo.step]
  cases hq : q.chars with
  | nil =>
    have hcc : clp.cCc = 0 := by rw [h.cCc, hq, length_nil]
    rw [if_pos hcc]
    exact ⟨clp, rfl, h⟩
  | cons x l =>
    have hne : q.chars ≠ [] := by simp [hq]
    have hlen : q.chars.length = l.length + 1 := by rw [hq, length_cons]
    have hcc : clp.cCc ≠ 0 := by
      rw [h.cCc]
      omega
    obtain ⟨f, hf⟩ := h.holds hne
    have hle := hf.le
    have hlt := hf.lt
    have hchar : clp.charAt f = charOf x := by
      have hslice := hf.slice
      rw [hlen, slice_cons hlt (by omega), hq] at hslice
      rw [charAt_eq, (cons.inj hslice).1]
    simp only [if_neg hcc, hf.cCf, bind_eq_bind, bind_some, hchar]
    refine ⟨_, rfl, ?_⟩
    have hdrop : (clp.takeAt f).Holds (wrap q.cap (f + 1)) { q with chars := q.chars.drop 1 } := by
      refine hf.drop (by omega) rfl rfl isSome_map rfl
        (congrArg some (bump_eq hf.cCe (by omega))) rfl fun i hi h1 => content_takeAt ?_
      have := wrap_ne f (show 0 < i by omega) (show i < q.cap by omega)
      rw [Nat.add_zero, wrap_of_lt hlt] at this
      exact this.symm
    rw [hq] at hdrop
    exact hdrop.reset

theorem Repr.le : q.chars.length ≤ q.cap := by
  by_cases hq : q.chars = []
  · simp [hq]
  · exact (h.holds hq).choose_spec.le

theorem Repr.full_iff : clp.cCc = clp.cCn ↔ q.free = 0 := by
  have hle := h.le
  rw [h.cCc, h.cCn, Fifo.free]
  omega

theorem putc_repr (hcap : 0 < q.cap) (c : CInt) :
    ∃ clp', clp.step (.putc c) = some ((q.step (.putc c)).1, clp') ∧
      clp'.Repr (q.step (.putc c)).2 := by
  rw [Clist.step, putc, Fifo.step]
  by_cases hfree : q.free = 0
  · rw [if_pos (h.full_iff.mpr hfree), if_pos hfree]
    exact ⟨clp, rfl, h⟩
  · obtain ⟨f, hf⟩ := h.start hcap
    have hlt : q.chars.length < q.cap := by
      rw [Fifo.free] at hfree
      omega
    have hcl := wrap_lt hf.lt (Nat.le_of_lt hlt)
    rw [if_neg (h.full_iff.not.mpr hfree), if_neg hfree]
    simp only [hf.cCl, bind_eq_bind, bind_some]
    refine ⟨_, rfl, ?_⟩
    have happ : (clp.start.putAt (wrap q.cap (f + q.chars.length)) c).Holds f
        { q with chars := q.chars ++ [(c.setWidth 8, q.quot && c &&& ttyQuote ≠ 0)] } := by
      refine hf.append hlt rfl rfl isSome_map rfl rfl
        (congrArg some (bump_eq hf.cCe hcl)) (fun i hi => content_putAt c (wrap_ne f hi hlt)) ?_
      rw [length_singleton, slice_one hcl, content_putAt_self, hf.cCq]
    exact happ.repr (by simp)

theorem unputc_repr :
    ∃ clp', clp.step .unputc = some ((q.step .unputc).1, clp') ∧ clp'.Repr (q.step .unputc).2 := by
  rw [Clist.step, unputc, Fifo.step]
  rcases eq_nil_or_concat q.chars with hq | ⟨l, x, hq⟩
  · have hcc : clp.cCc = 0 := by rw [h.cCc, hq, length_nil]
    rw [if_pos hcc, hq]
    exact ⟨clp, rfl, h⟩
  · have hlen : q.chars.length = l.length + 1 := by rw [hq, length_concat]
    have hcc : clp.cCc ≠ 0 := by
      rw [h.cCc]
      omega
    obtain ⟨f, hf⟩ := h.holds (by simp [hq])
    have hle := hf.le
    have hlt := hf.lt
    have hsplit : slice clp.content q.cap f l.length = l ∧
        clp.content (wrap q.cap (f + l.length)) = x := by
      have hslice := hf.slice
      rw [hlen, slice_snoc, hq, concat_eq_append] at hslice
      have := append_inj' hslice rfl
      exact ⟨this.1, singleton_inj.mp this.2⟩
    have hback : (if wrap q.cap (f + q.chars.length) = 0 then clp.cCe - 1
        else wrap q.cap (f + q.chars.length) - 1) = wrap q.cap (f + l.length) := by
      rw [hlen, hf.cCe]
      simp only [wrap]
      split <;> split <;> split <;> omega
    have hchar : clp.charAt (wrap q.cap (f + l.length)) = charOf x := by rw [charAt_eq, hsplit.2]
    simp only [if_neg hcc, hf.cCl, bind_eq_bind, bind_some, hback, hchar]
    simp only [hq, concat_eq_append, getLast?_concat, dropLast_concat]
    refine ⟨_, rfl, Holds.reset (f := f) ?_⟩
    exact {
      cCn := hf.cCn
      cCe := hf.cCe
      cCq := isSome_map.trans hf.cCq
      cCc := by simp only [takeBack, hf.cCc, hlen, Nat.add_sub_cancel]
      le := (show l.length ≤ q.cap by omega)
      lt := hlt
      cCf := hf.cCf
      cCl := rfl
      slice := by
        rw [slice_congr fun i (hi : i < l.length) =>
          content_takeBack (wrap_ne f hi (by omega))]
        exact hsplit.1 }

theorem Repr.reset (hq : q.chars = []) : clp.reset.Repr q := by
  have hcc : clp.cCc = 0 := by rw [h.cCc, hq, length_nil]
  rw [Clist.reset, if_pos hcc]
  exact ⟨h.cCn, h.cCe, h.cCq, h.cCc, fun _ => ⟨rfl, rfl⟩, fun hne => absurd hq hne⟩

end

section

variable (h : clp.Holds f q) (hlen : cc ≤ q.chars.length) (hle : f + cc ≤ q.cap)

include h hlen hle

theorem Holds.map_fst_take :
    (q.chars.take cc).map Prod.fst = (List.range cc).map fun i => clp.cCs (f + i) := by
  rw [← h.slice, take_slice h.lt hlen h.le, slice_of_le hle, List.map_map]
  rfl

theorem Holds.skip :
    (clp.skip f cc).Holds (wrap q.cap (f + cc)) { q with chars := q.chars.drop cc } :=
  h.drop hlen rfl rfl rfl rfl (congrArg some (bump_eq h.cCe hle)) rfl fun _ _ _ => rfl

theorem Holds.moveOut :
    (clp.moveOut f cc).Holds (wrap q.cap (f + cc)) { q with chars := q.chars.drop cc } := by
  refine h.drop hlen rfl rfl isSome_map rfl (congrArg some (bump_eq h.cCe hle)) rfl
    fun i hi hcc => content_moveOut ?_
  have hcap := h.le
  simp only [wrap]
  split <;> omega

end

theorem Holds.stop (h : clp.Holds f q) (hstop : ¬(count > 0 ∧ clp.cCc > 0)) :
    q.chars.take count = [] ∧ q.chars.drop count = q.chars := by
  rw [h.cCc] at hstop
  by_cases hcount : count = 0
  · simp [hcount]
  · have hnil : q.chars = [] := length_eq_zero_iff.mp (by omega)
    simp [hnil]

theorem Holds.part (h : clp.Holds f q) (hgo : count > 0 ∧ clp.cCc > 0)
    (hcl : clp.cCl = some cl) (hcc : cc = if f ≥ cl then clp.cCe - f else cl - f) :
    ∃ m, (if cc > count then count else cc) = m ∧ 0 < m ∧ m ≤ count ∧ m ≤ q.chars.length ∧
      f + m ≤ q.cap := by
  have hne : q.chars ≠ [] := by
    rw [← length_pos_iff, ← h.cCc]
    exact hgo.2
  obtain ⟨hpos, hlen, hle⟩ := h.contiguous hne hcl hcc
  refine ⟨_, rfl, ?_⟩
  split <;> omega

theorem Holds.qToBLoop (h : clp.Holds f q) (hfuel : count < fuel)
    (p : List Byte) : ∃ clp', qToBLoop fuel clp count p =
        some (p ++ (q.chars.take count).map Prod.fst, clp') ∧
      clp'.Repr { q with chars := q.chars.drop count } := by
  induction fuel generalizing clp f q count p with
  | zero => exact absurd hfuel (Nat.not_lt_zero _)
  | succ fuel ih =>
    rw [qToBLoop]
    split
    next hgo =>
      obtain ⟨m, hm, hpos, hcount, hlen, hle⟩ := h.part hgo h.cCl rfl
      simp only [h.cCf, h.cCl, bind_eq_bind, bind_some, hm]
      obtain ⟨clp', hrun, hrepr⟩ := ih (h.moveOut hlen hle) (show count - m < fuel by omega)
        (p ++ (range m).map fun i => clp.cCs (f + i))
      refine ⟨clp', ?_, ?_⟩
      · rw [hrun, ← h.map_fst_take hlen hle, append_assoc, ← map_append,
          ← take_add, Nat.add_sub_cancel' hcount]
      · rwa [drop_drop, Nat.add_sub_cancel' hcount] at hrepr
    next hstop =>
      rw [(h.stop hstop).1, (h.stop hstop).2, map_nil, append_nil]
      exact ⟨clp.reset, rfl, h.reset⟩

theorem Holds.ndflushLoop (h : clp.Holds f q) (hfuel : count < fuel) :
    ∃ clp', ndflushLoop fuel clp count = some clp' ∧
      clp'.Repr { q with chars := q.chars.drop count } := by
  induction fuel generalizing clp f q count with
  | zero => exact absurd hfuel (Nat.not_lt_zero _)
  | succ fuel ih =>
    rw [ndflushLoop]
    split
    next hgo =>
      obtain ⟨m, hm, hpos, hcount, hlen, hle⟩ := h.part hgo h.cCl rfl
      simp only [h.cCf, h.cCl, bind_eq_bind, bind_some, hm]
      obtain ⟨clp', hrun, hrepr⟩ := ih (h.skip hlen hle) (show count - m < fuel by omega)
      refine ⟨clp', hrun, ?_⟩
      rwa [drop_drop, Nat.add_sub_cancel' hcount] at hrepr
    next hstop =>
      rw [(h.stop hstop).2]
      exact ⟨clp.reset, rfl, h.reset⟩

theorem qToB_repr (h : clp.Repr q) (count : Int) :
    ∃ clp', clp.step (.qToB count) = some ((q.step (.qToB count)).1, clp') ∧
      clp'.Repr (q.step (.qToB count)).2 := by
  rw [Clist.step, qToB, Fifo.step]
  by_cases hq : q.chars = []
  · have hcc : clp.cCc = 0 := by rw [h.cCc, hq, length_nil]
    rw [qToBLoop, if_neg (by omega)]
    simp only [hq, take_nil, drop_nil, map_nil]
    exact ⟨clp.reset, rfl, by simpa only [← hq] using h.reset hq⟩
  · obtain ⟨f, hf⟩ := h.holds hq
    obtain ⟨clp', hrun, hrepr⟩ := hf.qToBLoop (lt_succ_self count.toNat) []
    rw [hrun]
    exact ⟨clp', rfl, hrepr⟩

theorem ndflush_repr (h : clp.Repr q) (count : Int) :
    ∃ clp', clp.step (.ndflush count) = some ((q.step (.ndflush count)).1, clp') ∧
      clp'.Repr (q.step (.ndflush count)).2 := by
  rw [Clist.step, ndflush, Fifo.step]
  split
  next hall =>
    have hdrop : q.chars.drop count.toNat = [] := by
      rw [hall, h.cCc, Int.toNat_natCast, drop_length]
    rw [hdrop]
    exact ⟨_, rfl, h.cCn, h.cCe, h.cCq, rfl, fun _ => ⟨rfl, rfl⟩, fun hne => absurd rfl hne⟩
  next hpart =>
    by_cases hq : q.chars = []
    · have hcc : clp.cCc = 0 := by rw [h.cCc, hq, length_nil]
      rw [ndflushLoop, if_neg (by omega)]
      simp only [hq, drop_nil]
      exact ⟨clp.reset, rfl, by simpa only [← hq] using h.reset hq⟩
    · obtain ⟨f, hf⟩ := h.holds hq
      obtain ⟨clp', hrun, hrepr⟩ := hf.ndflushLoop (lt_succ_self count.toNat)
      rw [hrun]
      exact ⟨clp', rfl, hrepr⟩

theorem Holds.moveIn (h : clp.Holds f q) {r : List Byte} (hcl : clp.cCl = some cl)
    (hlen : q.chars.length + r.length ≤ q.cap) (hle : cl + r.length ≤ q.cap) :
    (clp.moveIn cl r).Holds f { q with chars := q.chars ++ r.map (·, false) } := by
  have hcl' := hcl
  rw [h.cCl, some.injEq] at hcl'
  refine h.append (by rwa [length_map]) rfl rfl isSome_map ?_ rfl ?_ ?_ ?_
  · rw [length_map]
    rfl
  · rw [length_map, hcl']
    exact congrArg some (bump_eq h.cCe hle)
  · intro i hi
    apply content_moveIn
    rw [← hcl'] at hle ⊢
    simp only [wrap] at hle ⊢
    split at hle <;> split <;> omega
  · rw [hcl', length_map, slice_of_le hle]
    apply ext_getElem
    · simp
    · intro i hi hi'
      have hr : i < r.length := by simpa using hi'
      rw [getElem_map, getElem_range, content_moveIn_self hr, getElem_map]

theorem Holds.room (h : clp.Holds f q)
    (hgo : count > 0 ∧ clp.cCc < clp.cCn) (hcl : clp.cCl = some cl)
    (hcc : cc = if f > cl then f - cl else clp.cCe - cl) :
    ∃ m, (if cc > count then count else cc) = m ∧ 0 < m ∧ m ≤ count ∧
      q.chars.length + m ≤ q.cap ∧ cl + m ≤ q.cap := by
  rw [h.cCc, h.cCn] at hgo
  obtain ⟨hpos, hlen, hle⟩ := h.contiguous_space hgo.2 hcl hcc
  refine ⟨_, rfl, ?_⟩
  split <;> omega

theorem Holds.bToQLoop {p : List Byte} (h : clp.Holds f q) (hfuel : p.length < fuel) :
    ∃ clp', bToQLoop fuel clp p = some (p.length - q.free, clp') ∧
      clp'.Holds f { q with chars := q.chars ++ (p.take q.free).map (·, false) } := by
  induction fuel generalizing clp q p with
  | zero => exact absurd hfuel (Nat.not_lt_zero _)
  | succ fuel ih =>
    rw [bToQLoop]
    split
    next hgo =>
      obtain ⟨m, hm, hpos, hcount, hlen, hle⟩ := h.room hgo h.cCl rfl
      simp only [h.cCf, h.cCl, bind_eq_bind, bind_some, hm]
      have htake : (p.take m).length = m := by rw [length_take, Nat.min_eq_left hcount]
      obtain ⟨clp', hrun, hholds⟩ := ih (p := p.drop m)
        (h.moveIn (r := p.take m) h.cCl (by rwa [htake]) (by rwa [htake]))
        (by rw [length_drop]; omega)
      have hfree : q.free = m + (q.free - m) := by
        rw [Fifo.free]
        omega
      have hrest : Fifo.free { q with chars := q.chars ++ (p.take m).map (·, false) } =
          q.free - m := by
        rw [Fifo.free, Fifo.free, length_append, length_map, htake, Nat.sub_sub]
      rw [hrest] at hrun hholds
      refine ⟨clp', ?_, ?_⟩
      · rw [hrun, length_drop]
        congr 2
        omega
      · rw [hfree, take_add, map_append, ← append_assoc]
        exact hholds
    next hstop =>
      rw [h.cCc, h.cCn] at hstop
      have htake : p.take q.free = [] ∧ p.length - q.free = p.length := by
        rw [Fifo.free]
        by_cases hp : p.length = 0
        · simp [length_eq_zero_iff.mp hp]
        · have hzero : q.cap - q.chars.length = 0 := by omega
          simp [hzero]
      rw [htake.1, htake.2, map_nil, append_nil]
      exact ⟨clp, rfl, h⟩

theorem bToQ_repr (h : clp.Repr q) (hcap : 0 < q.cap) (cp : List Byte) :
    ∃ clp', clp.step (.bToQ cp) = some ((q.step (.bToQ cp)).1, clp') ∧
      clp'.Repr (q.step (.bToQ cp)).2 := by
  rw [Clist.step, bToQ, Fifo.step]
  by_cases hcp : cp.length = 0
  · rw [if_pos hcp, length_eq_zero_iff.mp hcp, take_nil, map_nil, append_nil,
      length_nil, Nat.zero_sub]
    exact ⟨clp, rfl, h⟩
  rw [if_neg hcp]
  by_cases hfree : q.free = 0
  · rw [if_pos (h.full_iff.mpr hfree), hfree, take_zero, map_nil, append_nil, Nat.sub_zero]
    exact ⟨clp, rfl, h⟩
  · obtain ⟨f, hf⟩ := h.start hcap
    obtain ⟨clp', hrun, hholds⟩ := hf.bToQLoop (lt_succ_self cp.length)
    rw [if_neg (h.full_iff.not.mpr hfree), hrun]
    refine ⟨clp', rfl, hholds.repr ?_⟩
    rw [← length_pos_iff, length_append, length_map, length_take]
    omega

theorem Repr.step (h : clp.Repr q) (hcap : 0 < q.cap) (op : ClistOp) :
    ∃ clp', clp.step op = some ((q.step op).1, clp') ∧ clp'.Repr (q.step op).2 := by
  cases op with
  | putc c => exact putc_repr h hcap c
  | getc => exact getc_repr h
  | unputc => exact unputc_repr h
  | bToQ cp => exact bToQ_repr h hcap cp
  | qToB count => exact qToB_repr h count
  | ndflush count => exact ndflush_repr h count

theorem cap_step (q : Fifo) (op : ClistOp) : (q.step op).2.cap = q.cap := by
  cases op with
  | putc c => rw [Fifo.step]; split <;> rfl
  | getc => rw [Fifo.step]; split <;> rfl
  | unputc => rw [Fifo.step]; split <;> rfl
  | bToQ cp => rfl
  | qToB count => rfl
  | ndflush count => rfl

theorem Repr.run (h : clp.Repr q) (hcap : 0 < q.cap) (ops : List ClistOp) :
    ∃ clp', clistRun clp ops = some ((q.run ops).1, clp') ∧ clp'.Repr (q.run ops).2 := by
  induction ops generalizing clp q with
  | nil => exact ⟨clp, rfl, h⟩
  | cons op ops ih =>
    obtain ⟨clp₁, hstep, h₁⟩ := h.step hcap op
    obtain ⟨clp', hrun, h'⟩ := ih h₁ (by rwa [cap_step])
    refine ⟨clp', ?_, h'⟩
    rw [clistRun, hstep]
    simp only [bind_eq_bind, bind_some, hrun]
    rfl

theorem clalloc_repr (size : Nat) (quot : Bool) :
    (clalloc size quot).Repr { cap := size, quot := quot, chars := [] } where
  cCn := rfl
  cCe := rfl
  cCq := by cases quot <;> rfl
  cCc := rfl
  empty := fun _ => ⟨rfl, rfl⟩
  holds := fun hne => absurd rfl hne

theorem nextc_eq (h : clp.Holds f q) (hk : i + (k + 1) = q.chars.length) :
    nextc clp (wrap q.cap (f + i)) (k + 1) = if k = 0 then (none, k)
      else (some (wrap q.cap (f + (i + 1)), charOf (clp.content (wrap q.cap (f + (i + 1))))), k) := by
  have hcap := h.le
  have hlt := h.lt
  have hcount : (if clp.cCf = some (wrap q.cap (f + i)) then clp.cCc else k + 1) = k + 1 := by
    split
    next hfirst =>
      rw [h.cCf, some.injEq] at hfirst
      have hzero : i = 0 := by
        by_contra hne
        have := wrap_ne f (show 0 < i by omega) (show i < q.cap by omega)
        rw [Nat.add_zero, wrap_of_lt hlt] at this
        exact this hfirst
      rw [h.cCc]
      omega
    next => rfl
  have hbump : clp.bump (wrap q.cap (f + i)) 1 = wrap q.cap (f + (i + 1)) := by
    have hi := wrap_lt hlt (show i ≤ q.cap by omega)
    rw [bump_eq h.cCe hi, wrap_wrap hlt (by omega)]
  simp only [nextc, hcount, if_neg (succ_ne_zero k), Nat.add_sub_cancel, hbump, charAt_eq]

theorem nextcs_eq (h : clp.Holds f q) (hk : i + (k + 1) = q.chars.length) :
    nextcs clp (k + 1) (wrap q.cap (f + i)) (k + 1) =
      some ((slice clp.content q.cap (wrap q.cap (f + (i + 1))) k).map charOf) := by
  have hcap := h.le
  have hlt := h.lt
  induction k generalizing i with
  | zero =>
    rw [nextcs, nextc_eq h hk]
    rfl
  | succ k ih =>
    have hnext := wrap_lt hlt (show i + 1 ≤ q.cap by omega)
    rw [nextcs, nextc_eq h hk, if_neg (succ_ne_zero k)]
    simp only [ih (show i + 1 + (k + 1) = q.chars.length by omega), map_some]
    rw [slice_cons hnext (by omega), map_cons, wrap_wrap hlt (by omega)]

theorem Repr.chars (h : clp.Repr q) : TtySubr.chars clp = some (q.chars.map charOf) := by
  rw [TtySubr.chars, firstc]
  by_cases hq : q.chars = []
  · have hcc : clp.cCc = 0 := by rw [h.cCc, hq, length_nil]
    rw [if_pos hcc, hq]
    rfl
  · obtain ⟨f, hf⟩ := h.holds hq
    have hle := hf.le
    obtain ⟨k, hk⟩ := exists_eq_succ_of_ne_zero (length_pos_iff.mpr hq).ne'
    have hcc : clp.cCc = k + 1 := hf.cCc.trans hk
    have hwalk := nextcs_eq hf (i := 0) (k := k) (by omega)
    simp only [Nat.add_zero, wrap_of_lt hf.lt, Nat.zero_add] at hwalk
    have hslice := hf.slice
    rw [hk, slice_cons hf.lt (by omega)] at hslice
    rw [if_neg (by omega)]
    simp only [hf.cCf, hcc, bind_eq_bind, bind_some, hwalk, map_some, charAt_eq]
    rw [← hslice, map_cons]

end Clist

/-- A clist is a bounded queue: every operation returns what it does on the queue, and walking the
clist afterwards shows the queue. -/
theorem clist_refines_fifo (size : Nat) (quot : Bool) (ops : List ClistOp) (hsize : 1 ≤ size) :
    ∃ clp, clistRun (clalloc size quot) ops =
        some ((Fifo.run { cap := size, quot := quot, chars := [] } ops).1, clp) ∧ chars clp =
        some ((Fifo.run { cap := size, quot := quot, chars := [] } ops).2.chars.map charOf) := by
  obtain ⟨clp, hrun, hrepr⟩ := (Clist.clalloc_repr size quot).run hsize ops
  exact ⟨clp, hrun, hrepr.chars⟩

/-- Three places, and a queue that wraps. -/
theorem clist_refines_fifo_wrapped : ∃ clp, clistRun (clalloc 3 true)
        [.bToQ [1, 2, 3, 4], .getc, .putc 0x105, .unputc, .putc 0x106, .qToB 2] =
        some ([.left 1, .char 1, .char 0, .char 0x105, .char 0, .bytes [2, 3]], clp) ∧
      chars clp = some [0x106] :=
  clist_refines_fifo 3 true [.bToQ [1, 2, 3, 4], .getc, .putc 0x105, .unputc, .putc 0x106, .qToB 2]
    (by decide)

end Mbsd.Kern.TtySubr

/-! What `ndqb` counts when the flag asks for quoted characters. -/

namespace Mbsd.Kern.TtySubr

open Lib.RingSlice List Clist

variable {clp : Clist} {f : Nat}

/-- The characters from the head of the queue at `f` to its tail or the end of the buffer. -/
def Fifo.contiguous (q : Fifo) (f : Nat) : List (Byte × Bool) := q.chars.take (q.cap - f)

def unflagged (flag : CInt) (x : Byte × Bool) : Bool :=
  x.1.setWidth 32 &&& (flag &&& ~~~ttyQuote) = 0

def plain (flag : CInt) (x : Byte × Bool) : Bool := unflagged flag x && !x.2

def Clist.stretch (clp : Clist) (i n : Nat) : List (Byte × Bool) :=
  (List.range' i n).map clp.content

theorem stretch_succ (clp : Clist) (i n : Nat) :
    clp.stretch i (n + 1) = clp.content i :: clp.stretch (i + 1) n := rfl

theorem Clist.Holds.contiguous_eq {q : Fifo} (h : clp.Holds f q) :
    q.contiguous f = clp.stretch f (min clp.cCc (clp.cCn - f)) := by
  have htake : q.contiguous f = q.chars.take (min clp.cCc (clp.cCn - f)) := by
    rw [Fifo.contiguous, h.cCc, h.cCn, take_eq_take_iff]
    omega
  have hlt := h.lt
  have hcc := h.cCc
  have hcn := h.cCn
  rw [htake, ← h.slice, take_slice h.lt (by omega) h.le, slice_of_le (by omega), stretch,
    range'_eq_map_range, map_map]
  rfl

theorem ndqbQuoteLoop_spec {cq : Nat → Byte} (hcq : clp.cCq = some cq) (flag : CInt)
    (cc : Nat) {i : Nat} (hi : i < clp.cCn) (count : Nat) :
    ∃ n ≤ ((clp.stretch i (min cc (clp.cCn - i))).takeWhile (unflagged flag)).length,
      ndqbQuoteLoop clp (flag &&& ~~~ttyQuote) cc i count = some (count + n, range' (i + 1)
        (min (n + 1) ((clp.stretch i (min cc (clp.cCn - i))).takeWhile (unflagged flag)).length)) ∧
      (∀ p, i < p → p ≤ i + n → (clp.content p).2 = false) ∧
      (n < ((clp.stretch i (min cc (clp.cCn - i))).takeWhile (unflagged flag)).length →
        (clp.content (i + n + 1)).2 = true) := by
  have hquote (p : Nat) : (clp.content p).2 = isset cq p := by
    rw [content, hcq]
    rfl
  induction cc generalizing i count with
  | zero =>
    refine ⟨0, Nat.zero_le _, ?_, fun p h₁ h₂ => by omega, fun h => ?_⟩
    · simp [ndqbQuoteLoop, stretch]
    · simp [stretch] at h
  | succ cc ih =>
    rw [show min (cc + 1) (clp.cCn - i) = min cc (clp.cCn - (i + 1)) + 1 by omega, stretch_succ,
      takeWhile_cons, ndqbQuoteLoop, hcq]
    by_cases hflag : (clp.cCs i).setWidth 32 &&& (flag &&& ~~~ttyQuote) = 0
    · rw [if_neg (not_not.mpr hflag),
        if_pos (show unflagged flag (clp.content i) = true from decide_eq_true hflag)]
      dsimp only
      rw [length_cons]
      cases hset : isset cq (i + 1) with
      | true =>
        refine ⟨0, Nat.zero_le _, by simp, fun p h₁ h₂ => by omega, fun _ => ?_⟩
        rw [hquote, ← hset]
      | false =>
        rw [if_neg Bool.false_ne_true]
        by_cases hend : i + 1 = clp.cCn
        · rw [if_pos hend, hend, Nat.sub_self, Nat.min_zero]
          refine ⟨1, by simp, by simp [stretch], fun p h₁ h₂ => ?_, fun h => ?_⟩
          · rw [hquote, show p = i + 1 by omega, hset]
          · simp [stretch] at h
        · rw [if_neg hend]
          obtain ⟨n, hn, hloop, hclear, hstop⟩ := ih (i := i + 1) (by omega) (count + 1)
          refine ⟨n + 1, by omega, ?_, fun p h₁ h₂ => ?_, fun h => ?_⟩
          · rw [hloop, Option.map_some, Nat.add_right_comm count 1 n, Nat.add_assoc count n 1,
              Nat.add_min_add_right, range'_succ]
          · by_cases hp : p = i + 1
            · rw [hp, hquote, hset]
            · exact hclear p (by omega) (by omega)
          · have := hstop (by omega)
            rwa [show i + 1 + n + 1 = i + (n + 1) + 1 by omega] at this
    · rw [if_pos hflag,
        show unflagged flag (clp.content i) = false from decide_eq_false hflag, if_neg Bool.false_ne_true]
      exact ⟨0, Nat.le_refl _, by simp, fun p h₁ h₂ => by omega, fun h => by simp at h⟩

theorem takeWhile_plain_spec (clp : Clist) (flag : CInt) (i L : Nat) :
    ((clp.stretch i L).takeWhile (plain flag)).length ≤
        ((clp.stretch i L).takeWhile (unflagged flag)).length ∧
    (∀ p, i ≤ p → p < i + ((clp.stretch i L).takeWhile (plain flag)).length →
      (clp.content p).2 = false) ∧ (((clp.stretch i L).takeWhile (plain flag)).length <
        ((clp.stretch i L).takeWhile (unflagged flag)).length →
      (clp.content (i + ((clp.stretch i L).takeWhile (plain flag)).length)).2 = true) := by
  induction L generalizing i with
  | zero => exact ⟨Nat.le_refl _, fun p h₁ h₂ => by simp [stretch] at h₂; omega, fun h => by
      simp [stretch] at h⟩
  | succ L ih =>
    obtain ⟨hle, hplain, hstop⟩ := ih (i + 1)
    rw [stretch_succ, takeWhile_cons, takeWhile_cons, plain]
    cases hu : unflagged flag (clp.content i) with
    | false => exact ⟨Nat.le_refl _, fun p h₁ h₂ => by simp at h₂; omega, fun h => by simp at h⟩
    | true =>
      cases hq : (clp.content i).2 with
      | true => exact ⟨by simp, fun p h₁ h₂ => by simp at h₂; omega, fun _ => by simpa using hq⟩
      | false =>
        simp only [Bool.not_false, Bool.and_self, if_true, length_cons]
        refine ⟨by omega, fun p h₁ h₂ => ?_, fun h => ?_⟩
        · by_cases hp : p = i
          · rw [hp, hq]
          · exact hplain p (by omega) (by omega)
        · have := hstop (by omega)
          rwa [Nat.add_right_comm, Nat.add_assoc] at this

/-- The unflagged run of length `run` from `f` on is empty; or it ends inside the buffer, and
neither it nor the place behind it has a quoted character; or the first two places are quoted. -/
def QuoteBitsFit (clp : Clist) (f run : Nat) : Prop :=
  run = 0 ∨ (f + run < clp.cCn ∧ ∀ p, f ≤ p → p ≤ f + run → (clp.content p).2 = false) ∨
    (f + 1 < clp.cCn ∧ (clp.content f).2 = true ∧ (clp.content (f + 1)).2 = true)

theorem quoteBitsFit_iff {n count run : Nat} (hn : n ≤ run) (hcount : count ≤ run)
    (hclear : ∀ p, f < p → p ≤ f + n → (clp.content p).2 = false)
    (hstop : n < run → (clp.content (f + n + 1)).2 = true)
    (hplain : ∀ p, f ≤ p → p < f + count → (clp.content p).2 = false)
    (hquoted : count < run → (clp.content (f + count)).2 = true) :
    (n = count ∧ ∀ i ∈ range' (f + 1) (min (n + 1) run), i < clp.cCn) ↔ QuoteBitsFit clp f run := by
  simp only [mem_range'_1]
  constructor
  · rintro ⟨rfl, hread⟩
    by_cases h0 : run = 0
    · exact .inl h0
    · have hlast := hread (f + min (n + 1) run) (by omega)
      by_cases hend : n = run
      · refine .inr (.inl ⟨by omega, fun p h₁ h₂ => ?_⟩)
        by_cases hp : p = f
        · exact hplain p h₁ (by omega)
        · exact hclear p (by omega) (by omega)
      · have hfirst : n = 0 := by
          by_contra hpos
          have := hquoted (by omega)
          rw [hclear (f + n) (by omega) (by omega)] at this
          cases this
        subst hfirst
        exact .inr (.inr ⟨by omega, hquoted (by omega), hstop (by omega)⟩)
  · rintro (rfl | ⟨hcap, hnone⟩ | ⟨hcap, hhead, hnext⟩)
    · exact ⟨by omega, fun i hi => by omega⟩
    · have hrun : n = run := by
        by_contra hlt
        have := hstop (by omega)
        rw [hnone (f + n + 1) (by omega) (by omega)] at this
        cases this
      have hall : count = run := by
        by_contra hlt
        have := hquoted (by omega)
        rw [hnone (f + count) (by omega) (by omega)] at this
        cases this
      exact ⟨by omega, fun i hi => by omega⟩
    · have hcount0 : count = 0 := by
        by_contra hpos
        rw [hplain f (Nat.le_refl f) (by omega)] at hhead
        cases hhead
      have hn0 : n = 0 := by
        by_contra hpos
        rw [hclear (f + 1) (by omega) (by omega)] at hnext
        cases hnext
      exact ⟨by omega, fun i hi => by omega⟩

/-- With `TTY_QUOTE` in the flag `ndqb` looks at the quote bits one place too far on, so it counts
the unquoted and unflagged characters at the head, reading no bit from `c_cn` on, only where the
bits happen to agree. -/
theorem ndqb_quote_exact_iff {clp : Clist} {f : Nat} {q : Fifo} (h : clp.Holds f q)
    (hne : q.chars ≠ []) (hquot : q.quot = true) {flag : CInt} (hflag : flag &&& ttyQuote ≠ 0) :
    ∃ count reads, ndqb clp flag = some (count, reads) ∧
      ((count = ((q.contiguous f).takeWhile (plain flag)).length ∧ ∀ i ∈ reads, i < clp.cCn) ↔
        QuoteBitsFit clp f ((q.contiguous f).takeWhile (unflagged flag)).length) := by
  obtain ⟨cq, hcq⟩ := Option.isSome_iff_exists.mp (h.cCq.trans hquot)
  have hlt : f < clp.cCn := by
    rw [h.cCn]
    exact h.lt
  have hcc : clp.cCc ≠ 0 := by
    rw [h.cCc]
    exact fun hlen => hne (length_eq_zero_iff.mp hlen)
  have hflag0 : flag ≠ 0 := by
    rintro rfl
    exact hflag (by decide)
  obtain ⟨n, hn, hloop, hclear, hstop⟩ := ndqbQuoteLoop_spec hcq flag clp.cCc hlt 0
  obtain ⟨hle, hplain, hquoted⟩ :=
    takeWhile_plain_spec clp flag f (min clp.cCc (clp.cCn - f))
  rw [← h.contiguous_eq] at hn hloop hstop hle hplain hquoted
  rw [Nat.zero_add] at hloop
  refine ⟨n, _, ?_, quoteBitsFit_iff hn hle hclear hstop hplain hquoted⟩
  rw [ndqb, if_neg hcc, h.cCf, h.cCl]
  simp only [hflag0, if_false, hflag, ne_eq, not_false_eq_true, if_true, hloop]

def afterPuts (cs : List CInt) : Clist :=
  ((clistRun (clalloc 8 true) (cs.map .putc)).map Prod.snd).getD (clalloc 8 true)

theorem afterPuts_two_holds :
    (afterPuts [0x61, 0x62]).Holds 0 ⟨8, true, [(0x61, false), (0x62, false)]⟩ :=
  ⟨rfl, rfl, rfl, rfl, by decide, by decide, rfl, rfl, by decide⟩

theorem afterPuts_quoted_holds : (afterPuts [0x161]).Holds 0 ⟨8, true, [(0x61, true)]⟩ :=
  ⟨rfl, rfl, rfl, rfl, by decide, by decide, rfl, rfl, by decide⟩

theorem afterPuts_full_holds : (afterPuts (replicate 8 0x61)).Holds 0
    ⟨8, true, replicate 8 (0x61, false)⟩ :=
  ⟨rfl, rfl, rfl, rfl, by decide, by decide, rfl, rfl, by decide⟩

theorem ndqb_quote_exact_two :
    ∃ count reads, ndqb (afterPuts [0x61, 0x62]) ttyQuote = some (count, reads) ∧
      ((count = ((Fifo.contiguous ⟨8, true, [(0x61, false), (0x62, false)]⟩ 0).takeWhile
          (plain ttyQuote)).length ∧ ∀ i ∈ reads, i < (afterPuts [0x61, 0x62]).cCn) ↔
        QuoteBitsFit (afterPuts [0x61, 0x62]) 0
          ((Fifo.contiguous ⟨8, true, [(0x61, false), (0x62, false)]⟩ 0).takeWhile
            (unflagged ttyQuote)).length) :=
  ndqb_quote_exact_iff afterPuts_two_holds (by decide) rfl (by decide)

/-- A single quoted character is counted, and in a full buffer the bit at `c_cn` is read. -/
theorem ndqb_quote_misses : ((afterPuts [0x161]).Holds 0 ⟨8, true, [(0x61, true)]⟩ ∧
      ndqb (afterPuts [0x161]) ttyQuote = some (1, [1]) ∧
      ((Fifo.contiguous ⟨8, true, [(0x61, true)]⟩ 0).takeWhile (plain ttyQuote)).length = 0) ∧
    (afterPuts (List.replicate 8 0x61)).Holds 0 ⟨8, true, List.replicate 8 (0x61, false)⟩ ∧
      (afterPuts (List.replicate 8 0x61)).cCn = 8 ∧
      ndqb (afterPuts (List.replicate 8 0x61)) ttyQuote = some (8, [1, 2, 3, 4, 5, 6, 7, 8]) :=
  ⟨⟨afterPuts_quoted_holds, by decide, by decide⟩, afterPuts_full_holds, rfl, by decide⟩

end Mbsd.Kern.TtySubr
