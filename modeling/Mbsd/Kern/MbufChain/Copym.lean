import Mbsd.Kern.MbufChain.Walk

/-! `m_copym`. -/

namespace Mbsd.Kern.MbufChain

open Lib.Run

variable {mem : Mem} {m : Mbuf} {ms rest : List Mbuf} {copyhdr : Option Mbuf}
  {r : Except Fault (Mem × List Mbuf)} {n : Mbuf}

def copyTop (mem : Mem) (copyhdr : Option Mbuf) (len : Nat) : Mbuf :=
  match copyhdr with
  | none => mGet mem
  | some m0 =>
    let n := mDupPkthdr (mGet mem) m0
    if len ≠ mCopyall then { n with pkthdr := n.pkthdr.map fun _ => len } else n

def copyOne (mem : Mem) (copyhdr : Option Mbuf) (m : Mbuf) (off len count : Nat) :
    Except Fault (Mem × Mbuf) :=
  let n := { copyTop mem copyhdr len with len := count }
  match m.ext with
  | some _ => .ok (mExtref mem m { n with data := m.data + off })
  | none => do
    let n := { n with data := n.data + (m.data - mDatabuf m) + off }
    let l ← mRead mem m (m.data + off) count
    mWrite mem n n.data l

def mCopymLoop (mem : Mem) (copyhdr : Option Mbuf) (ms : List Mbuf) (off len : Nat) :
    Except Fault (Mem × List Mbuf) :=
  if len = 0 then .ok (mem, [])
  else
    match ms with
    | [] => if len ≠ mCopyall then .error .panic else .ok (mem, [])
    | m :: rest => do
      let count := min len (m.len - off)
      let (mem, n) ← copyOne mem copyhdr m off len count
      let len' := if len ≠ mCopyall then len - count else len
      if off + count > m.len then .error .panic
      else if off + count = m.len then do
        let (mem, top) ← mCopymLoop mem none rest 0 len'
        .ok (mem, n :: top)
      else do
        let (mem, top) ← mCopymLoop mem none (m :: rest) (off + count) len'
        .ok (mem, n :: top)
termination_by ms.length + (total ms - off)
decreasing_by
  all_goals simp only [List.length_cons, total_cons]
  all_goals omega

def copyhdrOf (m0 : List Mbuf) (off : Nat) : Option Mbuf :=
  if off = 0 then m0.head?.filter fun m => m.pkthdr.isSome else none

def mCopym (mem : Mem) (m0 : List Mbuf) (off len : Nat) : Except Fault (Mem × List Mbuf) :=
  match mGetptr m0 off with
  | none => .error .panic
  | some (m, o) => mCopymLoop mem (copyhdrOf m0 off) m o len

theorem copyTop_ext : (copyTop mem copyhdr len).ext = none := by
  cases copyhdr with
  | none => rfl
  | some m0 =>
    rw [copyTop]
    split <;> rfl

theorem poke_none (h : m.ext = none) : (poke mem m p l).1 = mem := by rw [poke, h]

/-- The copy of plain storage starts as far behind the start of its storage as the original. -/
def CopyFits (mem : Mem) (copyhdr : Option Mbuf) (m : Mbuf) (off len count : Nat) : Prop :=
  m.ext = none →
    (copyTop mem copyhdr len).data + (m.data - mDatabuf m) + off + count ≤ mlen

theorem copyOne_ok (hin : Inside mem m) (hcount : off + count ≤ m.len)
    (htop : (copyTop mem copyhdr len).data = mDatabuf (copyTop mem copyhdr len))
    (hfit : CopyFits mem copyhdr m off len count) :
    ∃ mem' n, copyOne mem copyhdr m off len count = .ok (mem', n) ∧
      Local mem [m] mem' [m, n] ∧ (∀ x, bytes mem' x = bytes mem x) ∧
      bytes mem' n = ((bytes mem m).drop off).take count ∧
      n.pkthdr = (copyTop mem copyhdr len).pkthdr := by
  have hle := hin.le
  cases hext : m.ext with
  | some b =>
    let n : Mbuf :=
      { copyTop mem copyhdr len with
        ext := some b, extwr := (copyTop mem copyhdr len).extwr || m.extwr
        data := m.data + off, len := count }
    refine ⟨addRefs mem b (· + 1), n, ?_, local_share hext rfl ⟨?_, ?_⟩,
      fun _ => bytes_addRefs, ?_, rfl⟩
    · simp only [copyOne, hext, mExtref]
      rfl
    · rw [mDatabuf_some rfl]
      exact Nat.zero_le _
    · rw [mDatabuf_some (b := b) rfl, mSize_some (b := b) rfl]
      rw [mDatabuf_some hext, mSize_some hext] at hle
      simp only [n]
      omega
    · rw [bytes_addRefs, bytes, bytes, store_some hext, drop_run (by omega), take_run (by omega)]
      rfl
  | none =>
    have hfits := hfit hext
    let n : Mbuf :=
      { copyTop mem copyhdr len with
        len := count, data := (copyTop mem copyhdr len).data + (m.data - mDatabuf m) + off }
    have hnone : n.ext = none := copyTop_ext
    have hdb : mDatabuf n = (copyTop mem copyhdr len).data := htop.symm
    have hread := mRead_data (k := off) (j := count) hin hcount
    have hlength : (((bytes mem m).drop off).take count).length = count := by
      rw [List.length_take, List.length_drop, length_bytes]
      omega
    have hnin : Inside mem n := by
      refine ⟨?_, ?_⟩
      · rw [hdb]
        simp only [n]
        omega
      · rw [top_none hnone]
        exact hfits
    have hwrite : mWrite mem n n.data (((bytes mem m).drop off).take count) =
        .ok (poke mem n n.data (((bytes mem m).drop off).take count)) :=
      mWrite_ok hnin.ge (by rw [hlength]; exact hnin.le)
    have hw : mReadonly mem n = false := mReadonly_none hnone
    have hlocal := local_poke hw n.data (((bytes mem m).drop off).take count)
    refine ⟨_, _, ?_, ((local_new hnone hnin).cons m).trans (hlocal.cons m),
      fun _ => by rw [poke_none hnone], ?_, poke_pkthdr ..⟩
    · simp only [copyOne, hext, hread]
      exact hwrite
    · rw [bytes, store_poke, poke_data, poke_len]
      exact put_run_self hlength

theorem copyOne_overrun (hin : Inside mem m) (hcount : off + count ≤ m.len)
    (hfit : ¬CopyFits mem copyhdr m off len count) :
    copyOne mem copyhdr m off len count = .error .overrun := by
  simp only [CopyFits, Classical.not_imp, Nat.not_le] at hfit
  obtain ⟨hext, hgt⟩ := hfit
  have hlength : (((bytes mem m).drop off).take count).length = count := by
    rw [List.length_take, List.length_drop, length_bytes]
    omega
  let n : Mbuf :=
    { copyTop mem copyhdr len with
      len := count, data := (copyTop mem copyhdr len).data + (m.data - mDatabuf m) + off }
  have hnone : n.ext = none := copyTop_ext
  have hwrite : mWrite mem n n.data (((bytes mem m).drop off).take count) = .error .overrun := by
    rw [mWrite, ensure, if_neg]
    · rfl
    · rw [hlength, top_none hnone]
      simp only [n]
      omega
  simp only [copyOne, hext, mRead_data hin hcount]
  exact hwrite

/-- A length above `M_COPYALL` becomes `M_COPYALL` at the end of an mbuf, and bytes are left that
were not asked for. -/
def Overcopies (ms : List Mbuf) (off len : Nat) : Prop :=
  mCopyall < len ∧ off + len < total ms ∧
    ∃ pre post, ms = pre ++ post ∧ off + len = total pre + mCopyall

theorem Overcopies.cons_iff (hend : m.len - off ≤ len) (hoff : off ≤ m.len)
    (hne : len - (m.len - off) ≠ mCopyall) :
    Overcopies (m :: rest) off len ↔ Overcopies rest 0 (len - (m.len - off)) := by
  constructor
  · rintro ⟨hlt, htotal, pre, post, heq, hpre⟩
    rw [total_cons] at htotal
    cases pre with
    | nil =>
      rw [total_nil] at hpre
      omega
    | cons x pre =>
      obtain ⟨rfl, rfl⟩ := List.cons.inj heq
      rw [total_cons] at hpre
      exact ⟨by omega, by omega, pre, post, rfl, by omega⟩
  · rintro ⟨hlt, htotal, pre, post, rfl, hpre⟩
    refine ⟨by omega, ?_, m :: pre, post, rfl, ?_⟩
    · rw [total_cons]
      omega
    · rw [total_cons]
      omega

theorem not_overcopies_of_lt (h : len < m.len - off) : ¬Overcopies (m :: rest) off len := by
  rintro ⟨hlt, -, pre, post, heq, hpre⟩
  cases pre with
  | nil =>
    rw [total_nil] at hpre
    omega
  | cons x pre =>
    obtain ⟨rfl, -⟩ := List.cons.inj heq
    rw [total_cons] at hpre
    omega

theorem total_of_not_overcopies (h : ¬Overcopies (m :: rest) off len) (hne : len ≠ mCopyall)
    (hall : len - (m.len - off) = mCopyall) (hoff : off ≤ m.len)
    (hlen : off + len ≤ total (m :: rest)) : off + len = total (m :: rest) := by
  by_contra hlt
  have hpos : 0 < mCopyall := by decide
  refine h ⟨by omega, by omega, [m], rest, rfl, ?_⟩
  rw [total_cons, total_nil]
  omega

def Copies (mem : Mem) (copyhdr : Option Mbuf) (ms : List Mbuf) (off len : Nat)
    (r : Except Fault (Mem × List Mbuf)) : Prop :=
  ∃ mem' top, r = .ok (mem', top) ∧ Local mem ms mem' (ms ++ top) ∧
    (∀ x, bytes mem' x = bytes mem x) ∧
    (len = mCopyall ∨ Overcopies ms off len → view mem' top = (view mem ms).drop off) ∧
    (len ≠ mCopyall → ¬Overcopies ms off len →
      view mem' top = ((view mem ms).drop off).take len) ∧
    (len ≠ 0 → ms ≠ [] → hdr top = (copyTop mem copyhdr len).pkthdr)

def Served (ms : List Mbuf) (off len : Nat) : Prop :=
  off + len ≤ total ms ∨ len = mCopyall ∧ off ≤ total ms

theorem Copies.cons {mem1 : Mem}
    (hoff : off ≤ m.len) (hend : m.len - off ≤ len) (hlen : Served (m :: rest) off len)
    (h1 : Local mem [m] mem1 [m, n]) (hold : ∀ x, bytes mem1 x = bytes mem x)
    (hn : bytes mem1 n = ((bytes mem m).drop off).take (m.len - off))
    (hhdr : n.pkthdr = (copyTop mem copyhdr len).pkthdr) (hr : Copies mem1 none rest 0
      (if len ≠ mCopyall then len - (m.len - off) else len) r) :
    Copies mem copyhdr (m :: rest) off len (r.bind fun p => .ok (p.1, n :: p.2)) := by
  obtain ⟨mem', top, rfl, htail, hbytes, hall, htake, -⟩ := hr
  have hview : ∀ ns, view mem1 ns = view mem ns := fun ns => view_congr fun x _ => hold x
  have hfirst : bytes mem' n = (bytes mem m).drop off := by
    rw [hbytes, hn, List.take_of_length_le]
    rw [List.length_drop, length_bytes]
  have hdrop : (view mem (m :: rest)).drop off = (bytes mem m).drop off ++ view mem rest := by
    rw [view_cons, List.drop_append_of_le_length (by rw [length_bytes]; exact hoff)]
  have hlocal : Local mem (m :: rest) mem' (m :: rest ++ n :: top) := by
    refine (h1.frame rest).trans (((htail.cons n).cons m).perm (List.Perm.refl _) ?_)
    have hmid : (n :: (rest ++ top)).Perm (rest ++ n :: top) := List.perm_middle.symm
    exact hmid.cons m
  refine ⟨mem', n :: top, rfl, hlocal, fun x => (hbytes x).trans (hold x), ?_, ?_, fun _ _ => hhdr⟩
  · intro hlong
    rw [view_cons, hfirst, hdrop, hall, List.drop_zero, hview]
    split
    next hne =>
      by_cases heq : len - (m.len - off) = mCopyall
      · exact .inl heq
      · exact .inr ((Overcopies.cons_iff hend hoff heq).1 (hlong.resolve_left hne))
    next heq => exact .inl (not_not.1 heq)
  · intro hne hshort
    have hserved : off + len ≤ total (m :: rest) := hlen.resolve_right fun h => hne h.1
    rw [if_pos hne] at hall htake
    rw [view_cons, hfirst, hdrop, List.take_append, List.length_drop, length_bytes,
      List.take_of_length_le (by rw [List.length_drop, length_bytes]; exact hend)]
    congr 1
    by_cases heq : len - (m.len - off) = mCopyall
    · have htotal := total_of_not_overcopies hshort hne heq hoff hserved
      rw [total_cons] at htotal
      rw [hall (.inl heq), List.drop_zero, hview, List.take_of_length_le]
      rw [length_view]
      omega
    · rw [htake heq fun hover => hshort ((Overcopies.cons_iff hend hoff heq).2 hover),
        List.drop_zero, hview]

theorem Copies.within {mem1 : Mem} (hlt : len < m.len - off)
    (h1 : Local mem [m] mem1 [m, n]) (hold : ∀ x, bytes mem1 x = bytes mem x)
    (hn : bytes mem1 n = ((bytes mem m).drop off).take len)
    (hhdr : n.pkthdr = (copyTop mem copyhdr len).pkthdr)
    (hr : if len = mCopyall then Copies mem1 none (m :: rest) (off + len) mCopyall r
      else r = .ok (mem1, [])) : Copies mem copyhdr (m :: rest) off len
      (r.bind fun p => .ok (p.1, n :: p.2)) := by
  have hview : ∀ ns, view mem1 ns = view mem ns := fun ns => view_congr fun x _ => hold x
  have hover : ¬Overcopies (m :: rest) off len := not_overcopies_of_lt hlt
  have hsplit : (view mem (m :: rest)).drop off =
      ((bytes mem m).drop off).take len ++ (view mem (m :: rest)).drop (off + len) := by
    rw [view_cons, List.drop_append_of_le_length (by rw [length_bytes]; omega),
      List.drop_append_of_le_length (by rw [length_bytes]; omega), ← List.drop_drop,
      ← List.append_assoc, List.take_append_drop]
  have hframe : Local mem (m :: rest) mem1 (m :: rest ++ [n]) :=
    (h1.frame rest).perm (List.Perm.refl _) ((List.perm_append_singleton n rest).symm.cons m)
  split at hr
  next hall =>
    obtain ⟨mem', top, rfl, htail, hbytes, hdrop, -, -⟩ := hr
    refine ⟨mem', n :: top, rfl, ?_, fun x => (hbytes x).trans (hold x), fun _ => ?_,
      fun hne => absurd hall hne, fun _ _ => hhdr⟩
    · refine hframe.trans ((htail.frame [n]).perm (List.Perm.refl _) ?_)
      rw [List.append_assoc]
      exact (List.perm_append_singleton n top).append_left _
    · rw [view_cons, hbytes, hn, hdrop (.inl rfl), hview, ← hsplit]
  next hne =>
    subst hr
    refine ⟨mem1, [n], rfl, hframe, hold, fun h => (h.elim hne hover).elim, fun _ _ => ?_,
      fun _ _ => hhdr⟩
    rw [hsplit, view_cons, view_nil, List.append_nil, hn, List.take_append_of_le_length, List.take_take,
      Nat.min_self]
    rw [List.length_take, List.length_drop, length_bytes]
    omega

theorem mCopymLoop_zero : mCopymLoop mem copyhdr ms off 0 = .ok (mem, []) := by
  rw [mCopymLoop.eq_def, if_pos rfl]

theorem Served.cons (h : Served (m :: rest) off len) (hoff : off ≤ m.len)
    (hend : m.len - off ≤ len) :
    Served rest 0 (if len ≠ mCopyall then len - (m.len - off) else len) := by
  rw [Served, total_cons] at h
  rw [Served]
  split
  next hne =>
    refine .inl ?_
    omega
  next heq => exact .inr ⟨not_not.1 heq, Nat.zero_le _⟩

theorem mCopymLoop_round (hwf : Wf mem (m :: rest)) (hoff : off ≤ m.len) (hlen : len ≠ 0)
    (hserved : Served (m :: rest) off len)
    (htop : (copyTop mem copyhdr len).data = mDatabuf (copyTop mem copyhdr len))
    (hfit : CopyFits mem copyhdr m off len (min len (m.len - off)))
    (hrest : ∀ mem1 len', Wf mem1 rest → Served rest 0 len' →
      Copies mem1 none rest 0 len' (mCopymLoop mem1 none rest 0 len'))
    (hmore : ∀ mem1, Wf mem1 (m :: rest) → off + mCopyall < m.len →
      Copies mem1 none (m :: rest) (off + mCopyall) mCopyall
        (mCopymLoop mem1 none (m :: rest) (off + mCopyall) mCopyall)) :
    Copies mem copyhdr (m :: rest) off len (mCopymLoop mem copyhdr (m :: rest) off len) := by
  obtain ⟨mem1, n, hone, hlocal, hold, hn, hhdr⟩ :=
    copyOne_ok hwf.head (by omega) htop hfit
  have hwf1 : Wf mem1 (m :: rest) :=
    ((hlocal.frame rest).wf hwf).swap.tail
  have hnot : ¬off + min len (m.len - off) > m.len := by omega
  rw [mCopymLoop, if_neg hlen]
  simp only [hone, bind, Except.bind, if_neg hnot]
  rcases Nat.lt_or_ge len (m.len - off) with hlt | hend
  · have hmin : min len (m.len - off) = len := Nat.min_eq_left (Nat.le_of_lt hlt)
    rw [hmin] at hn ⊢
    rw [if_neg (by omega)]
    refine Copies.within hlt hlocal hold hn hhdr ?_
    split
    next hall =>
      rw [if_neg (not_not.2 hall), hall]
      exact hmore mem1 hwf1 (by omega)
    next hne => simp only [Nat.sub_self, mCopymLoop_zero]
  · have hmin : min len (m.len - off) = m.len - off := Nat.min_eq_right hend
    rw [hmin] at hn ⊢
    rw [if_pos (by omega)]
    exact Copies.cons hoff hend hserved hlocal hold hn hhdr
      (hrest mem1 _ (hwf1.tail) (hserved.cons hoff hend))

theorem copyFits_none (hin : Inside mem m) (h : off + count ≤ m.len) :
    CopyFits mem none m off len count := fun hext => by
  have hle := hin.le
  rw [top_none hext] at hle
  have hdata : (copyTop mem none len).data = 0 := rfl
  omega

theorem mCopymLoop_nil (h : Served [] off len) :
    Copies mem copyhdr [] off len (mCopymLoop mem copyhdr [] off len) := by
  have hrun : mCopymLoop mem copyhdr [] off len = .ok (mem, []) := by
    rw [mCopymLoop.eq_def]
    split
    · rfl
    next hne =>
      rcases h with h | ⟨h, -⟩
      · rw [total_nil] at h
        omega
      · exact if_neg (not_not.2 h)
  refine ⟨mem, [], hrun, Local.refl, fun _ => rfl, fun _ => ?_, fun _ _ => ?_,
    fun _ hne => absurd rfl hne⟩
  · rw [view_nil, List.drop_nil]
  · rw [view_nil, List.drop_nil, List.take_nil]

theorem mCopymLoop_ok (hwf : Wf mem ms) (hoff : ∀ m ∈ ms.head?, off ≤ m.len)
    (hserved : Served ms off len) :
    Copies mem none ms off len (mCopymLoop mem none ms off len) := by
  induction hk : ms.length + (total ms - off) using Nat.strongRecOn generalizing mem ms off len with
  | ind k ih =>
    cases ms with
    | nil => exact mCopymLoop_nil hserved
    | cons m rest =>
      have hle : off ≤ m.len := hoff m rfl
      rw [List.length_cons, total_cons] at hk
      by_cases hlen : len = 0
      · subst hlen
        refine ⟨mem, [], mCopymLoop_zero, ?_, fun _ => rfl, fun h => ?_, fun _ _ => ?_,
          fun h => absurd rfl h⟩
        · rw [List.append_nil]
          exact Local.refl
        · rcases h with h | h
          · exact absurd h (by decide)
          · exact absurd h.1 (Nat.not_lt_zero _)
        · rw [view_nil, List.take_zero]
      · refine mCopymLoop_round hwf hle hlen hserved rfl
          (copyFits_none hwf.head (by omega)) ?_ ?_
        · intro mem1 len' hwf1 hserved1
          exact ih _ (by omega) hwf1 (fun _ _ => Nat.zero_le _) hserved1 rfl
        · intro mem1 hwf1 hlt
          have hpos : 0 < mCopyall := by decide
          refine ih _ ?_ hwf1 ?_ (Or.inr ⟨rfl, ?_⟩) rfl
          · rw [List.length_cons, total_cons]
            omega
          · intro x hx
            cases hx
            omega
          · rw [total_cons]
            omega

theorem Overcopies.append_iff (pre : List Mbuf) :
    Overcopies (pre ++ ms) (total pre + off) len ↔ Overcopies ms off len := by
  constructor
  · rintro ⟨hlt, htotal, pre', post, heq, hpre⟩
    rw [total_append] at htotal
    refine ⟨hlt, by omega, ?_⟩
    rcases List.append_eq_append_iff.1 heq with ⟨mid, rfl, rfl⟩ | ⟨mid, rfl, rfl⟩
    · rw [total_append] at hpre
      exact ⟨mid, post, rfl, by omega⟩
    · rw [total_append] at hpre
      omega
  · rintro ⟨hlt, htotal, pre', post, rfl, hpre⟩
    refine ⟨hlt, by rw [total_append]; omega, pre ++ pre', post, by rw [List.append_assoc], ?_⟩
    rw [total_append]
    omega

/-- The first data goes into the storage behind a header, and does not fit there: the header stands
in an empty mbuf, and plain storage has more room than storage behind a header. -/
def HeaderSpills (m0 : List Mbuf) (off len : Nat) : Prop :=
  off = 0 ∧ (hdr m0).isSome ∧ ∃ m rest o, mGetptr m0 off = some (m :: rest, o) ∧
    m.ext = none ∧ m.pkthdr = none ∧ mhlen < m.data + o + min len (m.len - o)

theorem copyhdrOf_eq_none (h : ¬(off = 0 ∧ (hdr ms).isSome)) : copyhdrOf ms off = none := by
  rw [copyhdrOf]
  split
  next hoff =>
    cases ms with
    | nil => rfl
    | cons m ms =>
      have hnone : ¬m.pkthdr.isSome := fun hsome => h ⟨hoff, hsome⟩
      simp only [List.head?_cons, Option.filter_some, if_neg hnone]
  · rfl

theorem copyhdrOf_eq_some (hoff : off = 0) (h : (hdr ms).isSome) :
    ∃ m, copyhdrOf ms off = some m ∧ m.pkthdr = hdr ms := by
  cases ms with
  | nil => exact absurd h nofun
  | cons m ms =>
    have hsome : m.pkthdr.isSome := h
    refine ⟨m, ?_, rfl⟩
    rw [copyhdrOf, if_pos hoff, List.head?_cons, Option.filter_some, if_pos hsome]

theorem copyTop_pkthdr : (copyTop mem (copyhdrOf ms off) len).pkthdr =
      if off = 0 then if len = mCopyall then hdr ms else (hdr ms).map fun _ => (len : Int)
      else none := by
  by_cases h : off = 0 ∧ (hdr ms).isSome
  · obtain ⟨m, hm, hhdr⟩ := copyhdrOf_eq_some h.1 h.2
    rw [hm, copyTop, if_pos h.1, ← hhdr]
    by_cases hall : len = mCopyall
    · rw [if_neg (not_not.2 hall), if_pos hall]
      rfl
    · rw [if_pos hall, if_neg hall]
      rfl
  · rw [copyhdrOf_eq_none h]
    split
    next hoff =>
      have hnone : hdr ms = none := Option.not_isSome_iff_eq_none.1 fun hsome => h ⟨hoff, hsome⟩
      rw [hnone]
      split <;> rfl
    · rfl

theorem copyTop_data : (copyTop mem (copyhdrOf ms off) len).data =
      if off = 0 ∧ (hdr ms).isSome then mPktdat else 0 := by
  split
  next h =>
    obtain ⟨m, hm, -⟩ := copyhdrOf_eq_some h.1 h.2
    rw [hm, copyTop]
    split <;> rfl
  next h => rw [copyhdrOf_eq_none h]; rfl

theorem copyTop_data_eq : (copyTop mem (copyhdrOf ms off) len).data =
      mDatabuf (copyTop mem (copyhdrOf ms off) len) := by
  rw [mDatabuf, copyTop_ext, copyTop_data, copyTop_pkthdr]
  by_cases hoff : off = 0
  · rw [if_pos hoff]
    cases hdr ms <;> by_cases hall : len = mCopyall <;> simp [hoff, hall]
  · rw [if_neg hoff, if_neg fun h => hoff h.1]
    rfl

theorem copyFits_iff (hin : Inside mem m) (hget : mGetptr ms off = some (m :: rest, o))
    (ho : o ≤ m.len) : CopyFits mem (copyhdrOf ms off) m o len (min len (m.len - o)) ↔
      ¬HeaderSpills ms off len := by
  have hle := hin.le
  have hge := hin.ge
  have hmlen : mlen = mPktdat + mhlen := rfl
  constructor
  · rintro hfit ⟨hoff, hsome, m', rest', o', hget', hext, hnone, hlt⟩
    rw [hget] at hget'
    obtain ⟨⟨rfl, rfl⟩, rfl⟩ : (m = m' ∧ rest = rest') ∧ o = o' := by simpa using hget'
    have hroom := hfit hext
    have hdb : mDatabuf m = 0 := by rw [mDatabuf, hext, hnone]; rfl
    rw [copyTop_data, if_pos ⟨hoff, hsome⟩] at hroom
    omega
  · intro hspill hext
    rw [top_none hext] at hle
    rw [copyTop_data]
    split
    next h =>
      by_cases hhdr : m.pkthdr = none
      · have hdb : mDatabuf m = 0 := by rw [mDatabuf, hext, hhdr]; rfl
        by_contra hlt
        exact hspill ⟨h.1, h.2, m, rest, o, hget, hext, hhdr, by omega⟩
      · have hdb : mDatabuf m = mPktdat := by
          simp only [mDatabuf, hext, Option.isSome_iff_ne_none.2 hhdr, ↓reduceIte]
        omega
    next => omega

theorem mCopym_spills (hwf : Wf mem ms) (hne : ms ≠ []) (hserved : Served ms off len)
    (hlen : len ≠ 0) (h : HeaderSpills ms off len) : mCopym mem ms off len = .error .overrun := by
  have hoff : off ≤ total ms := by
    rcases hserved with hle | hle
    · omega
    · exact hle.2
  obtain ⟨pre, m, rest, o, hget, heq, -, ho⟩ := mGetptr_spec hne hoff
  have hin : Inside mem m := hwf.inside m (by rw [heq]; simp)
  have hfit : ¬CopyFits mem (copyhdrOf ms off) m o len (min len (m.len - o)) := fun hfit =>
    (copyFits_iff hin hget (by omega)).1 hfit h
  have hover := copyOne_overrun hin (by omega) hfit
  have hrun : mCopymLoop mem (copyhdrOf ms off) (m :: rest) o len = .error .overrun := by
    rw [mCopymLoop, if_neg hlen]
    simp only [hover]
    rfl
  rw [mCopym, hget]
  exact hrun

theorem mCopym_ok (hwf : Wf mem ms) (hne : ms ≠ []) (hserved : Served ms off len)
    (hlen : len ≠ 0) (h : ¬HeaderSpills ms off len) :
    ∃ mem' top, mCopym mem ms off len = .ok (mem', top) ∧ Local mem ms mem' (ms ++ top) ∧
      view mem' ms = view mem ms ∧
      (len = mCopyall ∨ Overcopies ms off len → view mem' top = (view mem ms).drop off) ∧
      (len ≠ mCopyall → ¬Overcopies ms off len →
        view mem' top = ((view mem ms).drop off).take len) ∧ hdr top =
        if off = 0 then if len = mCopyall then hdr ms else (hdr ms).map fun _ => (len : Int)
        else none := by
  have hoff : off ≤ total ms := by
    rcases hserved with hle | hle
    · omega
    · exact hle.2
  obtain ⟨pre, m, rest, o, hget, heq, htotal, ho⟩ := mGetptr_spec hne hoff
  have hwfm : Wf mem (m :: rest) := by
    rw [heq] at hwf
    exact hwf.right
  have hservedm : Served (m :: rest) o len := by
    rw [heq, Served, total_append] at hserved
    rw [Served]
    omega
  have hover : Overcopies ms off len ↔ Overcopies (m :: rest) o len := by
    rw [heq, ← htotal, Overcopies.append_iff]
  have hdrop : (view mem ms).drop off = (view mem (m :: rest)).drop o := by
    rw [heq, ← htotal, view_append, ← length_view mem pre, List.drop_length_add_append]
  obtain ⟨mem', top, hrun, hlocal, hold, hall, htake, hhdr⟩ :=
    mCopymLoop_round hwfm (by omega) hlen hservedm copyTop_data_eq
      ((copyFits_iff hwfm.head hget (by omega)).2 h)
      (fun mem1 len' hwf1 hserved1 =>
        mCopymLoop_ok hwf1 (fun _ _ => Nat.zero_le _) hserved1)
      (fun mem1 hwf1 hlt => mCopymLoop_ok hwf1 (fun x hx => by cases hx; omega)
        (.inr ⟨rfl, by rw [total_cons]; omega⟩))
  refine ⟨mem', top, ?_, ?_, view_congr fun x _ => hold x, ?_, ?_, ?_⟩
  · rw [mCopym, hget]
    exact hrun
  · have hframe := hlocal.append_left pre
    rwa [← List.append_assoc, ← heq] at hframe
  · rw [hover, hdrop]
    exact hall
  · rw [hover, hdrop]
    exact htake
  · rw [hhdr hlen (List.cons_ne_nil m rest), copyTop_pkthdr]

end Mbsd.Kern.MbufChain
