import Mbsd.Kern.MbufChain.Walk

/-! `m_cat` and `m_prepend`. -/

namespace Mbsd.Kern.MbufChain

open Lib.Run List Bool Local Option

variable {mem : Mem} {m n : Mbuf} {ms ns rest : List Mbuf}

def mCatLast (mem : Mem) (m : Mbuf) : List Mbuf → Except Fault (Mem × List Mbuf)
  | [] => .ok (mem, [m])
  | n :: ns =>
    if mReadonly mem m then .ok (mem, m :: n :: ns)
    else do
      let space ← mTrailingspace mem m
      if n.len > space then .ok (mem, m :: n :: ns)
      else do
        let l ← mRead mem n n.data n.len
        let (mem, m) ← mWrite mem m (m.data + m.len) l
        mCatLast (mFree mem n) { m with len := m.len + n.len } ns

def mCat (mem : Mem) : List Mbuf → List Mbuf → Except Fault (Mem × List Mbuf)
  | [], _ => .error .panic
  | [m], ns => mCatLast mem m ns
  | m :: m' :: ms, ns => do
    let (mem, ms) ← mCat mem (m' :: ms) ns
    .ok (mem, m :: ms)

theorem mRead_all (h : Inside mem m) : mRead mem m m.data m.len = .ok (bytes mem m) := by
  rw [mRead_ok h.ge h.le]
  rfl

def extend (mem : Mem) (m : Mbuf) (l : List Byte) : Mem × Mbuf :=
  ((poke mem m (m.data + m.len) l).1,
    { (poke mem m (m.data + m.len) l).2 with len := m.len + l.length })

@[simp] theorem extend_len : (extend mem m l).2.len = m.len + l.length := rfl

@[simp] theorem extend_data : (extend mem m l).2.data = m.data := poke_data ..

@[simp] theorem extend_pkthdr : (extend mem m l).2.pkthdr = m.pkthdr := poke_pkthdr ..

theorem extend_ext : (extend mem m l).2.ext = m.ext := poke_ext ..

theorem extend_top : mDatabuf (extend mem m l).2 + mSize (extend mem m l).1 (extend mem m l).2 =
    mDatabuf m + mSize mem m := by
  have hhdr : (extend mem m l).2.pkthdr.isSome = m.pkthdr.isSome := by rw [extend_pkthdr]
  have hmem : mSize (extend mem m l).1 (extend mem m l).2 = mSize mem (extend mem m l).2 :=
    mSize_poke ..
  rw [hmem, mDatabuf_congr extend_ext hhdr, mSize_congr extend_ext hhdr]

theorem mReadonly_extend : mReadonly (extend mem m l).1 (extend mem m l).2 = mReadonly mem m :=
  mReadonly_poke ..

theorem bytes_extend (mem : Mem) (m : Mbuf) (l : List Byte) :
    bytes (extend mem m l).1 (extend mem m l).2 = bytes mem m ++ l := by
  have hstore : store (extend mem m l).1 (extend mem m l).2 =
      Lib.RingSlice.put (store mem m) (m.data + m.len) l := store_poke ..
  rw [bytes, bytes, hstore, extend_data]
  exact run_put_append ..

theorem local_extend (hw : mReadonly mem m = false)
    (hroom : m.data + m.len + l.length ≤ mDatabuf m + mSize mem m) :
    Local mem [m] (extend mem m l).1 [(extend mem m l).2] := by
  have hin : mDatabuf m ≤ m.data → Inside mem (extend mem m l).2 := fun hge =>
    Inside.place extend_ext (by rw [extend_pkthdr]) (by rw [extend_data]; exact hge)
      (by rw [extend_data, extend_len]; omega)
  refine (local_poke hw _ _).trans (local_set rfl fun hold => inside_poke (hin ?_))
  have hge := hold.ge
  rwa [mDatabuf_congr (poke_ext ..) (by rw [poke_pkthdr]), poke_data] at hge

theorem mCatLast_ok (hwf : Wf mem (m :: ns)) :
    ∃ mem' r, mCatLast mem m ns = .ok (mem', r) ∧ Local mem (m :: ns) mem' r ∧
      view mem' r = view mem (m :: ns) ∧ hdr r = hdr [m] := by
  induction ns generalizing mem m with
  | nil => exact ⟨mem, [m], rfl, refl, rfl, rfl⟩
  | cons n ns ih =>
    have hkeep : mCatLast mem m (n :: ns) = .ok (mem, m :: n :: ns) →
        ∃ mem' r, mCatLast mem m (n :: ns) = .ok (mem', r) ∧ Local mem (m :: n :: ns) mem' r ∧
          view mem' r = view mem (m :: n :: ns) ∧ hdr r = hdr [m] := fun h =>
      ⟨mem, m :: n :: ns, h, refl, rfl, rfl⟩
    by_cases hw : mReadonly mem m = true
    · exact hkeep (by rw [mCatLast, if_pos hw])
    rw [not_eq_true] at hw
    have hspace := mTrailingspace_ok hwf.head
    rw [hw] at hspace
    by_cases hlong : n.len > mDatabuf m + mSize mem m - (m.data + m.len)
    · refine hkeep ?_
      simp only [mCatLast, hw, hspace, false_eq_true, ↓reduceIte]
      exact if_pos hlong
    have hn : Inside mem n := hwf.inside n (by simp)
    have hin := hwf.head
    have hroom : m.data + m.len + (bytes mem n).length ≤ mDatabuf m + mSize mem m := by
      have hle := hin.le
      rw [length_bytes]
      omega
    have hge : mDatabuf m ≤ m.data + m.len := Nat.le_trans hin.ge (Nat.le_add_right ..)
    have hrun : mCatLast mem m (n :: ns) =
        mCatLast (mFree (extend mem m (bytes mem n)).1 n) (extend mem m (bytes mem n)).2 ns := by
      simp only [mCatLast, hw, hspace, false_eq_true, ↓reduceIte, mRead_all hn,
        length_bytes, bind, Except.bind, if_neg hlong, mWrite_ok hge hroom, poke_len, extend]
    have hext := local_extend hw hroom
    have hlocal : Local mem (m :: n :: ns) (mFree (extend mem m (bytes mem n)).1 n)
        ((extend mem m (bytes mem n)).2 :: ns) :=
      (hext.frame (n :: ns)).trans (((local_mFree _ n).frame ns).cons _)
    obtain ⟨mem', r, hok, hl, hview, hhdr⟩ := ih (hlocal.wf hwf)
    refine ⟨mem', r, hrun.trans hok, hlocal.trans hl, ?_, ?_⟩
    · rw [hview, view_cons, bytes_mFree, bytes_extend, view_mFree,
        hext.view_frame ns hwf.swap.tail, view_cons, view_cons, append_assoc]
    · rw [hhdr]
      exact extend_pkthdr

theorem mCat_ok (hne : ms ≠ []) (hwf : Wf mem (ms ++ ns)) :
    ∃ mem' r, mCat mem ms ns = .ok (mem', r) ∧ Local mem (ms ++ ns) mem' r ∧
      view mem' r = view mem ms ++ view mem ns ∧ hdr r = hdr ms := by
  induction ms with
  | nil => exact absurd rfl hne
  | cons m ms ih =>
    cases ms with
    | nil =>
      obtain ⟨mem', r, hrun, hlocal, hview, hhdr⟩ := mCatLast_ok hwf
      refine ⟨mem', r, hrun, hlocal, ?_, hhdr⟩
      rw [hview, view_cons, view_cons, view_nil, append_nil]
      rfl
    | cons m' ms =>
      obtain ⟨mem', r, hrun, hlocal, hview, -⟩ :=
        ih (cons_ne_nil m' ms) hwf.tail
      refine ⟨mem', m :: r, ?_, hlocal.cons m, ?_, rfl⟩
      · rw [mCat, hrun]
        rfl
      · rw [view_cons, hlocal.bytes_frame hwf, hview, view_cons (m := m), append_assoc]

def mPrepend (mem : Mem) : List Mbuf → Nat → Except Fault (List Mbuf)
  | [], _ => .error .panic
  | m :: rest, len => do
    ensure (len ≤ mhlen) .panic
    let space ← mLeadingspace mem m
    if space ≥ len then
      .ok (setHdr (· + len) ({ m with data := m.data - len, len := m.len + len } :: rest))
    else do
      let mn := mGet mem
      let (mn, m) := if m.pkthdr.isSome then mMovePkthdr mn m else (mn, m)
      let mn ← mAlign mem mn len
      .ok (setHdr (· + len) ({ mn with len := len } :: m :: rest))

theorem mAlign_ok (mem : Mem) (n : Mbuf) (hext : n.ext = none) (hdata : n.data = mDatabuf n)
    (hlen : len ≤ mSize mem n) : ∃ d, mAlign mem n len = .ok { n with data := d } ∧
      Inside mem { n with data := d, len := len } := by
  have hsize : mSize mem n = if n.pkthdr.isSome then mhlen else mlen := by rw [mSize, hext]
  have hmul : mSize mem n % sizeofLong = 0 := by
    rw [hsize]
    split <;> rfl
  have hround : (len + sizeofLong - 1) / sizeofLong * sizeofLong ≤ mSize mem n := by
    simp only [sizeofLong] at hmul ⊢
    omega
  have hfit : (mSize mem n - len) / sizeofLong * sizeofLong + len ≤ mSize mem n := by
    simp only [sizeofLong] at hmul ⊢
    omega
  refine ⟨mDatabuf n + (mSize mem n - len) / sizeofLong * sizeofLong, ?_, ?_, ?_⟩
  · rw [mAlign, ensure_ok (mReadonly_none hext), ensure_ok hdata, ensure_ok hround]
    rfl
  · exact Nat.le_add_right (mDatabuf n) _
  · refine Nat.le_trans (Nat.le_of_eq (Nat.add_assoc ..)) ?_
    exact Nat.add_le_add_left hfit (mDatabuf n)

theorem move_inside (h : Inside mem m) : Inside mem { m with pkthdr := none } := by
  rcases m.ext.eq_none_or_eq_some with hext | ⟨b, hext⟩
  · rw [inside_none_iff hext] at h
    refine (inside_none_iff (m := { m with pkthdr := none }) hext).2 ⟨?_, h.2⟩
    simp only [mDatabuf, hext]
    exact Nat.zero_le _
  · rw [inside_some_iff hext] at h
    exact (inside_some_iff (m := { m with pkthdr := none }) hext).2 h

def Prepended (mem : Mem) (ms : List Mbuf) (len : Nat) (r : List Mbuf) : Prop :=
  Local mem ms mem r ∧ (∃ l, l.length = len ∧ view mem r = l ++ view mem ms) ∧
    hdr r = (hdr ms).map (· + (len : Int))

theorem prepended_leading (hlen : len ≤ m.data - mDatabuf m) (rest : List Mbuf) :
    Prepended mem (m :: rest) len
      (setHdr (· + (len : Int)) ({ m with data := m.data - len, len := m.len + len } :: rest)) := by
  have hmove : Inside mem m → Inside mem { m with data := m.data - len, len := m.len + len } :=
    fun hin => by
      have hge := hin.ge
      have hle := hin.le
      exact Inside.place (m := m) rfl rfl (by simp only; omega) (by simp only; omega)
  have hset : Local mem (m :: rest) mem
      ({ m with data := m.data - len, len := m.len + len } :: rest) := refl.cons_set rfl hmove
  refine ⟨hset.trans (local_setHdr _ _ _), ⟨run (store mem m) (m.data - len) len, length_run, ?_⟩, hdr_setHdr ..⟩
  have hrun : bytes mem { m with data := m.data - len, len := m.len + len } =
      run (store mem m) (m.data - len) len ++ bytes mem m := by
    have hsplit := run_add (store mem m) (m.data - len) len m.len
    rw [Nat.sub_add_cancel (by omega), Nat.add_comm] at hsplit
    exact hsplit
  rw [view_setHdr, view_cons, view_cons, hrun, append_assoc]

theorem prepended_new {d : Nat} (mn : Mbuf) (hm : mn.ext = none) (hhdr : mn.pkthdr = m.pkthdr)
    (hin : Inside mem { mn with data := d, len := len }) (rest : List Mbuf) :
    Prepended mem (m :: rest) len (setHdr (· + (len : Int))
      ({ mn with data := d, len := len } :: { m with pkthdr := none } :: rest)) := by
  have hdrop : Local mem (m :: rest) mem ({ m with pkthdr := none } :: rest) :=
    refl.cons_set rfl move_inside
  have hnew : Local mem [] mem [{ mn with data := d, len := len }] := local_new hm hin
  refine ⟨(hdrop.trans (hnew.frame _)).trans (local_setHdr _ _ _),
    ⟨bytes mem { mn with data := d, len := len }, length_bytes, ?_⟩, ?_⟩
  · rw [view_setHdr, view_cons, view_cons]
    rfl
  · rw [hdr_setHdr]
    exact congrArg _ hhdr

theorem mPrepend_ok (hin : Inside mem m) (hlen : len ≤ mhlen) (rest : List Mbuf) :
    ∃ r, mPrepend mem (m :: rest) len = .ok r ∧ Prepended mem (m :: rest) len r := by
  have hspace := mLeadingspace_ok hin
  by_cases hle : (if mReadonly mem m then 0 else m.data - mDatabuf m) ≥ len
  · have hroom : len ≤ m.data - mDatabuf m := by
      split at hle <;> omega
    refine ⟨_, ?_, prepended_leading hroom rest⟩
    simp only [mPrepend, ensure_ok hlen, hspace, bind, Except.bind, if_pos hle]
  · by_cases hhdr : m.pkthdr.isSome
    · obtain ⟨h, hsome⟩ := isSome_iff_exists.1 hhdr
      have hfit : len ≤ mSize mem (mMovePkthdr (mGet mem) m).1 := by
        rw [mSize, mMovePkthdr, hsome]
        exact hlen
      obtain ⟨d, halign, hnin⟩ := mAlign_ok mem (mMovePkthdr (mGet mem) m).1 rfl
        (by rw [mDatabuf, mMovePkthdr, hsome]; rfl) hfit
      refine ⟨_, ?_, prepended_new (m := m) (mMovePkthdr (mGet mem) m).1 rfl rfl hnin rest⟩
      simp only [mPrepend, ensure_ok hlen, hspace, bind, Except.bind, if_neg hle, if_pos hhdr, halign]
      rfl
    · have hnone : m.pkthdr = none := not_isSome_iff_eq_none.1 hhdr
      have hkeep : { m with pkthdr := none } = m := by rw [← hnone]
      obtain ⟨d, halign, hnin⟩ := mAlign_ok mem (mGet mem) rfl rfl
        (Nat.le_trans hlen (Nat.sub_le mlen sizeofPkthdr))
      have hpre := prepended_new (m := m) (mGet mem) rfl hnone.symm hnin rest
      rw [hkeep] at hpre
      refine ⟨_, ?_, hpre⟩
      simp only [mPrepend, ensure_ok hlen, hspace, bind, Except.bind, if_neg hle, if_neg hhdr, halign]

end Mbsd.Kern.MbufChain

/-! `m_split`. -/

namespace Mbsd.Kern.MbufChain

open Lib.Run List Option

variable {mem : Mem} {m n : Mbuf} {ms rest : List Mbuf} {pre post : List Mbuf} {m0 : Mbuf}

def splitMbuf (mem : Mem) (m n : Mbuf) (len : Nat) : Except Fault (Mem × Mbuf × Mbuf) :=
  let remain := m.len - len
  match m.ext with
  | some _ =>
    let (mem, n) := mExtref mem m { n with data := m.data + len }
    .ok (mem, { m with len := len }, { n with len := remain })
  | none => do
    let n ← mAlign mem n remain
    let l ← mRead mem m (m.data + len) remain
    let (mem, n) ← mWrite mem n n.data l
    .ok (mem, { m with len := len }, { n with len := remain })

def splitHead (mem : Mem) (m0 : Mbuf) (len0 : Nat) : Mbuf :=
  if m0.pkthdr.isSome then
    let n := mDupPkthdr (mGethdr mem) m0
    { n with pkthdr := n.pkthdr.map (· - (len0 : Int)) }
  else mGet mem

/-- The chain in front and its tail.  `depth` is the number of calls that the stack has room for. -/
def mSplit (mem : Mem) : Nat → List Mbuf → Nat → Except Fault (Mem × List Mbuf × List Mbuf)
  | 0, _, _ => .error .panic
  | _, [], _ => .error .panic
  | depth + 1, m0 :: rest, len0 =>
    match mSeek (setHdr (fun _ => len0) (m0 :: rest)) len0 with
    | none => .error .short
    | some (pre, m, post, len) =>
      let remain := m.len - len
      let n := splitHead mem m0 len0
      if m0.pkthdr.isSome ∧ remain = 0 then .ok (mem, pre ++ [m], { n with len := 0 } :: post)
      else if m0.pkthdr.isSome ∧ m.ext = none ∧ remain > mhlen then do
        let n ← mAlign mem n 0
        let (mem, front, back) ← mSplit mem depth (m :: post) len
        .ok (mem, pre ++ front, { n with len := 0 } :: back)
      else if remain = 0 then .ok (mem, pre ++ [m], post)
      else do
        let (mem, m, n) ← splitMbuf mem m n len
        .ok (mem, pre ++ [m], n :: post)

theorem splitMbuf_ok (hin : Inside mem m) (hlen : len ≤ m.len) (hn : n.ext = none)
    (hdata : n.data = mDatabuf n) (hfit : m.ext = none → m.len - len ≤ mSize mem n) :
    ∃ mem' n', splitMbuf mem m n len = .ok (mem', { m with len := len }, n') ∧
      Local mem [m] mem' [{ m with len := len }, n'] ∧ (∀ x, bytes mem' x = bytes mem x) ∧
      bytes mem' n' = (bytes mem m).drop len ∧ n'.pkthdr = n.pkthdr := by
  have hle := hin.le
  have hshort : Inside mem m → Inside mem { m with len := len } := fun h =>
    h.of_ext rfl rfl (Nat.le_refl _) (Nat.add_le_add_left hlen _)
  rcases m.ext.eq_none_or_eq_some with hext | ⟨b, hext⟩
  · obtain ⟨d, halign, hnin⟩ := mAlign_ok mem n hn hdata (hfit hext)
    have hread := mRead_data hin (show len + (m.len - len) ≤ m.len by omega)
    have hall : ((bytes mem m).drop len).take (m.len - len) = (bytes mem m).drop len :=
      take_of_length_le (by rw [length_drop, length_bytes])
    have hlength : ((bytes mem m).drop len).length = m.len - len := by
      rw [length_drop, length_bytes]
    rw [hall] at hread
    have hwrite : mWrite mem { n with data := d } d ((bytes mem m).drop len) =
        .ok (poke mem { n with data := d } d ((bytes mem m).drop len)) :=
      mWrite_ok hnin.ge (by rw [hlength]; exact hnin.le)
    have hpoke : ∀ l, (poke mem { n with data := d } d l).1 = mem ∧
        { (poke mem { n with data := d } d l).2 with len := m.len - len } =
          (poke mem { n with data := d, len := m.len - len } d l).2 := fun l => by
      simp only [poke, hn, and_self]
    have hnew : Local mem [] mem [{ n with data := d, len := m.len - len }] := local_new hn hnin
    have hw : mReadonly mem { n with data := d, len := m.len - len } = false := mReadonly_none hn
    have hput := local_poke hw d ((bytes mem m).drop len)
    have hmem : (poke mem { n with data := d, len := m.len - len } d ((bytes mem m).drop len)).1 =
        mem := by simp only [poke, hn]
    rw [hmem] at hput
    have hcut : Local mem [m] mem [{ m with len := len }] := local_set rfl hshort
    refine ⟨mem, (poke mem { n with data := d, len := m.len - len } d ((bytes mem m).drop len)).2,
      ?_, hcut.trans ((hnew.trans hput).cons _), fun _ => rfl, ?_, poke_pkthdr ..⟩
    · simp only [splitMbuf, hext, halign, hread, hwrite, bind, Except.bind, (hpoke _).1, (hpoke _).2]
    · have hstore := store_poke mem { n with data := d, len := m.len - len } d
        ((bytes mem m).drop len)
      rw [hmem] at hstore
      rw [bytes, hstore, poke_data, poke_len]
      exact put_run_self hlength
  · let n' : Mbuf := { n with ext := some b, extwr := n.extwr || m.extwr
                              data := m.data + len, len := m.len - len }
    rw [mDatabuf_some hext, mSize_some hext] at hle
    have hnin : Inside mem n' := (inside_some_iff rfl).2 (by
      simp only [n']
      omega)
    have hshare := local_share hext rfl hnin
    have hset : Local (addRefs mem b (· + 1)) [m, n'] (addRefs mem b (· + 1))
        [{ m with len := len }, n'] := Local.refl.cons_set rfl fun h =>
      h.of_ext rfl rfl (Nat.le_refl _) (Nat.add_le_add_left hlen _)
    refine ⟨addRefs mem b (· + 1), n', ?_, hshare.trans hset, fun _ => bytes_addRefs, ?_, rfl⟩
    · simp only [splitMbuf, hext, mExtref]
      rfl
    · rw [bytes_addRefs, bytes, bytes, drop_run hlen, store_some hext]
      rfl

def SplitAt (mem : Mem) (ms : List Mbuf) (len0 : Nat)
    (r : Except Fault (Mem × List Mbuf × List Mbuf)) : Prop :=
  ∃ mem' front back, r = .ok (mem', front, back) ∧ Local mem ms mem' (front ++ back) ∧
    view mem' front = (view mem ms).take len0 ∧ view mem' back = (view mem ms).drop len0 ∧
    hdr front = (hdr ms).map (fun _ => (len0 : Int)) ∧
    ∀ h, hdr ms = some h → hdr back = some (h - len0)

theorem splitHead_fresh (mem : Mem) (m0 : Mbuf) (len0 : Nat) : (splitHead mem m0 len0).ext = none ∧
      (splitHead mem m0 len0).data = mDatabuf (splitHead mem m0 len0) ∧
      (splitHead mem m0 len0).pkthdr = m0.pkthdr.map (· - (len0 : Int)) := by
  cases hhdr : m0.pkthdr with
  | none =>
    have hplain : splitHead mem m0 len0 = mGet mem := by rw [splitHead, hhdr]; rfl
    rw [hplain]
    exact ⟨rfl, rfl, rfl⟩
  | some h =>
    simp only [splitHead, mDupPkthdr, hhdr, isSome_some]
    exact ⟨rfl, rfl, rfl⟩

theorem mSize_splitHead (mem : Mem) (m0 : Mbuf) (len0 : Nat) :
    mSize mem (splitHead mem m0 len0) = if m0.pkthdr.isSome then mhlen else mlen := by
  obtain ⟨hext, -, hhdr⟩ := splitHead_fresh mem m0 len0
  rw [mSize, hext, hhdr, isSome_map]

theorem splitAt_border (mem : Mem) (post : List Mbuf) (htotal : total pre + m.len = len0) :
    view mem (pre ++ [m]) = (view mem (pre ++ m :: post)).take len0 ∧
      view mem post = (view mem (pre ++ m :: post)).drop len0 := by
  have hsplit : view mem (pre ++ m :: post) = view mem (pre ++ [m]) ++ view mem post := by
    simp only [view_append, view_cons, view_nil, append_nil, append_assoc]
  have hlength : (view mem (pre ++ [m])).length = len0 := by
    simp only [length_view, total_append, total_cons, total_nil]
    omega
  rw [hsplit, take_left' hlength, drop_left' hlength]
  exact ⟨rfl, rfl⟩

theorem hdr_append (hne : ms ≠ []) (ns : List Mbuf) : hdr (ms ++ ns) = hdr ms := by
  cases ms with
  | nil => exact absurd rfl hne
  | cons m ms => rfl

theorem hdr_front {f : Int → Int}
    (heq : setHdr f ms = pre ++ m :: post) (hx : x.pkthdr = m.pkthdr) :
    hdr (pre ++ [x]) = (hdr ms).map f := by
  rw [← hdr_setHdr, heq]
  cases pre with
  | nil => exact hx
  | cons y pre => rfl

section Walked

variable {m0 : Mbuf} {pre post : List Mbuf} {len len0 : Nat}

theorem splitAt_mbuf (hwf : Wf mem (m0 :: rest))
    (heq : setHdr (fun _ => (len0 : Int)) (m0 :: rest) = pre ++ m :: post)
    (htotal : total pre + len = len0) (hlen : len ≤ m.len)
    (hfit : m.ext = none → m.len - len ≤ mSize mem (splitHead mem m0 len0)) :
    SplitAt mem (m0 :: rest) len0 (do
      let (mem, m, n) ← splitMbuf mem m (splitHead mem m0 len0) len
      .ok (mem, pre ++ [m], n :: post)) := by
  have hset := local_setHdr mem (fun _ => (len0 : Int)) (m0 :: rest)
  have hview0 : view mem (m0 :: rest) = view mem (pre ++ m :: post) := by
    rw [← heq, view_setHdr]
  rw [heq] at hset
  obtain ⟨hext, hdata, hhdr⟩ := splitHead_fresh mem m0 len0
  obtain ⟨mem', n, hrun, hlocal, hold, hbytes, hn⟩ :=
    splitMbuf_ok ((hset.wf hwf).inside m (by simp)) hlen hext hdata hfit
  have hview : ∀ ns, view mem' ns = view mem ns := fun ns => view_congr fun x _ => hold x
  refine ⟨mem', pre ++ [{ m with len := len }], n :: post, ?_, ?_, ?_, ?_, hdr_front heq rfl, ?_⟩
  · simp only [hrun, bind, Except.bind]
  · rw [append_assoc]
    exact hset.trans ((hlocal.frame post).append_left pre)
  · rw [hview, hview0, view_append, view_append, view_cons, view_cons, view_nil,
      bytes_short mem hlen, ← htotal, ← length_view mem pre, take_length_add_append,
      append_nil, take_append_of_le_length (by rw [length_bytes]; exact hlen)]
  · rw [view_cons, hbytes, hview, hview0, view_append, view_cons, ← htotal, ← length_view mem pre,
      drop_length_add_append, drop_append_of_le_length (by rw [length_bytes]; exact hlen)]
  · intro h hh
    have hsome : m0.pkthdr = some h := hh
    exact (hn.trans hhdr).trans (by rw [hsome]; rfl)

theorem splitAt_plain (hhdr : m0.pkthdr = none)
    (heq : setHdr (fun _ => (len0 : Int)) (m0 :: rest) = pre ++ m :: post)
    (htotal : total pre + m.len = len0) :
    SplitAt mem (m0 :: rest) len0 (.ok (mem, pre ++ [m], post)) := by
  have hset := local_setHdr mem (fun _ => (len0 : Int)) (m0 :: rest)
  have hborder := splitAt_border mem post htotal
  rw [← heq, view_setHdr] at hborder
  rw [heq] at hset
  refine ⟨mem, pre ++ [m], post, rfl, ?_, hborder.1, hborder.2, hdr_front heq rfl, ?_⟩
  · rw [append_assoc]
    exact hset
  · intro h hh
    have hsome : m0.pkthdr = some h := hh
    rw [hhdr] at hsome
    cases hsome

theorem splitAt_header (hn : n.ext = none)
    (hhdr : n.pkthdr = m0.pkthdr.map (· - (len0 : Int))) (hin : Inside mem { n with len := 0 })
    (heq : setHdr (fun _ => (len0 : Int)) (m0 :: rest) = pre ++ m :: post)
    (htotal : total pre + m.len = len0) :
    SplitAt mem (m0 :: rest) len0 (.ok (mem, pre ++ [m], { n with len := 0 } :: post)) := by
  have hset := local_setHdr mem (fun _ => (len0 : Int)) (m0 :: rest)
  have hborder := splitAt_border mem post htotal
  rw [← heq, view_setHdr] at hborder
  rw [heq] at hset
  have hnew : Local mem [] mem [{ n with len := 0 }] := local_new hn hin
  refine ⟨mem, pre ++ [m], _, rfl, ?_, hborder.1, ?_, hdr_front heq rfl, ?_⟩
  · rw [append_assoc]
    exact hset.trans (((hnew.frame post).cons m).append_left pre)
  · rw [view_cons, bytes_short mem (Nat.zero_le _), take_zero, nil_append]
    exact hborder.2
  · intro h hh
    have hsome : m0.pkthdr = some h := hh
    exact hhdr.trans (by rw [hsome]; rfl)

end Walked

theorem mSeek_setHdr (f : Int → Int) (hwf : Wf mem ms) (hne : ms ≠ []) (hlen : len0 ≤ total ms) :
    ∃ pre m post len, mSeek (setHdr f ms) len0 = some (pre, m, post, len) ∧
      setHdr f ms = pre ++ m :: post ∧ total pre + len = len0 ∧ len ≤ m.len ∧
      Wf mem (m :: post) := by
  have hne' : setHdr f ms ≠ [] := by
    cases ms with
    | nil => exact absurd rfl hne
    | cons m ms => exact cons_ne_nil _ _
  obtain ⟨pre, m, post, len, hseek, heq, htotal, hle⟩ :=
    mSeek_spec (setHdr f ms) hne' (show len0 ≤ total (setHdr f ms) by rw [total_setHdr]; exact hlen)
  have hwf1 := (local_setHdr mem f ms).wf hwf
  rw [heq] at hwf1
  exact ⟨pre, m, post, len, hseek, heq, htotal, hle, hwf1.right⟩

theorem mSplit_plain (hwf : Wf mem (m0 :: rest)) (hhdr : m0.pkthdr = none)
    (hlen : len0 ≤ total (m0 :: rest)) (depth : Nat) :
    SplitAt mem (m0 :: rest) len0 (mSplit mem (depth + 1) (m0 :: rest) len0) := by
  have hnone : m0.pkthdr.isSome = false := by rw [hhdr]; rfl
  obtain ⟨pre, m, post, len, hseek, heq, htotal, hle, hwfm⟩ :=
    mSeek_setHdr (fun _ => (len0 : Int)) hwf (cons_ne_nil m0 rest) hlen
  rw [mSplit, hseek]
  simp only [hnone, false_and, ↓reduceIte, Bool.false_eq_true]
  by_cases hend : m.len - len = 0
  · rw [if_pos hend]
    exact splitAt_plain hhdr heq (by omega)
  · rw [if_neg hend]
    refine splitAt_mbuf hwf heq htotal hle fun hext => ?_
    have hroom := (inside_none_iff hext).1 hwfm.head
    rw [mSize_splitHead, hnone]
    simp only [Bool.false_eq_true, ↓reduceIte]
    omega

theorem splitAt_deep {len len0 : Nat} (hwf : Wf mem (m0 :: rest))
    (hn : n.ext = none) (hhdr : n.pkthdr = m0.pkthdr.map (· - (len0 : Int)))
    (hin : Inside mem { n with len := 0 })
    (heq : setHdr (fun _ => (len0 : Int)) (m0 :: rest) = pre ++ m :: post)
    (htotal : total pre + len = len0) (hpre : pre ≠ []) (hsplit : SplitAt mem (m :: post) len r) :
    SplitAt mem (m0 :: rest) len0 (r.bind fun p =>
      .ok (p.1, pre ++ p.2.1, { n with len := 0 } :: p.2.2)) := by
  have hset := local_setHdr mem (fun _ => (len0 : Int)) (m0 :: rest)
  have hview : view mem (m0 :: rest) = view mem (pre ++ m :: post) := by rw [← heq, view_setHdr]
  have hhdrs : hdr pre = (hdr (m0 :: rest)).map fun _ => (len0 : Int) := by
    rw [← hdr_setHdr, heq, hdr_append hpre]
  obtain ⟨mem', front, back, rfl, hlocal, hfront, hback, -, -⟩ := hsplit
  rw [heq] at hset
  have hframe := hlocal.append_left pre
  have hwf1 := hset.wf hwf
  have hkeep : view mem' pre = view mem pre :=
    hlocal.view_frame pre (hwf1.perm perm_append_comm)
  have hn' : { n with len := 0 }.ext = none := hn
  have hin' : Inside mem' { n with len := 0 } :=
    (inside_none_iff hn').2 ((inside_none_iff hn').1 hin)
  have hnew : Local mem' [] mem' [{ n with len := 0 }] := local_new hn hin'
  refine ⟨mem', pre ++ front, _, rfl, ?_, ?_, ?_, ?_, ?_⟩
  · rw [append_assoc]
    exact (hset.trans hframe).trans (((hnew.frame back).append_left front).append_left pre)
  · rw [view_append, hkeep, hfront, hview, view_append, ← htotal, ← length_view mem pre,
      take_length_add_append]
  · rw [view_cons, bytes_short mem' (Nat.zero_le _), take_zero, nil_append, hback, hview,
      view_append, ← htotal, ← length_view mem pre, drop_length_add_append]
  · rw [hdr_append hpre, hhdrs]
  · intro h hh
    have hsome : m0.pkthdr = some h := hh
    exact hhdr.trans (by rw [hsome]; rfl)

theorem mSplit_ok (hwf : Wf mem (m0 :: rest)) (hlen : len0 ≤ total (m0 :: rest))
    (depth : Nat) : SplitAt mem (m0 :: rest) len0 (mSplit mem (depth + 2) (m0 :: rest) len0) := by
  by_cases hhdr : m0.pkthdr = none
  · exact mSplit_plain hwf hhdr hlen (depth + 1)
  have hsome : m0.pkthdr.isSome = true := isSome_iff_ne_none.2 hhdr
  obtain ⟨pre, m, post, len, hseek, heq, htotal, hle, hwfm⟩ :=
    mSeek_setHdr (fun _ => (len0 : Int)) hwf (cons_ne_nil m0 rest) hlen
  obtain ⟨hnext, hndata, hnhdr⟩ := splitHead_fresh mem m0 len0
  have hnsize : mSize mem (splitHead mem m0 len0) = mhlen := by rw [mSize_splitHead, if_pos hsome]
  rw [mSplit, hseek]
  simp only [hsome, true_and]
  by_cases hend : m.len - len = 0
  · have hnin : Inside mem { splitHead mem m0 len0 with len := 0 } :=
      Inside.place (m := splitHead mem m0 len0) rfl rfl (by simp only; omega) (by simp only; omega)
    rw [if_pos hend]
    exact splitAt_header hnext hnhdr hnin heq (by omega)
  rw [if_neg hend]
  by_cases hbig : m.ext = none ∧ m.len - len > mhlen
  · have hroom := (inside_none_iff hbig.1).1 hwfm.head
    have hm : m.pkthdr = none := by
      by_contra hne
      have hdb : mDatabuf m = mPktdat := by
        simp only [mDatabuf, hbig.1, isSome_iff_ne_none.2 hne, ↓reduceIte]
      have hmlen : mlen = mPktdat + mhlen := rfl
      omega
    have hpre : pre ≠ [] := by
      rintro rfl
      obtain ⟨rfl, -⟩ := cons.inj heq
      rw [map_eq_none_iff] at hm
      exact hhdr hm
    obtain ⟨d, halign, hnin⟩ := mAlign_ok mem (splitHead mem m0 len0) hnext hndata (Nat.zero_le _)
    rw [if_pos hbig, halign]
    exact splitAt_deep (n := { splitHead mem m0 len0 with data := d }) hwf hnext hnhdr hnin heq htotal
      hpre (mSplit_plain hwfm hm (by rw [total_cons]; omega) depth)
  · rw [if_neg hbig, if_neg hend]
    refine splitAt_mbuf hwf heq htotal hle fun hext => ?_
    rw [hnsize]
    exact Nat.le_of_not_lt fun hlt => hbig ⟨hext, hlt⟩

end Mbsd.Kern.MbufChain
