import Mbsd.Kern.MbufChain.Join

/-! `m_makespace`. -/

namespace Mbsd.Kern.MbufChain

open Lib.Run List Function Inside
open Lib.RingSlice (put_nil)

variable {mem : Mem} {m n : Mbuf} {ms rest : List Mbuf} {skip hlen : Nat}

def spaceCut (mem : Mem) (m : Mbuf) (skip remain : Nat) : Except Fault (Mem × Mbuf × List Mbuf) :=
  if remain > 0 then do
    let (mem, n) ← mGetl mem mlen remain
    let l ← mRead mem m (m.data + skip) remain
    let (mem, n) ← mWrite mem n n.data l
    .ok (mem, { m with len := m.len - remain }, [{ n with len := remain }])
  else .ok (mem, m, [])

def slide (mem : Mem) (m : Mbuf) (dst src n : Nat) : Except Fault (Mem × Mbuf) :=
  if n = 0 then .ok (mem, m)
  else do
    let l ← mRead mem m src n
    mWrite mem m dst l

def spaceLead (mem : Mem) (m : Mbuf) (skip hlen : Nat) :
    Except Fault (Mem × List Mbuf × Nat × Nat) := do
  let (mem, m) ← slide mem m (m.data - hlen) m.data skip
  .ok (mem, [{ m with data := m.data - hlen, len := m.len + hlen }], 0, skip)

def spaceInsert (mem : Mem) (m : Mbuf) (skip hlen : Nat) :
    Except Fault (Mem × List Mbuf × Nat × Nat) := do
  let (mem, m, tail) ← spaceCut mem m skip (m.len - skip)
  let trail ← mTrailingspace mem m
  if hlen ≤ trail then .ok (mem, { m with len := m.len + hlen } :: tail, 0, skip)
  else .ok (mem, m :: { mGet mem with len := hlen } :: tail, 1, 0)

def spaceTrail (mem : Mem) (m : Mbuf) (skip hlen : Nat) :
    Except Fault (Mem × List Mbuf × Nat × Nat) := do
  let (mem, m) ← slide mem m (m.data + skip + hlen) (m.data + skip) (m.len - skip)
  .ok (mem, [{ m with len := m.len + hlen }], 0, skip)

/-- The work of `m_makespace` at `m`: the mbufs that take the place of `m`, which of them has the
space, and the offset there. -/
def spaceAt (mem : Mem) (m : Mbuf) (skip hlen : Nat) :
    Except Fault (Mem × List Mbuf × Nat × Nat) := do
  let remain := m.len - skip
  let lead ← mLeadingspace mem m
  if skip < remain ∧ hlen ≤ lead then spaceLead mem m skip hlen
  else do
    let trail ← mTrailingspace mem m
    if hlen > trail then spaceInsert mem m skip hlen else spaceTrail mem m skip hlen

def mMakespace (mem : Mem) (ms : List Mbuf) (skip hlen : Nat) :
    Except Fault (Mem × List Mbuf × Nat × Nat) := do
  ensure (hdr ms).isSome .panic
  ensure (hlen < mhlen) .panic
  match mSeek ms skip with
  | none => .error .short
  | some (pre, m, post, skip) =>
    let (mem, mid, i, off) ← spaceAt mem m skip hlen
    .ok (mem, setHdr (· + hlen) (pre ++ mid ++ post), pre.length + i, off)

/-- Bytes are inserted at `skip`, and the first of them stands at the offset `off` of the mbuf `i`,
with the others behind it.  `h` is the header of the result. -/
def Inserted (mem : Mem) (ms : List Mbuf) (skip hlen : Nat) (h : Option Int)
    (r : Except Fault (Mem × List Mbuf × Nat × Nat)) : Prop :=
  ∃ mem' ms' i off, r = .ok (mem', ms', i, off) ∧ Local mem ms mem' ms' ∧
    (∃ l, l.length = hlen ∧
      view mem' ms' = (view mem ms).take skip ++ l ++ (view mem ms).drop skip) ∧
    (∃ x, ms'[i]? = some x ∧ total (ms'.take i) + off = skip ∧ off + hlen ≤ x.len) ∧ hdr ms' = h

theorem slide_ok (mem : Mem) {dst src k : Nat} (hsrc : mDatabuf m ≤ src)
    (hsrc' : src + k ≤ mDatabuf m + mSize mem m) (hdst : mDatabuf m ≤ dst)
    (hdst' : dst + k ≤ mDatabuf m + mSize mem m) :
    slide mem m dst src k = .ok (poke mem m dst (run (store mem m) src k)) := by
  rw [slide]
  split
  next hzero =>
    subst hzero
    rw [run_zero, poke]
    cases hext : m.ext with
    | none => simp only [put_nil, ← hext]
    | some b =>
      have hsame : update mem.ext b (mem.ext b) = mem.ext := update_eq_self ..
      simp only [put_nil, hsame]
  next =>
    rw [mRead_ok hsrc hsrc']
    exact mWrite_ok hdst (by rw [length_run]; exact hdst')

theorem inserted_leading (hin : Inside mem m) (hskip : skip ≤ m.len)
    (hw : mReadonly mem m = false) (hroom : hlen ≤ m.data - mDatabuf m) :
    Inserted mem [m] skip hlen m.pkthdr (spaceLead mem m skip hlen) := by
  have hge := hin.ge
  have hle := hin.le
  let l := run (store mem m) m.data skip
  let p := poke mem m (m.data - hlen) l
  have hslide := slide_ok mem (k := skip) hge (by omega)
    (show mDatabuf m ≤ m.data - hlen by omega) (by omega)
  have hplace : Inside mem { p.2 with data := m.data - hlen, len := m.len + hlen } :=
    Inside.place (m := m) (poke_ext ..) (by simp only [p, poke_pkthdr])
      (by simp only; omega) (by simp only; omega)
  have hset : Local p.1 [p.2] p.1 [{ p.2 with data := m.data - hlen, len := m.len + hlen }] :=
    local_set rfl fun _ => inside_poke hplace
  have hsplit : m.len + hlen = skip + (hlen + (m.len - skip)) := by omega
  have hbytes : bytes p.1 { p.2 with data := m.data - hlen, len := m.len + hlen } =
      l ++ (run (store mem m) (m.data - hlen + skip) hlen ++
        run (store mem m) (m.data + skip) (m.len - skip)) := by
    have hstore : store p.1 { p.2 with data := m.data - hlen, len := m.len + hlen } =
        Lib.RingSlice.put (store mem m) (m.data - hlen) l := store_poke ..
    have hlength : l.length = skip := length_run
    have hend : m.data - hlen + skip + hlen = m.data + skip := by omega
    rw [bytes, hstore]
    simp only
    rw [hsplit, run_add, run_add, put_run_self hlength, run_put_of_disjoint (.inr (by omega)),
      run_put_of_disjoint (.inr (by omega)), hend]
  refine ⟨p.1, _, 0, skip, ?_, (local_poke hw _ _).trans hset,
    ⟨run (store mem m) (m.data - hlen + skip) hlen, length_run, ?_⟩, ⟨_, rfl, ?_, ?_⟩, poke_pkthdr ..⟩
  · simp only [spaceLead, hslide, bind, Except.bind, poke_data, poke_len]
    rfl
  · rw [view_cons, view_nil, view_cons, view_nil, hbytes, append_nil, append_nil, bytes,
      take_run hskip, drop_run hskip, append_assoc]
  · rw [take_zero, total_nil, Nat.zero_add]
  · simp only
    omega

theorem inserted_trailing (hin : Inside mem m) (hskip : skip ≤ m.len) (hw : mReadonly mem m = false)
    (hroom : hlen ≤ mDatabuf m + mSize mem m - (m.data + m.len)) :
    Inserted mem [m] skip hlen m.pkthdr (spaceTrail mem m skip hlen) := by
  have hge := hin.ge
  have hle := hin.le
  let l := run (store mem m) (m.data + skip) (m.len - skip)
  let p := poke mem m (m.data + skip + hlen) l
  have hslide := slide_ok mem (k := m.len - skip) (show mDatabuf m ≤ m.data + skip by omega)
    (by omega) (show mDatabuf m ≤ m.data + skip + hlen by omega) (by omega)
  have hplace : Inside mem { p.2 with len := m.len + hlen } :=
    Inside.place (m := m) (poke_ext ..) (by simp only [p, poke_pkthdr])
      (by simp only [p, poke_data]; omega) (by simp only [p, poke_data]; omega)
  have hset : Local p.1 [p.2] p.1 [{ p.2 with len := m.len + hlen }] :=
    local_set rfl fun _ => inside_poke hplace
  have hsplit : m.len + hlen = skip + (hlen + (m.len - skip)) := by omega
  have hbytes : bytes p.1 { p.2 with len := m.len + hlen } =
      run (store mem m) m.data skip ++ (run (store mem m) (m.data + skip) hlen ++ l) := by
    have hstore : store p.1 { p.2 with len := m.len + hlen } =
        Lib.RingSlice.put (store mem m) (m.data + skip + hlen) l := store_poke ..
    have hdata : p.2.data = m.data := poke_data ..
    have hlength : l.length = m.len - skip := length_run
    rw [bytes, hstore]
    simp only [hdata]
    rw [hsplit, run_add, run_add, put_run_self hlength, run_put_of_disjoint (.inl (by omega)),
      run_put_of_disjoint (.inl (by omega))]
  refine ⟨p.1, _, 0, skip, ?_, (local_poke hw _ _).trans hset,
    ⟨run (store mem m) (m.data + skip) hlen, length_run, ?_⟩, ⟨_, rfl, ?_, ?_⟩, poke_pkthdr ..⟩
  · simp only [spaceTrail, hslide, bind, Except.bind, poke_len]
    rfl
  · rw [view_cons, view_nil, view_cons, view_nil, hbytes, append_nil, append_nil, bytes,
      take_run hskip, drop_run hskip, append_assoc]
  · rw [take_zero, total_nil, Nat.zero_add]
  · simp only
    omega

section

variable (hwf : Wf mem [m]) (hskip : skip ≤ m.len)

include hwf hskip

theorem spaceCut_ok (h : spaceCut mem m skip (m.len - skip) ≠ .error .nospace) :
    ∃ mem' tail, spaceCut mem m skip (m.len - skip) = .ok (mem', { m with len := skip }, tail) ∧
      Local mem [m] mem' ({ m with len := skip } :: tail) ∧
      bytes mem' { m with len := skip } = (bytes mem m).take skip ∧
      view mem' tail = (bytes mem m).drop skip := by
  have hshort : ∀ mem1, Inside mem1 m → Inside mem1 { m with len := skip } := fun mem1 h1 =>
    h1.of_ext rfl rfl (Nat.le_refl _) (Nat.add_le_add_left hskip _)
  rw [spaceCut] at h ⊢
  by_cases hremain : m.len - skip > 0
  · rw [if_pos hremain] at h ⊢
    have hget : mGetl mem mlen (m.len - skip) ≠ .error .nospace := fun herr => h (by rw [herr]; rfl)
    obtain ⟨mem1, n, hrun, hfresh⟩ := mGetl_ok hget
    let l := (bytes mem m).drop skip
    have hlength : l.length = m.len - skip := by rw [length_drop, length_bytes]
    have hnin : Inside mem1 { n with len := m.len - skip } := by
      rcases n.ext.eq_none_or_eq_some with hext | ⟨b, hext⟩
      · have hplain := hfresh.plain hext
        refine (inside_none_iff (m := { n with len := m.len - skip }) hext).2 ⟨?_, ?_⟩
        · simp only [mDatabuf, hext, hfresh.pkthdr, hfresh.data]
          exact Nat.le_refl 0
        · simp only [hfresh.data]
          omega
      · have hcluster := hfresh.cluster b hext
        refine (inside_some_iff (m := { n with len := m.len - skip }) hext).2 ?_
        simp only [hfresh.data]
        omega
    have hnew : Local mem [] mem1 [{ n with len := m.len - skip }] := hfresh.owned _ rfl hnin
    have hold : bytes mem1 m = bytes mem m := hnew.bytes_frame hwf
    have hwf1 : Wf mem1 [{ n with len := m.len - skip }, m] := hnew.wf_frame [m] hwf
    have hread : mRead mem1 m (m.data + skip) (m.len - skip) = .ok l := by
      rw [mRead_data hwf1.tail.head (by omega), hold, take_of_length_le]
      rw [length_drop, length_bytes]
    let p := poke mem1 n n.data l
    have hpoke : poke mem1 { n with len := m.len - skip } n.data l =
        (p.1, { p.2 with len := m.len - skip }) := poke_setLen ..
    have hwrite : mWrite mem1 n n.data l = .ok p := mWrite_ok hnin.ge (by rw [hlength]; exact hnin.le)
    have hput := local_poke (hfresh.writable { n with len := m.len - skip } rfl rfl) n.data l
    rw [hpoke] at hput
    have hcut : Local p.1 [m] p.1 [{ m with len := skip }] := local_set rfl (hshort _)
    have hlocal : Local mem [m] p.1 [{ p.2 with len := m.len - skip }, { m with len := skip }] :=
      (hnew.frame [m]).trans ((hput.frame [m]).trans (hcut.cons _))
    have hkeep : bytes p.1 m = bytes mem m := (hput.bytes_frame hwf1.swap).trans hold
    refine ⟨p.1, [{ p.2 with len := m.len - skip }], ?_,
      hlocal.perm (Perm.refl _) (Perm.swap _ _ _), ?_, ?_⟩
    · simp only [hrun, hread, hwrite, bind, Except.bind, Nat.sub_sub_self hskip]
    · rw [bytes_short p.1 hskip, hkeep]
    · have hstore : store p.1 { p.2 with len := m.len - skip } =
          Lib.RingSlice.put (store mem1 n) n.data l := store_poke ..
      have hdata : p.2.data = n.data := poke_data ..
      rw [view_cons, view_nil, append_nil, bytes, hstore]
      simp only [hdata]
      exact put_run_self hlength
  · rw [if_neg hremain]
    obtain rfl : m.len = skip := by omega
    refine ⟨mem, [], rfl, Local.refl, ?_, ?_⟩
    · rw [take_of_length_le (by rw [length_bytes])]
    · rw [drop_of_length_le (by rw [length_bytes]), view_nil]

theorem inserted_cut (hmax : hlen ≤ mlen) (h : spaceInsert mem m skip hlen ≠ .error .nospace) :
    Inserted mem [m] skip hlen m.pkthdr (spaceInsert mem m skip hlen) := by
  have hget : spaceCut mem m skip (m.len - skip) ≠ .error .nospace := fun herr =>
    h (by rw [spaceInsert, herr]; rfl)
  obtain ⟨mem1, tail, hcut, hlocal, hbytes, htail⟩ := spaceCut_ok hwf hskip hget
  have hin1 : Inside mem1 { m with len := skip } := (hlocal.wf hwf).head
  have hle1 := hin1.le
  have htrail := mTrailingspace_ok hin1
  have hview : view mem [m] = bytes mem m := append_nil _
  by_cases hroom : hlen ≤ (if mReadonly mem1 { m with len := skip } then 0 else
      mDatabuf { m with len := skip } + mSize mem1 { m with len := skip } - (m.data + skip))
  · have hroom' : m.data + skip + hlen ≤
        mDatabuf { m with len := skip } + mSize mem1 { m with len := skip } := by
      simp only at hle1
      split at hroom <;> omega
    have hset : Local mem1 ({ m with len := skip } :: tail) mem1
        ({ m with len := skip + hlen } :: tail) :=
      Local.refl.cons_set rfl fun hold => Inside.place (m := { m with len := skip }) rfl rfl
        hold.ge (by simp only; omega)
    have hsplit : bytes mem1 { m with len := skip + hlen } =
        bytes mem1 { m with len := skip } ++ run (store mem1 m) (m.data + skip) hlen :=
      run_add ..
    refine ⟨mem1, _, 0, skip, ?_, hlocal.trans hset,
      ⟨run (store mem1 m) (m.data + skip) hlen, length_run, ?_⟩, ⟨_, rfl, ?_, Nat.le_refl _⟩, rfl⟩
    · simp only [spaceInsert, hcut, htrail, bind, Except.bind, if_pos hroom]
    · rw [view_cons, htail, hsplit, hbytes, hview]
    · rw [take_zero, total_nil, Nat.zero_add]
  · have hnin : Inside mem1 { mGet mem1 with len := hlen } :=
      (inside_none_iff rfl).2 ⟨Nat.le_refl 0, by simp only [mGet]; omega⟩
    have hnew : Local mem1 [] mem1 [{ mGet mem1 with len := hlen }] := local_new rfl hnin
    refine ⟨mem1, _, 1, 0, ?_, hlocal.trans ((hnew.frame tail).cons _),
      ⟨bytes mem1 { mGet mem1 with len := hlen }, length_bytes, ?_⟩, ⟨_, rfl, ?_, ?_⟩, rfl⟩
    · simp only [spaceInsert, hcut, htrail, bind, Except.bind, if_neg hroom]
      rfl
    · rw [hview, view_cons, hbytes, singleton_append, view_cons, htail, append_assoc]
    · simp only [take_succ_cons, take_zero, total_cons, total_nil]
      omega
    · simp only
      omega

theorem spaceAt_ok (hpos : 0 < hlen) (hmax : hlen ≤ mlen)
    (h : spaceAt mem m skip hlen ≠ .error .nospace) :
    Inserted mem [m] skip hlen m.pkthdr (spaceAt mem m skip hlen) := by
  have hin := hwf.head
  have hlead := mLeadingspace_ok hin
  have htrail := mTrailingspace_ok hin
  have hunfold : spaceAt mem m skip hlen =
      if skip < m.len - skip ∧ hlen ≤ (if mReadonly mem m then 0 else m.data - mDatabuf m) then
        spaceLead mem m skip hlen
      else if hlen > (if mReadonly mem m then 0 else
          mDatabuf m + mSize mem m - (m.data + m.len)) then spaceInsert mem m skip hlen
      else spaceTrail mem m skip hlen := by
    rw [spaceAt, hlead, htrail]
    rfl
  rw [hunfold] at h ⊢
  by_cases hfront : skip < m.len - skip ∧
      hlen ≤ (if mReadonly mem m then 0 else m.data - mDatabuf m)
  · rw [if_pos hfront]
    obtain ⟨-, hroom⟩ := hfront
    cases hw : mReadonly mem m with
    | true =>
      rw [hw, if_pos rfl] at hroom
      omega
    | false =>
      rw [hw] at hroom
      exact inserted_leading hin hskip hw hroom
  · rw [if_neg hfront] at h ⊢
    by_cases hfull : hlen > (if mReadonly mem m then 0 else
        mDatabuf m + mSize mem m - (m.data + m.len))
    · rw [if_pos hfull] at h ⊢
      exact inserted_cut hwf hskip hmax h
    · rw [if_neg hfull]
      cases hw : mReadonly mem m with
      | true =>
        rw [hw, if_pos rfl] at hfull
        omega
      | false =>
        rw [hw] at hfull
        exact inserted_trailing hin hskip hw (Nat.not_lt.1 hfull)

end

theorem mMakespace_ok (hwf : Wf mem ms) (hhdr : (hdr ms).isSome) (hskip : skip ≤ total ms)
    (hpos : 0 < hlen) (hmax : hlen < mhlen) (h : mMakespace mem ms skip hlen ≠ .error .nospace) :
    Inserted mem ms skip hlen ((hdr ms).map (· + (hlen : Int))) (mMakespace mem ms skip hlen) := by
  have hne : ms ≠ [] := by
    rintro rfl
    exact absurd hhdr Bool.false_ne_true
  obtain ⟨pre, m, post, off, hseek, heq, htotal, hoff⟩ := mSeek_spec ms hne hskip
  have hunfold : mMakespace mem ms skip hlen = (spaceAt mem m off hlen).bind fun p =>
      .ok (p.1, setHdr (· + (hlen : Int)) (pre ++ p.2.1 ++ post), pre.length + p.2.2.1, p.2.2.2) := by
    rw [mMakespace, ensure_ok hhdr, ensure_ok hmax, hseek]
    rfl
  have hwfm : Wf mem (m :: post) := by
    rw [heq] at hwf
    exact hwf.right
  have hmlen : mhlen ≤ mlen := Nat.sub_le ..
  have hspace : spaceAt mem m off hlen ≠ .error .nospace := fun herr =>
    h (by rw [hunfold, herr]; rfl)
  obtain ⟨mem', mid, i, o, hrun, hlocal, ⟨l, hl, hview⟩, ⟨x, hx, hplace, hfit⟩, hmid⟩ :=
    spaceAt_ok hwfm.one hoff hpos (by omega) hspace
  have hframe : Local mem ms mem' (pre ++ mid ++ post) := by
    rw [heq, append_assoc]
    exact (hlocal.frame post).append_left pre
  have hi : i < mid.length := (List.getElem?_eq_some_iff.1 hx).1
  obtain ⟨z, hz, hzlen⟩ := getElem?_setHdr (· + (hlen : Int)) (show
    (pre ++ mid ++ post)[pre.length + i]? = some x by
      rw [append_assoc, getElem?_append_right (Nat.le_add_right ..),
        Nat.add_sub_cancel_left, getElem?_append_left hi, hx])
  have htake : total ((setHdr (· + (hlen : Int)) (pre ++ mid ++ post)).take (pre.length + i)) =
      total (pre ++ mid.take i) := by
    rw [total_take_setHdr, append_assoc, take_length_add_append,
      take_append_of_le_length (Nat.le_of_lt hi)]
  rw [hunfold, hrun]
  refine ⟨mem', _, _, _, rfl, hframe.trans (local_setHdr _ _ _), ⟨l, hl, ?_⟩,
    ⟨z, hz, ?_, by rw [hzlen]; exact hfit⟩, ?_⟩
  · have hpre : view mem' pre = view mem pre := by
      have hwf1 : Wf mem ([m] ++ (post ++ pre)) := by
        rw [heq] at hwf
        exact hwf.perm perm_append_comm
      have hboth := hlocal.view_frame (post ++ pre) hwf1
      rw [view_append, view_append] at hboth
      exact (append_inj' hboth (by rw [length_view, length_view])).2
    rw [view_setHdr, view_append, view_append, hpre, hview, heq, view_append, view_cons, view_cons,
      view_nil, append_nil, hlocal.view_frame post hwfm, ← htotal, ← length_view mem pre,
      take_length_add_append, drop_length_add_append,
      take_append_of_le_length (by rw [length_bytes]; exact hoff),
      drop_append_of_le_length (by rw [length_bytes]; exact hoff)]
    simp only [append_assoc]
  · have hsum : total (pre ++ mid.take i) + o = skip := by
      rw [total_append]
      omega
    rw [htake]
    exact hsum
  · rw [hdr_setHdr, heq]
    congr 1
    cases pre with
    | nil =>
      cases mid with
      | nil => exact absurd hi (Nat.not_lt_zero i)
      | cons y mid => exact hmid
    | cons y pre => rfl

end Mbsd.Kern.MbufChain
