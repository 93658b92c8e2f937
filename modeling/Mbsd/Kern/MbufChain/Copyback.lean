import Mbsd.Kern.MbufChain.Join

/-! `m_copyback`, which writes to the storage of an mbuf whether it is shared or not. -/

namespace Mbsd.Kern.MbufChain

open Lib.Run List Option

variable {mem mem' mem'' : Mem} {m m' n x : Mbuf} {ms ms' ms'' ns ctx rest : List Mbuf}
  {l cp : List Byte} {off len : Nat} {o k limit i : Nat}

def fillGrow (mem : Mem) (m : Mbuf) (last : Bool) (off len : Nat) : Except Fault Mbuf :=
  if last ∧ len > m.len - off then do
    let space ← mTrailingspace mem m
    .ok { m with len := m.len + min (len - (m.len - off)) space }
  else .ok m

def fillOne (mem : Mem) (m : Mbuf) (last : Bool) (off : Nat) (cp : List Byte) :
    Except Fault (Mem × Mbuf × List Byte) := do
  let m ← fillGrow mem m last off cp.length
  let mlen := min (m.len - off) cp.length
  let (mem, m) ← mWrite mem m (m.data + off) (cp.take mlen)
  .ok (mem, m, cp.drop mlen)

def fill (mem : Mem) : List Mbuf → Nat → List Byte → Except Fault (Mem × List Mbuf × Nat)
  | [], _, _ => .error .panic
  | [m], off, cp =>
    if cp = [] then .ok (mem, [m], 0)
    else do
      let (mem, m, more) ← fillOne mem m true off cp
      let totlen := cp.length - more.length + off
      if more = [] then .ok (mem, [m], totlen)
      else do
        let (mem, n) ← mGetl mem mlen more.length
        -- the next round has room for all that is left
        let (mem, n, _) ← fillOne mem { n with len := more.length } true 0 more
        .ok (mem, [m, n], totlen + more.length)
  | m :: m' :: rest, off, cp =>
    if cp = [] then .ok (mem, m :: m' :: rest, 0)
    else do
      let (mem, m, more) ← fillOne mem m false off cp
      let totlen := cp.length - more.length + off
      if more = [] then .ok (mem, m :: m' :: rest, totlen)
      else do
        let (mem, ms, more) ← fill mem (m' :: rest) 0 more
        .ok (mem, m :: ms, totlen + more)

def copybackFrom (mem : Mem) : List Mbuf → Nat → List Byte → Except Fault (Mem × List Mbuf × Nat)
  | [], _, _ => .error .panic
  | [m], off, cp =>
    if off > m.len then do
      let gap := off - m.len
      let (mem, n) ← mGetl mem mlen (gap + cp.length)
      let (mem, n) ← mWrite mem n n.data (List.replicate gap 0)
      -- the first loop ends at the new mbuf
      let (mem, ms, totlen) ← fill mem [{ n with len := cp.length + gap }] gap cp
      .ok (mem, m :: ms, m.len + totlen)
    else fill mem [m] off cp
  | m :: m' :: rest, off, cp =>
    if off > m.len then do
      let (mem, ms, totlen) ← copybackFrom mem (m' :: rest) (off - m.len) cp
      .ok (mem, m :: ms, m.len + totlen)
    else fill mem (m :: m' :: rest) off cp

def mCopyback (mem : Mem) (m0 : List Mbuf) (off : Nat) (cp : List Byte) :
    Except Fault (Mem × List Mbuf) :=
  match m0 with
  | [] => .ok (mem, [])
  | m :: rest => do
    let (mem, ms, totlen) ← copybackFrom mem (m :: rest) off cp
    .ok (mem, setHdr (fun len => if len < totlen then totlen else len) ms)

def place : List Mbuf → Nat → Option (Nat × Nat)
  | [], _ => none
  | m :: rest, k =>
    if k < m.len then m.ext.map fun b => (b, m.data + k) else place rest (k - m.len)

theorem place_cons (m : Mbuf) (rest : List Mbuf) (k : Nat) : place (m :: rest) k =
      if k < m.len then m.ext.map fun b => (b, m.data + k) else place rest (k - m.len) := rfl

def Written (ms : List Mbuf) (off len : Nat) (b p : Nat) : Prop :=
  ∃ i, off ≤ i ∧ i < off + len ∧ place ms i = some (b, p)

def Unshared (ms : List Mbuf) (off len : Nat) : Prop :=
  ∀ i j, off ≤ i → i < off + len → j < total ms → i ≠ j →
    ∀ q, place ms i = some q → place ms j ≠ some q

def LocalBut (W : Nat → Nat → Prop) (mem : Mem) (ms : List Mbuf) (mem' : Mem) (ms' : List Mbuf) :
    Prop :=
  ∀ ctx, Wf mem (ms ++ ctx) → Wf mem' (ms' ++ ctx) ∧
    ∀ x ∈ ctx, (∀ b, x.ext = some b → ∀ i < x.len, ¬W b (x.data + i)) → bytes mem' x = bytes mem x

variable {W W' : Nat → Nat → Prop}

theorem Local.but (h : Local mem ms mem' ms') : LocalBut W mem ms mem' ms' := fun ctx hwf =>
  ⟨(h ctx hwf).1, fun x hx _ => (h ctx hwf).2 x hx⟩

namespace LocalBut

section

variable (h : LocalBut W mem ms mem' ms')

include h

theorem mono (hW : ∀ b p, W b p → W' b p) : LocalBut W' mem ms mem' ms' := fun ctx hwf =>
  ⟨(h ctx hwf).1, fun x hx hoff => (h ctx hwf).2 x hx fun b hb i hi hw => hoff b hb i hi (hW _ _ hw)⟩

theorem trans (h' : LocalBut W mem' ms' mem'' ms'') : LocalBut W mem ms mem'' ms'' := fun ctx hwf =>
  have hmid := h ctx hwf
  have hend := h' ctx hmid.1
  ⟨hend.1, fun x hx hoff => (hend.2 x hx hoff).trans (hmid.2 x hx hoff)⟩

theorem perm (hp : ns.Perm ms) (hp' : ms'.Perm ns') : LocalBut W mem ns mem' ns' := fun ctx hwf =>
  have hstep := h ctx (hwf.perm (hp.append_right ctx))
  ⟨hstep.1.perm (hp'.append_right ctx), hstep.2⟩

theorem frame (ns : List Mbuf) : LocalBut W mem (ms ++ ns) mem' (ms' ++ ns) := fun ctx hwf => by
  rw [append_assoc] at hwf
  have hstep := h (ns ++ ctx) hwf
  refine ⟨?_, fun x hx => hstep.2 x (mem_append_right _ hx)⟩
  rw [append_assoc]
  exact hstep.1

theorem cons (m : Mbuf) : LocalBut W mem (m :: ms) mem' (m :: ms') :=
  (h.frame [m]).perm (perm_append_singleton m ms).symm (perm_append_singleton m ms')

theorem wf (hwf : Wf mem ms) : Wf mem' ms' := by
  have hstep := (h [] (by rwa [append_nil])).1
  rwa [append_nil] at hstep

end

end LocalBut

theorem localBut_poke (mem : Mem) (m : Mbuf) (p : Nat) (l : List Byte) :
    LocalBut (fun b q => m.ext = some b ∧ p ≤ q ∧ q < p + l.length) mem [m] (poke mem m p l).1
      [(poke mem m p l).2] := fun ctx hwf => by
  refine ⟨hwf.poke p l, fun x hx hoff => ?_⟩
  rcases m.ext.eq_none_or_eq_some with hext | ⟨b, hext⟩
  · exact bytes_poke_of_ne fun c hc => by rw [hext] at hc; cases hc
  · by_cases hsame : x.ext = some b
    · rw [bytes, bytes, store_some hsame, store_some hsame]
      refine run_congr fun i hi => ?_
      have hout := hoff b hsame i hi
      simp only [poke, hext, Function.update_self]
      rcases Nat.lt_or_ge (x.data + i) p with hlt | hge
      · exact Lib.RingSlice.put_of_lt hlt
      · exact Lib.RingSlice.put_of_ge (Nat.le_of_not_lt fun hlt => hout ⟨hext, hge, hlt⟩)
    · exact bytes_poke_of_ne fun c hc => by
        rw [hext] at hc
        exact fun hx => hsame (hx.trans hc.symm)

theorem fillGrow_ok (hin : Inside mem m) (last : Bool) (off len : Nat) :
    ∃ g, fillGrow mem m last off len = .ok { m with len := m.len + g } ∧
      m.data + m.len + g ≤ mDatabuf m + mSize mem m ∧ (mReadonly mem m = true → g = 0) ∧
      (last = false → g = 0) ∧ (0 < g → m.len - off < len ∧ g ≤ len - (m.len - off)) := by
  have hle := hin.le
  rw [fillGrow]
  by_cases hgrow : last ∧ len > m.len - off
  · refine ⟨min (len - (m.len - off)) (if mReadonly mem m then 0 else
      mDatabuf m + mSize mem m - (m.data + m.len)), ?_, ?_, fun hw => ?_, fun hl => ?_, fun _ => ?_⟩
    · rw [if_pos hgrow, mTrailingspace_ok hin]
      rfl
    · split <;> omega
    · rw [if_pos hw, Nat.min_zero]
    · rw [hl] at hgrow
      exact absurd hgrow.1 Bool.false_ne_true
    · exact ⟨hgrow.2, Nat.min_le_left ..⟩
  · refine ⟨0, ?_, hle, fun _ => rfl, fun _ => rfl, fun h => absurd h (Nat.lt_irrefl 0)⟩
    rw [if_neg hgrow]
    rfl

theorem fillOne_ok (hin : Inside mem m) (hoff : off ≤ m.len) (last : Bool) (cp : List Byte) :
    ∃ mem' m' j, fillOne mem m last off cp = .ok (mem', m', cp.drop j) ∧ j ≤ cp.length ∧
      LocalBut (Written [m] off cp.length) mem [m] mem' [m'] ∧
      bytes mem' m' = overwrite (bytes mem m) off (cp.take j) ∧
      m'.len = max m.len (off + j) ∧ (j < cp.length → m'.len = off + j) ∧
      (last = false → m'.len = m.len) ∧
      m'.ext = m.ext ∧ m'.data = m.data ∧ m'.pkthdr = m.pkthdr := by
  have hge := hin.ge
  obtain ⟨g, hgrow, hroom, hshared, hlast, hpos⟩ := fillGrow_ok hin last off cp.length
  let m1 : Mbuf := { m with len := m.len + g }
  let j := min (m.len + g - off) cp.length
  let p := poke mem m1 (m.data + off) (cp.take j)
  have hlength : (cp.take j).length = j := by
    rw [length_take]
    omega
  have hmax : m.len + g = max m.len (off + j) := by omega
  have hin1 : Inside mem m1 := Inside.place (m := m) rfl rfl hge (by simp only [m1]; omega)
  have hle1 := hin1.le
  have hwrite : mWrite mem m1 (m1.data + off) (cp.take j) = .ok p :=
    mWrite_ok (show mDatabuf m ≤ m.data + off by omega)
      (show m.data + off + (cp.take j).length ≤ mDatabuf m1 + mSize mem m1 by
        simp only [m1] at hle1 ⊢
        omega)
  refine ⟨p.1, p.2, j, ?_, Nat.min_le_right .., ?_, ?_, (poke_len ..).trans hmax, fun hj => ?_,
    fun hl => ?_, poke_ext .., poke_data .., poke_pkthdr ..⟩
  · rw [fillOne, hgrow]
    simp only [bind, Except.bind]
    rw [hwrite]
  · cases hw : mReadonly mem m with
    | false =>
      have hset : Local mem [m] mem [m1] := local_set rfl fun _ => hin1
      have hw1 : mReadonly mem m1 = false := hw
      exact (hset.trans (local_poke hw1 _ _)).but
    | true =>
      have hg := hshared hw
      have hset : Local mem [m] mem [m1] := local_set rfl fun _ => hin1
      have hput := localBut_poke mem m1 (m.data + off) (cp.take j)
      rw [hlength] at hput
      refine (hset.but.trans hput).mono fun b q hq => ⟨q - m.data, by omega, by omega, ?_⟩
      have hi : q - m.data < m.len := by omega
      rw [place_cons, if_pos hi, hq.1, map_some]
      congr 2
      omega
  · have hstore : store p.1 p.2 = Lib.RingSlice.put (store mem m) (m.data + off) (cp.take j) :=
      store_poke ..
    have hlen : p.2.len = max m.len (off + (cp.take j).length) := by
      rw [hlength, ← hmax]
      exact poke_len ..
    have hdata : p.2.data = m.data := poke_data ..
    rw [bytes, hstore, hlen, hdata]
    exact run_put_max _ _ _ hoff
  · have hlen : p.2.len = m.len + g := poke_len ..
    rw [hlen]
    omega
  · have hlen : p.2.len = m.len + g := poke_len ..
    rw [hlen, hlast hl, Nat.add_zero]

theorem place_cons_add (m : Mbuf) (rest : List Mbuf) (k : Nat) :
    place (m :: rest) (m.len + k) = place rest k := by
  rw [place_cons, if_neg (by omega), Nat.add_sub_cancel_left]

theorem place_head (h : i < m.len) :
    place (m :: rest) i = m.ext.map fun b => (b, m.data + i) := if_pos h

theorem place_of_mem (hx : x ∈ ms) (hext : x.ext = some b) (hi : i < x.len) :
    ∃ j < total ms, place ms j = some (b, x.data + i) := by
  induction ms with
  | nil => exact absurd hx not_mem_nil
  | cons m ms ih =>
    rw [total_cons]
    rcases mem_cons.1 hx with rfl | hx
    · exact ⟨i, by omega, by rw [place_head hi, hext]; rfl⟩
    · obtain ⟨j, hj, hplace⟩ := ih hx
      exact ⟨m.len + j, by omega, by rw [place_cons_add, hplace]⟩

theorem place_lt_total (h : place ms i = some q) : i < total ms := by
  induction ms generalizing i with
  | nil => cases h
  | cons m ms ih =>
    rw [total_cons]
    rw [place_cons] at h
    split at h
    · omega
    · have hrest := ih h
      omega

theorem Written.head (h : Written [m] off len b p) :
    ∃ i, off ≤ i ∧ i < off + len ∧ i < m.len ∧ m.ext = some b ∧ p = m.data + i := by
  obtain ⟨i, hge, hlt, hplace⟩ := h
  rw [place_cons] at hplace
  split at hplace
  next hi =>
    obtain ⟨c, hext, hq⟩ := map_eq_some_iff.1 hplace
    cases hq
    exact ⟨i, hge, hlt, hi, hext, rfl⟩
  next => cases hplace

theorem Written.cons_head (h : Written [m] off len b p) : Written (m :: rest) off len b p := by
  obtain ⟨i, hge, hlt, hi, hext, rfl⟩ := h.head
  exact ⟨i, hge, hlt, by rw [place_head hi, hext]; rfl⟩

theorem Written.cons_tail (ho : off ≤ m.len + o) (hk : m.len + o + k ≤ off + len)
    (h : Written rest o k b p) : Written (m :: rest) off len b p := by
  obtain ⟨i, hge, hlt, hplace⟩ := h
  exact ⟨m.len + i, by omega, by omega, by rw [place_cons_add, hplace]⟩

theorem Unshared.tail (ho : off ≤ m.len + o) (hk : m.len + o + k ≤ off + len)
    (h : Unshared (m :: rest) off len) : Unshared rest o k := fun i j hge hlt hj hne q hq => by
  have hfar := h (m.len + i) (m.len + j) (by omega) (by omega) (by rw [total_cons]; omega)
    (by omega) q (by rw [place_cons_add, hq])
  rwa [place_cons_add] at hfar

theorem Unshared.head_tail (h : Unshared (m :: rest) off len) (hx : x ∈ rest)
    (hext : x.ext = some b) (hi : i < x.len) : ¬Written [m] off len b (x.data + i) := fun hw => by
  obtain ⟨k, hk, hplace⟩ := place_of_mem hx hext hi
  obtain ⟨j, hge, hlt, hj, hmext, heq⟩ := hw.head
  refine h j (m.len + k) hge hlt (by rw [total_cons]; omega) (by omega) (b, x.data + i) ?_ ?_
  · rw [place_head hj, hmext, heq]
    rfl
  · rw [place_cons_add, hplace]

theorem Unshared.tail_head (ho : off ≤ m.len + o) (hk : m.len + o + k ≤ off + len)
    (h : Unshared (m :: rest) off len) (hext : m.ext = some b) (hi : i < m.len) :
    ¬Written rest o k b (m.data + i) := fun hw => by
  obtain ⟨j, hge, hlt, hplace⟩ := hw
  refine h (m.len + j) i (by omega) (by omega) (by rw [total_cons]; omega) (by omega)
    (b, m.data + i) (by rw [place_cons_add, hplace]) ?_
  rw [place_head hi, hext]
  rfl

theorem LocalBut.exclusive (hw : mReadonly mem m = false)
    (h : LocalBut (Written [m] off len) mem [m] mem' ms') : Local mem [m] mem' ms' := fun ctx hwf =>
  ⟨(h ctx hwf).1, fun x hx => (h ctx hwf).2 x hx fun b hb _ _ hwrite => by
    obtain ⟨-, -, -, -, hext, -⟩ := hwrite.head
    exact ext_ne_of_refsTo (hwf.exclusive hw hext) hx hb⟩

theorem Fresh.inside (h : Fresh mem mem' n limit len) (hlimit : limit ≤ mlen) :
    Inside mem' { n with len := len } := by
  rcases n.ext.eq_none_or_eq_some with hext | ⟨b, hext⟩
  · have hplain := h.plain hext
    refine (inside_none_iff (m := { n with len := len }) hext).2 ⟨?_, ?_⟩
    · simp only [mDatabuf, hext, h.pkthdr, h.data]
      exact Nat.le_refl 0
    · simp only [h.data]
      omega
  · have hcluster := h.cluster b hext
    refine (inside_some_iff (m := { n with len := len }) hext).2 ?_
    simp only [h.data]
    omega

theorem fillOne_new (hfresh : Fresh mem mem' n limit len) (hlimit : limit ≤ mlen)
    (hlen : cp.length = len) :
    ∃ mem'' n', fillOne mem' { n with len := len } true 0 cp = .ok (mem'', n', []) ∧
      Local mem [] mem'' [n'] ∧ bytes mem'' n' = cp := by
  have hin := hfresh.inside hlimit
  obtain ⟨mem'', n', j, hrun, hj, hlocal, hbytes, hmax, hfull, -⟩ :=
    fillOne_ok hin (Nat.zero_le _) true cp
  have hall : j = cp.length := by
    by_contra hne
    simp only at hmax
    omega
  refine ⟨mem'', n', ?_, ?_, ?_⟩
  · rw [hrun, hall, drop_length]
  · have howned : Local mem [] mem' [{ n with len := len }] := hfresh.owned _ rfl hin
    have hw : mReadonly mem' { n with len := len } = false := hfresh.writable _ rfl rfl
    exact howned.trans (hlocal.exclusive hw)
  · rw [hbytes, hall, take_length, overwrite, take_zero, drop_eq_nil_of_le, append_nil, nil_append]
    rw [length_bytes]
    simp only
    omega

def CopiedBack (mem : Mem) (ms : List Mbuf) (off : Nat) (cp : List Byte)
    (r : Except Fault (Mem × List Mbuf × Nat)) : Prop :=
  ∃ mem' ms', r = .ok (mem', ms', off + cp.length) ∧
    LocalBut (Written ms off cp.length) mem ms mem' ms' ∧
    (∀ i < total ms, place ms' i = place ms i) ∧
    (Unshared ms off cp.length → view mem' ms' =
      overwrite (view mem ms ++ List.replicate (off - total ms) 0) off cp) ∧ hdr ms' = hdr ms

theorem place_congr (hext : m'.ext = m.ext) (hdata : m'.data = m.data) (hlen : m'.len = m.len)
    (hrest : ∀ j, i = m.len + j → place ms' j = place ms j) :
    place (m' :: ms') i = place (m :: ms) i := by
  rw [place_cons, place_cons, hlen, hext, hdata]
  split
  · rfl
  · exact hrest _ (by omega)

theorem place_kept (hext : m'.ext = m.ext) (hdata : m'.data = m.data) (hlen : m.len ≤ m'.len)
    (hi : i < m.len) : place (m' :: ms') i = place (m :: ms) i := by
  rw [place_head (by omega), place_head hi, hext, hdata]

theorem fill_last (hwf : Wf mem [m]) (hoff : off ≤ m.len) (hcp : cp ≠ [])
    (h : fill mem [m] off cp ≠ .error .nospace) : CopiedBack mem [m] off cp (fill mem [m] off cp) := by
  obtain ⟨mem1, m1, j, hrun, hj, hlocal, hbytes, hmax, hfull, -, hext, hdata, hhdr⟩ :=
    fillOne_ok hwf.head hoff true cp
  have hgap : off - total [m] = 0 := by
    rw [total_cons, total_nil]
    omega
  have hkept : ∀ rest, ∀ i < total [m], place (m1 :: rest) i = place [m] i := fun rest i hi => by
    rw [total_cons, total_nil] at hi
    exact place_kept hext hdata (by omega) (by omega)
  have hview : view mem [m] = bytes mem m := append_nil _
  rw [CopiedBack, hgap, replicate_zero, append_nil, hview]
  rw [fill, if_neg hcp, hrun] at h ⊢
  simp only [bind, Except.bind] at h ⊢
  by_cases hdone : cp.drop j = []
  · have hall : j = cp.length := by
      rw [drop_eq_nil_iff] at hdone
      omega
    rw [if_pos hdone]
    refine ⟨mem1, [m1], ?_, hlocal, hkept [], fun _ => ?_, hhdr⟩
    · rw [hdone, length_nil, Nat.sub_zero, Nat.add_comm]
    · rw [view_cons, view_nil, append_nil, hbytes, hall, take_length]
  · rw [if_neg hdone] at h ⊢
    have hget : mGetl mem1 mlen (cp.drop j).length ≠ .error .nospace := fun herr => h (by rw [herr])
    obtain ⟨mem2, n, hnew, hfresh⟩ := mGetl_ok hget
    obtain ⟨mem3, n3, hround, hlocal3, hbytes3⟩ := fillOne_new hfresh (Nat.le_refl _) rfl
    have hshort : j < cp.length := by
      rw [drop_eq_nil_iff] at hdone
      omega
    refine ⟨mem3, [m1, n3], ?_, ?_, hkept [n3], fun _ => ?_, hhdr⟩
    · have htot : cp.length - (cp.drop j).length + off + (cp.drop j).length = off + cp.length := by
        rw [length_drop]
        omega
      rw [hnew]
      simp only [hround, htot]
    · exact hlocal.trans ((hlocal3.frame [m1]).perm (Perm.refl _) (Perm.swap m1 n3 [])).but
    · have hkeep : bytes mem3 m1 = bytes mem1 m1 := hlocal3.bytes_frame (hlocal.wf hwf)
      rw [view_cons, view_cons, view_nil, append_nil, hbytes3, hkeep, hbytes]
      exact overwrite_past _ (by rw [length_bytes]; omega)

theorem fill_ok (hwf : Wf mem (m :: rest)) (hoff : off ≤ m.len) (hcp : cp ≠ [])
    (h : fill mem (m :: rest) off cp ≠ .error .nospace) :
    CopiedBack mem (m :: rest) off cp (fill mem (m :: rest) off cp) := by
  induction rest generalizing mem m off cp with
  | nil => exact fill_last hwf hoff hcp h
  | cons m' rest ih =>
    obtain ⟨mem1, m1, j, hrun, hj, hlocal, hbytes, hmax, hfull, hsame, hext, hdata, hhdr⟩ :=
      fillOne_ok hwf.head hoff false cp
    have hlen1 : m1.len = m.len := hsame rfl
    have hgap : off - total (m :: m' :: rest) = 0 := by
      rw [total_cons]
      omega
    have hwf1 : Wf mem1 (m1 :: m' :: rest) := (hlocal.frame (m' :: rest)).wf hwf
    have hlocal1 : LocalBut (Written (m :: m' :: rest) off cp.length) mem (m :: m' :: rest) mem1
        (m1 :: m' :: rest) := (hlocal.mono fun _ _ => Written.cons_head).frame (m' :: rest)
    have hothers : Unshared (m :: m' :: rest) off cp.length →
        view mem1 (m' :: rest) = view mem (m' :: rest) := fun hun =>
      view_congr fun x hx => (hlocal (m' :: rest) hwf).2 x hx fun _ hb _ hi => hun.head_tail hx hb hi
    have hfit : off + (cp.take j).length ≤ (bytes mem m).length := by
      rw [length_take, length_bytes]
      omega
    rw [CopiedBack, hgap, replicate_zero, append_nil]
    rw [fill, if_neg hcp, hrun] at h ⊢
    simp only [bind, Except.bind] at h ⊢
    by_cases hdone : cp.drop j = []
    · have hall : j = cp.length := by
        rw [drop_eq_nil_iff] at hdone
        omega
      rw [if_pos hdone]
      refine ⟨mem1, m1 :: m' :: rest, ?_, hlocal1, fun i hi => ?_, fun hun => ?_, hhdr⟩
      · rw [hdone, length_nil, Nat.sub_zero, Nat.add_comm]
      · exact place_congr hext hdata hlen1 fun _ _ => rfl
      · rw [hall, take_length] at hbytes hfit
        rw [view_cons, hbytes, hothers hun, view_cons (m := m), overwrite_left _ _ hfit]
    · rw [if_neg hdone] at h ⊢
      have hshort : j < cp.length := by
        rw [drop_eq_nil_iff] at hdone
        omega
      have hfill : fill mem1 (m' :: rest) 0 (cp.drop j) ≠ .error .nospace := fun herr =>
        h (by rw [herr])
      obtain ⟨mem2, ms2, hrun2, hlocal2, hplace2, hview2, -⟩ :=
        ih hwf1.tail (Nat.zero_le _) hdone hfill
      have hdrop : (cp.drop j).length = cp.length - j := length_drop ..
      have hgap2 : 0 - total (m' :: rest) = 0 := Nat.zero_sub _
      rw [hdrop] at hlocal2 hview2
      rw [hgap2, replicate_zero, append_nil] at hview2
      have hlocal2' : LocalBut (Written (m :: m' :: rest) off cp.length) mem1 (m' :: rest) mem2 ms2 :=
        hlocal2.mono fun _ _ => Written.cons_tail (by omega) (by omega)
      refine ⟨mem2, m1 :: ms2, ?_, hlocal1.trans (hlocal2'.cons m1), fun i hi => ?_, fun hun => ?_,
        hhdr⟩
      · have htot : cp.length - (cp.drop j).length + off + (0 + (cp.drop j).length) =
            off + cp.length := by omega
        rw [hrun2]
        simp only [htot]
      · rw [total_cons] at hi
        exact place_congr hext hdata hlen1 fun k hk => hplace2 k (by omega)
      · have hkeep : bytes mem2 m1 = bytes mem1 m1 := by
          have hwf1' : Wf mem1 ((m' :: rest) ++ [m1]) :=
            hwf1.perm (perm_append_singleton m1 (m' :: rest)).symm
          refine (hlocal2 [m1] hwf1').2 m1 mem_cons_self fun b hb i hi => ?_
          rw [hext] at hb
          rw [hlen1] at hi
          rw [hdata]
          exact hun.tail_head (by omega) (by omega) hb hi
        have hacross := overwrite_across (bytes mem m) (view mem (m' :: rest)) cp
          (show off ≤ _ by rw [length_bytes]; exact hoff) (by rw [length_bytes]; omega)
        rw [length_bytes, show m.len - off = j by omega] at hacross
        rw [view_cons, hkeep, hbytes, hview2 (hun.tail (by omega) (by omega)), hothers hun, view_cons (m := m), hacross]

theorem copyback_gap (hwf : Wf mem [m]) (hoff : off > m.len) (hcp : cp ≠ [])
    (h : copybackFrom mem [m] off cp ≠ .error .nospace) :
    CopiedBack mem [m] off cp (copybackFrom mem [m] off cp) := by
  rw [copybackFrom, if_pos hoff] at h ⊢
  dsimp only at h ⊢
  have hget : mGetl mem mlen (off - m.len + cp.length) ≠ .error .nospace := fun herr =>
    h (by rw [herr]; rfl)
  obtain ⟨mem1, n, hrun, hfresh⟩ := mGetl_ok hget
  have hin := hfresh.inside (Nat.le_refl _)
  have hge := hin.ge
  have hle := hin.le
  let zeros : List Byte := replicate (off - m.len) 0
  have hzeros : zeros.length = off - m.len := length_replicate
  let p := poke mem1 n n.data zeros
  have hwrite : mWrite mem1 n n.data zeros = .ok p := mWrite_ok hge (by
    rw [hzeros]
    exact Nat.le_trans (Nat.add_le_add_left (Nat.le_add_right ..) _) hle)
  have hlen : off - m.len + cp.length = cp.length + (off - m.len) := Nat.add_comm ..
  have hpoke : poke mem1 { n with len := off - m.len + cp.length } n.data zeros =
      (p.1, { p.2 with len := cp.length + (off - m.len) }) := by
    rw [hlen]
    exact poke_setLen ..
  have howned : Local mem [] mem1 [{ n with len := off - m.len + cp.length }] :=
    hfresh.owned _ rfl hin
  have hw1 : mReadonly mem1 { n with len := off - m.len + cp.length } = false :=
    hfresh.writable _ rfl rfl
  have hput := local_poke hw1 n.data zeros
  have hw2 := mReadonly_poke mem1 { n with len := off - m.len + cp.length } n.data zeros
  have hstore := store_poke mem1 { n with len := off - m.len + cp.length } n.data zeros
  rw [hpoke] at hput hw2 hstore
  have hnew : Local mem [] p.1 [{ p.2 with len := cp.length + (off - m.len) }] := howned.trans hput
  have hwf2 : Wf p.1 [{ p.2 with len := cp.length + (off - m.len) }, m] := hnew.wf_frame [m] hwf
  have hfill : fill p.1 [{ p.2 with len := cp.length + (off - m.len) }] (off - m.len) cp ≠
      .error .nospace := fun herr => h (by
    rw [hrun]
    simp only [bind, Except.bind]
    rw [hwrite]
    simp only
    rw [herr])
  have hroom : off - m.len ≤ cp.length + (off - m.len) := Nat.le_add_left ..
  obtain ⟨mem3, ms3, hrun3, hlocal3, -, hview3, -⟩ := fill_last hwf2.one hroom hcp hfill
  have hexcl : Local p.1 [{ p.2 with len := cp.length + (off - m.len) }] mem3 ms3 :=
    hlocal3.exclusive (hw2.trans hw1)
  have hall : Local mem [] mem3 ms3 := hnew.trans hexcl
  have hone : Unshared [{ p.2 with len := cp.length + (off - m.len) }] (off - m.len) cp.length := by
    intro i j _ _ hj hne q hq hq'
    rw [total_cons, total_nil] at hj
    rw [place_cons] at hq hq'
    split at hq
    · split at hq'
      · obtain ⟨b, -, rfl⟩ := map_eq_some_iff.1 hq
        obtain ⟨c, -, hc⟩ := map_eq_some_iff.1 hq'
        have hp := (Prod.mk.inj hc).2
        omega
      · cases hq'
    · cases hq
  have hbytes : (bytes p.1 { p.2 with len := cp.length + (off - m.len) }).take (off - m.len) =
      zeros := by
    have hdata : p.2.data = n.data := poke_data ..
    rw [bytes, hstore]
    simp only [hdata]
    rw [take_run hroom]
    exact put_run_self hzeros
  have hcopied : view mem3 ms3 = zeros ++ cp := by
    rw [hview3 hone, total_cons, total_nil, Nat.add_zero, Nat.sub_eq_zero_of_le hroom,
      replicate_zero, append_nil, view_cons, view_nil, append_nil, overwrite, hbytes,
      drop_eq_nil_of_le, append_nil]
    rw [length_bytes]
    simp only
    omega
  refine ⟨mem3, m :: ms3, ?_, ((hall.frame [m]).perm (Perm.refl _)
    (perm_append_singleton m ms3)).but, fun i hi => ?_, fun _ => ?_, rfl⟩
  · have htot : m.len + (off - m.len + cp.length) = off + cp.length := by omega
    rw [hrun]
    simp only [bind, Except.bind]
    rw [hwrite]
    simp only
    rw [hrun3]
    simp only [htot]
  · rw [total_cons, total_nil, Nat.add_zero] at hi
    rw [place_head hi, place_head hi]
  · have hkeep : bytes mem3 m = bytes mem m := hall.bytes_frame hwf
    have hend : (bytes mem m ++ zeros).length = off := by
      rw [length_append, length_bytes, hzeros]
      omega
    rw [view_cons, hkeep, hcopied, view_cons, view_nil, append_nil, total_cons, total_nil,
      Nat.add_zero, ← append_assoc]
    have hover := overwrite_end (bytes mem m ++ zeros) cp
    rw [hend] at hover
    exact hover.symm

theorem copybackFrom_ok (hwf : Wf mem (m :: rest)) (hcp : cp ≠ [])
    (h : copybackFrom mem (m :: rest) off cp ≠ .error .nospace) :
    CopiedBack mem (m :: rest) off cp (copybackFrom mem (m :: rest) off cp) := by
  induction rest generalizing mem m off with
  | nil =>
    by_cases hoff : off > m.len
    · exact copyback_gap hwf hoff hcp h
    · rw [copybackFrom, if_neg hoff] at h ⊢
      exact fill_last hwf (Nat.not_lt.1 hoff) hcp h
  | cons m' rest ih =>
    rw [copybackFrom] at h ⊢
    by_cases hoff : off > m.len
    · rw [if_pos hoff] at h ⊢
      have hrest : copybackFrom mem (m' :: rest) (off - m.len) cp ≠ .error .nospace := fun herr =>
        h (by rw [herr]; rfl)
      obtain ⟨mem1, ms1, hrun, hlocal, hplace, hview, -⟩ := ih hwf.tail hrest
      have hlocal' : LocalBut (Written (m :: m' :: rest) off cp.length) mem (m' :: rest) mem1 ms1 :=
        hlocal.mono fun _ _ => Written.cons_tail (by omega) (by omega)
      refine ⟨mem1, m :: ms1, ?_, hlocal'.cons m, fun i hi => ?_, fun hun => ?_, rfl⟩
      · have htot : m.len + (off - m.len + cp.length) = off + cp.length := by omega
        rw [hrun]
        simp only [bind, Except.bind, htot]
      · rw [total_cons] at hi
        exact place_congr rfl rfl rfl fun k hk => hplace k (by omega)
      · have hkeep : bytes mem1 m = bytes mem m :=
          (hlocal [m] (hwf.perm (perm_append_singleton m (m' :: rest)).symm)).2 m
            mem_cons_self fun b hb i hi => hun.tail_head (by omega) (by omega) hb hi
        have hgap : off - total (m :: m' :: rest) = off - m.len - total (m' :: rest) := by
          rw [total_cons]
          omega
        have hright := overwrite_right (bytes mem m)
          (view mem (m' :: rest) ++ replicate (off - m.len - total (m' :: rest)) 0) cp
          (off - m.len)
        rw [length_bytes, show m.len + (off - m.len) = off by omega, ← append_assoc] at hright
        rw [view_cons, hkeep, hview (hun.tail (by omega) (by omega)), view_cons (m := m), hgap, hright]
    · rw [if_neg hoff] at h ⊢
      exact fill_ok hwf (Nat.not_lt.1 hoff) hcp h

theorem mCopyback_ok (hwf : Wf mem ms) (hne : ms ≠ []) (hcp : cp ≠ [])
    (h : mCopyback mem ms off cp ≠ .error .nospace) :
    ∃ mem' ms', mCopyback mem ms off cp = .ok (mem', ms') ∧ Wf mem' ms' ∧
      (∀ i < total ms, place ms' i = place ms i) ∧ (Unshared ms off cp.length → view mem' ms' =
        overwrite (view mem ms ++ replicate (off - total ms) 0) off cp) ∧
      hdr ms' = (hdr ms).map fun len => if len < ↑(off + cp.length) then ↑(off + cp.length) else len := by
  obtain ⟨m, rest, rfl⟩ := exists_cons_of_ne_nil hne
  have hfrom : copybackFrom mem (m :: rest) off cp ≠ .error .nospace := fun herr =>
    h (by rw [mCopyback, herr]; rfl)
  obtain ⟨mem', ms', hrun, hlocal, hplace, hview, hhdr⟩ := copybackFrom_ok hwf hcp hfrom
  refine ⟨mem', _, by rw [mCopyback, hrun]; rfl, (local_setHdr mem' _ ms').wf (hlocal.wf hwf),
    fun i hi => ?_, fun hun => ?_, ?_⟩
  · rw [← hplace i hi]
    cases ms' <;> rfl
  · rw [view_setHdr]
    exact hview hun
  · rw [hdr_setHdr, hhdr]

theorem getElem?_view_of_place {q : Nat × Nat} (h : place ms i = some q) :
    (view mem ms)[i]? = some ((mem.ext q.1).byte q.2) := by
  induction ms generalizing i with
  | nil => cases h
  | cons m rest ih =>
    rw [place_cons] at h
    rw [view_cons]
    split at h
    next hi =>
      obtain ⟨b, hext, rfl⟩ := map_eq_some_iff.1 h
      rw [getElem?_append_left (by rwa [length_bytes]), bytes, store_some hext,
        getElem?_eq_getElem (by rwa [length_run]), getElem_run]
    next hi =>
      rw [getElem?_append_right (by rw [length_bytes]; exact Nat.le_of_not_lt hi), length_bytes]
      exact ih h

def marked (v : Byte) (len k : Nat) : List Byte :=
  (List.range len).map fun i => if i = k then v + 1 else v

theorem length_marked (v : Byte) (len k : Nat) : (marked v len k).length = len := by
  rw [marked, length_map, length_range]

theorem getElem?_marked (v : Byte) (k : Nat) (h : i < len) :
    (marked v len k)[i]? = some (if i = k then v + 1 else v) := by
  rw [marked, getElem?_map, getElem?_range h]
  rfl

theorem not_overwrite_marked {l' : List Byte} {j : Nat} {v : Byte} (hge : off ≤ i)
    (hlt : i < off + len) (hlen : i < l.length) (hne : i ≠ j) (hj : l[j]? = some v)
    (hsame : l'[i]? = l'[j]?) : l' ≠ overwrite l off (marked v len (i - off)) := by
  rintro rfl
  have hput : (overwrite l off (marked v len (i - off)))[i]? = some (v + 1) := by
    rw [getElem?_overwrite_mid hge (by rw [length_marked]; exact hlt) (by omega),
      getElem?_marked v (i - off) (by omega), if_pos rfl]
  have hother : (overwrite l off (marked v len (i - off)))[j]? = some v := by
    by_cases hin : off ≤ j ∧ j < off + len
    · rw [getElem?_overwrite_mid hin.1 (by rw [length_marked]; exact hin.2) (by omega),
        getElem?_marked v (i - off) (by omega), if_neg (by omega)]
    · rw [getElem?_overwrite_of_not (by rw [length_marked]; omega) (by omega), hj]
  rw [hput, hother] at hsame
  have hmark : v + 1 = v := some.inj hsame
  bv_omega

theorem mCopyback_shared (hwf : Wf mem ms) (hne : ms ≠ []) (hlen : 0 < len)
    (hshared : ¬Unshared ms off len)
    (h : ∀ cp : List Byte, cp.length = len → mCopyback mem ms off cp ≠ .error .nospace) :
    ∃ cp : List Byte, cp.length = len ∧ ∀ mem' ms', mCopyback mem ms off cp = .ok (mem', ms') →
      view mem' ms' ≠ overwrite (view mem ms ++ replicate (off - total ms) 0) off cp := by
  simp only [Unshared, not_forall, not_not] at hshared
  obtain ⟨i, j, hge, hlt, hj, hij, q, hi, hplace⟩ := hshared
  have hi' := place_lt_total hi
  have hv : (view mem ms)[j]? = some ((mem.ext q.1).byte q.2) := getElem?_view_of_place hplace
  let v := (mem.ext q.1).byte q.2
  have hcp : (marked v len (i - off)).length = len := length_marked ..
  have hcp' : marked v len (i - off) ≠ [] := ne_nil_of_length_pos (by rwa [hcp])
  obtain ⟨mem', ms', hrun, -, hkept, -, -⟩ := mCopyback_ok hwf hne hcp' (h _ hcp)
  refine ⟨marked v len (i - off), hcp, fun mem1 ms1 hrun1 => ?_⟩
  rw [hrun] at hrun1
  cases hrun1
  have hsame : (view mem' ms')[i]? = (view mem' ms')[j]? := by
    rw [getElem?_view_of_place ((hkept i hi').trans hi),
      getElem?_view_of_place ((hkept j hj).trans hplace)]
  refine not_overwrite_marked hge hlt ?_ hij ?_ hsame
  · rw [length_append, length_view]
    omega
  · rw [getElem?_append_left (by rw [length_view]; exact hj)]
    exact hv

end Mbsd.Kern.MbufChain
