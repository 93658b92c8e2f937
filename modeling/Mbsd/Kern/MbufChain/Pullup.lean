import Mbsd.Kern.MbufChain.Join

/-! `m_pullup`. -/

namespace Mbsd.Kern.MbufChain

open Lib.Run List Option Inside Local

variable {mem : Mem} {m m0 n : Mbuf} {ms rest : List Mbuf}

def freeEmpty (mem : Mem) : List Mbuf → Mem × List Mbuf
  | [] => (mem, [])
  | m :: rest => if m.len = 0 then freeEmpty (mFree mem m) rest else (mem, m :: rest)

theorem freeEmpty_cons (mem : Mem) (m : Mbuf) (rest : List Mbuf) : freeEmpty mem (m :: rest) =
      if m.len = 0 then freeEmpty (mFree mem m) rest else (mem, m :: rest) := rfl

def mPullupLoop (mem : Mem) (m0 : Mbuf) : List Mbuf → Nat → Except Fault (Mem × Mbuf × List Mbuf)
  | [], _ => .error .short
  | m :: rest, len => do
    let space := min len m.len
    let l ← mRead mem m m.data space
    let (mem, m0) ← mWrite mem m0 (m0.data + m0.len) l
    let m0 := { m0 with len := m0.len + space }
    let m := { m with len := m.len - space }
    -- what is left in `m` ends the loop
    if m.len > 0 then .ok (mem, m0, { m with data := m.data + space } :: rest)
    else if len - space = 0 then .ok (mFree mem m, m0, rest)
    else mPullupLoop (mFree mem m) m0 rest (len - space)

def mPullupShift (mem : Mem) (m0 : Mbuf) (adj len : Nat) : Except Fault (Mem × Mbuf) :=
  let head := mDatabuf m0 + adj
  if m0.len = 0 then .ok (mem, { m0 with data := head })
  else if m0.data + len > mDatabuf m0 + mSize mem m0 then do
    let l ← mRead mem m0 m0.data m0.len
    let (mem, m0) ← mWrite mem m0 head l
    .ok (mem, { m0 with data := head })
  else .ok (mem, m0)

def mPullupNew (mem : Mem) (m0 : Mbuf) (adj len : Nat) : Except Fault (Mem × Mbuf × Mbuf) := do
  let space := adj + len
  ensure (space ≤ maxmclbytes) .nospace
  let (mem, n) ← mGetl mem mhlen space
  let (n, m0) := if m0.pkthdr.isSome then mMovePkthdr n m0 else (n, m0)
  .ok (mem, { n with len := 0, data := n.data + adj }, m0)

def mPullupTail (mem : Mem) (m0 m : Mbuf) (rest : List Mbuf) (adj len : Nat) :
    Except Fault (Mem × List Mbuf) :=
  if mReadonly mem m0 = false ∧ adj + len ≤ mSize mem m0 then do
    let (mem, n) ← mPullupShift mem m0 adj len
    let (mem, n, rest) ← mPullupLoop mem n (m :: rest) (len - m0.len)
    .ok (mem, n :: rest)
  else do
    let (mem, n, m0) ← mPullupNew mem m0 adj len
    let (mem, n, rest) ← mPullupLoop mem n (m0 :: m :: rest) len
    .ok (mem, n :: rest)

def mPullup (mem : Mem) : List Mbuf → Nat → Except Fault (Mem × List Mbuf)
  | [], _ => .error .panic
  | m0 :: rest, len =>
    if len ≤ m0.len then .ok (mem, m0 :: rest)
    else
      match if m0.len = 0 then freeEmpty mem rest else (mem, rest) with
      | (_, []) => .error .short
      | (mem, m :: rest) =>
        mPullupTail mem m0 m rest (if m0.len = 0 then mtodAdj mem m else mtodAdj mem m0) len

theorem freeEmpty_local (mem : Mem) (ms : List Mbuf) :
    Local mem ms (freeEmpty mem ms).1 (freeEmpty mem ms).2 := by
  induction ms generalizing mem with
  | nil => exact refl
  | cons m ms ih =>
    rw [freeEmpty_cons]
    split
    · exact ((local_mFree mem m).frame ms).trans (ih _)
    · exact refl

theorem bytes_empty (h : m.len = 0) : bytes mem m = [] := by rw [bytes, h, run_zero]

theorem freeEmpty_bytes (mem : Mem) (ms : List Mbuf) (x : Mbuf) :
    bytes (freeEmpty mem ms).1 x = bytes mem x := by
  induction ms generalizing mem with
  | nil => rfl
  | cons m ms ih =>
    rw [freeEmpty_cons]
    split
    · rw [ih, bytes_mFree]
    · rfl

theorem freeEmpty_view (mem : Mem) (ms : List Mbuf) :
    view mem (freeEmpty mem ms).2 = view mem ms := by
  induction ms generalizing mem with
  | nil => rfl
  | cons m ms ih =>
    rw [freeEmpty_cons]
    split
    next h =>
      have hrest := ih (mFree mem m)
      rw [view_mFree, view_mFree] at hrest
      rw [hrest, view_cons, bytes_empty h, nil_append]
    · rfl

theorem mReadonly_mFree (h : mReadonly mem m = false) : mReadonly (mFree mem n) m = false := by
  rw [mFree]
  cases n.ext with
  | none => exact h
  | some b =>
    rw [mReadonly] at h ⊢
    cases hext : m.ext with
    | none => rfl
    | some c =>
      simp only [hext, Bool.or_eq_false_iff, decide_eq_false_iff_not, Nat.not_lt] at h ⊢
      refine ⟨h.1, ?_⟩
      rw [addRefs_refs]
      split
      next heq => subst heq; omega
      next => exact h.2

theorem mSize_mFree : mSize (mFree mem n) m = mSize mem m := by
  rw [mFree]
  cases n.ext with
  | none => rfl
  | some b => exact mSize_addRefs

theorem mPullupLoop_ok {len : Nat} (hwf : Wf mem (m0 :: ms)) (hw : mReadonly mem m0 = false)
    (hroom : m0.data + m0.len + len ≤ mDatabuf m0 + mSize mem m0) (hpos : 0 < len)
    (hlen : len ≤ total ms) : ∃ mem' m0' ms', mPullupLoop mem m0 ms len = .ok (mem', m0', ms') ∧
      Local mem (m0 :: ms) mem' (m0' :: ms') ∧
      view mem' (m0' :: ms') = view mem (m0 :: ms) ∧ m0'.len = m0.len + len ∧
      m0'.pkthdr = m0.pkthdr := by
  induction ms generalizing mem m0 len with
  | nil =>
    rw [total_nil] at hlen
    omega
  | cons m ms ih =>
    have hm : Inside mem m := hwf.inside m (by simp)
    have hge : mDatabuf m0 ≤ m0.data + m0.len := Nat.le_trans hwf.head.ge (Nat.le_add_right ..)
    have hread : mRead mem m m.data (min len m.len) =
        .ok ((bytes mem m).take (min len m.len)) := by
      have hpart := mRead_data (k := 0) hm (j := min len m.len) (by omega)
      rwa [Nat.add_zero, drop_zero] at hpart
    have hlength : ((bytes mem m).take (min len m.len)).length = min len m.len := by
      rw [length_take, length_bytes]
      omega
    have hfits : m0.data + m0.len + ((bytes mem m).take (min len m.len)).length ≤
        mDatabuf m0 + mSize mem m0 := by omega
    have hrun : mPullupLoop mem m0 (m :: ms) len =
        let p := extend mem m0 ((bytes mem m).take (min len m.len))
        if m.len - min len m.len > 0 then
          .ok (p.1, p.2, { m with len := m.len - min len m.len
                                  data := m.data + min len m.len } :: ms)
        else if len - min len m.len = 0 then .ok (mFree p.1 m, p.2, ms)
        else mPullupLoop (mFree p.1 m) p.2 ms (len - min len m.len) := by
      simp only [mPullupLoop, hread, bind, Except.bind, mWrite_ok hge hfits, extend, hlength,
        poke_len]
      rfl
    have hext := local_extend hw hfits
    have hmove : Local mem (m0 :: m :: ms) (extend mem m0 ((bytes mem m).take (min len m.len))).1
        ((extend mem m0 ((bytes mem m).take (min len m.len))).2 :: m :: ms) :=
      hext.frame (m :: ms)
    have hothers : ∀ x ∈ m :: ms,
        bytes (extend mem m0 ((bytes mem m).take (min len m.len))).1 x = bytes mem x :=
      (hext (m :: ms) hwf).2
    have hrest : view (extend mem m0 ((bytes mem m).take (min len m.len))).1 ms = view mem ms :=
      view_congr fun x hx => hothers x (mem_cons_of_mem m hx)
    rw [hrun]
    simp only
    by_cases hleft : m.len - min len m.len > 0
    · rw [if_pos hleft]
      have hmin : min len m.len = len := by omega
      rw [hmin] at hmove hothers hrest ⊢
      have hcut : len ≤ m.len := by omega
      have hset : ∀ mem1, Local mem1 (m :: ms) mem1
          ({ m with len := m.len - len, data := m.data + len } :: ms) := fun mem1 =>
        refl.cons_set rfl fun hin =>
          hin.of_ext rfl rfl (Nat.le_add_right ..) (by simp only; omega)
      refine ⟨_, _, _, rfl, hmove.trans ((hset _).cons _), ?_, ?_, extend_pkthdr⟩
      · have hdrop : bytes (extend mem m0 ((bytes mem m).take len)).1
            { m with len := m.len - len, data := m.data + len } = (bytes mem m).drop len :=
          (bytes_cut _ hcut).trans (congrArg _ (hothers m mem_cons_self))
        rw [view_cons, view_cons, bytes_extend, hdrop, hrest, view_cons, view_cons,
          append_assoc, ← append_assoc (take _ _), take_append_drop]
      · rw [hmin] at hlength
        rw [extend_len, hlength]
    · rw [if_neg hleft]
      have hmin : min len m.len = m.len := by omega
      have htake : (bytes mem m).take (min len m.len) = bytes mem m :=
        take_of_length_le (by rw [length_bytes]; omega)
      rw [htake] at hmove hothers hrest hext ⊢
      rw [hmin]
      have hstep : Local mem (m0 :: m :: ms) (mFree (extend mem m0 (bytes mem m)).1 m)
          ((extend mem m0 (bytes mem m)).2 :: ms) :=
        hmove.trans (((local_mFree _ m).frame ms).cons _)
      have hview : view (mFree (extend mem m0 (bytes mem m)).1 m)
          ((extend mem m0 (bytes mem m)).2 :: ms) = view mem (m0 :: m :: ms) := by
        rw [view_mFree, view_cons, bytes_extend, hrest, view_cons, view_cons, append_assoc]
      split
      next hdone =>
        refine ⟨_, _, _, rfl, hstep, hview, ?_, extend_pkthdr⟩
        rw [extend_len, length_bytes]
        omega
      next hmore =>
        rw [total_cons] at hlen
        have hroom' : (extend mem m0 (bytes mem m)).2.data + (extend mem m0 (bytes mem m)).2.len +
            (len - m.len) ≤ mDatabuf (extend mem m0 (bytes mem m)).2 +
              mSize (mFree (extend mem m0 (bytes mem m)).1 m) (extend mem m0 (bytes mem m)).2 := by
          rw [mSize_mFree, extend_top, extend_data, extend_len, length_bytes]
          omega
        obtain ⟨mem', m0', ms', hok, hlocal, hv, hl, hhdr⟩ :=
          ih (hstep.wf hwf) (mReadonly_mFree (by rw [mReadonly_extend]; exact hw)) hroom'
            (show 0 < len - m.len by omega) (by omega)
        refine ⟨mem', m0', ms', hok, hstep.trans hlocal, hv.trans hview, ?_,
          hhdr.trans extend_pkthdr⟩
        rw [hl, extend_len, length_bytes]
        omega

def PulledUp (mem : Mem) (ms : List Mbuf) (len : Nat) (r : Except Fault (Mem × List Mbuf)) : Prop :=
  ∃ mem' ms', r = .ok (mem', ms') ∧ Local mem ms mem' ms' ∧ view mem' ms' = view mem ms ∧
    (∃ m rest, ms' = m :: rest ∧ len ≤ m.len) ∧ hdr ms' = hdr ms

theorem mPullupShift_ok (hwf : Wf mem (m0 :: ms)) (hw : mReadonly mem m0 = false)
    (hlen : m0.len ≤ len) (hfit : adj + len ≤ mSize mem m0) :
    ∃ mem' n, mPullupShift mem m0 adj len = .ok (mem', n) ∧
      Local mem [m0] mem' [n] ∧ bytes mem' n = bytes mem m0 ∧ mReadonly mem' n = false ∧
      n.len = m0.len ∧ n.pkthdr = m0.pkthdr ∧ n.data + len ≤ mDatabuf n + mSize mem' n := by
  have hin := hwf.head
  rw [mPullupShift]
  simp only
  by_cases hempty : m0.len = 0
  · rw [if_pos hempty]
    refine ⟨mem, _, rfl, local_set rfl fun _ => Inside.place (m := m0) rfl rfl
      (Nat.le_add_right ..) ?_, ?_, hw, rfl, rfl, ?_⟩
    · simp only
      omega
    · rw [bytes_empty hempty, bytes_empty]
      exact hempty
    · refine Nat.le_trans ?_ (Nat.add_le_add_left hfit (mDatabuf m0))
      exact Nat.le_of_eq (Nat.add_assoc ..)
  · rw [if_neg hempty]
    by_cases htail : m0.data + len > mDatabuf m0 + mSize mem m0
    · have hroom : mDatabuf m0 + adj + (bytes mem m0).length ≤ mDatabuf m0 + mSize mem m0 := by
        rw [length_bytes]
        omega
      have hplace : Inside mem { (poke mem m0 (mDatabuf m0 + adj) (bytes mem m0)).2 with
          data := mDatabuf m0 + adj } :=
        Inside.place (m := m0) (poke_ext ..) (by simp only [poke_pkthdr])
          (Nat.le_add_right ..) (by simp only [poke_len]; omega)
      have hsize : mDatabuf { (poke mem m0 (mDatabuf m0 + adj) (bytes mem m0)).2 with
            data := mDatabuf m0 + adj } +
          mSize (poke mem m0 (mDatabuf m0 + adj) (bytes mem m0)).1
            { (poke mem m0 (mDatabuf m0 + adj) (bytes mem m0)).2 with
              data := mDatabuf m0 + adj } = mDatabuf m0 + mSize mem m0 := by
        rw [mSize_poke]
        exact congr (congrArg _ (mDatabuf_congr (poke_ext ..) (by rw [poke_pkthdr])))
          (mSize_congr (poke_ext ..) (by rw [poke_pkthdr]))
      have hset : Local (poke mem m0 (mDatabuf m0 + adj) (bytes mem m0)).1
          [(poke mem m0 (mDatabuf m0 + adj) (bytes mem m0)).2]
          (poke mem m0 (mDatabuf m0 + adj) (bytes mem m0)).1
          [{ (poke mem m0 (mDatabuf m0 + adj) (bytes mem m0)).2 with
            data := mDatabuf m0 + adj }] := local_set rfl fun _ => inside_poke hplace
      refine ⟨_, _, ?_, (local_poke hw (mDatabuf m0 + adj) (bytes mem m0)).trans hset,
        ?_, ?_, ?_, ?_, ?_⟩
      · rw [if_pos htail, mRead_all hin]
        simp only [bind, Except.bind, mWrite_ok (Nat.le_add_right ..) hroom]
      · have hstore : store (poke mem m0 (mDatabuf m0 + adj) (bytes mem m0)).1
            { (poke mem m0 (mDatabuf m0 + adj) (bytes mem m0)).2 with
              data := mDatabuf m0 + adj } =
            Lib.RingSlice.put (store mem m0) (mDatabuf m0 + adj) (bytes mem m0) := store_poke ..
        rw [bytes, hstore]
        exact put_run_self (by rw [length_bytes]; exact (poke_len ..).symm)
      · exact (mReadonly_poke ..).trans hw
      · exact poke_len ..
      · exact poke_pkthdr ..
      · rw [hsize]
        simp only
        omega
    · rw [if_neg htail]
      exact ⟨mem, m0, rfl, refl, rfl, hw, rfl, rfl, Nat.not_lt.1 htail⟩

theorem mPullupNew_storage {mem1 : Mem} {n1 : Mbuf} {limit space : Nat}
    (hfresh : Fresh mem mem1 n1 limit space) (hlimit : limit ≤ mhlen)
    (hn : n = if m0.pkthdr.isSome then (mMovePkthdr n1 m0).1 else n1) :
    n.ext = n1.ext ∧ n.extwr = n1.extwr ∧ n.pkthdr = m0.pkthdr ∧ n.data = mDatabuf n ∧
      space ≤ mSize mem1 n := by
  by_cases hhdr : m0.pkthdr.isSome
  · rw [if_pos hhdr] at hn
    subst hn
    refine ⟨rfl, rfl, rfl, ?_, ?_⟩ <;> rcases n1.ext.eq_none_or_eq_some with hext | ⟨b, hext⟩
    · simp only [mMovePkthdr, mDatabuf, hext, isNone_none, if_pos hhdr]
      rfl
    · simp only [mMovePkthdr, mDatabuf, hext, isNone_some, hfresh.data]
      rfl
    · have hplain := hfresh.plain hext
      simp only [mMovePkthdr, mSize, hext, if_pos hhdr]
      omega
    · simp only [mMovePkthdr, mSize, hext]
      exact hfresh.cluster b hext
  · rw [if_neg hhdr] at hn
    subst hn
    have hnone : m0.pkthdr = none := not_isSome_iff_eq_none.1 hhdr
    refine ⟨rfl, rfl, hfresh.pkthdr.trans hnone.symm, ?_, ?_⟩ <;>
      rcases n.ext.eq_none_or_eq_some with hext | ⟨b, hext⟩
    · simp only [mDatabuf, hext, hfresh.data, hfresh.pkthdr]
      rfl
    · simp only [mDatabuf, hext, hfresh.data]
    · have hplain := hfresh.plain hext
      have hle : mhlen ≤ mlen := Nat.sub_le ..
      simp only [mSize, hext, hfresh.pkthdr]
      exact Nat.le_trans hplain (Nat.le_trans hlimit hle)
    · simp only [mSize, hext]
      exact hfresh.cluster b hext

theorem mPullupNew_ok (hwf : Wf mem [m0]) (h : mPullupNew mem m0 adj len ≠ .error .nospace) :
    ∃ mem' n m', mPullupNew mem m0 adj len = .ok (mem', n, m') ∧ Local mem [m0] mem' [n, m'] ∧
      bytes mem' m' = bytes mem m0 ∧ m'.len = m0.len ∧ mReadonly mem' n = false ∧ n.len = 0 ∧
      n.pkthdr = m0.pkthdr ∧ n.data + len ≤ mDatabuf n + mSize mem' n := by
  by_cases hspace : adj + len ≤ maxmclbytes
  swap
  · refine absurd ?_ h
    simp only [mPullupNew, ensure, if_neg hspace]
    rfl
  have hget : mGetl mem mhlen (adj + len) ≠ .error .nospace := fun herr => h (by
    simp only [mPullupNew, ensure_ok hspace, herr]
    rfl)
  obtain ⟨mem1, n1, hrun, hfresh⟩ := mGetl_ok hget
  obtain ⟨n2, hn2⟩ : ∃ n2, n2 = if m0.pkthdr.isSome then (mMovePkthdr n1 m0).1 else n1 := ⟨_, rfl⟩
  obtain ⟨hext, hwr, hhdr, hdata, hsize⟩ := mPullupNew_storage hfresh (Nat.le_refl _) hn2
  have hin : Inside mem1 { n2 with len := 0, data := n2.data + adj } :=
    Inside.place (m := n2) rfl rfl (by simp only; omega) (by simp only; omega)
  have hnew : Local mem [] mem1 [{ n2 with len := 0, data := n2.data + adj }] :=
    hfresh.owned _ hext hin
  have hw : mReadonly mem1 { n2 with len := 0, data := n2.data + adj } = false :=
    hfresh.writable _ hext hwr
  have hroom : n2.data + adj + len ≤ mDatabuf n2 + mSize mem1 n2 := by omega
  have hframe := hnew.frame [m0]
  have hold : bytes mem1 m0 = bytes mem m0 := hnew.bytes_frame hwf
  by_cases hsome : m0.pkthdr.isSome
  · have hmove : Local mem1 [m0] mem1 [{ m0 with pkthdr := none }] := local_set rfl move_inside
    rw [if_pos hsome] at hn2
    subst hn2
    refine ⟨mem1, _, { m0 with pkthdr := none }, ?_, hframe.trans (hmove.cons _),
      hold, rfl, hw, rfl, hhdr, hroom⟩
    simp only [mPullupNew, ensure_ok hspace, hrun, bind, Except.bind, if_pos hsome]
    rfl
  · rw [if_neg hsome] at hn2
    subst hn2
    refine ⟨mem1, _, m0, ?_, hframe, hold, rfl, hw, rfl, hhdr, hroom⟩
    simp only [mPullupNew, ensure_ok hspace, hrun, bind, Except.bind, if_neg hsome]

theorem mPullupTail_ok (hwf : Wf mem (m0 :: m :: rest)) (hmore : m0.len < len)
    (hlen : len ≤ total (m0 :: m :: rest))
    (h : mPullupTail mem m0 m rest adj len ≠ .error .nospace) :
    PulledUp mem (m0 :: m :: rest) len (mPullupTail mem m0 m rest adj len) := by
  rw [total_cons] at hlen
  rw [mPullupTail] at h ⊢
  by_cases hroom : mReadonly mem m0 = false ∧ adj + len ≤ mSize mem m0
  · rw [if_pos hroom]
    obtain ⟨mem1, n, hshift, hlocal, hbytes, hw, hn, hhdr, htop⟩ :=
      mPullupShift_ok hwf hroom.1 (Nat.le_of_lt hmore) hroom.2
    have hwf1 : Wf mem1 (n :: m :: rest) := hlocal.wf_frame (m :: rest) hwf
    obtain ⟨mem2, n2, ms, hloop, hlocal2, hview, hn2, hhdr2⟩ :=
      mPullupLoop_ok hwf1 hw (show n.data + n.len + (len - m0.len) ≤ _ by omega)
        (by omega) (by omega)
    refine ⟨mem2, n2 :: ms, ?_, (hlocal.frame (m :: rest)).trans hlocal2, ?_,
      ⟨n2, ms, rfl, by omega⟩, hhdr2.trans hhdr⟩
    · simp only [hshift, hloop, bind, Except.bind]
    · rw [hview, view_cons, hbytes, view_cons (m := m0), hlocal.view_frame (m :: rest) hwf]
  · rw [if_neg hroom] at h ⊢
    have hnew : mPullupNew mem m0 adj len ≠ .error .nospace := fun herr => h (by rw [herr]; rfl)
    obtain ⟨mem1, n, m', hget, hlocal, hbytes, hm', hw, hn, hhdr, htop⟩ :=
      mPullupNew_ok hwf.one hnew
    have hwf1 : Wf mem1 (n :: m' :: m :: rest) := hlocal.wf_frame (m :: rest) hwf
    obtain ⟨mem2, n2, ms, hloop, hlocal2, hview, hn2, hhdr2⟩ :=
      mPullupLoop_ok hwf1 hw (show n.data + n.len + len ≤ _ by omega) (by omega)
        (by rw [total_cons]; omega)
    refine ⟨mem2, n2 :: ms, ?_, (hlocal.frame (m :: rest)).trans hlocal2, ?_,
      ⟨n2, ms, rfl, by omega⟩, hhdr2.trans hhdr⟩
    · simp only [hget, hloop, bind, Except.bind]
    · rw [hview, view_cons, bytes_empty hn, nil_append, view_cons, hbytes,
        view_cons (m := m0), hlocal.view_frame (m :: rest) hwf]

theorem mPullup_ok (hwf : Wf mem (m0 :: rest)) (hlen : len ≤ total (m0 :: rest))
    (h : mPullup mem (m0 :: rest) len ≠ .error .nospace) :
    PulledUp mem (m0 :: rest) len (mPullup mem (m0 :: rest) len) := by
  by_cases hdone : len ≤ m0.len
  · exact ⟨mem, m0 :: rest, if_pos hdone, refl, rfl, ⟨m0, rest, rfl, hdone⟩, rfl⟩
  rw [mPullup, if_neg hdone] at h ⊢
  -- the chain behind `m0` when the empty mbufs are gone
  obtain ⟨mem1, rest1, hskip, hlocal, hview, hbytes⟩ : ∃ mem1 rest1,
      (if m0.len = 0 then freeEmpty mem rest else (mem, rest)) = (mem1, rest1) ∧
      Local mem rest mem1 rest1 ∧ view mem rest1 = view mem rest ∧
      ∀ x, bytes mem1 x = bytes mem x := by
    split
    · exact ⟨_, _, rfl, freeEmpty_local mem rest, freeEmpty_view mem rest, freeEmpty_bytes mem rest⟩
    · exact ⟨_, _, rfl, refl, rfl, fun _ => rfl⟩
  have htotal : total rest1 = total rest := by
    rw [total_eq_length mem, hview, length_view]
  rw [total_cons, ← htotal] at hlen
  rw [hskip] at h ⊢
  cases rest1 with
  | nil =>
    rw [total_nil] at hlen
    omega
  | cons m rest1 =>
    obtain ⟨mem', ms', hrun, hlocal', hview', hcontig, hhdr⟩ :=
      mPullupTail_ok ((hlocal.cons m0).wf hwf) (Nat.lt_of_not_le hdone)
        (by rw [total_cons]; exact hlen) h
    refine ⟨mem', ms', hrun, (hlocal.cons m0).trans hlocal', ?_, hcontig, hhdr⟩
    rw [hview', view_cons, hbytes, view_congr fun x _ => hbytes x, hview, view_cons]

end Mbsd.Kern.MbufChain
