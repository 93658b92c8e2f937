import Mbsd.Kern.MbufChain.Ownership
import Mbsd.Kern.UipcMbuf

/-! The operations of `kern/uipc_mbuf.c` that walk a chain and move no data: `m_getptr`,
`m_copydata`, `m_adj`, and the walk at the start of `m_split` and `m_makespace`.  Negative offsets
and lengths, which panic, are left out. -/

namespace Mbsd.Kern.MbufChain

open Lib.Run List Option Local

variable {mem : Mem} {m : Mbuf} {ms ms' rest : List Mbuf}

def mGetptr : List Mbuf → Nat → Option (List Mbuf × Nat)
  | [], _ => none
  | [m], loc =>
    if m.len > loc then some ([m], loc)
    else if loc - m.len = 0 then some ([m], m.len) else none
  | m :: m' :: rest, loc =>
    if m.len > loc then some (m :: m' :: rest, loc) else mGetptr (m' :: rest) (loc - m.len)

theorem mGetptr_spec (hne : ms ≠ []) {loc : Nat} (hloc : loc ≤ total ms) :
    ∃ pre m rest off, mGetptr ms loc = some (m :: rest, off) ∧ ms = pre ++ m :: rest ∧
      total pre + off = loc ∧ (off < m.len ∨ rest = [] ∧ off = m.len) := by
  induction ms generalizing loc with
  | nil => exact absurd rfl hne
  | cons m ms ih =>
    rw [total_cons] at hloc
    by_cases hlt : loc < m.len
    · refine ⟨[], m, ms, loc, ?_, rfl, by simp, .inl hlt⟩
      cases ms <;> exact if_pos hlt
    · cases ms with
      | nil =>
        rw [total_nil] at hloc
        have hzero : loc - m.len = 0 := by omega
        refine ⟨[], m, [], m.len, ?_, rfl, ?_, .inr ⟨rfl, rfl⟩⟩
        · rw [mGetptr, if_neg hlt, if_pos hzero]
        · rw [total_nil]
          omega
      | cons m' ms =>
        obtain ⟨pre, x, rest, off, hget, heq, htotal, hoff⟩ :=
          ih (cons_ne_nil m' ms) (show loc - m.len ≤ total (m' :: ms) by omega)
        refine ⟨m :: pre, x, rest, off, ?_, by rw [heq]; rfl, ?_, hoff⟩
        · rw [mGetptr, if_neg hlt, hget]
        · rw [total_cons]
          omega

/-- `for (m = m0; m && len > m->m_len; m = m->m_next) len -= m->m_len`: the mbufs before `m`, `m`,
the mbufs behind it, and the offset into `m`. -/
def mSeek : List Mbuf → Nat → Option (List Mbuf × Mbuf × List Mbuf × Nat)
  | [], _ => none
  | m :: rest, len =>
    if len > m.len then
      (mSeek rest (len - m.len)).map fun (pre, x, post, off) => (m :: pre, x, post, off)
    else some ([], m, rest, len)

theorem mSeek_spec (ms : List Mbuf) (hne : ms ≠ []) (hlen : len ≤ total ms) :
    ∃ pre m post off, mSeek ms len = some (pre, m, post, off) ∧ ms = pre ++ m :: post ∧
      total pre + off = len ∧ off ≤ m.len := by
  induction ms generalizing len with
  | nil => exact absurd rfl hne
  | cons m ms ih =>
    rw [total_cons] at hlen
    by_cases hgt : len > m.len
    · have hne' : ms ≠ [] := by
        rintro rfl
        rw [total_nil] at hlen
        omega
      obtain ⟨pre, x, post, off, hseek, heq, htotal, hoff⟩ :=
        ih hne' (show len - m.len ≤ total ms by omega)
      refine ⟨m :: pre, x, post, off, ?_, by rw [heq]; rfl, ?_, hoff⟩
      · rw [mSeek, if_pos hgt, hseek]
        rfl
      · rw [total_cons]
        omega
    · exact ⟨[], m, ms, len, if_neg hgt, rfl, by simp, by omega⟩

def mCopydataLoop (mem : Mem) : List Mbuf → Nat → Nat → Except Fault (List Byte)
  | [], _, len => if len = 0 then .ok [] else .error .panic
  | m :: rest, off, len =>
    if len = 0 then .ok []
    else do
      let count := min (m.len - off) len
      let l ← mRead mem m (m.data + off) count
      let more ← mCopydataLoop mem rest 0 (len - count)
      .ok (l ++ more)

def mCopydata (mem : Mem) (ms : List Mbuf) (off len : Nat) : Except Fault (List Byte) :=
  match mGetptr ms off with
  | none => .error .panic
  | some (m, off) => mCopydataLoop mem m off len

theorem drop_take_view (h : off ≤ m.len) : ((view mem (m :: rest)).drop off).take len =
      ((bytes mem m).drop off).take (min (m.len - off) len) ++
        (view mem rest).take (len - min (m.len - off) len) := by
  rw [view_cons, drop_append_of_le_length (by rw [length_bytes]; exact h), take_append,
    length_drop, length_bytes]
  congr 1
  · rcases Nat.le_total len (m.len - off) with hle | hle
    · rw [Nat.min_eq_right hle]
    · have hlen : ((bytes mem m).drop off).length = m.len - off := by
        rw [length_drop, length_bytes]
      rw [Nat.min_eq_left hle, take_of_length_le (by omega), take_of_length_le (by omega)]
  · congr 1
    omega

theorem mCopydataLoop_ok (hin : ∀ m ∈ ms, Inside mem m)
    (hoff : ∀ m ∈ ms.head?, off ≤ m.len) (hlen : off + len ≤ total ms) :
    mCopydataLoop mem ms off len = .ok (((view mem ms).drop off).take len) := by
  induction ms generalizing off len with
  | nil =>
    rw [total_nil] at hlen
    have hzero : len = 0 := by omega
    rw [mCopydataLoop, if_pos hzero, hzero, take_zero]
  | cons m rest ih =>
    rw [mCopydataLoop]
    split
    next hzero => rw [hzero, take_zero]
    next =>
      have hle : off ≤ m.len := hoff m rfl
      rw [total_cons] at hlen
      have hmore := ih (fun x hx => hin x (mem_cons_of_mem m hx)) (fun _ _ => Nat.zero_le _)
        (show 0 + (len - min (m.len - off) len) ≤ total rest by omega)
      have hread := mRead_data (k := off) (j := min (m.len - off) len)
        (hin m mem_cons_self) (by omega)
      rw [drop_take_view hle]
      simp only [hread, hmore, drop_zero]
      rfl

theorem mCopydata_ok (hin : ∀ m ∈ ms, Inside mem m) (hne : ms ≠ []) (hlen : off + len ≤ total ms) :
    mCopydata mem ms off len = .ok (((view mem ms).drop off).take len) := by
  obtain ⟨pre, m, rest, o, hget, rfl, rfl, ho⟩ := mGetptr_spec hne (show off ≤ total ms by omega)
  have hle : o ≤ m.len := by omega
  rw [total_append] at hlen
  rw [mCopydata, hget]
  simp only
  rw [mCopydataLoop_ok (fun x hx => hin x (mem_append_right pre hx))
    (fun x hx => by cases hx; exact hle) (by omega), view_append,
    ← length_view mem pre, drop_length_add_append]

def trimHead : List Mbuf → Nat → List Mbuf × Nat
  | [], len => ([], len)
  | m :: rest, len =>
    if len = 0 then (m :: rest, 0)
    else if m.len ≤ len then
      let r := trimHead rest (len - m.len)
      ({ m with data := m.data + m.len, len := 0 } :: r.1, r.2)
    else ({ m with data := m.data + len, len := m.len - len } :: rest, 0)

theorem trimHead_nil (len : Nat) : trimHead [] len = ([], len) := rfl

def trimTail : List Mbuf → Nat → List Mbuf
  | [], _ => []
  | m :: rest, count =>
    if m.len ≥ count then { m with len := count } :: rest.map fun m => { m with len := 0 }
    else m :: trimTail rest (count - m.len)

theorem trimTail_nil (count : Nat) : trimTail [] count = [] := rfl

def mAdj (mp : List Mbuf) (reqLen : Int) : List Mbuf :=
  if reqLen ≥ 0 then
    let r := trimHead mp reqLen.toNat
    setHdr (· - (reqLen - r.2)) r.1
  else
    let len := (-reqLen).toNat
    match mp.getLast? with
    | none => []
    | some m =>
      if m.len ≥ len then
        setHdr (· - len) (mp.dropLast ++ [{ m with len := m.len - len }])
      else
        let count := total mp - len
        setHdr (fun _ => count) (trimTail mp count)

def hdr (ms : List Mbuf) : Option Int := ms.head?.bind Mbuf.pkthdr

def HdrOk (ms : List Mbuf) : Prop := ∀ h, hdr ms = some h → h = total ms

theorem hdr_setHdr (f : Int → Int) (ms : List Mbuf) : hdr (setHdr f ms) = (hdr ms).map f := by
  cases ms <;> rfl

theorem HdrOk.setHdr {f : Int → Int} (h : HdrOk ms) (hhdr : hdr ms' = hdr ms) (ht : f (total ms) = total ms') :
    HdrOk (setHdr f ms') := fun k hk => by
  have htotal : total (MbufChain.setHdr f ms') = total ms' := by cases ms' <;> rfl
  rw [hdr_setHdr, hhdr] at hk
  obtain ⟨j, hj, rfl⟩ := map_eq_some_iff.1 hk
  rw [h j hj, ht, htotal]

@[simp] theorem view_setHdr : view mem (setHdr f ms) = view mem ms := by
  cases ms <;> rfl

@[simp] theorem total_setHdr : total (setHdr f ms) = total ms := by
  cases ms <;> rfl

theorem local_setHdr (mem : Mem) (f : Int → Int) (ms : List Mbuf) : Local mem ms mem (setHdr f ms) := by
  cases ms with
  | nil => exact refl
  | cons m rest =>
    have hhdr : (m.pkthdr.map f).isSome = m.pkthdr.isSome := isSome_map
    exact refl.cons_set rfl fun h => h.of_ext rfl hhdr (Nat.le_refl _) (Nat.le_refl _)

theorem getElem?_setHdr (f : Int → Int) {j : Nat} (h : ms[j]? = some m) :
    ∃ m', (setHdr f ms)[j]? = some m' ∧ m'.len = m.len := by
  cases ms with
  | nil => exact absurd h nofun
  | cons n ns =>
    cases j with
    | zero =>
      obtain rfl : n = m := some.inj h
      exact ⟨_, rfl, rfl⟩
    | succ j => exact ⟨m, h, rfl⟩

theorem total_take_setHdr (f : Int → Int) (ms : List Mbuf) (j : Nat) :
    total ((setHdr f ms).take j) = total (ms.take j) := by
  cases ms with
  | nil => rfl
  | cons n ns => cases j <;> rfl

section

variable (ms : List Mbuf)

theorem trimHead_hdr (len : Nat) : hdr (trimHead ms len).1 = hdr ms := by
  cases ms with
  | nil => rfl
  | cons m rest =>
    rw [trimHead]
    split
    · rfl
    · split <;> rfl

theorem trimHead_left (len : Nat) : (trimHead ms len).2 = len - total ms := by
  induction ms generalizing len with
  | nil => simp [trimHead_nil]
  | cons m rest ih =>
    rw [trimHead, total_cons]
    split
    · next h => rw [h, Nat.zero_sub]
    · split
      · rw [ih]
        omega
      · omega

theorem trimHead_view (len : Nat) : view mem (trimHead ms len).1 = (view mem ms).drop len := by
  induction ms generalizing len with
  | nil => rw [trimHead_nil, view_nil, drop_nil]
  | cons m rest ih =>
    rw [trimHead]
    split
    next hzero => rw [hzero, drop_zero]
    next =>
      split
      next hle =>
        have hend : (bytes mem m).length ≤ len := by rw [length_bytes]; exact hle
        rw [view_cons, view_cons, ih, drop_append, drop_eq_nil_of_le hend, length_bytes]
        rfl
      next hgt =>
        rw [view_cons, view_cons,
          drop_append_of_le_length (by rw [length_bytes]; omega), bytes_cut mem (by omega)]

theorem local_trimHead (len : Nat) : Local mem ms mem (trimHead ms len).1 := by
  induction ms generalizing len with
  | nil => exact refl
  | cons m rest ih =>
    rw [trimHead]
    split
    · exact refl
    · split
      · exact (ih _).cons_set rfl fun h => h.of_ext rfl rfl (Nat.le_add_right ..) (Nat.le_refl _)
      · exact refl.cons_set rfl fun h =>
          h.of_ext rfl rfl (Nat.le_add_right ..) (by simp only; omega)

theorem trimTail_hdr (count : Nat) : hdr (trimTail ms count) = hdr ms := by
  cases ms with
  | nil => rfl
  | cons m rest =>
    rw [trimTail]
    split <;> rfl

theorem view_map_empty : view mem (ms.map fun m => { m with len := 0 }) = [] := by
  induction ms with
  | nil => rfl
  | cons m rest ih => rw [map_cons, view_cons, ih, bytes, run_zero, nil_append]

theorem trimTail_view (count : Nat) : view mem (trimTail ms count) = (view mem ms).take count := by
  induction ms generalizing count with
  | nil => rw [trimTail_nil, view_nil, take_nil]
  | cons m rest ih =>
    rw [trimTail]
    split
    next hle =>
      rw [view_cons, view_cons, view_map_empty,
        take_append_of_le_length (by rw [length_bytes]; exact hle), append_nil]
      exact (take_run hle).symm
    next hgt =>
      have hall : (bytes mem m).take count = bytes mem m :=
        take_of_length_le (by rw [length_bytes]; omega)
      rw [view_cons, view_cons, ih, take_append, length_bytes, hall]

theorem local_map_empty : Local mem ms mem (ms.map fun m => { m with len := 0 }) := by
  induction ms with
  | nil => exact refl
  | cons m rest ih =>
    exact ih.cons_set rfl fun h => h.of_ext rfl rfl (Nat.le_refl _) (Nat.le_add_right ..)

theorem local_trimTail (count : Nat) : Local mem ms mem (trimTail ms count) := by
  induction ms generalizing count with
  | nil => exact refl
  | cons m rest ih =>
    rw [trimTail]
    split
    next hle =>
      exact (local_map_empty rest).cons_set rfl fun h =>
        h.of_ext rfl rfl (Nat.le_refl _) (Nat.add_le_add_left hle _)
    next => exact (ih _).cons m

end

theorem total_eq_length (mem : Mem) (ms : List Mbuf) : total ms = (view mem ms).length :=
  (length_view mem ms).symm

theorem mAdj_view (mem : Mem) (mp : List Mbuf) (reqLen : Int) :
    view mem (mAdj mp reqLen) = UipcMbuf.mAdj (view mem mp) reqLen := by
  rw [mAdj, UipcMbuf.mAdj]
  split
  · rw [view_setHdr, trimHead_view]
  · cases hlast : mp.getLast? with
    | none =>
      rw [getLast?_eq_none_iff] at hlast
      simp only [hlast, view_nil, take_nil]
    | some m =>
      obtain ⟨pre, rfl⟩ := getLast?_eq_some_iff.1 hlast
      simp only [length_view]
      split
      next hle =>
        have hcut : view mem [{ m with len := m.len - (-reqLen).toNat }] =
            (view mem [m]).take (m.len - (-reqLen).toNat) := by
          rw [view_cons, view_nil, view_cons, view_nil, append_nil, append_nil]
          exact (take_run (Nat.sub_le ..)).symm
        have hsum : total (pre ++ [m]) - (-reqLen).toNat =
            (view mem pre).length + (m.len - (-reqLen).toNat) := by
          rw [length_view, total_append, total_cons, total_nil]
          omega
        rw [view_setHdr, dropLast_concat, view_append, hcut, hsum, view_append,
          take_length_add_append]
      next => rw [view_setHdr, trimTail_view]

theorem local_mAdj (mp : List Mbuf) (reqLen : Int) : Local mem mp mem (mAdj mp reqLen) := by
  rw [mAdj]
  split
  · exact (local_trimHead mp _).trans (local_setHdr _ _ _)
  · cases hlast : mp.getLast? with
    | none =>
      rw [getLast?_eq_none_iff] at hlast
      rw [hlast]
      exact refl
    | some m =>
      obtain ⟨pre, rfl⟩ := getLast?_eq_some_iff.1 hlast
      simp only
      split
      next hle =>
        rw [dropLast_concat]
        have hcut : Local mem [m] mem [{ m with len := m.len - (-reqLen).toNat }] :=
          local_set rfl fun h =>
            h.of_ext rfl rfl (Nat.le_refl _) (Nat.add_le_add_left (Nat.sub_le ..) _)
        exact (hcut.append_left pre).trans (local_setHdr _ _ _)
      next => exact (local_trimTail _ _).trans (local_setHdr _ _ _)

theorem isSome_hdr_mAdj (ms : List Mbuf) (reqLen : Int) :
    (hdr (mAdj ms reqLen)).isSome = (hdr ms).isSome := by
  rw [mAdj]
  split
  · rw [hdr_setHdr, trimHead_hdr, isSome_map]
  · cases hlast : ms.getLast? with
    | none =>
      rw [getLast?_eq_none_iff] at hlast
      rw [hlast]
    | some m =>
      obtain ⟨pre, rfl⟩ := getLast?_eq_some_iff.1 hlast
      simp only
      split
      · rw [hdr_setHdr, isSome_map, dropLast_concat]
        cases pre <;> rfl
      · rw [hdr_setHdr, trimTail_hdr, isSome_map]

theorem mAdj_hdr (h : HdrOk ms) (reqLen : Int) : HdrOk (mAdj ms reqLen) := by
  have mem : Mem := ⟨fun _ => ⟨0, 0, fun _ => 0, 0⟩, 0, fun _ => 0, 0⟩
  rw [mAdj]
  split
  next hnonneg =>
    refine h.setHdr (trimHead_hdr ms _) ?_
    rw [total_eq_length mem (trimHead ms _).1, trimHead_view, length_drop, length_view,
      trimHead_left]
    omega
  next hneg =>
    cases hlast : ms.getLast? with
    | none =>
      intro k hk
      cases hk
    | some m =>
      obtain ⟨pre, rfl⟩ := getLast?_eq_some_iff.1 hlast
      simp only
      split
      next hle =>
        rw [dropLast_concat]
        refine h.setHdr ?_ ?_
        · cases pre <;> rfl
        · simp only [total_append, total_cons, total_nil]
          omega
      next =>
        refine h.setHdr (trimTail_hdr _ _) ?_
        rw [total_eq_length mem (trimTail _ _), trimTail_view, length_take, length_view]
        omega

end Mbsd.Kern.MbufChain
