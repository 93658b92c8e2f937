import Mbsd.Kern.MbufChain.Storage

/-! Which mbufs have which storage, and steps that touch only the mbufs they are given. -/

namespace Mbsd.Kern.MbufChain

open Lib.Run List Option Function
open Lib.RingSlice (put)

variable {mem mem' mem'' : Mem} {m m' n o : Mbuf} {ms ms' ms'' ns ctx : List Mbuf} {l : List Byte}

theorem refsTo_cons (b : Nat) (m : Mbuf) (ms : List Mbuf) :
    refsTo b (m :: ms) = refsTo b ms + if m.ext = some b then 1 else 0 := by
  simp only [refsTo, countP_cons, decide_eq_true_eq]

@[simp] theorem refsTo_append (b : Nat) (ms ns : List Mbuf) :
    refsTo b (ms ++ ns) = refsTo b ms + refsTo b ns := countP_append

theorem refsTo_cons_self (h : m.ext = some b) : refsTo b (m :: ms) = refsTo b ms + 1 := by
  rw [refsTo_cons, if_pos h]

theorem refsTo_pos (hm : m ∈ ms) (h : m.ext = some b) : 0 < refsTo b ms :=
  countP_pos_iff.2 ⟨m, hm, decide_eq_true h⟩

theorem ext_ne_of_refsTo (h : refsTo b ms = 0) (hm : m ∈ ms) : m.ext ≠ some b := fun hext => by
  have hpos := refsTo_pos hm hext
  omega

@[simp] theorem view_nil : view mem [] = [] := rfl

@[simp] theorem view_cons : view mem (m :: ms) = bytes mem m ++ view mem ms := rfl

@[simp] theorem view_append : view mem (ms ++ ns) = view mem ms ++ view mem ns :=
  flatMap_append

theorem view_congr (h : ∀ m ∈ ms, bytes mem' m = bytes mem m) : view mem' ms = view mem ms :=
  flatMap_congr h

@[simp] theorem total_nil : total [] = 0 := rfl

@[simp] theorem total_cons : total (m :: ms) = m.len + total ms := sum_cons

@[simp] theorem total_append : total (ms ++ ns) = total ms + total ns := by
  rw [total, map_append, sum_append, total, total]

@[simp] theorem length_bytes : (bytes mem m).length = m.len := length_run

@[simp] theorem length_view (mem : Mem) (ms : List Mbuf) : (view mem ms).length = total ms := by
  induction ms with
  | nil => rfl
  | cons m ms ih => rw [view_cons, length_append, length_bytes, ih, total_cons]

theorem bytes_cut (mem : Mem) (h : k ≤ m.len) :
    bytes mem { m with data := m.data + k, len := m.len - k } = (bytes mem m).drop k := by
  rw [bytes, bytes, drop_run h]
  rfl

theorem bytes_short (mem : Mem) (h : k ≤ m.len) :
    bytes mem { m with len := k } = (bytes mem m).take k := by
  rw [bytes, bytes, take_run h]
  rfl

theorem mSize_congr (hext : m'.ext = m.ext) (hhdr : m'.pkthdr.isSome = m.pkthdr.isSome) :
    mSize mem m' = mSize mem m := by
  rw [mSize, mSize, hext, hhdr]

theorem mDatabuf_congr (hext : m'.ext = m.ext) (hhdr : m'.pkthdr.isSome = m.pkthdr.isSome) :
    mDatabuf m' = mDatabuf m := by
  rw [mDatabuf, mDatabuf, hext, hhdr]

theorem top_none (h : m.ext = none) : mDatabuf m + mSize mem m = mlen := by
  rw [mDatabuf, mSize, h]
  cases m.pkthdr <;> rfl

theorem mDatabuf_some (h : m.ext = some b) : mDatabuf m = 0 := by rw [mDatabuf, h]

theorem mSize_some (h : m.ext = some b) : mSize mem m = (mem.ext b).size := by rw [mSize, h]

theorem store_some (h : m.ext = some b) : store mem m = (mem.ext b).byte := by rw [store, h]

theorem store_none (h : m.ext = none) : store mem m = m.dat := by rw [store, h]

theorem mReadonly_none (h : m.ext = none) : mReadonly mem m = false := by rw [mReadonly, h]

theorem refs_le_one (h : mReadonly mem m = false) (hext : m.ext = some b) :
    (mem.ext b).refs ≤ 1 := by
  rw [mReadonly, hext] at h
  simp only [Bool.or_eq_false_iff, decide_eq_false_iff_not, Nat.not_lt] at h
  exact h.2

theorem inside_none_iff (h : m.ext = none) :
    Inside mem m ↔ mDatabuf m ≤ m.data ∧ m.data + m.len ≤ mlen := by
  rw [← top_none h]
  exact ⟨fun hin => ⟨hin.ge, hin.le⟩, fun hin => ⟨hin.1, hin.2⟩⟩

theorem inside_some_iff (h : m.ext = some b) :
    Inside mem m ↔ m.data + m.len ≤ (mem.ext b).size := by
  rw [← mSize_some h]
  refine ⟨fun hin => ?_, fun hle => ⟨?_, ?_⟩⟩
  · have hle := hin.le
    rwa [mDatabuf_some h, Nat.zero_add] at hle
  · rw [mDatabuf_some h]
    exact Nat.zero_le _
  · rwa [mDatabuf_some h, Nat.zero_add]

/-- The mbufs of chains: nothing that is out of use has an mbuf, no storage has more mbufs than it
counts, and all data lies inside its storage. -/
structure Wf (mem : Mem) (ms : List Mbuf) : Prop where
  unborn : ∀ b, mem.next ≤ b → (mem.ext b).refs = 0
  shares : ∀ b, refsTo b ms ≤ (mem.ext b).refs
  inside : ∀ m ∈ ms, Inside mem m

theorem Wf.perm (h : Wf mem ms) (hp : ms.Perm ms') : Wf mem ms' where
  unborn := h.unborn
  shares b := by
    rw [refsTo, ← hp.countP_eq]
    exact h.shares b
  inside m hm := h.inside m (hp.mem_iff.2 hm)

theorem Wf.left (h : Wf mem (ms ++ ns)) : Wf mem ms where
  unborn := h.unborn
  shares b := by
    have hshares := h.shares b
    rw [refsTo_append] at hshares
    omega
  inside m hm := h.inside m (mem_append_left _ hm)

theorem Wf.right (h : Wf mem (ms ++ ns)) : Wf mem ns := (h.perm perm_append_comm).left

theorem Wf.head (h : Wf mem (m :: ms)) : Inside mem m := h.inside m mem_cons_self

theorem Wf.tail (h : Wf mem (m :: ms)) : Wf mem ms :=
  (h.perm (perm_append_singleton m ms).symm).left

theorem Wf.one (h : Wf mem (m :: ms)) : Wf mem [m] :=
  (h.perm (Perm.refl ([m] ++ ms))).left

theorem Wf.swap (h : Wf mem (m :: n :: ms)) : Wf mem (n :: m :: ms) :=
  h.perm (Perm.swap n m ms)

theorem Wf.ext_lt (h : Wf mem ms) (hm : m ∈ ms) (hext : m.ext = some b) : b < mem.next := by
  have hpos := refsTo_pos hm hext
  have hshares := h.shares b
  have hunborn := h.unborn b
  omega

theorem Wf.exclusive (h : Wf mem (m :: ms)) (hw : mReadonly mem m = false)
    (hext : m.ext = some b) : refsTo b ms = 0 := by
  have hshares := h.shares b
  have hrefs := refs_le_one hw hext
  rw [refsTo_cons_self hext] at hshares
  omega

def Local (mem : Mem) (ms : List Mbuf) (mem' : Mem) (ms' : List Mbuf) : Prop :=
  ∀ ctx, Wf mem (ms ++ ctx) → Wf mem' (ms' ++ ctx) ∧ ∀ m ∈ ctx, bytes mem' m = bytes mem m

namespace Local

theorem refl : Local mem ms mem ms := fun _ h => ⟨h, fun _ _ => rfl⟩

section

variable (h : Local mem ms mem' ms')

include h

theorem trans (h' : Local mem' ms' mem'' ms'') : Local mem ms mem'' ms'' := fun ctx hwf =>
  have hmid := h ctx hwf
  have hend := h' ctx hmid.1
  ⟨hend.1, fun m hm => (hend.2 m hm).trans (hmid.2 m hm)⟩

theorem perm (hp : ns.Perm ms) (hp' : ms'.Perm ns') : Local mem ns mem' ns' := fun ctx hwf =>
  have hstep := h ctx (hwf.perm (hp.append_right ctx))
  ⟨hstep.1.perm (hp'.append_right ctx), hstep.2⟩

theorem frame (ns : List Mbuf) : Local mem (ms ++ ns) mem' (ms' ++ ns) := fun ctx hwf => by
  rw [append_assoc] at hwf
  have hstep := h (ns ++ ctx) hwf
  refine ⟨?_, fun m hm => hstep.2 m (mem_append_right _ hm)⟩
  rw [append_assoc]
  exact hstep.1

theorem cons (m : Mbuf) : Local mem (m :: ms) mem' (m :: ms') :=
  (h.frame [m]).perm (perm_append_singleton m ms).symm (perm_append_singleton m ms')

theorem append_left (ns : List Mbuf) : Local mem (ns ++ ms) mem' (ns ++ ms') :=
  (h.frame ns).perm perm_append_comm perm_append_comm

theorem wf (hwf : Wf mem ms) : Wf mem' ms' := by
  have hstep := (h [] (by rwa [append_nil])).1
  rwa [append_nil] at hstep

theorem wf_frame (ns : List Mbuf) (hwf : Wf mem (ms ++ ns)) : Wf mem' (ms' ++ ns) := (h ns hwf).1

theorem view_frame (ns : List Mbuf) (hwf : Wf mem (ms ++ ns)) :
    view mem' ns = view mem ns := view_congr (h ns hwf).2

theorem bytes_frame (hwf : Wf mem (m :: ms)) : bytes mem' m = bytes mem m :=
  (h [m] (hwf.perm (perm_append_singleton m ms).symm)).2 m mem_cons_self

end

end Local

theorem Inside.place (h : m'.ext = m.ext) (hhdr : m'.pkthdr.isSome = m.pkthdr.isSome)
    (hge : mDatabuf m ≤ m'.data) (hle : m'.data + m'.len ≤ mDatabuf m + mSize mem m) :
    Inside mem m' where
  ge := by rwa [mDatabuf_congr h hhdr]
  le := by rwa [mDatabuf_congr h hhdr, mSize_congr h hhdr]

theorem Inside.of_ext (hin : Inside mem m) (h : m'.ext = m.ext)
    (hhdr : m'.pkthdr.isSome = m.pkthdr.isSome) (hge : m.data ≤ m'.data)
    (hle : m'.data + m'.len ≤ m.data + m.len) : Inside mem m' :=
  Inside.place h hhdr (Nat.le_trans hin.ge hge) (Nat.le_trans hle hin.le)

theorem local_set (hext : m'.ext = m.ext) (hin : Inside mem m → Inside mem m') :
    Local mem [m] mem [m'] := fun ctx hwf =>
  ⟨{ unborn := hwf.unborn
     shares := fun b => by
       have hshares := hwf.shares b
       rw [singleton_append, refsTo_cons] at hshares ⊢
       rwa [hext]
     inside := fun x hx => by
       rcases mem_cons.1 hx with rfl | hx
       · exact hin (hwf.inside m mem_cons_self)
       · exact hwf.inside x (mem_cons_of_mem m hx) }, fun _ _ => rfl⟩

theorem Local.cons_set (h : Local mem ms mem' ms') (hext : m'.ext = m.ext)
    (hin : Inside mem m → Inside mem m') : Local mem (m :: ms) mem' (m' :: ms') :=
  ((local_set hext hin).frame ms).trans (h.cons m')

theorem local_new (hext : n.ext = none) (hin : Inside mem n) : Local mem [] mem [n] :=
  fun ctx hwf =>
    ⟨{ unborn := hwf.unborn
       shares := fun b => by
         have hshares := hwf.shares b
         rwa [singleton_append, refsTo_cons, hext, if_neg nofun]
       inside := fun x hx => by
         rcases mem_cons.1 hx with rfl | hx
         · exact hin
         · exact hwf.inside x hx }, fun _ _ => rfl⟩

section AddRefs

section

variable (mem : Mem) (b : Nat) (f : Nat → Nat) (c : Nat)

@[simp] theorem addRefs_byte : ((addRefs mem b f).ext c).byte = (mem.ext c).byte := by
  simp only [addRefs, update_apply]
  split
  · next h => rw [h]
  · rfl

@[simp] theorem addRefs_size : ((addRefs mem b f).ext c).size = (mem.ext c).size := by
  simp only [addRefs, update_apply]
  split
  · next h => rw [h]
  · rfl

theorem addRefs_refs :
    ((addRefs mem b f).ext c).refs = if c = b then f (mem.ext b).refs else (mem.ext c).refs := by
  simp only [addRefs, update_apply]
  split <;> rfl

end

@[simp] theorem bytes_addRefs : bytes (addRefs mem b f) m = bytes mem m := by
  rw [bytes, bytes]
  cases hext : m.ext with
  | none => rw [store_none hext, store_none hext]
  | some c => rw [store_some hext, store_some hext, addRefs_byte]

@[simp] theorem mSize_addRefs : mSize (addRefs mem b f) m = mSize mem m := by
  rw [mSize, mSize]
  cases m.ext with
  | none => rfl
  | some c => exact addRefs_size mem b f c

theorem inside_addRefs (h : Inside mem m) : Inside (addRefs mem b f) m :=
  ⟨h.ge, by rw [mSize_addRefs]; exact h.le⟩

end AddRefs

theorem bytes_mFree : bytes (mFree mem m) n = bytes mem n := by
  rw [mFree]
  cases m.ext with
  | none => rfl
  | some b => exact bytes_addRefs

@[simp] theorem view_mFree : view (mFree mem m) ms = view mem ms := view_congr fun _ _ => bytes_mFree

theorem local_mFree (mem : Mem) (m : Mbuf) : Local mem [m] (mFree mem m) [] := fun ctx hwf => by
  refine ⟨?_, fun _ _ => bytes_mFree⟩
  cases hext : m.ext with
  | none =>
    rw [mFree, hext]
    exact hwf.right
  | some b =>
    rw [mFree, hext]
    have hlt := hwf.ext_lt mem_cons_self hext
    refine ⟨fun c hc => ?_, fun c => ?_, fun x hx => inside_addRefs (hwf.right.inside x hx)⟩
    · have hcb : c ≠ b := fun h => absurd (h ▸ hc) (Nat.not_le_of_gt hlt)
      rw [addRefs_refs, if_neg hcb]
      exact hwf.unborn c hc
    · have hshares := hwf.shares c
      rw [singleton_append] at hshares
      rw [nil_append, addRefs_refs]
      split
      · next h =>
        subst h
        rw [refsTo_cons_self hext] at hshares
        omega
      · rw [refsTo_cons] at hshares
        omega

theorem local_share (hext : o.ext = some b) (hn : n.ext = some b) (hin : Inside mem n) :
    Local mem [o] (addRefs mem b (· + 1)) [o, n] := fun ctx hwf => by
  have hlt := hwf.ext_lt mem_cons_self hext
  refine ⟨⟨fun c hc => ?_, fun c => ?_, fun x hx => inside_addRefs ?_⟩, fun _ _ => bytes_addRefs⟩
  · have hcb : c ≠ b := fun h => absurd (h ▸ hc) (Nat.not_le_of_gt hlt)
    rw [addRefs_refs, if_neg hcb]
    exact hwf.unborn c hc
  · have hshares := hwf.shares c
    rw [singleton_append, refsTo_cons, hext] at hshares
    rw [cons_append, singleton_append, refsTo_cons, refsTo_cons, hext, hn, addRefs_refs]
    by_cases h : c = b
    · subst h
      rw [if_pos rfl] at hshares ⊢
      rw [if_pos rfl]
      omega
    · have hne : ¬some b = some c := fun heq => h (some.inj heq).symm
      rw [if_neg hne] at hshares ⊢
      rw [if_neg h]
      exact hshares
  · rw [cons_append, mem_cons, singleton_append, mem_cons] at hx
    rcases hx with rfl | rfl | hx
    · exact hwf.inside x mem_cons_self
    · exact hin
    · exact hwf.right.inside x hx

theorem local_mExtadd (h : n.ext = some mem.next) (hle : n.data + n.len ≤ size) :
    Local mem [] (mExtadd mem m size).1 [n] := fun ctx hwf => by
  have hne : ∀ b, b ≠ mem.next → (mExtadd mem m size).1.ext b = mem.ext b := fun b hb =>
    update_of_ne hb _ _
  have hold : ∀ x ∈ ctx, ∀ b, x.ext = some b →
      (mExtadd mem m size).1.ext b = mem.ext b := fun x hx b hb =>
    hne b (Nat.ne_of_lt (hwf.ext_lt hx hb))
  have hnew : (mExtadd mem m size).1.ext mem.next = ⟨0, size, mem.junk, 1⟩ :=
    update_self ..
  refine ⟨⟨fun c hc => ?_, fun c => ?_, fun x hx => ?_⟩, fun x hx => ?_⟩
  · rw [hne c (Nat.ne_of_gt hc)]
    exact hwf.unborn c (Nat.le_of_lt hc)
  · rw [singleton_append, refsTo_cons, h]
    have hshares := hwf.shares c
    rw [nil_append] at hshares
    by_cases heq : c = mem.next
    · subst heq
      rw [hwf.unborn _ (Nat.le_refl _)] at hshares
      rw [if_pos rfl, hnew]
      exact Nat.add_le_add_right hshares 1
    · rw [if_neg fun hsome => heq (some.inj hsome).symm, hne c heq]
      exact hshares
  · rcases mem_cons.1 hx with rfl | hx
    · refine ⟨?_, ?_⟩
      · rw [mDatabuf_some h]
        exact Nat.zero_le _
      · rw [mDatabuf_some h, mSize_some h, hnew, Nat.zero_add]
        exact hle
    · have hin := hwf.inside x hx
      refine ⟨hin.ge, Nat.le_trans hin.le ?_⟩
      cases hext : x.ext with
      | none => rw [mSize, mSize, hext]
      | some b => rw [mSize_some hext, mSize_some hext, hold x hx b hext]
  · cases hext : x.ext with
    | none => rw [bytes, bytes, store_none hext, store_none hext]
    | some b => rw [bytes, bytes, store_some hext, store_some hext, hold x hx b hext]

theorem mClpool_le (h : mClpool k = some size) : k ≤ size := by
  have hfound := find?_some h
  exact of_decide_eq_true hfound

structure Fresh (mem mem' : Mem) (n : Mbuf) (limit space : Nat) : Prop where
  pkthdr : n.pkthdr = none
  data : n.data = 0
  plain : n.ext = none → space ≤ limit
  cluster : ∀ b, n.ext = some b → space ≤ (mem'.ext b).size
  writable : ∀ n', n'.ext = n.ext → n'.extwr = n.extwr → mReadonly mem' n' = false
  owned : ∀ n', n'.ext = n.ext → Inside mem' n' → Local mem [] mem' [n']
  next : mem.next ≤ mem'.next
  old : ∀ b < mem.next, mem'.ext b = mem.ext b

theorem mGetl_ok {limit space : Nat} (h : mGetl mem limit space ≠ .error .nospace) :
    ∃ mem' n, mGetl mem limit space = .ok (mem', n) ∧ Fresh mem mem' n limit space := by
  rw [mGetl] at h ⊢
  split at h
  next hgt =>
    rw [if_pos hgt]
    cases hpool : mClpool space with
    | none =>
      rw [mClget, hpool] at h
      exact absurd rfl h
    | some size =>
      have hsize := mClpool_le hpool
      have hnew : (mExtadd mem (mGet mem) size).1.ext mem.next = ⟨0, size, mem.junk, 1⟩ :=
        update_self ..
      refine ⟨_, _, by rw [mClget, hpool], rfl, rfl, fun h => absurd h (some_ne_none _), fun b hb => ?_, fun n' hext hwr => ?_,
        fun n' hext hin => ?_, Nat.le_succ _, fun b hb => ?_⟩
      · obtain rfl : mem.next = b := some.inj hb
        rw [hnew]
        exact hsize
      · have hext' : n'.ext = some mem.next := hext
        rw [mReadonly, hext', hwr]
        simp only [hnew]
        rfl
      · have hle := (inside_some_iff (b := mem.next) hext).1 hin
        rw [hnew] at hle
        exact local_mExtadd hext hle
      · exact update_of_ne (Nat.ne_of_lt hb) _ _
  next hle =>
    rw [if_neg hle]
    have hplain : ∀ b, (mGet mem).ext ≠ some b := fun _ h => nomatch h
    exact ⟨_, _, rfl, rfl, rfl, fun _ => Nat.not_lt.1 hle, fun b hb => absurd hb (hplain b),
      fun n' hext _ => mReadonly_none hext, fun n' hext hin => local_new hext hin, Nat.le_refl _,
      fun _ _ => rfl⟩

section Poke

section

variable (mem : Mem) (m : Mbuf) (p : Nat) (l : List Byte)

theorem poke_ext : (poke mem m p l).2.ext = m.ext := by
  rw [poke]
  split <;> rfl

theorem poke_data : (poke mem m p l).2.data = m.data := by
  rw [poke]
  split <;> rfl

theorem poke_len : (poke mem m p l).2.len = m.len := by
  rw [poke]
  split <;> rfl

theorem poke_pkthdr : (poke mem m p l).2.pkthdr = m.pkthdr := by
  rw [poke]
  split <;> rfl

theorem poke_extwr : (poke mem m p l).2.extwr = m.extwr := by
  rw [poke]
  split <;> rfl

theorem poke_next : (poke mem m p l).1.next = mem.next := by
  rw [poke]
  split <;> rfl

theorem poke_size (c : Nat) :
    ((poke mem m p l).1.ext c).size = (mem.ext c).size := by
  cases hext : m.ext with
  | none => simp only [poke, hext]
  | some b =>
    simp only [poke, hext, update_apply]
    split
    · next h => rw [h]
    · rfl

theorem poke_refs (c : Nat) :
    ((poke mem m p l).1.ext c).refs = (mem.ext c).refs := by
  cases hext : m.ext with
  | none => simp only [poke, hext]
  | some b =>
    simp only [poke, hext, update_apply]
    split
    · next h => rw [h]
    · rfl

end

theorem poke_byte_of_ne (h : m.ext ≠ some c) :
    ((poke mem m p l).1.ext c).byte = (mem.ext c).byte := by
  cases hext : m.ext with
  | none => simp only [poke, hext]
  | some b =>
    have hne : c ≠ b := fun heq => h (hext.trans (congrArg some heq.symm))
    simp only [poke, hext, update_of_ne hne]

theorem store_poke (mem : Mem) (m : Mbuf) (p : Nat) (l : List Byte) :
    store (poke mem m p l).1 (poke mem m p l).2 = put (store mem m) p l := by
  cases hext : m.ext with
  | none => simp only [poke, store, hext]
  | some b => simp only [poke, store, hext, update_self]

theorem poke_setLen (mem : Mem) (m : Mbuf) (p : Nat) (l : List Byte) (k : Nat) :
    poke mem { m with len := k } p l =
      ((poke mem m p l).1, { (poke mem m p l).2 with len := k }) := by
  rcases m.ext.eq_none_or_eq_some with hext | ⟨b, hext⟩ <;> simp only [poke, hext]

theorem bytes_poke_of_ne (h : ∀ b, m.ext = some b → x.ext ≠ some b) :
    bytes (poke mem m p l).1 x = bytes mem x := by
  rw [bytes, bytes]
  cases hext : x.ext with
  | none => rw [store_none hext, store_none hext]
  | some b => rw [store_some hext, store_some hext, poke_byte_of_ne fun heq => h b heq hext]

theorem mSize_poke (mem : Mem) (m : Mbuf) (p : Nat) (l : List Byte) (x : Mbuf) :
    mSize (poke mem m p l).1 x = mSize mem x := by
  rw [mSize, mSize]
  cases x.ext with
  | none => rfl
  | some b => exact poke_size mem m p l b

theorem mReadonly_poke (mem : Mem) (m : Mbuf) (p : Nat) (l : List Byte) :
    mReadonly (poke mem m p l).1 (poke mem m p l).2 = mReadonly mem m := by
  rw [mReadonly, mReadonly, poke_ext, poke_extwr]
  cases m.ext with
  | none => rfl
  | some b => simp only [poke_refs]

theorem inside_poke (h : Inside mem x) : Inside (poke mem m p l).1 x :=
  ⟨h.ge, by rw [mSize_poke]; exact h.le⟩

theorem inside_poke_self (h : Inside mem m) : Inside (poke mem m p l).1 (poke mem m p l).2 :=
  inside_poke (h.of_ext (poke_ext ..) (by rw [poke_pkthdr]) (by rw [poke_data])
    (by rw [poke_data, poke_len]))

theorem Wf.poke (h : Wf mem (m :: ms)) (p : Nat) (l : List Byte) :
    Wf (poke mem m p l).1 ((poke mem m p l).2 :: ms) where
  unborn b hb := by
    rw [poke_refs]
    rw [poke_next] at hb
    exact h.unborn b hb
  shares b := by
    have hshares := h.shares b
    rw [refsTo_cons] at hshares
    rw [poke_refs, refsTo_cons, poke_ext]
    exact hshares
  inside x hx := by
    rcases mem_cons.1 hx with rfl | hx
    · exact inside_poke_self h.head
    · exact inside_poke (h.inside x (mem_cons_of_mem m hx))

theorem local_poke (hw : mReadonly mem m = false) (p : Nat) (l : List Byte) :
    Local mem [m] (poke mem m p l).1 [(poke mem m p l).2] := fun _ hwf =>
  ⟨hwf.poke p l, fun _ hx => bytes_poke_of_ne fun _ hext =>
    ext_ne_of_refsTo (hwf.exclusive hw hext) hx⟩

end Poke

section Checked

theorem mLeadingspace_ok (h : Inside mem m) :
    mLeadingspace mem m = .ok (if mReadonly mem m then 0 else m.data - mDatabuf m) := by
  rw [mLeadingspace, ensure_ok h.ge]
  split <;> rfl

theorem mTrailingspace_ok (h : Inside mem m) : mTrailingspace mem m =
      .ok (if mReadonly mem m then 0 else mDatabuf m + mSize mem m - (m.data + m.len)) := by
  rw [mTrailingspace, ensure_ok h.le]
  split <;> rfl

theorem mRead_ok (hp : mDatabuf m ≤ p) (hn : p + k ≤ mDatabuf m + mSize mem m) :
    mRead mem m p k = .ok (run (store mem m) p k) := by
  rw [mRead, ensure_ok ⟨hp, hn⟩]
  rfl

theorem mWrite_ok (hp : mDatabuf m ≤ p) (hn : p + l.length ≤ mDatabuf m + mSize mem m) :
    mWrite mem m p l = .ok (poke mem m p l) := by
  rw [mWrite, ensure_ok ⟨hp, hn⟩]
  rfl

theorem mRead_data (h : Inside mem m) (hn : k + j ≤ m.len) :
    mRead mem m (m.data + k) j = .ok (((bytes mem m).drop k).take j) := by
  have hge := h.ge
  have hle := h.le
  rw [mRead_ok (by omega) (by omega), bytes, drop_run (by omega), take_run (by omega)]

end Checked

end Mbsd.Kern.MbufChain
