import Mathlib.Algebra.BigOperators.Fin
import Mbsd.Kern.SysvMsg.Messages

/-! What `msg_copyin` and `msg_copyout` copy, byte for byte. -/

namespace Mbsd.Kern.SysvMsg.Copies

open Sys List Nat

section Model

-- How the machine stores a `long`.
variable (long : (Fin 8 → Byte) ≃ BitVec 64)

def longOf (bytes : List Byte) : Int := (long fun i => bytes.getD i 0).toInt

def bytesOf (t : Int) : List Byte := List.ofFn (long.symm (BitVec.ofInt 64 t))

/-- `copyin` of some bytes, with the addresses it reads; `umem` is what user memory holds where it
is mapped. -/
def copyin (umem : Nat → Option Byte) : Nat → Nat → Except Errno (List Byte) × List Nat
  | _, 0 => (.ok [], [])
  | addr, n + 1 =>
    match umem addr with
    | none => (.error .EFAULT, [])
    | some b =>
      let r := copyin umem (addr + 1) n
      (r.1.map (b :: ·), addr :: r.2)

def copyout (mapped : Nat → Bool) : Nat → List Byte → Option Errno × List (Nat × Byte)
  | _, [] => (none, [])
  | addr, b :: bytes =>
    if mapped addr then
      let r := copyout mapped (addr + 1) bytes
      (r.1, (addr, b) :: r.2)
    else (some .EFAULT, [])

def copyinMbufs (umem : Nat → Option Byte) :
    Nat → List Nat → Except Errno (List (List Byte)) × List Nat
  | _, [] => (.ok [], [])
  | ubuf, mLen :: lens =>
    match copyin umem ubuf mLen with
    | (.error e, reads) => (.error e, reads)
    | (.ok bytes, reads) =>
      let r := copyinMbufs umem (ubuf + mLen) lens
      (r.1.map (bytes :: ·), reads ++ r.2)

def msgCopyin (umem : Nat → Option Byte) (id ubuf len : Nat) : Except Errno Msg × List Nat :=
  match copyin umem ubuf 8 with
  | (.error e, reads) => (.error e, reads)
  | (.ok word, reads) =>
    if h : longOf long word < 1 then (.error .EINVAL, reads)
    else
      let r := copyinMbufs umem (ubuf + 8) (copyinLens len)
      (r.1.map fun data => ⟨id, longOf long word, copiedLen len, data, Int.not_lt.1 h⟩,
        reads ++ r.2)

def copyoutMbufs (mapped : Nat → Bool) :
    Nat → List (List Byte) → Option Errno × List (Nat × Byte)
  | _, [] => (none, [])
  | ubuf, m :: data =>
    match copyout mapped ubuf m with
    | (some e, writes) => (some e, writes)
    | (none, writes) =>
      let r := copyoutMbufs mapped (ubuf + m.length) data
      (r.1, writes ++ r.2)

def msgCopyout (mapped : Nat → Bool) (msg : Msg) (ubuf len : Nat) :
    Option (Except Errno Nat × List (Nat × Byte)) :=
  if msginfo.msgmax < msg.msgLen then none
  else
    let xfer := umin len msg.msgLen
    match copyout mapped ubuf (bytesOf long msg.msgType) with
    | (some e, writes) => some (.error e, writes)
    | (none, writes) =>
      match copyoutMbufs mapped (ubuf + 8) msg.msgData with
      | (some e, writes') => some (.error e, writes ++ writes')
      | (none, writes') => some (.ok xfer, writes ++ writes')

end Model

section Bytes

variable {long : (Fin 8 → Byte) ≃ BitVec 64} {umem : Nat → Option Byte} {mapped : Nat → Bool}
  {addr n : Nat} {bytes bytes' : List Byte} {lens : List Nat} {e : Errno}

theorem bytesOf_longOf (h : bytes.length = 8) : bytesOf long (longOf long bytes) = bytes := by
  rw [bytesOf, longOf, BitVec.ofInt_toInt, Equiv.symm_apply_apply]
  refine ext_getElem (by rw [length_ofFn, h]) fun i h₁ h₂ => ?_
  rw [List.getElem_ofFn, getD_eq_getElem?_getD, getElem?_eq_getElem h₂]
  rfl

def Holds (umem : Nat → Option Byte) (addr : Nat) (bytes : List Byte) : Prop :=
  ∀ i (h : i < bytes.length), umem (addr + i) = some bytes[i]

theorem Holds.append (h : Holds umem addr (bytes ++ bytes')) :
    Holds umem addr bytes ∧ Holds umem (addr + bytes.length) bytes' := by
  refine ⟨fun i hi => ?_, fun i hi => ?_⟩
  · rw [h i (by rw [length_append]; omega), getElem_append_left hi]
  · rw [Nat.add_assoc, h (bytes.length + i) (by rw [length_append]; omega),
      getElem_append_right (Nat.le_add_right ..)]
    simp only [Nat.add_sub_cancel_left]

theorem copyin_of_holds (h : Holds umem addr bytes) :
    copyin umem addr bytes.length = (.ok bytes, range' addr bytes.length) := by
  induction bytes generalizing addr with
  | nil => rfl
  | cons b bytes ih =>
    have h : Holds umem addr ([b] ++ bytes) := h
    obtain ⟨hfirst, hrest⟩ := h.append
    have hb : umem addr = some b := hfirst 0 Nat.zero_lt_one
    rw [length_cons, copyin, hb]
    rw [show copyin umem (addr + 1) bytes.length = _ from ih hrest]
    rfl

theorem copyinMbufs_of_holds (h : Holds umem addr bytes) (hsum : lens.sum = bytes.length) :
    ∃ data, copyinMbufs umem addr lens = (.ok data, range' addr bytes.length) ∧
      data.flatten = bytes := by
  induction lens generalizing addr bytes with
  | nil =>
    obtain rfl := eq_nil_of_length_eq_zero hsum.symm
    exact ⟨[], rfl, rfl⟩
  | cons n lens ih =>
    rw [sum_cons] at hsum
    have htake : (bytes.take n).length = n := by
      rw [length_take]
      omega
    rw [← take_append_drop n bytes] at h
    obtain ⟨hfirst, hrest⟩ := h.append
    rw [htake] at hrest
    have hread := copyin_of_holds hfirst
    rw [htake] at hread
    have hdrop : lens.sum = (bytes.drop n).length := by
      rw [length_drop]
      omega
    obtain ⟨data, hrun, hdata⟩ := ih hrest hdrop
    rw [copyinMbufs, hread]
    rw [hrun]
    refine ⟨bytes.take n :: data, Prod.ext rfl ?_, ?_⟩
    · dsimp only
      rw [length_drop, range'_append_1]
      congr 1
      omega
    · rw [flatten_cons, hdata, take_append_drop]

theorem copyout_append : copyout mapped addr (bytes ++ bytes') =
    match copyout mapped addr bytes with
    | (some e, writes) => (some e, writes)
    | (none, writes) =>
      let r := copyout mapped (addr + bytes.length) bytes'
      (r.1, writes ++ r.2) := by
  induction bytes generalizing addr with
  | nil => rfl
  | cons b bytes ih =>
    rw [cons_append, copyout, copyout]
    split
    · rw [ih, length_cons, Nat.add_assoc, Nat.add_comm 1]
      cases copyout mapped (addr + 1) bytes with
      | mk error writes => cases error <;> rfl
    · rfl

theorem copyoutMbufs_eq (data : List (List Byte)) :
    copyoutMbufs mapped addr data = copyout mapped addr data.flatten := by
  induction data generalizing addr with
  | nil => rfl
  | cons m data ih => rw [copyoutMbufs, flatten_cons, copyout_append, ih]

theorem copyout_of_mapped (h : ∀ i < bytes.length, mapped (addr + i) = true) :
    copyout mapped addr bytes = (none, (range' addr bytes.length).zip bytes) := by
  induction bytes generalizing addr with
  | nil => rfl
  | cons b bytes ih =>
    have hfirst : mapped addr = true := h 0 (zero_lt_succ _)
    have hrest : ∀ i < bytes.length, mapped (addr + 1 + i) = true := fun i hi => by
      rw [Nat.add_assoc, Nat.add_comm 1]
      exact h (i + 1) (succ_lt_succ hi)
    rw [copyout, if_pos hfirst, ih hrest]
    rfl

theorem copyout_length (h : (copyout mapped addr bytes).1 = none) :
    (copyout mapped addr bytes).2.length = bytes.length := by
  induction bytes generalizing addr with
  | nil => rfl
  | cons b bytes ih =>
    rw [copyout] at h ⊢
    split at h
    next hmapped => rw [if_pos hmapped, length_cons, length_cons, ih h]
    next => cases h

theorem msgCopyout_eq (long : (Fin 8 → Byte) ≃ BitVec 64) (mapped : Nat → Bool) (msg : Msg)
    (ubuf len : Nat) : msgCopyout long mapped msg ubuf len =
      if msginfo.msgmax < msg.msgLen then none
      else
        match copyout mapped ubuf (bytesOf long msg.msgType ++ msg.msgData.flatten) with
        | (some e, writes) => some (.error e, writes)
        | (none, writes) => some (.ok (umin len msg.msgLen), writes) := by
  have hlength : (bytesOf long msg.msgType).length = 8 := length_ofFn
  rw [msgCopyout]
  refine if_congr Iff.rfl rfl ?_
  rw [copyout_append, hlength, copyoutMbufs_eq]
  cases copyout mapped ubuf (bytesOf long msg.msgType) with
  | mk error writes =>
    cases error with
    | some e => rfl
    | none =>
      cases copyout mapped (ubuf + 8) msg.msgData.flatten with
      | mk error' writes' => cases error' <;> rfl

end Bytes

section Abstracts

variable {umem : Nat → Option Byte} {addr n : Nat}

def userBytes (umem : Nat → Option Byte) (addr n : Nat) : Except Errno (Nat → Byte) :=
  if ∀ i < n, (umem (addr + i)).isSome then .ok fun i => (umem (addr + i)).getD 0
  else .error .EFAULT

theorem copyin_fst : (copyin umem addr n).1 =
    (userBytes umem addr n).map fun ubuf => (List.range n).map ubuf := by
  induction n generalizing addr with
  | zero =>
    rw [userBytes, if_pos fun i hi => absurd hi (Nat.not_lt_zero i)]
    rfl
  | succ n ih =>
    rw [copyin]
    cases hb : umem addr with
    | none =>
      rw [userBytes, if_neg fun h => by simpa [hb] using h 0 (Nat.zero_lt_succ n)]
      rfl
    | some b =>
      have hall : (∀ i < n + 1, (umem (addr + i)).isSome) ↔
          ∀ i < n, (umem (addr + 1 + i)).isSome := by
        rw [Nat.forall_lt_succ_left]
        simp only [Nat.add_zero, hb, Option.isSome_some, true_and, Nat.add_assoc, Nat.add_comm 1]
      dsimp only
      rw [ih, userBytes, userBytes]
      simp only [hall]
      split
      · simp only [Except.map, List.range_succ_eq_map, List.map_cons, List.map_map, Nat.add_zero,
          hb, Option.getD_some]
        congr 2
        exact List.map_congr_left fun i _ => by
          rw [Function.comp_apply, Nat.add_assoc, Nat.add_comm 1]
      · rfl

theorem copyinMbufs_fst {off : Nat} (lens : List Nat) : (copyinMbufs umem (addr + off) lens).1 =
      if ∀ i < lens.sum, (umem (addr + off + i)).isSome then
        .ok (chunks (fun i => (umem (addr + i)).getD 0) off lens)
      else .error .EFAULT := by
  induction lens generalizing off with
  | nil => exact (if_pos fun i hi => absurd hi (Nat.not_lt_zero i)).symm
  | cons n lens ih =>
    have hall : (∀ i < (n :: lens).sum, (umem (addr + off + i)).isSome) ↔
        (∀ i < n, (umem (addr + off + i)).isSome) ∧
          ∀ i < lens.sum, (umem (addr + (off + n) + i)).isSome := by
      rw [sum_cons]
      constructor
      · exact fun h => ⟨fun i hi => h i (by omega), fun i hi => by
          have := h (n + i) (by omega)
          rwa [show addr + off + (n + i) = addr + (off + n) + i by omega] at this⟩
      · rintro ⟨hfirst, hrest⟩ i hi
        by_cases hin : i < n
        · exact hfirst i hin
        · have := hrest (i - n) (by omega)
          rwa [show addr + (off + n) + (i - n) = addr + off + i by omega] at this
    have hcopy : (copyin umem (addr + off) n).1 = _ := copyin_fst
    rw [copyinMbufs, chunks]
    simp only [hall]
    cases hrun : copyin umem (addr + off) n with
    | mk result reads =>
      rw [hrun, userBytes] at hcopy
      dsimp only at hcopy
      by_cases hfirst : ∀ i < n, (umem (addr + off + i)).isSome
      · rw [if_pos hfirst] at hcopy
        subst hcopy
        rw [Nat.add_assoc addr off n, ih]
        by_cases hrest : ∀ i < lens.sum, (umem (addr + (off + n) + i)).isSome
        · rw [if_pos hrest, if_pos ⟨hfirst, hrest⟩]
          simp only [Except.map, Nat.add_assoc]
        · rw [if_neg hrest, if_neg fun h => hrest h.2]
          rfl
      · rw [if_neg hfirst] at hcopy
        subst hcopy
        rw [if_neg fun h => hfirst h.1]
        rfl

theorem copyinChunks_userBytes (lens : List Nat) :
    copyinChunks (userBytes umem addr lens.sum) lens = (copyinMbufs umem addr lens).1 := by
  cases lens with
  | nil => rfl
  | cons n lens =>
    have hdata : (copyinMbufs umem (addr + 0) (n :: lens)).1 = _ := copyinMbufs_fst (n :: lens)
    rw [Nat.add_zero] at hdata
    rw [copyinChunks, if_neg (cons_ne_nil n lens), hdata, userBytes]
    split <;> rfl

theorem msgCopyin_fst (long : (Fin 8 → Byte) ≃ BitVec 64) (id ubuf len : Nat) :
    (msgCopyin long umem id ubuf len).1 =
      SysvMsg.msgCopyin id len ((copyin umem ubuf 8).1.map (longOf long))
        (userBytes umem (ubuf + 8) (copyinLens len).sum) := by
  rw [msgCopyin]
  cases copyin umem ubuf 8 with
  | mk result reads =>
    cases result with
    | error e => rfl
    | ok word =>
      simp only [Except.map, SysvMsg.msgCopyin, copyinChunks_userBytes]
      split <;> rfl

theorem flatten_chunks (ubuf : Nat → Byte) (off : Nat) (lens : List Nat) :
    (chunks ubuf off lens).flatten = (List.range lens.sum).map fun i => ubuf (off + i) := by
  induction lens generalizing off with
  | nil => rfl
  | cons n lens ih =>
    rw [chunks, flatten_cons, ih, sum_cons, List.range_add, List.map_append, List.map_map]
    simp only [Function.comp_def, Nat.add_assoc]

def userRange (umem : Nat → Option Byte) (addr n : Nat) : List Byte :=
  (List.range n).map fun i => (umem (addr + i)).getD 0

/-- Copied piece by piece, the text is the range that the mbufs cover together.  The type is looked
at before any byte of it. -/
theorem msgCopyin_copies (long : (Fin 8 → Byte) ≃ BitVec 64) (umem : Nat → Option Byte)
    (id ubuf len : Nat) :
    (msgCopyin long umem id ubuf len).1.map
        (fun msg => (msg.msgType, msg.msgLen, msg.msgData.flatten)) =
      if ∀ i < 8, (umem (ubuf + i)).isSome then
        if longOf long (userRange umem ubuf 8) < 1 then .error .EINVAL
        else if ∀ i < copiedLen len, (umem (ubuf + 8 + i)).isSome then
          .ok (longOf long (userRange umem ubuf 8), copiedLen len,
            userRange umem (ubuf + 8) (copiedLen len))
        else .error .EFAULT
      else .error .EFAULT := by
  have hdata : (copyinMbufs umem (ubuf + 8 + 0) (copyinLens len)).1 = _ :=
    copyinMbufs_fst (copyinLens len)
  have htext : (chunks (fun i => (umem (ubuf + 8 + i)).getD 0) 0 (copyinLens len)).flatten =
      userRange umem (ubuf + 8) (copiedLen len) := by
    simp only [flatten_chunks, Nat.zero_add, userRange, copiedLen]
  rw [msgCopyin_fst]
  by_cases hreads : ∀ i < 8, (umem (ubuf + i)).isSome
  · rw [copyin_fst, userBytes, if_pos hreads, if_pos hreads]
    change Except.map _ (SysvMsg.msgCopyin id len (.ok (longOf long (userRange umem ubuf 8))) _) = _
    rw [SysvMsg.msgCopyin]
    by_cases htype : longOf long (userRange umem ubuf 8) < 1
    · rw [if_pos htype, dif_pos htype]
      rfl
    · rw [if_neg htype, dif_neg htype, copyinChunks_userBytes, ← htext, copiedLen]
      rw [hdata]
      split <;> rfl
  · rw [copyin_fst, userBytes, if_neg hreads, if_neg hreads]
    rfl

end Abstracts

section Lengths

variable {len xfer rounds msgLen : Nat}

theorem le_copyinLens_loop (hxfer : 0 < xfer) (h : len ≤ msgLen + rounds) :
    len ≤ msgLen + (copyinLens.loop len xfer rounds msgLen).sum := by
  induction rounds generalizing msgLen with
  | zero => exact h
  | succ rounds ih =>
    rw [copyinLens.loop]
    split
    case isTrue =>
      rw [sum_cons, ← Nat.add_assoc]
      exact ih (by omega)
    case isFalse hge => omega

theorem copyinLens_loop_eq_iff (hxfer : 0 < xfer) :
    (copyinLens.loop len xfer len 0).sum = len ↔ xfer ∣ len := by
  have hdvd := dvd_copyinLens_loop len xfer len 0
  have hlt := copyinLens_loop_lt len xfer len (show 0 < len + xfer by omega)
  have hle := le_copyinLens_loop hxfer (show len ≤ 0 + len by omega)
  constructor
  · intro heq
    rwa [heq] at hdvd
  · intro hlen
    have hsub := Nat.dvd_sub hdvd hlen
    have hzero := eq_zero_of_dvd_of_lt hsub (by omega)
    omega

theorem copiedLen_eq_iff (h : len ≤ msginfo.msgmax) : copiedLen len = len ↔
      len ≤ mlen ∨ minclsize ≤ len ∧ (len ≤ mclbytes ∨ mclbytes ∣ len) := by
  have hmax : msginfo.msgmax = 16384 := rfl
  have hmin : minclsize = 369 := rfl
  have hcl : mclbytes = 2048 := rfl
  have hlen : mlen = 224 := rfl
  have hmod : ∀ n < 16385, n % 2 ^ 32 = n := fun n hn => mod_eq_of_lt (by omega)
  rcases Nat.eq_zero_or_pos len with rfl | hpos
  · decide
  unfold copiedLen copyinLens umin
  rw [hmod len (by omega), hmod mclbytes (by omega), hmod mlen (by omega)]
  split
  case isTrue hbig =>
    rw [copyinLens_loop_eq_iff (by omega)]
    rcases Nat.le_total len mclbytes with hle | hle
    · rw [Nat.min_eq_left hle]
      exact iff_of_true (dvd_refl len) (.inr ⟨hbig, .inl hle⟩)
    · rw [Nat.min_eq_right hle]
      constructor
      · exact fun hdvd => .inr ⟨hbig, .inr hdvd⟩
      · rintro (hsmall | ⟨-, heq | hdvd⟩)
        · omega
        · rw [Nat.le_antisymm heq hle]
        · exact hdvd
  case isFalse hsmall =>
    rw [copyinLens_loop_eq_iff (by omega)]
    rcases Nat.le_total len mlen with hle | hle
    · rw [Nat.min_eq_left hle]
      exact iff_of_true (dvd_refl len) (.inl hle)
    · rw [Nat.min_eq_right hle, hlen]
      omega

end Lengths

section Contents

variable {long : (Fin 8 → Byte) ≃ BitVec 64} {umem : Nat → Option Byte} {mapped : Nat → Bool}
  {id src dst len n : Nat} {word bytes : List Byte}

/-- A message of `len` bytes is sent from `src`, and received at `dst` into a buffer of `n` bytes:
what is read, what is stored, what is written and what the call returns. -/
def Survives (long : (Fin 8 → Byte) ≃ BitVec 64) (umem : Nat → Option Byte) (mapped : Nat → Bool)
    (id src len : Nat) (word bytes : List Byte) (dst n : Nat) : Prop :=
  ∃ msg, msgCopyin long umem id src len = (.ok msg, List.range' src (8 + len)) ∧
    msg.msgLen = len ∧ msg.msgData.flatten = bytes ∧
    msgCopyout long mapped msg dst n =
      some (.ok (min n len), (List.range' dst (8 + min n len)).zip (word ++ bytes.take (min n len)))

theorem msgLen_of_ok {msg : Msg} (h : (msgCopyin long umem id src len).1 = .ok msg) :
    msg.msgLen = copiedLen len := by
  rw [msgCopyin] at h
  cases hword : copyin umem src 8 with
  | mk result reads =>
    rw [hword] at h
    cases result with
    | error e => cases h
    | ok word =>
      dsimp only at h
      split at h
      · cases h
      · cases hdata : (copyinMbufs umem (src + 8) (copyinLens len)).1 with
        | error e =>
          rw [hdata] at h
          cases h
        | ok data =>
          rw [hdata] at h
          cases h
          rfl

theorem msgCopyin_of_holds (id : Nat) (hword : word.length = 8) (hbytes : bytes.length = len)
    (htype : 1 ≤ longOf long word) (hsrc : Holds umem src (word ++ bytes))
    (hlen : copiedLen len = len) :
    ∃ msg, msgCopyin long umem id src len = (.ok msg, range' src (8 + len)) ∧
      msg.msgType = longOf long word ∧ msg.msgLen = len ∧ msg.msgData.flatten = bytes := by
  obtain ⟨hfirst, hrest⟩ := hsrc.append
  have hread := copyin_of_holds hfirst
  rw [hword] at hread hrest
  obtain ⟨data, hdata, hflat⟩ := copyinMbufs_of_holds hrest (hlen.trans hbytes.symm)
  rw [msgCopyin, hread]
  dsimp only
  rw [dif_neg (Int.not_lt.mpr htype), hdata]
  refine ⟨_, Prod.ext rfl ?_, rfl, hlen, hflat⟩
  rw [hbytes, range'_append_1]

theorem umin_of_le (hlen : len ≤ msginfo.msgmax) : umin n len = min (n % 2 ^ 32) len := by
  have hmax : msginfo.msgmax = 16384 := rfl
  rw [umin, mod_eq_of_lt (show len < 2 ^ 32 by omega)]

theorem Survives.room (h : Survives long umem mapped id src len word bytes dst n)
    (hlen : len ≤ msginfo.msgmax) (hbytes : bytes.length = len) :
    copiedLen len = len ∧ len ≤ n % 2 ^ 32 := by
  obtain ⟨msg, hin, hmsg, hdata, hout⟩ := h
  refine ⟨(msgLen_of_ok (by rw [hin])).symm.trans hmsg, ?_⟩
  rw [msgCopyout_eq, hmsg, if_neg (Nat.not_lt.mpr hlen), hdata, umin_of_le hlen] at hout
  cases hwrites : copyout mapped dst (bytesOf long msg.msgType ++ bytes) with
  | mk error writes =>
    rw [hwrites] at hout
    cases error with
    | some e => cases hout
    | none =>
      have hlength := copyout_length (congrArg Prod.fst hwrites)
      rw [hwrites, length_append, bytesOf, length_ofFn, hbytes] at hlength
      simp only [Option.some.injEq, Prod.mk.injEq, Except.ok.injEq] at hout
      have hzip := congrArg length hout.2
      rw [hlength, length_zip, length_range'] at hzip
      omega

/-- The contents survive when the pieces add up, and the buffer has room for the whole message. -/
theorem msg_contents (long : (Fin 8 → Byte) ≃ BitVec 64) (id : Nat)
    (hlen : len ≤ msginfo.msgmax) (hword : word.length = 8) (hbytes : bytes.length = len)
    (htype : 1 ≤ longOf long word) (hsrc : Holds umem src (word ++ bytes))
    (hdst : ∀ i < 8 + min n len, mapped (dst + i) = true) :
    Survives long umem mapped id src len word bytes dst n ↔
      (len ≤ mlen ∨ minclsize ≤ len ∧ (len ≤ mclbytes ∨ mclbytes ∣ len)) ∧ len ≤ n % 2 ^ 32 := by
  rw [← copiedLen_eq_iff hlen]
  refine ⟨fun h => h.room hlen hbytes, ?_⟩
  rintro ⟨hexact, hroom⟩
  obtain ⟨msg, hin, htype', hmsg, hdata⟩ := msgCopyin_of_holds id hword hbytes htype hsrc hexact
  have hmin : min n len = len := Nat.min_eq_right (hroom.trans (mod_le n _))
  rw [hmin] at hdst
  refine ⟨msg, hin, hmsg, hdata, ?_⟩
  have hlength : (word ++ bytes).length = 8 + len := by
    rw [length_append, hword, hbytes]
  rw [msgCopyout_eq, hmsg, if_neg (Nat.not_lt.mpr hlen), hdata, htype', bytesOf_longOf hword,
    copyout_of_mapped (hlength.symm ▸ hdst), hlength, umin_of_le hlen, hmin,
    Nat.min_eq_right hroom, take_of_length_le (Nat.le_of_eq hbytes)]

def littleEndian : (Fin 8 → Byte) ≃ BitVec 64 :=
  ((Equiv.refl _).arrowCongr BitVec.equivFin.toEquiv).trans
    (finFunctionFinEquiv.trans
      ((finCongr (Nat.pow_mul 2 8 8).symm).trans BitVec.equivFin.symm.toEquiv))

/-- A message of five bytes is received whole. -/
theorem msg_contents_five :
    Survives littleEndian (fun _ => some 1) (fun _ => true) 0 0 5 (List.replicate 8 1)
      (List.replicate 5 1) 4096 64 := by
  have hsrc : Holds (fun _ => some 1) 0 (replicate 8 1 ++ replicate 5 1) :=
    show Holds (fun _ => some 1) 0 (replicate 13 1) from fun i hi => by
      rw [getElem_replicate]
  refine (msg_contents littleEndian 0 ?_ rfl rfl ?_ hsrc fun _ _ => rfl).mpr ?_
  · decide
  · decide
  · decide

/-- A message of 225 bytes becomes one of 448, and a buffer of three bytes gets five. -/
theorem msg_contents_overrun :
    (∀ msg, (msgCopyin littleEndian (fun _ => some 1) 0 0 225).1 = .ok msg → msg.msgLen = 448) ∧
    ¬Survives littleEndian (fun _ => some 1) (fun _ => true) 0 0 225 (List.replicate 8 1)
      (List.replicate 225 1) 4096 225 ∧
    msgCopyout littleEndian (fun _ => true) ⟨0, 1, 5, [[2, 3, 4, 5, 6]], Int.le_refl 1⟩ 0 3 =
      some (.ok 3, (List.range' 0 13).zip [1, 0, 0, 0, 0, 0, 0, 0, 2, 3, 4, 5, 6]) ∧
    ¬Survives littleEndian (fun _ => some 1) (fun _ => true) 0 0 5 (List.replicate 8 1)
      (List.replicate 5 1) 4096 3 := by
  have hlen : copiedLen 225 = 448 := by decide
  refine ⟨fun msg hin => (msgLen_of_ok hin).trans hlen, fun h => ?_, by decide, fun h => ?_⟩
  · have hroom := h.room (by decide) length_replicate
    omega
  · have hroom := h.room (by decide) length_replicate
    omega

end Contents

end Mbsd.Kern.SysvMsg.Copies
