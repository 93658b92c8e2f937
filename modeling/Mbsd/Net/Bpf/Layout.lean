import Mbsd.Net.Bpf.Filter

/-! The packet filter on a chain of mbufs: `bpf_mbuf_ops` and `bpf_mfilter` of `net/bpf.c`. -/

namespace Mbsd.Net.Bpf

open List Option AluOp Op

structure Mbuf where
  data : List (BitVec 8)
  next : List (List (BitVec 8))
  deriving DecidableEq, Repr

def Mbuf.bytes (m : Mbuf) : List (BitVec 8) := m.data ++ m.next.flatten

def mbufSkip (off : Nat) (data : List (BitVec 8)) : List (List (BitVec 8)) → Option (Nat × Mbuf)
  | [] => if off ≥ data.length then none else some (off, ⟨data, []⟩)
  | data' :: next =>
    if off ≥ data.length then mbufSkip (off - data.length) data' next
    else some (off, ⟨data, data' :: next⟩)

def mbufGather (off len : Nat) (data : List (BitVec 8)) :
    List (List (BitVec 8)) → Option (List (BitVec 8))
  | [] =>
    let count := min (data.length - off) len
    if len - count = 0 then some ((data.drop off).take count) else none
  | data' :: next =>
    let count := min (data.length - off) len
    if len - count = 0 then some ((data.drop off).take count)
    else (mbufGather 0 (len - count) data' next).map ((data.drop off).take count ++ ·)

def bpfMbufCopy (m : Mbuf) (off : BitVec 32) (len : Nat) : Option (List (BitVec 8)) :=
  (mbufSkip off.toNat m.data m.next).bind fun (off, m) => mbufGather off len m.data m.next

def ntohl : List (BitVec 8) → BitVec 32
  | [a, b, c, d] => a ++ b ++ c ++ d
  | _ => 0

def ntohs : List (BitVec 8) → BitVec 32
  | [a, b] => (a ++ b).setWidth 32
  | _ => 0

def bpfMbufLdw (m : Mbuf) (k : BitVec 32) : Option (BitVec 32) := (bpfMbufCopy m k 4).map ntohl

def bpfMbufLdh (m : Mbuf) (k : BitVec 32) : Option (BitVec 32) := (bpfMbufCopy m k 2).map ntohs

def bpfMbufLdb (m : Mbuf) (k : BitVec 32) : Option (BitVec 32) :=
  (mbufSkip k.toNat m.data m.next).map fun (k, m) => (m.data.getD k 0).setWidth 32

def bpfMfilter (arc4random : Nat → BitVec 32) (lshOver rshOver : BitVec 32 → BitVec 32 → BitVec 32)
    (f : Option (Nat → BpfInsn)) (m : Mbuf) (wirelen : BitVec 32) (len n : Nat) :
    Except BpfFault (Option (BitVec 32)) :=
  bpfFilterOps ⟨bpfMbufLdw m, bpfMbufLdh m, bpfMbufLdb m, arc4random, lshOver, rshOver⟩
    wirelen f len n

variable {off len : Nat} {data : List (BitVec 8)} {next : List (List (BitVec 8))} {m : Mbuf}
  {k : BitVec 32}

theorem mbufSkip_none (h : mbufSkip off data next = none) :
    (data ++ next.flatten).length ≤ off := by
  induction next generalizing off data with
  | nil =>
    rw [mbufSkip] at h
    split at h
    next hle => rwa [flatten_nil, append_nil]
    next => exact absurd h nofun
  | cons data' next ih =>
    rw [mbufSkip] at h
    split at h
    next hle =>
      have hrest := ih h
      rw [flatten_cons, length_append]
      omega
    next => exact absurd h nofun

theorem mbufSkip_some {off' : Nat} (h : mbufSkip off data next = some (off', m)) :
    off' < m.data.length ∧ m.bytes.drop off' = (data ++ next.flatten).drop off := by
  induction next generalizing off data with
  | nil =>
    rw [mbufSkip] at h
    split at h
    next => exact absurd h nofun
    next hlt =>
      obtain ⟨rfl, rfl⟩ := Prod.ext_iff.mp (some.inj h)
      exact ⟨Nat.lt_of_not_le hlt, rfl⟩
  | cons data' next ih =>
    rw [mbufSkip] at h
    split at h
    next hle =>
      obtain ⟨hlt, hdrop⟩ := ih h
      refine ⟨hlt, hdrop.trans ?_⟩
      have hsplit : (data ++ (data' ++ next.flatten)).drop off =
          data.drop off ++ (data' ++ next.flatten).drop (off - data.length) := drop_append
      rw [flatten_cons, hsplit, drop_eq_nil_of_le hle, nil_append]
    next hlt =>
      obtain ⟨rfl, rfl⟩ := Prod.ext_iff.mp (some.inj h)
      exact ⟨Nat.lt_of_not_le hlt, rfl⟩

theorem mbufGather_eq (hoff : off ≤ data.length) : mbufGather off len data next =
      if len ≤ ((data ++ next.flatten).drop off).length then
        some (((data ++ next.flatten).drop off).take len) else none := by
  induction next generalizing off len data with
  | nil =>
    rw [mbufGather, flatten_nil, append_nil, length_drop]
    by_cases hlen : len ≤ data.length - off
    · rw [if_pos hlen, Nat.min_eq_right hlen, if_pos (Nat.sub_self len)]
    · rw [if_neg hlen, if_neg (by omega)]
  | cons data' next ih =>
    rw [mbufGather, flatten_cons, drop_append_of_le_length hoff, length_append, length_drop]
    by_cases hlen : len ≤ data.length - off
    · rw [if_pos (by omega), if_pos (by omega), Nat.min_eq_right hlen,
        take_append_of_le_length (by rw [length_drop]; exact hlen)]
    · have hcount : min (data.length - off) len = (data.drop off).length := by
        rw [length_drop]
        omega
      have htake : (data.drop off ++ (data' ++ next.flatten)).take len =
          data.drop off ++ (data' ++ next.flatten).take (len - (data.length - off)) := by
        refine take_append.trans ?_
        rw [take_of_length_le (by rw [length_drop]; omega), length_drop]
      rw [if_neg (by omega), ih (Nat.zero_le _), drop_zero, hcount, take_length, htake, length_drop]
      by_cases hrest : len - (data.length - off) ≤ (data' ++ next.flatten).length
      · rw [if_pos hrest, if_pos (by omega), map_some]
      · rw [if_neg hrest, if_neg (by omega), map_none]

theorem bpfMbufCopy_eq (hlen : 0 < len) : bpfMbufCopy m k len =
      if k.toNat + len ≤ m.bytes.length then some ((m.bytes.drop k.toNat).take len) else none := by
  rw [bpfMbufCopy]
  cases hskip : mbufSkip k.toNat m.data m.next with
  | none =>
    have hover := mbufSkip_none hskip
    rw [bind_none, if_neg (by rw [Mbuf.bytes]; omega)]
  | some p =>
    obtain ⟨off, m'⟩ := p
    obtain ⟨hlt, hdrop⟩ := mbufSkip_some hskip
    change mbufGather off len m'.data m'.next = _
    rw [mbufGather_eq (Nat.le_of_lt hlt)]
    change (if len ≤ (m'.bytes.drop off).length then some ((m'.bytes.drop off).take len)
      else none) = _
    rw [hdrop, length_drop]
    change (if len ≤ m.bytes.length - k.toNat then some ((m.bytes.drop k.toNat).take len)
      else none) = _
    by_cases hfit : k.toNat + len ≤ m.bytes.length
    · rw [if_pos hfit, if_pos (by omega)]
    · rw [if_neg hfit, if_neg (by omega)]

/-! A filter gives the same on a chain of mbufs as on the same data in one buffer, as long as no
offset is so large that `bpf_mem_ldw` and `bpf_mem_ldh` see it wrapped. -/

open BitVec BpfMem

def Size.bytes : Size → Nat
  | .w => 4
  | .h => 2
  | .b => 1

def Op.load (p : BpfInsn) (s : BpfState) : Op → Option (Size × BitVec 32)
  | .ldAbs sz => some (sz, p.k)
  | .ldInd sz => some (sz, s.X + p.k)
  | .ldxMsh => some (.b, p.k)
  | _ => none

def bpfLoads (env : BpfEnv) (wirelen : BitVec 32) (f : Nat → BpfInsn) (len : Nat) :
    Nat → BpfState → List (Size × BitVec 32)
  | 0, _ => []
  | n + 1, s =>
    (if s.pc < len then (Op.ofCode (f s.pc).code).bind (Op.load (f s.pc) s) else none).toList ++
      match bpfStep env wirelen f len s with
      | .ok (.next s) => bpfLoads env wirelen f len n s
      | _ => []

def BpfMem.env (bm : BpfMem) (sizeT : Nat) (arc4random : Nat → BitVec 32)
    (lshOver rshOver : BitVec 32 → BitVec 32 → BitVec 32) : BpfEnv :=
  ⟨bm.ldw sizeT, bm.ldh sizeT, bm.ldb, arc4random, lshOver, rshOver⟩

def Mbuf.env (m : Mbuf) (arc4random : Nat → BitVec 32)
    (lshOver rshOver : BitVec 32 → BitVec 32 → BitVec 32) : BpfEnv :=
  ⟨bpfMbufLdw m, bpfMbufLdh m, bpfMbufLdb m, arc4random, lshOver, rshOver⟩

structure Linear (m : Mbuf) (bm : BpfMem) : Prop where
  len : bm.len.toNat = m.bytes.length
  lt : m.bytes.length < 2 ^ 31
  pkt : ∀ i b, m.bytes[i]? = some b → bm.pkt i = b

def Wraps (sizeT len : Nat) (load : Size × BitVec 32) : Prop :=
  sizeT = 32 ∧ load.1 ≠ .b ∧ 2 ^ 32 ≤ load.2.toNat + load.1.bytes ∧
    load.2.toNat + load.1.bytes ≤ 2 ^ 32 + len

variable {m : Mbuf} {bm : BpfMem} {sizeT : Nat} {k : BitVec 32} {arc4random : Nat → BitVec 32}
  {lshOver rshOver : BitVec 32 → BitVec 32 → BitVec 32}

section

variable (h : Linear m bm)

include h

theorem Linear.take_drop {i n : Nat} (hin : i + n ≤ m.bytes.length) :
    (m.bytes.drop i).take n = (range n).map fun j => bm.pkt (i + j) := by
  refine ext_getElem? fun j => ?_
  by_cases hj : j < n
  · have hlt : i + j < m.bytes.length := by omega
    rw [getElem?_take_of_lt hj, getElem?_drop, getElem?_map,
      List.getElem?_range hj, Option.map_some, List.getElem?_eq_getElem hlt,
      h.pkt _ _ (getElem?_eq_getElem hlt)]
  · rw [List.getElem?_eq_none (by rw [List.length_take]; omega),
      List.getElem?_eq_none (by rw [List.length_map, List.length_range]; omega)]

theorem bpfMbufLdw_eq : bpfMbufLdw m k = if k.toNat + 4 ≤ m.bytes.length then
      some (bm.pkt k.toNat ++ bm.pkt (k.toNat + 1) ++ bm.pkt (k.toNat + 2) ++ bm.pkt (k.toNat + 3))
      else none := by
  rw [bpfMbufLdw, bpfMbufCopy_eq (by decide)]
  split
  next hin => rw [h.take_drop hin]; rfl
  next => rfl

theorem bpfMbufLdh_eq : bpfMbufLdh m k = if k.toNat + 2 ≤ m.bytes.length then
      some ((bm.pkt k.toNat ++ bm.pkt (k.toNat + 1)).setWidth 32) else none := by
  rw [bpfMbufLdh, bpfMbufCopy_eq (by decide)]
  split
  next hin => rw [h.take_drop hin]; rfl
  next => rfl

theorem bpfMbufLdb_eq : bpfMbufLdb m k = bm.ldb k := by
  rw [bpfMbufLdb, ldb]
  cases hskip : mbufSkip k.toNat m.data m.next with
  | none =>
    have hover := mbufSkip_none hskip
    rw [if_pos (by rw [le_def, h.len]; exact hover), map_none]
  | some p =>
    obtain ⟨off, m'⟩ := p
    obtain ⟨hlt, hdrop⟩ := mbufSkip_some hskip
    have hbyte : m.bytes[k.toNat]? = some (m'.data.getD off 0) := by
      have hhead : (m'.bytes.drop off)[0]? = (m.bytes.drop k.toNat)[0]? := by rw [hdrop]; rfl
      rw [getElem?_drop, getElem?_drop, Nat.add_zero, Nat.add_zero] at hhead
      rw [← hhead, Mbuf.bytes, getElem?_append_left hlt, getD_eq_getElem?_getD,
        List.getElem?_eq_getElem hlt, Option.getD_some]
    have hin : k.toNat < m.bytes.length := (List.getElem?_eq_some_iff.mp hbyte).1
    rw [if_neg (by rw [le_def, h.len]; omega), map_some, h.pkt _ _ hbyte]

theorem load_eq (hsize : sizeT = 32 ∨ sizeT = 64) (sz : Size)
    (hwraps : ¬Wraps sizeT bm.len.toNat (sz, k)) : (m.env arc4random lshOver rshOver).load sz k =
      (bm.env sizeT arc4random lshOver rshOver).load sz k := by
  have hlen := h.len
  have hfits : ∀ sz, sz ≠ .b → ¬Wraps sizeT bm.len.toNat (sz, k) →
      (bm.fits sizeT k sz.bytes = true ↔ k.toNat + sz.bytes ≤ m.bytes.length) := by
    intro sz hne hnot
    rw [fits, decide_eq_true_iff, Nat.not_lt]
    have hbytes : sz.bytes ≤ 4 := by cases sz <;> decide
    rw [Wraps, and_iff_right hne] at hnot
    rcases hsize with rfl | rfl
    · rw [and_iff_right rfl] at hnot
      dsimp only at hnot
      omega
    · omega
  cases sz with
  | w =>
    change bpfMbufLdw m k = bm.ldw sizeT k
    rw [bpfMbufLdw_eq h, ldw]
    exact if_congr (hfits .w nofun hwraps).symm rfl rfl
  | h =>
    change bpfMbufLdh m k = bm.ldh sizeT k
    rw [bpfMbufLdh_eq h, ldh]
    exact if_congr (hfits .h nofun hwraps).symm rfl rfl
  | b => exact bpfMbufLdb_eq h

theorem load_in (sz : Size) (hload : (m.env arc4random lshOver rshOver).load sz k ≠ none) :
    k.toNat + sz.bytes ≤ bm.len.toNat := by
  rw [h.len]
  by_contra hout
  apply hload
  cases sz with
  | w => exact (bpfMbufLdw_eq h).trans (if_neg hout)
  | h => exact (bpfMbufLdh_eq h).trans (if_neg hout)
  | b =>
    refine (bpfMbufLdb_eq h).trans (if_pos ?_)
    rw [le_def, h.len]
    exact Nat.le_of_lt_succ (Nat.lt_of_not_le hout)

end

theorem Wraps.outside {sz : Size} (h : Wraps sizeT bm.len.toNat (sz, k)) :
    ¬k.toNat + sz.bytes ≤ bm.len.toNat := by
  obtain ⟨-, -, hlow, -⟩ := h
  dsimp only at hlow
  omega

theorem Wraps.load {sz : Size} (h : Wraps sizeT bm.len.toNat (sz, k)) :
    (bm.env sizeT arc4random lshOver rshOver).load sz k ≠ none := by
  obtain ⟨rfl, hne, hlow, hhigh⟩ := h
  dsimp only at hlow hhigh
  have hfits : bm.fits 32 k sz.bytes = true := by
    rw [fits, decide_eq_true_iff, Nat.not_lt]
    omega
  cases sz with
  | w =>
    change bm.ldw 32 k ≠ none
    rw [ldw]
    exact (if_pos hfits).trans_ne nofun
  | h =>
    change bm.ldh 32 k ≠ none
    rw [ldh]
    exact (if_pos hfits).trans_ne nofun
  | b => exact absurd rfl hne

structure SameBut (env env' : BpfEnv) : Prop where
  arc4random : env.arc4random = env'.arc4random
  lshOver : env.lshOver = env'.lshOver
  rshOver : env.rshOver = env'.rshOver

section Congr

variable {env env' : BpfEnv} {wirelen : BitVec 32} {f : Nat → BpfInsn} {len : Nat}

theorem AluOp.eval_congr (h : SameBut env env') (o : AluOp) (a v : BitVec 32) :
    o.eval env a v = o.eval env' a v := by
  cases o with
  | lsh => rw [eval, eval, lshift, lshift, h.lshOver]
  | rsh => rw [eval, eval, rshift, rshift, h.rshOver]
  | _ => rfl

theorem Op.exec_congr (h : SameBut env env') {p : BpfInsn} {s : BpfState} (o : Op)
    (hload : ∀ l ∈ o.load p s, env.load l.1 l.2 = env'.load l.1 l.2) :
    o.exec env wirelen p s = o.exec env' wirelen p s := by
  cases o with
  | ldAbs sz => rw [exec, exec, hload (sz, p.k) rfl]
  | ldInd sz => rw [exec, exec, hload (sz, s.X + p.k) rfl]
  | ldxMsh =>
    have hbyte : env.ldb p.k = env'.ldb p.k := hload (.b, p.k) rfl
    rw [exec, exec, hbyte]
  | ldRnd => rw [exec, exec, h.arc4random]
  | alu o src => rw [exec, exec, eval_congr h]
  | _ => rfl

theorem bpfStep_congr (h : SameBut env env') (wirelen : BitVec 32) {s : BpfState}
    (hload : ∀ l ∈ (if s.pc < len then (ofCode (f s.pc).code).bind (load (f s.pc) s)
      else none), env.load l.1 l.2 = env'.load l.1 l.2) :
    bpfStep env wirelen f len s = bpfStep env' wirelen f len s := by
  rw [bpfStep, bpfStep]
  split
  next hpc =>
    rw [if_pos hpc] at hload
    cases hcode : ofCode (f s.pc).code with
    | none => rfl
    | some o =>
      rw [hcode] at hload
      exact exec_congr h o hload
  next => rfl

theorem bpfLoop_congr (h : SameBut env env') (n : Nat) (s : BpfState)
    (hload : ∀ l ∈ bpfLoads env wirelen f len n s, env.load l.1 l.2 = env'.load l.1 l.2) :
    bpfLoop env wirelen f len n s = bpfLoop env' wirelen f len n s ∧
      bpfLoads env wirelen f len n s = bpfLoads env' wirelen f len n s := by
  induction n generalizing s with
  | zero => exact ⟨rfl, rfl⟩
  | succ n ih =>
    rw [bpfLoads] at hload
    have hstep := bpfStep_congr h wirelen fun l hl =>
      hload l (mem_append_left _ (mem_toList.mpr hl))
    rw [bpfLoop, bpfLoop, bpfLoads, bpfLoads, ← hstep]
    cases hout : bpfStep env wirelen f len s with
    | error e => exact ⟨rfl, rfl⟩
    | ok out =>
      cases out with
      | ret v => exact ⟨rfl, rfl⟩
      | next s' =>
        rw [hout] at hload
        obtain ⟨hloop, hloads⟩ := ih s' fun l hl => hload l (mem_append_right _ hl)
        exact ⟨hloop, congrArg _ hloads⟩

end Congr

def bpfFilterLoads (env : BpfEnv) (wirelen : BitVec 32) (f : Option (Nat → BpfInsn)) (len n : Nat) :
    List (Size × BitVec 32) :=
  match f with
  | none => []
  | some f => bpfLoads env wirelen f len n BpfState.init

theorem bpfFilterOps_congr {env env' : BpfEnv} (h : SameBut env env')
    (f : Option (Nat → BpfInsn)) (wirelen : BitVec 32) (len n : Nat)
    (hload : ∀ l ∈ bpfFilterLoads env wirelen f len n, env.load l.1 l.2 = env'.load l.1 l.2) :
    bpfFilterOps env wirelen f len n = bpfFilterOps env' wirelen f len n ∧
      bpfFilterLoads env wirelen f len n = bpfFilterLoads env' wirelen f len n := by
  cases f with
  | none => exact ⟨rfl, rfl⟩
  | some f => exact bpfLoop_congr h n _ hload

/-- `bpf_filter` reads inside its buffer and returns what `bpf_mfilter` does exactly if no load of
the filter is at an offset that wraps. -/
theorem bpf_mfilter_eq_iff (h : Linear m bm) (hsize : sizeT = 32 ∨ sizeT = 64)
    (f : Option (Nat → BpfInsn)) (wirelen : BitVec 32) (len n : Nat) :
    (bpfMfilter arc4random lshOver rshOver f m wirelen len n =
        bpfFilter sizeT arc4random lshOver rshOver f bm wirelen len n ∧
      ∀ l ∈ bpfFilterLoads (bm.env sizeT arc4random lshOver rshOver) wirelen f len n,
        (bm.env sizeT arc4random lshOver rshOver).load l.1 l.2 ≠ none →
          l.2.toNat + l.1.bytes ≤ bm.len.toNat) ↔
      ∀ l ∈ bpfFilterLoads (m.env arc4random lshOver rshOver) wirelen f len n,
        ¬Wraps sizeT bm.len.toNat l := by
  constructor
  · rintro ⟨-, hin⟩
    have hwraps : ∀ l ∈ bpfFilterLoads (bm.env sizeT arc4random lshOver rshOver) wirelen f len n,
        ¬Wraps sizeT bm.len.toNat l := fun l hl hwrap => hwrap.outside (hin l hl hwrap.load)
    have hsame : SameBut (bm.env sizeT arc4random lshOver rshOver)
        (m.env arc4random lshOver rshOver) := ⟨rfl, rfl, rfl⟩
    have hcongr := bpfFilterOps_congr hsame f wirelen len n
      fun l hl => (load_eq h hsize l.1 (hwraps l hl)).symm
    exact hcongr.2 ▸ hwraps
  · intro hwraps
    have hsame : SameBut (m.env arc4random lshOver rshOver)
        (bm.env sizeT arc4random lshOver rshOver) := ⟨rfl, rfl, rfl⟩
    have hcongr := bpfFilterOps_congr hsame f wirelen len n
      fun l hl => load_eq h hsize l.1 (hwraps l hl)
    refine ⟨hcongr.1, fun l hl hload => ?_⟩
    rw [← hcongr.2] at hl
    rw [← load_eq h hsize l.1 (hwraps l hl)] at hload
    exact load_in h l.1 hload

def behindFilter : Nat → BpfInsn
  | 0 => ⟨Op.ldxImm.code, 0, 0, 0xfffffffc⟩
  | 1 => ⟨(Op.ldInd .w).code, 0, 0, 0⟩
  | _ => ⟨Op.retK.code, 0, 0, 1⟩

/-- With a `size_t` of 32 bits the word is taken to be inside of the packet. -/
theorem bpfFilter_reads_behind : bpfValidate 0x200000 behindFilter 3 = true ∧
      bpfFilter 32 (fun _ => 0) (fun _ _ => 0) (fun _ _ => 0) (some behindFilter)
        ⟨fun _ => 0x46, 1⟩ 1 3 3 = .ok (some 1) ∧
      bpfMfilter (fun _ => 0) (fun _ _ => 0) (fun _ _ => 0) (some behindFilter)
        ⟨[0x46], []⟩ 1 3 3 = .ok (some 0) := by
  refine ⟨by decide, rfl, rfl⟩

def wordFilter : Nat → BpfInsn
  | 0 => ⟨(Op.ldAbs .w).code, 0, 0, 0⟩
  | _ => ⟨Op.retA.code, 0, 0, 0⟩

/-- A word across three mbufs, one of them empty. -/
theorem bpf_mfilter_eq_across :
    bpfMfilter (fun _ => 0) (fun _ _ => 0) (fun _ _ => 0) (some wordFilter)
        ⟨[0x45], [[], [0x00, 0x3c, 0x11]]⟩ 4 2 2 =
      bpfFilter 32 (fun _ => 0) (fun _ _ => 0) (fun _ _ => 0) (some wordFilter)
        ⟨fun i => [0x45, 0x00, 0x3c, 0x11].getD i 0, 4⟩ 4 2 2 := by
  have hlinear : Linear ⟨[0x45], [[], [0x00, 0x3c, 0x11]]⟩
      ⟨fun i => [0x45, 0x00, 0x3c, 0x11].getD i 0, 4⟩ := by
    refine ⟨rfl, by decide, fun i b hb => ?_⟩
    change ([0x45, 0x00, 0x3c, 0x11] : List (BitVec 8)).getD i 0 = b
    rw [getD_eq_getElem?_getD]
    exact hb ▸ rfl
  refine ((bpf_mfilter_eq_iff hlinear (.inl rfl) _ 4 2 2).mpr fun l hl => ?_).1
  obtain rfl : l = (.w, 0) := mem_singleton.mp hl
  exact fun h => absurd h.2.2.1 (by decide)

end Mbsd.Net.Bpf
