import Mbsd.Net.Bpf.Filter

namespace Mbsd.Net.Bpf

variable {maxbufsize k : BitVec 32} {len i : Nat} {p : BpfInsn} {f : Nat → BpfInsn} {s : BpfState}
  {o : Op}

theorem Op.code_of_ofCode {code : BitVec 16} (h : Op.ofCode code = some o) :
    code = o.code := by
  have := List.find?_some h
  exact (of_decide_eq_true this).symm

def Op.returns : Op → Bool
  | .retK | .retA => true
  | _ => false

@[simp] theorem Op.class_code_eq_ret (o : Op) : Code.class_ o.code = Code.ret ↔ o.returns := by
  cases o with
  | ldAbs sz => cases sz <;> decide
  | ldInd sz => cases sz <;> decide
  | jmp c s => cases c <;> cases s <;> decide
  | alu a s => cases a <;> cases s <;> decide
  | _ => decide

/-- What a validated instruction `p` at index `i` promises to the body of the `switch`. -/
def Op.Safe (len i : Nat) (p : BpfInsn) : Op → Prop
  | .ldMem | .ldxMem | .st | .stx => p.k.toNat < bpfMemWords
  | .alu .div .k | .alu .mod .k => p.k ≠ 0
  | .ja => i + p.k.toNat + 1 < len
  | .jmp _ _ => i + p.jt.toNat + 1 < len ∧ i + p.jf.toNat + 1 < len
  | _ => True

theorem bpfCheckInsn_ja (hlen : len ≤ 512) (hi : i < len) (hc : p.code = Op.ja.code)
    (h : bpfCheckInsn maxbufsize (BitVec.ofNat 32 len) i p = true) : i + p.k.toNat + 1 < len := by
  have hd : bpfCheckInsn maxbufsize (BitVec.ofNat 32 len) i p =
      decide (¬(BitVec.ofNat 32 i + 1 + p.k < BitVec.ofNat 32 i + 1 ∨
        BitVec.ofNat 32 len ≤ BitVec.ofNat 32 i + 1 + p.k)) := by
    simp only [bpfCheckInsn, hc]
    rfl
  rw [hd, decide_eq_true_eq] at h
  simp only [BitVec.lt_def, BitVec.le_def, BitVec.toNat_add, BitVec.toNat_ofNat,
    show BitVec.toNat (1 : BitVec 32) = 1 from rfl] at h
  omega

theorem bpfCheckInsn_jmp {c : Cond}
    {s : Src} (hlen : len ≤ 512) (hi : i < len) (hc : p.code = (Op.jmp c s).code)
    (h : bpfCheckInsn maxbufsize (BitVec.ofNat 32 len) i p = true) :
    i + p.jt.toNat + 1 < len ∧ i + p.jf.toNat + 1 < len := by
  have hd : bpfCheckInsn maxbufsize (BitVec.ofNat 32 len) i p =
      decide (¬(BitVec.ofNat 32 len ≤ BitVec.ofNat 32 i + 1 + p.jt.setWidth 32 ∨
        BitVec.ofNat 32 len ≤ BitVec.ofNat 32 i + 1 + p.jf.setWidth 32)) := by
    simp only [bpfCheckInsn, hc]
    cases c <;> cases s <;> rfl
  rw [hd, decide_eq_true_eq] at h
  simp only [BitVec.le_def, BitVec.toNat_add, BitVec.toNat_ofNat, BitVec.toNat_setWidth,
    show BitVec.toNat (1 : BitVec 32) = 1 from rfl] at h
  omega

theorem Op.safe_of_check (hlen : len ≤ 512) (hi : i < len) (hc : p.code = o.code)
    (h : bpfCheckInsn maxbufsize (BitVec.ofNat 32 len) i p = true) : o.Safe len i p := by
  cases o with
  | ja => exact bpfCheckInsn_ja hlen hi hc h
  | jmp c s => exact bpfCheckInsn_jmp hlen hi hc h
  | ldMem | ldxMem | st | stx =>
    simp only [bpfCheckInsn, hc] at h
    show p.k.toNat < bpfMemWords
    exact of_decide_eq_true h
  | alu a s =>
    simp only [bpfCheckInsn, hc] at h
    cases a <;> cases s <;> try trivial
    · exact fun hk => of_decide_eq_true h ⟨rfl, hk⟩
    · exact fun hk => of_decide_eq_true h ⟨rfl, hk⟩
  | _ => trivial

structure Validated (f : Nat → BpfInsn) (len : Nat) : Prop where
  pos : 0 < len
  safe : ∀ i < len, ∀ o, Op.ofCode (f i).code = some o → o.Safe len i (f i)
  last : Code.class_ (f (len - 1)).code = Code.ret

theorem validated_of_bpfValidate {len : Int}
    (h : bpfValidate maxbufsize f len = true) : Validated f len.toNat := by
  unfold bpfValidate at h
  split at h
  · cases h
  next hlen =>
    simp only [bpfMaxInsns, not_or, not_lt] at hlen
    obtain ⟨n, rfl⟩ := Int.eq_ofNat_of_zero_le (by omega : 0 ≤ len)
    split at h
    next hall =>
      simp only [Int.toNat_natCast, List.all_eq_true, List.mem_range] at hall
      refine ⟨by omega, ?_, of_decide_eq_true h⟩
      intro i hi o ho
      exact Op.safe_of_check (by omega) hi (Op.code_of_ofCode ho) (hall i hi)
    next => cases h

theorem Validated.pc_succ_lt (hv : Validated f len)
    (hi : i < len) (ho : Op.ofCode (f i).code = some o) (hr : o.returns = false) : i + 1 < len := by
  by_contra hlt
  have hlast := hv.last
  rw [show len - 1 = i by omega, Op.code_of_ofCode ho, Op.class_code_eq_ret, hr] at hlast
  cases hlast

/-- The result of one instruction: the filter returns, or it moves forward inside the program. -/
def BpfOut.Forward (len i : Nat) : BpfOut → Prop
  | .ret _ => True
  | .next s => i < s.pc ∧ s.pc < len

theorem BpfState.advance_forward {n : Nat} (hs : s.pc = i)
    (h : i + n + 1 < len) : (s.advance n).Forward len i := by
  simp only [BpfState.advance, BpfOut.Forward, hs]
  omega

theorem loadA_forward (h : s.pc + 1 < len)
    (v : Option (BitVec 32)) : (loadA s v).Forward len s.pc := by
  cases v with
  | none => trivial
  | some v => exact BpfState.advance_forward (s := s.setA v) (n := 0) rfl h

theorem AluOp.eval_ok (env : BpfEnv) (o : AluOp) (a v : BitVec 32)
    (h : o = .div ∨ o = .mod → v ≠ 0) : ∃ r, o.eval env a v = .ok r := by
  cases o <;> simp_all [AluOp.eval]

theorem BpfState.scratch_ok (s : BpfState) (h : k.toNat < bpfMemWords) :
    ∃ v, s.scratch k = .ok v := ⟨_, dif_pos h⟩

theorem BpfState.setScratch_ok (s : BpfState) (v : BitVec 32)
    (h : k.toNat < bpfMemWords) : ∃ t, s.setScratch k v = .ok t ∧ t.pc = s.pc :=
  ⟨_, dif_pos h, rfl⟩

theorem Op.exec_forward (env : BpfEnv) (wirelen : BitVec 32)
    (hsafe : o.Safe len s.pc p) (hnext : o.returns = false → s.pc + 1 < len) :
    ∃ out, o.exec env wirelen p s = .ok out ∧ out.Forward len s.pc := by
  cases o with
  | retK | retA => exact ⟨_, rfl, trivial⟩
  | ldAbs sz | ldInd sz => exact ⟨_, rfl, loadA_forward (hnext rfl) _⟩
  | ldLen | ldxLen | ldRnd | ldImm | ldxImm | neg | tax | txa =>
    exact ⟨_, rfl, BpfState.advance_forward rfl (hnext rfl)⟩
  | ldxMsh =>
    simp only [Op.exec]
    split
    · exact ⟨_, rfl, BpfState.advance_forward rfl (hnext rfl)⟩
    · exact ⟨_, rfl, trivial⟩
  | ldMem | ldxMem =>
    obtain ⟨v, hv⟩ := s.scratch_ok hsafe
    rw [Op.exec, hv]
    exact ⟨_, rfl, BpfState.advance_forward rfl (hnext rfl)⟩
  | st =>
    obtain ⟨t, ht, hpc⟩ := s.setScratch_ok s.A hsafe
    rw [Op.exec, ht]
    exact ⟨_, rfl, BpfState.advance_forward hpc (hnext rfl)⟩
  | stx =>
    obtain ⟨t, ht, hpc⟩ := s.setScratch_ok s.X hsafe
    rw [Op.exec, ht]
    exact ⟨_, rfl, BpfState.advance_forward hpc (hnext rfl)⟩
  | ja => exact ⟨_, rfl, BpfState.advance_forward rfl hsafe⟩
  | jmp c src =>
    refine ⟨_, rfl, BpfState.advance_forward rfl ?_⟩
    split
    · exact hsafe.1
    · exact hsafe.2
  | alu a src =>
    simp only [Op.exec]
    split
    · exact ⟨_, rfl, trivial⟩
    next hx =>
      have hne : a = .div ∨ a = .mod → src.operand s p ≠ 0 := by
        rintro hdiv
        cases src with
        | k => rcases hdiv with rfl | rfl <;> exact hsafe
        | x => exact fun h0 => hx ⟨rfl, hdiv, h0⟩
      obtain ⟨r, hr⟩ := a.eval_ok env s.A (src.operand s p) hne
      rw [hr]
      exact ⟨_, rfl, BpfState.advance_forward rfl (hnext rfl)⟩

theorem bpfStep_forward (env : BpfEnv) (wirelen : BitVec 32)
    (hv : Validated f len) (hs : s.pc < len) :
    ∃ out, bpfStep env wirelen f len s = .ok out ∧ out.Forward len s.pc := by
  rw [bpfStep, if_pos hs]
  cases ho : Op.ofCode (f s.pc).code with
  | none => exact ⟨_, rfl, trivial⟩
  | some o => exact Op.exec_forward env wirelen (hv.safe _ hs o ho) (hv.pc_succ_lt hs ho)

theorem bpfLoop_returns (env : BpfEnv) (wirelen : BitVec 32)
    (hv : Validated f len) (n : Nat) (s : BpfState) (hs : s.pc < len) (hn : len - s.pc ≤ n) :
    ∃ v, bpfLoop env wirelen f len n s = .ok (some v) := by
  induction n generalizing s with
  | zero => omega
  | succ n ih =>
    obtain ⟨out, hout, hfwd⟩ := bpfStep_forward env wirelen hv hs
    rw [bpfLoop, hout]
    cases out with
    | ret v => exact ⟨v, rfl⟩
    | next t =>
      obtain ⟨hlt, hlen⟩ := hfwd
      exact ih t hlen (by omega)

/-- A validated filter returns within `len` instructions, on every packet and every value of
the random source, without a fetch, scratch access or division outside its bounds. -/
theorem bpfFilterOps_safe (maxbufsize : BitVec 32) (f : Nat → BpfInsn) (len : Int)
    (h : bpfValidate maxbufsize f len = true) (env : BpfEnv) (wirelen : BitVec 32) :
    ∃ v, bpfFilterOps env wirelen (some f) len.toNat len.toNat = .ok (some v) :=
  have hv := validated_of_bpfValidate h
  bpfLoop_returns env wirelen hv _ _ hv.pos le_rfl

/-- Accept the packets whose first byte is even: a load, a division, a store, a jump. -/
def evenFilter : Nat → BpfInsn
  | 0 => ⟨(Op.ldAbs .b).code, 0, 0, 0⟩
  | 1 => ⟨(Op.alu .mod .k).code, 0, 0, 2⟩
  | 2 => ⟨Op.st.code, 0, 0, 15⟩
  | 3 => ⟨(Op.jmp .eq .k).code, 0, 1, 0⟩
  | 4 => ⟨Op.retK.code, 0, 0, 0xffff⟩
  | _ => ⟨Op.retK.code, 0, 0, 0⟩

def onePacket : BpfEnv :=
  ⟨fun _ => none, fun _ => none, fun _ => some 0x46, fun _ => 4, fun _ _ => 0, fun _ _ => 0⟩

theorem bpfFilterOps_safe_evenFilter : bpfValidate 0x200000 evenFilter 6 = true ∧
      ∃ v, bpfFilterOps onePacket 60 (some evenFilter) 6 6 = .ok (some v) :=
  ⟨by decide, bpfFilterOps_safe 0x200000 evenFilter 6 (by decide) onePacket 60⟩

end Mbsd.Net.Bpf
