import Mathlib.Order.Bounds.Basic
import Mbsd.Lib.Bitmap
import Mbsd.Sys

/-! Where a request fits into a gap of an address space (`uvm/uvm_addr.c`). -/

namespace Mbsd.Uvm.UvmAddr

open Lib.AlignUp Sys Option BitVec Nat

abbrev Vaddr := BitVec 64

def PAGE_SIZE (pageShift : Fin 64) : Vaddr := 1#64 <<< pageShift.val

def MAX (a b : Vaddr) : Vaddr := if a > b then a else b

def PAGE_MASK (pageShift : Fin 64) : Vaddr := PAGE_SIZE pageShift - 1#64

section Model

variable (pageShift : Fin 64) (addr align offset : Vaddr)

def alignOk : Option Unit := do
  kassert (offset < align ∨ align = 0 ∧ offset = 0)
  kassert (align &&& (align - 1#64) = 0)
  kassert (offset &&& PAGE_MASK pageShift = 0)

def uvmAddrAlignForward : Option Vaddr := do
  alignOk pageShift align offset
  let align := MAX align (PAGE_SIZE pageShift)
  let adjusted := addr &&& ~~~(align - 1#64)
  let adjusted := adjusted + offset
  some (if adjusted < addr then adjusted + align else adjusted)

def uvmAddrAlignBackward : Option Vaddr := do
  alignOk pageShift align offset
  let align := MAX align (PAGE_SIZE pageShift)
  let adjusted := addr &&& ~~~(align - 1#64)
  let adjusted := adjusted + offset
  some (if adjusted > addr then adjusted - align else adjusted)

def uvmAddrFitspace (lowAddr highAddr sz beforeGap afterGap : Vaddr) :
    Option (Except Errno (Vaddr × Vaddr)) := do
  if lowAddr > highAddr then return .error .ENOMEM
  let fspace := highAddr - lowAddr
  if fspace < beforeGap + afterGap then return .error .ENOMEM
  if fspace - beforeGap - afterGap < sz then return .error .ENOMEM
  let tmp := lowAddr + beforeGap
  let lowAddr ← uvmAddrAlignForward pageShift tmp align offset
  if lowAddr < tmp then return .error .ENOMEM
  if highAddr - afterGap - sz < lowAddr then return .error .ENOMEM
  let tmp := highAddr - (afterGap + sz)
  let highAddr ← uvmAddrAlignBackward pageShift tmp align offset
  if highAddr > tmp then return .error .ENOMEM
  if lowAddr > highAddr then return .error .ENOMEM
  return .ok (lowAddr, highAddr)

end Model

section Aligned

variable {A o x a : Nat}

def Aligned (A o : Nat) : Set Nat := {a | a ≡ o [MOD A]}

theorem mem_aligned (ho : o < A) : a ∈ Aligned A o ↔ A * (a / A) + o = a := by
  rw [Aligned, Set.mem_ofPred_eq, ModEq, mod_eq_of_lt ho]
  have := div_add_mod a A
  omega

theorem add_mem_aligned (q : Nat) : A * q + o ∈ Aligned A o := by
  rw [Aligned, Set.mem_ofPred_eq, ModEq, mul_add_mod]

theorem eq_or_add_le_mul (h : a ≤ x) : A * a = A * x ∨ A * a + A ≤ A * x := by
  rcases h.eq_or_lt with rfl | hlt
  · exact .inl rfl
  · exact .inr (Nat.mul_succ A a ▸ Nat.mul_le_mul_left A hlt)

theorem isLeast_aligned (ho : o < A) : IsLeast {a | x ≤ a ∧ a ∈ Aligned A o}
      (if A * (x / A) + o < x then A * (x / A) + o + A else A * (x / A) + o) := by
  have hx := div_add_mod x A
  have hlt := mod_lt x (zero_lt_of_lt ho)
  have hrest : ∀ a ∈ {a | x ≤ a ∧ a ∈ Aligned A o}, A * (x / A) + o ≤ a ∧
      (A * (x / A) + o < x → A * (x / A) + o + A ≤ a) := by
    rintro a ⟨hle, ha⟩
    have hblock := eq_or_add_le_mul (A := A) (Nat.div_le_div_right (c := A) hle)
    rw [mem_aligned ho] at ha
    omega
  split
  next hbelow =>
    refine ⟨⟨by omega, ?_⟩, fun a ha => (hrest a ha).2 hbelow⟩
    have := add_mem_aligned (A := A) (o := o) (x / A + 1)
    rwa [Nat.mul_succ, Nat.add_right_comm] at this
  next hbelow =>
    exact ⟨⟨Nat.le_of_not_lt hbelow, add_mem_aligned _⟩, fun a ha => (hrest a ha).1⟩

theorem isGreatest_aligned (ho : o < A) (hx : o ≤ x) : IsGreatest {a | a ≤ x ∧ a ∈ Aligned A o}
      (if x < A * (x / A) + o then A * (x / A) + o - A else A * (x / A) + o) := by
  have hdiv := div_add_mod x A
  have hrest : ∀ a ∈ {a | a ≤ x ∧ a ∈ Aligned A o}, a ≤ A * (x / A) + o ∧
      (x < A * (x / A) + o → a + A ≤ A * (x / A) + o) := by
    rintro a ⟨hle, ha⟩
    have hblock := eq_or_add_le_mul (A := A) (Nat.div_le_div_right (c := A) hle)
    rw [mem_aligned ho] at ha
    omega
  split
  next habove =>
    obtain ⟨q, hq⟩ : ∃ q, x / A = q + 1 := exists_eq_add_one.mpr (Nat.pos_of_ne_zero fun h => by
      rw [h, Nat.mul_zero, Nat.zero_add] at habove
      omega)
    have hmem := add_mem_aligned (A := A) (o := o) q
    rw [hq, Nat.mul_succ] at hdiv habove hrest ⊢
    rw [Nat.add_right_comm, Nat.add_sub_cancel] at *
    exact ⟨⟨by omega, hmem⟩, fun a ha => by have := (hrest a ha).2 habove; omega⟩
  next habove =>
    exact ⟨⟨Nat.le_of_not_lt habove, add_mem_aligned _⟩, fun a ha => (hrest a ha).1⟩

end Aligned

section Specs

variable {pageShift : Fin 64} {addr align offset : Vaddr}

structure AlignArgs (pageShift : Fin 64) (align offset : Vaddr) : Prop where
  align : align = 0 ∧ offset = 0 ∨ (∃ j, align.toNat = 2 ^ j) ∧ offset < align
  offset : offset.toNat % 2 ^ pageShift.val = 0

def blockSize (pageShift : Fin 64) (align : Vaddr) : Nat := max align.toNat (2 ^ pageShift.val)

theorem toNat_pageSize : (PAGE_SIZE pageShift).toNat = 2 ^ pageShift.val := by
  have hlt : 2 ^ pageShift.val < 2 ^ 64 := Nat.pow_lt_pow_right (by decide) pageShift.isLt
  rw [PAGE_SIZE, BitVec.toNat_shiftLeft, Nat.shiftLeft_eq]
  exact (congrArg (· % 2 ^ 64) (Nat.one_mul _)).trans (Nat.mod_eq_of_lt hlt)

theorem toNat_max : (MAX align (PAGE_SIZE pageShift)).toNat = blockSize pageShift align := by
  rw [MAX, blockSize, ← toNat_pageSize]
  split
  next h => exact (Nat.max_eq_left (Nat.le_of_lt h)).symm
  next h => exact (Nat.max_eq_right (Nat.le_of_not_lt h)).symm

section

variable (h : AlignArgs pageShift align offset)

include h

theorem alignOk_eq : alignOk pageShift align offset = some () := by
  have hpage : offset &&& PAGE_MASK pageShift = 0 := by
    refine eq_of_toNat_eq ?_
    rw [PAGE_MASK, toNat_and_sub_one toNat_pageSize, toNat_pageSize, h.offset]
    rfl
  rw [alignOk, kassert_true hpage]
  rcases h.align with ⟨rfl, rfl⟩ | ⟨⟨j, hj⟩, hlt⟩
  · rfl
  · have hpow : align &&& (align - 1#64) = 0 := by
      refine eq_of_toNat_eq ?_
      rw [toNat_and_sub_one hj, mod_self]
      rfl
    rw [kassert_true hpow, kassert_true (.inl hlt)]
    rfl

theorem exists_pow : ∃ j < 64, (MAX align (PAGE_SIZE pageShift)).toNat = 2 ^ j := by
  rw [MAX]
  split
  next hgt =>
    rcases h.align with ⟨rfl, -⟩ | ⟨⟨j, hj⟩, -⟩
    · exact absurd hgt (Nat.not_lt_zero _)
    · exact ⟨j, (Nat.pow_lt_pow_iff_right (by decide)).mp (hj ▸ align.isLt), hj⟩
  next => exact ⟨pageShift.val, pageShift.isLt, toNat_pageSize⟩

theorem offset_lt : offset.toNat < blockSize pageShift align := by
  rcases h.align with ⟨-, rfl⟩ | ⟨-, hlt⟩
  · exact Nat.lt_of_lt_of_le (Nat.two_pow_pos _) (Nat.le_max_right _ _)
  · exact Nat.lt_of_lt_of_le hlt (Nat.le_max_left _ _)

theorem block_end (addr : Vaddr) : blockSize pageShift align * 2 ≤ 2 ^ 64 ∧
      blockSize pageShift align * (addr.toNat / blockSize pageShift align) +
        blockSize pageShift align ≤ 2 ^ 64 := by
  obtain ⟨j, hj, hpow⟩ := exists_pow h
  rw [toNat_max] at hpow
  obtain ⟨n, hn⟩ : 2 ^ (j + 1) ∣ 2 ^ 64 := Nat.pow_dvd_pow 2 hj
  have hsplit : 2 ^ 64 = 2 ^ j * (2 * n) := by rw [hn, Nat.pow_succ, Nat.mul_assoc]
  have hlt : addr.toNat / 2 ^ j < 2 * n := by
    rw [Nat.div_lt_iff_lt_mul (Nat.two_pow_pos j), Nat.mul_comm, ← hsplit]
    exact addr.isLt
  have hpos : n ≠ 0 := fun hz => by rw [hz, Nat.mul_zero] at hn; cases hn
  rw [hpow, hsplit, ← Nat.mul_succ]
  exact ⟨Nat.mul_le_mul_left _ (by omega), Nat.mul_le_mul_left _ hlt⟩

theorem toNat_adjusted (addr : Vaddr) :
    ((addr &&& ~~~(MAX align (PAGE_SIZE pageShift) - 1#64)) + offset).toNat =
      blockSize pageShift align * (addr.toNat / blockSize pageShift align) + offset.toNat := by
  obtain ⟨j, -, hpow⟩ := exists_pow h
  have hend := (block_end h addr).2
  have hdiv := div_add_mod addr.toNat (blockSize pageShift align)
  have hlt := offset_lt h
  rw [toNat_add, not_sub_one, toNat_and_neg hpow, toNat_max, mod_eq_of_lt (by omega)]
  omega

theorem uvmAddrAlignForward_spec (addr : Vaddr) :
    ∃ r v, uvmAddrAlignForward pageShift addr align offset = some r ∧
      IsLeast {a | addr.toNat ≤ a ∧ a ∈ Aligned (blockSize pageShift align) offset.toNat} v ∧
      (r.toNat = v ∨ 2 ^ 64 ≤ v ∧ r < addr) := by
  have hend := (block_end h addr).2
  have hlt := offset_lt h
  have hadj := toNat_adjusted h addr
  refine ⟨_, _, by rw [uvmAddrAlignForward, alignOk_eq h]; rfl, isLeast_aligned hlt, ?_⟩
  generalize (addr &&& _) + offset = adjusted at hadj ⊢
  by_cases hbelow : adjusted < addr
  · have hbelow' := hbelow
    rw [lt_def, hadj] at hbelow'
    rw [if_pos hbelow, if_pos hbelow', lt_def, toNat_add, hadj, toNat_max]
    omega
  · rw [if_neg hbelow, if_neg (by rwa [lt_def, hadj] at hbelow)]
    exact .inl hadj

theorem uvmAddrAlignBackward_spec (addr : Vaddr) :
    ∃ r, uvmAddrAlignBackward pageShift addr align offset = some r ∧
      (IsGreatest {a | a ≤ addr.toNat ∧ a ∈ Aligned (blockSize pageShift align) offset.toNat}
          r.toNat ∨
        r > addr ∧ ∀ a ≤ addr.toNat, a ∉ Aligned (blockSize pageShift align) offset.toNat) := by
  obtain ⟨htwo, -⟩ := block_end h addr
  have hlt := offset_lt h
  have hadj := toNat_adjusted h addr
  refine ⟨_, by rw [uvmAddrAlignBackward, alignOk_eq h]; rfl, ?_⟩
  generalize (addr &&& _) + offset = adjusted at hadj ⊢
  rcases Nat.lt_or_ge addr.toNat offset.toNat with hnone | hx
  · refine .inr ⟨?_, fun a ha hmem => ?_⟩
    · rw [div_eq_of_lt (by omega), Nat.mul_zero, Nat.zero_add] at hadj
      rw [if_pos (by rwa [gt_iff_lt, lt_def, hadj]), gt_iff_lt, lt_def, toNat_sub, hadj, toNat_max]
      omega
    · rw [mem_aligned hlt] at hmem
      omega
  · have hgreatest := isGreatest_aligned hlt hx
    refine .inl ?_
    by_cases habove : adjusted > addr
    · have habove' := habove
      rw [gt_iff_lt, lt_def, hadj] at habove'
      have hle : blockSize pageShift align ≤ adjusted.toNat := by
        rw [hadj]
        rcases Nat.eq_zero_or_pos (addr.toNat / blockSize pageShift align) with hz | hz
        · rw [hz] at habove'
          omega
        · exact le_add_right_of_le (Nat.le_mul_of_pos_right _ hz)
      rw [if_pos habove'] at hgreatest
      rwa [if_pos habove, toNat_sub_of_le (le_def.mpr (by rwa [toNat_max])), hadj, toNat_max]
    · rw [if_neg (by rwa [gt_iff_lt, lt_def, hadj] at habove)] at hgreatest
      rwa [if_neg habove, hadj]

end

def Fits (pageShift : Fin 64) (align offset lowAddr highAddr sz beforeGap afterGap : Vaddr) :
    Set Nat :=
  {a | a ≡ offset.toNat [MOD blockSize pageShift align] ∧
    lowAddr.toNat + beforeGap.toNat ≤ a ∧ a + sz.toNat + afterGap.toNat ≤ highAddr.toNat}

variable {lowAddr highAddr sz beforeGap afterGap : Vaddr}

theorem uvm_addr_fitspace_exact (h : AlignArgs pageShift align offset)
    (hgap : beforeGap.toNat + afterGap.toNat < 2 ^ 64) : (∃ minResult maxResult,
      uvmAddrFitspace pageShift align offset lowAddr highAddr sz beforeGap afterGap =
        some (.ok (minResult, maxResult)) ∧
      IsLeast (Fits pageShift align offset lowAddr highAddr sz beforeGap afterGap) minResult.toNat ∧
      IsGreatest (Fits pageShift align offset lowAddr highAddr sz beforeGap afterGap)
        maxResult.toNat) ∨
    uvmAddrFitspace pageShift align offset lowAddr highAddr sz beforeGap afterGap =
        some (.error .ENOMEM) ∧
      Fits pageShift align offset lowAddr highAddr sz beforeGap afterGap = ∅ := by
  have hsum : (beforeGap + afterGap).toNat = beforeGap.toNat + afterGap.toNat := by
    rw [toNat_add, mod_eq_of_lt hgap]
  unfold uvmAddrFitspace
  by_cases hle : lowAddr > highAddr
  · refine .inr ⟨if_pos hle, Set.eq_empty_of_forall_notMem fun a ⟨_, hlo, hhi⟩ => ?_⟩
    rw [gt_iff_lt, lt_def] at hle
    omega
  have hspace : (highAddr - lowAddr).toNat = highAddr.toNat - lowAddr.toNat :=
    toNat_sub_of_le (Nat.le_of_not_lt hle)
  rw [if_neg hle]
  rw [gt_iff_lt, lt_def] at hle
  by_cases hgaps : highAddr - lowAddr < beforeGap + afterGap
  · refine .inr ⟨if_pos hgaps, Set.eq_empty_of_forall_notMem fun a ⟨_, hlo, hhi⟩ => ?_⟩
    rw [lt_def, hspace, hsum] at hgaps
    omega
  rw [if_neg hgaps]
  rw [lt_def, hspace, hsum] at hgaps
  have hroom : (highAddr - lowAddr - beforeGap - afterGap).toNat =
      highAddr.toNat - lowAddr.toNat - beforeGap.toNat - afterGap.toNat := by
    have hb : (highAddr - lowAddr - beforeGap).toNat =
        highAddr.toNat - lowAddr.toNat - beforeGap.toNat := by
      rw [toNat_sub_of_le (le_def.mpr (by omega)), hspace]
    rw [toNat_sub_of_le (le_def.mpr (by omega)), hb]
  by_cases hsz : highAddr - lowAddr - beforeGap - afterGap < sz
  · refine .inr ⟨if_pos hsz, Set.eq_empty_of_forall_notMem fun a ⟨_, hlo, hhi⟩ => ?_⟩
    rw [lt_def, hroom] at hsz
    omega
  rw [if_neg hsz]
  rw [lt_def, hroom] at hsz
  have hlow : (lowAddr + beforeGap).toNat = lowAddr.toNat + beforeGap.toNat := by
    rw [toNat_add, mod_eq_of_lt (by omega)]
  have hrest : (highAddr - afterGap - sz).toNat =
      highAddr.toNat - afterGap.toNat - sz.toNat := by
    have ha : (highAddr - afterGap).toNat = highAddr.toNat - afterGap.toNat :=
      toNat_sub_of_le (le_def.mpr (by omega))
    rw [toNat_sub_of_le (le_def.mpr (by omega)), ha]
  have htop : (highAddr - (afterGap + sz)).toNat =
      highAddr.toNat - afterGap.toNat - sz.toNat := by
    rw [← BitVec.sub_sub, hrest]
  obtain ⟨r, v, hr, hleast, hv⟩ := uvmAddrAlignForward_spec h (lowAddr + beforeGap)
  rw [hlow] at hleast
  dsimp only
  rw [hr]
  simp only [bind_eq_bind, bind_some]
  -- No address below `v` is aligned and behind the front gap.
  have hbelow : ∀ a ∈ Fits pageShift align offset lowAddr highAddr sz beforeGap afterGap, v ≤ a :=
    fun a ⟨ha, hlo, _⟩ => hleast.2 ⟨hlo, ha⟩
  by_cases hwrap : r < lowAddr + beforeGap
  · refine .inr ⟨if_pos hwrap, Set.eq_empty_of_forall_notMem fun a ha => ?_⟩
    have := hbelow a ha
    have := ha.2.2
    have := hleast.1.1
    rw [lt_def, hlow] at hwrap
    omega
  rw [if_neg hwrap]
  obtain rfl : r.toNat = v := hv.resolve_right fun hv => hwrap hv.2
  by_cases hlate : highAddr - afterGap - sz < r
  · refine .inr ⟨if_pos hlate, Set.eq_empty_of_forall_notMem fun a ha => ?_⟩
    have := hbelow a ha
    have := ha.2.2
    rw [lt_def, hrest] at hlate
    omega
  rw [if_neg hlate]
  rw [lt_def, hrest] at hlate
  obtain ⟨s, hs, hback⟩ := uvmAddrAlignBackward_spec h (highAddr - (afterGap + sz))
  rw [hs]
  simp only [bind_some]
  rw [htop] at hback
  rcases hback with hgreatest | ⟨habove, hnone⟩
  · have hsle : ¬s > highAddr - (afterGap + sz) := by
      rw [gt_iff_lt, lt_def, htop]
      exact Nat.not_lt.mpr hgreatest.1.1
    have hrs : r.toNat ≤ s.toNat := hgreatest.2 ⟨Nat.le_of_not_lt hlate, hleast.1.2⟩
    have hrs' : ¬r > s := by
      rw [gt_iff_lt, lt_def]
      exact Nat.not_lt.mpr hrs
    have hends := hgreatest.1.1
    rw [if_neg hsle, if_neg hrs']
    refine .inl ⟨r, s, rfl, ⟨⟨hleast.1.2, hleast.1.1, by omega⟩, hbelow⟩,
      ⟨hgreatest.1.2, Nat.le_trans hleast.1.1 hrs, by omega⟩, fun a ⟨ha, _, hhi⟩ =>
        hgreatest.2 ⟨by omega, ha⟩⟩
  · exact absurd hleast.1.2 (hnone _ (Nat.le_of_not_lt hlate))

theorem uvm_addr_fitspace_exact_page : (∃ minResult maxResult,
      uvmAddrFitspace 12 0x4000 0x1000 0x10800 0x30000 0x2000 0x1000 0 =
        some (.ok (minResult, maxResult)) ∧
      IsLeast (Fits 12 0x4000 0x1000 0x10800 0x30000 0x2000 0x1000 0) minResult.toNat ∧
      IsGreatest (Fits 12 0x4000 0x1000 0x10800 0x30000 0x2000 0x1000 0) maxResult.toNat) ∨
    uvmAddrFitspace 12 0x4000 0x1000 0x10800 0x30000 0x2000 0x1000 0 = some (.error .ENOMEM) ∧
      Fits 12 0x4000 0x1000 0x10800 0x30000 0x2000 0x1000 0 = ∅ :=
  uvm_addr_fitspace_exact ⟨.inr ⟨⟨14, rfl⟩, by decide⟩, by decide⟩ (by decide)

example : uvmAddrFitspace 12 0x4000 0x1000 0x10800 0x30000 0x2000 0x1000 0 =
    some (.ok (0x15000, 0x2d000)) := by decide

end Specs

end Mbsd.Uvm.UvmAddr
