import Mathlib.Data.BitVec
import Mbsd.Lib.RingShuffle

/-! Random IP identifiers: `ip_randomid`. -/

namespace Mbsd.Netinet.IpId

open Lib.RingShuffle List Option BitVec Nat Function

structure IpShuffle where
  ipShuffle : BitVec 16 → BitVec 16
  isindex : BitVec 32
  ipidInitialized : Bool

def bss : IpShuffle := ⟨fun _ => 0, 0, false⟩

/-- The first turns of the loop that initializes; `arc4randomUniform i` is below `i + 1`. -/
def initShuffle (arc4randomUniform : (i : Nat) → Fin (i + 1)) (ipShuffle : BitVec 16 → BitVec 16) :
    Nat → BitVec 16 → BitVec 16
  | 0 => ipShuffle
  | i + 1 =>
    let ipShuffle := initShuffle arc4randomUniform ipShuffle i
    let i2 := BitVec.ofNat 16 (arc4randomUniform i)
    let ipShuffle := Function.update ipShuffle (BitVec.ofNat 16 i) (ipShuffle i2)
    Function.update ipShuffle i2 (BitVec.ofNat 16 i)

/-- The loop of `ip_randomid`, with what `arc4random_buf` gives in each turn.  `none` is a loop
that goes on. -/
def randomidLoop : List (BitVec 16) → IpShuffle → Option (BitVec 16 × IpShuffle)
  | [], _ => none
  | si :: buf, st =>
    let i := (st.isindex &&& 0xFFFF).setWidth 16
    let i2 := ((st.isindex - (si &&& 0x7FFF).setWidth 32) &&& 0xFFFF).setWidth 16
    let r := st.ipShuffle i
    let st := { st with ipShuffle := exchange st.ipShuffle i i2, isindex := st.isindex + 1 }
    if r = 0 then randomidLoop buf st else some (r, st)

def ipRandomid (arc4randomUniform : (i : Nat) → Fin (i + 1)) (buf : List (BitVec 16))
    (st : IpShuffle) : Option (BitVec 16 × IpShuffle) :=
  randomidLoop buf
    (if !st.ipidInitialized then
      { st with
        ipShuffle := initShuffle arc4randomUniform st.ipShuffle 65536
        ipidInitialized := true }
    else st)

/-- Identifiers that calls return, the last one first, and the variables after these calls. -/
inductive IdRun : List (BitVec 16) → IpShuffle → Prop
  | boot : IdRun [] bss
  | call {ids : List (BitVec 16)} {st st' : IpShuffle} {r : BitVec 16}
      {arc4randomUniform : (i : Nat) → Fin (i + 1)} {buf : List (BitVec 16)} :
      IdRun ids st → ipRandomid arc4randomUniform buf st = some (r, st') → IdRun (r :: ids) st'

section Init

variable {arc4randomUniform : (i : Nat) → Fin (i + 1)} {ipShuffle : BitVec 16 → BitVec 16}

theorem ofNat_inj {k l : Nat} (hk : k < 65536) (hl : l < 65536)
    (h : BitVec.ofNat 16 k = BitVec.ofNat 16 l) : k = l := by
  have heq := congrArg BitVec.toNat h
  rw [toNat_ofNat, toNat_ofNat] at heq
  omega

theorem initShuffle_spread {n : Nat} (hn : n ≤ 65536) :
    Spread (BitVec.ofNat 16) (BitVec.ofNat 16) (initShuffle arc4randomUniform ipShuffle n) n := by
  induction n with
  | zero => exact spread_zero
  | succ n ih =>
    have hinj : ∀ k ≤ n, ∀ l ≤ n, BitVec.ofNat 16 k = BitVec.ofNat 16 l → k = l :=
      fun k hk l hl => ofNat_inj (by omega) (by omega)
    exact (ih (by omega)).step hinj hinj (Nat.lt_succ_iff.mp (arc4randomUniform n).isLt)

theorem initShuffle_bijective : Bijective (initShuffle arc4randomUniform ipShuffle 65536) := by
  have : Finite (BitVec 16) := Finite.of_injective _ toFin_injective
  refine Finite.injective_iff_bijective.mp fun x y h => ?_
  rw [← setWidth_eq x, ← setWidth_eq y, ← ofNat_toNat, ← ofNat_toNat] at h
  exact eq_of_toNat_eq ((initShuffle_spread le_rfl).inj _ x.isLt _ y.isLt h)

end Init

def cell (t : Int) : BitVec 16 := BitVec.ofInt 16 t

variable {a a' : BitVec 16 → BitVec 16} {t t' : Int} {r x : BitVec 16} {st st' : IpShuffle}
  {buf ids : List (BitVec 16)} {j : Nat}

theorem rounds_cell : Rounds cell 65536 := by
  intro u v
  rw [cell, cell, ← toNat_inj, toNat_ofInt, toNat_ofInt]
  omega

theorem setWidth_and (x : BitVec 32) : (x &&& 0xFFFF).setWidth 16 = x.setWidth 16 := by
  apply eq_of_toNat_eq
  have hmask := and_two_pow_sub_one_eq_mod x.toNat 16
  rw [toNat_setWidth, toNat_setWidth, toNat_and]
  exact (congrArg (· % 2 ^ 16) hmask).trans (mod_mod _ _)

def Turn (t : Int) (a a' : BitVec 16 → BitVec 16) : Prop :=
  ∃ s : Int, 0 ≤ s ∧ s ≤ 32767 ∧ a' = exchange a (cell t) (cell (t - s))

theorem randomidLoop_cons (hi : st.isindex = BitVec.ofInt 32 t) (si : BitVec 16) :
    ∃ a', Turn t st.ipShuffle a' ∧ ∀ buf, randomidLoop (si :: buf) st =
        if st.ipShuffle (cell t) = 0 then
          randomidLoop buf { st with ipShuffle := a', isindex := BitVec.ofInt 32 (t + 1) }
        else some (st.ipShuffle (cell t),
          { st with ipShuffle := a', isindex := BitVec.ofInt 32 (t + 1) }) := by
  have hs : (si &&& 0x7FFF).toNat ≤ 32767 := by
    rw [toNat_and]
    exact and_le_right
  have hcell : (BitVec.ofInt 32 t &&& 0xFFFF).setWidth 16 = cell t := by
    rw [setWidth_and, cell, ← toNat_inj, toNat_setWidth, toNat_ofInt, toNat_ofInt]
    omega
  have hback : ((BitVec.ofInt 32 t - (si &&& 0x7FFF).setWidth 32) &&& 0xFFFF).setWidth 16 =
      cell (t - (si &&& 0x7FFF).toNat) := by
    rw [setWidth_and, cell, ← toNat_inj, toNat_setWidth, toNat_sub,
      toNat_setWidth, toNat_ofInt, toNat_ofInt]
    generalize (si &&& 0x7FFF).toNat = s at hs
    omega
  have hnext : BitVec.ofInt 32 t + 1 = BitVec.ofInt 32 (t + 1) := by
    rw [← toNat_inj, toNat_add, toNat_ofInt, toNat_ofInt]
    have hone : (1 : BitVec 32).toNat = 1 := rfl
    omega
  refine ⟨_, ⟨(si &&& 0x7FFF).toNat, by omega, by omega, rfl⟩, fun buf => ?_⟩
  rw [randomidLoop, hi, hcell, hback, hnext]

theorem Turn.bijective (h : Turn t a a') (ha : Bijective a) : Bijective a' := by
  obtain ⟨s, -, -, rfl⟩ := h
  exact exchange_bijective ha _ _

theorem Turn.away (h : Turn t a a') {stop : Int} (hx : Away cell a t stop x)
    (hstop : stop ≤ t + 32769) : Away cell a' (t + 1) stop x := by
  obtain ⟨s, hs, hs', rfl⟩ := h
  exact hx.exchange rounds_cell hs (by omega)

theorem Turn.read (h : Turn t a a') (ha : Bijective a) :
    Away cell a' (t + 1) (t + 32769) (a (cell t)) := by
  obtain ⟨s, hs, hs', rfl⟩ := h
  exact (away_of_read ha.injective rounds_cell hs).mono le_rfl (by omega)

/-- A call that begins with turn `t` and reads `r`.  It has a second turn if it reads zero in the
first one. -/
inductive Called (a : BitVec 16 → BitVec 16) (t : Int) (r : BitVec 16)
    (a' : BitVec 16 → BitVec 16) (t' : Int) : Prop
  | once : Turn t a a' → a (cell t) = r → t' = t + 1 → Called a t r a' t'
  | twice {a₁ : BitVec 16 → BitVec 16} : Turn t a a₁ → a (cell t) = 0 → Turn (t + 1) a₁ a' →
    a₁ (cell (t + 1)) = r → t' = t + 2 → Called a t r a' t'

theorem randomidLoop_cons_cons (ha : Bijective st.ipShuffle)
    (hi : st.isindex = BitVec.ofInt 32 t) (si si' : BitVec 16) :
    ∃ r a' t', r ≠ 0 ∧ Called st.ipShuffle t r a' t' ∧ ∀ buf, randomidLoop (si :: si' :: buf) st =
        some (r, { st with ipShuffle := a', isindex := BitVec.ofInt 32 t' }) := by
  obtain ⟨a₁, hturn, hloop⟩ := randomidLoop_cons hi si
  by_cases hzero : st.ipShuffle (cell t) = 0
  · have hnext : { st with ipShuffle := a₁, isindex := BitVec.ofInt 32 (t + 1) }.isindex =
        BitVec.ofInt 32 (t + 1) := rfl
    obtain ⟨a₂, hturn', hloop'⟩ := randomidLoop_cons hnext si'
    have hne : a₁ (cell (t + 1)) ≠ 0 := hzero ▸ (hturn.read ha).ne (by omega)
    refine ⟨_, a₂, t + 2, hne, .twice hturn hzero hturn' rfl rfl, fun buf => ?_⟩
    rw [hloop, if_pos hzero, hloop', if_neg hne, Int.add_assoc]
    rfl
  · refine ⟨_, a₁, t + 1, hzero, .once hturn rfl rfl, fun buf => ?_⟩
    rw [hloop, if_neg hzero]

theorem randomidLoop_called (ha : Bijective st.ipShuffle)
    (hi : st.isindex = BitVec.ofInt 32 t) (h : randomidLoop buf st = some (r, st')) :
    ∃ a' t', r ≠ 0 ∧ Called st.ipShuffle t r a' t' ∧
      st' = { st with ipShuffle := a', isindex := BitVec.ofInt 32 t' } := by
  cases buf with
  | nil => exact absurd h nofun
  | cons si buf =>
    cases buf with
    | nil =>
      obtain ⟨a₁, hturn, hloop⟩ := randomidLoop_cons hi si
      rw [hloop] at h
      split at h
      next => exact absurd h nofun
      next hzero =>
        obtain ⟨rfl, rfl⟩ := Prod.ext_iff.mp (some.inj h)
        exact ⟨a₁, t + 1, hzero, .once hturn rfl rfl, rfl⟩
    | cons si' buf =>
      obtain ⟨r', a', t', hne, hcalled, hloop⟩ := randomidLoop_cons_cons ha hi si si'
      obtain ⟨rfl, rfl⟩ := Prod.ext_iff.mp (some.inj ((hloop buf).symm.trans h))
      exact ⟨a', t', hne, hcalled, rfl⟩

theorem Called.bijective (h : Called a t r a' t') (ha : Bijective a) : Bijective a' := by
  cases h with
  | once hturn => exact hturn.bijective ha
  | twice hturn _ hturn' => exact hturn'.bijective (hturn.bijective ha)

/-- `x` was read in turn `s`, and there were `j` calls since.  They had a turn each, and at most
one of them, which read the zero, had another one. -/
def Recent (a : BitVec 16 → BitVec 16) (t : Int) (j : Nat) (x : BitVec 16) : Prop :=
  ∃ s : Int, Away cell a t (s + 32769) x ∧
    (t = s + 1 + j ∨ t = s + 2 + j ∧ Away cell a t (s + 32770) 0)

theorem Called.recent (h : Called a t r a' t') (ha : Bijective a) : Recent a' t' 0 r := by
  cases h with
  | once hturn hr ht =>
    subst hr ht
    exact ⟨t, hturn.read ha, .inl (by omega)⟩
  | twice hturn hzero hturn' hr ht =>
    subst hr ht
    refine ⟨t + 1, ?_, .inl (by omega)⟩
    have hread := hturn'.read (hturn.bijective ha)
    rwa [Int.add_assoc t 1 1] at hread

theorem Recent.called (h : Recent a t j x) (hj : j < 32767) (ha : Bijective a)
    (hcalled : Called a t r a' t') : r ≠ x ∧ Recent a' t' (j + 1) x := by
  obtain ⟨s, hx, ht⟩ := h
  cases hcalled with
  | once hturn hr ht' =>
    subst hr ht'
    refine ⟨hx.ne (by omega), s, hturn.away hx (by omega), ?_⟩
    rcases ht with ht | ⟨ht, hz⟩
    · exact .inl (by omega)
    · exact .inr ⟨by omega, hturn.away hz (by omega)⟩
  | @twice a₁ hturn hzero hturn' hr ht' =>
    subst hr ht'
    rcases ht with ht | ⟨ht, hz⟩
    · have hx₁ := hturn.away hx (by omega)
      have hz₁ : Away cell a₁ (t + 1) (t + 32769) 0 := hzero ▸ hturn.read ha
      have hx₂ := hturn'.away hx₁ (by omega)
      have hz₂ := hturn'.away hz₁ (by omega)
      rw [Int.add_assoc t 1 1] at hx₂ hz₂
      exact ⟨hx₁.ne (by omega), s, hx₂, .inr ⟨by omega, hz₂.mono le_rfl (by omega)⟩⟩
    · exact absurd hzero (hz.ne (by omega))

structure Shuffled (ids : List (BitVec 16)) (st : IpShuffle) (t : Int) : Prop where
  initialized : st.ipidInitialized = true
  bijective : Function.Bijective st.ipShuffle
  isindex : st.isindex = BitVec.ofInt 32 t
  recent : ∀ j x, ids[j]? = some x → j < 32767 → Recent st.ipShuffle t j x

theorem Shuffled.called (h : Shuffled ids st t) {a' : BitVec 16 → BitVec 16}
    (hcalled : Called st.ipShuffle t r a' t') :
    Shuffled (r :: ids) { st with ipShuffle := a', isindex := BitVec.ofInt 32 t' } t' := by
  refine ⟨h.initialized, hcalled.bijective h.bijective, rfl, fun j x hx hj => ?_⟩
  cases j with
  | zero =>
    obtain rfl := some.inj hx
    exact hcalled.recent h.bijective
  | succ j =>
    rw [getElem?_cons_succ] at hx
    exact ((h.recent j x hx (by omega)).called (by omega) h.bijective hcalled).2

def entered (arc4randomUniform : (i : Nat) → Fin (i + 1)) (st : IpShuffle) : IpShuffle :=
  if !st.ipidInitialized then
    { st with
      ipShuffle := initShuffle arc4randomUniform st.ipShuffle 65536
      ipidInitialized := true }
  else st

def Between (ids : List (BitVec 16)) (st : IpShuffle) : Prop :=
  ids = [] ∧ st = bss ∨ ∃ t, Shuffled ids st t

theorem Between.entered (h : Between ids st) (arc4randomUniform : (i : Nat) → Fin (i + 1)) :
    ∃ t, Shuffled ids (entered arc4randomUniform st) t := by
  rcases h with ⟨rfl, rfl⟩ | ⟨t, h⟩
  · exact ⟨0, rfl, initShuffle_bijective, rfl, fun j x hx => absurd hx nofun⟩
  · rw [IpId.entered, h.initialized]
    exact ⟨t, h⟩

theorem IdRun.between (h : IdRun ids st) : Between ids st := by
  induction h with
  | boot => exact .inl ⟨rfl, rfl⟩
  | call _ hcall ih =>
    obtain ⟨t, h⟩ := ih.entered _
    obtain ⟨a', t', -, hcalled, rfl⟩ := randomidLoop_called h.bijective h.isindex hcall
    exact .inr ⟨t', h.called hcalled⟩

theorem IdRun.fresh (h : IdRun ids st) : (∀ r ∈ ids, r ≠ 0) ∧
      ∀ j k r, j < k → k ≤ j + 32767 → ids[j]? = some r → ids[k]? ≠ some r := by
  induction h with
  | boot => exact ⟨nofun, fun j k r _ _ hj => absurd hj nofun⟩
  | call hrun hcall ih =>
    obtain ⟨t, h⟩ := hrun.between.entered _
    obtain ⟨a', t', hne, hcalled, rfl⟩ := randomidLoop_called h.bijective h.isindex hcall
    refine ⟨forall_mem_cons.mpr ⟨hne, ih.1⟩, fun j k x hjk hk hj heq => ?_⟩
    obtain ⟨k, rfl⟩ := Nat.exists_eq_add_of_le' (Nat.lt_of_le_of_lt (Nat.zero_le j) hjk)
    rw [getElem?_cons_succ] at heq
    cases j with
    | zero =>
      obtain rfl := some.inj hj
      exact ((h.recent k _ heq (by omega)).called (by omega) h.bijective hcalled).1 rfl
    | succ j => exact ih.2 j k x (by omega) (by omega) hj heq

/-- In every run `ip_shuffle` stays a permutation once it is initialized, identifiers are not zero
and not reused by the next 32767 calls, and a call reads at most two cells. -/
theorem ip_randomid_not_reused : ∀ {ids : List (BitVec 16)} {st : IpShuffle}, IdRun ids st →
      (ids ≠ [] → Function.Bijective st.ipShuffle) ∧ (∀ r ∈ ids, r ≠ 0) ∧
      (∀ j k r, j < k → k ≤ j + 32767 → ids[j]? = some r → ids[k]? ≠ some r) ∧
      ∀ arc4randomUniform si si', ∃ r st', ipRandomid arc4randomUniform [si, si'] st =
        some (r, st') := by
  intro ids st hrun
  refine ⟨fun hne => ?_, hrun.fresh.1, hrun.fresh.2, fun arc4randomUniform si si' => ?_⟩
  · rcases hrun.between with ⟨hnil, -⟩ | ⟨t, h⟩
    · exact absurd hnil hne
    · exact h.bijective
  · obtain ⟨t, h⟩ := hrun.between.entered arc4randomUniform
    obtain ⟨r, a', t', -, -, hloop⟩ := randomidLoop_cons_cons h.bijective h.isindex si si'
    exact ⟨r, _, hloop []⟩

/-- Two calls right after the start. -/
theorem ip_randomid_first_two : ∃ r r' st, IdRun [r', r] st ∧ r ≠ 0 ∧ r' ≠ 0 ∧ r' ≠ r ∧
    Function.Bijective st.ipShuffle := by
  obtain ⟨r, st, hcall⟩ := (ip_randomid_not_reused .boot).2.2.2 Fin.last 5 6
  have hrun : IdRun [r] st := .call .boot hcall
  obtain ⟨r', st', hcall'⟩ := (ip_randomid_not_reused hrun).2.2.2 Fin.last 7 8
  have hrun' : IdRun [r', r] st' := hrun.call hcall'
  obtain ⟨hbij, hzero, hfresh, -⟩ := ip_randomid_not_reused hrun'
  refine ⟨r, r', st', hrun', hzero r (by simp), hzero r' (by simp), fun heq => ?_,
    hbij (cons_ne_nil _ _)⟩
  exact hfresh 0 1 r' (by omega) (by omega) rfl (congrArg some heq.symm)

end Mbsd.Netinet.IpId
