import Mbsd.Net.PfLb.Host

/-! Runs of `pf_map_addr` on a pool that is one prefix. -/

namespace Mbsd.Net.PfLb

open Lib.Prefix Pf List Option Nat

structure PrefixPool (o : ByteOrder) (af : PoolAf) extends PfPool where
  hostBits : Nat
  hostBits_le : hostBits ≤ af.bits
  rmask_eq : host o af rmask = mask af.bits hostBits

/-- What the caller of `pf_map_addr` has in its variables, and what the random source gives. -/
structure Call where
  saddr : PfAddr
  naddr : PfAddr
  initAddr : Option PfAddr
  rand : Random

variable {o : ByteOrder} {af : PoolAf} {p : PrefixPool o af} {hash : PfAddr → PfAddr}
  {c : Call} {cs : List Call} {counter : PfAddr} {s s' : MapAddr} {a : BitVec af.bits}

namespace PrefixPool

def addr (p : PrefixPool o af) : BitVec af.bits := host o af p.raddr

def Member (p : PrefixPool o af) (a : BitVec af.bits) : Prop := Same p.hostBits a p.addr

def position (p : PrefixPool o af) (counter : PfAddr) : BitVec af.bits :=
  place p.hostBits p.addr (host o af counter)

theorem member_position (counter : PfAddr) : p.Member (p.position counter) := same_place _ _ _

theorem host_pfPoolmask {naddr x : PfAddr} :
    host o af (pfPoolmask naddr p.raddr p.rmask x af) = p.position x :=
  PfLb.host_pfPoolmask p.rmask_eq

theorem pfMatchAddr_iff :
    pfMatchAddr p.raddr p.rmask counter af.af = true ↔ p.Member (host o af counter) :=
  (PfLb.pfMatchAddr_iff p.rmask_eq).trans eq_comm

end PrefixPool

section Calls

variable (p hash)

def mapCall (c : Call) (counter : PfAddr) : Except MapAddr MapAddr :=
  pfMapAddr o af p.toPfPool hash c.saddr c.rand ⟨c.naddr, c.initAddr, counter⟩

def outcome (o : ByteOrder) (af : PoolAf) : Except MapAddr MapAddr → Option (BitVec af.bits)
  | .ok s => some (host o af s.naddr)
  | .error _ => none

def state : Except MapAddr MapAddr → MapAddr
  | .ok s => s
  | .error s => s

def returned : List Call → PfAddr → List (Option (BitVec af.bits))
  | [], _ => []
  | c :: cs, counter =>
    outcome o af (mapCall p hash c counter) ::
      returned cs (state (mapCall p hash c counter)).counter

/-- The state before the call is one in which the pool does what it is there for: the counter of
round-robin has not run into the prefix.  A pool of the type least-states hands out its counter, and
so it does well only if it fails. -/
def Clear (counter : PfAddr) : Prop :=
  match p.type with
  | .roundrobin =>
    pfAzero counter af.af = true ∨ pfMatchAddr p.raddr p.rmask counter af.af = false
  | .leaststates =>
    pfMatchAddr p.raddr p.rmask counter af.af = true ∨
      pfMatchAddr p.raddr p.rmask (pfAddrInc o counter af) af.af = true ∨
      pfMatchAddr counter p.rmask (pfAddrInc o counter af) af.af = false ∧ 0 < p.states
  | _ => True

def AllClear : List Call → PfAddr → Prop
  | [], _ => True
  | c :: cs, counter =>
    Clear p counter ∧ AllClear cs (state (mapCall p hash c counter)).counter

end Calls

section Roundrobin

@[simp] theorem setInitAddr_naddr (addr : PfAddr) : (s.setInitAddr af addr).naddr = s.naddr := rfl

@[simp] theorem setInitAddr_counter (addr : PfAddr) :
    (s.setInitAddr af addr).counter = s.counter := rfl

theorem clear_roundrobin (ht : p.type = .roundrobin) : Clear p counter ↔
      pfAzero counter af.af = true ∨ pfMatchAddr p.raddr p.rmask counter af.af = false := by
  rw [Clear, ht]

theorem mapCall_roundrobin (hash : PfAddr → PfAddr) (ht : p.type = .roundrobin)
    (hclear : Clear p counter) (c : Call) :
    ∃ s', mapCall p hash c counter = .ok s' ∧ host o af s'.naddr = p.position counter ∧
      (p.hostBits ≠ 0 → host o af s'.counter = host o af counter + 1) := by
  have hstep (s : MapAddr) (hs : s.counter = counter) :
      host o af (mapRoundrobin o af p.toPfPool s).naddr = p.position counter ∧
        host o af (mapRoundrobin o af p.toPfPool s).counter = host o af counter + 1 :=
    ⟨by rw [← hs]; exact p.host_pfPoolmask, by rw [← hs]; exact host_pfAddrInc⟩
  rw [clear_roundrobin ht] at hclear
  simp only [mapCall, pfMapAddr, ht]
  split
  next hzero =>
    split
    next hhost =>
      have hk : p.hostBits = 0 := (isHostMask_iff p.rmask_eq).mp hhost
      refine ⟨_, rfl, ?_, fun hno => absurd hk hno⟩
      rw [host_pfAddrcpy, PrefixPool.position, hk, place_zero, PrefixPool.addr]
    next => exact ⟨_, rfl, (hstep _ rfl).1, fun _ => (hstep _ rfl).2⟩
  next hzero =>
    have hno := hclear.resolve_left hzero
    rw [hno, if_neg Bool.false_ne_true]
    exact ⟨_, rfl, (hstep _ rfl).1, fun _ => (hstep _ rfl).2⟩

theorem mapCall_roundrobin_error (ht : p.type = .roundrobin) (hclear : ¬Clear p counter)
    (c : Call) : outcome o af (mapCall p hash c counter) = none := by
  rw [clear_roundrobin ht, not_or, Bool.not_eq_false] at hclear
  simp only [mapCall, pfMapAddr, ht]
  rw [if_neg hclear.1, if_pos hclear.2]
  rfl

theorem returned_roundrobin (ht : p.type = .roundrobin) (h : AllClear p hash cs counter) :
    returned p hash cs counter =
      (turns p.hostBits p.addr (host o af counter) 0 cs.length).map some := by
  induction cs generalizing counter with
  | nil => rfl
  | cons c cs ih =>
    rw [AllClear] at h
    obtain ⟨s', hcall, hnaddr, hcounter⟩ := mapCall_roundrobin hash ht h.1 c
    have hrest := ih h.2
    rw [hcall] at hrest
    rw [returned, hcall, hrest, outcome, hnaddr, length_cons, turns_cons, map_cons]
    refine congrArg _ ?_
    by_cases hk : p.hostBits = 0
    · rw [hk, turns_zero, turns_zero]
    · rw [← hcounter hk]
      rfl

theorem allClear_of_returned (ht : p.type = .roundrobin)
    (h : none ∉ returned p hash cs counter) : AllClear p hash cs counter := by
  induction cs generalizing counter with
  | nil => trivial
  | cons c cs ih =>
    rw [returned, List.mem_cons, not_or] at h
    exact ⟨by_contra fun hclear => h.1 (mapCall_roundrobin_error ht hclear c).symm, ih h.2⟩

end Roundrobin

section Random

theorem mapCall_random (hash : PfAddr → PfAddr) (ht : p.type = .random) (c : Call)
    (counter : PfAddr) :
    ∃ s', mapCall p hash c counter = .ok s' ∧ host o af s'.naddr = p.position s'.counter := by
  simp only [mapCall, pfMapAddr, ht]
  split
  next => exact ⟨_, rfl, p.host_pfPoolmask⟩
  next => exact ⟨_, rfl, p.host_pfPoolmask⟩

def Call.Fresh (af : PoolAf) (c : Call) : Prop :=
  ∃ initAddr, c.initAddr = some initAddr ∧ pfAzero initAddr af.af = true

def freshCall : Call := ⟨⟨0, 0, 0, 0⟩, ⟨0, 0, 0, 0⟩, some ⟨0, 0, 0, 0⟩, fun _ => 0⟩

theorem fresh_freshCall (af : PoolAf) : freshCall.Fresh af :=
  ⟨_, rfl, by cases af <;> rfl⟩

theorem outcome_random (ht : p.type = .random) (hfresh : c.Fresh af) (rand : Random) :
    outcome o af (mapCall p hash { c with rand } counter) =
      some (p.position (randCounter o rand p.rmask counter af)) := by
  obtain ⟨initAddr, hinit, hzero⟩ := hfresh
  have hfresh : MapAddr.fresh af ⟨c.naddr, c.initAddr, counter⟩ = true := by
    rw [MapAddr.fresh, hinit]
    exact hzero
  simp only [mapCall, pfMapAddr, ht]
  rw [if_pos hfresh]
  exact congrArg some p.host_pfPoolmask

theorem exists_rand (ht : p.type = .random) (hk : p.hostBits < 32) (hfresh : c.Fresh af)
    (ha : p.Member a) : ∃ rand, outcome o af (mapCall p hash { c with rand } counter) = some a := by
  have hpow : 2 ^ p.hostBits < 2 ^ 32 := Nat.pow_lt_pow_right (by decide) hk
  refine ⟨fun _ => BitVec.ofNat 32 (a.toNat % 2 ^ p.hostBits), ?_⟩
  rw [outcome_random ht hfresh]
  refine congrArg some (place_of_same ha ?_)
  have hlast : lastRandom af (fun _ => BitVec.ofNat 32 (a.toNat % 2 ^ p.hostBits)) =
      BitVec.ofNat 32 (a.toNat % 2 ^ p.hostBits) := by
    cases af <;> rfl
  rw [host_randCounter p.rmask_eq hk, hlast, BitVec.toNat_ofNat,
    mod_eq_of_lt (Nat.lt_trans (mod_lt _ (Nat.two_pow_pos _)) hpow), mod_mod]

theorem exists_unreached (hash : PfAddr → PfAddr) (counter : PfAddr) (ht : p.type = .random)
    (hk : 32 ≤ p.hostBits) (hfresh : c.Fresh af) : ∃ a, p.Member a ∧
      ∀ rand, outcome o af (mapCall p hash { c with rand } counter) ≠ some a := by
  have hdvd := Nat.pow_dvd_pow 2 hk
  refine ⟨place p.hostBits p.addr 1, same_place _ _ _, fun rand hno => ?_⟩
  rw [outcome_random ht hfresh, some_inj] at hno
  have hmod := congrArg (fun x => x.toNat % 2 ^ p.hostBits % 2 ^ 32) hno
  have hone : (1 : BitVec af.bits).toNat = 1 := by cases af <;> rfl
  rw [PrefixPool.position] at hmod
  simp only [place_mod, mod_mod_of_dvd _ hdvd, host_randCounter_large p.rmask_eq hk, hone] at hmod
  exact absurd hmod (by decide)

end Random

section Leaststates

variable {faddr : PfAddr}

theorem clear_leaststates (ht : p.type = .leaststates) : Clear p counter ↔
      p.Member (host o af counter) ∨ p.Member (host o af (pfAddrInc o counter af)) ∨
        ¬Same p.hostBits (host o af (pfAddrInc o counter af)) (host o af counter) ∧
          0 < p.states := by
  rw [Same.comm, ← PfLb.pfMatchAddr_iff p.rmask_eq, ← p.pfMatchAddr_iff, ← p.pfMatchAddr_iff,
    Bool.not_eq_true]
  simp only [Clear, ht]

theorem leastStatesLoop_error (hstates : 0 < p.states) {j n : Nat} (hn : j < n)
    (hj : p.Member (host o af counter + BitVec.ofNat _ (j + 1)))
    (hback : ∀ i < j, ¬Same p.hostBits (host o af counter + BitVec.ofNat _ (i + 1))
      (host o af faddr)) :
    ∃ counter', leastStatesLoop o af p.toPfPool faddr n counter = .error counter' := by
  induction j generalizing n counter with
  | zero =>
    obtain ⟨n, rfl⟩ := exists_eq_succ_of_ne_zero (Nat.ne_of_gt hn)
    rw [leastStatesLoop, if_pos]
    · exact ⟨_, rfl⟩
    · rw [p.pfMatchAddr_iff, host_pfAddrInc]
      exact hj
  | succ j ih =>
    obtain ⟨n, rfl⟩ := exists_eq_succ_of_ne_zero (Nat.ne_of_gt (zero_lt_of_lt hn))
    have hnext (i : Nat) : host o af (pfAddrInc o counter af) + BitVec.ofNat _ (i + 1) =
        host o af counter + BitVec.ofNat _ (i + 1 + 1) := by
      rw [host_pfAddrInc, BitVec.add_assoc, Nat.add_comm (i + 1)]
      exact congrArg _ (BitVec.ofNat_add 1 (i + 1)).symm
    rw [leastStatesLoop]
    split
    · exact ⟨_, rfl⟩
    · have hfirst := hback 0 (zero_lt_succ j)
      have hgo : (!pfMatchAddr faddr p.rmask (pfAddrInc o counter af) af.af &&
          decide (p.states > 0)) = true := by
        rw [decide_eq_true hstates, Bool.and_true, Bool.not_eq_true', ← Bool.not_eq_true,
          PfLb.pfMatchAddr_iff p.rmask_eq, Same.comm, host_pfAddrInc]
        exact hfirst
      rw [if_pos hgo]
      refine ih (lt_of_succ_lt_succ hn) ?_ fun i hi => ?_
      · rw [hnext]
        exact hj
      · rw [hnext]
        exact hback (i + 1) (succ_lt_succ hi)

theorem exists_turns (af : PoolAf) : ∃ n, 2 ^ af.bits = n + 1 :=
  ⟨_, (succ_pred_eq_of_pos (Nat.two_pow_pos _)).symm⟩

theorem mapCall_leaststates_eq (ht : p.type = .leaststates) (c : Call) (counter : PfAddr) :
    mapCall p hash c counter = mapLeaststates o af p.toPfPool ⟨c.naddr, c.initAddr, counter⟩ := by
  simp only [mapCall, pfMapAddr, ht]

theorem mapCall_leaststates (ht : p.type = .leaststates) (hclear : Clear p counter) (c : Call) :
    outcome o af (mapCall p hash c counter) = none := by
  rw [mapCall_leaststates_eq ht, mapLeaststates]
  split
  next => rfl
  next hout =>
    suffices h : ∃ counter', leastStatesLoop o af p.toPfPool counter (2 ^ af.bits) counter =
        .error counter' by
      obtain ⟨counter', h⟩ := h
      dsimp only [setInitAddr_counter]
      rw [h]
      rfl
    obtain ⟨n, hn⟩ := exists_turns af
    rw [clear_leaststates ht, ← p.pfMatchAddr_iff, ← p.pfMatchAddr_iff] at hclear
    rcases hclear.resolve_left hout with hnext | ⟨hblock, hstates⟩
    · exact ⟨_, by rw [hn, leastStatesLoop, if_pos hnext]⟩
    · rw [host_pfAddrInc] at hblock
      have hmember : ¬Same p.hostBits p.addr (host o af counter) := fun h =>
        hout (p.pfMatchAddr_iff.mpr h.symm)
      obtain ⟨j, hj, hhit, hback⟩ := exists_hit p.hostBits_le hblock hmember
      refine leastStatesLoop_error hstates (lt_of_succ_lt hj) ?_ hback
      rw [hhit]
      exact Eq.refl _

theorem mapCall_leaststates_ok (ht : p.type = .leaststates) (hclear : ¬Clear p counter)
    (c : Call) : outcome o af (mapCall p hash c counter) = some (host o af counter) := by
  obtain ⟨n, hn⟩ := exists_turns af
  rw [clear_leaststates ht, not_or, not_or, ← p.pfMatchAddr_iff, ← p.pfMatchAddr_iff, Same.comm,
    ← PfLb.pfMatchAddr_iff p.rmask_eq] at hclear
  obtain ⟨hout, hnext, hstop⟩ := hclear
  have hstop : ¬(!pfMatchAddr counter p.rmask (pfAddrInc o counter af) af.af &&
      decide (p.states > 0)) = true := by
    rwa [Bool.and_eq_true, Bool.not_eq_true', ← Bool.not_eq_true, decide_eq_true_iff]
  rw [mapCall_leaststates_eq ht, mapLeaststates, if_neg hout]
  dsimp only [setInitAddr_counter]
  rw [hn, leastStatesLoop, if_neg hnext, if_neg hstop]
  exact congrArg some host_pfAddrcpy

end Leaststates

section Prefix

theorem member_of_mapCall (hclear : Clear p counter) (c : Call)
    (h : outcome o af (mapCall p hash c counter) = some a) : p.Member a := by
  cases ht : p.type with
  | none =>
    simp only [mapCall, pfMapAddr, ht, outcome, host_pfAddrcpy, some_inj] at h
    exact h ▸ rfl
  | bitmask =>
    simp only [mapCall, pfMapAddr, ht, outcome, some_inj, p.host_pfPoolmask] at h
    exact h ▸ p.member_position _
  | srchash =>
    simp only [mapCall, pfMapAddr, ht, outcome, some_inj, p.host_pfPoolmask] at h
    exact h ▸ p.member_position _
  | random =>
    obtain ⟨s', hcall, hnaddr⟩ := mapCall_random hash ht c counter
    rw [hcall, outcome, some_inj, hnaddr] at h
    exact h ▸ p.member_position _
  | roundrobin =>
    obtain ⟨s', hcall, hnaddr, -⟩ := mapCall_roundrobin hash ht hclear c
    rw [hcall, outcome, some_inj, hnaddr] at h
    exact h ▸ p.member_position _
  | leaststates =>
    rw [mapCall_leaststates ht hclear] at h
    exact absurd h nofun

theorem member_of_returned (hclear : AllClear p hash cs counter)
    (h : some a ∈ returned p hash cs counter) : p.Member a := by
  induction cs generalizing counter with
  | nil => exact absurd h not_mem_nil
  | cons c cs ih =>
    rw [returned, mem_cons] at h
    rcases h with h | h
    · exact member_of_mapCall hclear.1 c h.symm
    · exact ih hclear.2 h

variable (p hash) in
structure UsesWholePrefix (cs : List Call) (counter : PfAddr) : Prop where
  inside : ∀ a, some a ∈ returned p hash cs counter → p.Member a
  succeeds : p.type = .roundrobin → none ∉ returned p hash cs counter
  evenly : p.type = .roundrobin → ∀ before window after,
    returned p hash cs counter = before ++ window ++ after → window.length = 2 ^ p.hostBits →
      ∀ a, p.Member a → window.count (some a) = 1
  everywhere : p.type = .random → ∀ (c : Call) (counter : PfAddr), c.Fresh af →
    ∀ a, p.Member a → ∃ rand, outcome o af (mapCall p hash { c with rand } counter) = some a

theorem count_window {n : Nat} {before window after : List (Option (BitVec af.bits))}
    {c : BitVec af.bits} (h : (turns p.hostBits p.addr c 0 n).map some = before ++ window ++ after)
    (hlen : window.length = 2 ^ p.hostBits) (ha : p.Member a) : window.count (some a) = 1 := by
  obtain ⟨front, last, hturns, hfront, rfl⟩ := map_eq_append_iff.mp h
  obtain ⟨pre, mid, rfl, rfl, rfl⟩ := map_eq_append_iff.mp hfront
  rw [length_map] at hlen
  rw [turns_window hturns, hlen, count_map_of_injective _ _ (some_injective _),
    count_turns p.hostBits_le ha]

theorem allClear_of_inside (ht : p.type = .leaststates)
    (h : ∀ a, some a ∈ returned p hash cs counter → p.Member a) : AllClear p hash cs counter := by
  induction cs generalizing counter with
  | nil => trivial
  | cons c cs ih =>
    rw [returned] at h
    refine ⟨by_contra fun hclear => ?_, ih fun a ha => h a (mem_cons_of_mem _ ha)⟩
    rw [mapCall_leaststates_ok ht hclear] at h
    exact hclear ((clear_leaststates ht).mpr (.inl (h _ mem_cons_self)))

theorem allClear_of_true (ht : p.type ≠ .roundrobin) (ht' : p.type ≠ .leaststates) :
    AllClear p hash cs counter := by
  induction cs generalizing counter with
  | nil => trivial
  | cons c cs ih =>
    refine ⟨?_, ih⟩
    cases h : p.type with
    | roundrobin => exact absurd h ht
    | leaststates => exact absurd h ht'
    | none | bitmask | random | srchash => simp only [Clear, h]

theorem pf_map_addr_usesWholePrefix (p : PrefixPool o af) (hash : PfAddr → PfAddr)
    (cs : List Call) (counter : PfAddr) : UsesWholePrefix p hash cs counter ↔
      AllClear p hash cs counter ∧ (p.type = .random → p.hostBits < 32) := by
  constructor
  · intro h
    refine ⟨?_, fun ht => Nat.lt_of_not_le fun hk => ?_⟩
    · by_cases hrr : p.type = .roundrobin
      · exact allClear_of_returned hrr (h.succeeds hrr)
      · by_cases hls : p.type = .leaststates
        · exact allClear_of_inside hls h.inside
        · exact allClear_of_true hrr hls
    · obtain ⟨a, ha, hno⟩ := exists_unreached hash counter ht hk (fresh_freshCall af)
      obtain ⟨rand, hrand⟩ := h.everywhere ht _ counter (fresh_freshCall af) a ha
      exact hno rand hrand
  · rintro ⟨hclear, hsmall⟩
    refine ⟨fun _ => member_of_returned hclear, fun ht hno => ?_,
      fun ht before window after hruns hlen a ha => ?_,
      fun ht c counter hfresh a ha => exists_rand ht (hsmall ht) hfresh ha⟩
    · rw [returned_roundrobin ht hclear] at hno
      obtain ⟨a, -, hnone⟩ := mem_map.mp hno
      exact absurd hnone nofun
    · rw [returned_roundrobin ht hclear] at hruns
      exact count_window hruns hlen ha

end Prefix

def randomPool : PrefixPool .little .inet6 where
  type := .random
  raddr := ⟨0xb80d0120, 0, 0, 0⟩
  rmask := ⟨0xffffffff, 0xffffffff, 0, 0⟩
  states := 0
  hostBits := 64
  hostBits_le := by decide
  rmask_eq := by decide

def roundrobinPool : PrefixPool .little .inet where
  type := .roundrobin
  raddr := ⟨0x0000000a, 0, 0, 0⟩
  rmask := ⟨0xfcffffff, 0, 0, 0⟩
  states := 0
  hostBits := 2
  hostBits_le := by decide
  rmask_eq := by decide

/-- From 9.255.255.255 on the second call fails, and so does each one after it. -/
theorem pf_map_addr_prefix_unused : ¬UsesWholePrefix randomPool id [freshCall] ⟨0, 0, 0, 0⟩ ∧
      ¬UsesWholePrefix roundrobinPool id [freshCall, freshCall] ⟨0xffffff09, 0, 0, 0⟩ := by
  constructor
  · intro h
    have hlarge : 32 ≤ randomPool.hostBits := by decide
    obtain ⟨a, ha, hno⟩ := exists_unreached id ⟨0, 0, 0, 0⟩ rfl hlarge (fresh_freshCall _)
    obtain ⟨rand, hrand⟩ := h.everywhere rfl _ ⟨0, 0, 0, 0⟩ (fresh_freshCall _) a ha
    exact hno rand hrand
  · intro h
    exact h.succeeds rfl (by decide)

end Mbsd.Net.PfLb
