import Mbsd.Net.Pf.Rule

namespace Mbsd.Net.Pf

open Lib.SkipWalk List Function Nat PfSkip Option PfEnv

variable {cur n i neg : Nat} {st : SkipState} {d : PfSkip} {rules : List PfRule}
  {aw aw' : PfAddrWrap} {r : PfRule} {x : PfAddr} {af : Af} {ifp : Option Nat}

theorem pfSetSkipSteps_head (d : PfSkip) (fuel : Nat)
    (h : st.head d ≤ cur) (hf : cur - st.head d < fuel) :
    (pfSetSkipSteps d cur fuel st).head = update st.head d cur := by
  induction fuel generalizing st with
  | zero => cases hf
  | succ fuel ih =>
    rw [pfSetSkipSteps]
    split
    next hne =>
      rw [ih (by simp; omega) (by simp; omega)]
      simp
    next heq =>
      rw [← not_not.mp heq, update_eq_self]

theorem pfSetSkipSteps_skip (d : PfSkip) (fuel : Nat)
    (h : st.head d ≤ cur) (hf : cur - st.head d < fuel) (i : Nat) (e : PfSkip) :
    (pfSetSkipSteps d cur fuel st).skip i e =
      if e = d ∧ st.head d ≤ i ∧ i < cur then cur else st.skip i e := by
  induction fuel generalizing st with
  | zero => cases hf
  | succ fuel ih =>
    rw [pfSetSkipSteps]
    split
    next hne =>
      rw [ih (by simp; omega) (by simp; omega)]
      by_cases hed : e = d
      · subst hed
        by_cases hi : i = st.head e
        · subst hi
          simp
          omega
        · simp [update_of_ne hi]
          congr 1
          simp
          omega
      · by_cases hi : i = st.head d <;> simp [hed, hi, update_of_ne]
    next heq =>
      rw [if_neg]
      omega

def SameAt (rules : List PfRule) (d : PfSkip) (k : Nat) : Prop :=
  ∃ r prev, rules[k]? = some r ∧ rules[k - 1]? = some prev ∧ d.differs r prev = false

structure RunEnd (rules : List PfRule) (d : PfSkip) (i e : Nat) : Prop where
  lt : i < e
  le : e ≤ rules.length
  same : ∀ k, i < k → k < e → SameAt rules d k
  maximal : ¬ SameAt rules d e

/-- The state for one attribute before the rule at `n` is compared: the run from `head` on is
still open, and every run before it has its end. -/
structure SkipInv (rules : List PfRule) (d : PfSkip) (n : Nat) (st : SkipState) : Prop where
  head_le : st.head d ≤ n
  same : ∀ k, st.head d < k → k < n → SameAt rules d k
  done : ∀ i, i < st.head d → RunEnd rules d i (st.skip i d)

theorem pfSetSkipSteps_of_ne {e : PfSkip} (hne : d ≠ e) (cur fuel : Nat) (st : SkipState) :
    (pfSetSkipSteps e cur fuel st).head d = st.head d ∧
      ∀ i, (pfSetSkipSteps e cur fuel st).skip i d = st.skip i d := by
  induction fuel generalizing st with
  | zero => exact ⟨rfl, fun _ => rfl⟩
  | succ fuel ih =>
    rw [pfSetSkipSteps]
    split
    · refine ⟨(ih _).1.trans (update_of_ne hne _ _), fun i => ((ih _).2 i).trans ?_⟩
      by_cases hi : i = st.head e
      · subst hi
        simp [update_of_ne hne]
      · simp [update_of_ne hi]
    · exact ⟨rfl, fun _ => rfl⟩

theorem SkipInv.congr {st' : SkipState} (h : SkipInv rules d n st) (hhead : st'.head d = st.head d)
    (hskip : ∀ i, st'.skip i d = st.skip i d) : SkipInv rules d n st' where
  head_le := hhead ▸ h.head_le
  same := hhead ▸ h.same
  done i hi := hskip i ▸ h.done i (hhead ▸ hi)

theorem foldl_attribute {P Q : SkipState → Prop} {f : SkipState → PfSkip → SkipState}
    (hP : ∀ e st, d ≠ e → P st → P (f st e)) (hQ : ∀ e st, d ≠ e → Q st → Q (f st e))
    (hd : ∀ st, P st → Q (f st d)) {ds : List PfSkip} (hmem : d ∈ ds) (hnodup : ds.Nodup)
    (h : P st) : Q (ds.foldl f st) := by
  induction ds generalizing st with
  | nil => cases hmem
  | cons e ds ih =>
    rw [foldl_cons]
    by_cases hde : d = e
    · subst hde
      have hrest : ∀ ds : List PfSkip, d ∉ ds → ∀ st, Q st → Q (ds.foldl f st) := by
        intro ds
        induction ds with
        | nil => exact fun _ _ h => h
        | cons e ds ih =>
          intro hnot st hst
          exact ih (fun h => hnot (mem_cons_of_mem _ h)) _
            (hQ e st (fun he => hnot (he ▸ mem_cons_self)) hst)
      exact hrest ds (nodup_cons.mp hnodup).1 _ (hd st h)
    · exact ih ((mem_cons.mp hmem).resolve_left hde) (nodup_cons.mp hnodup).2
        (hP e st hde h)

theorem PfSkip.mem_all (d : PfSkip) : d ∈ all := by
  cases d <;> decide

theorem PfSkip.nodup_all : all.Nodup := by
  decide

section Runs

variable {rules : List PfRule} {d : PfSkip}

theorem SkipInv.close (h : SkipInv rules d n st)
    (hn : n ≤ rules.length) (hdiff : ¬ SameAt rules d n) :
    SkipInv rules d n (pfSetSkipSteps d n (rules.length + 1) st) ∧
      (pfSetSkipSteps d n (rules.length + 1) st).head d = n := by
  have hle := h.head_le
  have hhead := pfSetSkipSteps_head d (rules.length + 1) hle (by omega)
  have hskip := pfSetSkipSteps_skip d (rules.length + 1) hle (by omega)
  have hhead' : (pfSetSkipSteps d n (rules.length + 1) st).head d = n := by
    rw [hhead, update_self]
  refine ⟨⟨Nat.le_of_eq hhead', fun k hk hkn => ?_, fun i hi => ?_⟩, hhead'⟩
  · omega
  · rw [hhead'] at hi
    rw [hskip]
    split
    next hin => exact ⟨hi, hn, fun k hk => h.same k (by omega), hdiff⟩
    next hout => exact h.done i (by simp at hout; omega)

theorem sameAt_iff {prev : PfRule} (hr : rules[n]? = some r)
    (hprev : rules[n - 1]? = some prev) : SameAt rules d n ↔ d.differs r prev = false := by
  constructor
  · rintro ⟨r', prev', hr', hprev', h⟩
    rw [hr] at hr'
    rw [hprev] at hprev'
    cases hr'
    cases hprev'
    exact h
  · exact fun h => ⟨r, prev, hr, hprev, h⟩

theorem SkipInv.step (h : SkipInv rules d n st)
    (hn : n < rules.length) : SkipInv rules d (n + 1) (pfCalcSkipStep rules st n) := by
  obtain ⟨r, hr⟩ : ∃ r, rules[n]? = some r := ⟨_, getElem?_eq_getElem hn⟩
  obtain ⟨prev, hprev⟩ : ∃ r, rules[n - 1]? = some r :=
    ⟨_, getElem?_eq_getElem (Nat.lt_of_le_of_lt (sub_le n 1) hn)⟩
  have hother : ∀ m e st, d ≠ e → SkipInv rules d m st → SkipInv rules d m
      (if e.differs r prev then pfSetSkipSteps e n (rules.length + 1) st else st) := by
    intro m e st hne hst
    split
    · exact hst.congr (pfSetSkipSteps_of_ne hne _ _ _).1 (pfSetSkipSteps_of_ne hne _ _ _).2
    · exact hst
  rw [pfCalcSkipStep, hr, hprev]
  refine foldl_attribute (hother n) (hother (n + 1)) (fun st hst => ?_) d.mem_all
    nodup_all h
  split
  next hdiff =>
    have hnot : ¬ SameAt rules d n := by
      rw [sameAt_iff hr hprev, hdiff]
      exact Bool.noConfusion
    obtain ⟨hinv, hhead⟩ := hst.close (Nat.le_of_lt hn) hnot
    exact ⟨by omega, fun k hk hkn => by omega, hinv.done⟩
  next hsame =>
    refine ⟨le_succ_of_le hst.head_le, fun k hk hkn => ?_, hst.done⟩
    rcases Nat.lt_succ_iff_lt_or_eq.mp hkn with hkn | rfl
    · exact hst.same k hk hkn
    · exact (sameAt_iff hr hprev).mpr (Bool.not_eq_true _ ▸ hsame)

theorem SkipInv.loop (h : SkipInv rules d 0 st) (hn : n ≤ rules.length) :
    SkipInv rules d n ((range n).foldl (pfCalcSkipStep rules) st) := by
  induction n with
  | zero => exact h
  | succ n ih =>
    rw [range_succ, foldl_append]
    exact (ih (le_of_succ_le hn)).step hn

theorem SkipInv.finish (h : SkipInv rules d rules.length st) :
    SkipInv rules d rules.length (all.foldl
      (fun st d => pfSetSkipSteps d rules.length (rules.length + 1) st) st) ∧
    (all.foldl (fun st d => pfSetSkipSteps d rules.length (rules.length + 1) st) st).head d =
      rules.length := by
  have hend : ¬ SameAt rules d rules.length := by
    rintro ⟨r, prev, hr, -⟩
    simp at hr
  refine foldl_attribute (P := SkipInv rules d rules.length)
    (Q := fun st => SkipInv rules d rules.length st ∧ st.head d = rules.length)
    (fun e st hne hst => ?_) (fun e st hne hst => ?_) (fun st hst => hst.close (Nat.le_refl _) hend)
    d.mem_all nodup_all h
  · have hsame := pfSetSkipSteps_of_ne hne rules.length (rules.length + 1) st
    exact hst.congr hsame.1 hsame.2
  · have hsame := pfSetSkipSteps_of_ne hne rules.length (rules.length + 1) st
    exact ⟨hst.1.congr hsame.1 hsame.2, hsame.1.trans hst.2⟩

theorem pfCalcSkipSteps_runEnd (stale : Nat → PfSkip → Nat) (hi : i < rules.length) :
    RunEnd rules d i (pfCalcSkipSteps rules stale i d) := by
  have hstart : SkipInv rules d 0 ⟨fun _ => 0, stale⟩ :=
    ⟨Nat.le_refl 0, fun k _ hk => absurd hk (Nat.not_lt_zero k),
      fun i hi => absurd hi (Nat.not_lt_zero i)⟩
  obtain ⟨hinv, hhead⟩ := (hstart.loop (Nat.le_refl _)).finish
  rw [pfCalcSkipSteps]
  refine hinv.done i ?_
  rw [hhead]
  exact hi

end Runs

def Alike (d : PfSkip) (r r' : PfRule) : Prop := d.differs r' r = false

theorem pfAddrWrapNeq_trans {a b c : PfAddrWrap} (hab : pfAddrWrapNeq b a = false)
    (hbc : pfAddrWrapNeq c b = false) : pfAddrWrapNeq c a = false := by
  cases a <;> cases b <;> simp [pfAddrWrapNeq] at hab <;>
    cases c <;> simp [pfAddrWrapNeq] at hbc ⊢ <;> simp_all

theorem Alike.trans {a b c : PfRule} (hab : Alike d a b) (hbc : Alike d b c) : Alike d a c := by
  cases d <;> simp only [Alike, PfSkip.differs, Bool.or_eq_false_iff, decide_eq_false_iff_not,
    not_not] at hab hbc ⊢
  case srcAddr => exact ⟨hbc.1.trans hab.1, pfAddrWrapNeq_trans hab.2 hbc.2⟩
  case dstAddr => exact ⟨hbc.1.trans hab.1, pfAddrWrapNeq_trans hab.2 hbc.2⟩
  all_goals simp_all

theorem alike_of_sameAt {k : Nat} {r' : PfRule}
    (hr : rules[i]? = some r) (hr' : rules[k]? = some r') (hik : i < k)
    (h : ∀ j, i < j → j ≤ k → SameAt rules d j) : Alike d r r' := by
  induction k, hik using le_induction generalizing r' with
  | base =>
    exact (sameAt_iff hr' hr).mp (h (i + 1) (lt_succ_self i) (Nat.le_refl _))
  | succ k hik ih =>
    obtain ⟨r₁, prev, hr₁, hprev, hsame⟩ := h (k + 1) (lt_succ_of_lt hik) (Nat.le_refl _)
    rw [hr'] at hr₁
    cases hr₁
    exact (ih hprev fun j hij hjk => h j hij (le_succ_of_le hjk)).trans hsame

section Tests

variable {E : PfEnv} {c : PfTestCtx} {p : Nat} {r r' : PfRule} {d : PfSkip}

def PfSkip.isPort (d : PfSkip) : Prop := d = .srcPort ∨ d = .dstPort

theorem pfTestAttrib_eq_none : pfTestAttrib E c p r = none ↔ ∀ t ∈ pfTests E c p r, t.1 = false := by
  simp [pfTestAttrib]

theorem mem_pfTests (h : d.isPort → c.virtualProto = .tcp ∨ c.virtualProto = .udp) :
    (pfSkipTest E c r d, .skip d) ∈ pfTests E c p r := by
  cases d with
  | srcPort =>
    rcases h (.inl rfl) with hv | hv <;> simp [pfTests, pfProtoTests, pfPortTests, hv]
  | dstPort =>
    rcases h (.inr rfl) with hv | hv <;> simp [pfTests, pfProtoTests, pfPortTests, hv]
  | _ => simp [pfTests, pfAddrTests]

theorem eq_of_mem_pfTests {b : Bool} (h : (b, .skip d) ∈ pfTests E c p r) :
    b = pfSkipTest E c r d ∧ (d.isPort → c.virtualProto = .tcp ∨ c.virtualProto = .udp) := by
  have hlast : (b, PfTarget.skip d) ∉ pfLastTests E c p r := by
    simp [pfLastTests]
  rw [pfTests, cons_append, cons_append, mem_cons, mem_append, mem_append] at h
  rcases h with h | (h | h) | h
  · cases h
  · simp only [pfAddrTests, List.map_cons, List.map_nil, List.mem_cons, Prod.mk.injEq,
      PfTarget.skip.injEq, List.not_mem_nil, or_false] at h
    rcases h with ⟨rfl, rfl⟩ | ⟨rfl, rfl⟩ | ⟨rfl, rfl⟩ | ⟨rfl, rfl⟩ | ⟨rfl, rfl⟩ | ⟨rfl, rfl⟩ |
      ⟨rfl, rfl⟩ <;> simp [isPort]
  · cases hv : c.virtualProto <;> simp [pfProtoTests, pfPortTests, pfIcmpTests, hv] at h
    · rcases h with ⟨rfl, rfl⟩ | ⟨rfl, rfl⟩ <;> simp
    · rcases h with ⟨rfl, rfl⟩ | ⟨rfl, rfl⟩ <;> simp
  · exact absurd h hlast

theorem pfSkipTest_of_accepted (h : pfTestAttrib E c p r = none)
    (hport : d.isPort → c.virtualProto = .tcp ∨ c.virtualProto = .udp) :
    pfSkipTest E c r d = false :=
  pfTestAttrib_eq_none.mp h _ (mem_pfTests hport)

theorem pfSkipTest_of_rejected (h : pfTestAttrib E c p r = some (.skip d)) :
    pfSkipTest E c r d = true ∧ (d.isPort → c.virtualProto = .tcp ∨ c.virtualProto = .udp) := by
  obtain ⟨⟨b, t⟩, hfind, ht⟩ := map_eq_some_iff.mp h
  cases ht
  have hb : b = true := find?_some hfind
  have hmem := eq_of_mem_pfTests (mem_of_find?_eq_some hfind)
  exact ⟨hmem.1 ▸ hb, hmem.2⟩

theorem af_of_rejected (h : pfTestAttrib E c p r = some (.skip d))
    (hd : d = .srcAddr ∨ d = .dstAddr) : pfSkipTest E c r .af = false := by
  by_contra haf
  rw [Bool.not_eq_false] at haf
  rw [pfTestAttrib, pfTests, pfAddrTests] at h
  simp only [map_cons, cons_append, find?_cons, haf] at h
  revert h
  rcases hd with rfl | rfl <;>
    cases r.hasFlag pfruleExpired <;> cases pfSkipTest E c r .ifp <;>
    cases pfSkipTest E c r .dir <;> cases pfSkipTest E c r .rdom <;> simp

theorem pfMismatchaw_congr
    {rtid : Int} (h : pfAddrWrapNeq aw' aw = false)
    (hdyn : ∀ dyn dyn', aw = .dynIftl dyn → aw' = .dynIftl dyn' →
      E.pfrDynaddr dyn af = E.pfrDynaddr dyn' af) :
    E.pfMismatchaw aw' x af neg ifp rtid = E.pfMismatchaw aw x af neg ifp rtid := by
  cases aw <;> cases aw' <;> simp [pfAddrWrapNeq] at h
  case dynIftl.dynIftl dyn dyn' =>
    simp only [pfMismatchaw, pfiMatchAddr, hdyn dyn dyn' rfl rfl, h]
  all_goals simp_all [pfMismatchaw]

theorem pfrDynaddr_congr {dyn dyn' : PfiDynaddr} (hkt : dyn'.pfidKt = dyn.pfidKt)
    (h : (dyn.pfidAf = .unspec ∨ dyn.pfidAf = af) ↔ (dyn'.pfidAf = .unspec ∨ dyn'.pfidAf = af)) :
    E.pfrDynaddr dyn af = E.pfrDynaddr dyn' af := by
  simp only [pfrDynaddr, h, hkt]

theorem pfMismatchaw_alike
    {rtid : Int} (h : pfAddrWrapNeq aw' aw = false)
    (haf : ∀ dyn dyn', aw = .dynIftl dyn → aw' = .dynIftl dyn' →
      ((dyn.pfidAf = .unspec ∨ dyn.pfidAf = af) ↔ (dyn'.pfidAf = .unspec ∨ dyn'.pfidAf = af))) :
    E.pfMismatchaw aw' x af neg ifp rtid = E.pfMismatchaw aw x af neg ifp rtid :=
  pfMismatchaw_congr h fun dyn dyn' hdyn hdyn' =>
    pfrDynaddr_congr (by simpa [hdyn, hdyn', pfAddrWrapNeq] using h) (haf dyn dyn' hdyn hdyn')

theorem pfSkipTest_af_false : pfSkipTest E c r .af = false ↔ r.af = .unspec ∨ r.af = c.af := by
  simp [pfSkipTest, or_iff_not_imp_left]

theorem pfSkipTest_alike (h : Alike d r r') (hsrc : d ≠ .srcAddr) (hdst : d ≠ .dstAddr) :
    pfSkipTest E c r' d = pfSkipTest E c r d := by
  cases d <;> simp_all [Alike, differs, pfSkipTest]

theorem pfSkipTest_dst_alike (h : Alike .dstAddr r r') (haf : pfSkipTest E c r .af = false)
    (haf' : pfSkipTest E c r' .af = false) :
    pfSkipTest E c r' .dstAddr = pfSkipTest E c r .dstAddr := by
  rw [pfSkipTest_af_false] at haf haf'
  simp only [Alike, PfSkip.differs, Bool.or_eq_false_iff, decide_eq_false_iff_not, not_not] at h
  rw [pfSkipTest, pfSkipTest, h.1]
  refine pfMismatchaw_alike h.2 fun dyn dyn' hdyn hdyn' => ?_
  rw [r.dstDyn dyn hdyn, r'.dstDyn dyn' hdyn']
  exact iff_of_true haf haf'

/-- With the source address it is different when the family the source is looked up in is not the
packet's own any more, and the two rules count the interface's addresses for different families. -/
theorem pfSkipTest_src_alike (h : Alike .srcAddr r r') (haf : pfSkipTest E c r .af = false)
    (haf' : pfSkipTest E c r' .af = false)
    (hsame : ∀ dyn dyn', r.src.addr = .dynIftl dyn → r'.src.addr = .dynIftl dyn' →
      dyn.pfidAf = dyn'.pfidAf ∨ c.naf = c.af) :
    pfSkipTest E c r' .srcAddr = pfSkipTest E c r .srcAddr := by
  rw [pfSkipTest_af_false] at haf haf'
  simp only [Alike, PfSkip.differs, Bool.or_eq_false_iff, decide_eq_false_iff_not, not_not] at h
  rw [pfSkipTest, pfSkipTest, h.1]
  refine pfMismatchaw_alike h.2 fun dyn dyn' hdyn hdyn' => ?_
  rcases hsame dyn dyn' hdyn hdyn' with heq | hnaf
  · rw [heq]
  · rw [r.srcDyn dyn hdyn, r'.srcDyn dyn' hdyn', hnaf]
    exact iff_of_true haf haf'

end Tests

theorem pfRuleBody_ne_reject (E : PfEnv) (c : PfTestCtx) (p : Nat) (r : PfRule) (t : PfTarget) :
    pfRuleBody E c p r ≠ .reject t := by
  intro h
  simp only [pfRuleBody] at h
  repeat' split at h
  all_goals cases h

theorem pfEvalRule_eq_reject {E : PfEnv} {p : Nat} {c : PfTestCtx}
    (hr : rules[p]? = some r) (t : PfTarget) :
    pfEvalRule E rules p c = .reject t ↔ pfTestAttrib E c p r = some t := by
  rw [pfEvalRule, hr]
  dsimp only
  split
  next t' h => simp [h]
  next h => simp [h, pfRuleBody_ne_reject]

/-- In the context `c` the rule at `i` sends the walk past the rule at `j` that would match: both
have the same interface's addresses as source in one run, but for different families, and the
packet's source is looked up in another family than its own. -/
def PassesOver (E : PfEnv) (rules : List PfRule) (c : PfTestCtx) (i j : Nat) : Prop :=
  i < j ∧ (∀ k, i < k → k ≤ j → SameAt rules .srcAddr k) ∧ c.naf ≠ c.af ∧
  ∃ r r' dyn dyn', rules[i]? = some r ∧ rules[j]? = some r' ∧
    r.src.addr = .dynIftl dyn ∧ r'.src.addr = .dynIftl dyn' ∧ dyn.pfidAf ≠ dyn'.pfidAf ∧
    pfTestAttrib E c i r = some (.skip .srcAddr) ∧ pfTestAttrib E c j r' = none

section Walk

variable (E : PfEnv) (rules : List PfRule) (stale : Nat → PfSkip → Nat)

theorem jump_forward (p : Nat) (t : PfTarget) (hp : p < rules.length) :
    p < PfTarget.jump (pfCalcSkipSteps rules stale) p t := by
  cases t with
  | next => exact lt_succ_self p
  | skip d => exact (pfCalcSkipSteps_runEnd stale hp).lt

theorem jumpsOver_iff (hi : i < rules.length) (c : PfTestCtx) (j : Nat) :
    JumpsOver rules.length (pfEvalRule E rules) (PfTarget.jump (pfCalcSkipSteps rules stale))
      i c j ↔ PassesOver E rules c i j := by
  obtain ⟨r, hr⟩ : ∃ r, rules[i]? = some r := ⟨_, List.getElem?_eq_getElem hi⟩
  constructor
  · rintro ⟨t, ht, hij, hjump, hj, hacc⟩
    obtain ⟨r', hr'⟩ : ∃ r, rules[j]? = some r := ⟨_, List.getElem?_eq_getElem hj⟩
    rw [pfEvalRule_eq_reject hr] at ht
    have hnone : pfTestAttrib E c j r' = none := by
      refine Option.eq_none_iff_forall_ne_some.mpr fun t' ht' => ?_
      exact hacc t' ((pfEvalRule_eq_reject hr' t').mpr ht')
    cases t with
    | next => exact absurd hjump (Nat.not_lt.mpr hij)
    | skip d =>
      have hrun : ∀ k, i < k → k ≤ j → SameAt rules d k := fun k hik hkj =>
        (pfCalcSkipSteps_runEnd stale hi).same k hik (Nat.lt_of_le_of_lt hkj hjump)
      have halike := alike_of_sameAt hr hr' hij hrun
      obtain ⟨hfail, hport⟩ := pfSkipTest_of_rejected ht
      have hpass := pfSkipTest_of_accepted hnone hport
      have haf' : pfSkipTest E c r' .af = false :=
        pfSkipTest_of_accepted hnone (by simp [PfSkip.isPort])
      by_cases hsrc : d = .srcAddr
      · subst hsrc
        have haf := af_of_rejected ht (.inl rfl)
        by_contra hno
        rw [pfSkipTest_src_alike halike haf haf', hfail] at hpass
        · cases hpass
        · intro dyn dyn' hdyn hdyn'
          by_contra hdiff
          rw [not_or] at hdiff
          exact hno ⟨hij, hrun, hdiff.2, r, r', dyn, dyn', hr, hr', hdyn, hdyn', hdiff.1, ht, hnone⟩
      · by_cases hdst : d = .dstAddr
        · subst hdst
          rw [pfSkipTest_dst_alike halike (af_of_rejected ht (.inr rfl)) haf', hfail] at hpass
          cases hpass
        · rw [pfSkipTest_alike halike hsrc hdst, hfail] at hpass
          cases hpass
  · rintro ⟨hij, hrun, -, r₁, r', -, -, hr₁, hr', -, -, -, ht, hnone⟩
    have hend := pfCalcSkipSteps_runEnd (d := .srcAddr) stale hi
    refine ⟨.skip .srcAddr, (pfEvalRule_eq_reject hr₁ _).mpr ht, hij, ?_,
      (List.getElem?_eq_some_iff.mp hr').1, fun t' => ?_⟩
    · by_contra hle
      exact hend.maximal (hrun _ hend.lt (Nat.not_lt.mp hle))
    · rw [ne_eq, pfEvalRule_eq_reject hr', hnone]
      exact Option.some_ne_none t' ∘ Eq.symm

def PfVisits (c : PfTestCtx) (i : Nat) (c' : PfTestCtx) : Prop :=
  Visits rules.length (pfEvalRule E rules) (PfTarget.jump (pfCalcSkipSteps rules stale)) 0 c i c'

/-- The walk ends, and it reaches the rules that pass every attribute test one by one exactly if
it never passes over one in the way of `PassesOver`. -/
theorem pfMatchRule_eq_linear_iff (c : PfTestCtx) : pfMatchRule E rules stale c ≠ none ∧
    (pfMatchRule E rules stale c = pfMatchRuleLinear E rules c ↔
      ¬ ∃ i c' j, PfVisits E rules stale c i c' ∧ PassesOver E rules c' i j) := by
  have hforward := jump_forward rules stale
  constructor
  · obtain ⟨w, hw⟩ : ∃ w, pfMatchRule E rules stale c = some w :=
      walk_ends hforward c (by omega)
    rw [hw]
    exact some_ne_none w
  · refine (walk_eq_linear_iff hforward c (by omega) (by omega)).trans ?_
    constructor
    · rintro hall ⟨i, c', j, hv, hover⟩
      obtain ⟨r, -, -, -, hr, -⟩ := hover.2.2.2
      have hi := (List.getElem?_eq_some_iff.mp hr).1
      exact hall i c' j hv hi ((jumpsOver_iff E rules stale hi c' j).mpr hover)
    · intro hno i c' j hv hi hover
      exact hno ⟨i, c', j, hv, (jumpsOver_iff E rules stale hi c' j).mp hover⟩

end Walk

section Translated

def anyAddr : PfRuleAddr := ⟨.addrMask ⟨0, 0, 0, 0⟩ ⟨0, 0, 0, 0⟩, 0, 0, 0, .none⟩
def em0Addr (af : Af) : PfRuleAddr := ⟨.dynIftl ⟨0, af⟩, 0, 0, 0, .none⟩

def simpleRule (af : Af) (src : PfRuleAddr) (action : PfAction) (ruleFlag : BitVec 32) (naf : Af)
    (h : ∀ dyn, src.addr = .dynIftl dyn → dyn.pfidAf = af) : PfRule where
  src := src
  dst := anyAddr
  kif := none
  rcvKif := none
  anchor := none
  osFingerprint := 0
  rtableid := -1
  onrdomain := -1
  prob := 0
  tag := 0
  matchTag := 0
  uid := ⟨0, 0, .none⟩
  gid := ⟨0, 0, .none⟩
  ruleFlag := ruleFlag
  action := action
  direction := 0
  quick := false
  ifnot := 0
  matchTagNot := false
  keepState := 0
  af := af
  proto := 0
  type := 0
  code := 0
  flags := 0
  flagset := 0
  tos := 0
  prio := 0
  naf := naf
  rcvifnot := 0
  srcDyn := h
  dstDyn _ hdyn := by cases hdyn

/-- `match inet6 af-to inet from (em0)`, `pass inet6 from (em0)` and `pass from (em0)`. -/
def translatedRules : List PfRule :=
  [simpleRule .inet6 anyAddr .match pfruleAfto .inet (by rintro _ ⟨⟩),
   simpleRule .inet6 (em0Addr .inet6) .pass 0 .unspec (by rintro _ ⟨⟩; rfl),
   simpleRule .unspec (em0Addr .unspec) .pass 0 .unspec (by rintro _ ⟨⟩; rfl)]

/-- The interface has one address of each family, and `af-to` takes the source from it. -/
def translatedEnv : PfEnv where
  kifs _ := ⟨none, none, false⟩
  ktables _ := ⟨[(⟨0x0a000001, 0, 0, 0⟩, ⟨0xffffffff, 0, 0, 0⟩)],
    [(⟨0xfe800000, 0, 0, 1⟩, ⟨0xffffffff, 0xffffffff, 0xffffffff, 0xffffffff⟩)]⟩
  pfrMatchAddr _ _ _ := false
  pfRoutable _ _ _ _ := true
  pfRtlabelMatch _ _ _ _ := false
  pfOsfpMatch _ := false
  lookupUid := none
  lookupGid := none
  rcvKif := none
  random _ := 0
  limit _ _ := .allow
  poolGet _ := true
  pfGetTransaddr _ c := some { c with nsaddr := ⟨0x0a000001, 0, 0, 0⟩ }
  enterAnchor _ c := (c, none)

def translatedPacket : PfTestCtx where
  kif := 0
  dir := 1
  rdomain := 0
  af := .inet6
  naf := .inet6
  proto := 17
  virtualProto := .udp
  nsaddr := ⟨0x20010db8, 0, 0, 1⟩
  ndaddr := ⟨0x20010db8, 0, 0, 2⟩
  nsport := 1024
  ndport := 53
  tos := 0
  mTag := 0
  mPrio := 0
  thFlags := 0
  icmptype := 0
  icmpcode := 0
  icmpDir := 0
  stateIcmp := false
  rtableid := 0
  tag := none
  limiterDrop := false
  rules := []
  rm := none
  status := none

/-- The second rule counts no address of the family the source was translated to, and its skip
pointer leads past the third, which matches. -/
theorem pfMatchRule_passes_over_translated :
    (pfMatchRule translatedEnv translatedRules (fun _ _ => 0) translatedPacket).map Prod.fst =
      some [0] ∧ (pfMatchRuleLinear translatedEnv translatedRules translatedPacket).map Prod.fst =
      some [0, 2] := by
  decide +kernel

end Translated

end Mbsd.Net.Pf
