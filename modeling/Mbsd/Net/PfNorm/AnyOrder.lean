import Mbsd.Net.PfNorm.Ipv6

/-! The fragments of an IPv6 packet, in whatever order they arrive. -/

namespace Mbsd.Net.PfNorm

open Lib Sys List Option Function PfFragment BitVec PfFrags

variable {fragqueue frags : List PfFragment} {q full : List PfFrent} {l : List (PfFrent × Pools)}

structure PfFrent.Valid (frent : PfFrent) : Prop where
  len : frent.feLen ≠ 0
  aligned : ¬(frent.feMff = true ∧ frent.feLen &&& 7 ≠ 0)
  bound : ¬frent.feOff + frent.feLen > IP_MAXPACKET

def PfFragment.MaxlenOk (frag : PfFragment) : Prop :=
  (∀ e ∈ frag.frQueue, e.feLen ≤ frag.frMaxlen) ∧ ∃ e ∈ frag.frQueue, e.feLen = frag.frMaxlen

structure Holds (s : PfFrags) (key : PfFrnodeKey) (id : BitVec 32) (frag : PfFragment) : Prop where
  inv : s.Inv
  found : s.fragqueue.find? (·.IsFor key id) = some frag
  gen : ∃ frnode, s.frnodeTree key = some frnode ∧ frnode.fnGen - frag.frGen = 1
  maxlen : frag.MaxlenOk

variable {s s' : PfFrags} {key : PfFrnodeKey} {id timeout : BitVec 32} {frag frag' : PfFragment}
  {e : PfFrent} {pools : Pools} {l₁ l₂ : List PfFrent}

theorem Holds.isFor (h : Holds s key id frag) : frag.IsFor key id := (exists_isFor h.found).2

theorem Holds.frag_inv (h : Holds s key id frag) : frag.Inv ∧ frag.frQueue ≠ [] :=
  h.inv.frags frag (exists_isFor h.found).1

theorem PfFragment.MaxlenOk.ext {f g : PfFragment} (hf : f.MaxlenOk) (hg : g.MaxlenOk)
    (h : f.frQueue = g.frQueue) : f.frMaxlen = g.frMaxlen := by
  obtain ⟨hfle, a, ha, hfa⟩ := hf
  obtain ⟨hgle, b, hb, hgb⟩ := hg
  have h₁ := hgle a (h ▸ ha)
  have h₂ := hfle b (h ▸ hb)
  omega

theorem PfFragment.MaxlenOk.entered (h : frag.MaxlenOk)
    (he : Entered e l₁ l₂ (frag.remember e) frag') : frag'.MaxlenOk := by
  have hq : frag.frQueue = l₁ ++ l₂ := frQueue_remember.symm.trans he.before
  have hmax : (frag.remember e).frMaxlen = max frag.frMaxlen e.feLen := by
    rw [remember]
    split
    · show e.feLen = _
      omega
    · omega
  obtain ⟨hle, a, ha, hfa⟩ := h
  rw [MaxlenOk, he.maxlen, hmax, he.after]
  rw [hq] at hle ha
  constructor
  · intro b hb
    rcases mem_append.mp hb with hb | hb
    · exact Nat.le_trans (hle b (mem_append_left _ hb)) (Nat.le_max_left _ _)
    · rcases mem_cons.mp hb with rfl | hb
      · exact Nat.le_max_right _ _
      · exact Nat.le_trans (hle b (mem_append_right _ hb)) (Nat.le_max_left _ _)
  · rcases Nat.le_total frag.frMaxlen e.feLen with hcase | hcase
    · exact ⟨e, by simp, (Nat.max_eq_right hcase).symm⟩
    · refine ⟨a, ?_, hfa.trans (Nat.max_eq_left hcase).symm⟩
      rcases mem_append.mp ha with ha | ha
      · exact mem_append_left _ ha
      · exact mem_append_right _ (mem_cons_of_mem _ ha)

theorem not_stale (ht : timeout * PF_FRAG_STALE ≠ 0) : ¬(1 : BitVec 32) ≥ timeout * PF_FRAG_STALE := by
  intro hle
  apply ht
  apply eq_of_toNat_eq
  have hle' : (timeout * PF_FRAG_STALE).toNat ≤ 1 := hle
  rw [toNat_mul] at hle' ⊢
  have h200 : PF_FRAG_STALE.toNat = 200 := rfl
  rw [h200] at hle' ⊢
  show _ = 0
  omega

theorem pfFindFragment_holds (h : Holds s key id frag) (ht : timeout * PF_FRAG_STALE ≠ 0) :
    pfFindFragment s key id timeout =
      some ({ s with fragqueue := frag :: s.fragqueue.eraseP (·.IsFor key id) }, some frag) := by
  obtain ⟨frnode, hnode, hgen⟩ := h.gen
  have hok := h.inv.nodes key
  rw [hnode] at hok
  have hpos : frnode.fnFragments ≥ 1 := hok.1 ▸ hok.2
  unfold pfFindFragment
  simp only [hnode, bind_eq_bind, kassert_true hpos, bind_some, h.found, hgen,
    if_neg (not_stale ht)]

theorem pfFindFragment_none (h : s.Inv) (hn : ∀ f ∈ s.fragqueue, ¬f.IsFor key id) :
    pfFindFragment s key id timeout = some (s, none) := by
  have hfind : s.fragqueue.find? (·.IsFor key id) = none :=
    find?_eq_none.mpr fun f hf => by simpa using hn f hf
  have hok := h.nodes key
  unfold pfFindFragment
  cases hnode : s.frnodeTree key with
  | none => rfl
  | some frnode =>
    rw [hnode] at hok
    have hpos : frnode.fnFragments ≥ 1 := hok.1 ▸ hok.2
    simp only [bind_eq_bind, kassert_true hpos, bind_some, hfind]

theorem pfFillupFragment_valid (hv : e.Valid) : pfFillupFragment s key id e timeout pools =
    (pfFindFragment s key id timeout).bind fun r => match r with
      | (s, none) => fillupNew s key id e pools
      | (s, some frag) =>
        match frag.frQueue.getLast? with
        | none => none
        | some last => (fillupExisting e last s.fragments (frag.remember e)).bind
            (fillupExit s s.fragqueue.tail) := by
  rw [pfFillupFragment, if_neg hv.len, if_neg hv.aligned, if_neg hv.bound]
  rfl

theorem valid_of_queued
    (h : pfFillupFragment s key id e timeout pools = some (s', .queued frag)) : e.Valid := by
  unfold pfFillupFragment at h
  by_cases hlen : e.feLen = 0
  · rw [if_pos hlen] at h
    cases h
  rw [if_neg hlen] at h
  by_cases halign : e.feMff = true ∧ e.feLen &&& 7 ≠ 0
  · rw [if_pos halign] at h
    cases h
  rw [if_neg halign] at h
  by_cases hmax : e.feOff + e.feLen > IP_MAXPACKET
  · rw [if_pos hmax] at h
    cases h
  exact ⟨hlen, halign, hmax⟩

theorem fillupExit_queued {exit : Exit}
    (h : fillupExit s fragqueue exit = some (s', .queued frag)) : exit.label = .queued ∧
      exit.frag = frag ∧
      s' = { s with fragqueue := frag :: fragqueue, fragments := exit.fragments } := by
  obtain ⟨label, frag', fragments⟩ := exit
  cases label with
  | queued =>
    cases h
    exact ⟨rfl, rfl, rfl⟩
  | dropFragment => cases h
  | freeFragment =>
    simp only [fillupExit, freeFragment, bind_eq_bind, bind_eq_some_iff] at h
    obtain ⟨s₁, -, h⟩ := h
    cases h
  | freeIpv6Fragment =>
    simp only [fillupExit, freeIpv6Fragment] at h
    by_cases haf : frag'.frNode.fnAf = .AF_INET
    · rw [if_pos haf] at h
      cases h
    · rw [if_neg haf] at h
      simp only [freeFragment, bind_eq_bind, bind_eq_some_iff] at h
      obtain ⟨s₁, -, h⟩ := h
      cases h

structure Accepted (key : PfFrnodeKey) (id : BitVec 32) (e : PfFrent) (q : List PfFrent)
    (s' : PfFrags) (frag' : PfFragment) : Prop where
  holds : Holds s' key id frag'
  place : ∃ l₁ l₂, q = l₁ ++ l₂ ∧ frag'.frQueue = l₁ ++ e :: l₂

theorem Holds.fillup (h : Holds s key id frag) (ht : timeout * PF_FRAG_STALE ≠ 0) (hv : e.Valid)
    (pools : Pools) : ∃ last, frag.frQueue.getLast? = some last ∧
      pfFillupFragment s key id e timeout pools =
        (fillupExisting e last s.fragments (frag.remember e)).bind
          (fillupExit { s with fragqueue := frag :: s.fragqueue.eraseP (·.IsFor key id) }
            (s.fragqueue.eraseP (·.IsFor key id))) := by
  obtain ⟨last, hlast⟩ := ne_none_iff_exists'.mp
    (mt getLast?_eq_none_iff.mp h.frag_inv.2)
  refine ⟨last, hlast, ?_⟩
  rw [pfFillupFragment_valid hv, pfFindFragment_holds h ht]
  simp only [bind_some, hlast, tail_cons]

theorem Holds.entered (h : Holds s key id frag) (he : Entered e l₁ l₂ (frag.remember e) frag')
    {fragments : BitVec 32}
    (hinv : { s with fragqueue := frag' :: fragqueue, fragments := fragments }.Inv) :
    Holds { s with fragqueue := frag' :: fragqueue, fragments := fragments } key id frag' where
  inv := hinv
  found := by
    have hkey := sameKey_remember.trans he.key
    have hfor : frag'.IsFor key id := ⟨hkey.1.trans h.isFor.1, hkey.2.trans h.isFor.2⟩
    exact find?_cons_of_pos (by simpa using hfor)
  gen := by
    obtain ⟨frnode, hnode, hgen⟩ := h.gen
    have hsame : frag'.frGen = frag.frGen := by
      rw [he.gen, remember]
      split <;> rfl
    exact ⟨frnode, hnode, hsame ▸ hgen⟩
  maxlen := h.maxlen.entered he

section

variable (h : Holds s key id frag) (haf : key.fnAf = .AF_INET6) (ht : timeout * PF_FRAG_STALE ≠ 0)

include h haf ht

theorem Holds.queued (hq : pfFillupFragment s key id e timeout pools = some (s', .queued frag')) :
    Accepted key id e frag.frQueue s' frag' := by
  have hv := valid_of_queued hq
  obtain ⟨s₁, out, hs₁, hinv⟩ := pfFillupFragment_spec h.inv key id e timeout pools
  rw [hq, some.injEq, Prod.mk.injEq] at hs₁
  rw [← hs₁.1] at hinv
  obtain ⟨last, hlast, heq⟩ := h.fillup ht hv pools
  rw [heq, bind_eq_some_iff] at hq
  obtain ⟨exit, hexit, hq⟩ := hq
  obtain ⟨hlabel, rfl, rfl⟩ := fillupExit_queued hq
  have hnode : (frag.remember e).frNode.fnAf = .AF_INET6 := by
    rw [sameKey_remember.1, h.isFor.1]
    exact haf
  obtain ⟨-, l₁, l₂, hent⟩ := fillupExisting_queued h.frag_inv.1.remember hnode
    (frQueue_remember.symm ▸ hlast) (Nat.pos_of_ne_zero hv.len) (Nat.le_of_not_lt hv.bound)
    hexit hlabel
  exact ⟨h.entered hent hinv, l₁, l₂, frQueue_remember.symm.trans hent.before, hent.after⟩

theorem Holds.fits (hv : e.Valid) (hq : frag.frQueue = l₁ ++ l₂) (ho : InOrder (l₁ ++ e :: l₂))
    (hlimit : frag.frEntries (pfFrentIndex e) < PF_FRAG_ENTRY_LIMIT) (pools : Pools) :
    ∃ s' frag', pfFillupFragment s key id e timeout pools = some (s', .queued frag') ∧
      Holds s' key id frag' ∧ frag'.frQueue = l₁ ++ e :: l₂ := by
  obtain ⟨last, hlast, heq⟩ := h.fillup ht hv pools
  have hnode : (frag.remember e).frNode.fnAf = .AF_INET6 := by
    rw [sameKey_remember.1, h.isFor.1]
    exact haf
  have hentries : (frag.remember e).frEntries = frag.frEntries := by
    rw [remember]
    split <;> rfl
  obtain ⟨frag', hexit, hent⟩ := fillupExisting_fits
    h.frag_inv.1.remember hnode (frQueue_remember.symm ▸ hlast) (frQueue_remember.trans hq) ho
    (Nat.le_of_not_lt hv.bound) (hentries ▸ hlimit) s.fragments
  rw [hexit, bind_some] at heq
  obtain ⟨s₁, out, hs₁, hinv⟩ := pfFillupFragment_spec h.inv key id e timeout pools
  rw [heq] at hs₁
  cases hs₁
  exact ⟨_, frag', heq, h.entered hent hinv, hent.after⟩

end

def Pools.Succeed (pools : Pools) : Prop :=
  (pools.frag || pools.fragAgain) = true ∧ (pools.frnode || pools.frnodeAgain) = true

theorem getOrFlush_got {first second got : Bool}
    (h : getOrFlush first second s = some (s', got)) : got = (first || second) := by
  cases first with
  | true =>
    cases h
    rfl
  | false =>
    rw [getOrFlush, if_neg Bool.false_ne_true] at h
    simp only [bind_eq_bind, bind_eq_some_iff] at h
    obtain ⟨s₁, -, h⟩ := h
    cases h
    rfl

theorem nodeFor_isSome {node : Option PfFrnode} (hp : pools.Succeed)
    (h : nodeFor s key pools = some (s', node)) : node.isSome = true := by
  unfold nodeFor at h
  cases hn : s.frnodeTree key with
  | some frnode =>
    rw [hn] at h
    cases h
    rfl
  | none =>
    rw [hn] at h
    simp only [bind_eq_bind, bind_eq_some_iff] at h
    obtain ⟨⟨s₁, got⟩, hgot, h⟩ := h
    cases h
    rw [getOrFlush_got hgot, hp.2]
    rfl

theorem newFragment_entered (key : PfFrnodeKey) (id gen : BitVec 32) (hv : e.Valid) :
    ∃ frag, pfFrentInsert (newFragment key id gen e.feLen) e none = some (frag, none) ∧
      Entered e [] [] (newFragment key id gen e.feLen) frag := by
  have hpos : 0 < e.feLen := Nat.pos_of_ne_zero hv.len
  have hinv := newFragment_inv key id gen e.feLen
  have ho : InOrder ([] ++ e :: []) :=
    hinv.order.insert (Nat.lt_add_of_pos_right hpos) (Nat.zero_le _)
      (fun _ h => absurd h not_mem_nil) fun _ h => absurd h not_mem_nil
  rcases pfFrentInsert_spec hinv rfl ho (Nat.le_of_not_lt hv.bound) with
    ⟨-, hfull⟩ | ⟨frag, hi, hinv', hkey, hq⟩
  · exact (Nat.not_succ_le_zero 63 hfull).elim
  · obtain ⟨hmax, hgen⟩ := pfFrentInsert_frame hi
    exact ⟨frag, hi, hinv', hkey, hmax, hgen, rfl, hq⟩

theorem fillupNew_cases (hinv : s.Inv) (hn : ∀ f ∈ s.fragqueue, ¬f.IsFor key id) (hv : e.Valid)
    (pools : Pools) :
    (∃ s' frag, fillupNew s key id e pools = some (s', .queued frag) ∧ Holds s' key id frag ∧
        frag.frQueue = [e]) ∨
      ¬pools.Succeed ∧ ∃ s' reason, fillupNew s key id e pools = some (s', .dropped reason) := by
  have hpos : 0 < e.feLen := Nat.pos_of_ne_zero hv.len
  obtain ⟨s₀, out, hs₀, hinv₀⟩ := fillupNew_spec hinv hn hpos (Nat.le_of_not_lt hv.bound) pools
  obtain ⟨s₁, got, hs₁, hinv₁, hsub₁⟩ := getOrFlush_spec hinv pools.frag pools.fragAgain
  cases hg : got with
  | false =>
    refine .inr ⟨fun hp => ?_, _, _, by simp only [fillupNew, hs₁, hg]; rfl⟩
    rw [getOrFlush_got hs₁, hp.1] at hg
    exact nomatch hg
  | true =>
    subst hg
    obtain ⟨s₂, node, hs₂, hinv₂, hsub₂, hcount⟩ := nodeFor_spec hinv₁ key pools
    cases node with
    | none =>
      refine .inr ⟨fun hp => absurd (nodeFor_isSome hp hs₂) Bool.false_ne_true, _, _,
        by simp only [fillupNew, hs₁, bind_eq_bind, bind_some, if_true, hs₂]; rfl⟩
    | some frnode =>
      obtain ⟨frag, hfrag, hent⟩ := newFragment_entered key id frnode.fnGen hv
      have heq : fillupNew s key id e pools = some ({ s₂ with
          fragqueue := frag :: s₂.fragqueue
          frnodeTree := update s₂.frnodeTree key
            (some ⟨frnode.fnFragments + 1, frnode.fnGen + 1⟩) }, .queued frag) := by
        simp only [fillupNew, hs₁, bind_eq_bind, bind_some, if_true, hs₂, hfrag]
      refine .inl ⟨_, frag, heq, ⟨?_, ?_, ?_, ?_⟩, hent.after⟩
      · rw [heq] at hs₀
        cases hs₀
        exact hinv₀
      · have hfor : frag.IsFor key id := hent.key
        exact find?_cons_of_pos (by simpa using hfor)
      · refine ⟨⟨frnode.fnFragments + 1, frnode.fnGen + 1⟩, update_self .., ?_⟩
        rw [hent.gen]
        rw [BitVec.add_comm]
        exact BitVec.add_sub_cancel _ _
      · have hmax : frag.frMaxlen = e.feLen := hent.maxlen
        rw [MaxlenOk, hent.after, hmax]
        exact ⟨fun b hb => by simp_all, e, mem_cons_self, rfl⟩

section Lists

variable {α : Type} {a : α} {q full : List α}

theorem exists_place (h : q.Sublist full) (ha : a ∈ full) (hq : a ∉ q) :
    ∃ l₁ l₂, q = l₁ ++ l₂ ∧ (l₁ ++ a :: l₂).Sublist full := by
  obtain ⟨P, Q, rfl⟩ := append_of_mem ha
  obtain ⟨l₁, l₂, rfl, h₁, h₂⟩ := sublist_append_iff.mp h
  refine ⟨l₁, l₂, rfl, h₁.append ?_⟩
  rcases sublist_cons_iff.mp h₂ with h₂ | ⟨r, rfl, -⟩
  · exact h₂.cons_cons a
  · exact absurd (mem_append_right _ mem_cons_self) hq

end Lists

theorem InOrder.nodup (h : InOrder q) : q.Nodup :=
  h.pairwise.imp_of_mem fun {a b} ha _ hab heq => by
    have hpos : a.feOff < a.stop := h.pos a ha
    rw [← heq] at hab
    omega

theorem InOrder.disjoint (h : InOrder q) {a b : PfFrent} (ha : a ∈ q)
    (hb : b ∈ q) : a = b ∨ a.stop ≤ b.feOff ∨ b.stop ≤ a.feOff := by
  obtain ⟨P, Q, rfl⟩ := append_of_mem ha
  rcases mem_append.mp hb with hb | hb
  · exact .inr (.inr (h.before hb).1)
  · rcases mem_cons.mp hb with rfl | hb
    · exact .inl rfl
    · exact .inr (.inl (h.behind hb).1)

theorem not_complete_of_sublist (hfull : InOrder full)
    (hsub : frag.frQueue.Sublist full) (hne : frag.frQueue ≠ full) : ¬frag.Complete := by
  rintro ⟨last, hlast, hmff, hcover⟩
  obtain ⟨e, he, hq⟩ : ∃ e ∈ full, e ∉ frag.frQueue := by
    by_contra hall
    push Not at hall
    have hperm : full.Subperm frag.frQueue := subperm_of_subset hfull.nodup hall
    exact hne (hsub.eq_of_length_le hperm.length_le)
  have hlastq : last ∈ frag.frQueue := mem_of_getLast? hlast
  obtain ⟨P, Q, hPQ⟩ := append_of_mem (hsub.subset hlastq)
  rw [hPQ] at hfull he
  -- nothing can come after an entry without `feMff`
  have hP : e ∈ P := by
    rcases mem_append.mp he with he | he
    · exact he
    · rcases mem_cons.mp he with rfl | he
      · exact absurd hlastq hq
      · have := (hfull.behind he).2
        rw [hmff] at this
        exact nomatch this
  have hpos : e.feOff < e.stop := hfull.pos e (by simp [hP])
  have hlt : e.feOff < last.stop := by
    have h₁ := (hfull.before hP).1
    have h₂ : last.feOff < last.stop := hfull.pos last (by simp)
    omega
  obtain ⟨f, hf, hle, hstop⟩ := (hcover e.feOff).mp hlt
  rcases hfull.disjoint (hPQ ▸ hsub.subset hf) he with rfl | hd | hd
  · exact hq hf
  · omega
  · omega

/-- The queues that calls for the fragments answer with, one after the other; `none` when one is
not accepted. -/
def fillupAll (key : PfFrnodeKey) (id timeout : BitVec 32) :
    PfFrags → List (PfFrent × Pools) → Option (List PfFragment)
  | _, [] => some []
  | s, (frent, pools) :: l =>
    match pfFillupFragment s key id frent timeout pools with
    | some (s, .queued frag) => (fillupAll key id timeout s l).map (frag :: ·)
    | _ => none

theorem fillupAll_cons (h : fillupAll key id timeout s ((e, pools) :: l) = some frags) :
    ∃ s' frag rest, pfFillupFragment s key id e timeout pools = some (s', .queued frag) ∧
      fillupAll key id timeout s' l = some rest ∧ frags = frag :: rest := by
  unfold fillupAll at h
  cases hq : pfFillupFragment s key id e timeout pools with
  | none =>
    rw [hq] at h
    cases h
  | some r =>
    obtain ⟨s', out⟩ := r
    rw [hq] at h
    cases out with
    | dropped reason => cases h
    | queued frag =>
      obtain ⟨rest, hrest, rfl⟩ := map_eq_some_iff.mp h
      exact ⟨s', frag, rest, rfl, hrest, rfl⟩

theorem fillupAll_perm
    (h : Holds s key id frag) (haf : key.fnAf = .AF_INET6) (ht : timeout * PF_FRAG_STALE ≠ 0)
    (hrun : fillupAll key id timeout s l = some frags) :
    ∃ s' last, (frag :: frags).getLast? = some last ∧ Holds s' key id last ∧
      last.frQueue.Perm (l.map Prod.fst ++ frag.frQueue) ∧ ∀ e ∈ l.map Prod.fst, e.Valid := by
  induction l generalizing s frag frags with
  | nil =>
    cases hrun
    exact ⟨s, frag, rfl, h, .refl _, fun _ he => absurd he not_mem_nil⟩
  | cons p l ih =>
    obtain ⟨e, pools⟩ := p
    obtain ⟨s₁, frag₁, rest, hq, hrest, rfl⟩ := fillupAll_cons hrun
    obtain ⟨hholds, l₁, l₂, hl, hl'⟩ := h.queued haf ht hq
    obtain ⟨s₂, last, hlast, hholds₂, hperm, hvalid⟩ := ih hholds hrest
    refine ⟨s₂, last, hlast, hholds₂, ?_, ?_⟩
    · rw [hl'] at hperm
      rw [hl]
      exact hperm.trans ((perm_middle.append_left _).trans perm_middle)
    · intro a ha
      rcases mem_cons.mp ha with rfl | ha
      · exact valid_of_queued hq
      · exact hvalid a ha

structure Whole (full : List PfFrent) : Prop where
  order : InOrder full
  limit : ∀ i, FirstInClass.countIn pfFrentIndex full i ≤ PF_FRAG_ENTRY_LIMIT

theorem fillupAll_fits (hfull : Whole full)
    (haf : key.fnAf = .AF_INET6) (ht : timeout * PF_FRAG_STALE ≠ 0) (h : Holds s key id frag)
    (hsub : frag.frQueue.Sublist full) (hperm : (l.map Prod.fst ++ frag.frQueue).Perm full)
    (hv : ∀ e ∈ l.map Prod.fst, e.Valid) :
    ∃ frags s' last, fillupAll key id timeout s l = some frags ∧
      (frag :: frags).getLast? = some last ∧ Holds s' key id last ∧ last.frQueue = full ∧
      ∀ g ∈ (frag :: frags).dropLast, g.frHoles ≠ 0 := by
  induction l generalizing s frag with
  | nil =>
    refine ⟨[], s, frag, rfl, rfl, h, ?_, fun _ hg => absurd hg not_mem_nil⟩
    exact hsub.eq_of_length hperm.length_eq
  | cons p l ih =>
    obtain ⟨e, pools⟩ := p
    have hnodup : (e :: (l.map Prod.fst ++ frag.frQueue)).Nodup :=
      hperm.nodup_iff.mpr hfull.order.nodup
    have hnot : e ∉ frag.frQueue := fun hm =>
      (nodup_cons.mp hnodup).1 (mem_append_right _ hm)
    have hmem : e ∈ full := hperm.subset mem_cons_self
    obtain ⟨l₁, l₂, hq, hsub'⟩ := exists_place hsub hmem hnot
    have hlimit : frag.frEntries (pfFrentIndex e) < PF_FRAG_ENTRY_LIMIT := by
      have hcount : FirstInClass.countIn pfFrentIndex (l₁ ++ e :: l₂) (pfFrentIndex e) ≤
          PF_FRAG_ENTRY_LIMIT := Nat.le_trans hsub'.countP_le (hfull.limit _)
      rw [FirstInClass.countIn_insert, if_pos rfl] at hcount
      rw [h.frag_inv.1.entries, hq]
      omega
    obtain ⟨s₁, frag₁, hcall, hholds, hq₁⟩ := h.fits haf ht
      (hv e mem_cons_self) hq (hfull.order.sublist hsub') hlimit pools
    have hperm' : (l.map Prod.fst ++ frag₁.frQueue).Perm full := by
      rw [hq] at hperm
      rw [hq₁]
      exact ((perm_middle.append_left _).trans perm_middle).trans hperm
    obtain ⟨rest, s₂, last, hrest, hlast, hholds₂, hfin, hholes⟩ :=
      ih hholds (hq₁ ▸ hsub') hperm' fun a ha => hv a (mem_cons_of_mem _ ha)
    refine ⟨frag₁ :: rest, s₂, last, ?_, hlast, hholds₂, hfin, ?_⟩
    · rw [fillupAll, hcall]
      show (fillupAll key id timeout s₁ l).map _ = _
      rw [hrest, map_some]
    · intro g hg
      rcases mem_cons.mp hg with rfl | hg
      · have hpart : g.frQueue ≠ full := fun heq => hnot (heq ▸ hmem)
        rw [Ne, h.frag_inv.1.complete_iff h.frag_inv.2]
        exact not_complete_of_sublist hfull.order hsub hpart
      · exact hholes g hg

section Packet

def PfFrags.Reached (s : PfFrags) : Prop :=
  ∃ fragments calls, PfFrags.run ⟨[], fun _ => none, fragments⟩ calls = some s

theorem PfFrags.Reached.inv (h : s.Reached) : s.Inv := by
  obtain ⟨fragments, calls, hrun⟩ := h
  have hinit : (mk [] (fun _ => none) fragments).Inv :=
    ⟨⟨.nil, fun _ => rfl⟩, fun _ h => absurd h not_mem_nil⟩
  obtain ⟨s', hs', hinv⟩ := hinit.run calls
  rw [hrun] at hs'
  cases hs'
  exact hinv

variable {l : List (PfFrent × Pools)} {frags : List PfFragment}

section

variable (hinv : s.Inv) (hn : ∀ f ∈ s.fragqueue, ¬f.IsFor key id)

include hinv hn

theorem pfFillupFragment_new (hv : e.Valid) :
    pfFillupFragment s key id e timeout pools = fillupNew s key id e pools := by
  rw [pfFillupFragment_valid hv, pfFindFragment_none hinv hn]
  rfl

theorem first_queued (hq : pfFillupFragment s key id e timeout pools = some (s', .queued frag)) :
    Holds s' key id frag ∧ frag.frQueue = [e] := by
  have hv := valid_of_queued hq
  rw [pfFillupFragment_new hinv hn hv] at hq
  rcases fillupNew_cases hinv hn hv pools with ⟨s₁, frag₁, heq, hh, hq₁⟩ | ⟨-, s₁, reason, heq⟩
  · rw [heq] at hq
    cases hq
    exact ⟨hh, hq₁⟩
  · rw [heq] at hq
    cases hq

theorem first_fits (hv : e.Valid) (hp : pools.Succeed) (timeout : BitVec 32) :
    ∃ s' frag, pfFillupFragment s key id e timeout pools = some (s', .queued frag) ∧
      Holds s' key id frag ∧ frag.frQueue = [e] := by
  rw [pfFillupFragment_new hinv hn hv]
  rcases fillupNew_cases hinv hn hv pools with ⟨s₁, frag₁, heq, hh, hq₁⟩ | ⟨hnot, -⟩
  · exact ⟨s₁, frag₁, heq, hh, hq₁⟩
  · exact absurd hp hnot

end

theorem tiles (h : Holds s key id frag) (hholes : frag.frHoles = 0)
    (hperm : frag.frQueue.Perm q) : q.Pairwise (fun a b => a.stop ≤ b.feOff ∨ b.stop ≤ a.feOff) ∧
      ∃ total, ∀ x, x < total ↔ ∃ e ∈ q, e.feOff ≤ x ∧ x < e.stop := by
  obtain ⟨hfinv, hne⟩ := h.frag_inv
  obtain ⟨last, -, -, hcover⟩ := (hfinv.complete_iff hne).mp hholes
  refine ⟨?_, last.stop, fun x => ?_⟩
  · exact (hperm.pairwise_iff fun {a b} hab => Or.symm hab).mp
      (hfinv.order.pairwise.imp fun hab => .inl hab.1)
  · rw [hcover x]
    exact ⟨fun ⟨e, he, hx⟩ => ⟨e, hperm.subset he, hx⟩,
      fun ⟨e, he, hx⟩ => ⟨e, hperm.symm.subset he, hx⟩⟩

theorem fillupAll_whole (hinv : s.Inv) (hn : ∀ f ∈ s.fragqueue, ¬f.IsFor key id)
    (haf : key.fnAf = .AF_INET6) (ht : timeout * PF_FRAG_STALE ≠ 0)
    (hrun : fillupAll key id timeout s l = some frags) (hlast : frags.getLast? = some frag) :
    ∃ s', Holds s' key id frag ∧ frag.frQueue.Perm (l.map Prod.fst) ∧
      ∀ e ∈ l.map Prod.fst, e.Valid := by
  cases l with
  | nil =>
    cases hrun
    cases hlast
  | cons p l =>
    obtain ⟨e, pools⟩ := p
    obtain ⟨s₁, frag₁, rest, hq, hrest, rfl⟩ := fillupAll_cons hrun
    obtain ⟨hholds, hq₁⟩ := first_queued hinv hn hq
    obtain ⟨s₂, last, hlast₂, hholds₂, hperm, hvalid⟩ := fillupAll_perm hholds haf ht hrest
    rw [hlast] at hlast₂
    cases hlast₂
    rw [hq₁] at hperm
    refine ⟨s₂, hholds₂, hperm.trans (perm_append_singleton e _), fun a ha => ?_⟩
    rcases mem_cons.mp ha with rfl | ha
    · exact valid_of_queued hq
    · exact hvalid a ha

theorem fillupAll_any (hfull : Whole full) (hinv : s.Inv)
    (hn : ∀ f ∈ s.fragqueue, ¬f.IsFor key id) (haf : key.fnAf = .AF_INET6)
    (ht : timeout * PF_FRAG_STALE ≠ 0) (hne : l ≠ []) (hperm : (l.map Prod.fst).Perm full)
    (hv : ∀ e ∈ l.map Prod.fst, e.Valid) (hp : ∀ q ∈ l, q.2.Succeed) :
    ∃ frags s' last, fillupAll key id timeout s l = some frags ∧
      frags.getLast? = some last ∧ Holds s' key id last ∧ last.frQueue = full ∧
      ∀ g ∈ frags.dropLast, g.frHoles ≠ 0 := by
  cases l with
  | nil => exact absurd rfl hne
  | cons p l =>
    obtain ⟨e, pools⟩ := p
    obtain ⟨s₁, frag₁, hcall, hholds, hq₁⟩ := first_fits hinv hn
      (hv e mem_cons_self) (hp _ mem_cons_self) timeout
    have hsub : frag₁.frQueue.Sublist full := by
      rw [hq₁]
      exact singleton_sublist.mpr (hperm.subset mem_cons_self)
    obtain ⟨rest, s₂, last, hrest, hlast, hholds₂, hfin, hholes⟩ := fillupAll_fits hfull haf ht
      hholds hsub (hq₁ ▸ (perm_append_singleton e _).trans hperm)
      fun a ha => hv a (mem_cons_of_mem _ ha)
    refine ⟨frag₁ :: rest, s₂, last, ?_, hlast, hholds₂, hfin, hholes⟩
    rw [fillupAll, hcall]
    show (fillupAll key id timeout s₁ l).map _ = _
    rw [hrest, map_some]

end Packet

/-- If the fragments of an IPv6 packet are all accepted in one order and leave no hole, then they
are disjoint and make up the packet, and every order accepts them, has holes up to the last one,
and ends with the same queue. -/
theorem fragments_any_order {key : PfFrnodeKey} (haf : key.fnAf = .AF_INET6)
    (id timeout : BitVec 32) (ht : timeout * PF_FRAG_STALE ≠ 0)
    {s s' : PfFrags} (hs : s.Reached) (hs' : s'.Reached)
    (hn : ∀ f ∈ s.fragqueue, ¬f.IsFor key id) (hn' : ∀ f ∈ s'.fragqueue, ¬f.IsFor key id)
    {l m : List (PfFrent × Pools)} (hperm : (m.map Prod.fst).Perm (l.map Prod.fst))
    (hpools : ∀ q ∈ m, q.2.Succeed) {frags : List PfFragment} {frag : PfFragment}
    (hrun : fillupAll key id timeout s l = some frags) (hlast : frags.getLast? = some frag)
    (hholes : frag.frHoles = 0) :
    ((l.map Prod.fst).Pairwise (fun a b => a.stop ≤ b.feOff ∨ b.stop ≤ a.feOff) ∧
        ∃ total, ∀ x, x < total ↔ ∃ e ∈ l.map Prod.fst, e.feOff ≤ x ∧ x < e.stop) ∧
      ∃ frags' frag', fillupAll key id timeout s' m = some frags' ∧
        frags'.getLast? = some frag' ∧ frag'.frHoles = 0 ∧
        (∀ g ∈ frags'.dropLast, g.frHoles ≠ 0) ∧ frag'.frQueue = frag.frQueue ∧
        frag'.frEntries = frag.frEntries ∧ frag'.frFirstoff = frag.frFirstoff ∧
        frag'.frMaxlen = frag.frMaxlen := by
  obtain ⟨s₁, hholds, hq, hv⟩ := fillupAll_whole hs.inv hn haf ht hrun hlast
  have hinv := hholds.frag_inv.1
  have hfull : Whole frag.frQueue := ⟨hinv.order, fun i => hinv.entries i ▸ hinv.limit i⟩
  have hne : m ≠ [] := by
    rintro rfl
    have hlen := (hperm.trans hq.symm).length_eq
    exact hholds.frag_inv.2 (length_eq_zero_iff.mp hlen.symm)
  obtain ⟨frags', s₂, frag', hrun', hlast', hholds', hqueue, hbefore⟩ := fillupAll_any hfull
    hs'.inv hn' haf ht hne (hperm.trans hq.symm) (fun e he => hv e (hperm.subset he)) hpools
  have hinv' := hholds'.frag_inv.1
  refine ⟨tiles hholds hholes hq, frags', frag', hrun', hlast', ?_, hbefore, hqueue, ?_, ?_, ?_⟩
  · rw [hinv'.holes, hqueue, ← hinv.holes, hholes]
  · funext i
    rw [hinv'.entries, hinv.entries, hqueue]
  · funext i
    rw [hinv'.firstoff, hinv.firstoff, hqueue]
  · exact hholds'.maxlen.ext hholds.maxlen hqueue

def sampleKey : PfFrnodeKey := ⟨.v6 1#128 2#128, 6#8⟩

def sampleFrent (off len : Fin 65536) (mff : Bool) : PfFrent :=
  ⟨[], len, off, mff, len.isLt, off.isLt⟩

def allPools : Pools := ⟨true, true, true, true⟩

theorem fragments_any_order_pair :
    ∃ frags' frag', fillupAll sampleKey 7#32 60#32 ⟨[], fun _ => none, 0⟩
        [(sampleFrent 8 4 false, allPools), (sampleFrent 0 8 true, allPools)] = some frags' ∧
      frags'.getLast? = some frag' ∧ frag'.frHoles = 0 := by
  have hs : (mk [] (fun _ => none) 0).Reached := ⟨0, [], rfl⟩
  have hn : ∀ f ∈ (mk [] (fun _ => none) 0).fragqueue, ¬f.IsFor sampleKey 7#32 :=
    fun _ h => absurd h not_mem_nil
  obtain ⟨frags, frag, hrun, hlast, hholes⟩ : ∃ frags frag,
      fillupAll sampleKey 7#32 60#32 ⟨[], fun _ => none, 0⟩
          [(sampleFrent 0 8 true, allPools), (sampleFrent 8 4 false, allPools)] = some frags ∧
        frags.getLast? = some frag ∧ frag.frHoles = 0 := ⟨_, _, rfl, rfl, by decide⟩
  obtain ⟨-, frags', frag', hrun', hlast', hholes', -⟩ := fragments_any_order
    (show sampleKey.fnAf = .AF_INET6 from rfl) 7#32 60#32 (by decide) hs hs hn hn
    (l := [(sampleFrent 0 8 true, allPools), (sampleFrent 8 4 false, allPools)])
    (m := [(sampleFrent 8 4 false, allPools), (sampleFrent 0 8 true, allPools)])
    (.swap _ _ _) (by simp [Pools.Succeed, allPools]) hrun hlast hholes
  exact ⟨frags', frag', hrun', hlast', hholes'⟩

/-- With a timeout of zero every fragment begins a queue of its own. -/
theorem fragments_overlap_when_stale :
    ∃ frags frag, fillupAll sampleKey 7#32 0#32 ⟨[], fun _ => none, 0⟩
        [(sampleFrent 0 8 true, allPools), (sampleFrent 0 16 false, allPools)] = some frags ∧
      frags.getLast? = some frag ∧ frag.frHoles = 0 ∧
      ¬[sampleFrent 0 8 true, sampleFrent 0 16 false].Pairwise
        (fun a b => a.stop ≤ b.feOff ∨ b.stop ≤ a.feOff) := by
  refine ⟨_, _, rfl, rfl, ?_, ?_⟩
  · decide
  · decide

end Mbsd.Net.PfNorm
