import Mbsd.Net.PfNorm.Overlap

/-! The queues of fragments together: no packet has two, the nodes count theirs, and memory is won
back by freeing the oldest. -/

namespace Mbsd.Net.PfNorm

open Lib Sys List Option Function PfFrags

def NodeOk (n : Nat) : Option PfFrnode → Prop
  | none => n = 0
  | some frnode => frnode.fnFragments = n ∧ 1 ≤ n

def queuesOf (fragqueue : List PfFragment) (key : PfFrnodeKey) : Nat :=
  fragqueue.countP fun f => f.frNode = key

structure PfFrags.Linked (s : PfFrags) : Prop where
  distinct : s.fragqueue.Pairwise fun f g => ¬g.IsFor f.frNode f.frId
  nodes : ∀ key, NodeOk (queuesOf s.fragqueue key) (s.frnodeTree key)

structure PfFrags.Inv (s : PfFrags) : Prop extends s.Linked where
  frags : ∀ f ∈ s.fragqueue, f.Inv ∧ f.frQueue ≠ []

variable {s : PfFrags} {frag f g : PfFragment} {key : PfFrnodeKey} {id timeout : BitVec 32}
  {P Q : List PfFragment}

theorem queuesOf_insert : queuesOf (P ++ f :: Q) key =
    queuesOf (P ++ Q) key + if f.frNode = key then 1 else 0 := by
  simp only [queuesOf, countP_append, countP_cons, decide_eq_true_eq]
  omega

theorem queuesOf_eq_zero (h : queuesOf P key = 0) : ∀ f ∈ P, f.frNode ≠ key := fun f hf =>
  of_decide_eq_false (Bool.eq_false_iff.mpr (countP_eq_zero.mp h f hf))

theorem pfFreeFragment_spec (h : s.Linked) (hf : ∃ f ∈ s.fragqueue, f.IsFor key id)
    (hk : frag.frNode = key) (hi : frag.frId = id) :
    ∃ s', pfFreeFragment s frag = some s' ∧ s'.Linked ∧
      s'.fragqueue = s.fragqueue.eraseP (·.IsFor key id) := by
  subst hk hi
  obtain ⟨f, hf, hfor⟩ := hf
  obtain ⟨f, P, Q, -, hff, hs, he⟩ :=
    exists_of_eraseP (p := (·.IsFor frag.frNode frag.frId)) hf (by simpa using hfor)
  have hffor : f.IsFor frag.frNode frag.frId := by simpa using hff
  have hsub := eraseP_sublist (p := (·.IsFor frag.frNode frag.frId)) (l := s.fragqueue)
  have hcount := fun key => @queuesOf_insert f key P Q
  have hnode := h.nodes frag.frNode
  rw [hs, hcount, if_pos hffor.1] at hnode
  rw [pfFreeFragment]
  cases hn : s.frnodeTree frag.frNode with
  | none =>
    rw [hn] at hnode
    exact nomatch hnode
  | some frnode =>
    rw [hn] at hnode
    obtain ⟨hfn, -⟩ := hnode
    have hempty : frnode.fnFragments - 1 = 0 →
        ∀ f ∈ s.fragqueue.eraseP (·.IsFor frag.frNode frag.frId), f.frNode ≠ frag.frNode := by
      intro hzero
      rw [he]
      exact queuesOf_eq_zero (by omega)
    refine ⟨⟨s.fragqueue.eraseP (·.IsFor frag.frNode frag.frId), update s.frnodeTree frag.frNode
        (if frnode.fnFragments - 1 = 0 then none
          else some { frnode with fnFragments := frnode.fnFragments - 1 }),
      s.fragments - BitVec.ofNat 32 frag.frQueue.length⟩, ?_,
      ⟨h.distinct.sublist hsub, fun key => ?_⟩, rfl⟩
    · show (kassert _).bind (fun _ => (kassert _).bind _) = _
      rw [kassert_true (show frnode.fnFragments ≥ 1 by omega), bind_some,
        kassert_true hempty, bind_some]
    · have hold := h.nodes key
      rw [hs, hcount key] at hold
      show NodeOk (queuesOf (s.fragqueue.eraseP _) key) (update s.frnodeTree _ _ key)
      rw [he, update_apply]
      by_cases hkey : key = frag.frNode
      · rw [if_pos hkey, hkey]
        by_cases hzero : frnode.fnFragments - 1 = 0
        · rw [if_pos hzero, NodeOk]
          omega
        · rw [if_neg hzero]
          show frnode.fnFragments - 1 = _ ∧ _
          omega
      · rw [if_neg hkey]
        rwa [if_neg fun heq => hkey (heq.symm.trans hffor.1), Nat.add_zero] at hold

theorem PfFrags.Inv.free (h : s.Inv) (hf : f ∈ s.fragqueue) :
    ∃ s', pfFreeFragment s f = some s' ∧ s'.Inv ∧
      s'.fragqueue = s.fragqueue.eraseP (·.IsFor f.frNode f.frId) := by
  obtain ⟨s', hs', hl, hq⟩ := pfFreeFragment_spec h.toLinked ⟨f, hf, rfl, rfl⟩ rfl rfl
  refine ⟨s', hs', ⟨hl, fun g hg => ?_⟩, hq⟩
  rw [hq] at hg
  exact h.frags g (mem_of_mem_eraseP hg)

theorem PfFrags.Inv.fragments (h : s.Inv) (n : BitVec 32) : { s with fragments := n }.Inv :=
  ⟨⟨h.distinct, h.nodes⟩, h.frags⟩

theorem flushLoop_spec (h : s.Inv) (goal : BitVec 32) (n : Nat) :
    ∃ s', flushLoop goal n s = some s' ∧ s'.Inv ∧ s'.fragqueue.Sublist s.fragqueue := by
  induction n generalizing s with
  | zero => exact ⟨s, rfl, h, .refl _⟩
  | succ n ih =>
    rw [flushLoop]
    by_cases hgoal : goal < s.fragments
    · rw [if_pos hgoal]
      cases hlast : s.fragqueue.getLast? with
      | none => exact ⟨s, rfl, h, .refl _⟩
      | some frag =>
        obtain ⟨s₁, hs₁, hinv, hq⟩ := h.free (mem_of_getLast? hlast)
        obtain ⟨s₂, hs₂, hinv₂, hsub⟩ := ih hinv
        show ∃ s', (pfFreeFragment s frag).bind _ = some s' ∧ _
        rw [hs₁]
        exact ⟨s₂, hs₂, hinv₂, hsub.trans (hq ▸ eraseP_sublist)⟩
    · rw [if_neg hgoal]
      exact ⟨s, rfl, h, .refl _⟩

theorem getOrFlush_spec (h : s.Inv) (first second : Bool) :
    ∃ s' got, getOrFlush first second s = some (s', got) ∧ s'.Inv ∧
      s'.fragqueue.Sublist s.fragqueue := by
  cases first with
  | true => exact ⟨s, true, rfl, h, .refl _⟩
  | false =>
    obtain ⟨s', hs', hinv, hsub⟩ :=
      flushLoop_spec h (s.fragments * 9 / 10) s.fragqueue.length
    refine ⟨s', second, ?_, hinv, hsub⟩
    show (flushLoop _ _ _).bind _ = _
    rw [hs']
    rfl

theorem pfCreateFragment_spec (h : s.Inv) (first second : Bool) :
    ∃ s', pfCreateFragment first second s = some s' ∧ s'.Inv := by
  obtain ⟨s', got, hs', hinv, -⟩ := getOrFlush_spec h first second
  show ∃ s'', (getOrFlush _ _ _).bind _ = some s'' ∧ _
  rw [hs']
  cases got with
  | true => exact ⟨_, rfl, hinv.fragments _⟩
  | false => exact ⟨s', rfl, hinv⟩

theorem exists_isFor (h : s.fragqueue.find? (·.IsFor key id) = some f) :
    f ∈ s.fragqueue ∧ f.IsFor key id :=
  ⟨mem_of_find?_eq_some h, by simpa using find?_some h⟩

theorem PfFrags.Inv.moveToHead (h : s.Inv) (hf : s.fragqueue.find? (·.IsFor key id) = some f) :
    { s with fragqueue := f :: s.fragqueue.eraseP (·.IsFor key id) }.Inv := by
  obtain ⟨hmem, hfor⟩ := exists_isFor hf
  have hsplit := find?_eq_some_iff_append.mp hf
  obtain ⟨-, P, Q, hs, hP⟩ := hsplit
  have hP' : ∀ g ∈ P, ¬g.IsFor key id := fun g hg => by simpa using hP g hg
  have he : s.fragqueue.eraseP (·.IsFor key id) = P ++ Q := by
    rw [hs, eraseP_append_right _ (by simpa using hP'), eraseP_cons_of_pos (by simpa)]
  have hperm : (f :: (P ++ Q)).Perm s.fragqueue := hs ▸ perm_middle.symm
  rw [he]
  constructor
  case frags => exact fun g hg => h.frags g (hperm.subset hg)
  case toLinked =>
    constructor
    case nodes =>
      intro key
      have hcount := hperm.countP_eq fun f => decide (f.frNode = key)
      show NodeOk (countP _ (f :: (P ++ Q))) _
      rw [hcount]
      exact h.nodes key
    case distinct =>
      exact (hperm.pairwise_iff fun {f g} hfg hgf => hfg ⟨hgf.1.symm, hgf.2.symm⟩).mpr h.distinct

theorem not_isFor_of_eraseP (h : s.Inv) (hf : f ∈ s.fragqueue) (hfor : f.IsFor key id)
    (hg : g ∈ s.fragqueue.eraseP (·.IsFor key id)) : ¬g.IsFor key id := by
  obtain ⟨f, P, Q, hP, hff, hs, he⟩ :=
    exists_of_eraseP (p := (·.IsFor key id)) hf (by simpa using hfor)
  have hffor : f.IsFor key id := by simpa using hff
  rw [he] at hg
  rcases mem_append.mp hg with hg | hg
  · simpa using hP g hg
  · have hp := h.distinct
    rw [hs] at hp
    have := (pairwise_cons.mp (pairwise_append.mp hp).2.1).1 g hg
    rwa [hffor.1, hffor.2] at this

theorem pfFindFragment_spec (h : s.Inv) (key : PfFrnodeKey) (id timeout : BitVec 32) :
    ∃ s' found, pfFindFragment s key id timeout = some (s', found) ∧ s'.Inv ∧ match found with
      | none => ∀ f ∈ s'.fragqueue, ¬f.IsFor key id
      | some frag => ∃ fragqueue, s'.fragqueue = frag :: fragqueue ∧ frag.IsFor key id := by
  have hnode := h.nodes key
  unfold pfFindFragment
  cases hn : s.frnodeTree key with
  | none =>
    rw [hn] at hnode
    exact ⟨s, none, rfl, h, fun f hf hfor => queuesOf_eq_zero hnode f hf hfor.1⟩
  | some frnode =>
    rw [hn] at hnode
    have hpos : frnode.fnFragments ≥ 1 := hnode.1 ▸ hnode.2
    show ∃ s' found, (kassert _).bind _ = some (s', found) ∧ _
    rw [kassert_true hpos, bind_some]
    cases hf : s.fragqueue.find? (·.IsFor key id) with
    | none =>
      exact ⟨s, none, rfl, h, fun f hm => by simpa using find?_eq_none.mp hf f hm⟩
    | some frag =>
      obtain ⟨hmem, hfor⟩ := exists_isFor hf
      show ∃ s' found, (if frnode.fnGen - frag.frGen ≥ timeout * PF_FRAG_STALE then _ else _) =
        some (s', found) ∧ _
      by_cases hstale : frnode.fnGen - frag.frGen ≥ timeout * PF_FRAG_STALE
      · obtain ⟨s', hs', hinv, hq⟩ := h.free hmem
        rw [hfor.1, hfor.2] at hq
        rw [if_pos hstale, hs']
        exact ⟨s', none, rfl, hinv, fun g hg => not_isFor_of_eraseP h hmem hfor (hq ▸ hg)⟩
      · rw [if_neg hstale]
        exact ⟨_, some frag, rfl, h.moveToHead hf, _, rfl, hfor⟩

/-! Every queue of fragments, over any sequence of arrivals. -/

open Nat

inductive Call
  | create (first second : Bool)
  | fillup (key : PfFrnodeKey) (id : BitVec 32) (frent : PfFrent) (timeout : BitVec 32)
      (pools : Pools)
  /-- The queue is joined, or has expired. -/
  | free (key : PfFrnodeKey) (id : BitVec 32)

def PfFrags.call (s : PfFrags) : Call → Option PfFrags
  | .create first second => pfCreateFragment first second s
  | .fillup key id frent timeout pools =>
    (pfFillupFragment s key id frent timeout pools).map Prod.fst
  | .free key id =>
    match s.fragqueue.find? (·.IsFor key id) with
    | none => some s
    | some frag => pfFreeFragment s frag

def PfFrags.run (s : PfFrags) : List Call → Option PfFrags
  | [] => some s
  | c :: calls => do (← s.call c).run calls

def PfFragment.Complete (frag : PfFragment) : Prop :=
  ∃ last, frag.frQueue.getLast? = some last ∧ last.feMff = false ∧
    ∀ x, x < last.stop ↔ ∃ e ∈ frag.frQueue, e.feOff ≤ x ∧ x < e.stop

variable {s : PfFrags} {frag f : PfFragment} {e : PfFrent} {key : PfFrnodeKey} {id : BitVec 32}

theorem newFragment_inv (key : PfFrnodeKey) (id gen : BitVec 32) (maxlen : Nat) :
    (newFragment key id gen maxlen).Inv where
  order := ⟨fun _ h => absurd h not_mem_nil, fun _ h => absurd h not_mem_nil, .nil⟩
  bound _ h := absurd h not_mem_nil
  entries _ := rfl
  limit _ := Nat.zero_le _
  firstoff _ := rfl
  holes := rfl

theorem newFragment_insert (key : PfFrnodeKey) (id gen : BitVec 32) (maxlen : Nat)
    (hpos : 0 < e.feLen) (hb : e.stop ≤ IP_MAXPACKET) :
    ∃ frag, pfFrentInsert (newFragment key id gen maxlen) e none = some (frag, none) ∧
      frag.Inv ∧ frag.IsFor key id ∧ frag.frQueue ≠ [] := by
  have hinv := newFragment_inv key id gen maxlen
  have ho : InOrder ([] ++ e :: []) := by
    refine GapCount.InOrder.insert hinv.order (Nat.lt_add_of_pos_right hpos) (Nat.zero_le _) ?_ ?_
    · exact fun _ h => absurd h not_mem_nil
    · exact fun _ h => absurd h not_mem_nil
  rcases pfFrentInsert_spec hinv rfl ho hb with ⟨-, hfull⟩ | ⟨frag, hi, hinv', hkey, hq⟩
  · exact (not_succ_le_zero 63 hfull).elim
  · exact ⟨frag, hi, hinv', hkey, by simp [hq]⟩

theorem PfFrags.Inv.add (h : s.Inv) (hnew : ∀ g ∈ s.fragqueue, ¬g.IsFor key id)
    (hf : f.Inv ∧ f.frQueue ≠ []) (hfor : f.IsFor key id) {frnode : PfFrnode}
    (hn : frnode.fnFragments = queuesOf s.fragqueue key) (gen : BitVec 32) : { s with
      fragqueue := f :: s.fragqueue
      frnodeTree := update s.frnodeTree key (some ⟨frnode.fnFragments + 1, gen⟩) }.Inv := by
  constructor
  case frags =>
    intro g hg
    rcases mem_cons.mp hg with rfl | hg
    · exact hf
    · exact h.frags g hg
  case toLinked =>
    constructor
    case distinct =>
      refine pairwise_cons.mpr ⟨fun g hg => ?_, h.distinct⟩
      rw [hfor.1, hfor.2]
      exact hnew g hg
    case nodes =>
      intro k
      have hcount := @queuesOf_insert f k [] s.fragqueue
      show NodeOk (queuesOf (f :: s.fragqueue) k) (update s.frnodeTree _ _ k)
      rw [nil_append, nil_append] at hcount
      rw [hcount, update_apply, hfor.1]
      by_cases hk : k = key
      · rw [if_pos hk, if_pos hk.symm, hk]
        exact ⟨congrArg (· + 1) hn, succ_pos _⟩
      · rw [if_neg hk, if_neg (Ne.symm hk)]
        exact h.nodes k

theorem nodeFor_spec (h : s.Inv) (key : PfFrnodeKey) (pools : Pools) :
    ∃ s' node, nodeFor s key pools = some (s', node) ∧ s'.Inv ∧ s'.fragqueue.Sublist s.fragqueue ∧
      ∀ frnode ∈ node, frnode.fnFragments = queuesOf s'.fragqueue key := by
  have hnode := h.nodes key
  unfold nodeFor
  cases hn : s.frnodeTree key with
  | some frnode =>
    rw [hn] at hnode
    refine ⟨s, some frnode, rfl, h, .refl _, fun n hm => ?_⟩
    rw [← mem_some.mp hm]
    exact hnode.1
  | none =>
    rw [hn] at hnode
    obtain ⟨s', got, hs', hinv, hsub⟩ := getOrFlush_spec h pools.frnode pools.frnodeAgain
    rw [hs']
    refine ⟨s', if got then some ⟨0, 0⟩ else none, rfl, hinv, hsub, fun n hm => ?_⟩
    have hzero : queuesOf s'.fragqueue key = 0 :=
      le_zero.mp (Nat.le_trans hsub.countP_le (Nat.le_of_eq hnode))
    rw [hzero]
    cases got with
    | true => rw [← mem_some.mp hm]
    | false => exact nomatch hm

theorem fillupNew_spec (h : s.Inv) (hnew : ∀ f ∈ s.fragqueue, ¬f.IsFor key id)
    (hpos : 0 < e.feLen) (hb : e.stop ≤ IP_MAXPACKET) (pools : Pools) :
    ∃ s' out, fillupNew s key id e pools = some (s', out) ∧ s'.Inv := by
  obtain ⟨s₁, got, hs₁, hinv₁, hsub₁⟩ := getOrFlush_spec h pools.frag pools.fragAgain
  show ∃ s' out, (getOrFlush _ _ s).bind _ = some (s', out) ∧ _
  rw [hs₁]
  cases got with
  | false => exact ⟨_, _, rfl, hinv₁.fragments _⟩
  | true =>
    obtain ⟨s₂, node, hs₂, hinv₂, hsub₂, hcount⟩ := nodeFor_spec hinv₁ key pools
    show ∃ s' out, (nodeFor s₁ key pools).bind _ = some (s', out) ∧ _
    rw [hs₂]
    cases node with
    | none => exact ⟨_, _, rfl, hinv₂.fragments _⟩
    | some frnode =>
      obtain ⟨frag, hfrag, hfinv, hfor, hne⟩ :=
        newFragment_insert key id frnode.fnGen e.feLen hpos hb
      show ∃ s' out, (pfFrentInsert _ _ none).bind _ = some (s', out) ∧ _
      rw [hfrag]
      exact ⟨_, _, rfl, hinv₂.add (fun g hg => hnew g (hsub₁.subset (hsub₂.subset hg)))
        ⟨hfinv, hne⟩ hfor (hcount frnode rfl) (frnode.fnGen + 1)⟩

theorem fillupExit_spec {fragqueue : List PfFragment} {exit : Exit} (h : s.Inv)
    (hs : s.fragqueue = frag :: fragqueue) (hok : exit.Ok frag) :
    ∃ s' out, fillupExit s fragqueue exit = some (s', out) ∧ s'.Inv := by
  obtain ⟨label, frag', fragments⟩ := exit
  obtain ⟨hnode, hid⟩ := hok.key
  have hlinked : (mk (frag' :: fragqueue) s.frnodeTree fragments).Linked := by
    have hdistinct := h.distinct
    rw [hs, pairwise_cons] at hdistinct
    constructor
    case distinct =>
      refine pairwise_cons.mpr ⟨fun g hg => ?_, hdistinct.2⟩
      rw [hnode, hid]
      exact hdistinct.1 g hg
    case nodes =>
      intro key
      have hold := h.nodes key
      have hcount := @queuesOf_insert frag key [] fragqueue
      have hcount' := @queuesOf_insert frag' key [] fragqueue
      rw [hnode] at hcount'
      rw [hs, ← nil_append (frag :: fragqueue), hcount, ← hcount'] at hold
      exact hold
  have hrest : ∀ f ∈ fragqueue, f.Inv ∧ f.frQueue ≠ [] := fun f hf =>
    h.frags f (hs ▸ mem_cons_of_mem _ hf)
  have hkeep : frag'.frQueue ≠ [] →
      (mk (frag' :: fragqueue) s.frnodeTree fragments).Inv := fun hne =>
    ⟨hlinked, fun f hf => (mem_cons.mp hf).elim (fun hf => hf ▸ ⟨hok.inv, hne⟩) (hrest f)⟩
  have hfree : ∃ s' out, freeFragment frag' (mk (frag' :: fragqueue) s.frnodeTree fragments)
      = some (s', out) ∧ s'.Inv := by
    obtain ⟨s', hs', hl, hq⟩ := pfFreeFragment_spec hlinked
      ⟨frag', mem_cons_self, rfl, rfl⟩ rfl rfl
    rw [eraseP_cons_of_pos (by simp [PfFragment.IsFor])] at hq
    have hinv : s'.Inv := ⟨hl, fun f hf => hrest f (hq ▸ hf)⟩
    show ∃ s'' out, (pfFreeFragment _ _).bind _ = some (s'', out) ∧ _
    rw [hs']
    exact ⟨_, _, rfl, hinv.fragments _⟩
  cases label with
  | freeFragment => exact hfree
  | queued => exact ⟨_, _, rfl, hkeep (hok.nonempty.resolve_right nofun)⟩
  | dropFragment => exact ⟨_, _, rfl, (hkeep (hok.nonempty.resolve_right nofun)).fragments _⟩
  | freeIpv6Fragment =>
    show ∃ s' out, (if frag'.frNode.fnAf = .AF_INET then _ else _) = some (s', out) ∧ _
    by_cases haf : frag'.frNode.fnAf = .AF_INET
    · rw [if_pos haf]
      exact ⟨_, _, rfl, (hkeep (hok.nonempty.resolve_right nofun)).fragments _⟩
    · rw [if_neg haf]
      exact hfree

theorem pfFillupFragment_spec (h : s.Inv) (key : PfFrnodeKey) (id : BitVec 32) (e : PfFrent)
    (timeout : BitVec 32) (pools : Pools) :
    ∃ s' out, pfFillupFragment s key id e timeout pools = some (s', out) ∧ s'.Inv := by
  rw [pfFillupFragment]
  by_cases hlen : e.feLen = 0
  · rw [if_pos hlen]
    exact ⟨_, _, rfl, h.fragments _⟩
  rw [if_neg hlen]
  by_cases halign : e.feMff = true ∧ e.feLen &&& 7 ≠ 0
  · rw [if_pos halign]
    exact ⟨_, _, rfl, h.fragments _⟩
  rw [if_neg halign]
  by_cases hmax : e.feOff + e.feLen > IP_MAXPACKET
  · rw [if_pos hmax]
    exact ⟨_, _, rfl, h.fragments _⟩
  rw [if_neg hmax]
  have hpos : 0 < e.feLen := Nat.pos_of_ne_zero hlen
  have hb : e.stop ≤ IP_MAXPACKET := Nat.le_of_not_lt hmax
  obtain ⟨s₁, found, hs₁, hinv, hfound⟩ := pfFindFragment_spec h key id timeout
  show ∃ s' out, (pfFindFragment s key id timeout).bind _ = some (s', out) ∧ _
  rw [hs₁]
  cases found with
  | none => exact fillupNew_spec hinv hfound hpos hb pools
  | some frag =>
    obtain ⟨fragqueue, hq, -⟩ := hfound
    obtain ⟨hfrag, hne⟩ := hinv.frags frag (hq ▸ mem_cons_self)
    rw [bind_some]
    dsimp only
    cases hlast : frag.frQueue.getLast? with
    | none => exact absurd (getLast?_eq_none_iff.mp hlast) hne
    | some last =>
      obtain ⟨exit, hexit, hok⟩ := fillupExisting_spec hfrag.remember
        (frQueue_remember.symm ▸ hlast) hpos hb s₁.fragments
      show ∃ s' out, (fillupExisting _ _ _ _).bind _ = some (s', out) ∧ _
      rw [hexit, hq]
      exact fillupExit_spec hinv hq (hok.of_same sameKey_remember)

theorem PfFrags.Inv.call (h : s.Inv) (c : Call) : ∃ s', s.call c = some s' ∧ s'.Inv := by
  cases c with
  | create first second => exact pfCreateFragment_spec h first second
  | fillup key id frent timeout pools =>
    obtain ⟨s', out, hs', hinv⟩ := pfFillupFragment_spec h key id frent timeout pools
    refine ⟨s', ?_, hinv⟩
    show (pfFillupFragment _ _ _ _ _ _).map _ = _
    rw [hs', map_some]
  | free key id =>
    unfold PfFrags.call
    dsimp only
    cases hf : s.fragqueue.find? (·.IsFor key id) with
    | none => exact ⟨s, rfl, h⟩
    | some frag =>
      obtain ⟨s', hs', hinv, -⟩ := h.free (exists_isFor hf).1
      exact ⟨s', hs', hinv⟩

theorem PfFrags.Inv.run (h : s.Inv) (calls : List Call) : ∃ s', s.run calls = some s' ∧ s'.Inv := by
  induction calls generalizing s with
  | nil => exact ⟨s, rfl, h⟩
  | cons c calls ih =>
    obtain ⟨s₁, hs₁, hinv₁⟩ := h.call c
    obtain ⟨s₂, hs₂, hinv₂⟩ := ih hinv₁
    refine ⟨s₂, ?_, hinv₂⟩
    show (s.call c).bind _ = _
    rw [hs₁]
    exact hs₂

theorem PfFragment.Inv.complete_iff (h : f.Inv) (hne : f.frQueue ≠ []) :
    f.frHoles = 0 ↔ f.Complete := by
  obtain ⟨last, hlast⟩ := ne_none_iff_exists'.mp (mt getLast?_eq_none_iff.mp hne)
  have hzero := @GapCount.gapsFrom_eq_zero_iff _ _ _ _ _ true _ h.order
  rw [GapCount.lastMore, GapCount.lastStop, hlast, map_some, map_some,
    getD_some, getD_some] at hzero
  rw [h.holes, gaps, hzero]
  constructor
  · rintro ⟨hmff, hcover⟩
    refine ⟨last, hlast, hmff, fun x => ⟨hcover x (Nat.zero_le x), ?_⟩⟩
    rintro ⟨e, he, -, hx⟩
    exact Nat.lt_of_lt_of_le hx (stop_le_last h.order hlast he)
  · rintro ⟨last', hlast', hmff, hcover⟩
    obtain rfl : last = last' := some.inj (hlast.symm.trans hlast')
    exact ⟨hmff, fun x _ hx => (hcover x).mp hx⟩

/-- No assertion fails, whatever arrives; every queue has its entries in order and disjoint, its
entry points where they belong, and as many holes as it counts, none exactly when all of the
packet is there. -/
theorem fragment_queues_sound (fragments : BitVec 32) (calls : List Call) :
    ∃ s, PfFrags.run ⟨[], fun _ => none, fragments⟩ calls = some s ∧
      ∀ frag ∈ s.fragqueue, frag.Inv ∧ frag.frQueue ≠ [] ∧ (frag.frHoles = 0 ↔ frag.Complete) := by
  have hinit : (mk [] (fun _ => none) fragments).Inv :=
    ⟨⟨.nil, fun _ => rfl⟩, fun _ h => absurd h not_mem_nil⟩
  obtain ⟨s, hs, hinv⟩ := hinit.run calls
  refine ⟨s, hs, fun frag hf => ?_⟩
  obtain ⟨hfrag, hne⟩ := hinv.frags frag hf
  exact ⟨hfrag, hne, hfrag.complete_iff hne⟩

end Mbsd.Net.PfNorm
