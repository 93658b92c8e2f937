import Mbsd.Lib.FirstInClass
import Mbsd.Lib.Gaps
import Mbsd.Net.PfNorm.Model

/-! What one queue of fragments keeps: its order, its entry points, and the count of its holes. -/

namespace Mbsd.Net.PfNorm

open Lib Lib.FirstInClass Sys List Option Function PfFrent

variable {firstoff : Fin PF_FRAG_ENTRY_POINTS → Option PfFrent} {i : Fin PF_FRAG_ENTRY_POINTS}

def PfFrent.stop (frent : PfFrent) : Nat := frent.feOff + frent.feLen

abbrev InOrder (queue : List PfFrent) : Prop :=
  GapCount.InOrder PfFrent.feOff PfFrent.stop PfFrent.feMff 0 queue

abbrev gaps (queue : List PfFrent) : Nat :=
  GapCount.gapsFrom PfFrent.feOff PfFrent.stop PfFrent.feMff 0 true queue

structure PfFragment.Inv (frag : PfFragment) : Prop where
  order : InOrder frag.frQueue
  bound : ∀ e ∈ frag.frQueue, e.stop ≤ IP_MAXPACKET
  entries : ∀ i, frag.frEntries i = countIn pfFrentIndex frag.frQueue i
  limit : ∀ i, frag.frEntries i ≤ PF_FRAG_ENTRY_LIMIT
  firstoff : ∀ i, frag.frFirstoff i = firstIn pfFrentIndex frag.frQueue i
  holes : frag.frHoles = gaps frag.frQueue

def PfFragment.SameKey (f g : PfFragment) : Prop := g.frNode = f.frNode ∧ g.frId = f.frId

variable {frag : PfFragment} {e a b p : PfFrent} {l₁ l₂ q : List PfFrent}

theorem PfFragment.SameKey.refl (frag : PfFragment) : frag.SameKey frag := ⟨rfl, rfl⟩

theorem PfFragment.SameKey.trans {f g h : PfFragment} (hfg : f.SameKey g) (hgh : g.SameKey h) :
    f.SameKey h :=
  ⟨hgh.1.trans hfg.1, hgh.2.trans hfg.2⟩

theorem index_mono (h : a.feOff ≤ b.feOff) : pfFrentIndex a ≤ pfFrentIndex b :=
  Nat.div_le_div_right h

theorem ascending (h : InOrder q) : q.Pairwise fun a b => pfFrentIndex a ≤ pfFrentIndex b := by
  refine h.pairwise.imp_of_mem fun {a b} ha _ hab => index_mono ?_
  have hpos : a.feOff < a.stop := h.pos a ha
  omega

theorem gaps_lt (h : InOrder q) (hb : ∀ e ∈ q, e.stop ≤ IP_MAXPACKET) : gaps q < 65536 := by
  have hle := GapCount.gapsFrom_add_length_le (o := true) h
  cases hq : q.getLast? with
  | none =>
    rw [getLast?_eq_none_iff.mp hq]
    decide
  | some last =>
    have hmem : last ∈ q := mem_of_getLast? hq
    have hlen : 0 < q.length := length_pos_of_mem hmem
    have hlast : last.stop ≤ 65535 := hb last hmem
    rw [GapCount.lastStop, hq, map_some, getD_some] at hle
    rw [gaps]
    omega

theorem le_getLast (h : InOrder q) (hp : q.getLast? = some p) (ha : a ∈ q) : a.feOff ≤ p.feOff := by
  obtain ⟨q', rfl⟩ := getLast?_eq_some_iff.mp hp
  rcases mem_append.mp ha with ha | ha
  · exact Nat.le_of_lt (h.start_lt ha)
  · rw [mem_singleton.mp ha]

section

variable (h : InOrder (l₁ ++ e :: l₂))

include h

theorem joinedPrev_eq : joinedPrev e l₁.getLast? =
      some (if e.feOff = GapCount.lastStop stop 0 l₁ then 1 else 0) := by
  rw [GapCount.lastStop]
  cases hl : l₁.getLast? with
  | none => rfl
  | some prev =>
    have hlt : prev.feOff < e.feOff := h.start_lt (mem_of_getLast? hl)
    show (kassert (e.feOff ≠ 0)).bind _ = _
    rw [kassert_true (by omega)]
    rfl

theorem joinedNext_eq : joinedNext e l₂.head? = some (match l₂.head? with
      | none => if e.feMff then 0 else 1
      | some b => if b.feOff = e.stop then 1 else 0) := by
  cases l₂ with
  | nil =>
    rw [head?_nil, joinedNext]
    cases e.feMff <;> rfl
  | cons next l₂ =>
    have hmff : e.feMff = true := (h.behind mem_cons_self).2
    show (kassert (e.feMff = true)).bind _ = _
    rw [kassert_true hmff]
    rfl

theorem pfFrentHoles_eq : pfFrentHoles (l₁ ++ e :: l₂) e =
      some (1 - (GapCount.joins feOff stop feMff 0 l₁ e l₂ : Int)) := by
  rw [pfFrentHoles, Tailq.prev_append h.not_mem, Tailq.next_append h.not_mem, joinedPrev_eq h,
    joinedNext_eq h, GapCount.joins]
  show some _ = some _
  rw [some.injEq, Int.sub_sub]
  cases l₂ with
  | nil =>
    simp only [head?_nil]
    split <;> split <;> rfl
  | cons next l₂ =>
    simp only [head?_cons]
    split <;> split <;> rfl

theorem addHoles_eq (hb : ∀ a ∈ l₁ ++ e :: l₂, a.stop ≤ IP_MAXPACKET) : addHoles (gaps (l₁ ++ l₂))
        (1 - (GapCount.joins feOff stop feMff 0 l₁ e l₂ : Int)) = gaps (l₁ ++ e :: l₂) := by
  have hinsert := GapCount.gapsFrom_insert h
  have hlt := gaps_lt h hb
  rw [addHoles]
  simp only [gaps] at hlt ⊢
  omega

theorem addHoles_neg_eq (hb : ∀ a ∈ l₁ ++ e :: l₂, a.stop ≤ IP_MAXPACKET) :
    addHoles (gaps (l₁ ++ e :: l₂))
        (-(1 - (GapCount.joins feOff stop feMff 0 l₁ e l₂ : Int))) = gaps (l₁ ++ l₂) := by
  have hsub : (l₁ ++ l₂).Sublist (l₁ ++ e :: l₂) :=
    (sublist_cons_self e l₂).append_left l₁
  have hinsert := GapCount.gapsFrom_insert h
  have hlt := gaps_lt (h.sublist hsub) fun a ha => hb a (hsub.subset ha)
  rw [addHoles]
  simp only [gaps] at hlt ⊢
  omega

theorem insertQueue_eq : insertQueue e l₁.getLast? (l₁ ++ l₂) = some (l₁ ++ e :: l₂) := by
  cases hl : l₁.getLast? with
  | none =>
    rw [getLast?_eq_none_iff.mp hl]
    rfl
  | some prev =>
    have hle : prev.feOff + prev.feLen ≤ e.feOff := (h.before (mem_of_getLast? hl)).1
    obtain ⟨l, rfl⟩ := getLast?_eq_some_iff.mp hl
    rw [append_assoc, singleton_append] at h
    show (kassert _).bind _ = _
    rw [kassert_true hle, bind_some, append_assoc, singleton_append,
      Tailq.insertAfter_append h.not_mem, append_assoc]
    rfl

theorem index_getLast (ha : a ∈ l₁) (hi : pfFrentIndex a = pfFrentIndex e) :
    ∃ prev, l₁.getLast? = some prev ∧ pfFrentIndex prev = pfFrentIndex e := by
  cases hl : l₁.getLast? with
  | none => exact absurd (getLast?_eq_none_iff.mp hl ▸ ha) not_mem_nil
  | some prev =>
    have hle : a.feOff ≤ prev.feOff :=
      le_getLast (h.sublist (sublist_append_left l₁ _)) hl ha
    have hlt : prev.feOff < e.feOff := h.start_lt (mem_of_getLast? hl)
    exact ⟨prev, rfl, le_antisymm (index_mono (Nat.le_of_lt hlt)) (hi ▸ index_mono hle)⟩

theorem index_lt_of_mem (hn : ∀ a ∈ l₁, pfFrentIndex a ≠ pfFrentIndex e) :
    ∀ p ∈ l₁.getLast?, pfFrentIndex p < pfFrentIndex e := fun p hp =>
  have hmem : p ∈ l₁ := mem_of_getLast? hp
  lt_of_le_of_ne (index_mono (Nat.le_of_lt (h.start_lt hmem))) (hn p hmem)

end

theorem update_firstIn (h : ∀ a ∈ l₁, pfFrentIndex a ≠ pfFrentIndex e) :
    update (firstIn pfFrentIndex (l₁ ++ l₂)) (pfFrentIndex e) (some e) =
      firstIn pfFrentIndex (l₁ ++ e :: l₂) := by
  funext i
  rw [firstIn_insert_of_not_mem h, update_apply]

theorem insertFirstoff_eq (h : InOrder (l₁ ++ e :: l₂)) :
    insertFirstoff e l₁.getLast? (firstIn pfFrentIndex (l₁ ++ l₂)) =
      some (firstIn pfFrentIndex (l₁ ++ e :: l₂)) := by
  rw [insertFirstoff]
  cases hf : firstIn pfFrentIndex (l₁ ++ l₂) (pfFrentIndex e) with
  | none =>
    have hn : ∀ a ∈ l₁, pfFrentIndex a ≠ pfFrentIndex e := fun a ha =>
      firstIn_eq_none.mp hf a (mem_append_left _ ha)
    show (kassert _).bind _ = _
    rw [kassert_true (index_lt_of_mem h hn), bind_some, update_firstIn hn]
  | some first =>
    show (if e.feOff < first.feOff then _ else _) = _
    by_cases hlt : e.feOff < first.feOff
    · have hn : ∀ a ∈ l₁, pfFrentIndex a ≠ pfFrentIndex e := fun a ha hi =>
        Nat.lt_asymm hlt (h.start_lt (mem_of_firstIn_append ha hi hf))
      rw [if_pos hlt]
      show (kassert _).bind _ = _
      rw [kassert_true (index_lt_of_mem h hn), bind_some, update_firstIn hn]
    · have hmem : first ∈ l₁ := by
        rcases mem_append.mp (mem_of_firstIn hf) with hm | hm
        · exact hm
        · exact absurd (h.lt_start hm) hlt
      obtain ⟨prev, hprev, hi⟩ := index_getLast h hmem (cls_of_firstIn hf)
      rw [if_neg hlt, hprev]
      show (kassert _).bind (fun _ => (kassert _).bind _) = _
      rw [kassert_true isSome_some, bind_some, kassert_true (by simpa using hi), bind_some]
      congr 1
      funext i
      exact (firstIn_insert_of_mem hmem (cls_of_firstIn hf)).symm

theorem erase_firstIn (h : ∀ a ∈ l₁, pfFrentIndex a ≠ pfFrentIndex e)
    (hp : InOrder (l₁ ++ e :: l₂)) : update (firstIn pfFrentIndex (l₁ ++ e :: l₂)) (pfFrentIndex e)
        (l₂.head?.filter fun b => pfFrentIndex b = pfFrentIndex e) =
      firstIn pfFrentIndex (l₁ ++ l₂) := by
  funext i
  rw [update_apply]
  split
  next hi =>
    rw [hi, firstIn_erase h]
    exact (pairwise_append.mp (ascending hp)).2.1
  next hi => rw [firstIn_insert_of_not_mem h, if_neg hi]

theorem removeFirstoff_eq (h : InOrder (l₁ ++ e :: l₂)) :
    removeFirstoff e (l₁ ++ e :: l₂) (firstIn pfFrentIndex (l₁ ++ e :: l₂)) =
      some (firstIn pfFrentIndex (l₁ ++ l₂)) := by
  rw [removeFirstoff, Tailq.next_append h.not_mem, Tailq.prev_append h.not_mem]
  by_cases hn : ∀ a ∈ l₁, pfFrentIndex a ≠ pfFrentIndex e
  · have hf : firstIn pfFrentIndex (l₁ ++ e :: l₂) (pfFrentIndex e) = some e := by
      rw [firstIn_insert_of_not_mem hn, if_pos rfl]
    rw [hf]
    show (if e.feOff = e.feOff then _ else _) = _
    rw [if_pos rfl, ← erase_firstIn hn h]
    cases l₂ with
    | nil => rfl
    | cons next l₂ =>
      have hle : e.feOff + e.feLen ≤ next.feOff := (h.behind mem_cons_self).1
      show (kassert _).bind _ = _
      rw [kassert_true hle, bind_some, head?_cons, filter_some]
      by_cases hi : pfFrentIndex next = pfFrentIndex e
      · rw [if_pos hi, if_pos (decide_eq_true hi)]
      · rw [if_neg hi, if_neg (by simpa using hi)]
  · have hex : ∃ a ∈ l₁, pfFrentIndex a = pfFrentIndex e := by simpa using hn
    obtain ⟨a, ha, hi⟩ := hex
    have hsame : firstIn pfFrentIndex (l₁ ++ e :: l₂) = firstIn pfFrentIndex (l₁ ++ l₂) := by
      funext i
      exact firstIn_insert_of_mem ha hi
    cases hf : firstIn pfFrentIndex (l₁ ++ e :: l₂) (pfFrentIndex e) with
    | none => exact absurd hi (firstIn_eq_none.mp hf a (mem_append_left _ ha))
    | some first =>
      have hlt : first.feOff < e.feOff := h.start_lt (mem_of_firstIn_append ha hi hf)
      obtain ⟨prev, hprev, hpi⟩ := index_getLast h ha hi
      have hle : prev.feOff + prev.feLen ≤ e.feOff :=
        (h.before (mem_of_getLast? hprev)).1
      show (if first.feOff = e.feOff then _ else _) = _
      rw [if_neg (by omega), hprev]
      show (kassert _).bind (fun _ => (kassert _).bind (fun _ => (kassert _).bind _)) = _
      rw [kassert_true hlt, bind_some, kassert_true hle, bind_some,
        kassert_true hpi, bind_some, hsame]

/-! The operations on one queue of fragments: insertion, removal, and the search for the entry
before a fragment. -/

variable {frag : PfFragment} {e f a b p : PfFrent} {l₁ l₂ q : List PfFrent}

theorem PfFragment.Inv.firstoff_eq (h : frag.Inv) :
    frag.frFirstoff = firstIn pfFrentIndex frag.frQueue := funext h.firstoff

theorem pfFrentInsert_spec (h : frag.Inv) (hq : frag.frQueue = l₁ ++ l₂)
    (ho : InOrder (l₁ ++ e :: l₂)) (hb : e.stop ≤ IP_MAXPACKET) :
    pfFrentInsert frag e l₁.getLast? = some (frag, some .ENOBUFS) ∧
        frag.frEntries (pfFrentIndex e) ≥ PF_FRAG_ENTRY_LIMIT ∨
      ∃ frag', pfFrentInsert frag e l₁.getLast? = some (frag', none) ∧ frag'.Inv ∧
        frag.SameKey frag' ∧ frag'.frQueue = l₁ ++ e :: l₂ := by
  by_cases hfull : frag.frEntries (pfFrentIndex e) ≥ PF_FRAG_ENTRY_LIMIT
  · exact .inl ⟨if_pos hfull, hfull⟩
  have hbound : ∀ a ∈ l₁ ++ e :: l₂, a.stop ≤ IP_MAXPACKET := by
    intro a ha
    have hold := h.bound a
    rw [hq] at hold
    rcases mem_append.mp ha with ha | ha
    · exact hold (mem_append_left _ ha)
    · rcases mem_cons.mp ha with rfl | ha
      · exact hb
      · exact hold (mem_append_right _ ha)
  refine .inr ⟨{ frag with
    frEntries := update frag.frEntries (pfFrentIndex e)
      ((frag.frEntries (pfFrentIndex e) + 1) % 256)
    frQueue := l₁ ++ e :: l₂
    frFirstoff := firstIn pfFrentIndex (l₁ ++ e :: l₂)
    frHoles := gaps (l₁ ++ e :: l₂) }, ?_, ?_, ⟨rfl, rfl⟩, rfl⟩
  · rw [pfFrentInsert, if_neg hfull, hq, h.firstoff_eq, hq, insertQueue_eq ho]
    rw [insertFirstoff_eq ho]
    show (pfFrentHoles _ _).bind _ = _
    rw [pfFrentHoles_eq ho, bind_some, h.holes, hq, addHoles_eq ho hbound]
  · have hlt : frag.frEntries (pfFrentIndex e) < 64 := Nat.lt_of_not_le hfull
    have hentries := h.entries
    rw [hq] at hentries
    constructor
    case order => exact ho
    case bound => exact hbound
    case firstoff => exact fun i => rfl
    case holes => rfl
    case entries =>
      intro i
      show update frag.frEntries (pfFrentIndex e) _ i = _
      rw [countIn_insert, update_apply, ← hentries i]
      split
      next hi =>
        rw [hi]
        omega
      next => rfl
    case limit =>
      intro i
      show update frag.frEntries (pfFrentIndex e) _ i ≤ _
      rw [update_apply]
      split
      · rw [PF_FRAG_ENTRY_LIMIT]
        omega
      · exact h.limit i

theorem pfFrentRemove_spec (h : frag.Inv) (hq : frag.frQueue = l₁ ++ e :: l₂) :
    ∃ frag', pfFrentRemove frag e = some frag' ∧ frag'.Inv ∧ frag.SameKey frag' ∧
      frag'.frQueue = l₁ ++ l₂ := by
  have ho : InOrder (l₁ ++ e :: l₂) := hq ▸ h.order
  have hbound : ∀ a ∈ l₁ ++ e :: l₂, a.stop ≤ IP_MAXPACKET := hq ▸ h.bound
  have hentries := h.entries
  rw [hq] at hentries
  have hpos : frag.frEntries (pfFrentIndex e) > 0 := by
    rw [hentries, countIn_insert, if_pos rfl]
    exact Nat.succ_pos _
  have hsub : (l₁ ++ l₂).Sublist (l₁ ++ e :: l₂) :=
    (sublist_cons_self e l₂).append_left l₁
  refine ⟨{ frag with
    frHoles := gaps (l₁ ++ l₂)
    frFirstoff := firstIn pfFrentIndex (l₁ ++ l₂)
    frQueue := l₁ ++ l₂
    frEntries := update frag.frEntries (pfFrentIndex e)
      (frag.frEntries (pfFrentIndex e) - 1) }, ?_, ?_, ⟨rfl, rfl⟩, rfl⟩
  · rw [pfFrentRemove, hq, h.firstoff_eq, hq, pfFrentHoles_eq ho, h.holes, hq]
    rw [removeFirstoff_eq ho]
    show (kassert _).bind _ = _
    rw [kassert_true hpos, bind_some, addHoles_neg_eq ho hbound, Tailq.erase_append_cons ho.not_mem]
  · constructor
    case order => exact ho.sublist hsub
    case bound => exact fun a ha => hbound a (hsub.subset ha)
    case firstoff => exact fun i => rfl
    case holes => rfl
    case entries =>
      intro i
      have hi := hentries i
      rw [countIn_insert] at hi
      show update frag.frEntries (pfFrentIndex e) _ i = _
      rw [update_apply]
      split
      next heq =>
        rw [if_pos heq] at hi
        rw [← heq, hi]
        exact Nat.add_sub_cancel _ _
      next heq => rw [hi, if_neg heq, Nat.add_zero]
    case limit =>
      intro i
      show update frag.frEntries (pfFrentIndex e) _ i ≤ _
      rw [update_apply]
      split
      next heq => exact Nat.le_trans (Nat.sub_le _ _) (h.limit _)
      next => exact h.limit i

theorem firstoffFrom_eq_some
    (h : firstoffFrom firstoff i = some f) :
    ∃ j, i ≤ j ∧ firstoff j = some f ∧ ∀ k, i ≤ k → k < j → firstoff k = none := by
  obtain ⟨l, j, l', hl, hj, hn⟩ := findSome?_eq_some_iff.mp h
  have hle : i ≤ j := by
    by_contra hlt
    rw [if_neg hlt] at hj
    exact nomatch hj
  rw [if_pos hle] at hj
  refine ⟨j, hle, hj, fun k hik hkj => ?_⟩
  have hsorted := pairwise_lt_finRange PF_FRAG_ENTRY_POINTS
  rw [hl] at hsorted
  have hmem : k ∈ l ++ j :: l' := hl ▸ mem_finRange k
  rcases mem_append.mp hmem with hk | hk
  · have := hn k hk
    rwa [if_pos hik] at this
  · rcases mem_cons.mp hk with rfl | hk
    · exact absurd hkj (lt_irrefl _)
    · have hjk : j < k := (pairwise_cons.mp (pairwise_append.mp hsorted).2.1).1 k hk
      exact absurd hkj (lt_asymm hjk)

theorem firstoffFrom_eq_none
    {j : Fin PF_FRAG_ENTRY_POINTS} (h : firstoffFrom firstoff i = none) (hij : i ≤ j) :
    firstoff j = none := by
  have := findSome?_eq_none_iff.mp h j (mem_finRange j)
  rwa [if_pos hij] at this

theorem closest_append (h₁ : ∀ a ∈ l₁, a.feOff ≤ e.feOff) (h₂ : ∀ b ∈ l₂, e.feOff < b.feOff) :
    some (closest e f (l₁ ++ l₂)) = (f :: l₁).getLast? := by
  induction l₁ generalizing f with
  | nil =>
    cases l₂ with
    | nil => rfl
    | cons b l₂ =>
      have hlt : b.feOff > e.feOff := h₂ b mem_cons_self
      rw [nil_append, closest, if_pos hlt]
      rfl
  | cons a l₁ ih =>
    have hle : ¬a.feOff > e.feOff := Nat.not_lt.mpr (h₁ a mem_cons_self)
    rw [cons_append, closest, if_neg hle, ih fun b hb => h₁ b (mem_cons_of_mem _ hb)]
    rfl

theorem exists_split (h : InOrder q) (n : Nat) :
    ∃ l₁ l₂, q = l₁ ++ l₂ ∧ (∀ a ∈ l₁, a.feOff ≤ n) ∧ ∀ b ∈ l₂, n < b.feOff := by
  induction q with
  | nil => exact ⟨[], [], rfl, fun _ h => absurd h not_mem_nil, fun _ h => absurd h not_mem_nil⟩
  | cons a q ih =>
    by_cases ha : a.feOff ≤ n
    · obtain ⟨l₁, l₂, rfl, h₁, h₂⟩ := ih (h.sublist (sublist_cons_self a q))
      refine ⟨a :: l₁, l₂, rfl, fun b hb => ?_, h₂⟩
      rcases mem_cons.mp hb with rfl | hb
      · exact ha
      · exact h₁ b hb
    · refine ⟨[], a :: q, rfl, fun _ h => absurd h not_mem_nil, fun b hb => ?_⟩
      rcases mem_cons.mp hb with rfl | hb
      · exact Nat.lt_of_not_le ha
      · have hfirst : InOrder ([] ++ a :: q) := h
        exact Nat.lt_trans (Nat.lt_of_not_le ha) (hfirst.lt_start hb)

/-- The entry found at an entry point that has `b` or comes before it: `b` itself, when no entry
before `b` is of that window or a later one. -/
theorem firstoffFrom_behind (h : InOrder (l₁ ++ b :: l₂)) (he : e.feOff < b.feOff)
    (h₁ : ∀ a ∈ l₁, a.feOff ≤ e.feOff)
    (hf : firstoffFrom (firstIn pfFrentIndex (l₁ ++ b :: l₂)) (pfFrentIndex e) = some f)
    (hlt : e.feOff < f.feOff) : f = b := by
  obtain ⟨j, hj, hfj, hnone⟩ := firstoffFrom_eq_some hf
  have hfb : f ∈ b :: l₂ := by
    rcases mem_append.mp (mem_of_firstIn hfj) with hm | hm
    · exact absurd (h₁ f hm) (Nat.not_le.mpr hlt)
    · exact hm
  rcases mem_cons.mp hfb with hfb | hfb
  · exact hfb
  · have hbf : b.feOff < f.feOff := h.lt_start hfb
    have hbj : pfFrentIndex b ≤ j := cls_of_firstIn hfj ▸ index_mono (Nat.le_of_lt hbf)
    have hjb : ¬pfFrentIndex b < j := fun hbj =>
      firstIn_eq_none.mp (hnone _ (index_mono (Nat.le_of_lt he)) hbj) b (by simp) rfl
    have hb : pfFrentIndex b = j := le_antisymm hbj (not_lt.mp hjb)
    rw [append_cons] at hfj
    have hmem : f ∈ l₁ ++ [b] :=
      mem_of_firstIn_append (mem_append_right _ mem_cons_self) hb hfj
    rcases mem_append.mp hmem with hm | hm
    · exact absurd (h₁ f hm) (Nat.not_le.mpr hlt)
    · exact mem_singleton.mp hm

theorem pfFrentPrevious_spec (h : frag.Inv) (hq : frag.frQueue ≠ []) (e : PfFrent) :
    ∃ l₁ l₂, frag.frQueue = l₁ ++ l₂ ∧ pfFrentPrevious frag e = some l₁.getLast? ∧
      (∀ a ∈ l₁, a.feOff ≤ e.feOff) ∧ ∀ b ∈ l₂, e.feOff < b.feOff := by
  obtain ⟨l₁, l₂, hsplit, h₁, h₂⟩ := exists_split h.order e.feOff
  refine ⟨l₁, l₂, hsplit, ?_, h₁, h₂⟩
  have ho : InOrder (l₁ ++ l₂) := hsplit ▸ h.order
  unfold pfFrentPrevious
  cases hlast : frag.frQueue.getLast? with
  | none => exact absurd (getLast?_eq_none_iff.mp hlast) hq
  | some last =>
    show (if last.feOff ≤ e.feOff then _ else _) = _
    cases l₂ with
    | nil =>
      rw [hsplit, append_nil] at hlast
      rw [if_pos (h₁ last (mem_of_getLast? hlast)), hlast]
    | cons b l₂ =>
      have hb : e.feOff < b.feOff := h₂ b mem_cons_self
      have hbl : b.feOff ≤ last.feOff := le_getLast h.order hlast (by simp [hsplit])
      rw [if_neg (by omega), h.firstoff_eq, hsplit]
      cases hf : firstoffFrom (firstIn pfFrentIndex (l₁ ++ b :: l₂)) (pfFrentIndex e) with
      | none =>
        have hnone := firstoffFrom_eq_none hf (index_mono (Nat.le_of_lt hb))
        exact absurd rfl (firstIn_eq_none.mp hnone b (by simp))
      | some f =>
        show (if f.feOff > e.feOff then _ else _) = _
        by_cases hlt : f.feOff > e.feOff
        · obtain rfl := firstoffFrom_behind ho hb h₁ hf hlt
          rw [if_pos hlt, Tailq.prev_append ho.not_mem]
          cases hp : l₁.getLast? with
          | none => rfl
          | some p =>
            show (kassert _).bind _ = _
            rw [kassert_true (h₁ p (mem_of_getLast? hp))]
            rfl
        · obtain ⟨j, -, hfj, -⟩ := firstoffFrom_eq_some hf
          have hmem : f ∈ l₁ := by
            rcases mem_append.mp (mem_of_firstIn hfj) with hm | hm
            · exact hm
            · exact absurd (h₂ f hm) hlt
          obtain ⟨P, Q, rfl⟩ := append_of_mem hmem
          rw [append_assoc, cons_append] at ho
          rw [if_neg hlt, append_assoc, cons_append, Tailq.after_append ho.not_mem,
            closest_append (fun a ha => h₁ a (by simp [ha])) h₂, getLast?_append,
            getLast?_cons, some_or]

/-- The last entry of the queue whose offset is not above that of `frent`, by going through all. -/
def linearPrevious (frent : PfFrent) (queue : List PfFrent) : Option PfFrent :=
  queue.foldl (fun prev e => if e.feOff ≤ frent.feOff then some e else prev) none

theorem linearPrevious_append (h₁ : ∀ a ∈ l₁, a.feOff ≤ e.feOff)
    (h₂ : ∀ b ∈ l₂, e.feOff < b.feOff) : linearPrevious e (l₁ ++ l₂) = l₁.getLast? := by
  have hskip : ∀ prev : Option PfFrent,
      l₂.foldl (fun prev b => if b.feOff ≤ e.feOff then some b else prev) prev = prev := by
    induction l₂ with
    | nil => exact fun _ => rfl
    | cons b l₂ ih =>
      intro prev
      have hb : ¬b.feOff ≤ e.feOff := Nat.not_le.mpr (h₂ b mem_cons_self)
      rw [foldl_cons, if_neg hb, ih fun c hc => h₂ c (mem_cons_of_mem b hc)]
  have htake : ∀ prev : Option PfFrent,
      l₁.foldl (fun prev a => if a.feOff ≤ e.feOff then some a else prev) prev =
        l₁.getLast?.or prev := by
    induction l₁ with
    | nil => exact fun _ => rfl
    | cons a l₁ ih =>
      intro prev
      rw [foldl_cons, if_pos (h₁ a mem_cons_self),
        ih fun c hc => h₁ c (mem_cons_of_mem a hc), getLast?_cons]
      cases l₁.getLast? <;> rfl
  rw [linearPrevious, foldl_append, htake, hskip, or_none]

theorem pfFrentPrevious_eq_linear (h : frag.Inv) (hq : frag.frQueue ≠ []) (frent : PfFrent) :
    pfFrentPrevious frag frent = some (linearPrevious frent frag.frQueue) := by
  obtain ⟨l₁, l₂, hsplit, hprev, h₁, h₂⟩ := pfFrentPrevious_spec h hq frent
  rw [hprev, hsplit, linearPrevious_append h₁ h₂]

section Witness

def frentAt (off : BitVec 16) (len : BitVec 12) : PfFrent :=
  ⟨[], len.toNat, off.toNat, true, Nat.lt_trans len.isLt (by decide), off.isLt⟩

def twoFrents : PfFragment where
  frFirstoff := firstIn pfFrentIndex [frentAt 8 8, frentAt 4096 8]
  frEntries := countIn pfFrentIndex [frentAt 8 8, frentAt 4096 8]
  frQueue := [frentAt 8 8, frentAt 4096 8]
  frId := 0
  frGen := 0
  frMaxlen := 4104
  frHoles := gaps [frentAt 8 8, frentAt 4096 8]
  frNode := ⟨.v4 0 0, 0⟩

theorem twoFrents_inv : twoFrents.Inv where
  order := ⟨by decide, by decide, by decide⟩
  bound := by decide
  entries _ := rfl
  limit := by decide
  firstoff _ := rfl
  holes := rfl

theorem pfFrentPrevious_eq_linear_twoFrents :
    pfFrentPrevious twoFrents (frentAt 5000 8) = some (some (frentAt 4096 8)) ∧
      pfFrentPrevious twoFrents (frentAt 16 8) = some (some (frentAt 8 8)) ∧
      pfFrentPrevious twoFrents (frentAt 0 8) = some none :=
  ⟨pfFrentPrevious_eq_linear twoFrents_inv (cons_ne_nil _ _) (frentAt 5000 8),
    pfFrentPrevious_eq_linear twoFrents_inv (cons_ne_nil _ _) (frentAt 16 8),
    pfFrentPrevious_eq_linear twoFrents_inv (cons_ne_nil _ _) (frentAt 0 8)⟩

end Witness

end Mbsd.Net.PfNorm
