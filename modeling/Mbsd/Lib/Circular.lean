import Mathlib.Data.List.Chain
import Mbsd.Lib.Tailq

/-! Circular lists by pointers.  Every node has a link in both directions; the nodes are the heads
of the lists and the elements that may be on one. -/

namespace Mbsd.Lib.Circular

open List Function

structure Links (ν : Type) where
  next : ν → ν
  prev : ν → ν

namespace Links

variable {ν : Type} [DecidableEq ν] (L : Links ν)

def setNext (a b : ν) : Links ν := { L with next := Function.update L.next a b }

def setPrev (a b : ν) : Links ν := { L with prev := Function.update L.prev a b }

/-- `CIRCQ_INIT` -/
def init (elem : ν) : Links ν := (L.setNext elem elem).setPrev elem elem

/-- `CIRCQ_INSERT_HEAD` -/
def insertHead (list elem : ν) : Links ν :=
  let L := L.setNext elem (L.next list)
  let L := L.setPrev (L.next list) elem
  let L := L.setNext list elem
  L.setPrev elem list

/-- `CIRCQ_INSERT_TAIL` -/
def insertTail (list elem : ν) : Links ν :=
  let L := L.setPrev elem (L.prev list)
  let L := L.setNext elem list
  let L := L.setNext (L.prev list) elem
  L.setPrev list elem

/-- `CIRCQ_EMPTY` -/
def Empty (list : ν) : Prop := L.next list = list

instance (list : ν) : Decidable (L.Empty list) := inferInstanceAs (Decidable (_ = _))

/-- `CIRCQ_CONCAT` -/
def concat (fst snd : ν) : Links ν :=
  if L.Empty snd then L
  else
    let L := L.setNext (L.prev fst) (L.next snd)
    let L := L.setPrev (L.next snd) (L.prev fst)
    let L := L.setNext (L.prev snd) fst
    let L := L.setPrev fst (L.prev snd)
    L.init snd

/-- `CIRCQ_REMOVE`.  The links of the element stay as they are. -/
def remove (elem : ν) : Links ν :=
  let L := L.setPrev (L.next elem) (L.prev elem)
  L.setNext (L.prev elem) (L.next elem)

variable {L : Links ν} {list elem : ν}

theorem insertHead_eq (hne : elem ≠ list) : L.insertHead list elem =
    ⟨Function.update (Function.update L.next elem (L.next list)) list elem,
      Function.update (Function.update L.prev (L.next list) elem) elem list⟩ := by
  simp only [insertHead, setNext, setPrev, update_of_ne hne.symm]

theorem insertTail_eq (hne : elem ≠ list) : L.insertTail list elem =
    ⟨Function.update (Function.update L.next elem list) (L.prev list) elem,
      Function.update (Function.update L.prev elem (L.prev list)) list elem⟩ := by
  simp only [insertTail, setNext, setPrev, update_of_ne hne.symm]

theorem concat_eq {fst snd : ν} (hempty : ¬L.Empty snd) (hne : L.prev fst ≠ snd) :
    L.concat fst snd =
      ⟨Function.update (Function.update (Function.update L.next (L.prev fst) (L.next snd))
          (L.prev snd) fst) snd snd,
        Function.update (Function.update (Function.update L.prev (L.next snd) (L.prev fst)) fst
          (L.prev snd)) snd snd⟩ := by
  have hmore : L.next snd ≠ snd := hempty
  rw [concat, if_neg hempty]
  simp only [init, setNext, setPrev, update_of_ne hne.symm, update_of_ne hmore.symm]

end Links

variable {ν : Type} {L L' : Links ν} {l : List ν}

/-- The nodes are linked one to the next. -/
def Seg (L : Links ν) : List ν → Prop := List.IsChain fun a b => L.next a = b ∧ L.prev b = a

theorem Seg.frame (h : Seg L l) (hnext : ∀ a ∈ l.dropLast, L'.next a = L.next a)
    (hprev : ∀ b ∈ l.tail, L'.prev b = L.prev b) : Seg L' l := by
  induction h with
  | nil => exact .nil
  | singleton a => exact .singleton a
  | @cons_cons a b l hab _ ih =>
    refine .cons_cons ?_ (ih (fun c hc => hnext c ?_) fun c hc => hprev c ?_)
    · rw [hnext a (by simp), hprev b mem_cons_self]
      exact hab
    · rw [dropLast_cons_of_ne_nil (cons_ne_nil b l)]
      exact mem_cons_of_mem _ hc
    · exact mem_cons_of_mem _ hc

section Round

variable {κ α : Type} {L L' : Links (κ ⊕ α)} {k j : κ} {a b : α} {l : List α}

/-- From a head over the elements back to it. -/
def round (k : κ) (l : List α) : List (κ ⊕ α) := .inl k :: (l.map .inr ++ [.inl k])

theorem mem_elems {x : κ ⊕ α} {rest : List (κ ⊕ α)} :
    x ∈ l.map .inr ++ rest ↔ (∃ b ∈ l, x = .inr b) ∨ x ∈ rest := by
  rw [mem_append, mem_map]
  simp only [eq_comm]

theorem mem_round {x : κ ⊕ α} : x ∈ round k l ↔ x = .inl k ∨ ∃ b ∈ l, x = .inr b := by
  rw [round, mem_cons, mem_elems, mem_singleton]
  constructor
  · rintro (h | h | h)
    · exact .inl h
    · exact .inr h
    · exact .inl h
  · exact Or.imp_right .inl

theorem Seg.last (h : Seg L (round k l)) :
    ∃ l₀, (.inl k :: l.map .inr : List (κ ⊕ α)) = l₀ ++ [L.prev (.inl k)] ∧
      L.next (L.prev (.inl k)) = .inl k ∧ Seg L (l₀ ++ [L.prev (.inl k)]) := by
  obtain ⟨l₀, z, hz⟩ := eq_nil_or_concat' (.inl k :: l.map .inr : List (κ ⊕ α)) |>.resolve_left
    (cons_ne_nil _ _)
  rw [round, ← cons_append, hz, append_assoc] at h
  obtain ⟨hseg, ⟨hnext, hprev⟩, -⟩ := isChain_append_cons_cons.mp h
  rw [hprev]
  exact ⟨l₀, hz, hnext, hseg⟩

theorem Seg.first (h : Seg L (round k l)) :
    ∃ l₁, (l.map .inr ++ [.inl k] : List (κ ⊕ α)) = L.next (.inl k) :: l₁ ∧
      L.prev (L.next (.inl k)) = .inl k ∧ Seg L (L.next (.inl k) :: l₁) := by
  cases hy : (l.map .inr ++ [.inl k] : List (κ ⊕ α)) with
  | nil => exact absurd hy (by simp)
  | cons y l₁ =>
    rw [round, hy] at h
    obtain ⟨⟨hnext, hprev⟩, hseg⟩ := isChain_cons_cons.mp h
    rw [hnext]
    exact ⟨l₁, rfl, hprev, hseg⟩

end Round

open Circq

variable {κ α : Type} {L L' : Links (κ ⊕ α)} {q : κ → List α} {k j fst snd : κ} {a b : α}

/-- The lists that the links form. -/
structure Rings (L : Links (κ ⊕ α)) (q : κ → List α) : Prop where
  exclusive : Exclusive q
  ring : ∀ k, Seg L (round k (q k))

section

variable (h : Rings L q)

include h

theorem Rings.round_unique {x : κ ⊕ α} (hk : x ∈ round k (q k))
    (hj : x ∈ round j (q j)) : k = j := by
  rcases mem_round.mp hk with rfl | ⟨a, ha, rfl⟩
  · rcases mem_round.mp hj with heq | ⟨b, -, heq⟩
    · exact Sum.inl.inj heq
    · cases heq
  · rcases mem_round.mp hj with heq | ⟨b, hb, heq⟩
    · cases heq
    · cases heq
      exact h.exclusive.unique ha hb

theorem Rings.prev_mem (k : κ) : L.prev (.inl k) ∈ round k (q k) := by
  obtain ⟨l₀, hl, -⟩ := (h.ring k).last
  have hmem : L.prev (.inl k) ∈ (.inl k :: (q k).map .inr : List (κ ⊕ α)) := by
    rw [hl]
    exact mem_append_right _ (mem_singleton_self _)
  rw [round, ← cons_append]
  exact mem_append_left _ hmem

theorem Rings.next_mem (k : κ) : L.next (.inl k) ∈ round k (q k) := by
  obtain ⟨l₁, hl, -⟩ := (h.ring k).first
  rw [round, hl]
  exact mem_cons_of_mem _ mem_cons_self

theorem Rings.empty_iff [DecidableEq κ] [DecidableEq α] : L.Empty (.inl k) ↔ q k = [] := by
  obtain ⟨l₁, hl, -⟩ := (h.ring k).first
  cases hq : q k with
  | nil =>
    rw [hq] at hl
    exact iff_of_true (cons.inj hl).1.symm rfl
  | cons a l =>
    rw [hq] at hl
    refine iff_of_false (fun hempty => ?_) (cons_ne_nil a l)
    rw [Links.Empty, ← (cons.inj hl).1] at hempty
    cases hempty

theorem Rings.next_head {l : List α} (hq : q k = a :: l) : L.next (.inl k) = .inr a := by
  obtain ⟨l₁, hl, -⟩ := (h.ring k).first
  rw [hq] at hl
  exact (cons.inj hl).1.symm

theorem Rings.head?_eq (k : κ) :
    some (L.next (.inl k)) = ((q k).map .inr ++ [.inl k] : List (κ ⊕ α)).head? := by
  obtain ⟨l₁, hl, -⟩ := (h.ring k).first
  rw [hl, head?_cons]

theorem Rings.next_first {l : List α} (hq : q k = a :: l) :
    some (L.next (.inr a)) = (l.map .inr ++ [.inl k] : List (κ ⊕ α)).head? := by
  have hring := h.ring k
  rw [hq, round, map_cons, cons_append] at hring
  obtain ⟨-, hrest⟩ := isChain_cons_cons.mp hring
  obtain ⟨y, l₁, hy⟩ : ∃ y l₁, (l.map .inr ++ [.inl k] : List (κ ⊕ α)) = y :: l₁ :=
    exists_cons_of_ne_nil (by simp)
  rw [hy] at hrest ⊢
  rw [(isChain_cons_cons.mp hrest).1.1, head?_cons]

end

theorem Rings.nil (h : ∀ k, L.next (.inl k) = .inl k ∧ L.prev (.inl k) = .inl k) :
    Rings L fun _ : κ => ([] : List α) :=
  ⟨.nil, fun k => .cons_cons (h k) (.singleton _)⟩

theorem Rings.ne_of_round {x y : κ ⊕ α} (h : Rings L q) (hne : j ≠ k) (hx : x ∈ round j (q j))
    (hy : y ∈ round k (q k)) : x ≠ y := fun heq => hne (h.round_unique hx (heq ▸ hy))

theorem ne_of_notMem {x : κ ⊕ α} (ha : ∀ j, a ∉ q j) (hx : x ∈ round j (q j)) : x ≠ .inr a := by
  rcases mem_round.mp hx with rfl | ⟨b, hb, rfl⟩
  · exact Sum.inl_ne_inr
  · exact fun heq => ha j (Sum.inr.inj heq ▸ hb)

theorem Rings.other (h : Rings L q) (hnext : ∀ x ∈ round j (q j), L'.next x = L.next x)
    (hprev : ∀ x ∈ round j (q j), L'.prev x = L.prev x) : Seg L' (round j (q j)) :=
  (h.ring j).frame (fun x hx => hnext x (dropLast_subset _ hx))
    fun x hx => hprev x (mem_of_mem_tail hx)

theorem head_mem (k : κ) (l : List α) : .inl k ∈ round k l := mem_cons_self

theorem nodup_front {l : List α} (k : κ) (hl : l.Nodup) :
    (.inl k :: l.map .inr : List (κ ⊕ α)).Nodup := by
  refine nodup_cons.mpr ⟨fun hmem => ?_, hl.map fun _ _ => Sum.inr.inj⟩
  obtain ⟨b, -, hb⟩ := mem_map.mp hmem
  exact Sum.inr_ne_inl hb

theorem nodup_back {l : List α} (k : κ) (hl : l.Nodup) :
    (l.map .inr ++ [.inl k] : List (κ ⊕ α)).Nodup :=
  nodup_append_comm.mp (nodup_front k hl)

variable [DecidableEq κ] [DecidableEq α]

theorem Rings.insertTail (h : Rings L q) (ha : ∀ j, a ∉ q j) :
    Rings (L.insertTail (.inl k) (.inr a)) (insertTail q k a) := by
  refine ⟨h.exclusive.insertTail ha, fun j => ?_⟩
  rw [Links.insertTail_eq Sum.inr_ne_inl, Circq.insertTail]
  by_cases hj : j = k
  · subst hj
    obtain ⟨l₀, hl, hnext, hseg⟩ := (h.ring j).last
    have hnodup := nodup_front j (h.exclusive.nodup j)
    rw [hl] at hnodup
    obtain ⟨-, -, hlast⟩ := nodup_append.mp hnodup
    have hin {x : κ ⊕ α} (hx : x ∈ l₀ ++ [L.prev (.inl j)]) : x ∈ round j (q j) := by
      rw [← hl] at hx
      exact mem_append_left _ hx
    have hz : L.prev (.inl j) ≠ .inr a := ne_of_notMem ha (h.prev_mem j)
    rw [update_self, round, map_append, ← cons_append, ← cons_append, hl,
      append_assoc, append_assoc]
    refine isChain_append_cons_cons.mpr ⟨hseg.frame (fun x hx => ?_) fun x hx => ?_, ⟨?_, ?_⟩,
      .cons_cons ⟨?_, ?_⟩ (.singleton _)⟩
    · rw [dropLast_concat] at hx
      dsimp only
      rw [update_of_ne (hlast x hx _ (mem_singleton_self _)),
        update_of_ne (ne_of_notMem ha (hin (mem_append_left _ hx)))]
    · rw [← hl, tail_cons] at hx
      obtain ⟨b, hb, rfl⟩ := mem_map.mp hx
      dsimp only
      rw [update_of_ne Sum.inr_ne_inl,
        update_of_ne (ne_of_notMem ha (mem_round.mpr (.inr ⟨b, hb, rfl⟩)))]
    · exact update_self ..
    · dsimp only
      rw [update_of_ne Sum.inr_ne_inl, update_self]
    · dsimp only
      rw [update_of_ne hz.symm, update_self]
    · exact update_self ..
  · rw [update_of_ne hj]
    refine h.other (fun x hx => ?_) fun x hx => ?_
    · dsimp only
      rw [update_of_ne (h.ne_of_round hj hx (h.prev_mem k)), update_of_ne (ne_of_notMem ha hx)]
    · dsimp only
      rw [update_of_ne (h.ne_of_round hj hx (head_mem k (q k))), update_of_ne (ne_of_notMem ha hx)]

theorem Rings.insertHead (h : Rings L q) (ha : ∀ j, a ∉ q j) :
    Rings (L.insertHead (.inl k) (.inr a)) (insertHead q k a) := by
  refine ⟨h.exclusive.insertHead ha, fun j => ?_⟩
  rw [Links.insertHead_eq Sum.inr_ne_inl, Circq.insertHead]
  by_cases hj : j = k
  · subst hj
    obtain ⟨l₁, hl, hprev, hseg⟩ := (h.ring j).first
    have hnodup := nodup_back j (h.exclusive.nodup j)
    rw [hl] at hnodup
    have hfirst := (nodup_cons.mp hnodup).1
    have hin {x : κ ⊕ α} (hx : x ∈ L.next (.inl j) :: l₁) : x ∈ round j (q j) := by
      rw [← hl] at hx
      exact mem_cons_of_mem _ hx
    have hy : L.next (.inl j) ≠ .inr a := ne_of_notMem ha (h.next_mem j)
    rw [update_self, round, map_cons, cons_append, hl]
    refine .cons_cons ⟨?_, ?_⟩ (.cons_cons ⟨?_, ?_⟩ (hseg.frame (fun x hx => ?_) fun x hx => ?_))
    · exact update_self ..
    · exact update_self ..
    · dsimp only
      rw [update_of_ne Sum.inr_ne_inl, update_self]
    · dsimp only
      rw [update_of_ne hy, update_self]
    · rw [← hl, dropLast_concat] at hx
      obtain ⟨b, hb, rfl⟩ := mem_map.mp hx
      dsimp only
      rw [update_of_ne Sum.inr_ne_inl,
        update_of_ne (ne_of_notMem ha (mem_round.mpr (.inr ⟨b, hb, rfl⟩)))]
    · rw [tail_cons] at hx
      dsimp only
      rw [update_of_ne (ne_of_notMem ha (hin (mem_cons_of_mem _ hx))),
        update_of_ne (ne_of_mem_of_not_mem hx hfirst)]
  · rw [update_of_ne hj]
    refine h.other (fun x hx => ?_) fun x hx => ?_
    · dsimp only
      rw [update_of_ne (h.ne_of_round hj hx (head_mem k (q k))), update_of_ne (ne_of_notMem ha hx)]
    · dsimp only
      rw [update_of_ne (ne_of_notMem ha hx), update_of_ne (h.ne_of_round hj hx (h.next_mem k))]

theorem Rings.remove (h : Rings L q) (ha : a ∈ q k) : Rings (L.remove (.inr a)) (remove q a) := by
  refine ⟨h.exclusive.remove, fun j => ?_⟩
  obtain ⟨P, Q, hq⟩ := append_of_mem ha
  have hnodup := h.exclusive.nodup k
  rw [hq] at hnodup
  obtain ⟨hP, haQ, hPQ⟩ := nodup_append.mp hnodup
  have hQ := (nodup_cons.mp haQ).2
  have haP : a ∉ P := fun hmem => hPQ a hmem a mem_cons_self rfl
  -- the neighbours of the element
  obtain ⟨l₀, z, hz⟩ := (eq_nil_or_concat' (.inl k :: P.map .inr : List (κ ⊕ α))).resolve_left
    (cons_ne_nil _ _)
  obtain ⟨y, l₁, hy⟩ : ∃ y l₁, (Q.map .inr ++ [.inl k] : List (κ ⊕ α)) = y :: l₁ :=
    exists_cons_of_ne_nil (by simp)
  have hring := h.ring k
  rw [hq, round, map_append, map_cons, append_assoc, ← cons_append, hz,
    cons_append, hy, append_assoc] at hring
  obtain ⟨hfront, ⟨hnextz, hprev⟩, hback⟩ := isChain_append_cons_cons.mp hring
  obtain ⟨⟨hnext, hprevy⟩, hback⟩ := isChain_cons_cons.mp hback
  have hzin : z ∈ (.inl k :: P.map .inr : List (κ ⊕ α)) := by
    rw [hz]
    exact mem_append_right _ (mem_singleton_self z)
  have hyin : y ∈ (Q.map .inr ++ [.inl k] : List (κ ⊕ α)) := by
    rw [hy]
    exact mem_cons_self
  have hya : y ≠ .inr a := by
    rcases mem_elems.mp hyin with ⟨b, hb, rfl⟩ | hb
    · exact fun heq => (nodup_cons.mp haQ).1 (Sum.inr.inj heq ▸ hb)
    · rw [mem_singleton.mp hb]
      exact Sum.inl_ne_inr
  have heq : L.remove (.inr a) = ⟨update L.next z y, update L.prev y z⟩ := by
    simp only [Links.remove, Links.setNext, Links.setPrev, hnext, hprev, update_of_ne hya.symm]
  rw [heq]
  by_cases hj : j = k
  · subst hj
    have hnodupz := nodup_front j hP
    rw [hz] at hnodupz
    have hnodupy := nodup_back j hQ
    rw [hy] at hnodupy
    rw [h.exclusive.remove_eq ha, update_self, hq, Tailq.erase_append_cons haP, round,
      map_append, append_assoc, ← cons_append, hz, hy, append_assoc]
    refine isChain_append_cons_cons.mpr ⟨Seg.frame hfront (fun x hx => ?_) fun x hx => ?_,
      ⟨?_, ?_⟩, Seg.frame hback (fun x hx => ?_) fun x hx => ?_⟩
    · rw [dropLast_concat] at hx
      exact update_of_ne
        ((nodup_append.mp hnodupz).2.2 x hx z (mem_singleton_self z)) ..
    · rw [← hz, tail_cons] at hx
      obtain ⟨b, hb, rfl⟩ := mem_map.mp hx
      refine update_of_ne (fun hby => ?_) ..
      rw [← hby] at hyin
      rcases mem_elems.mp hyin with ⟨c, hc, hbc⟩ | hb'
      · exact hPQ b hb c (mem_cons_of_mem _ hc) (Sum.inr.inj hbc)
      · exact Sum.inr_ne_inl (mem_singleton.mp hb')
    · exact update_self ..
    · exact update_self ..
    · rw [← hy, dropLast_concat] at hx
      obtain ⟨b, hb, rfl⟩ := mem_map.mp hx
      refine update_of_ne (fun hbz => ?_) ..
      rw [← hbz] at hzin
      rcases mem_cons.mp hzin with hb' | hb'
      · exact Sum.inr_ne_inl hb'
      · obtain ⟨c, hc, hcb⟩ := mem_map.mp hb'
        exact hPQ c hc b (mem_cons_of_mem _ hb) (Sum.inr.inj hcb)
    · rw [tail_cons] at hx
      exact update_of_ne
        (ne_of_mem_of_not_mem hx (nodup_cons.mp hnodupy).1) ..
  · have hzround : z ∈ round k (q k) := by
      rw [mem_round, hq]
      rcases mem_cons.mp hzin with rfl | hz
      · exact .inl rfl
      · obtain ⟨b, hb, rfl⟩ := mem_map.mp hz
        exact .inr ⟨b, mem_append_left _ hb, rfl⟩
    have hyround : y ∈ round k (q k) := by
      rw [mem_round, hq]
      rcases mem_elems.mp hyin with ⟨b, hb, rfl⟩ | hy
      · exact .inr ⟨b, mem_append_right _ (mem_cons_of_mem _ hb), rfl⟩
      · exact .inl (mem_singleton.mp hy)
    rw [h.exclusive.remove_eq ha, update_of_ne hj]
    exact h.other (fun x hx => update_of_ne (h.ne_of_round hj hx hzround) ..)
      fun x hx => update_of_ne (h.ne_of_round hj hx hyround) ..

theorem Rings.concat (h : Rings L q) (hne : fst ≠ snd) :
    Rings (L.concat (.inl fst) (.inl snd)) (concat q fst snd) := by
  refine ⟨h.exclusive.concat hne, fun j => ?_⟩
  cases hq : q snd with
  | nil =>
    have hsame : Circq.concat q fst snd = q := by
      rw [Circq.concat, hq, append_nil, ← hq, update_eq_self, update_eq_self]
    rw [hsame, Links.concat, if_pos (h.empty_iff.mpr hq)]
    exact h.ring j
  | cons b l =>
    have hempty : ¬L.Empty (.inl snd) := fun hempty => by
      rw [h.empty_iff.mp hempty] at hq
      cases hq
    have hy := h.next_head hq
    obtain ⟨l₀, hl, -, hfront⟩ := (h.ring fst).last
    obtain ⟨m₀, hm, -, hback⟩ := (h.ring snd).last
    obtain ⟨m₀, rfl⟩ : ∃ m, m₀ = .inl snd :: m := by
      cases m₀ with
      | nil => rw [hq] at hm; exact absurd hm (by simp)
      | cons x m => exact ⟨m, by rw [(cons.inj hm).1]⟩
    have helems : ((q snd).map .inr : List (κ ⊕ α)) = m₀ ++ [L.prev (.inl snd)] :=
      (cons.inj hm).2
    have hwmem : L.prev (.inl snd) ∈ ((q snd).map .inr : List (κ ⊕ α)) := by
      rw [helems]
      exact mem_append_right _ (mem_singleton_self _)
    -- the four nodes next to the two heads
    have hz := h.prev_mem fst
    have hw := h.prev_mem snd
    have hyin := h.next_mem snd
    have hzw := h.ne_of_round hne hz hw
    have hzsnd := h.ne_of_round hne hz (head_mem snd (q snd))
    have hwsnd : L.prev (.inl snd) ≠ .inl snd := by
      obtain ⟨c, -, hc⟩ := mem_map.mp hwmem
      rw [← hc]
      exact Sum.inr_ne_inl
    rw [Links.concat_eq hempty hzsnd]
    by_cases hjs : j = snd
    · subst hjs
      rw [Circq.concat, update_of_ne hne.symm, update_self]
      exact .cons_cons ⟨update_self .., update_self ..⟩ (.singleton _)
    by_cases hjf : j = fst
    · subst hjf
      have hnodup := nodup_front j (h.exclusive.nodup j)
      rw [hl] at hnodup
      have hnodupm : ((q snd).map .inr : List (κ ⊕ α)).Nodup :=
        (h.exclusive.nodup snd).map fun _ _ => Sum.inr.inj
      have hin {x : κ ⊕ α} (hx : x ∈ l₀ ++ [L.prev (.inl j)]) : x ∈ round j (q j) := by
        rw [← hl] at hx
        exact mem_append_left _ hx
      have hinm {x : κ ⊕ α} (hx : x ∈ ((q snd).map .inr : List (κ ⊕ α))) :
          x ∈ round snd (q snd) ∧ x ≠ .inl snd := by
        obtain ⟨c, hc, rfl⟩ := mem_map.mp hx
        exact ⟨mem_round.mpr (.inr ⟨c, hc, rfl⟩), Sum.inr_ne_inl⟩
      have hround : round j (q j ++ q snd) =
          l₀ ++ L.prev (.inl j) :: .inr b :: (l.map .inr ++ [.inl j]) := by
        rw [round, map_append, append_assoc, ← cons_append, hl, hq]
        simp
      have hrest : (.inr b :: (l.map .inr ++ [.inl j]) : List (κ ⊕ α)) =
          m₀ ++ L.prev (.inl snd) :: [.inl j] := by
        rw [← cons_append, ← map_cons, ← hq, helems, append_assoc]
        rfl
      have hseg : Seg L (m₀ ++ [L.prev (.inl snd)]) := (isChain_cons.mp hback).2
      rw [Circq.concat, update_self, hround]
      refine isChain_append_cons_cons.mpr ⟨hfront.frame (fun x hx => ?_) fun x hx => ?_,
        ⟨?_, ?_⟩, ?_⟩
      · rw [dropLast_concat] at hx
        have hxj := hin (mem_append_left _ hx)
        dsimp only
        rw [update_of_ne (h.ne_of_round hne hxj (head_mem snd (q snd))),
          update_of_ne (h.ne_of_round hne hxj hw), update_of_ne
            ((nodup_append.mp hnodup).2.2 x hx _ (mem_singleton_self _))]
      · have hxj := hin (mem_of_mem_tail hx)
        rw [← hl, tail_cons] at hx
        obtain ⟨c, -, rfl⟩ := mem_map.mp hx
        dsimp only
        rw [update_of_ne Sum.inr_ne_inl, update_of_ne Sum.inr_ne_inl,
          update_of_ne (h.ne_of_round hne hxj hyin)]
      · dsimp only
        rw [update_of_ne hzsnd, update_of_ne hzw, update_self, hy]
      · dsimp only
        rw [update_of_ne Sum.inr_ne_inl, update_of_ne Sum.inr_ne_inl, hy, update_self]
      · rw [hrest]
        rw [helems] at hnodupm hinm
        refine isChain_append_cons_cons.mpr ⟨hseg.frame (fun x hx => ?_) fun x hx => ?_,
          ⟨?_, ?_⟩, .singleton _⟩
        · rw [dropLast_concat] at hx
          obtain ⟨hxs, hxsnd⟩ := hinm (mem_append_left _ hx)
          dsimp only
          rw [update_of_ne hxsnd, update_of_ne
              ((nodup_append.mp hnodupm).2.2 x hx _ (mem_singleton_self _)),
            update_of_ne (h.ne_of_round hne.symm hxs hz)]
        · obtain ⟨hxs, hxsnd⟩ := hinm (mem_of_mem_tail hx)
          rw [← helems, hq, map_cons] at hnodupm hx
          dsimp only
          rw [update_of_ne hxsnd, update_of_ne (h.ne_of_round hne.symm hxs (head_mem j (q j))), hy,
            update_of_ne (ne_of_mem_of_not_mem hx (nodup_cons.mp hnodupm).1)]
        · dsimp only
          rw [update_of_ne hwsnd, update_self]
        · dsimp only
          rw [update_of_ne fun heq => hne (Sum.inl.inj heq), update_self]
    · rw [Circq.concat, update_of_ne hjf, update_of_ne hjs]
      refine h.other (fun x hx => ?_) fun x hx => ?_
      · dsimp only
        rw [update_of_ne (h.ne_of_round hjs hx (head_mem snd (q snd))),
          update_of_ne (h.ne_of_round hjs hx hw), update_of_ne (h.ne_of_round hjf hx hz)]
      · dsimp only
        rw [update_of_ne (h.ne_of_round hjs hx (head_mem snd (q snd))),
          update_of_ne (h.ne_of_round hjf hx (head_mem fst (q fst))),
          update_of_ne (h.ne_of_round hjs hx hyin)]

end Mbsd.Lib.Circular
