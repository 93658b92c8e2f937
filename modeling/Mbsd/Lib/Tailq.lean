import Mathlib.Data.List.Nodup

/-! Tail queues as lists: insertion next to an element, removal of an element, and the elements
before and after one.  A queue holds no element twice. -/

namespace Mbsd.Lib.Tailq

open List

variable {α : Type} [DecidableEq α]

def insertBefore (o x : α) : List α → List α
  | [] => []
  | a :: l => if a = o then x :: a :: l else a :: insertBefore o x l

def insertAfter (o x : α) : List α → List α
  | [] => []
  | a :: l => if a = o then a :: x :: l else a :: insertAfter o x l

/-- What comes after `o`. -/
def after (o : α) : List α → List α
  | [] => []
  | a :: l => if a = o then l else after o l

def next (o : α) (l : List α) : Option α := (after o l).head?

/-- The element before `o`, where `p` is the one before the whole list. -/
def prevFrom (o : α) (p : Option α) : List α → Option α
  | [] => none
  | a :: l => if a = o then p else prevFrom o (some a) l

def prev (o : α) (l : List α) : Option α := prevFrom o none l

variable {o x : α} {P Q : List α}

@[simp] theorem insertBefore_append (h : o ∉ P) :
    insertBefore o x (P ++ o :: Q) = P ++ x :: o :: Q := by
  induction P with
  | nil => simp [insertBefore]
  | cons a P ih =>
    have ha : a ≠ o := fun ha => h (ha ▸ mem_cons_self)
    rw [cons_append, insertBefore, if_neg ha, ih fun hm => h (mem_cons_of_mem _ hm)]
    rfl

@[simp] theorem insertAfter_append (h : o ∉ P) :
    insertAfter o x (P ++ o :: Q) = P ++ o :: x :: Q := by
  induction P with
  | nil => simp [insertAfter]
  | cons a P ih =>
    have ha : a ≠ o := fun ha => h (ha ▸ mem_cons_self)
    rw [cons_append, insertAfter, if_neg ha, ih fun hm => h (mem_cons_of_mem _ hm)]
    rfl

@[simp] theorem erase_append_cons (h : o ∉ P) : (P ++ o :: Q).erase o = P ++ Q := by
  rw [erase_append_right _ h, erase_cons_head]

@[simp] theorem after_append (h : o ∉ P) : after o (P ++ o :: Q) = Q := by
  induction P with
  | nil => simp [after]
  | cons a P ih =>
    have ha : a ≠ o := fun ha => h (ha ▸ mem_cons_self)
    rw [cons_append, after, if_neg ha, ih fun hm => h (mem_cons_of_mem _ hm)]

@[simp] theorem next_append (h : o ∉ P) : next o (P ++ o :: Q) = Q.head? := by
  rw [next, after_append h]

theorem prevFrom_append (p : Option α) (h : o ∉ P) :
    prevFrom o p (P ++ o :: Q) = P.getLast?.or p := by
  induction P generalizing p with
  | nil => simp [prevFrom]
  | cons a P ih =>
    have ha : a ≠ o := fun ha => h (ha ▸ mem_cons_self)
    rw [cons_append, prevFrom, if_neg ha, ih _ fun hm => h (mem_cons_of_mem _ hm), getLast?_cons]
    cases P.getLast? <;> rfl

@[simp] theorem prev_append (h : o ∉ P) : prev o (P ++ o :: Q) = P.getLast? := by
  rw [prev, prevFrom_append _ h, Option.or_none]

end Mbsd.Lib.Tailq

/-! Circular queues by name.  An element is on at most one of them, so that it can be unlinked
without saying where it is. -/

namespace Mbsd.Lib.Circq

open List Function

variable {κ α : Type} {q : κ → List α} {j k fst snd : κ} {a b : α}

/-- No element is on two queues, or on one of them twice. -/
structure Exclusive (q : κ → List α) : Prop where
  nodup : ∀ k, (q k).Nodup
  unique : ∀ {j k a}, a ∈ q j → a ∈ q k → j = k

theorem Exclusive.nil : Exclusive (fun _ : κ => ([] : List α)) where
  nodup _ := nodup_nil
  unique h := absurd h not_mem_nil

section Remove

variable [DecidableEq α]

/-- `CIRCQ_REMOVE` -/
def remove (q : κ → List α) (a : α) : κ → List α := fun k => (q k).filter (· ≠ a)

@[simp] theorem mem_remove : b ∈ remove q a k ↔ b ∈ q k ∧ b ≠ a := by
  simp [remove]

theorem Exclusive.remove (h : Exclusive q) : Exclusive (remove q a) where
  nodup k := (h.nodup k).filter _
  unique hj hk := h.unique (mem_remove.mp hj).1 (mem_remove.mp hk).1

end Remove

/-- How much there is on some of the queues. -/
def total (ks : List κ) (q : κ → List α) : Nat := (ks.flatMap q).length

theorem total_cons {ks : List κ} : total (k :: ks) q = (q k).length + total ks q := by
  rw [total, flatMap_cons, length_append]
  rfl

variable [DecidableEq κ]

/-- `CIRCQ_INSERT_TAIL` -/
def insertTail (q : κ → List α) (k : κ) (a : α) : κ → List α :=
  Function.update q k (q k ++ [a])

/-- `CIRCQ_INSERT_HEAD` -/
def insertHead (q : κ → List α) (k : κ) (a : α) : κ → List α :=
  Function.update q k (a :: q k)

/-- `CIRCQ_CONCAT` -/
def concat (q : κ → List α) (fst snd : κ) : κ → List α :=
  Function.update (Function.update q snd []) fst (q fst ++ q snd)

theorem mem_insertTail : b ∈ insertTail q k a j ↔ b ∈ q j ∨ j = k ∧ b = a := by
  unfold insertTail
  by_cases hj : j = k
  · subst hj
    simp
  · simp [hj]

theorem mem_insertHead : b ∈ insertHead q k a j ↔ b ∈ q j ∨ j = k ∧ b = a := by
  unfold insertHead
  by_cases hj : j = k
  · subst hj
    rw [update_self, mem_cons, or_comm]
    simp
  · simp [hj]

theorem mem_concat (h : fst ≠ snd) : b ∈ concat q fst snd j ↔
    j = fst ∧ (b ∈ q fst ∨ b ∈ q snd) ∨ j ≠ fst ∧ j ≠ snd ∧ b ∈ q j := by
  unfold concat
  by_cases hf : j = fst
  · subst hf
    simp
  · by_cases hs : j = snd
    · subst hs
      simp [hf]
    · simp [hf, hs]

theorem mem_of_concat (h : fst ≠ snd) (hb : b ∈ concat q fst snd j) : ∃ k, b ∈ q k := by
  rcases (mem_concat h).mp hb with ⟨-, hm | hm⟩ | ⟨-, -, hm⟩
  · exact ⟨fst, hm⟩
  · exact ⟨snd, hm⟩
  · exact ⟨j, hm⟩

theorem Exclusive.insertTail (h : Exclusive q) (ha : ∀ j, a ∉ q j) :
    Exclusive (insertTail q k a) where
  nodup j := by
    unfold Circq.insertTail
    by_cases hj : j = k
    · subst hj
      rw [update_self]
      simpa using Nodup.concat (ha j) (h.nodup j)
    · rw [update_of_ne hj]
      exact h.nodup j
  unique := by
    intro i j b hi hj
    rcases mem_insertTail.mp hi with hqi | ⟨hik, hb⟩
    · rcases mem_insertTail.mp hj with hqj | ⟨-, hb⟩
      · exact h.unique hqi hqj
      · exact absurd (hb ▸ hqi) (ha i)
    · rcases mem_insertTail.mp hj with hqj | ⟨hjk, -⟩
      · exact absurd (hb ▸ hqj) (ha j)
      · exact hik.trans hjk.symm

theorem Exclusive.insertHead (h : Exclusive q) (ha : ∀ j, a ∉ q j) :
    Exclusive (insertHead q k a) where
  nodup j := by
    unfold Circq.insertHead
    by_cases hj : j = k
    · subst hj
      rw [update_self]
      exact nodup_cons.mpr ⟨ha j, h.nodup j⟩
    · rw [update_of_ne hj]
      exact h.nodup j
  unique := by
    intro i j b hi hj
    rcases mem_insertHead.mp hi with hqi | ⟨hik, hb⟩
    · rcases mem_insertHead.mp hj with hqj | ⟨-, hb⟩
      · exact h.unique hqi hqj
      · exact absurd (hb ▸ hqi) (ha i)
    · rcases mem_insertHead.mp hj with hqj | ⟨hjk, -⟩
      · exact absurd (hb ▸ hqj) (ha j)
      · exact hik.trans hjk.symm

theorem Exclusive.concat (h : Exclusive q) (hne : fst ≠ snd) : Exclusive (concat q fst snd) where
  nodup j := by
    unfold Circq.concat
    by_cases hf : j = fst
    · subst hf
      rw [update_self, nodup_append]
      exact ⟨h.nodup _, h.nodup _, fun b hb c hc hbc => hne (h.unique hb (hbc ▸ hc))⟩
    · rw [update_of_ne hf]
      by_cases hs : j = snd
      · subst hs
        rw [update_self]
        exact nodup_nil
      · rw [update_of_ne hs]
        exact h.nodup j
  unique := by
    -- what is on `fst` afterwards was on `fst` or on `snd`, and no other queue has it
    have hfst : ∀ {i b}, b ∈ q i → i ≠ fst → i ≠ snd → ¬(b ∈ q fst ∨ b ∈ q snd) := by
      rintro i b hi hf hs (hb | hb)
      · exact hf (h.unique hi hb)
      · exact hs (h.unique hi hb)
    intro i j b hi hj
    rcases (mem_concat hne).mp hi with ⟨hif, hbi⟩ | ⟨hif, his, hbi⟩
    · rcases (mem_concat hne).mp hj with ⟨hjf, -⟩ | ⟨hjf, hjs, hbj⟩
      · exact hif.trans hjf.symm
      · exact absurd hbi (hfst hbj hjf hjs)
    · rcases (mem_concat hne).mp hj with ⟨-, hbj⟩ | ⟨-, -, hbj⟩
      · exact absurd hbj (hfst hbi hif his)
      · exact h.unique hbi hbj

section Total

variable {ks : List κ} {l : List α}

theorem total_erase (hk : q k = []) : total (ks.erase k) q = total ks q := by
  by_cases hm : k ∈ ks
  · rw [total, total, ((perm_cons_erase hm).flatMap_right q).length_eq, flatMap_cons, hk]
    rfl
  · rw [erase_of_not_mem hm]

theorem total_update_of_notMem (hk : k ∉ ks) : total ks (update q k l) = total ks q := by
  rw [total, total, flatMap_congr fun j hj =>
    update_of_ne (ne_of_mem_of_not_mem hj hk) l q]

theorem total_update (hks : ks.Nodup) (hk : k ∈ ks) :
    total ks (update q k l) + (q k).length = total ks q + l.length := by
  induction ks with
  | nil => cases hk
  | cons j ks ih =>
    obtain ⟨hj, hks⟩ := nodup_cons.mp hks
    rw [total_cons, total_cons]
    by_cases heq : k = j
    · subst heq
      rw [total_update_of_notMem hj, update_self]
      omega
    · have hrest := ih hks ((mem_cons.mp hk).resolve_left heq)
      rw [update_of_ne (Ne.symm heq)]
      omega

theorem total_insertHead (hks : ks.Nodup) (hk : k ∈ ks) :
    total ks (insertHead q k a) = total ks q + 1 := by
  have hupdate := total_update (q := q) (l := a :: q k) hks hk
  rw [length_cons] at hupdate
  rw [insertHead]
  omega

theorem Exclusive.remove_eq [DecidableEq α] (h : Exclusive q) (ha : a ∈ q k) :
    Circq.remove q a = update q k ((q k).erase a) := by
  funext j
  rw [Circq.remove]
  by_cases hj : j = k
  · subst hj
    rw [update_self, (h.nodup j).erase_eq_filter]
    exact filter_congr fun b _ => by by_cases hb : b = a <;> simp [hb]
  · rw [update_of_ne hj]
    exact filter_eq_self.mpr fun b hb => decide_eq_true fun heq => hj (h.unique (heq ▸ hb) ha)

theorem Exclusive.total_remove [DecidableEq α] (h : Exclusive q) (hks : ks.Nodup) (hk : k ∈ ks)
    (ha : a ∈ q k) : total ks (Circq.remove q a) + 1 = total ks q := by
  have hupdate := total_update (q := q) (l := (q k).erase a) hks hk
  have hpos := length_pos_of_mem ha
  rw [length_erase_of_mem ha] at hupdate
  rw [h.remove_eq ha]
  omega

end Total

end Mbsd.Lib.Circq
