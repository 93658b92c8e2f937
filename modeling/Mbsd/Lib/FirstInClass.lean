import Mathlib.Data.List.Basic
import Mathlib.Data.List.Pairwise
import Mathlib.Order.Basic

/-! A list whose elements come in ascending classes, and the first element of each class. -/

namespace Mbsd.Lib.FirstInClass

open List Option

variable {α ι : Type} [DecidableEq ι] (cls : α → ι)

def firstIn (l : List α) (i : ι) : Option α := l.find? fun a => cls a = i

def countIn (l : List α) (i : ι) : Nat := l.countP fun a => cls a = i

variable {cls} {a e : α} {l l₁ l₂ : List α} {i : ι}

theorem firstIn_eq_none : firstIn cls l i = none ↔ ∀ a ∈ l, cls a ≠ i := by
  simp [firstIn]

theorem cls_of_firstIn (h : firstIn cls l i = some a) : cls a = i := by
  simpa using find?_some h

theorem mem_of_firstIn (h : firstIn cls l i = some a) : a ∈ l := mem_of_find?_eq_some h

theorem firstIn_append : firstIn cls (l₁ ++ l₂) i = (firstIn cls l₁ i).or (firstIn cls l₂ i) :=
  find?_append

theorem firstIn_cons : firstIn cls (e :: l) i = if cls e = i then some e else firstIn cls l i := by
  rw [firstIn, find?_cons]
  split <;> simp_all [firstIn]

theorem mem_of_firstIn_append (ha : a ∈ l₁) (hi : cls a = i)
    (h : firstIn cls (l₁ ++ l₂) i = some e) : e ∈ l₁ := by
  rw [firstIn_append] at h
  cases hl : firstIn cls l₁ i with
  | none => exact absurd hi (firstIn_eq_none.mp hl a ha)
  | some b =>
    rw [hl, some_or, some.injEq] at h
    exact h ▸ mem_of_firstIn hl

theorem firstIn_insert_of_mem (ha : a ∈ l₁) (he : cls a = cls e) :
    firstIn cls (l₁ ++ e :: l₂) i = firstIn cls (l₁ ++ l₂) i := by
  rw [firstIn_append, firstIn_append, firstIn_cons]
  by_cases hi : cls e = i
  · cases hl : firstIn cls l₁ i with
    | none => exact absurd (he.trans hi) (firstIn_eq_none.mp hl a ha)
    | some b => rw [some_or, some_or]
  · rw [if_neg hi]

theorem firstIn_insert_of_not_mem (h : ∀ a ∈ l₁, cls a ≠ cls e) : firstIn cls (l₁ ++ e :: l₂) i =
      if i = cls e then some e else firstIn cls (l₁ ++ l₂) i := by
  rw [firstIn_append, firstIn_append, firstIn_cons]
  by_cases hi : i = cls e
  · subst hi
    rw [firstIn_eq_none.mpr h, if_pos rfl, if_pos rfl, none_or]
  · rw [if_neg (Ne.symm hi), if_neg hi]

theorem countIn_insert : countIn cls (l₁ ++ e :: l₂) i =
      countIn cls (l₁ ++ l₂) i + if i = cls e then 1 else 0 := by
  simp only [countIn, countP_append, countP_cons, decide_eq_true_eq]
  by_cases hi : i = cls e
  · rw [if_pos hi, if_pos hi.symm]
    omega
  · rw [if_neg hi, if_neg (Ne.symm hi)]
    omega

theorem firstIn_erase [PartialOrder ι] (h : ∀ a ∈ l₁, cls a ≠ cls e)
    (hp : (e :: l₂).Pairwise fun a b => cls a ≤ cls b) :
    firstIn cls (l₁ ++ l₂) (cls e) = l₂.head?.filter fun b => cls b = cls e := by
  rw [firstIn_append, firstIn_eq_none.mpr h, none_or]
  cases l₂ with
  | nil => rfl
  | cons b l₂ =>
    obtain ⟨he, hb⟩ := pairwise_cons.mp hp
    rw [firstIn_cons, head?_cons, filter_some]
    by_cases hcls : cls b = cls e
    · rw [if_pos hcls, if_pos (decide_eq_true hcls)]
    · rw [if_neg hcls, if_neg (by simpa using hcls), firstIn_eq_none]
      intro c hc heq
      have hbc : cls b ≤ cls c := (pairwise_cons.mp hb).1 c hc
      exact hcls (le_antisymm (heq ▸ hbc) (he b mem_cons_self))

end Mbsd.Lib.FirstInClass
