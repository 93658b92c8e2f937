import Mathlib.Data.List.Infix
import Mbsd.Lib.Tailq

/-! Lists in which the elements of each class stand together, and what keeps them so. -/

namespace Mbsd.Lib

open Tailq List Function

variable {α β : Type} {f : α → β} {b : β} {P G Q l : List α} {p c x : α} {g : α → β}

/-- The elements of a class are those in the middle. -/
structure Grouped.Parts (f : α → β) (b : β) (P G Q : List α) : Prop where
  before : ∀ x ∈ P, f x ≠ b
  group : ∀ x ∈ G, f x = b
  behind : ∀ x ∈ Q, f x ≠ b

/-- Each class stands together. -/
def Grouped (f : α → β) (l : List α) : Prop :=
  ∀ b, ∃ P G Q, l = P ++ G ++ Q ∧ Grouped.Parts f b P G Q

theorem Grouped.nil : Grouped f [] := fun _ => ⟨[], [], [], rfl, nofun, nofun, nofun⟩

theorem Grouped.of_inj (hinj : ∀ x ∈ l, ∀ y ∈ l, f x = f y → x = y) (hl : l.Nodup) :
    Grouped f l := by
  intro b
  by_cases hb : ∃ c ∈ l, f c = b
  · obtain ⟨c, hc, rfl⟩ := hb
    obtain ⟨P, Q, rfl⟩ := append_of_mem hc
    obtain ⟨-, hQ, hPQ⟩ := nodup_append.mp hl
    refine ⟨P, [c], Q, by simp, fun x hx heq => ?_, by simp, fun x hx heq => ?_⟩
    · exact hPQ x hx c mem_cons_self (hinj x (by simp [hx]) c hc heq)
    · exact (nodup_cons.mp hQ).1 (hinj x (by simp [hx]) c hc heq ▸ hx)
  · refine ⟨l, [], [], by simp, fun x hx heq => hb ⟨x, hx, heq⟩, nofun, nofun⟩

theorem Grouped.filter (h : Grouped f l) (q : α → Bool) : Grouped f (l.filter q) := by
  intro b
  obtain ⟨P, G, Q, rfl, hparts⟩ := h b
  refine ⟨P.filter q, G.filter q, Q.filter q, by rw [filter_append, filter_append],
    fun x hx => ?_, fun x hx => ?_, fun x hx => ?_⟩
  · exact hparts.before x (mem_of_mem_filter hx)
  · exact hparts.group x (mem_of_mem_filter hx)
  · exact hparts.behind x (mem_of_mem_filter hx)

theorem Grouped.congr (h : Grouped f l) (hfg : ∀ x ∈ l, f x = g x) : Grouped g l := by
  intro b
  obtain ⟨P, G, Q, rfl, hparts⟩ := h b
  refine ⟨P, G, Q, rfl, fun x hx => ?_, fun x hx => ?_, fun x hx => ?_⟩
  · rw [← hfg x (by simp [hx])]
    exact hparts.before x hx
  · rw [← hfg x (by simp [hx])]
    exact hparts.group x hx
  · rw [← hfg x (by simp [hx])]
    exact hparts.behind x hx

theorem Grouped.concat (h : Grouped f l) (hnew : ∀ x ∈ l, f x ≠ f c) : Grouped f (l ++ [c]) := by
  intro b
  by_cases hb : f c = b
  · subst hb
    exact ⟨l, [c], [], (append_nil _).symm, hnew, by simp, nofun⟩
  · obtain ⟨P, G, Q, rfl, hparts⟩ := h b
    refine ⟨P, G, Q ++ [c], append_assoc .., hparts.before, hparts.group, fun x hx => ?_⟩
    rcases mem_append.mp hx with hx | hx
    · exact hparts.behind x hx
    · rwa [mem_singleton.mp hx]

section InsertAfter

variable [DecidableEq α]

theorem insertAfter_append_of_mem (hp : p ∈ P) :
    insertAfter p c (P ++ Q) = insertAfter p c P ++ Q := by
  induction P with
  | nil => cases hp
  | cons a P ih =>
    rw [cons_append, insertAfter, insertAfter]
    split
    next => rfl
    next hne => rw [ih ((mem_cons.mp hp).resolve_left (Ne.symm hne)), cons_append]

theorem insertAfter_append_of_notMem (hp : p ∉ P) :
    insertAfter p c (P ++ Q) = P ++ insertAfter p c Q := by
  induction P with
  | nil => rfl
  | cons a P ih =>
    obtain ⟨hne, hp⟩ := not_or.mp (mt mem_cons.mpr hp)
    rw [cons_append, insertAfter, if_neg (Ne.symm hne), ih hp, cons_append]

theorem mem_insertAfter : x ∈ insertAfter p c l ↔ x ∈ l ∨ p ∈ l ∧ x = c := by
  induction l with
  | nil => simp [insertAfter]
  | cons a l ih =>
    rw [insertAfter]
    split
    next heq =>
      subst heq
      simp only [mem_cons, true_or, true_and]
      exact ⟨fun h => h.elim (.inl ∘ .inl) fun h => h.elim .inr (.inl ∘ .inr),
        fun h => h.elim (fun h => h.elim .inl (.inr ∘ .inr)) (.inr ∘ .inl)⟩
    next hne =>
      rw [mem_cons, ih, mem_cons, mem_cons, or_iff_right (Ne.symm hne), or_assoc]

theorem length_insertAfter (hp : p ∈ l) : (insertAfter p c l).length = l.length + 1 := by
  induction l with
  | nil => cases hp
  | cons a l ih =>
    rw [insertAfter]
    split
    next => rfl
    next hne =>
      rw [length_cons, length_cons, ih ((mem_cons.mp hp).resolve_left (Ne.symm hne))]

theorem Grouped.insertAfter (h : Grouped f l) (hf : f c = f p) : Grouped f (insertAfter p c l) := by
  intro b
  obtain ⟨P, G, Q, rfl, hparts⟩ := h b
  by_cases hP : p ∈ P
  · refine ⟨insertAfter p c P, G, Q, ?_, fun x hx => ?_, hparts.group, hparts.behind⟩
    · rw [append_assoc, insertAfter_append_of_mem hP, append_assoc]
    · rcases mem_insertAfter.mp hx with hx | ⟨-, rfl⟩
      · exact hparts.before x hx
      · exact hf ▸ hparts.before p hP
  by_cases hG : p ∈ G
  · refine ⟨P, insertAfter p c G, Q, ?_, hparts.before, fun x hx => ?_, hparts.behind⟩
    · rw [append_assoc, insertAfter_append_of_notMem hP, insertAfter_append_of_mem hG, append_assoc]
    · rcases mem_insertAfter.mp hx with hx | ⟨-, rfl⟩
      · exact hparts.group x hx
      · exact hf.trans (hparts.group p hG)
  · refine ⟨P, G, insertAfter p c Q, ?_, hparts.before, hparts.group, fun x hx => ?_⟩
    · rw [insertAfter_append_of_notMem (by simp [hP, hG])]
    · rcases mem_insertAfter.mp hx with hx | ⟨hQ, rfl⟩
      · exact hparts.behind x hx
      · exact hf ▸ hparts.behind p hQ

end InsertAfter

section Filter

variable [DecidableEq β]

theorem Grouped.Parts.filter_eq (h : Parts f b P G Q) : (P ++ G ++ Q).filter (f · = b) = G := by
  rw [filter_append, filter_append, filter_eq_nil_iff.mpr fun x hx => by simpa using h.before x hx,
    filter_eq_self.mpr fun x hx => by simpa using h.group x hx,
    filter_eq_nil_iff.mpr fun x hx => by simpa using h.behind x hx, nil_append, append_nil]

theorem Grouped.isInfix (h : Grouped f l) (b : β) : l.filter (f · = b) <:+: l := by
  obtain ⟨P, G, Q, rfl, hparts⟩ := h b
  rw [hparts.filter_eq]
  exact ⟨P, Q, rfl⟩

variable [DecidableEq α]

theorem Grouped.head?_filter_insertAfter (hf : f c = f p) :
    ((Tailq.insertAfter p c l).filter (f · = b)).head? = (l.filter (f · = b)).head? := by
  induction l with
  | nil => rfl
  | cons a l ih =>
    rw [Tailq.insertAfter]
    by_cases ha : f a = b
    · have hcons (l : List α) : ((a :: l).filter (f · = b)).head? = some a := by
        rw [filter_cons_of_pos (by simpa using ha), head?_cons]
      split <;> rw [hcons, hcons]
    · split
      next heq =>
        subst heq
        rw [filter_cons_of_neg (by simpa using ha), filter_cons_of_neg (by simpa using hf ▸ ha),
          filter_cons_of_neg (by simpa using ha)]
      next =>
        rw [filter_cons_of_neg (by simpa using ha), ih, filter_cons_of_neg (by simpa using ha)]

theorem Grouped.from_head (h : Grouped f l) (hl : l.Nodup)
    (hc : (l.filter (f · = b)).head? = some c) :
    ∃ Q, c :: after c l = l.filter (f · = b) ++ Q ∧ ∀ x ∈ Q, f x ≠ b := by
  obtain ⟨P, G, Q, rfl, hparts⟩ := h b
  rw [hparts.filter_eq] at hc ⊢
  obtain ⟨G', rfl⟩ := head?_eq_some_iff.mp hc
  have hP : c ∉ P := fun hm => hparts.before c hm (hparts.group c mem_cons_self)
  refine ⟨Q, ?_, hparts.behind⟩
  rw [append_assoc, cons_append, after_append hP]

section Erase

variable (hl : l.Nodup)

include hl

theorem Grouped.head?_filter_erase_of_ne (hc : (l.filter (f · = b)).head? ≠ some c) :
    ((l.erase c).filter (f · = b)).head? = (l.filter (f · = b)).head? := by
  rw [hl.erase_eq_filter, filter_filter]
  simp only [Bool.and_comm]
  rw [← filter_filter]
  cases hg : l.filter (f · = b) with
  | nil => rfl
  | cons g G =>
    have hgc : g ≠ c := fun heq => hc (by rw [hg, head?_cons, heq])
    rw [filter_cons_of_pos (by simpa using hgc), head?_cons, head?_cons]

theorem Grouped.head?_filter_erase (h : Grouped f l) (hc : (l.filter (f · = b)).head? = some c) :
    ((l.erase c).filter (f · = b)).head? = (next c l).filter (f · = b) := by
  obtain ⟨P, G, Q, rfl, hparts⟩ := h b
  rw [hparts.filter_eq] at hc
  obtain ⟨G', rfl⟩ := head?_eq_some_iff.mp hc
  have hP : c ∉ P := fun hm => hparts.before c hm (hparts.group c mem_cons_self)
  have hparts' : Parts f b P G' Q :=
    ⟨hparts.before, fun x hx => hparts.group x (mem_cons_of_mem _ hx), hparts.behind⟩
  rw [append_assoc, cons_append, next_append hP, erase_append_cons hP,
    ← append_assoc, hparts'.filter_eq]
  cases G' with
  | nil =>
    cases Q with
    | nil => rfl
    | cons y Q =>
      exact (Option.filter_some_neg (by simpa using hparts.behind y mem_cons_self)).symm
  | cons y G' =>
    exact (Option.filter_some_pos (by simpa using hparts'.group y mem_cons_self)).symm

end Erase

/-- A list with an index that gives the first element of each class in `S`. -/
structure Indexed (f : α → β) (l : List α) (first : β → Option α) (S : β → Prop) : Prop where
  grouped : Grouped f l
  nodup : l.Nodup
  first_eq : ∀ b, S b → first b = (l.filter (f · = b)).head?

namespace Indexed

variable {first : β → Option α} {S : β → Prop} (h : Indexed f l first S)

include h

omit [DecidableEq α] in
theorem congr (hfg : ∀ x ∈ l, f x = g x) : Indexed g l first S where
  grouped := h.grouped.congr hfg
  nodup := h.nodup
  first_eq b hb := by
    rw [h.first_eq b hb, filter_congr fun x hx => by rw [hfg x hx]]

theorem walk (hb : S b) : ∃ Q, (match first b with
      | none => []
      | some c => c :: after c l) = l.filter (f · = b) ++ Q ∧ ∀ x ∈ Q, f x ≠ b := by
  have hfirst := h.first_eq b hb
  cases hc : first b with
  | none =>
    rw [hc] at hfirst
    exact ⟨[], by rw [head?_eq_none_iff.mp hfirst.symm]; rfl, nofun⟩
  | some c =>
    rw [hc] at hfirst
    exact h.grouped.from_head h.nodup hfirst.symm

omit [DecidableEq α] in
theorem concat (hnew : ∀ x ∈ l, f x ≠ f c) :
    Indexed f (l ++ [c]) (update first (f c) (some c)) S where
  grouped := h.grouped.concat hnew
  nodup := nodup_append.mpr ⟨h.nodup, nodup_singleton c, fun x hx y hy heq =>
    hnew x hx (congrArg f (heq.trans (mem_singleton.mp hy)))⟩
  first_eq b hb := by
    rw [filter_append]
    by_cases hbc : b = f c
    · subst hbc
      rw [update_self, filter_eq_nil_iff.mpr fun x hx => by simpa using hnew x hx]
      simp
    · rw [update_of_ne hbc, h.first_eq b hb,
        filter_cons_of_neg (by simpa using Ne.symm hbc), filter_nil, append_nil]

theorem insertAfter (hc : c ∉ l) (hf : f c = f p) : Indexed f (insertAfter p c l) first S where
  grouped := h.grouped.insertAfter hf
  nodup := by
    have hl := h.nodup
    clear h
    induction l with
    | nil => exact nodup_nil
    | cons a l ih =>
      obtain ⟨hca, hc⟩ := not_or.mp (mt mem_cons.mpr hc)
      obtain ⟨ha, hl⟩ := nodup_cons.mp hl
      rw [Tailq.insertAfter]
      split
      · refine nodup_cons.mpr ⟨fun hm => ?_, nodup_cons.mpr ⟨hc, hl⟩⟩
        exact (mem_cons.mp hm).elim (Ne.symm hca) ha
      · refine nodup_cons.mpr ⟨fun hm => ?_, ih hc hl⟩
        exact (mem_insertAfter.mp hm).elim ha fun heq => hca heq.2.symm
  first_eq b hb := by
    rw [h.first_eq b hb, Grouped.head?_filter_insertAfter hf]

theorem erase (c : α) : Indexed f (l.erase c) (if first (f c) = some c then
      update first (f c) ((next c l).filter (f · = f c)) else first) S where
  grouped := by
    rw [h.nodup.erase_eq_filter]
    exact h.grouped.filter _
  nodup := h.nodup.erase c
  first_eq b hb := by
    have hfirst := h.first_eq b hb
    by_cases hbc : b = f c
    · subst hbc
      split
      next heq =>
        rw [hfirst] at heq
        rw [update_self, h.grouped.head?_filter_erase h.nodup heq]
      next hne =>
        rw [hfirst] at hne
        rw [hfirst, Grouped.head?_filter_erase_of_ne h.nodup hne]
    · have hne : (l.filter (f · = b)).head? ≠ some c := fun heq =>
        hbc (of_decide_eq_true (mem_filter.mp (mem_of_mem_head? heq)).2).symm
      rw [Grouped.head?_filter_erase_of_ne h.nodup hne, ← hfirst]
      split
      · exact update_of_ne hbc _ _
      · rfl

end Indexed

end Filter

end Mbsd.Lib
