import Mathlib.Data.List.Pairwise
import Mathlib.Data.List.TakeWhile

/-! Queues of data segments with numbered positions, kept in order and without overlap.  A segment
that comes in is cut in front by what is there before it, and cuts or swallows what comes after. -/

namespace Mbsd.Lib.SegmentQueue

open List

structure Seg (β τ : Type) where
  off : Nat
  data : List β
  tag : τ

variable {β τ : Type}

namespace Seg

def fin (s : Seg β τ) : Nat := s.off + s.data.length

/-- The segment without its first `i` data. -/
def trim (s : Seg β τ) (i : Nat) : Seg β τ := { s with off := s.off + i, data := s.data.drop i }

def Within (b a : Seg β τ) : Prop := ∃ i ≤ a.data.length, b = a.trim i

def Has (s : Seg β τ) (k : Nat) : Prop := s.off ≤ k ∧ k < s.fin

/-- `P` knows the datum at each position of the segment. -/
def Carries (P : Nat → β → Prop) (s : Seg β τ) : Prop :=
  ∀ i d, s.data[i]? = some d → P (s.off + i) d

variable {s a b c : Seg β τ} {i k : Nat} {P : Nat → β → Prop}

theorem off_le_fin (s : Seg β τ) : s.off ≤ s.fin := Nat.le_add_right _ _

@[simp] theorem trim_zero (s : Seg β τ) : s.trim 0 = s := rfl

@[simp] theorem trim_off (s : Seg β τ) (i : Nat) : (s.trim i).off = s.off + i := rfl

@[simp] theorem trim_tag (s : Seg β τ) (i : Nat) : (s.trim i).tag = s.tag := rfl

theorem fin_trim (h : i ≤ s.data.length) : (s.trim i).fin = s.fin := by
  simp only [fin, trim, length_drop]
  omega

theorem Within.refl (a : Seg β τ) : a.Within a := ⟨0, Nat.zero_le _, rfl⟩

theorem Within.fin (h : b.Within a) : b.fin = a.fin := by
  obtain ⟨i, hi, rfl⟩ := h
  exact fin_trim hi

theorem Within.off_le (h : b.Within a) : a.off ≤ b.off := by
  obtain ⟨i, -, rfl⟩ := h
  exact Nat.le_add_right _ _

theorem Within.tag (h : b.Within a) : b.tag = a.tag := by
  obtain ⟨i, -, rfl⟩ := h
  rfl

theorem Within.trans (hcb : c.Within b) (hba : b.Within a) : c.Within a := by
  obtain ⟨i, hi, rfl⟩ := hba
  obtain ⟨j, hj, rfl⟩ := hcb
  simp only [trim, length_drop] at hj
  refine ⟨i + j, by omega, ?_⟩
  simp only [trim, drop_drop, Nat.add_assoc]

theorem Within.has (h : b.Within a) (hk : b.Has k) : a.Has k :=
  ⟨h.off_le.trans hk.1, h.fin ▸ hk.2⟩

theorem Within.carries (h : b.Within a) (ha : a.Carries P) : b.Carries P := by
  obtain ⟨i, -, rfl⟩ := h
  intro j d hd
  rw [trim_off, Nat.add_assoc]
  apply ha
  rwa [trim, getElem?_drop] at hd

end Seg

def Sorted (l : List (Seg β τ)) : Prop := l.Pairwise fun a b => a.fin ≤ b.off

def Covers (l : List (Seg β τ)) (k : Nat) : Prop := ∃ a ∈ l, a.Has k

/-- What is left of the segments from position `stop` on. -/
def clear (stop : Nat) : List (Seg β τ) → List (Seg β τ)
  | [] => []
  | q :: l =>
    if stop ≤ q.off then q :: l
    else if stop < q.fin then q.trim (stop - q.off) :: l
    else clear stop l

theorem clear_cons (stop : Nat) (q : Seg β τ) (l : List (Seg β τ)) : clear stop (q :: l) =
      if stop ≤ q.off then q :: l
      else if stop < q.fin then q.trim (stop - q.off) :: l
      else clear stop l := rfl

/-- The queue with one more segment, or nothing when the segment brings nothing. -/
def enqueue (s : Seg β τ) (l : List (Seg β τ)) : Option (List (Seg β τ)) :=
  let before := l.takeWhile (·.off ≤ s.off)
  let after := clear s.fin (l.dropWhile (·.off ≤ s.off))
  match before.getLast? with
  | none => some (s :: after)
  | some p =>
    let i := p.fin - s.off
    if 0 < i ∧ s.data.length ≤ i then none
    else some (before ++ s.trim i :: after)

/-- The run of segments that starts at position `r`: where it ends, its data, and what is behind
it. -/
def flush (r : Nat) : List (Seg β τ) → Nat × List β × List (Seg β τ)
  | [] => (r, [], [])
  | q :: l =>
    if q.off = r then
      let (r', d, l') := flush q.fin l
      (r', q.data ++ d, l')
    else (r, [], q :: l)

theorem flush_nil (r : Nat) : flush r ([] : List (Seg β τ)) = (r, [], []) := rfl

theorem flush_cons (r : Nat) (q : Seg β τ) (l : List (Seg β τ)) : flush r (q :: l) =
      if q.off = r then ((flush q.fin l).1, q.data ++ (flush q.fin l).2.1, (flush q.fin l).2.2)
      else (r, [], q :: l) := rfl

variable {l l' : List (Seg β τ)} {s a b : Seg β τ} {stop r k n : Nat} {P : Nat → β → Prop}

theorem Sorted.tail (h : Sorted (a :: l)) : Sorted l := (pairwise_cons.mp h).2

theorem Sorted.head (h : Sorted (a :: l)) : ∀ b ∈ l, a.fin ≤ b.off := (pairwise_cons.mp h).1

theorem covers_cons : Covers (a :: l) k ↔ a.Has k ∨ Covers l k := by
  simp only [Covers, mem_cons, or_and_right, exists_or, exists_eq_left]

theorem covers_append : Covers (l ++ l') k ↔ Covers l k ∨ Covers l' k := by
  simp only [Covers, mem_append, or_and_right, exists_or]

theorem mem_clear (h : b ∈ clear stop l) : ∃ a ∈ l, b.Within a := by
  induction l with
  | nil => exact absurd h not_mem_nil
  | cons q l ih =>
    rw [clear_cons] at h
    split at h
    next => exact ⟨b, h, Seg.Within.refl b⟩
    next =>
      split at h
      next hlt hfin =>
        rcases mem_cons.mp h with rfl | hb
        · refine ⟨q, mem_cons_self, stop - q.off, ?_, rfl⟩
          rw [Seg.fin] at hfin
          omega
        · exact ⟨b, mem_cons_of_mem _ hb, Seg.Within.refl b⟩
      next =>
        obtain ⟨a, ha, hba⟩ := ih h
        exact ⟨a, mem_cons_of_mem _ ha, hba⟩

theorem stop_le_of_mem_clear (hl : Sorted l) (h : b ∈ clear stop l) : stop ≤ b.off := by
  induction l with
  | nil => exact absurd h not_mem_nil
  | cons q l ih =>
    have hq := q.off_le_fin
    rw [clear_cons] at h
    split at h
    next hle =>
      rcases mem_cons.mp h with rfl | hb
      · exact hle
      · exact hle.trans (hq.trans (hl.head b hb))
    next hlt =>
      split at h
      next hfin =>
        rcases mem_cons.mp h with rfl | hb
        · rw [Seg.trim_off]
          omega
        · exact hfin.le.trans (hl.head b hb)
      next => exact ih hl.tail h

theorem Sorted.clear (hl : Sorted l) (stop : Nat) : Sorted (clear stop l) := by
  induction l with
  | nil => exact Pairwise.nil
  | cons q l ih =>
    rw [SegmentQueue.clear]
    split
    next => exact hl
    next =>
      split
      next hlt hfin =>
        have hlen : stop - q.off ≤ q.data.length := by
          rw [Seg.fin] at hfin
          omega
        refine pairwise_cons.mpr ⟨fun b hb => ?_, hl.tail⟩
        rw [Seg.fin_trim hlen]
        exact hl.head b hb
      next => exact ih hl.tail

theorem covers_clear (hl : Sorted l) (hk : stop ≤ k) : Covers (clear stop l) k ↔ Covers l k := by
  induction l with
  | nil => rfl
  | cons q l ih =>
    rw [clear_cons]
    split
    next => rfl
    next hlt =>
      split
      next hfin =>
        have hlen : stop - q.off ≤ q.data.length := by
          rw [Seg.fin] at hfin
          omega
        rw [covers_cons, covers_cons, Seg.Has, Seg.Has, Seg.fin_trim hlen, Seg.trim_off]
        have : q.off + (stop - q.off) ≤ k ↔ q.off ≤ k := by omega
        rw [this]
      next hfin =>
        rw [ih hl.tail, covers_cons, Seg.Has]
        refine ⟨.inr, fun h => h.resolve_left fun hq => ?_⟩
        omega

theorem length_pos_of_mem_clear (hl : ∀ a ∈ l, 0 < a.data.length) (h : b ∈ clear stop l) :
    0 < b.data.length := by
  induction l with
  | nil => exact absurd h not_mem_nil
  | cons q l ih =>
    have htail : ∀ a ∈ l, 0 < a.data.length := fun a ha => hl a (mem_cons_of_mem _ ha)
    rw [clear_cons] at h
    split at h
    next => exact hl b h
    next =>
      split at h
      next hfin =>
        rcases mem_cons.mp h with rfl | hb
        · rw [Seg.fin] at hfin
          simp only [Seg.trim, length_drop]
          omega
        · exact htail b hb
      next => exact ih htail h

theorem mem_after (hl : Sorted l) (h : b ∈ l.dropWhile (·.off ≤ s.off)) : s.off < b.off := by
  induction l with
  | nil => exact absurd h not_mem_nil
  | cons q l ih =>
    rw [dropWhile_cons] at h
    split at h
    next => exact ih hl.tail h
    next hlt =>
      have hlt : s.off < q.off := by simpa using hlt
      rcases mem_cons.mp h with rfl | hb
      · exact hlt
      · exact hlt.trans_le (q.off_le_fin.trans (hl.head b hb))

theorem before_append_after (l : List (Seg β τ)) (s : Seg β τ) :
    l.takeWhile (·.off ≤ s.off) ++ l.dropWhile (·.off ≤ s.off) = l := takeWhile_append_dropWhile

theorem search_map {γ : Type} {f : Seg β τ → γ} {p : γ → Bool}
    (h : ∀ a ∈ l, p (f a) = decide (a.off ≤ s.off)) :
    (l.map f).takeWhile p = (l.takeWhile (·.off ≤ s.off)).map f ∧
      (l.map f).dropWhile p = (l.dropWhile (·.off ≤ s.off)).map f := by
  induction l with
  | nil => exact ⟨rfl, rfl⟩
  | cons q l ih =>
    obtain ⟨hbefore, hafter⟩ := ih fun a ha => h a (mem_cons_of_mem _ ha)
    simp only [map_cons, takeWhile_cons, dropWhile_cons, h q mem_cons_self, decide_eq_true_eq]
    split
    next => exact ⟨by rw [map_cons, hbefore], hafter⟩
    next => exact ⟨rfl, rfl⟩

theorem search_append (h : s.off < b.off) (l l' : List (Seg β τ)) :
    (l ++ b :: l').takeWhile (·.off ≤ s.off) = l.takeWhile (·.off ≤ s.off) ∧
      (l ++ b :: l').dropWhile (·.off ≤ s.off) = l.dropWhile (·.off ≤ s.off) ++ b :: l' := by
  induction l with
  | nil => simp [h]
  | cons q l ih =>
    rw [cons_append, takeWhile_cons, dropWhile_cons, takeWhile_cons, dropWhile_cons, ih.1, ih.2]
    split
    next => exact ⟨rfl, rfl⟩
    next => exact ⟨rfl, rfl⟩

section

variable (hl : Sorted l)

include hl

theorem Sorted.before (s : Seg β τ) : Sorted (l.takeWhile (·.off ≤ s.off)) :=
  Pairwise.sublist (takeWhile_sublist _) hl

theorem Sorted.fin_le_getLast {p : Seg β τ} (hp : l.getLast? = some p)
    (ha : a ∈ l) : a.fin ≤ p.fin := by
  obtain ⟨l, rfl⟩ := getLast?_eq_some_iff.mp hp
  rcases mem_append.mp ha with ha | ha
  · have := (pairwise_append.mp hl).2.2 a ha p mem_cons_self
    exact this.trans p.off_le_fin
  · rw [mem_singleton.mp ha]

theorem enqueue_cases (s : Seg β τ) :
    (enqueue s l = none ∧ ∃ p ∈ l, p.off ≤ s.off ∧ s.off < p.fin ∧ s.fin ≤ p.fin) ∨
    ∃ before after i, l = before ++ after ∧ (i = 0 ∨ i < s.data.length) ∧
      enqueue s l = some (before ++ s.trim i :: clear s.fin after) ∧
      (∀ a ∈ before, a.off ≤ s.off ∧ a.fin ≤ s.off + i) ∧ (∀ b ∈ after, s.off < b.off) ∧
      (0 < i → ∃ p ∈ before, p.fin = s.off + i) := by
  have hsplit := before_append_after l s
  have hbefore : ∀ a ∈ l.takeWhile (·.off ≤ s.off), a.off ≤ s.off := fun a ha => by
    simpa using mem_takeWhile_imp ha
  rw [enqueue]
  cases hp : (l.takeWhile (·.off ≤ s.off)).getLast? with
  | none =>
    have hnil := getLast?_eq_none_iff.mp hp
    rw [hnil, nil_append] at hsplit
    refine Or.inr ⟨[], l, 0, rfl, Or.inl rfl, ?_, by simp, ?_, by simp⟩
    · simp only [hsplit, nil_append, Seg.trim_zero]
    · rw [← hsplit]
      exact fun b hb => mem_after hl hb
  | some p =>
    have hmem := mem_of_getLast? hp
    have hpl : p ∈ l := hsplit ▸ mem_append_left _ hmem
    simp only
    split
    next hcovered =>
      refine Or.inl ⟨rfl, p, hpl, hbefore p hmem, by omega, ?_⟩
      rw [Seg.fin]
      omega
    next hnew =>
      refine Or.inr ⟨_, _, p.fin - s.off, hsplit.symm, by omega, rfl, fun a ha => ?_,
        fun b hb => mem_after hl hb, fun hpos => ⟨p, hmem, by omega⟩⟩
      have := (hl.before s).fin_le_getLast hp ha
      exact ⟨hbefore a ha, by omega⟩

theorem Sorted.enqueue (h : enqueue s l = some l') : Sorted l' := by
  rcases enqueue_cases hl s with ⟨hnone, -⟩ | ⟨before, after, i, rfl, hi, hsome, hb, ha, -⟩
  · rw [hnone] at h
    exact absurd h nofun
  · rw [hsome, Option.some.injEq] at h
    subst h
    obtain ⟨hsb, hsa, -⟩ := pairwise_append.mp hl
    have hi : i ≤ s.data.length := by omega
    have hafter : ∀ b ∈ SegmentQueue.clear s.fin after, (s.trim i).fin ≤ b.off := fun b hb => by
      rw [Seg.fin_trim hi]
      exact stop_le_of_mem_clear hsa hb
    refine pairwise_append.mpr ⟨hsb, pairwise_cons.mpr ⟨hafter, Sorted.clear hsa _⟩, ?_⟩
    intro a ha b hmem
    have hle := (hb a ha).2
    rcases mem_cons.mp hmem with rfl | hmem
    · exact hle
    · exact hle.trans ((s.trim i).off_le_fin.trans (hafter b hmem))

theorem mem_enqueue (h : enqueue s l = some l') (hb : b ∈ l') :
    b.Within s ∨ ∃ a ∈ l, b.Within a := by
  rcases enqueue_cases hl s with ⟨hnone, -⟩ | ⟨before, after, i, rfl, hi, hsome, -, -, -⟩
  · rw [hnone] at h
    exact absurd h nofun
  · rw [hsome, Option.some.injEq] at h
    subst h
    rcases mem_append.mp hb with hb | hb
    · exact .inr ⟨b, mem_append_left _ hb, Seg.Within.refl b⟩
    · rcases mem_cons.mp hb with rfl | hb
      · exact .inl ⟨i, by omega, rfl⟩
      · obtain ⟨a, ha, hba⟩ := mem_clear hb
        exact .inr ⟨a, mem_append_right _ ha, hba⟩

theorem length_pos_of_mem_enqueue (hpos : ∀ a ∈ l, 0 < a.data.length)
    (hs : 0 < s.data.length) (h : enqueue s l = some l') (hb : b ∈ l') : 0 < b.data.length := by
  rcases enqueue_cases hl s with ⟨hnone, -⟩ | ⟨before, after, i, rfl, hi, hsome, -, -, -⟩
  · rw [hnone] at h
    exact absurd h nofun
  · rw [hsome, Option.some.injEq] at h
    subst h
    rcases mem_append.mp hb with hb | hb
    · exact hpos b (mem_append_left _ hb)
    · rcases mem_cons.mp hb with rfl | hb
      · simp only [Seg.trim, length_drop]
        omega
      · exact length_pos_of_mem_clear (fun a ha => hpos a (mem_append_right _ ha)) hb

theorem covers_enqueue (h : enqueue s l = some l') : Covers l' k ↔ s.Has k ∨ Covers l k := by
  rcases enqueue_cases hl s with ⟨hnone, -⟩ | ⟨before, after, i, rfl, hi, hsome, hb, ha, hpos⟩
  · rw [hnone] at h
    exact absurd h nofun
  · rw [hsome, Option.some.injEq] at h
    subst h
    obtain ⟨-, hsa, hcross⟩ := pairwise_append.mp hl
    have hi : i ≤ s.data.length := by omega
    constructor
    · rintro ⟨b, hbm, hk⟩
      rcases mem_append.mp hbm with hbm | hbm
      · exact .inr ⟨b, mem_append_left _ hbm, hk⟩
      · rcases mem_cons.mp hbm with rfl | hbm
        · exact .inl (Seg.Within.has ⟨i, hi, rfl⟩ hk)
        · obtain ⟨a, ha, hba⟩ := mem_clear hbm
          exact .inr ⟨a, mem_append_right _ ha, hba.has hk⟩
    · rw [covers_append, covers_append, covers_cons]
      rintro (hk | hk | hk)
      · by_cases hki : s.off + i ≤ k
        · exact .inr (.inl ⟨hki, (Seg.fin_trim hi).symm ▸ hk.2⟩)
        · obtain ⟨p, hp, hfin⟩ := hpos (by have := hk.1; omega)
          exact .inl ⟨p, hp, (hb p hp).1.trans hk.1, by omega⟩
      · exact .inl hk
      · by_cases hks : s.fin ≤ k
        · exact .inr (.inr ((covers_clear hsa hks).mpr hk))
        · obtain ⟨a, ham, hak⟩ := hk
          have hsk : s.off ≤ k := (ha a ham).le.trans hak.1
          by_cases hki : s.off + i ≤ k
          · exact .inr (.inl ⟨hki, by rw [Seg.fin_trim hi]; omega⟩)
          · obtain ⟨p, hp, hfin⟩ := hpos (by omega)
            exact .inl ⟨p, hp, (hb p hp).1.trans hsk, by omega⟩

theorem covers_of_enqueue_none (h : enqueue s l = none) (hk : s.Has k) : Covers l k := by
  rcases enqueue_cases hl s with ⟨-, p, hp, hoff, -, hfin⟩ | ⟨before, after, i, -, -, hsome, -⟩
  · exact ⟨p, hp, hoff.trans hk.1, hk.2.trans_le hfin⟩
  · rw [hsome] at h
    exact absurd h nofun

end

/-- The queue once `s` has come in. -/
def add (s : Seg β τ) (l : List (Seg β τ)) : List (Seg β τ) := (enqueue s l).getD l

theorem Sorted.add (hl : Sorted l) (s : Seg β τ) : Sorted (add s l) := by
  rw [SegmentQueue.add]
  cases h : SegmentQueue.enqueue s l with
  | none => exact hl
  | some l' => exact hl.enqueue h

theorem mem_add (hl : Sorted l) (hb : b ∈ add s l) : b.Within s ∨ ∃ a ∈ l, b.Within a := by
  rw [add] at hb
  cases h : enqueue s l with
  | none =>
    rw [h] at hb
    exact Or.inr ⟨b, hb, Seg.Within.refl b⟩
  | some l' =>
    rw [h] at hb
    exact mem_enqueue hl h hb

theorem length_pos_of_mem_add (hl : Sorted l) (hpos : ∀ a ∈ l, 0 < a.data.length)
    (hs : 0 < s.data.length) (hb : b ∈ add s l) : 0 < b.data.length := by
  rw [add] at hb
  cases h : enqueue s l with
  | none =>
    rw [h] at hb
    exact hpos b hb
  | some l' =>
    rw [h] at hb
    exact length_pos_of_mem_enqueue hl hpos hs h hb

theorem covers_add (hl : Sorted l) : Covers (add s l) k ↔ s.Has k ∨ Covers l k := by
  rw [add]
  cases h : enqueue s l with
  | none => exact ⟨.inr, fun hk => hk.elim (covers_of_enqueue_none hl h) id⟩
  | some l' => exact covers_enqueue hl h

theorem add_of_le (h : ∀ a ∈ l, a.off ≤ s.off) : ∃ l', add s l = l ++ l' := by
  have hbefore : l.takeWhile (·.off ≤ s.off) = l :=
    takeWhile_eq_self_iff.mpr fun a ha => decide_eq_true (h a ha)
  have hafter : l.dropWhile (·.off ≤ s.off) = [] :=
    dropWhile_eq_nil_iff.mpr fun a ha => decide_eq_true (h a ha)
  rw [add, enqueue, hbefore, hafter]
  cases hp : l.getLast? with
  | none =>
    rw [getLast?_eq_none_iff.mp hp]
    exact ⟨_, rfl⟩
  | some p =>
    dsimp only
    split
    next => exact ⟨[], (append_nil l).symm⟩
    next => exact ⟨_, rfl⟩

theorem fst_flush (r : Nat) (l : List (Seg β τ)) : (flush r l).1 = r + (flush r l).2.1.length := by
  induction l generalizing r with
  | nil => rfl
  | cons q l ih =>
    rw [flush_cons]
    split
    next hoff =>
      simp only [length_append]
      rw [ih, Seg.fin, hoff, Nat.add_assoc]
    next => rfl

theorem le_fst_flush (r : Nat) (l : List (Seg β τ)) : r ≤ (flush r l).1 := by
  rw [fst_flush]
  exact Nat.le_add_right _ _

theorem flush_suffix (r : Nat) (l : List (Seg β τ)) : (flush r l).2.2 <:+ l := by
  induction l generalizing r with
  | nil => exact suffix_rfl
  | cons q l ih =>
    rw [flush_cons]
    split
    next => exact (ih q.fin).trans (suffix_cons q l)
    next => exact suffix_rfl

theorem Sorted.flush (hl : Sorted l) (r : Nat) : Sorted (flush r l).2.2 :=
  Pairwise.sublist (flush_suffix r l).sublist hl

theorem flush_lt (hl : Sorted l) (hr : ∀ a ∈ l, r ≤ a.off) (hb : b ∈ (flush r l).2.2) :
    (flush r l).1 < b.off := by
  induction l generalizing r with
  | nil => exact absurd hb not_mem_nil
  | cons q l ih =>
    rw [flush_cons] at hb ⊢
    split at hb
    next hoff =>
      rw [if_pos hoff]
      exact ih hl.tail hl.head hb
    next hoff =>
      rw [if_neg hoff]
      have hq : r < q.off := Nat.lt_of_le_of_ne (hr q mem_cons_self) (Ne.symm hoff)
      rcases mem_cons.mp hb with rfl | hb
      · exact hq
      · exact hq.trans_le (q.off_le_fin.trans (hl.head b hb))

theorem flush_carries (hP : ∀ a ∈ l, a.Carries P) {i : Nat} {d : β}
    (hd : (flush r l).2.1[i]? = some d) : P (r + i) d := by
  induction l generalizing r i with
  | nil => exact absurd hd nofun
  | cons q l ih =>
    rw [flush_cons] at hd
    split at hd
    next hoff =>
      rw [getElem?_append] at hd
      split at hd
      next => exact hoff ▸ hP q mem_cons_self i d hd
      next hi =>
        have := ih (fun a ha => hP a (mem_cons_of_mem _ ha)) hd
        rwa [Seg.fin, Nat.add_assoc, Nat.add_sub_cancel' (Nat.le_of_not_lt hi), hoff] at this
    next => exact absurd hd nofun

theorem covers_flush (hl : Sorted l) (hr : ∀ a ∈ l, r ≤ a.off) :
    Covers l k ↔ r ≤ k ∧ k < (flush r l).1 ∨ Covers (flush r l).2.2 k := by
  induction l generalizing r with
  | nil => simp [Covers, flush_nil]
  | cons q l ih =>
    rw [flush_cons]
    split
    next hoff =>
      have hq := q.off_le_fin
      have hle := le_fst_flush q.fin l
      rw [covers_cons, ih hl.tail hl.head, ← or_assoc, Seg.Has]
      apply or_congr_left
      simp only
      omega
    next =>
      have : ¬(r ≤ k ∧ k < r) := by omega
      simp only [this, false_or]

theorem fin_le_flush (h : (flush r l).2.2 = []) (ha : a ∈ l) : a.fin ≤ (flush r l).1 := by
  induction l generalizing r with
  | nil => exact absurd ha not_mem_nil
  | cons q l ih =>
    rw [flush_cons] at h ⊢
    split at h
    next hoff =>
      rw [if_pos hoff]
      rcases mem_cons.mp ha with rfl | ha
      · exact le_fst_flush _ l
      · exact ih h ha
    next => exact absurd h nofun

theorem fin_getLast_flush (h : (flush r l).2.2 = []) (ha : l.getLast? = some a) :
    a.fin = (flush r l).1 := by
  induction l generalizing r with
  | nil => exact absurd ha nofun
  | cons q l ih =>
    rw [flush_cons] at h ⊢
    split at h
    next hoff =>
      rw [if_pos hoff]
      cases l with
      | nil =>
        rw [← Option.some.inj ha]
        rfl
      | cons q' l => exact ih h (by rwa [getLast?_cons_cons] at ha)
    next => exact absurd h nofun

theorem data_of_flush (h : (flush r l).2.2 = []) : (flush r l).2.1 = l.flatMap Seg.data := by
  induction l generalizing r with
  | nil => rfl
  | cons q l ih =>
    rw [flush_cons] at h ⊢
    split at h
    next hoff => rw [if_pos hoff, flatMap_cons, ← ih h]
    next => exact absurd h nofun

theorem off_of_flush (h : (flush r (a :: l)).2.2 = []) : a.off = r := by
  by_contra hoff
  rw [flush_cons, if_neg hoff] at h
  exact absurd h nofun

theorem sorted_of_flush (h : (flush r l).2.2 = []) : Sorted l ∧ ∀ a ∈ l, r ≤ a.off := by
  induction l generalizing r with
  | nil => exact ⟨Pairwise.nil, by simp⟩
  | cons q l ih =>
    rw [flush_cons] at h
    split at h
    next hoff =>
      obtain ⟨hl, hle⟩ := ih h
      refine ⟨pairwise_cons.mpr ⟨hle, hl⟩, fun a ha => ?_⟩
      rcases mem_cons.mp ha with rfl | ha
      · exact hoff.ge
      · exact hoff.ge.trans (q.off_le_fin.trans (hle a ha))
    next => exact absurd h nofun

theorem carries_of_flush (h : (flush r l).2.2 = []) (ha : a ∈ l) :
    a.Carries fun k d => (flush r l).2.1[k - r]? = some d := by
  induction l generalizing r with
  | nil => exact absurd ha not_mem_nil
  | cons q l ih =>
    rw [flush_cons] at h ⊢
    split at h
    next hoff =>
      rw [if_pos hoff]
      intro i d hd
      obtain ⟨hi, -⟩ := List.getElem?_eq_some_iff.mp hd
      rcases mem_cons.mp ha with rfl | ha
      · rwa [hoff, Nat.add_sub_cancel_left, getElem?_append_left hi]
      · have hle := (sorted_of_flush h).2 a ha
        rw [Seg.fin] at hle
        have := ih h ha i d hd
        rw [getElem?_append_right (by omega), ← this, Seg.fin]
        congr 1
        omega
    next => exact absurd h nofun

theorem flush_of_covers (hl : Sorted l) (hr : ∀ a ∈ l, r ≤ a.off) (hpos : ∀ a ∈ l, a.off < a.fin)
    (hn : ∀ a ∈ l, a.fin ≤ n) (hrn : r ≤ n) (hcov : ∀ k, r ≤ k → k < n → Covers l k) :
    (flush r l).1 = n ∧ (flush r l).2.2 = [] := by
  have hge : n ≤ (flush r l).1 := by
    by_contra hlt
    have hle := le_fst_flush r l
    rcases (covers_flush hl hr).mp (hcov _ hle (Nat.lt_of_not_le hlt)) with hk | ⟨a, ha, hk⟩
    · omega
    · exact absurd hk.1 (Nat.not_le_of_lt (flush_lt hl hr ha))
  have hle : (flush r l).1 ≤ n := by
    by_contra hlt
    obtain ⟨a, ha, hk⟩ := (covers_flush hl hr).mpr (Or.inl ⟨hrn, Nat.lt_of_not_le hlt⟩)
    exact absurd hk.2 (Nat.not_lt_of_le (hn a ha))
  refine ⟨Nat.le_antisymm hle hge, eq_nil_iff_forall_not_mem.mpr fun a ha => ?_⟩
  have hmem := (flush_suffix r l).subset ha
  have := flush_lt hl hr ha
  have := hpos a hmem
  have := hn a hmem
  omega

theorem Sorted.eq_of_has (hl : Sorted l) (ha : a ∈ l) (hb : b ∈ l) (hka : a.Has k)
    (hkb : b.Has k) : a = b := by
  induction l with
  | nil => exact absurd ha not_mem_nil
  | cons q l ih =>
    rcases mem_cons.mp ha with rfl | hal
    · rcases mem_cons.mp hb with rfl | hbl
      · rfl
      · have := hl.head b hbl
        have := hka.2
        have := hkb.1
        omega
    · rcases mem_cons.mp hb with rfl | hbl
      · have := hl.head a hal
        have := hkb.2
        have := hka.1
        omega
      · exact ih hl.tail hal hbl

/-- The queue up to the first segment that reaches position `n`. -/
def front (n : Nat) : List (Seg β τ) → List (Seg β τ)
  | [] => []
  | q :: l => if q.fin < n then q :: front n l else [q]

theorem front_nil (n : Nat) : front n ([] : List (Seg β τ)) = [] := rfl

theorem front_cons (n : Nat) (q : Seg β τ) (l : List (Seg β τ)) :
    front n (q :: l) = if q.fin < n then q :: front n l else [q] := rfl

theorem front_sublist (n : Nat) (l : List (Seg β τ)) : (front n l).Sublist l := by
  induction l with
  | nil => exact Sublist.slnil
  | cons q l ih =>
    rw [front_cons]
    split
    next => exact ih.cons_cons q
    next => exact singleton_sublist.mpr mem_cons_self

theorem Sorted.front (hl : Sorted l) (n : Nat) : Sorted (front n l) :=
  Pairwise.sublist (front_sublist n l) hl

theorem front_append (h : ∀ a ∈ l, a.fin < n) : front n (l ++ l') = l ++ front n l' := by
  induction l with
  | nil => rfl
  | cons q l ih =>
    rw [cons_append, front_cons, if_pos (h q mem_cons_self),
      ih fun a ha => h a (mem_cons_of_mem _ ha), cons_append]

theorem front_of_lt (h : ∀ a ∈ l, a.fin < n) : front n l = l := by
  have hfront : front n (l ++ []) = l ++ front n [] := front_append h
  rwa [front_nil, append_nil] at hfront

theorem front_cons_of_le (h : n ≤ s.fin) (l : List (Seg β τ)) : front n (s :: l) = [s] := by
  rw [front_cons, if_neg (Nat.not_lt_of_le h)]

theorem front_append_of_le (h : ∃ b ∈ l, n ≤ b.fin) : front n (l ++ l') = front n l := by
  induction l with
  | nil =>
    obtain ⟨b, hb, -⟩ := h
    exact absurd hb not_mem_nil
  | cons q l ih =>
    rw [cons_append, front_cons, front_cons]
    split
    next hlt =>
      obtain ⟨b, hb, hle⟩ := h
      rcases mem_cons.mp hb with rfl | hb
      · omega
      · rw [ih ⟨b, hb, hle⟩]
    next => rfl

theorem front_cases (n : Nat) (l : List (Seg β τ)) : (∀ a ∈ l, a.fin < n) ∨
      ∃ l₀ b l₁, l = l₀ ++ b :: l₁ ∧ front n l = l₀ ++ [b] ∧ (∀ a ∈ l₀, a.fin < n) ∧ n ≤ b.fin := by
  induction l with
  | nil => exact .inl (by simp)
  | cons q l ih =>
    by_cases hq : q.fin < n
    · rw [front_cons, if_pos hq]
      rcases ih with ih | ⟨l₀, b, l₁, rfl, hfront, hlt, hle⟩
      · exact .inl fun a ha => (mem_cons.mp ha).elim (fun h => h ▸ hq) (ih a)
      · refine .inr ⟨q :: l₀, b, l₁, rfl, by rw [hfront]; rfl, fun a ha => ?_, hle⟩
        exact (mem_cons.mp ha).elim (fun h => h ▸ hq) (hlt a)
    · refine .inr ⟨[], q, l, rfl, ?_, by simp, Nat.le_of_not_lt hq⟩
      rw [front_cons, if_neg hq]
      rfl

theorem clear_append (h : ∃ b ∈ l, stop < b.fin) : clear stop (l ++ l') = clear stop l ++ l' := by
  induction l with
  | nil =>
    obtain ⟨b, hb, -⟩ := h
    exact absurd hb not_mem_nil
  | cons q l ih =>
    rw [cons_append, clear_cons, clear_cons]
    split
    next => rfl
    next =>
      split
      next => rfl
      next hfin =>
        obtain ⟨b, hb, hlt⟩ := h
        rcases mem_cons.mp hb with rfl | hb
        · exact absurd hlt hfin
        · exact ih ⟨b, hb, hlt⟩

theorem exists_fin_clear (h : ∃ b ∈ l, n ≤ b.fin) (hstop : stop < n) :
    ∃ b ∈ clear stop l, n ≤ b.fin := by
  induction l with
  | nil =>
    obtain ⟨b, hb, -⟩ := h
    exact absurd hb not_mem_nil
  | cons q l ih =>
    obtain ⟨b, hb, hle⟩ := h
    rw [clear_cons]
    split
    next => exact ⟨b, hb, hle⟩
    next hoff =>
      split
      next hfin =>
        rcases mem_cons.mp hb with rfl | hb
        · refine ⟨_, mem_cons_self, ?_⟩
          rw [Seg.fin] at hfin
          rwa [Seg.fin_trim (by omega)]
        · exact ⟨b, mem_cons_of_mem _ hb, hle⟩
      next hfin =>
        rcases mem_cons.mp hb with rfl | hb
        · omega
        · exact ih ⟨b, hb, hle⟩

end Mbsd.Lib.SegmentQueue
