import Mathlib.Data.List.Basic
import Mathlib.Data.List.Flatten
import Mathlib.Data.List.Pairwise
import Mathlib.Order.Basic

/-! What is missing from a span, as a list of gaps in order, and the filling of a range. -/

namespace Mbsd.Lib.Gaps

open List

/-- The positions `start, …, stop - 1`. -/
structure Gap where
  start : Nat
  stop : Nat
  deriving DecidableEq

namespace Gap

def Has (g : Gap) (k : Nat) : Prop := g.start ≤ k ∧ k < g.stop

/-- What is left of a gap when the range `s, …, e - 1` is filled. -/
def fill (s e : Nat) (g : Gap) : List Gap :=
  (if g.start < min g.stop s then [⟨g.start, min g.stop s⟩] else []) ++
    if max g.start e < g.stop then [⟨max g.start e, g.stop⟩] else []

variable {g h : Gap} {s e k : Nat}

theorem fill_of_outside (hg : g.start < g.stop) (hse : s ≤ e) (h : e ≤ g.start ∨ g.stop ≤ s) :
    g.fill s e = [g] := by
  rw [fill]
  rcases h with h | h
  · rw [if_neg (by omega), if_pos (by omega), Nat.max_eq_left h]
    rfl
  · rw [if_pos (by omega), if_neg (by omega), Nat.min_eq_left h]
    rfl

theorem fill_of_covered (hs : s ≤ g.start) (he : g.stop ≤ e) : g.fill s e = [] := by
  rw [fill, if_neg (by omega), if_neg (by omega)]
  rfl

theorem fill_start (hs : s ≤ g.start) (hlt : g.start < e) (he : e < g.stop) :
    g.fill s e = [⟨e, g.stop⟩] := by
  rw [fill, if_neg (by omega), if_pos (by omega), Nat.max_eq_right (by omega)]
  rfl

theorem fill_stop (hs : g.start < s) (hlt : s < g.stop) (he : g.stop ≤ e) :
    g.fill s e = [⟨g.start, s⟩] := by
  rw [fill, if_pos (by omega), if_neg (by omega), Nat.min_eq_right (by omega)]
  rfl

theorem fill_middle (hs : g.start < s) (hse : s < e) (he : e < g.stop) :
    g.fill s e = [⟨g.start, s⟩, ⟨e, g.stop⟩] := by
  rw [fill, if_pos (by omega), if_pos (by omega), Nat.min_eq_right (by omega),
    Nat.max_eq_right (by omega)]
  rfl

theorem mem_fill (hm : h ∈ g.fill s e) :
    h.start < h.stop ∧ g.start ≤ h.start ∧ h.stop ≤ g.stop := by
  rw [fill, mem_append] at hm
  rcases hm with hm | hm
  · split at hm
    · obtain rfl := mem_singleton.mp hm
      simp only
      omega
    · exact absurd hm not_mem_nil
  · split at hm
    · obtain rfl := mem_singleton.mp hm
      simp only
      omega
    · exact absurd hm not_mem_nil

theorem exists_mem_ite {α : Type} {c : Prop} [Decidable c] {x : α} {P : α → Prop} :
    (∃ h ∈ if c then [x] else [], P h) ↔ c ∧ P x := by
  split <;> simp [*]

theorem has_fill : (∃ h ∈ g.fill s e, h.Has k) ↔ g.Has k ∧ ¬(s ≤ k ∧ k < e) := by
  simp only [fill, mem_append, or_and_right, exists_or, exists_mem_ite, Has]
  omega

end Gap

/-- The gaps have something in them, and come in order. -/
structure Ordered (l : List Gap) : Prop where
  nonempty : ∀ g ∈ l, g.start < g.stop
  pairwise : l.Pairwise fun g h => g.stop ≤ h.start

def Missing (l : List Gap) (k : Nat) : Prop := ∃ g ∈ l, g.Has k

def fillAll (s e : Nat) (l : List Gap) : List Gap := l.flatMap (Gap.fill s e)

variable {l l' : List Gap} {g h : Gap} {s e k : Nat}

theorem Ordered.nil : Ordered [] := ⟨by simp, Pairwise.nil⟩

theorem Ordered.singleton (h : g.start < g.stop) : Ordered [g] :=
  ⟨by simpa using h, pairwise_singleton _ _⟩

theorem Ordered.head (hl : Ordered (g :: l)) : g.start < g.stop :=
  hl.nonempty g mem_cons_self

theorem Ordered.tail (hl : Ordered (g :: l)) : Ordered l where
  nonempty h hm := hl.nonempty h (mem_cons_of_mem _ hm)
  pairwise := (pairwise_cons.mp hl.pairwise).2

theorem Ordered.stop_le (hl : Ordered (g :: l)) (hm : h ∈ l) : g.stop ≤ h.start :=
  (pairwise_cons.mp hl.pairwise).1 h hm

theorem Ordered.append (hl : Ordered l) (hl' : Ordered l')
    (hle : ∀ g ∈ l, ∀ h ∈ l', g.stop ≤ h.start) : Ordered (l ++ l') where
  nonempty g hm := (mem_append.mp hm).elim (hl.nonempty g) (hl'.nonempty g)
  pairwise := pairwise_append.mpr ⟨hl.pairwise, hl'.pairwise, hle⟩

@[simp] theorem missing_nil : ¬Missing [] k := by simp [Missing]

theorem missing_append : Missing (l ++ l') k ↔ Missing l k ∨ Missing l' k := by
  simp only [Missing, mem_append, or_and_right, exists_or]

theorem missing_singleton : Missing [g] k ↔ g.Has k := by simp [Missing]

theorem mem_fillAll (hm : h ∈ fillAll s e l) :
    ∃ g ∈ l, h.start < h.stop ∧ g.start ≤ h.start ∧ h.stop ≤ g.stop := by
  obtain ⟨g, hg, hh⟩ := mem_flatMap.mp hm
  exact ⟨g, hg, Gap.mem_fill hh⟩

theorem missing_fillAll : Missing (fillAll s e l) k ↔ Missing l k ∧ ¬(s ≤ k ∧ k < e) := by
  constructor
  · rintro ⟨h, hm, hk⟩
    obtain ⟨g, hg, hh⟩ := mem_flatMap.mp hm
    obtain ⟨hgk, hnot⟩ := Gap.has_fill.mp ⟨h, hh, hk⟩
    exact ⟨⟨g, hg, hgk⟩, hnot⟩
  · rintro ⟨⟨g, hg, hgk⟩, hnot⟩
    obtain ⟨h, hh, hk⟩ := Gap.has_fill.mpr ⟨hgk, hnot⟩
    exact ⟨h, mem_flatMap.mpr ⟨g, hg, hh⟩, hk⟩

theorem ordered_fill (g : Gap) (hse : s ≤ e) : Ordered (g.fill s e) := by
  refine ⟨fun h hm => (Gap.mem_fill hm).1, ?_⟩
  rw [Gap.fill]
  split <;> split
  · refine pairwise_pair.mpr ?_
    simp only
    omega
  · exact pairwise_singleton _ _
  · exact pairwise_singleton _ _
  · exact Pairwise.nil

theorem Ordered.fillAll (hl : Ordered l) (hse : s ≤ e) : Ordered (fillAll s e l) := by
  induction l with
  | nil => exact Ordered.nil
  | cons g l ih =>
    rw [Gaps.fillAll, flatMap_cons]
    refine (ordered_fill g hse).append (ih hl.tail) fun a ha b hb => ?_
    obtain ⟨h, hh, -, hle, -⟩ := mem_fillAll hb
    exact Nat.le_trans (Gap.mem_fill ha).2.2 (Nat.le_trans (hl.stop_le hh) hle)

theorem fillAll_of_outside (hl : Ordered l) (hse : s ≤ e)
    (h : (∀ g ∈ l, e ≤ g.start) ∨ ∀ g ∈ l, g.stop ≤ s) : fillAll s e l = l := by
  induction l with
  | nil => rfl
  | cons g l ih =>
    have hg := Gap.fill_of_outside hl.head hse
      (h.imp (fun h => h g mem_cons_self) fun h => h g mem_cons_self)
    have htail := ih hl.tail (h.imp (fun h a ha => h a (mem_cons_of_mem _ ha))
      fun h a ha => h a (mem_cons_of_mem _ ha))
    rw [fillAll] at htail
    rw [fillAll, flatMap_cons, hg, htail, singleton_append]

/-! Ranges that keep away from each other, and what happens when one more comes in. -/

/-- Not even adjacent. -/
def Gap.Apart (g h : Gap) : Prop := g.stop < h.start ∨ h.stop < g.start

instance (g h : Gap) : Decidable (g.Apart h) :=
  inferInstanceAs (Decidable (g.stop < h.start ∨ h.stop < g.start))

def Gap.hull (g h : Gap) : Gap := ⟨min g.start h.start, max g.stop h.stop⟩

/-- The range takes in all of the list that it meets, and grows by them. -/
def absorb (f : Gap) : List Gap → Gap × List Gap
  | [] => (f, [])
  | g :: l => if f.Apart g then ((absorb f l).1, g :: (absorb f l).2) else absorb (f.hull g) l

theorem absorb_cons (f g : Gap) (l : List Gap) : absorb f (g :: l) =
      if f.Apart g then ((absorb f l).1, g :: (absorb f l).2) else absorb (f.hull g) l := rfl

variable {f g h : Gap} {l : List Gap} {k lo hi : Nat}

theorem Gap.Apart.symm (h' : g.Apart h) : h.Apart g := Or.symm h'

@[simp] theorem Gap.hull_self (g : Gap) : g.hull g = g := by simp [Gap.hull]

theorem Gap.hull_has (hmeet : ¬f.Apart g) : (f.hull g).Has k ↔ f.Has k ∨ g.Has k := by
  simp only [Gap.Apart, Gap.Has, Gap.hull] at *
  omega

theorem Gap.Apart.hull (hh : h.start ≤ h.stop) (hf : h.Apart f) (hg : h.Apart g)
    (hmeet : ¬f.Apart g) : h.Apart (f.hull g) := by
  simp only [Gap.Apart, Gap.hull] at *
  omega

theorem absorb_sublist (f : Gap) (l : List Gap) : (absorb f l).2.Sublist l := by
  induction l generalizing f with
  | nil => exact Sublist.refl _
  | cons g l ih =>
    rw [absorb_cons]
    split
    · exact (ih f).cons_cons g
    · exact (ih _).cons g

theorem absorb_of_apart (h : ∀ g ∈ l, f.Apart g) : absorb f l = (f, l) := by
  induction l with
  | nil => rfl
  | cons g l ih =>
    have ih := ih fun g hg => h g (mem_cons_of_mem _ hg)
    rw [absorb_cons, if_pos (h g mem_cons_self), ih]

theorem absorb_length (hmeet : ¬∀ g ∈ l, f.Apart g) : (absorb f l).2.length < l.length := by
  induction l with
  | nil => exact absurd (fun g hg => absurd hg not_mem_nil) hmeet
  | cons g l ih =>
    rw [absorb_cons]
    split
    next hg =>
      refine Nat.succ_lt_succ (ih fun hall => hmeet fun a ha => ?_)
      rcases mem_cons.mp ha with rfl | ha
      · exact hg
      · exact hall a ha
    next => exact Nat.lt_succ_of_le (absorb_sublist _ l).length_le

theorem absorb_ge (f : Gap) (l : List Gap) :
    (absorb f l).1.start ≤ f.start ∧ f.stop ≤ (absorb f l).1.stop := by
  induction l generalizing f with
  | nil => exact ⟨Nat.le_refl _, Nat.le_refl _⟩
  | cons g l ih =>
    rw [absorb_cons]
    split
    · exact ih f
    · exact ⟨Nat.le_trans (ih (f.hull g)).1 (Nat.min_le_left _ _),
        Nat.le_trans (Nat.le_max_left _ _) (ih (f.hull g)).2⟩

theorem absorb_between (hf : lo < f.start ∧ f.stop < hi)
    (hl : ∀ g ∈ l, lo < g.start ∧ g.stop < hi) :
    lo < (absorb f l).1.start ∧ (absorb f l).1.stop < hi := by
  induction l generalizing f with
  | nil => exact hf
  | cons g l ih =>
    have hg := hl g mem_cons_self
    have hl := fun g hg => hl g (mem_cons_of_mem _ hg)
    rw [absorb_cons]
    split
    · exact ih hf hl
    · exact ih ⟨Nat.lt_min.mpr ⟨hf.1, hg.1⟩, Nat.max_lt.mpr ⟨hf.2, hg.2⟩⟩ hl

theorem absorb_has : (absorb f l).1.Has k ∨ (∃ g ∈ (absorb f l).2, g.Has k) ↔
    f.Has k ∨ ∃ g ∈ l, g.Has k := by
  induction l generalizing f with
  | nil => rfl
  | cons g l ih =>
    rw [absorb_cons]
    split
    · simp only [exists_mem_cons_iff, or_left_comm (b := g.Has k), ih]
    next hmeet => rw [ih, Gap.hull_has hmeet, exists_mem_cons_iff, or_assoc]

theorem apart_absorb (hh : h.start ≤ h.stop) (hf : h.Apart f) (hl : ∀ g ∈ l, h.Apart g) :
    h.Apart (absorb f l).1 := by
  induction l generalizing f with
  | nil => exact hf
  | cons g l ih =>
    have hg := hl g mem_cons_self
    have hl := fun g hg => hl g (mem_cons_of_mem _ hg)
    rw [absorb_cons]
    split
    · exact ih hf hl
    next hmeet => exact ih (Gap.Apart.hull hh hf hg hmeet) hl

theorem absorb_apart (hl : l.Pairwise Gap.Apart) (hne : ∀ g ∈ l, g.start ≤ g.stop) :
    ((absorb f l).1 :: (absorb f l).2).Pairwise Gap.Apart := by
  refine pairwise_cons.mpr ⟨?_, hl.sublist (absorb_sublist f l)⟩
  induction l generalizing f with
  | nil => exact fun _ hm => absurd hm not_mem_nil
  | cons g l ih =>
    obtain ⟨hg, hl⟩ := pairwise_cons.mp hl
    have ih := fun f => @ih f hl fun g hg => hne g (mem_cons_of_mem _ hg)
    rw [absorb_cons]
    split
    next hfg =>
      intro a ha
      rcases mem_cons.mp ha with rfl | ha
      · exact (apart_absorb (hne a mem_cons_self) hfg.symm hg).symm
      · exact ih f a ha
    next => exact ih _

end Mbsd.Lib.Gaps

/-! How many gaps pieces in order leave: before the first one, between neighbours, and after the
last one while it says that more is to come. -/

namespace Mbsd.Lib.GapCount

open List Option

variable {α : Type} (start stop : α → Nat) (more : α → Bool)

/-- The gaps from position `s` on, when what stands before `s` says `o` about more to come. -/
def gapsFrom (s : Nat) (o : Bool) : List α → Nat
  | [] => if o then 1 else 0
  | e :: l => (if start e = s then 0 else 1) + gapsFrom (stop e) (more e) l

theorem gapsFrom_nil (s : Nat) (o : Bool) :
    gapsFrom start stop more s o [] = if o then 1 else 0 := rfl

theorem gapsFrom_cons (s : Nat) (o : Bool) (e : α) (l : List α) :
    gapsFrom start stop more s o (e :: l) =
      (if start e = s then 0 else 1) + gapsFrom start stop more (stop e) (more e) l := rfl

/-- Pieces with something in them, in order from `s` on, all but the last announcing more. -/
structure InOrder (s : Nat) (l : List α) : Prop where
  pos : ∀ e ∈ l, start e < stop e
  front : ∀ e ∈ l, s ≤ start e
  pairwise : l.Pairwise fun a b => stop a ≤ start b ∧ more a = true

def lastStop (s : Nat) (l : List α) : Nat := (l.getLast?.map stop).getD s

def lastMore (o : Bool) (l : List α) : Bool := (l.getLast?.map more).getD o

/-- One if the piece meets its left neighbour, and one if it meets its right neighbour. -/
def joins (s : Nat) (l₁ : List α) (e : α) (l₂ : List α) : Nat :=
  (if start e = lastStop stop s l₁ then 1 else 0) +
    match l₂.head? with
    | none => if more e then 0 else 1
    | some b => if start b = stop e then 1 else 0

variable {start stop more} {s : Nat} {o : Bool} {a e : α} {l l₁ l₂ : List α}

@[simp] theorem lastStop_cons : lastStop stop s (a :: l) = lastStop stop (stop a) l := by
  rw [lastStop, lastStop, getLast?_cons]
  cases l.getLast? <;> rfl

@[simp] theorem lastMore_cons : lastMore more o (a :: l) = lastMore more (more a) l := by
  rw [lastMore, lastMore, getLast?_cons]
  cases l.getLast? <;> rfl

theorem InOrder.tail (h : InOrder start stop more s (a :: l)) :
    InOrder start stop more (stop a) l where
  pos e he := h.pos e (mem_cons_of_mem _ he)
  front e he := ((pairwise_cons.mp h.pairwise).1 e he).1
  pairwise := (pairwise_cons.mp h.pairwise).2

theorem InOrder.more_of_mem (h : InOrder start stop more s (a :: l)) (he : e ∈ l) : more a = true :=
  ((pairwise_cons.mp h.pairwise).1 e he).2

theorem InOrder.sublist (h : InOrder start stop more s l) (hl : l₁.Sublist l) :
    InOrder start stop more s l₁ where
  pos e he := h.pos e (hl.subset he)
  front e he := h.front e (hl.subset he)
  pairwise := h.pairwise.sublist hl

theorem InOrder.insert (h : InOrder start stop more s (l₁ ++ l₂)) (he : start e < stop e)
    (hs : s ≤ start e) (h₁ : ∀ a ∈ l₁, stop a ≤ start e ∧ more a = true)
    (h₂ : ∀ b ∈ l₂, stop e ≤ start b ∧ more e = true) :
    InOrder start stop more s (l₁ ++ e :: l₂) where
  pos a ha := by
    rcases mem_append.mp ha with ha | ha
    · exact h.pos a (mem_append_left _ ha)
    · rcases mem_cons.mp ha with rfl | ha
      · exact he
      · exact h.pos a (mem_append_right _ ha)
  front a ha := by
    rcases mem_append.mp ha with ha | ha
    · exact h.front a (mem_append_left _ ha)
    · rcases mem_cons.mp ha with rfl | ha
      · exact hs
      · exact h.front a (mem_append_right _ ha)
  pairwise := by
    obtain ⟨hp₁, hp₂, hp⟩ := pairwise_append.mp h.pairwise
    refine pairwise_append.mpr ⟨hp₁, pairwise_cons.mpr ⟨h₂, hp₂⟩, fun a ha b hb => ?_⟩
    rcases mem_cons.mp hb with rfl | hb
    · exact h₁ a ha
    · exact hp a ha b hb

section

variable (h : InOrder start stop more s (l₁ ++ e :: l₂))

include h

theorem InOrder.before (ha : a ∈ l₁) : stop a ≤ start e ∧ more a = true :=
  (pairwise_append.mp h.pairwise).2.2 a ha e mem_cons_self

theorem InOrder.behind (ha : a ∈ l₂) : stop e ≤ start a ∧ more e = true :=
  (pairwise_cons.mp (pairwise_append.mp h.pairwise).2.1).1 a ha

theorem InOrder.start_lt (ha : a ∈ l₁) : start a < start e :=
  Nat.lt_of_lt_of_le (h.pos a (mem_append_left _ ha)) (h.before ha).1

theorem InOrder.lt_start (ha : a ∈ l₂) : start e < start a :=
  Nat.lt_of_lt_of_le (h.pos e (by simp)) (h.behind ha).1

theorem InOrder.not_mem : e ∉ l₁ :=
  fun he => Nat.lt_irrefl _ (h.start_lt he)

end

theorem joins_nil_nil : joins start stop more s [] e [] =
    (if start e = s then 1 else 0) + if more e then 0 else 1 := rfl

theorem joins_nil_cons : joins start stop more s [] e (a :: l₂) =
    (if start e = s then 1 else 0) + if start a = stop e then 1 else 0 := rfl

theorem gapsFrom_insert (h : InOrder start stop more s (l₁ ++ e :: l₂)) :
    gapsFrom start stop more s true (l₁ ++ e :: l₂) + joins start stop more s l₁ e l₂ =
      gapsFrom start stop more s true (l₁ ++ l₂) + 1 := by
  induction l₁ generalizing s with
  | nil =>
    cases l₂ with
    | nil =>
      simp only [nil_append, gapsFrom_cons, joins_nil_nil]
      split <;> cases more e <;> rfl
    | cons b l₂ =>
      have hs : s ≤ start e := h.front e mem_cons_self
      have he : start e < stop e := h.pos e mem_cons_self
      have hb : stop e ≤ start b := h.tail.front b mem_cons_self
      have hne : start b ≠ s := by omega
      simp only [nil_append, gapsFrom_cons, joins_nil_cons, if_neg hne]
      split <;> split <;> omega
  | cons a l₁ ih =>
    have ha : more a = true := h.more_of_mem (e := e) (by simp)
    have hih := ih h.tail
    simp only [cons_append, gapsFrom_cons, ha, joins, lastStop_cons] at hih ⊢
    omega

section

variable (h : InOrder start stop more s l)

include h

theorem gapsFrom_add_length_le :
    gapsFrom start stop more s o l + l.length + s ≤ lastStop stop s l + 1 := by
  induction l generalizing s o with
  | nil =>
    rw [gapsFrom_nil, lastStop]
    simp only [length_nil, getLast?_nil, map_none, getD_none]
    split <;> omega
  | cons a l ih =>
    have hs : s ≤ start a := h.front a mem_cons_self
    have ha : start a < stop a := h.pos a mem_cons_self
    have hih := ih (o := more a) h.tail
    rw [gapsFrom_cons, length_cons, lastStop_cons]
    split <;> omega

theorem le_lastStop : s ≤ lastStop stop s l := by
  induction l generalizing s with
  | nil => exact Nat.le_refl s
  | cons a l ih =>
    have hs : s ≤ start a := h.front a mem_cons_self
    have ha : start a < stop a := h.pos a mem_cons_self
    rw [lastStop_cons]
    exact Nat.le_trans (by omega) (ih h.tail)

theorem stop_le_lastStop (he : e ∈ l) : stop e ≤ lastStop stop s l := by
  induction l generalizing s with
  | nil => exact absurd he not_mem_nil
  | cons a l ih =>
    rw [lastStop_cons]
    rcases mem_cons.mp he with rfl | he
    · exact le_lastStop h.tail
    · exact ih h.tail he

theorem gapsFrom_eq_zero_iff : gapsFrom start stop more s o l = 0 ↔ lastMore more o l = false ∧
        ∀ x, s ≤ x → x < lastStop stop s l → ∃ e ∈ l, start e ≤ x ∧ x < stop e := by
  induction l generalizing s o with
  | nil =>
    rw [gapsFrom_nil, lastMore, lastStop]
    simp only [getLast?_nil, map_none, getD_none]
    constructor
    · intro ho
      refine ⟨by cases o <;> simp_all, fun x hs hx => absurd hx (by omega)⟩
    · rintro ⟨rfl, -⟩
      rfl
  | cons a l ih =>
    have hs : s ≤ start a := h.front a mem_cons_self
    have ha : start a < stop a := h.pos a mem_cons_self
    have hle : stop a ≤ lastStop stop (stop a) l := le_lastStop h.tail
    rw [gapsFrom_cons, Nat.add_eq_zero_iff, ih h.tail, lastMore_cons, lastStop_cons]
    constructor
    · rintro ⟨hstart, hmore, hcover⟩
      refine ⟨hmore, fun x hsx hx => ?_⟩
      by_cases hxa : x < stop a
      · have heq : start a = s := by
          by_contra hne
          rw [if_neg hne] at hstart
          exact absurd hstart Nat.one_ne_zero
        exact ⟨a, mem_cons_self, by omega, hxa⟩
      · obtain ⟨e, he, hex⟩ := hcover x (by omega) hx
        exact ⟨e, mem_cons_of_mem _ he, hex⟩
    · rintro ⟨hmore, hcover⟩
      refine ⟨if_pos ?_, hmore, fun x hax hx => ?_⟩
      · obtain ⟨e, he, hes, -⟩ := hcover s (Nat.le_refl s) (by omega)
        rcases mem_cons.mp he with rfl | he
        · omega
        · have := h.tail.front e he
          omega
      · obtain ⟨e, he, hex⟩ := hcover x (by omega) hx
        rcases mem_cons.mp he with rfl | he
        · omega
        · exact ⟨e, he, hex⟩

end

end Mbsd.Lib.GapCount
