import Mbsd.Kern.SubrTree.Insert

/-! `rbe_remove_color` puts the balance right where a black entry has left, and `rbe_remove`. -/

namespace Mbsd.Kern.SubrTree

open Lib BinTree List Nat

variable {ν : Type} {s s' : RbTree ν} {p : Path ν} {t a b c e : BinTree ν}
  {v w x y : ν} {d : Side} {n : Nat} {fuel : Nat} {color : RbColor}

theorem isRed_top (ht : BlackTop (IsRed s) t) : isRed s t.top = false := by
  cases hx : t.top with
  | none => rfl
  | some x => exact decide_eq_false (ht x hx)

theorem isRed_eq : isRed s (some x) = true ↔ IsRed s x := decide_eq_true_iff

theorem not_blackTop : ¬BlackTop (IsRed s) t ↔
    ∃ x, t.top = some x ∧ isRed s (some x) = true ∧ IsRed s x := by
  simp [BlackTop, isRed, IsRed]

structure Removing (s : RbTree ν) (p : Path ν) (t : BinTree ν) (n : Nat) : Prop where
  holds : Holds s (p.fill t)
  short : t.Short (IsRed s) n
  above : p.Balanced (IsRed s) (n + 1)

theorem Removing.links (h : Removing s (.step d p y (branch d c w e)) t n) :
    s.rbtChild d.flip y = some w ∧ s.rbtChild d w = c.top ∧ s.rbtChild d.flip w = e.top := by
  obtain ⟨-, -, hw, hl, -⟩ := h.holds.linkedPath
  obtain ⟨-, hc, he, -⟩ := linked_branch.mp hl
  exact ⟨hw.trans (top_branch ..), hc, he⟩

theorem Removing.nephews (h : Removing s (.step d p y (branch d c w e)) t n) :
    (!isRed s (s.rbtChild .left w) && !isRed s (s.rbtChild .right w)) =
      (!isRed s c.top && !isRed s e.top) := by
  obtain ⟨-, hc, he⟩ := h.links
  cases d with
  | left => exact hc ▸ he ▸ rfl
  | right => exact hc ▸ he ▸ Bool.and_comm ..

def Lacking (s : RbTree ν) (color : RbColor) (p : Path ν) (c : BinTree ν) : Prop :=
  ∃ n, c.Balanced (IsRed s) n ∧ (color = .RB_BLACK ∧ p.Balanced (IsRed s) (n + 1) ∨
    color = .RB_RED ∧ BlackTop (IsRed s) c ∧ p.Balanced (IsRed s) n)

theorem lacking_of_fill (h : RedBlack (IsRed s) (p.fill (branch d .nil y c))) :
    Lacking s (s.rbtColor y) p c := by
  obtain ⟨n, hp, hn, -⟩ := Path.Balanced.of_fill h
  cases hy : s.rbtColor y with
  | RB_BLACK =>
    have hblack : ¬IsRed s y := by simp [IsRed, hy]
    obtain ⟨m, rfl, -, hc⟩ := hn.of_black_branch hblack
    exact ⟨m, hc, .inl ⟨rfl, hp⟩⟩
  | RB_RED =>
    obtain ⟨-, hc, -, hnc⟩ := hn.of_red_branch hy
    exact ⟨n, hnc, .inr ⟨rfl, hc, hp⟩⟩

theorem Lacking.congr (h : Lacking s color p c)
    (hs : s'.rbtColor = s.rbtColor) : Lacking s' color p c := by
  have hred : IsRed s' = IsRed s := funext fun z => propext (IsRed.congr hs)
  rwa [Lacking, hred]

theorem Lacking.rename {q : Path ν} {l : BinTree ν} {z : ν}
    (h : Lacking s color ((Path.step d p z l).append q) c) (hy : IsRed s' y ↔ IsRed s z)
    (hc : ∀ u ∈ c.toList ++ (q.elems ++ (l.toList ++ p.elems)), IsRed s' u ↔ IsRed s u) :
    Lacking s' color ((Path.step d p y l).append q) c := by
  obtain ⟨n, hnc, hp⟩ := h
  have hcc : ∀ u ∈ c.toList, IsRed s' u ↔ IsRed s u := fun u hu => hc u (mem_append_left _ hu)
  have hcp : ∀ u ∈ q.elems ++ (l.toList ++ p.elems), IsRed s' u ↔ IsRed s u :=
    fun u hu => hc u (mem_append_right _ hu)
  refine ⟨n, hnc.congr hcc, ?_⟩
  rcases hp with ⟨hcol, hp⟩ | ⟨hcol, htop, hp⟩
  · exact .inl ⟨hcol, hp.rename hy hcp⟩
  · exact .inr ⟨hcol, htop.congr hcc, hp.rename hy hcp⟩

variable [DecidableEq ν]

theorem Removing.redSibling (h : Removing s (.step d p y b) t n) (ht : BlackTop (IsRed s) t)
    (hb : b.top = some w) (hw : IsRed s w) :
    ∃ s₁ c p₁, rbeRotate d (rbeSetBlackred s w y) y = some s₁ ∧
      Removing s₁ (.step d p₁ y c) t n ∧ BlackTop (IsRed s₁) t ∧ BlackTop (IsRed s₁) c ∧
      IsRed s₁ y ∧ p₁.length = p.length + 1 ∧
      (p₁.fill (branch d t y c)).toList = (p.fill (branch d t y b)).toList := by
  have hy : ¬IsRed s y := fun hy => (h.above.of_red_step hy).1 w hb hw
  obtain ⟨hnb, hp⟩ := h.above.of_black_step hy
  obtain ⟨l, r, rfl⟩ := exists_of_top hb
  obtain ⟨c, e, hce⟩ := node_eq_branch d l r w
  rw [hce] at hnb h ⊢
  obtain ⟨hc, he, hnc, hne⟩ := hnb.of_red_branch hw
  obtain ⟨-, -, hn⟩ := holds_fill.mp h.holds
  simp only [Path.elems, nodup_append, nodup_cons, mem_append, mem_cons,
    not_or, mem_branch, nodup_branch] at hn
  have hholds : Holds (rbeSetBlackred s w y) (p.fill (branch d t y (branch d c w e))) :=
    (h.holds.setColor _ _).setColor _ _
  obtain ⟨s₁, hrot, hs₁, hcs⟩ := hholds.rotate
  have hcol := isRed_blackred hcs
  have hy₁ : IsRed s₁ y := by grind
  have hw₁ : ¬IsRed s₁ w := by grind
  have ht₁ : BlackTop (IsRed s₁) t := ht.congr fun z hz => (hcol z).trans (by grind)
  have hc₁ : BlackTop (IsRed s₁) c := hc.congr fun z hz => (hcol z).trans (by grind)
  refine ⟨s₁, c, .step d p w e, hrot, ⟨hs₁, ?_, ?_⟩, ht₁, hc₁, hy₁, rfl, ?_⟩
  · exact .black ((h.short.balanced ht).congr fun z hz => (hcol z).trans (by grind)) ht₁
  · refine .red d hy₁ hc₁ ?_ ⟨w, rfl, hw₁⟩ (.black d hw₁ ?_ ?_)
    · exact hnc.congr fun z hz => (hcol z).trans (by grind)
    · exact hne.congr fun z hz => (hcol z).trans (by grind)
    · exact hp.congr fun z hz => (hcol z).trans (by grind)
  · exact Path.toList_fill_congr (toList_rotate ..)

section

variable (h : Removing s (.step d p y (branch d c w e)) t n) (ht : BlackTop (IsRed s) t)
  (hw : ¬IsRed s w)

include h ht hw

theorem Removing.recolour (hc : BlackTop (IsRed s) c) (he : BlackTop (IsRed s) e) :
    ∃ m, Removing (s.setColor w .RB_RED) p (branch d t y (branch d c w e)) m := by
  obtain ⟨m, hm, hnc, hne⟩ := h.above.sibling.of_black_branch hw
  obtain rfl : n = m := succ.inj hm
  obtain ⟨-, -, hn⟩ := holds_fill.mp h.holds
  simp only [Path.elems, nodup_append, nodup_cons, mem_append, mem_cons,
    not_or, mem_branch, nodup_branch] at hn
  have hcol : ∀ z, IsRed (s.setColor w .RB_RED) z ↔ if z = w then True else IsRed s z := by
    intro z
    simp only [isRed_setColor]
  have hw' : IsRed (s.setColor w .RB_RED) w := by grind
  have hb : (branch d c w e).Balanced (IsRed (s.setColor w .RB_RED)) n := by
    refine .red_branch d hw' ?_ ?_ ?_ ?_
    · exact hc.congr fun z hz => (hcol z).trans (by grind)
    · exact he.congr fun z hz => (hcol z).trans (by grind)
    · exact hnc.congr fun z hz => (hcol z).trans (by grind)
    · exact hne.congr fun z hz => (hcol z).trans (by grind)
  have hnt := (h.short.balanced ht).congr fun z hz => (hcol z).trans (by grind)
  have hholds := h.holds.setColor w .RB_RED
  by_cases hy : IsRed s y
  · have hp := (h.above.of_red_step hy).2.2.2.congr fun z hz => (hcol z).trans (by grind)
    exact ⟨n, hholds, .red_branch d ((hcol y).mpr (by grind)) hnt hb, hp⟩
  · have hp := (h.above.of_black_step hy).2.congr fun z hz => (hcol z).trans (by grind)
    have hy' : ¬IsRed (s.setColor w .RB_RED) y := by grind
    exact ⟨n + 1, hholds, .black (.black_branch d hy' hnt hb) ((blackTop_branch d).mpr hy'), hp⟩

theorem Removing.nearNephew (hc : c.top = some v) (hv : IsRed s v) (he : BlackTop (IsRed s) e) :
    ∃ s₁ c₁ e₁, rbeRotate d.flip ((s.setColor v .RB_BLACK).setColor w .RB_RED) w = some s₁ ∧
      Removing s₁ (.step d p y (branch d c₁ v e₁)) t n ∧ BlackTop (IsRed s₁) t ∧ ¬IsRed s₁ v ∧
      e₁.top = some w ∧ IsRed s₁ w ∧
      (branch d t y (branch d c₁ v e₁)).toList = (branch d t y (branch d c w e)).toList := by
  obtain ⟨m, hm, hnc, hne⟩ := h.above.sibling.of_black_branch hw
  obtain rfl : n = m := succ.inj hm
  obtain ⟨l, r, rfl⟩ := exists_of_top hc
  obtain ⟨g, f, hgf⟩ := node_eq_branch d.flip l r v
  rw [hgf] at h hnc ⊢
  obtain ⟨hg, hf, hng, hnf⟩ := hnc.of_red_branch hv
  obtain ⟨-, -, hn⟩ := holds_fill.mp h.holds
  simp only [Path.elems, nodup_append, nodup_cons, mem_append, mem_cons,
    not_or, mem_branch, nodup_branch] at hn
  have hholds : Holds ((s.setColor v .RB_BLACK).setColor w .RB_RED)
      ((Path.step d.flip p y t).fill (branch d.flip e w (branch d.flip g v f))) := by
    rw [Path.fill, branch_flip, branch_flip]
    exact (h.holds.setColor _ _).setColor _ _
  obtain ⟨s₁, hrot, hs₁, hcs⟩ := hholds.rotate
  have hcol := isRed_blackred hcs
  have hw₁ : IsRed s₁ w := by grind
  have hv₁ : ¬IsRed s₁ v := by grind
  have ht₁ : BlackTop (IsRed s₁) t := ht.congr fun z hz => (hcol z).trans (by grind)
  have he₁ : (branch d.flip e w g).Balanced (IsRed s₁) n := by
    refine .red_branch _ hw₁ ?_ ?_ ?_ ?_
    · exact he.congr fun z hz => (hcol z).trans (by grind)
    · exact hg.congr fun z hz => (hcol z).trans (by grind)
    · exact hne.congr fun z hz => (hcol z).trans (by grind)
    · exact hng.congr fun z hz => (hcol z).trans (by grind)
  have hf₁ : f.Balanced (IsRed s₁) n := hnf.congr fun z hz => (hcol z).trans (by grind)
  refine ⟨s₁, f, branch d.flip e w g, hrot, ⟨?_, ?_, ?_⟩, ht₁, hv₁, top_branch .., hw₁, ?_⟩
  · rwa [Path.fill, branch_flip, branch_flip] at hs₁
  · exact .black ((h.short.balanced ht).congr fun z hz => (hcol z).trans (by grind)) ht₁
  · refine h.above.replace_sibling (fun z hz => (hcol z).trans ?_)
      (.black_branch d hv₁ hf₁ he₁) ((blackTop_branch d).mpr hv₁)
    rw [mem_cons] at hz
    grind
  · rw [← branch_flip d _ t, ← branch_flip d _ t]
    refine toList_branch_congr ?_
    rw [← branch_flip d _ f, toList_rotate, branch_flip d e]

theorem Removing.farNephew (he : e.top = some v) (hv : IsRed s v) :
    ∃ s', rbeRotate d (((s.setColor w (s.rbtColor y)).setColor y .RB_BLACK).setColor v .RB_BLACK) y
        = some s' ∧ Holds s' (p.fill (branch d (branch d t y c) w e)) ∧
      RedBlack (IsRed s') (p.fill (branch d (branch d t y c) w e)) := by
  obtain ⟨m, hm, hnc, hne⟩ := h.above.sibling.of_black_branch hw
  obtain rfl : n = m := succ.inj hm
  obtain ⟨g, f, rfl⟩ := exists_of_top he
  obtain ⟨hg, hf, hng, hnf⟩ := hne.of_red_branch (d := .left) hv
  obtain ⟨-, -, hn⟩ := holds_fill.mp h.holds
  rw [show node g v f = branch .left g v f from rfl] at hn
  simp only [Path.elems, nodup_append, nodup_cons, mem_append, mem_cons,
    not_or, mem_branch, nodup_branch] at hn
  have hholds := ((h.holds.setColor w (s.rbtColor y)).setColor y .RB_BLACK).setColor v .RB_BLACK
  obtain ⟨s', hrot, hs', hcs⟩ := hholds.rotate
  have hcol : ∀ z, IsRed s' z ↔ if z = v ∨ z = y then False else if z = w then IsRed s y else
      IsRed s z := by
    intro z
    rw [IsRed.congr hcs]
    have hred : s.rbtColor y = .RB_RED ↔ IsRed s y := Iff.rfl
    simp only [isRed_setColor, hred]
    grind
  refine ⟨s', hrot, hs', ?_⟩
  have hy' : ¬IsRed s' y := by grind
  have hv' : ¬IsRed s' v := by grind
  have hnt := (h.short.balanced ht).congr fun z hz => (hcol z).trans (by grind)
  have hl : (branch d t y c).Balanced (IsRed s') (n + 1) :=
    .black_branch d hy' hnt (hnc.congr fun z hz => (hcol z).trans (by grind))
  have hr : (node g v f).Balanced (IsRed s') (n + 1) :=
    .black hv' (hng.congr fun z hz => (hcol z).trans (by grind))
      (hnf.congr fun z hz => (hcol z).trans (by grind))
  by_cases hy : IsRed s y
  · obtain ⟨-, -, habove, hp⟩ := h.above.of_red_step hy
    have hw' : IsRed s' w := by grind
    refine Path.Balanced.fill (hp.congr fun z hz => (hcol z).trans (by grind))
      (.red_branch d hw' ((blackTop_branch d).mpr hy') ((blackTop_branch .left).mpr hv') hl hr)
      (.inr (habove.congr fun z hz => (hcol z).trans (by grind)))
  · obtain ⟨-, hp⟩ := h.above.of_black_step hy
    have hw' : ¬IsRed s' w := by grind
    exact Path.Balanced.fill (hp.congr fun z hz => (hcol z).trans (by grind))
      (.black_branch d hw' hl hr) (.inl ((blackTop_branch d).mpr hw'))

end

inductive Remedied (p : Path ν) (y : ν) (k : List ν) : Remedy ν → Prop
  | up {s' : RbTree ν} {p' : Path ν} {t' : BinTree ν} {m : Nat} : Removing s' p' t' m →
      t'.top = some y → p'.length ≤ p.length ∨ IsRed s' y → (p'.fill t').toList = k →
      Remedied p y k (.up s')
  | done {s' : RbTree ν} {t' : BinTree ν} : Holds s' t' → RedBlack (IsRed s') t' →
      t'.toList = k → Remedied p y k (.done s')

theorem Removing.roundBlack (h : Removing s (.step d p y (branch d c w e)) t n)
    (ht : BlackTop (IsRed s) t) (hw : ¬IsRed s w) : ∃ r, removeColorBlack d s y w = some r ∧
      Remedied p y ((Path.step d p y (branch d c w e)).fill t).toList r ∧
      ∀ s', r = .up s' → IsRed s y → IsRed s' y := by
  have hnephews := h.nephews
  obtain ⟨-, hcw, hew⟩ := h.links
  by_cases he : BlackTop (IsRed s) e
  · by_cases hc : BlackTop (IsRed s) c
    · obtain ⟨m, hm⟩ := h.recolour ht hw hc he
      refine ⟨.up (s.setColor w .RB_RED), ?_, .up hm (top_branch ..) (.inl p.length.le_refl) rfl, ?_⟩
      · rw [isRed_top hc, isRed_top he] at hnephews
        exact if_pos hnephews
      · rintro s' ⟨⟩ hy
        rw [isRed_setColor]
        split
        · rfl
        · exact hy
    · obtain ⟨v, hv, hred, hvr⟩ := not_blackTop.mp hc
      obtain ⟨s₁, c₁, e₁, hrot₁, h₁, ht₁, hv₁, he₁, hw₁, hl⟩ := h.nearNephew ht hw hv hvr he
      obtain ⟨s', hrot, hs', hb⟩ := h₁.farNephew ht₁ hv₁ he₁ hw₁
      obtain ⟨hv₂, -, hew₁⟩ := h₁.links
      refine ⟨.done s', ?_, .done hs' hb ?_, nofun⟩
      · rw [hv] at hnephews hcw
        rw [he₁] at hew₁
        simp [removeColorBlack, hnephews, hcw, hew, isRed_top he, hred, hrot₁, hv₂, hew₁, hrot]
      · exact Path.toList_fill_congr ((toList_rotate ..).trans hl)
  · obtain ⟨v, hv, hred, hvr⟩ := not_blackTop.mp he
    obtain ⟨s', hrot, hs', hb⟩ := h.farNephew ht hw hv hvr
    refine ⟨.done s', ?_, .done hs' hb (Path.toList_fill_congr (toList_rotate ..)), nofun⟩
    rw [hv] at hnephews hew
    simp [removeColorBlack, hnephews, hew, hred, hrot]

theorem Removing.round (h : Removing s (.step d p y b) t n) (ht : BlackTop (IsRed s) t) :
    ∃ r, removeColorRound d s y = some r ∧ Remedied p y ((Path.step d p y b).fill t).toList r := by
  obtain ⟨c, w, e, rfl⟩ := h.above.sibling.exists_branch d
  have hsib := h.links.1
  by_cases hw : IsRed s w
  · obtain ⟨s₁, c₁, p₁, hrot₁, h₁, ht₁, hc₁, hy₁, hlen, hl⟩ := h.redSibling ht (top_branch ..) hw
    obtain ⟨c₂, v, e₂, rfl⟩ := h₁.above.sibling.exists_branch d
    have hv := (blackTop_branch d).mp hc₁
    obtain ⟨r, hr, hrem, hup⟩ := h₁.roundBlack ht₁ hv
    refine ⟨r, ?_, ?_⟩
    · have hred : s.rbtColor w = .RB_RED := hw
      simp [removeColorRound, hsib, hred, hrot₁, h₁.links.1, hr]
    · cases hrem with
      | up hrem htop _ hlist => exact .up hrem htop (.inr (hup _ rfl hy₁)) (hlist.trans hl)
      | done hs' hb hlist => exact .done hs' hb (hlist.trans hl)
  · obtain ⟨r, hr, hrem, -⟩ := h.roundBlack ht hw
    refine ⟨r, ?_, hrem⟩
    have hblack : s.rbtColor w ≠ .RB_RED := hw
    simp [removeColorRound, hsib, hblack, hr]

def blacken (s : RbTree ν) : Option ν → RbTree ν
  | none => s
  | some rbe => s.setColor rbe .RB_BLACK

theorem blacken_congr (ht : BlackTop (IsRed s) t) : IsRed (blacken s t.top) x ↔ IsRed s x := by
  cases hy : t.top with
  | none => rfl
  | some y =>
    rw [blacken, isRed_setColor]
    split
    next hxy => exact iff_of_false nofun (hxy ▸ ht y hy)
    next => rfl

theorem Removing.blackened (h : Removing s p t n) (hx : t.top = some x) (hred : IsRed s x) :
    RedBlack (IsRed (blacken s t.top)) (p.fill t) := by
  obtain ⟨l, r, rfl⟩ := exists_of_top hx
  rw [top_node, blacken]
  have hx' : ¬IsRed (s.setColor x .RB_BLACK) x := by simp
  obtain ⟨-, -, hn⟩ := holds_fill.mp h.holds
  simp only [toList, List.nodup_append, List.nodup_cons, List.mem_append, List.mem_cons] at hn
  have hcol : ∀ z, z ≠ x → (IsRed (s.setColor x .RB_BLACK) z ↔ IsRed s z) := by
    intro z hz
    simp [hz]
  cases h.short with
  | black _ htop => exact absurd hred (htop x rfl)
  | red _ hl hr =>
    refine Path.Balanced.fill (h.above.congr fun z hz => hcol z (by grind)) (.black hx' ?_ ?_)
      (.inl ((blackTop_branch .left).mpr hx'))
    · exact hl.congr fun z hz => hcol z (by grind)
    · exact hr.congr fun z hz => hcol z (by grind)

/-- What the loop leaves for `rbe_remove_color` to make black, given fuel for `k` rounds. -/
def Remedies (k : Nat) (f : Nat → Option (RbTree ν × Option ν)) (l : List ν) : Prop :=
  ∃ s o t, (∀ fuel, k < fuel → f fuel = some (s, o)) ∧ Holds s t ∧
    RedBlack (IsRed (blacken s o)) t ∧ t.toList = l

theorem Removing.loop_red (h : Removing s p t n) (hx : t.top = some x) (hred : IsRed s x) :
    Remedies 0 (removeColorLoop · s p.parent t.top) (p.fill t).toList := by
  refine ⟨s, t.top, _, fun fuel hf => ?_, h.holds, h.blackened hx hred, rfl⟩
  obtain ⟨fuel, rfl⟩ := exists_eq_succ_of_ne_zero (Nat.ne_zero_of_lt hf)
  have hr : isRed s (some x) = true := isRed_eq.mpr hred
  refine if_neg fun hnot => ?_
  rw [hx, hr] at hnot
  exact absurd hnot.1 (by decide)

theorem Removing.loop_step (h : Removing s (.step d p y b) t n) (ht : BlackTop (IsRed s) t) :
    ∃ r, Remedied p y ((Path.step d p y b).fill t).toList r ∧
      ∀ fuel, removeColorLoop (fuel + 1) s (some y) t.top = match r with
        | .up s' => removeColorLoop fuel s' (s'.rbtParent y) (some y)
        | .done s' => some (s', s'.rbtRoot) := by
  obtain ⟨c, w, e, hb⟩ := h.above.sibling.exists_branch d
  have hne : t.top ≠ s.rbtRoot := h.holds.top_ne_root
  have hside := h.holds.sideOf_eq (.inr (by simp [hb]))
  obtain ⟨r, hr, hrem⟩ := h.round ht
  refine ⟨r, hrem, fun fuel => ?_⟩
  cases r <;> simp only [removeColorLoop, isRed_top ht, Bool.not_false, ne_eq, hne,
    not_false_eq_true, and_self, if_true, Option.bind_eq_bind, Option.bind_some, hside, hr]

theorem removeColorLoop_spec (h : Removing s p t n) :
    Remedies p.length (removeColorLoop · s p.parent t.top) (p.fill t).toList := by
  induction hk : p.length using Nat.strongRecOn generalizing s p t n with
  | _ k ih =>
    subst hk
    by_cases ht : BlackTop (IsRed s) t
    · cases p with
      | root =>
        have hroot : ¬(!isRed s t.top ∧ t.top ≠ s.rbtRoot) := by simp [h.holds.root, Path.fill]
        refine ⟨s, t.top, t, fun fuel hf => ?_, h.holds, ?_, rfl⟩
        · obtain ⟨fuel, rfl⟩ := exists_eq_succ_of_ne_zero (Nat.ne_zero_of_lt hf)
          exact if_neg hroot
        · have hb : RedBlack (IsRed s) t := ⟨ht, n, h.short.balanced ht⟩
          exact hb.congr fun z _ => blacken_congr ht
      | step d p y b =>
        obtain ⟨r, hrem, hloop⟩ := h.loop_step ht
        cases hrem with
        | @up s' p' t' m h' htop hlen hl =>
          have hrest : Remedies p.length (removeColorLoop · s' p'.parent t'.top)
              (p'.fill t').toList := by
            rcases hlen with hlen | hred
            · obtain ⟨s'', o, t'', hrun, hrest⟩ := ih p'.length (lt_succ_of_le hlen) h' rfl
              exact ⟨s'', o, t'', fun fuel hf => hrun fuel (Nat.lt_of_le_of_lt hlen hf), hrest⟩
            · obtain ⟨s'', o, t'', hrun, hrest⟩ := h'.loop_red htop hred
              exact ⟨s'', o, t'', fun fuel hf => hrun fuel (zero_lt_of_lt hf), hrest⟩
          obtain ⟨s'', o, t'', hrun, hs'', hb, hl'⟩ := hrest
          refine ⟨s'', o, t'', fun fuel hf => ?_, hs'', hb, hl'.trans hl⟩
          obtain ⟨fuel, rfl⟩ := exists_eq_succ_of_ne_zero (Nat.ne_zero_of_lt hf)
          have hpar := h'.holds.parent_top htop
          rw [htop, ← hpar] at hrun
          exact (hloop fuel).trans (hrun fuel (lt_of_succ_lt_succ hf))
        | @done s' t' hs' hb' hl =>
          refine ⟨s', t'.top, t', fun fuel hf => ?_, hs', ?_, hl⟩
          · obtain ⟨fuel, rfl⟩ := exists_eq_succ_of_ne_zero (Nat.ne_zero_of_lt hf)
            exact hs'.root ▸ hloop fuel
          · exact hb'.congr fun z _ => blacken_congr hb'.1
    · obtain ⟨x, hx, -, hred⟩ := not_blackTop.mp ht
      obtain ⟨s', o, t', hrun, hrest⟩ := h.loop_red hx hred
      exact ⟨s', o, t', fun fuel hf => hrun fuel (zero_lt_of_lt hf), hrest⟩

theorem rbeRemoveColor_spec (h : Removing s p t n) :
    ∃ s' t', (∀ fuel, p.length < fuel → rbeRemoveColor fuel s p.parent t.top = some s') ∧
      Holds s' t' ∧ RedBlack (IsRed s') t' ∧ t'.toList = (p.fill t).toList := by
  obtain ⟨s', o, t', hloop, hs', hb, hl⟩ := removeColorLoop_spec h
  refine ⟨blacken s' o, t', fun fuel hf => ?_, ?_, hb, hl⟩
  · cases o <;> simp [rbeRemoveColor, hloop fuel hf, blacken]
  · cases o with
    | none => exact hs'
    | some x => exact hs'.setColor x _

theorem removeFrom_spec (h : Holds s (p.fill c)) (hl : Lacking s color p c) :
    ∃ s' t', (∀ fuel, p.length < fuel → removeFrom fuel s color p.parent c.top = some s') ∧
      Holds s' t' ∧ RedBlack (IsRed s') t' ∧ t'.toList = (p.fill c).toList := by
  obtain ⟨n, hc, ⟨rfl, hp⟩ | ⟨rfl, htop, hp⟩⟩ := hl
  · exact rbeRemoveColor_spec ⟨h, hc.short, hp⟩
  · exact ⟨s, _, fun _ _ => rfl, h, hp.fill hc (.inl htop), rfl⟩

theorem removeOuter_spec (h : Holds s (p.fill (branch d .nil y c)))
    (hb : RedBlack (IsRed s) (p.fill (branch d .nil y c))) :
    ∃ s' t', (∀ fuel, p.length < fuel → removeOuter fuel s y c.top = some s') ∧ Holds s' t' ∧
      RedBlack (IsRed s') t' ∧ t'.toList = (p.fill c).toList := by
  simp only [removeOuter, h.parent_top (top_branch ..)]
  exact removeFrom_spec h.unlink.1 ((lacking_of_fill hb).congr (by simp))

theorem toList_unlinked (h : (p.fill (branch d .nil y c)).toList.Nodup) :
    (p.fill c).toList = (p.fill (branch d .nil y c)).toList.erase y := by
  cases d with
  | left =>
    rw [show branch .left .nil y c = node .nil y c from rfl] at h ⊢
    rw [Path.toList_erase h, Path.toList_fill]
    rfl
  | right =>
    rw [show branch .right .nil y c = node c y .nil from rfl] at h ⊢
    rw [Path.toList_erase h, Path.toList_fill]
    rfl

section Inner

variable {q : Path ν} {l r : BinTree ν} {z : ν}

theorem toList_replaced (h : (p.fill (node l z (q.fill (branch .left .nil y c)))).toList.Nodup)
    (hq : q.beyond .left = []) : (p.fill (node l y (q.fill c))).toList =
      (p.fill (node l z (q.fill (branch .left .nil y c)))).toList.erase z := by
  rw [Path.toList_erase h, Path.toList_fill, toList, Path.toList_fill q (branch _ _ _ _), hq,
    Path.toList_fill q c, hq]
  simp [branch, toList]

theorem parent_rename (hz : ∀ u ∈ q.elems, u ≠ z) :
    (if ((Path.step d p z l).append q).parent = some z then some y
      else ((Path.step d p z l).append q).parent) = ((Path.step d p y l).append q).parent := by
  cases q with
  | root => exact if_pos rfl
  | step e q u b => exact if_neg fun hu => hz u mem_cons_self (Option.some.inj hu)

theorem takePlace_spec (h : Holds s (p.fill (node l z r)))
    (hy : y ∉ (p.fill (node l z r)).toList) (hv : l.top = some v) :
    ∃ s', takePlace s y z = some s' ∧ Holds s' (p.fill (node l y r)) ∧
      ∀ u, IsRed s' u ↔ if u = y then IsRed s z else IsRed s u := by
  refine ⟨_, ?_, h.replace hy hv, fun u => ?_⟩
  · have hz : z ≠ y := fun hzy => hy (hzy ▸ Path.mem_fill (mem_top (top_node ..)))
    have hpz : p.parent ≠ some z :=
      parent_ne (holds_fill.mp h).2.2 (mem_top (top_node ..))
    have hl : s.rbtChild .left z = some v := (h.child_top (d := .left)).trans hv
    have hr : s.rbtChild .right z = r.top := h.child_top (d := .right)
    have hzp := h.parent_top (top_node ..)
    simp [takePlace, RbTree.copy, hz, hzp, RbTree.rbtChild_relink hpz, hl, hr]
  · simp only [IsRed, RbTree.rbtColor_setParentOf, RbTree.rbtColor_setParent,
      RbTree.rbtColor_relink, RbTree.copy, RbTree.rbtColor_setColor]
    split <;> simp

theorem removeInner_spec (h : Holds s (p.fill (node l z r)))
    (hb : RedBlack (IsRed s) (p.fill (node l z r))) (hv : l.top = some v) (hx : r.top = some x) :
    ∃ s' t', (∀ fuel, (p.fill (node l z r)).height ≤ fuel →
        removeInner fuel s z x = some s') ∧ Holds s' t' ∧ RedBlack (IsRed s') t' ∧
      t'.toList = (p.fill (node l z r)).toList.erase z := by
  have hlen := p.length_add_height_le (node l z r)
  rw [height] at hlen
  obtain ⟨q, y, c, hout, rfl, hq⟩ :=
    outermost_spec (d := .left) (p := .step .right p z l) h hx
  have hlist := toList_replaced (y := y) h.nodup hq
  have hfill : ∀ w t, p.fill (node l w (q.fill t)) = ((Path.step .right p w l).append q).fill t :=
    fun w t => (Path.fill_append (.step .right p w l) q t).symm
  rw [hfill] at h hb
  obtain ⟨-, -, hn⟩ := holds_fill.mp h
  simp only [mem_branch, nodup_branch, Path.elems_append, Path.elems, nodup_append,
    nodup_cons, mem_append, mem_cons, not_or] at hn
  have hlen' := ((Path.step .right p z l).append q).length_add_height_le (branch .left .nil y c)
  simp only [Path.length_append, Path.length, height_branch] at hlen'
  have hpar := h.parent_top (top_branch ..)
  have hcy : s.rbtChild .right y = c.top := h.child_top (d := .right) (a := c)
  -- `y` leaves its place to its child
  obtain ⟨hs₁, hy₁⟩ := h.unlink
  have hc₁ : ((s.setParentOf c.top ((Path.step .right p z l).append q).parent).relink
    ((Path.step .right p z l).append q).parent y c.top).rbtColor = s.rbtColor := by simp
  have hl₁ := (lacking_of_fill hb).congr hc₁
  rw [← hfill] at hs₁ hy₁
  -- and takes that of `z`
  obtain ⟨s₂, htake, hs₂, hcol⟩ := takePlace_spec hs₁ hy₁ hv
  have hl₂ : Lacking s₂ (s.rbtColor y) ((Path.step .right p y l).append q) c := by
    refine hl₁.rename ((hcol y).trans (by simp)) fun u hu => ?_
    rw [mem_append, mem_append, mem_append] at hu
    rw [hcol, if_neg (by grind)]
  rw [hfill] at hs₂
  obtain ⟨s', t', hfrom, hs', hb', hl⟩ := removeFrom_spec hs₂ hl₂
  refine ⟨s', t', fun fuel hf => ?_, hs', hb', ?_⟩
  · have hqz : ∀ u ∈ q.elems, u ≠ z := by grind
    rw [hfill] at hf
    have hfrom := hfrom fuel (by simp only [Path.length_append, Path.length]; omega)
    rw [hfill] at hlen
    simp [removeInner, hout fuel (by omega), hcy, hpar, htake, parent_rename hqz, hfrom]
  · rw [hl, ← hfill, hlist]

end Inner

theorem rbeRemove_spec (h : Holds s t) (hb : RedBlack (IsRed s) t) (hx : x ∈ t.toList) :
    ∃ s' t', (∀ fuel, t.height ≤ fuel → rbeRemove fuel s x = some s') ∧ Holds s' t' ∧
      RedBlack (IsRed s') t' ∧ t'.toList = t.toList.erase x := by
  obtain ⟨p, l, r, ht⟩ := Path.exists_of_mem t .root hx
  rw [Path.fill] at ht
  subst ht
  have hlen := p.length_add_height_le (node l x r)
  rw [height] at hlen
  have hleft : s.rbtChild .left x = l.top := h.child_top (d := .left)
  have hright : s.rbtChild .right x = r.top := h.child_top (d := .right)
  simp only [rbeRemove, hleft, hright]
  cases hl : l.top with
  | none =>
    obtain rfl : l = .nil := top_eq_none.mp hl
    obtain ⟨s', t', hrem, hs', hb', hlist⟩ := removeOuter_spec (d := .left) h hb
    exact ⟨s', t', fun fuel hf => hrem fuel (by omega), hs', hb',
      hlist.trans (toList_unlinked (d := .left) h.nodup)⟩
  | some v =>
    cases hr : r.top with
    | none =>
      obtain rfl : r = .nil := top_eq_none.mp hr
      obtain ⟨s', t', hrem, hs', hb', hlist⟩ := removeOuter_spec (d := .right) h hb
      rw [hl] at hrem
      exact ⟨s', t', fun fuel hf => hrem fuel (by omega), hs', hb',
        hlist.trans (toList_unlinked (d := .right) h.nodup)⟩
    | some z => exact removeInner_spec h hb hl hr

end Mbsd.Kern.SubrTree
