import Mbsd.Kern.SubrTree.Links

/-! `rbe_insert_color` puts the balance right above a new red entry. -/

namespace Mbsd.Kern.SubrTree

open Lib BinTree List Nat

variable {ν : Type} {s s' : RbTree ν} {p : Path ν} {t a b c u : BinTree ν}
  {w x y g : ν} {d e : Side} {n : Nat}

def IsRed (s : RbTree ν) (x : ν) : Prop := s.rbtColor x = .RB_RED

theorem IsRed.congr (h : s'.rbtColor = s.rbtColor) : IsRed s' x ↔ IsRed s x := by
  rw [IsRed, IsRed, h]

/-- A tree with a red top is in its place, and the balance is right but for a red parent. -/
structure Inserting (s : RbTree ν) (p : Path ν) (t : BinTree ν) (x : ν) (n : Nat) : Prop where
  holds : Holds s (p.fill t)
  top : t.top = some x
  red : IsRed s x
  balanced : t.Balanced (IsRed s) n
  above : p.Balanced (IsRed s) n

variable [DecidableEq ν]

@[simp, grind =] theorem isRed_setColor {color : RbColor} :
    IsRed (s.setColor x color) y ↔ if y = x then color = .RB_RED else IsRed s y := by
  by_cases h : y = x <;> simp [IsRed, h]

theorem isRed_blackred (h : s'.rbtColor = (rbeSetBlackred s x y).rbtColor) (z : ν) :
    IsRed s' z ↔ if z = y then True else if z = x then False else IsRed s z := by
  rw [IsRed.congr h]
  simp only [rbeSetBlackred, isRed_setColor]
  grind

theorem Holds.sideOf_eq (h : Holds s ((Path.step e p y b).fill t))
    (ht : t.top ≠ none ∨ b.top ≠ none) : sideOf s y t.top = e := by
  cases e with
  | left => exact if_pos ((h.side_iff (d := .left) ht).mpr rfl)
  | right => exact if_neg (mt (h.side_iff (d := .left) ht).mp nofun)

theorem Inserting.recolour (h : Inserting s (.step d (.step e p g u) y b) t x n) (hy : IsRed s y)
    (hu : u.top = some w) (hw : IsRed s w) :
    Inserting (rbeSetBlackred (s.setColor w .RB_BLACK) y g) p (branch e (branch d t y b) g u) g
      (n + 1) := by
  obtain ⟨-, hnb, ⟨_, hpar, hg⟩, hpn⟩ := h.above.of_red_step hy
  obtain rfl := Option.some.inj hpar
  obtain ⟨hnu, hp⟩ := hpn.of_black_step hg
  obtain ⟨u₁, u₂, rfl⟩ := exists_of_top hu
  obtain ⟨-, -, hnu₁, hnu₂⟩ := hnu.of_red_branch (d := .left) hw
  obtain ⟨-, -, hn⟩ := holds_fill.mp h.holds
  simp only [Path.elems, toList, List.nodup_append, List.nodup_cons, List.mem_append,
    List.mem_cons, not_or] at hn
  have hcol : ∀ z, IsRed (rbeSetBlackred (s.setColor w .RB_BLACK) y g) z ↔
      if z = g then True else if z = y ∨ z = w then False else IsRed s z := by
    intro z
    simp only [rbeSetBlackred, isRed_setColor]
    grind
  have hg' : IsRed (rbeSetBlackred (s.setColor w .RB_BLACK) y g) g := by grind
  have hy' : ¬IsRed (rbeSetBlackred (s.setColor w .RB_BLACK) y g) y := by grind
  have hw' : ¬IsRed (rbeSetBlackred (s.setColor w .RB_BLACK) y g) w := by grind
  have ht := h.balanced.congr fun z hz => (hcol z).trans (by grind)
  have hnb := hnb.congr fun z hz => (hcol z).trans (by grind)
  have hnu₁ := hnu₁.congr fun z hz => (hcol z).trans (by grind)
  have hnu₂ := hnu₂.congr fun z hz => (hcol z).trans (by grind)
  refine ⟨((h.holds.setColor _ _).setColor _ _).setColor _ _, top_branch .., hg', ?_,
    hp.congr fun z hz => (hcol z).trans (by grind)⟩
  exact .red_branch e hg' ((blackTop_branch d).mpr hy') ((blackTop_branch .left).mpr hw')
    (.black_branch d hy' ht hnb) (.black hw' hnu₁ hnu₂)

theorem Inserting.rotateInner (h : Inserting s (.step e.flip (.step e p g u) y b) t x n)
    (hy : IsRed s y) : ∃ s' t' b', rbeRotate e s y = some s' ∧
      Inserting s' (.step e (.step e p g u) x b') t' y n ∧ s'.rbtColor = s.rbtColor ∧
      (branch e t' x b').toList = (branch e.flip t y b).toList := by
  obtain ⟨hb, hnb, hg, hpn⟩ := h.above.of_red_step hy
  obtain ⟨l, r, rfl⟩ := exists_of_top h.top
  obtain ⟨a, c, hac⟩ := node_eq_branch e l r x
  obtain ⟨hholds, -, hx, ht, -⟩ := h
  rw [hac] at hholds ht ⊢
  rw [Path.fill, branch_flip] at hholds
  obtain ⟨ha, hc, hna, hnc⟩ := ht.of_red_branch hx
  obtain ⟨s', hrot, hs', hcol⟩ := hholds.rotate
  have hred : ∀ z, IsRed s' z ↔ IsRed s z := fun z => IsRed.congr hcol
  refine ⟨s', branch e b y a, c, hrot, ⟨hs', top_branch .., (hred y).mpr hy, ?_, ?_⟩, hcol, ?_⟩
  · exact (hnb.red_branch e hy hb ha hna).congr fun z _ => hred z
  · exact (Path.Balanced.red e hx hc hnc hg hpn).congr fun z _ => hred z
  · rw [branch_flip, toList_rotate]

theorem Inserting.rotateOuter (h : Inserting s (.step e (.step e p g u) y b) t x n)
    (hy : IsRed s y) (hu : BlackTop (IsRed s) u) :
    ∃ s' u', rbeRotate e.flip (rbeSetBlackred s y g) g = some s' ∧
      Inserting s' (.step e p y u') t x n ∧
      (branch e t y u').toList = (branch e (branch e t y b) g u).toList := by
  obtain ⟨hb, hnb, ⟨_, hpar, hg⟩, hpn⟩ := h.above.of_red_step hy
  obtain rfl := Option.some.inj hpar
  obtain ⟨hnu, hp⟩ := hpn.of_black_step hg
  obtain ⟨-, -, hn⟩ := holds_fill.mp h.holds
  have hxt := mem_top h.top
  simp only [Path.elems, nodup_append, nodup_cons, mem_append, mem_cons, not_or] at hn
  have hholds : Holds (rbeSetBlackred s y g) (p.fill (branch e.flip u g (branch e.flip b y t))) := by
    rw [branch_flip, branch_flip]
    exact (h.holds.setColor _ _).setColor _ _
  obtain ⟨s', hrot, hs', hc⟩ := hholds.rotate
  have hcol := isRed_blackred hc
  have hg' : IsRed s' g := by grind
  have hy' : ¬IsRed s' y := by grind
  refine ⟨s', branch e.flip u g b, hrot, ⟨?_, h.top, ?_, ?_, ?_⟩, ?_⟩
  · rwa [Path.fill, ← branch_flip]
  · have := h.red
    grind
  · exact h.balanced.congr fun z hz => (hcol z).trans (by grind)
  · refine .black e hy' (.red_branch _ hg' ?_ ?_ ?_ ?_) ?_
    · exact hu.congr fun z hz => (hcol z).trans (by grind)
    · exact hb.congr fun z hz => (hcol z).trans (by grind)
    · exact hnu.congr fun z hz => (hcol z).trans (by grind)
    · exact hnb.congr fun z hz => (hcol z).trans (by grind)
    · exact hp.congr fun z hz => (hcol z).trans (by grind)
  · rw [← branch_flip, toList_rotate, branch_flip, branch_flip]

theorem Inserting.round (h : Inserting s (.step d (.step e p g u) y b) t x n) (hy : IsRed s y) :
    ∃ s' x' p' t' m, insertColorRound e s x y g = some (s', x') ∧ Inserting s' p' t' x' m ∧
      p'.length < p.length + 2 ∧
      (p'.fill t').toList = ((Path.step d (.step e p g u) y b).fill t).toList := by
  have huncle : s.rbtChild e.flip g = u.top := h.holds.linkedPath.2.2.2.2.2.2.1
  have hrotated : BlackTop (IsRed s) u → ∃ s' x' p' t' m,
      insertColorRound.rotated e s x y g = some (s', x') ∧ Inserting s' p' t' x' m ∧
      p'.length < p.length + 2 ∧
      (p'.fill t').toList = ((Path.step d (.step e p g u) y b).fill t).toList := by
    intro hu
    rcases e.eq_or_flip d with rfl | rfl
    · have hside : s.rbtChild d.flip y ≠ some x := by
        rw [← h.top, Ne, h.holds.side_iff (.inl (by simp [h.top]))]
        exact d.flip_ne.symm
      obtain ⟨s', u', hrot, hs', hl⟩ := h.rotateOuter hy hu
      refine ⟨s', x, _, _, _, ?_, hs', by simp [Path.length], Path.toList_fill_congr hl⟩
      simp [insertColorRound.rotated, hside, hrot]
    · have hside : s.rbtChild e.flip y = some x := h.holds.linkedPath.2.1.trans h.top
      obtain ⟨s₁, t₁, b₁, hrot₁, hs₁, hc₁, hl₁⟩ := h.rotateInner hy
      obtain ⟨s', u', hrot, hs', hl⟩ := hs₁.rotateOuter ((IsRed.congr hc₁).mpr h.red)
        (hu.congr fun z _ => IsRed.congr hc₁)
      refine ⟨s', y, _, _, _, ?_, hs', by simp [Path.length], ?_⟩
      · simp [insertColorRound.rotated, hside, hrot₁, hrot]
      · exact Path.toList_fill_congr (hl.trans (toList_branch_congr hl₁))
  unfold insertColorRound
  rw [huncle]
  cases hu : u.top with
  | none => exact hrotated fun w hw => by rw [hu] at hw; cases hw
  | some w =>
    by_cases hw : IsRed s w
    · exact ⟨_, _, _, _, _, if_pos hw, h.recolour hy hu hw, by omega, rfl⟩
    · have hblack : BlackTop (IsRed s) u := fun w' hw' => by
        rw [hu] at hw'
        exact Option.some.inj hw' ▸ hw
      obtain ⟨s', x', p', t', m, hround, hrest⟩ := hrotated hblack
      exact ⟨s', x', p', t', m, (if_neg hw).trans hround, hrest⟩

theorem insertColorLoop_spec (h : Inserting s p t x n) :
    ∃ s' t' m, (∀ fuel, p.length < fuel → insertColorLoop fuel s x = some s') ∧ Holds s' t' ∧
      t'.Balanced (IsRed s') m ∧ t'.toList = (p.fill t).toList := by
  induction hk : p.length using Nat.strongRecOn generalizing s p t x n with
  | _ k ih =>
    subst hk
    have hpar := h.holds.parent_top h.top
    cases p with
    | root =>
      refine ⟨s, t, n, fun fuel hf => ?_, h.holds, h.balanced, rfl⟩
      obtain ⟨fuel, rfl⟩ := exists_eq_succ_of_ne_zero (Nat.ne_zero_of_lt hf)
      rw [insertColorLoop, hpar]
      rfl
    | step d q y b =>
      by_cases hy : IsRed s y
      · obtain ⟨e, p, g, u, rfl, -⟩ := (h.above.of_red_step hy).2.2.1.exists_step
        have hq := h.holds.linkedPath
        have hside : sideOf s g (some y) = e := by
          have := Holds.sideOf_eq (t := branch d t y b) h.holds (.inl (by simp))
          rwa [top_branch] at this
        obtain ⟨s₁, x₁, p₁, t₁, m, hround, h₁, hlen, hl₁⟩ := h.round hy
        obtain ⟨s', t', m', hloop, hs', hb', hl'⟩ := ih p₁.length hlen h₁ rfl
        refine ⟨s', t', m', fun fuel hf => ?_, hs', hb', hl'.trans hl₁⟩
        obtain ⟨fuel, rfl⟩ := exists_eq_succ_of_ne_zero (Nat.ne_zero_of_lt hf)
        have hred : s.rbtColor y = .RB_RED := hy
        have hpary : s.rbtParent y = some g := hq.1
        have hrest := hloop fuel (by simp only [Path.length] at hf; omega)
        rw [insertColorLoop, hpar]
        simp [Path.parent, hred, hpary, hside, hround, hrest]
      · have hb := h.above.fill h.balanced (.inr ⟨y, rfl, hy⟩)
        obtain ⟨m, hm⟩ := hb.2
        refine ⟨s, _, m, fun fuel hf => ?_, h.holds, hm, rfl⟩
        obtain ⟨fuel, rfl⟩ := exists_eq_succ_of_ne_zero (Nat.ne_zero_of_lt hf)
        rw [insertColorLoop, hpar]
        exact if_neg hy

theorem setColor_top (h : t.Balanced (IsRed s) n) (hn : t.toList.Nodup)
    (hx : t.top = some x) : RedBlack (IsRed (s.setColor x .RB_BLACK)) t := by
  obtain ⟨l, r, rfl⟩ := exists_of_top hx
  have hne := nodup_cons.mp (nodup_middle.mp hn)
  rw [mem_append, not_or] at hne
  have hx' : ¬IsRed (s.setColor x .RB_BLACK) x := by simp
  have hcol : ∀ z, z ≠ x → (IsRed (s.setColor x .RB_BLACK) z ↔ IsRed s z) := by
    intro z hz
    simp [hz]
  refine ⟨(blackTop_branch .left).mpr hx', ?_⟩
  have hl : ∀ z ∈ l.toList, z ≠ x := fun z hz hzx => hne.1.1 (hzx ▸ hz)
  have hr : ∀ z ∈ r.toList, z ≠ x := fun z hz hzx => hne.1.2 (hzx ▸ hz)
  cases h with
  | red _ _ _ hnl hnr =>
    exact ⟨_, .black hx' (hnl.congr fun z hz => hcol z (hl z hz))
      (hnr.congr fun z hz => hcol z (hr z hz))⟩
  | black _ hnl hnr =>
    exact ⟨_, .black hx' (hnl.congr fun z hz => hcol z (hl z hz))
      (hnr.congr fun z hz => hcol z (hr z hz))⟩

theorem rbeInsertColor_spec (h : Inserting s p t x n) :
    ∃ s' t', (∀ fuel, p.length < fuel → rbeInsertColor fuel s x = some s') ∧ Holds s' t' ∧
      RedBlack (IsRed s') t' ∧ t'.toList = (p.fill t).toList := by
  obtain ⟨s', t', m, hloop, hs', hb, hl⟩ := insertColorLoop_spec h
  have hx : x ∈ t'.toList := hl ▸ Path.mem_fill (mem_top h.top)
  cases t' with
  | nil => exact nomatch hx
  | node l r r' =>
    refine ⟨_, _, fun fuel hf => ?_, hs'.setColor r .RB_BLACK,
      setColor_top hb hs'.nodup (top_node ..), hl⟩
    simp [rbeInsertColor, hloop fuel hf, hs'.root]

/-! From one element to the next, and through all of them. -/

variable {ν : Type} {s : RbTree ν} {p : Path ν} {t a b : BinTree ν} {x : ν} {d : Side}
  {fuel : Nat}

theorem outermost_spec (h : Holds s (p.fill t)) (hx : t.top = some x) :
    ∃ (q : Path ν) (y : ν) (c : BinTree ν),
      (∀ fuel, t.height ≤ fuel → outermost d s fuel x = some y) ∧
      t = q.fill (branch d .nil y c) ∧ q.beyond d = [] := by
  induction hk : t.height using Nat.strongRecOn generalizing p t x with
  | _ k ih =>
    subst hk
    obtain ⟨l, r, rfl⟩ := exists_of_top hx
    obtain ⟨a, b, hab⟩ := node_eq_branch d l r x
    rw [hab] at h ih ⊢
    have hchild := h.child_top
    have hlen := height_branch d a b x
    cases a with
    | nil =>
      refine ⟨.root, x, b, fun fuel hf => ?_, rfl, rfl⟩
      obtain ⟨fuel, rfl⟩ := exists_eq_succ_of_ne_zero (n := fuel) (by omega)
      rw [outermost, hchild]
      rfl
    | node a₁ z a₂ =>
      obtain ⟨q, y, c, hout, hq, hbeyond⟩ :=
        ih _ (by omega) (p := .step d p x b) h (top_node a₁ a₂ z) rfl
      refine ⟨(Path.step d .root x b).append q, y, c, fun fuel hf => ?_, ?_, ?_⟩
      · obtain ⟨fuel, rfl⟩ := exists_eq_succ_of_ne_zero (n := fuel) (by omega)
        rw [outermost, hchild]
        exact hout fuel (by omega)
      · rw [Path.fill_append, ← hq]
        rfl
      · simp [Path.beyond_append, hbeyond, Path.beyond]

theorem outermost_head (h : Holds s (p.fill t)) (hx : t.top = some x)
    (hf : t.height ≤ fuel) : outermost d s fuel x = (t.along d.flip).head? := by
  obtain ⟨q, y, c, hout, ht, hq⟩ := outermost_spec (d := d) h hx
  rw [hout fuel hf, ht, Path.along_fill, Side.flip_flip, hq, ← branch_flip, along_branch]
  simp

theorem extreme_spec (h : Holds s t) (hf : t.height ≤ fuel) :
    extreme d fuel s = some (t.along d.flip).head? := by
  rw [extreme, h.root]
  cases ht : t.top with
  | none =>
    cases t with
    | nil => simp
    | node => exact nomatch ht
  | some x =>
    have hout := outermost_head (d := d) (p := .root) h ht hf
    obtain ⟨y, k, hy⟩ := exists_along d.flip ht
    rw [hy] at hout ⊢
    simp [hout]

variable [DecidableEq ν]

theorem climb_spec (h : Holds s (p.fill t)) (hx : t.top = some x) (hf : p.length < fuel) :
    climb d s fuel x = some (p.beyond d).head? := by
  induction fuel generalizing p t x with
  | zero => omega
  | succ fuel ih =>
    rw [climb, h.parent_top hx]
    cases p with
    | root => rfl
    | step e q y b =>
      have hside := h.side_iff (d := d) (.inl (by simp [hx]))
      rw [hx] at hside
      simp only [Path.parent, Path.beyond]
      by_cases he : e = d
      · rw [if_pos (hside.mpr he), if_pos he]
        exact ih (t := branch e t y b) h (top_branch ..) (by simp only [Path.length] at hf; omega)
      · rw [if_neg (mt hside.mp he), if_neg he]
        rfl

theorem neighbour_spec (h : Holds s (p.fill (branch d a x b)))
    (hf : (p.fill (branch d a x b)).height ≤ fuel) :
    neighbour d fuel s x = some (a.along d ++ p.beyond d).head? := by
  have hlen := p.length_add_height_le (branch d a x b)
  rw [height_branch] at hlen
  rw [neighbour, h.child_top]
  cases ha : a.top with
  | some z =>
    have hout := outermost_head (d := d.flip) (p := .step d p x b) h ha (show _ ≤ fuel by omega)
    obtain ⟨y, k, hy⟩ := exists_along d ha
    rw [Side.flip_flip, hy] at hout
    simp [hout, hy]
  | none =>
    cases a with
    | node => exact nomatch ha
    | nil =>
      have hclimb := climb_spec (d := d) h (top_branch ..) (show p.length < fuel by omega)
      rw [h.parent_top (top_branch ..)]
      cases p with
      | root => simpa [Path.parent] using hclimb
      | step e q y c =>
        have hside := h.side_iff (d := d.flip) (.inl (by simp))
        rw [top_branch] at hside
        simp only [Path.parent]
        by_cases he : e = d.flip
        · rw [if_pos (hside.mpr he), Path.beyond, if_neg (he ▸ d.flip_ne)]
          simp
        · rwa [if_neg (mt hside.mp he), along_nil, nil_append]

theorem neighbour_of_split {pre post : List ν} (h : Holds s t) (ht : t.along d = pre ++ x :: post)
    (hf : t.height ≤ fuel) : neighbour d fuel s x = some post.head? := by
  have hx : x ∈ t.toList := mem_along.mp (show x ∈ t.along d by simp [ht])
  obtain ⟨p, l, r, hfill⟩ := Path.exists_of_mem t .root hx
  obtain ⟨a, b, hab⟩ := node_eq_branch d l r x
  rw [hab, Path.fill] at hfill
  subst hfill
  rw [neighbour_spec h hf]
  have hn : (pre ++ x :: post).Nodup := ht ▸ nodup_along.mpr h.nodup
  obtain ⟨hpre, hpost⟩ := not_or.mp (mt mem_append.mpr (nodup_middle.mp hn).notMem)
  rw [Path.along_fill, along_branch, append_assoc, ← append_assoc, cons_append] at ht
  rw [((append_cons_inj_of_notMem hpre hpost).mp ht.symm).2.2]

theorem foreachLoop_spec (pre : List ν) {post : List ν} {rounds : Nat} (h : Holds s t)
    (ht : t.along d = pre ++ post) (hf : t.height ≤ fuel) (hr : post.length ≤ rounds) :
    foreachLoop d fuel s rounds post.head? = some post := by
  induction post generalizing pre rounds with
  | nil => rw [head?_nil, foreachLoop]
  | cons x post ih =>
    obtain ⟨rounds, rfl⟩ := exists_eq_succ_of_ne_zero (Nat.ne_zero_of_lt hr)
    have hnext := neighbour_of_split h ht hf
    have hrest := ih (pre ++ [x]) (by simp [ht]) (le_of_succ_le_succ hr)
    simp [foreachLoop, hnext, hrest]

theorem rbtForeach_spec (h : Holds s t) (hf : t.toList.length ≤ fuel) :
    rbtForeach fuel s = some t.toList := by
  have hmin := extreme_spec (d := .left) h (t.height_le_length.trans hf)
  have hloop := foreachLoop_spec (d := .right) [] h rfl (t.height_le_length.trans hf)
    (le_of_eq_of_le (by simp) hf)
  simp only [rbtForeach, rbMin, hmin]
  exact hloop

theorem rbtForeachReverse_spec (h : Holds s t) (hf : t.toList.length ≤ fuel) :
    rbtForeachReverse fuel s = some t.toList.reverse := by
  have hmax := extreme_spec (d := .right) h (t.height_le_length.trans hf)
  have hloop := foreachLoop_spec (d := .left) [] h rfl (t.height_le_length.trans hf)
    (le_of_eq_of_le (by simp) hf)
  simp only [rbtForeachReverse, rbMax, hmax]
  exact hloop

end Mbsd.Kern.SubrTree
