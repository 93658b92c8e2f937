import Mbsd.Lib.Visit
import Mbsd.Net.Art.Delete

/-! The prefixes that an iterator has ahead of it. -/

namespace Mbsd.Net.Allotment

open Lib Lib.HeapIndex List

variable {levels : List Nat} {π π₀ κ l l' : List Bool} {b i j : Nat}

theorem eq_of_prefix_append (h : π ++ l <+: κ) (h' : π ++ l' <+: κ) (hlen : l.length = l'.length) :
    l = l' := by
  have heq := (prefix_of_prefix_length_le h h' (by simp [hlen])).eq_of_length
    (by simp [hlen])
  exact append_cancel_left heq

/-- In the table for `π`, which covers `b` bits.  Below the fringe all of a table is ahead as long
as the non-fringe nodes are not done. -/
def AheadHere (π : List Bool) (b j i : Nat) (κ : List Bool) : Prop :=
  if j < 2 ^ b then
    (∃ l, l ≠ [] ∧ l.length < b ∧ κ = π ++ l ∧ OddWalk.Ahead (2 ^ b) j i (idx l)) ∨
      ∃ l, l.length = b ∧ π ++ l <+: κ
  else ∃ l, l.length = b ∧ π ++ l <+: κ ∧ i ≤ idx l

/-- In a table above the one for `π`: at the fringe, after the entry that leads to `π`. -/
def AheadAbove (levels : List Nat) (π κ : List Bool) : Prop :=
  ∃ n π₀ l l', n < levels.length ∧ π₀.length = (levels.take n).sum ∧
    l.length = levels.getD n 0 ∧ l'.length = levels.getD n 0 ∧ π₀ ++ l <+: π ∧ π₀ ++ l' <+: κ ∧
    idx l < idx l'

def AheadAt (levels : List Nat) (π : List Bool) (b j i : Nat) (κ : List Bool) : Prop :=
  AheadHere π b j i κ ∨ AheadAbove levels π κ

structure Spot (b j i : Nat) : Prop where
  nonfringe : j < 2 ^ b → OddWalk.Doubled j i ∧ 2 ≤ i
  fringe : 2 ^ b ≤ j → 2 ^ b ≤ i

section Here

theorem spot_start : Spot b 1 2 where
  nonfringe := fun _ => ⟨⟨rfl, 1, rfl⟩, Nat.le_refl 2⟩
  fringe := fun h => Nat.le_trans h (by omega)

theorem here_start (hb : 0 < b) : AheadHere π b 1 2 κ ↔ π <+: κ ∧ κ ≠ π := by
  rw [AheadHere, if_pos (Nat.one_lt_two_pow (Nat.ne_of_gt hb))]
  constructor
  · rintro (⟨l, hpos, -, rfl, -⟩ | ⟨l, hlen, hpre⟩)
    · exact ⟨prefix_append π l, by simpa using hpos⟩
    · refine ⟨(prefix_append π l).trans hpre, ?_⟩
      rintro rfl
      have hle := hpre.length_le
      rw [length_append] at hle
      omega
  · rintro ⟨⟨t, rfl⟩, hne⟩
    have hpos : t ≠ [] := by
      rintro rfl
      exact hne (append_nil π)
    by_cases hlt : t.length < b
    · refine .inl ⟨t, hpos, hlt, rfl, OddWalk.ahead_start (two_le_idx hpos) ?_⟩
      exact (idx_lt_iff t b).mpr hlt
    · refine .inr ⟨t.take b, length_take_of_le (Nat.not_lt.mp hlt), ?_⟩
      exact (prefix_append_right_inj π).mpr ( take_prefix b t)

theorem here_double (hj : j < 2 ^ b) (hpos : l ≠ []) (hl : l.length < b) (hi : idx l = i) :
    AheadHere π b j i κ ↔ κ = π ++ l ∨ AheadHere π b j (2 * i) κ := by
  have hlt : i < 2 ^ b := hi ▸ (idx_lt_iff l b).mpr hl
  rw [AheadHere, AheadHere, if_pos hj, if_pos hj]
  constructor
  · rintro (⟨m, hm, hlen, rfl, hahead⟩ | hbelow)
    · rcases (OddWalk.ahead_double hlt).mp hahead with heq | hahead
      · rw [← hi] at heq
        exact .inl (by rw [idx_inj.mp heq])
      · exact .inr (.inl ⟨m, hm, hlen, rfl, hahead⟩)
    · exact .inr (.inr hbelow)
  · rintro (rfl | ⟨m, hm, hlen, rfl, hahead⟩ | hbelow)
    · exact .inl ⟨l, hpos, hl, rfl, (OddWalk.ahead_double hlt).mpr (.inl hi)⟩
    · exact .inl ⟨m, hm, hlen, rfl, (OddWalk.ahead_double hlt).mpr (.inr hahead)⟩
    · exact .inr hbelow

section

variable (hj : j < 2 ^ b) (hs : OddWalk.Doubled j i)

include hj hs

theorem not_here_double (hl : l.length < b)
    (hi : idx l = i) : ¬AheadHere π b j (2 * i) (π ++ l) := by
  rw [AheadHere, if_pos hj]
  rintro (⟨m, -, -, heq, hahead⟩ | ⟨m, hlen, hpre⟩)
  · rw [← append_cancel_left heq, hi] at hahead
    exact OddWalk.not_ahead_double hs hahead
  · have hle := hpre.length_le
    rw [length_append, length_append] at hle
    omega

theorem here_next (hi : 2 ^ b ≤ i)
    (hnext : j + 2 < 2 ^ b) : AheadHere π b j i κ ↔ AheadHere π b (j + 2) (j + 2) κ := by
  rw [AheadHere, AheadHere, if_pos hj, if_pos hnext]
  simp only [OddWalk.ahead_next hs hi]

theorem here_last (hi : 2 ^ b ≤ i)
    (hnext : ¬j + 2 < 2 ^ b) : AheadHere π b j i κ ↔ AheadHere π b (j + 2) (2 ^ b) κ := by
  rw [AheadHere, AheadHere, if_pos hj, if_neg hnext]
  constructor
  · rintro (⟨m, -, -, -, hahead⟩ | ⟨m, hlen, hpre⟩)
    · exact absurd ((OddWalk.ahead_next hs hi).mp hahead)
        (OddWalk.not_ahead_end (Nat.not_lt.mp hnext))
    · exact ⟨m, hlen, hpre, hlen ▸ (idx_bounds m).1⟩
  · rintro ⟨m, hlen, hpre, -⟩
    exact .inr ⟨m, hlen, hpre⟩

end

theorem here_fringe (hj : ¬j < 2 ^ b) (hl : l.length = b) (hi : idx l = i) :
    AheadHere π b j i κ ↔ π ++ l <+: κ ∨ AheadHere π b j (i + 1) κ := by
  rw [AheadHere, AheadHere, if_neg hj, if_neg hj]
  constructor
  · rintro ⟨m, hlen, hpre, hle⟩
    rcases Nat.eq_or_lt_of_le hle with heq | hlt
    · rw [← hi] at heq
      exact .inl (by rwa [idx_inj.mp heq])
    · exact .inr ⟨m, hlen, hpre, hlt⟩
  · rintro (hpre | ⟨m, hlen, hpre, hle⟩)
    · exact ⟨l, hl, hpre, Nat.le_of_eq hi.symm⟩
    · exact ⟨m, hlen, hpre, by omega⟩

theorem not_here_fringe (hj : ¬j < 2 ^ b) (hl : l.length = b) (hi : idx l = i)
    (hpre : π ++ l <+: κ) : ¬AheadHere π b j (i + 1) κ := by
  rw [AheadHere, if_neg hj]
  rintro ⟨m, hlen, hpre', hle⟩
  rw [eq_of_prefix_append hpre' hpre (hlen.trans hl.symm)] at hle
  omega

theorem not_here_end (hj : ¬j < 2 ^ b) (hi : 2 ^ (b + 1) ≤ i) : ¬AheadHere π b j i κ := by
  rw [AheadHere, if_neg hj]
  rintro ⟨m, hlen, -, hle⟩
  have hlt := (idx_bounds m).2
  rw [hlen] at hlt
  omega

end Here

section Above

variable {art : Art} {tab : Tables} {p : Ptr}

theorem not_above_below (hpre : π <+: κ) : ¬AheadAbove levels π κ := by
  rintro ⟨n, π₀, l, l', -, -, hl, hl', hπ, hκ, hlt⟩
  rw [eq_of_prefix_append (hπ.trans hpre) hκ (hl.trans hl'.symm)] at hlt
  omega

theorem not_above_root (hs : Strides levels) : ¬AheadAbove levels [] κ := by
  rintro ⟨n, π₀, l, l', hn, -, hl, -, hπ, -, -⟩
  have hle := hπ.length_le
  have hbits := (hs n hn).1
  rw [length_append, length_nil] at hle
  omega

theorem above_child (h : Shape art tab) (hp : tab π = some p) (hl : l.length = (art.mem p).atBits) :
    AheadAbove art.artLevels (π ++ l) κ ↔
      (∃ l', l'.length = (art.mem p).atBits ∧ π ++ l' <+: κ ∧ idx l < idx l') ∨
        AheadAbove art.artLevels π κ := by
  have ht := h.table hp
  constructor
  · rintro ⟨n, π₀, m, m', hn, hπ₀, hm, hm', hpre, hκ, hlt⟩
    have hle := hpre.length_le
    have hsum : (art.artLevels.take (n + 1)).sum = π₀.length + m.length := by
      rw [take_add_one, sum_append, ← hπ₀, hm, getD_eq_getElem?_getD, getElem?_eq_getElem hn]
      simp
    have hbits := (h.strides n hn).1
    rw [length_append, length_append] at hle
    rcases Nat.lt_trichotomy n (art.mem p).atLevel with hlow | rfl | hhigh
    · refine .inr ⟨n, π₀, m, m', hn, hπ₀, hm, hm', ?_, hκ, hlt⟩
      refine prefix_of_prefix_length_le hpre (prefix_append π l) ?_
      rw [length_append, ← hsum, ht.length]
      exact sum_take_mono _ hlow
    · have hπ : π₀ = π := by
        refine (prefix_of_prefix_length_le ((prefix_append π₀ m).trans hpre)
          (prefix_append π l) ?_).eq_of_length ?_ <;> rw [hπ₀, ht.length]
      subst hπ
      rw [← ht.bits] at hm hm'
      obtain rfl := eq_of_prefix_append hpre prefix_rfl (hm.trans hl.symm)
      exact .inl ⟨m', hm', hκ, hlt⟩
    · have hmono := sum_take_mono art.artLevels hhigh
      rw [h.sum_take_succ hp, ← hπ₀] at hmono
      omega
  · rintro (⟨l', hl', hκ, hlt⟩ | ⟨n, π₀, m, m', hn, hπ₀, hm, hm', hpre, hκ, hlt⟩)
    · exact ⟨(art.mem p).atLevel, π, l, l', ht.level, ht.length, hl.trans ht.bits,
        hl'.trans ht.bits, prefix_rfl, hκ, hlt⟩
    · exact ⟨n, π₀, m, m', hn, hπ₀, hm, hm', hpre.trans (prefix_append π l), hκ, hlt⟩

end Above

/-! The iterator of a routing table. -/

structure ArtIter where
  aiTable : Option Ptr
  aiJ : Nat
  aiI : Nat
  deriving DecidableEq, Repr

def artIterDescend (ai : ArtIter) (heap : Ptr) (pahe : ArtHeapEntry) (art : Art) :
    Option ArtNode × ArtIter × Art :=
  let art := artTableRef art heap
  let ai := { ai with
    aiTable := some heap
    -- start looking at non-fringe nodes; the parent table sees to the default route
    aiJ := 1
    aiI := 2 }
  let ahe := art.entry heap artHeapIdxDefault
  if ahe ≠ .node none ∧ ahe ≠ pahe then (ahe.toNode, ai, art) else (none, ai, art)

inductive IterPc | descend | nonfringe | fringe
  deriving DecidableEq, Repr

def artIterFrom : Nat → IterPc → Ptr → ArtIter → Art → Option (Option ArtNode × ArtIter × Art)
  | 0, _, _, _, _ => none
  | fuel + 1, .descend, at_, ai, art =>
    if ai.aiJ < (art.mem at_).atMinfringe then artIterFrom fuel .nonfringe at_ ai art
    else artIterFrom fuel .fringe at_ ai art
  | fuel + 1, .nonfringe, at_, ai, art =>
    let i := ai.aiI
    if i < (art.mem at_).atMinfringe then
      let ai := { ai with aiI := i <<< 1 }
      let pahe := art.entry at_ (i >>> 1)
      let ahe := art.entry at_ i
      if ahe ≠ .node none ∧ ahe ≠ pahe then some (ahe.toNode, ai, art)
      else artIterFrom fuel .nonfringe at_ ai art
    else
      let ai := { ai with aiJ := ai.aiJ + 2 }
      if ai.aiJ < (art.mem at_).atMinfringe then
        artIterFrom fuel .nonfringe at_ { ai with aiI := ai.aiJ } art
      else artIterFrom fuel .fringe at_ { ai with aiI := (art.mem at_).atMinfringe } art
  | fuel + 1, .fringe, at_, ai, art =>
    let i := ai.aiI
    if i < (art.mem at_).atMinfringe <<< 1 then
      let ai := { ai with aiI := i + 1 }
      let pahe := art.entry at_ (i >>> 1)
      match art.entry at_ i with
      | .node an =>
        if an ≠ none ∧ .node an ≠ pahe then some (an, ai, art)
        else artIterFrom fuel .fringe at_ ai art
      | .heap heap =>
        match artIterDescend ai heap pahe art with
        | (some an, ai, art) => some (some an, ai, art)
        | (none, ai, art) => artIterFrom fuel .descend heap ai art
    else do
      -- ascend back up to the parent
      let parent := (art.mem at_).atParent
      let ai := { ai with aiI := ((art.mem at_).atIndex + 1) % 2 ^ 32 }
      let art ← artTableFree art at_
      let ai := { ai with aiTable := parent }
      match parent with
      | none => some (none, ai, art)
      | some parent =>
        artIterFrom fuel .fringe parent { ai with aiJ := (art.mem parent).atMinfringe } art

def iterFuel (art : Art) : Nat := 6 * 2 ^ (art.artAlen + 1) + art.artLevels.length + 4

def artIterNext (ai : ArtIter) (art : Art) : Option (Option ArtNode × ArtIter × Art) := do
  let at_ ← ai.aiTable
  artIterFrom (iterFuel art) .descend at_ ai art

def artIterOpen (ai : ArtIter) (art : Art) : Option (Option ArtNode × ArtIter × Art) :=
  match art.artRoot with
  | none => some (none, { ai with aiTable := none }, art)
  | some heap =>
    match artIterDescend ai heap (.node none) art with
    | (some an, ai, art) => some (some an, ai, art)
    | (none, ai, art) => artIterNext ai art

def artIterCloseLoop : Nat → Option Ptr → Art → Option Art
  | _, none, art => some art
  | 0, some _, _ => none
  | fuel + 1, some at_, art => do
    let parent := (art.mem at_).atParent
    let art ← artTableFree art at_
    artIterCloseLoop fuel parent art

def artIterClose (ai : ArtIter) (art : Art) : Option (ArtIter × Art) := do
  let art ← artIterCloseLoop art.artLevels.length ai.aiTable art
  some ({ ai with aiTable := none }, art)

end Mbsd.Net.Allotment
