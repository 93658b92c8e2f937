import Mbsd.Kern.SubrBlist.Access
import Mbsd.Kern.SubrBlist.Sublevel

/-! The terminators of a tree, which no hint is taken for, and the entries of the array that are in
front of them. -/

namespace Mbsd.Kern.SubrBlist.Access

open Lib.CellProg Function Nat SubrBlist

def IsEnd (h cnt j : Nat) : Prop := cnt ≤ j * radixOf h ∧ j * radixOf h < cnt + radixOf h

/-- A terminator stands behind the last node of each sublevel, and the hint of a node is none. -/
def Fenced (mem : BlMem) : (h scan cnt : Nat) → Prop
  | 0, scan, _ => (mem scan).bmBighint < terminator
  | h + 1, scan, cnt => (mem scan).bmBighint < terminator ∧ ∀ j < metaRadix,
      (j * radixOf h < cnt → Fenced mem h (sub scan h j) (subCnt h cnt j)) ∧
      (IsEnd h cnt j → (mem (sub scan h j)).bmBighint = terminator)

def Entry : (h scan cnt a : Nat) → Prop
  | 0, scan, _, a => a = scan
  | h + 1, scan, cnt, a => a = scan ∨ ∃ j < metaRadix,
      j * radixOf h < cnt ∧ Entry h (sub scan h j) (subCnt h cnt j) a ∨
      IsEnd h cnt j ∧ a = sub scan h j

def Past (mem : BlMem) : (h scan a : Nat) → Prop
  | 0, _, _ => False
  | h + 1, scan, a => ∃ j < metaRadix,
      (∀ i < j, (mem (sub scan h i)).bmBighint ≠ terminator) ∧
      ((mem (sub scan h j)).bmBighint = terminator ∧
          sub scan h j < a ∧ a ≤ scan + skipOf (h + 1) ∨
        (mem (sub scan h j)).bmBighint ≠ terminator ∧ Past mem h (sub scan h j) a)

def Keeps (mem mem' : BlMem) : Prop :=
  ∀ a, ((mem a).bmBighint = terminator → (mem' a).bmBighint = terminator) ∧
    ((mem a).bmBighint < terminator → (mem' a).bmBighint < terminator)

variable {mem mem' mem'' : BlMem} {h scan cnt j a : Nat} {m : BlMeta}

theorem Keeps.refl (mem : BlMem) : Keeps mem mem := fun _ => ⟨id, id⟩

theorem Keeps.trans (hk : Keeps mem mem') (hk' : Keeps mem' mem'') : Keeps mem mem'' :=
  fun a => ⟨fun h => (hk' a).1 ((hk a).1 h), fun h => (hk' a).2 ((hk a).2 h)⟩

theorem Keeps.update (hold : (mem a).bmBighint < terminator) (hnew : m.bmBighint < terminator) :
    Keeps mem (update mem a m) := by
  intro b
  by_cases hb : b = a
  · subst hb
    rw [update_self]
    exact ⟨fun h => absurd h (Nat.ne_of_lt hold), fun _ => hnew⟩
  · rw [update_of_ne hb]
    exact ⟨id, id⟩

theorem Fenced.head (hf : Fenced mem h scan cnt) : (mem scan).bmBighint < terminator := by
  cases h with
  | zero => exact hf
  | succ h => exact hf.1

theorem Fenced.keeps (hf : Fenced mem h scan cnt) (hk : Keeps mem mem') :
    Fenced mem' h scan cnt := by
  induction h generalizing scan cnt with
  | zero => exact (hk scan).2 hf
  | succ h ih =>
    exact ⟨(hk scan).2 hf.1, fun j hj => ⟨fun hlt => ih ((hf.2 j hj).1 hlt),
      fun he => (hk _).1 ((hf.2 j hj).2 he)⟩⟩

theorem Fenced.same (hf : Fenced mem h scan cnt) (hs : Same mem mem' scan h) :
    Fenced mem' h scan cnt := by
  induction h generalizing scan cnt with
  | zero =>
    show (mem' scan).bmBighint < terminator
    rw [hs.head]
    exact hf
  | succ h ih =>
    refine ⟨?_, fun j hj => ⟨fun hlt => ih ((hf.2 j hj).1 hlt) (hs.sub hj), fun he => ?_⟩⟩
    · rw [hs.head]
      exact hf.1
    · rw [(hs.sub hj).head]
      exact (hf.2 j hj).2 he

theorem Entry.head (h scan cnt : Nat) : Entry h scan cnt scan := by
  cases h with
  | zero => exact rfl
  | succ h => exact .inl rfl

theorem Entry.sub (hj : j < metaRadix) (hlt : j * radixOf h < cnt)
    (he : Entry h (sub scan h j) (subCnt h cnt j) a) : Entry (h + 1) scan cnt a :=
  .inr ⟨j, hj, .inl ⟨hlt, he⟩⟩

theorem Entry.range (he : Entry h scan cnt a) : scan ≤ a ∧ a ≤ scan + skipOf h := by
  induction h generalizing scan cnt with
  | zero => exact ⟨Nat.le_of_eq he.symm, Nat.le_of_eq he⟩
  | succ h ih =>
    rcases he with rfl | ⟨j, hj, he⟩
    · exact ⟨Nat.le_refl _, Nat.le_add_right _ _⟩
    · have hgt := sub_gt scan h j
      have hle := sub_le scan h hj
      rcases he with ⟨-, he⟩ | ⟨-, rfl⟩
      · have := ih he
        omega
      · omega

theorem Past.range (hp : Past mem h scan a) : scan < a ∧ a ≤ scan + skipOf h := by
  induction h generalizing scan with
  | zero => exact hp.elim
  | succ h ih =>
    obtain ⟨j, hj, -, hp⟩ := hp
    have hgt := sub_gt scan h j
    have hle := sub_le scan h hj
    rcases hp with ⟨-, hlt, hle'⟩ | ⟨-, hp⟩
    · omega
    · have := ih hp
      omega

theorem eq_of_range {i : Nat} (hi : sub scan h i ≤ a ∧ a ≤ sub scan h i + skipOf h)
    (hj : sub scan h j ≤ a ∧ a ≤ sub scan h j + skipOf h) : i = j := by
  rcases Nat.lt_trichotomy i j with hlt | heq | hgt
  · have := sub_lt_sub scan h hlt
    omega
  · exact heq
  · have := sub_lt_sub scan h hgt
    omega

theorem lt_of_mul_radix {i : Nat} (hi : i * radixOf h < cnt) (hj : cnt ≤ j * radixOf h) : i < j :=
  Nat.lt_of_mul_lt_mul_right (a := radixOf h) (Nat.lt_of_lt_of_le hi hj)

theorem Fenced.not_lt (hf : Fenced mem (h + 1) scan cnt) (hj : j < metaRadix)
    (hterm : (mem (sub scan h j)).bmBighint = terminator) : cnt ≤ j * radixOf h := by
  refine Nat.le_of_not_lt fun hlt => ?_
  exact absurd hterm (Nat.ne_of_lt ((hf.2 j hj).1 hlt).head)

theorem Fenced.not_past (hf : Fenced mem h scan cnt) (he : Entry h scan cnt a) :
    ¬Past mem h scan a := by
  induction h generalizing scan cnt with
  | zero => exact id
  | succ h ih =>
    rintro ⟨j, hj, hprev, ⟨hterm, hlt, -⟩ | ⟨hne, hp⟩⟩
    · have hend := hf.not_lt hj hterm
      rcases he with rfl | ⟨i, hi, ⟨hilt, he⟩ | ⟨hiend, rfl⟩⟩
      · have := sub_gt a h j
        omega
      · -- a node that exists comes before the terminator
        have hrange := he.range
        have := sub_lt_sub scan h (lt_of_mul_radix hilt hend)
        omega
      · have hji : j ≤ i := Nat.le_of_not_lt fun hij => hprev i hij ((hf.2 i hi).2 hiend)
        have hij : i < j + 1 := by
          refine Nat.lt_of_mul_lt_mul_right (a := radixOf h) ?_
          rw [succ_mul]
          have := hiend.2
          omega
        obtain rfl : i = j := by omega
        exact Nat.lt_irrefl _ hlt
    · have hrange := hp.range
      rcases he with rfl | ⟨i, hi, ⟨hilt, he⟩ | ⟨hiend, rfl⟩⟩
      · have := sub_gt a h j
        omega
      · obtain rfl := eq_of_range he.range ⟨Nat.le_of_lt hrange.1, hrange.2⟩
        exact ih ((hf.2 i hi).1 hilt) he hp
      · obtain rfl := eq_of_range ⟨Nat.le_refl _, Nat.le_add_right _ _⟩
          ⟨Nat.le_of_lt hrange.1, hrange.2⟩
        exact Nat.lt_irrefl _ hrange.1

def Guarded {α : Type} (P : Nat → Prop) (mem : BlMem) (p : BlProg α) (mem' : BlMem) : Prop :=
  p.Runs P (fun _ mem'' => Keeps mem mem'') mem'

section Guarded

variable {α β : Type} {P : Nat → Prop} {p : BlProg α} {f : α → BlProg β}

theorem Guarded.pure (hk : Keeps mem mem') (a : α) : Guarded P mem (pure a) mem' := hk

theorem Guarded.bind (hp : Guarded P mem p mem')
    (hf : ∀ a mem'', Keeps mem mem'' → Guarded P mem (f a) mem'') : Guarded P mem (p >>= f) mem' :=
  Prog.runs_bind.mpr (hp.mono hf)

theorem Guarded.get {f : BlMeta → BlProg α} (ha : P a) (hf : Guarded P mem (f (mem' a)) mem') :
    Guarded P mem (Prog.get a >>= f) mem' := ⟨ha, hf⟩

theorem Guarded.after (hk : Keeps mem mem') (hp : Guarded P mem' p mem') :
    Guarded P mem p mem' := hp.mono fun _ _ hk' => hk.trans hk'

theorem Guarded.hint {g : BlMeta → BlMeta} (hk : Keeps mem mem') (ha : P a)
    (hold : (mem a).bmBighint < terminator) (hnew : (g (mem' a)).bmBighint < terminator) :
    Guarded P mem (Prog.modify a g) mem' :=
  ⟨ha, ha, hk.trans (.update ((hk a).2 hold) hnew)⟩

theorem Guarded.when {b : Prop} [Decidable b] {p : BlProg Unit} (hk : Keeps mem mem')
    (hp : b → Guarded P mem p mem') : Guarded P mem (Prog.when b p) mem' :=
  Prog.runs_when hp fun _ => hk

end Guarded

section Loops

variable {P : Nat → Prop} {n : Nat}

theorem index_succ (h j : Nat) :
    j * (skipOf h + 1) + 1 + (skipOf h + 1) = (j + 1) * (skipOf h + 1) + 1 := by
  rw [succ_mul]
  omega

theorem Fenced.slot (hf : Fenced mem (h + 1) scan cnt) (hj : j < metaRadix)
    (hlast : j * radixOf h < cnt + radixOf h) : Entry (h + 1) scan cnt (sub scan h j) ∧
      ((mem (sub scan h j)).bmBighint ≠ terminator → j * radixOf h < cnt) := by
  rcases Nat.lt_or_ge (j * radixOf h) cnt with hlt | hge
  · exact ⟨.sub hj hlt (.head _ _ _), fun _ => hlt⟩
  · exact ⟨.inr ⟨j, hj, .inr ⟨⟨hge, hlast⟩, rfl⟩⟩,
      fun hne => absurd ((hf.2 j hj).2 ⟨hge, hlast⟩) hne⟩

section Sub

variable {σ : Type} {body : (i : Nat) → σ → BlProg (ForInStep σ)}
  (hf : Fenced mem (h + 1) scan cnt) (hP : ∀ a, Entry (h + 1) scan cnt a → P a)
  (hbody : ∀ j s mem', j < metaRadix → j * radixOf h < cnt → Keeps mem mem' →
    Guarded P mem (body (j * (skipOf h + 1) + 1) s) mem')

include hf hP hbody

theorem subLoop_guarded {s : σ} (hj : j ≤ metaRadix) (hn : metaRadix < n + j)
    (hlast : j * radixOf h < cnt + radixOf h) (hk : Keeps mem mem') : Guarded P mem
      (subLoop scan (skipOf (h + 1)) (skipOf h + 1) body n (j * (skipOf h + 1) + 1) s) mem' := by
  induction n generalizing j s mem' with
  | zero => omega
  | succ n ih =>
    rw [subLoop]
    split
    next hi =>
      have hj' := index_le_skipOf.mp hi
      obtain ⟨hentry, hnode⟩ := (hf.keeps hk).slot hj' hlast
      refine .get (hP _ hentry) ?_
      split
      next => exact hk
      next hne =>
        have hlt := hnode hne
        refine (hbody j s mem' hj' hlt hk).bind fun r mem'' hk' => ?_
        cases r with
        | done s => exact hk'
        | yield s =>
          rw [index_succ]
          exact ih hj' (by omega) (by rw [succ_mul]; omega) hk'
    next => exact hk

theorem subLoop_first_guarded (hcnt : 0 < cnt) (hk : Keeps mem mem') (s : σ) :
    Guarded P mem (subLoop scan (skipOf (h + 1)) (skipOf h + 1) body turns 1 s) mem' := by
  have hloop := subLoop_guarded (j := 0) (n := turns) (s := s) hf hP hbody (Nat.zero_le _)
    (by decide) (by omega) hk
  rwa [Nat.zero_mul] at hloop

end Sub

section Range

variable {step : (i from_ v blk : Nat) → BlProg Nat} {base sum from_ count : Nat}
  (hstep : ∀ j from_ v mem', j < metaRadix → j * radixOf h < cnt → Keeps mem mem' →
    base + j * radixOf h ≤ from_ → from_ < base + j * radixOf h + subCnt h cnt j →
    from_ + v ≤ base + j * radixOf h + subCnt h cnt j →
    Guarded P mem (step (j * (skipOf h + 1) + 1) from_ v (base + j * radixOf h)) mem')

include hstep

theorem rangeLoop_guarded
    (hj : j ≤ metaRadix) (hn : metaRadix < n + j) (hle : from_ + count ≤ base + cnt)
    (hin : count = 0 ∧ from_ ≤ base + j * radixOf h ∨
      base + j * radixOf h ≤ from_ ∧ from_ < base + j * radixOf h + radixOf h ∧ from_ < base + cnt)
    (hk : Keeps mem mem') : Guarded P mem
      (rangeLoop step (radixOf h) (skipOf (h + 1)) (skipOf h + 1) n sum
        (j * (skipOf h + 1) + 1) (base + j * radixOf h) from_ count) mem' := by
  induction n generalizing j sum from_ count mem' with
  | zero => omega
  | succ n ih =>
    rw [rangeLoop]
    split
    next hi =>
      have hj' := index_le_skipOf.mp hi.1
      rcases hin with ⟨rfl, hbehind⟩ | ⟨hlo, hhi, hlt⟩
      · omega
      have hnode : j * radixOf h < cnt := by omega
      refine (hstep j from_ _ mem' hj' hnode hk hlo (by rw [subCnt]; omega)
        (by rw [subCnt]; omega)).bind fun r mem'' hk' => ?_
      have hblk : base + j * radixOf h + radixOf h = base + (j + 1) * radixOf h := by
        rw [succ_mul, Nat.add_assoc]
      rw [index_succ, hblk]
      refine ih hj' (by omega) (by omega) ?_ hk'
      rw [← hblk]
      omega
    next => exact hk

theorem rangeLoop_first_guarded
    (hlo : base ≤ from_) (hhi : from_ < base + cnt) (hle : from_ + count ≤ base + cnt)
    (hcnt : cnt ≤ radixOf (h + 1)) (hk : Keeps mem mem') : Guarded P mem
      (rangeLoop step (radixOf h) (skipOf (h + 1)) (skipOf h + 1) turns sum
        ((from_ - base) / radixOf h * (skipOf h + 1) + 1)
        (base + (from_ - base) / radixOf h * radixOf h) from_ count) mem' := by
  have hbegin : (from_ - base) / radixOf h * radixOf h ≤ from_ - base := div_mul_le_self _ _
  have hend := lt_div_mul_add (a := from_ - base) (radixOf_pos h)
  have hslot : (from_ - base) / radixOf h < metaRadix := by
    rw [Nat.div_lt_iff_lt_mul (radixOf_pos h), Nat.mul_comm]
    exact Nat.lt_of_lt_of_le (by omega) hcnt
  exact rangeLoop_guarded hstep (Nat.le_of_lt hslot) (Nat.lt_add_right _ (by decide)) hle
    (.inr ⟨by omega, by omega, hhi⟩) hk

end Range

end Loops

end Mbsd.Kern.SubrBlist.Access
