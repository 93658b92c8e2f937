import Mathlib.Order.Lattice.Nat
import Mbsd.Kern.KernDescrip.Model
import Mbsd.Lib.Bitmap

/-! What `find_next_zero` finds. -/

namespace Mbsd.Kern.KernDescrip

open Lib.Bitmap List BitVec Nat Bool

variable {b : Array (BitVec 32)} {base want bits off n d p q r : Nat} {x sub : BitVec 32} {i : Nat}

@[simp] theorem shiftRight_ndentryshift (x : Nat) : x >>> ndentryshift = x / 32 :=
  shiftRight_eq_div_pow x 5

@[simp] theorem shiftLeft_ndentryshift (x : Nat) : x <<< ndentryshift = x * 32 :=
  shiftLeft_eq x 5

@[simp] theorem and_ndentrymask (x : Nat) : x &&& ndentrymask = x % 32 :=
  and_two_pow_sub_one_eq_mod x 5

theorem ndreduce_eq (x : Nat) : ndreduce x = (x + 31) / 32 := shiftRight_ndentryshift _

theorem ndhislots_eq (x : Nat) : ndhislots x = (x + 1023) / 1024 := by
  rw [ndhislots, ndreduce_eq, ndreduce_eq]
  omega

theorem ndloslots_eq (x : Nat) : ndloslots x = ndhislots x * 32 := shiftLeft_ndentryshift _

theorem load_of_lt (h : off < b.size) : ∃ x, b[off]? = some x ∧ load b off = .ok x :=
  ⟨b[off], Array.getElem?_eq_getElem h, by rw [load, Array.getElem?_eq_getElem h]⟩

theorem load_outside (h : b.size ≤ off) : load b off = .error .outside := by
  rw [load, Array.getElem?_eq_none h]

theorem ffs_eq (hx : x ≠ 0) :
    ∃ j < 32, ffs x = j + 1 ∧ x.getLsbD j = true ∧ ∀ i < j, x.getLsbD i = false := by
  obtain ⟨k, hk, hbit⟩ : ∃ k < 32, x.getLsbD k = true := by
    by_contra hnone
    refine hx (eq_of_getLsbD_eq fun k hk => ?_)
    rw [show getLsbD 0 k = false from getLsbD_zero, eq_false_iff]
    exact fun hbit => hnone ⟨k, hk, hbit⟩
  cases hfind : (range 32).find? fun i => x.getLsbD i with
  | none =>
    exact absurd hbit (find?_eq_none.mp hfind k (mem_range.mpr hk))
  | some j =>
    obtain ⟨hset, hlt, hmin⟩ := find?_range_eq_some.mp hfind
    refine ⟨j, mem_range.mp hlt, by rw [ffs, hfind]; rfl, hset, fun i hi => ?_⟩
    simpa using hmin i hi

theorem foundZero_eq (off : Nat) (hsub : sub ≠ allOnes 32) :
    ∃ j < 32, foundZero off sub = off * 32 + j ∧ sub.getLsbD j = false ∧
      ∀ i < j, sub.getLsbD i = true := by
  have hnot : ~~~sub ≠ 0 := fun h => hsub (by
    rw [← not_not (b := sub), h]
    rfl)
  obtain ⟨j, hj, hffs, hset, hmin⟩ := ffs_eq hnot
  rw [getLsbD_not, decide_eq_true hj, Bool.true_and, not_eq_true'] at hset
  refine ⟨j, hj, by rw [foundZero, hffs, shiftLeft_ndentryshift]; rfl, hset, fun i hi => ?_⟩
  have hi' := hmin i hi
  rwa [getLsbD_not, decide_eq_true (hi.trans hj), Bool.true_and, not_eq_false'] at hi'

def Ones (b : Array (BitVec 32)) (p q : Nat) : Prop := ∀ d, p ≤ d → d < q → bit b d = true

theorem Ones.append (h : Ones b p q) (h' : Ones b q r) : Ones b p r := fun d hp hr => by
  rcases Nat.lt_or_ge d q with hq | hq
  · exact h d hp hq
  · exact h' d hq hr

theorem Ones.of_le (h : q ≤ p) : Ones b p q := fun d hp hq => by omega

inductive Found (b : Array (BitVec 32)) (base p q : Nat) : Except Fault (Option Nat) → Prop
  | some {r : Nat} (hle : p ≤ base * 32 + r) (hlt : base * 32 + r < b.size * 32)
      (hq : base * 32 + r < q) (hclear : bit b (base * 32 + r) = false) (hones : Ones b p (base * 32 + r)) :
      Found b base p q (.ok (some r))
  | none (hones : Ones b p q) : Found b base p q (.ok none)
  | outside (hlt : b.size * 32 < q) (hones : Ones b p (b.size * 32)) :
      Found b base p q (.error .outside)

theorem Found.ones_trans {o : Except Fault (Option Nat)} (hones : Ones b p r) (hle : p ≤ r)
    (h : Found b base r q o) : Found b base p q o := by
  cases h with
  | some hr hlt hq hclear h => exact .some (hle.trans hr) hlt hq hclear (hones.append h)
  | none h => exact .none (hones.append h)
  | outside hlt h => exact .outside hlt (hones.append h)

section

variable (hx : b[base + off]? = some x)
  (hsub : ∀ j < 32, sub.getLsbD j = (decide (j < i) || x.getLsbD j))

include hx hsub

theorem found_word (hne : sub ≠ allOnes 32) (hq : (base + off + 1) * 32 ≤ q) :
    Found b base ((base + off) * 32 + i) q (.ok (some (foundZero off sub))) := by
  obtain ⟨j, hj, hfound, hclear, hmin⟩ := foundZero_eq off hne
  have hlt := (Array.getElem?_eq_some_iff.mp hx).1
  have hpos : base * 32 + (off * 32 + j) = (base + off) * 32 + j := by omega
  rw [hsub j hj, or_eq_false_iff, decide_eq_false_iff_not] at hclear
  rw [hfound]
  refine .some (by omega) (by omega) (by omega) ?_ fun d hlo hhi => ?_
  · rw [hpos, bit_word hx hj]
    exact hclear.2
  · obtain ⟨e, rfl⟩ := Nat.exists_eq_add_of_le (show (base + off) * 32 ≤ d by omega)
    have he := hmin e (by omega)
    rw [hsub e (by omega), decide_eq_false (by omega), Bool.false_or] at he
    rwa [bit_word hx (by omega)]

theorem ones_word (heq : sub = allOnes 32) :
    Ones b ((base + off) * 32 + i) ((base + off + 1) * 32) := fun d hlo hhi => by
  obtain ⟨e, rfl⟩ := Nat.exists_eq_add_of_le (show (base + off) * 32 ≤ d by omega)
  have he := eq_allOnes_iff.mp heq e (by omega)
  rw [hsub e (by omega), decide_eq_false (by omega), Bool.false_or] at he
  rwa [bit_word hx (by omega)]

end

theorem findNextZeroLoop_found (b : Array (BitVec 32)) (base n off : Nat) :
    Found b base ((base + off) * 32) ((base + off + n) * 32) (findNextZeroLoop b base n off) := by
  induction n generalizing off with
  | zero => exact .none (Ones.of_le (Nat.le_refl _))
  | succ n ih =>
    rw [findNextZeroLoop]
    rcases Nat.lt_or_ge (base + off) b.size with hlt | hge
    · obtain ⟨x, hx, hload⟩ := load_of_lt hlt
      have hsub : ∀ j < 32, x.getLsbD j = (decide (j < 0) || x.getLsbD j) := by simp
      rw [hload]
      simp only [bind, Except.bind]
      split
      · next hne =>
        have hword := found_word (q := (base + off + (n + 1)) * 32) hx hsub hne (by omega)
        rwa [Nat.add_zero] at hword
      · next heq =>
        have hones := ones_word hx hsub (not_not.mp heq)
        rw [Nat.add_zero] at hones
        have hnext : Found b base ((base + (off + 1)) * 32) ((base + (off + 1) + n) * 32)
            (findNextZeroLoop b base n (off + 1)) := ih _
        rw [← Nat.add_assoc] at hnext
        rw [show base + off + (n + 1) = base + off + 1 + n by omega]
        exact hnext.ones_trans hones (by omega)
    · rw [load_outside hge]
      exact .outside (by omega) (Ones.of_le (by omega))

theorem getLsbD_or_low {j : Nat} (hi : i ≤ 32) (_hj : j < 32) :
    (x ||| allOnes 32 >>> (ndentries - i)).getLsbD j = (decide (j < i) || x.getLsbD j) := by
  rw [getLsbD_or, getLsbD_ushiftRight, getLsbD_allOnes, Bool.or_comm]
  congr 1
  rw [ndentries, decide_eq_decide]
  omega

theorem findNextZero_gt (h : bits < want) : findNextZero b base want bits = .ok none :=
  if_pos h

theorem findNextZero_found (b : Array (BitVec 32)) (base : Nat) (h : want ≤ bits) :
    Found b base (base * 32 + want) ((base + ndloslots bits) * 32)
      (findNextZero b base want bits) := by
  have hmax : want / 32 + 1 ≤ ndloslots bits ∨ want % 32 = 0 ∧ want / 32 ≤ ndloslots bits := by
    rw [ndloslots_eq, ndhislots_eq]
    omega
  rw [findNextZero, if_neg (Nat.not_lt.mpr h)]
  simp only [shiftRight_ndentryshift, and_ndentrymask]
  split
  · next hi =>
    rcases Nat.lt_or_ge (base + want / 32) b.size with hlt | hge
    · obtain ⟨x, hx, hload⟩ := load_of_lt hlt
      have hmod := mod_lt want (show 0 < 32 by decide)
      have hsub := fun j => getLsbD_or_low (x := x) (j := j) hmod.le
      have hpos : (base + want / 32) * 32 + want % 32 = base * 32 + want := by omega
      rw [hload]
      simp only [bind, Except.bind]
      split
      · next hne =>
        rw [← hpos]
        exact found_word hx hsub hne (by omega)
      · next heq =>
        have hones := ones_word hx hsub (not_not.mp heq)
        have hnext := findNextZeroLoop_found b base (ndloslots bits - (want / 32 + 1)) (want / 32 + 1)
        rw [hpos] at hones
        rw [show base + (want / 32 + 1) + (ndloslots bits - (want / 32 + 1)) =
          base + ndloslots bits by omega, ← Nat.add_assoc] at hnext
        exact hnext.ones_trans hones (by omega)
    · rw [load_outside hge]
      exact .outside (by omega) (Ones.of_le (by omega))
  · next hi =>
    have hnext := findNextZeroLoop_found b base (ndloslots bits - want / 32) (want / 32)
    rw [show base + want / 32 + (ndloslots bits - want / 32) = base + ndloslots bits by omega,
      show (base + want / 32) * 32 = base * 32 + want by omega] at hnext
    exact hnext

/-! The bitmaps, their counters, and what `fd_used` and `fd_unused` make of them. -/

variable {fdp fdp' : Filedesc} {fd n k : Nat}

def used (fdp : Filedesc) : Finset Nat :=
  (Finset.range (fdp.lomap.size * 32)).filter fun fd => bit fdp.lomap fd

theorem mem_used : fd ∈ used fdp ↔ bit fdp.lomap fd = true := by
  rw [used, Finset.mem_filter, Finset.mem_range]
  exact ⟨fun h => h.2, fun h => ⟨lt_of_bit (by decide) h, h⟩⟩

/-- A table starts with `NDFILE` descriptors, and then has `NDEXTENT` and twice as many each
time. -/
def Sized (n : Nat) : Prop := n = ndfile ∨ ∃ k, n = ndextent * 2 ^ k

structure Maps (fdp : Filedesc) : Prop where
  sized : Sized fdp.nfiles
  hisize : fdp.himap.size = ndhislots fdp.nfiles
  losize : fdp.lomap.size = ndloslots fdp.nfiles
  inside : ∀ fd ∈ used fdp, fd < fdp.nfiles
  summary : Summary fdp.himap fdp.lomap

structure Tidy (fdp : Filedesc) : Prop extends Maps fdp where
  openfd : fdp.openfd = (used fdp).card
  lastfile : fdp.lastfile = (used fdp).sup id

theorem Maps.lt_losize (h : Maps fdp) (hfd : fd < fdp.nfiles) : fd / 32 < fdp.lomap.size := by
  rw [h.losize, ndloslots_eq, ndhislots_eq]
  omega

theorem Maps.lt_hisize (h : Maps fdp) (hoff : off < fdp.lomap.size) :
    off / 32 < fdp.himap.size := by
  rw [h.losize, ndloslots_eq] at hoff
  rw [h.hisize]
  omega

theorem le_lastfile (h : Tidy fdp) (hfd : fd ∈ used fdp) : fd ≤ fdp.lastfile := by
  rw [h.lastfile]
  exact Finset.le_sup (f := id) hfd

theorem full_of_used (h : Full fdp.lomap (fd / 32)) : fd ∈ used fdp := by
  have hbit := (full_iff.mp h).2 (fd % 32) (mod_lt fd (by decide))
  rw [div_add_mod'] at hbit
  exact mem_used.mpr hbit

theorem full_set (hoff : off < b.size) :
    Full (b.setIfInBounds off x) i ↔ if i = off then x = allOnes 32 else Full b i := by
  rw [Full, Array.getElem?_setIfInBounds]
  by_cases h : i = off
  · subst h
    simp [hoff]
  · rw [if_neg (Ne.symm h), if_neg h, Full]

theorem store_of_lt (h : off < b.size) : store b off x = .ok (b.setIfInBounds off x) := if_pos h

theorem summary_set {himap himap' lomap : Array (BitVec 32)}
    (h : Summary himap lomap) (hoff : off < lomap.size)
    (hset : bit himap' off = true ↔ x = allOnes 32)
    (hrest : ∀ i ≠ off, bit himap' i = bit himap i) :
    Summary himap' (lomap.setIfInBounds off x) := fun i => by
  rw [full_set hoff]
  split
  · next heq => rw [heq, hset]
  · next hne => rw [hrest i hne, h i]

section

variable (h : Summary fdp.himap fdp.lomap) (hlo : off < fdp.lomap.size)
  (hhi : off / 32 < fdp.himap.size)

include h hlo hhi

theorem himapUsed_eq (hnot : ¬Full fdp.lomap off) :
    ∃ himap, himapUsed fdp.himap off x = .ok himap ∧ himap.size = fdp.himap.size ∧
      Summary himap (fdp.lomap.setIfInBounds off x) := by
  obtain ⟨y, hy, hload⟩ := load_of_lt hhi
  rw [himapUsed]
  split
  · next hfull =>
    have hbit : ∀ e, bit (fdp.himap.setIfInBounds (off / 32) (y ||| 1#32 <<< (off % 32))) e =
        (decide (e = off) || bit fdp.himap e) := fun e => bit_set_or hhi hy (by decide)
    rw [shiftRight_ndentryshift, and_ndentrymask, hload]
    refine ⟨_, store_of_lt hhi, Array.size_setIfInBounds, ?_⟩
    refine summary_set h hlo ?_ fun i hne => ?_
    · rw [hbit, decide_eq_true rfl, Bool.true_or]
      exact iff_of_true rfl hfull
    · rw [hbit, decide_eq_false hne, Bool.false_or]
  · next hfull =>
    refine ⟨_, rfl, rfl, summary_set h hlo ?_ fun i _ => rfl⟩
    exact iff_of_false (fun hset => hnot ((h off).mp hset)) hfull

theorem himapUnused_eq {x' : BitVec 32} (hx : fdp.lomap[off]? = some x) (hne : x' ≠ allOnes 32) :
    ∃ himap, himapUnused fdp.himap off x = .ok himap ∧ himap.size = fdp.himap.size ∧
      Summary himap (fdp.lomap.setIfInBounds off x') := by
  obtain ⟨y, hy, hload⟩ := load_of_lt hhi
  rw [himapUnused]
  split
  · have hbit : ∀ e, bit (fdp.himap.setIfInBounds (off / 32) (y &&& ~~~(1#32 <<< (off % 32)))) e =
        (!decide (e = off) && bit fdp.himap e) := fun e => bit_set_and hhi hy (by decide)
    rw [shiftRight_ndentryshift, and_ndentrymask, hload]
    refine ⟨_, store_of_lt hhi, Array.size_setIfInBounds, ?_⟩
    refine summary_set h hlo ?_ fun i hi => ?_
    · rw [hbit, decide_eq_true rfl, Bool.not_true, Bool.false_and]
      exact iff_of_false Bool.false_ne_true hne
    · rw [hbit, decide_eq_false hi, Bool.not_false, Bool.true_and]
  · next hfull =>
    refine ⟨_, rfl, rfl, summary_set h hlo ?_ fun i _ => rfl⟩
    refine iff_of_false (fun hset => hfull ?_) hne
    have hword := (h off).mp hset
    rw [Full, hx] at hword
    exact Option.some.inj hword

end

structure Marked (fdp : Filedesc) (fd : Nat) (fdp' : Filedesc) : Prop where
  tidy : Tidy fdp'
  used : used fdp' = insert fd (used fdp)
  ofiles : fdp'.ofiles = fdp.ofiles
  ofileflags : fdp'.ofileflags = fdp.ofileflags
  nfiles : fdp'.nfiles = fdp.nfiles
  freefile : fdp'.freefile = fdp.freefile

theorem fdUsed_marked (h : Tidy fdp) (hfd : fd < fdp.nfiles) (hnot : fd ∉ used fdp) :
    ∃ fdp', fdUsed fdp fd = .ok fdp' ∧ Marked fdp fd fdp' := by
  have hlo := h.lt_losize hfd
  have hhi := h.lt_hisize hlo
  obtain ⟨x, hx, hload⟩ := load_of_lt hlo
  have hbit : ∀ e, bit (fdp.lomap.setIfInBounds (fd / 32) (x ||| 1#32 <<< (fd % 32))) e =
      (decide (e = fd) || bit fdp.lomap e) := fun e => bit_set_or hlo hx (by decide)
  have hused : ∀ fdp' : Filedesc,
      fdp'.lomap = fdp.lomap.setIfInBounds (fd / 32) (x ||| 1#32 <<< (fd % 32)) →
      used fdp' = insert fd (used fdp) := fun fdp' hmap => by
    ext e
    rw [mem_used, Finset.mem_insert, mem_used, hmap, hbit e, or_eq_true, decide_eq_true_eq]
  obtain ⟨himap, hhimap, hsize, hsummary⟩ :=
    himapUsed_eq (x := x ||| 1#32 <<< (fd % 32)) h.summary hlo hhi fun hfull =>
      hnot (full_of_used hfull)
  simp only [fdUsed, shiftRight_ndentryshift, and_ndentrymask, hload, hhimap, bind, Except.bind,
    store_of_lt hlo]
  refine ⟨_, rfl, ⟨⟨⟨h.sized, ?_, ?_, ?_, hsummary⟩, ?_, ?_⟩, hused _ rfl, rfl, rfl, rfl, rfl⟩⟩
  · rw [hsize, h.hisize]
  · rw [Array.size_setIfInBounds, h.losize]
  · rw [hused _ rfl, Finset.forall_mem_insert]
    exact ⟨hfd, h.inside⟩
  · rw [hused _ rfl, Finset.card_insert_of_notMem hnot, h.openfd, cast_add_one]
  · rw [hused _ rfl, Finset.sup_insert, ← h.lastfile]
    show (if fd > fdp.lastfile then fd else fdp.lastfile) = max fd fdp.lastfile
    split
    · exact (max_eq_left (by omega)).symm
    · exact (max_eq_right (by omega)).symm

theorem fdInuse_eq (h : fd / 32 < fdp.lomap.size) : fdInuse fdp fd = .ok (bit fdp.lomap fd) := by
  obtain ⟨x, hx, hload⟩ := load_of_lt h
  have hmod := mod_lt fd (show 0 < 32 by decide)
  rw [fdInuse, shiftRight_ndentryshift, hload]
  simp only [bind, Except.bind, and_ndentrymask]
  rw [bit_of_getElem? hx]
  have hone : ∀ j < 32, (1#32 <<< (fd % 32)).getLsbD j = decide (j = fd % 32) := fun j hj => by
    have hor := getLsbD_or_bit (x := 0#32) hmod hj
    rwa [getLsbD_or, getLsbD_zero, Bool.false_or, Bool.or_false] at hor
  congr 1
  rw [Bool.eq_iff_iff, decide_eq_true_eq]
  constructor
  · intro hne
    by_contra hnot
    refine hne (eq_of_getLsbD_eq fun j hj => ?_)
    rw [getLsbD_and, hone j hj, show getLsbD 0 j = false from getLsbD_zero]
    by_cases hjd : j = fd % 32
    · rw [hjd, eq_false_iff.mpr hnot, Bool.false_and]
    · rw [decide_eq_false hjd, Bool.and_false]
  · intro hset heq
    have hbit := congrArg (·.getLsbD (fd % 32)) heq
    simp only [getLsbD_and, hone _ hmod, decide_true, Bool.and_true, hset] at hbit
    exact absurd hbit (by rw [show getLsbD 0 (fd % 32) = false from getLsbD_zero]; decide)

theorem lastWord_eq (hk : k ≤ fdp.lomap.size) (hzero : ∀ fd ∈ used fdp, fd < k * 32) :
    ∃ off ≤ k, lastWord fdp.lomap k = .ok off ∧ ∀ fd ∈ used fdp, fd < off * 32 := by
  induction k with
  | zero => exact ⟨0, Nat.le_refl 0, rfl, hzero⟩
  | succ k ih =>
    obtain ⟨x, hx, hload⟩ := load_of_lt (lt_of_succ_le hk)
    rw [lastWord, hload]
    simp only [bind, Except.bind]
    split
    · next hx0 =>
      obtain ⟨off, hle, hrun, hoff⟩ := ih (le_of_succ_le hk) fun fd hfd => by
        have hlt := hzero fd hfd
        by_contra hge
        have hword : fd / 32 = k := by omega
        have hbit := mem_used.mp hfd
        rw [bit_of_getElem? (x := x) (by rw [hword, hx]), hx0] at hbit
        rw [show getLsbD 0 (fd % 32) = false from getLsbD_zero] at hbit
        cases hbit
      exact ⟨off, le_succ_of_le hle, hrun, hoff⟩
    · exact ⟨k + 1, Nat.le_refl _, rfl, hzero⟩

theorem lastInuse_eq (hk : k / 32 < fdp.lomap.size) (hle : ∀ fd ∈ used fdp, fd ≤ k) :
    lastInuse fdp k = .ok ((used fdp).sup id) := by
  induction k with
  | zero =>
    rw [lastInuse, le_zero.mp (Finset.sup_le (f := id) hle)]
  | succ k ih =>
    rw [lastInuse, fdInuse_eq hk]
    simp only [bind, Except.bind]
    split
    · next hbit =>
      have hmax : (used fdp).sup id = k + 1 :=
        Nat.le_antisymm (Finset.sup_le hle) (Finset.le_sup (f := id) (mem_used.mpr hbit))
      rw [hmax]
    · next hbit =>
      refine ih (by omega) fun fd hfd => ?_
      have hne : fd ≠ k + 1 := fun heq => hbit (mem_used.mp (heq ▸ hfd))
      have hlt := hle fd hfd
      omega

theorem findLastSet_eq {last : Nat} (hlast : last ≤ fdp.lomap.size * 32)
    (hlt : ∀ fd ∈ used fdp, fd < last) : findLastSet fdp last = .ok ((used fdp).sup id) := by
  have hk : (if last = 0 then 0 else (last - 1) >>> ndentryshift + 1) = (last + 31) / 32 := by
    rw [shiftRight_ndentryshift]
    split <;> omega
  have hfirst : (last + 31) / 32 ≤ fdp.lomap.size := by omega
  obtain ⟨off, hle, hrun, hoff⟩ := lastWord_eq hfirst
    fun fd hfd => by
      have := hlt fd hfd
      omega
  rw [findLastSet, hk, hrun]
  simp only [bind, Except.bind, shiftLeft_ndentryshift]
  split
  · next hzero =>
    have hmax : (used fdp).sup id ≤ 0 := Finset.sup_le fun fd hfd => by
      have hfd' := hoff fd hfd
      rw [hzero] at hfd'
      exact absurd hfd' (by omega)
    rw [le_zero.mp hmax]
  · refine lastInuse_eq ?_ fun fd hfd => ?_
    · split <;> omega
    · have h1 := hoff fd hfd
      have h2 := hlt fd hfd
      split <;> omega

theorem sup_erase {s : Finset Nat} (hne : fd ≠ s.sup id) (hfd : fd ∈ s) :
    (s.erase fd).sup id = s.sup id := by
  obtain ⟨m, hm, hmax⟩ := Finset.exists_mem_eq_sup s ⟨fd, hfd⟩ id
  have hmem : m ∈ s.erase fd := Finset.mem_erase.mpr ⟨fun heq => hne (by rw [hmax, heq]; rfl), hm⟩
  refine Nat.le_antisymm (Finset.sup_mono (Finset.erase_subset fd s)) ?_
  rw [hmax]
  exact Finset.le_sup (f := id) hmem

structure Unmarked (fdp : Filedesc) (fd : Nat) (fdp' : Filedesc) : Prop where
  tidy : Tidy fdp'
  used : used fdp' = (used fdp).erase fd
  ofiles : fdp'.ofiles = fdp.ofiles
  ofileflags : fdp'.ofileflags = fdp.ofileflags
  nfiles : fdp'.nfiles = fdp.nfiles
  freefile : fdp'.freefile = min fd fdp.freefile

theorem fdUnused_unmarked (h : Tidy fdp) (hfd : fd ∈ used fdp) :
    ∃ fdp', fdUnused fdp fd = .ok fdp' ∧ Unmarked fdp fd fdp' := by
  have hlo := h.lt_losize (h.inside fd hfd)
  have hhi := h.lt_hisize hlo
  obtain ⟨x, hx, hload⟩ := load_of_lt hlo
  obtain ⟨y, hy, hload'⟩ := load_of_lt hhi
  have hbit : ∀ e, bit (fdp.lomap.setIfInBounds (fd / 32) (x &&& ~~~(1#32 <<< (fd % 32)))) e =
      (!decide (e = fd) && bit fdp.lomap e) := fun e => bit_set_and hlo hx (by decide)
  have hused : ∀ fdp' : Filedesc,
      fdp'.lomap = fdp.lomap.setIfInBounds (fd / 32) (x &&& ~~~(1#32 <<< (fd % 32))) →
      used fdp' = (used fdp).erase fd := fun fdp' hmap => by
    ext e
    rw [mem_used, Finset.mem_erase, mem_used, hmap, hbit e, and_eq_true, not_eq_true',
      decide_eq_false_iff_not]
  have hinside : ∀ e ∈ (used fdp).erase fd, e < fdp.nfiles := fun e he =>
    h.inside e (Finset.mem_of_mem_erase he)
  have hne : x &&& ~~~(1#32 <<< (fd % 32)) ≠ allOnes 32 := fun heq => by
    have hclear := hbit fd
    rw [heq, decide_eq_true rfl, Bool.not_true, Bool.false_and, bit_set hlo, if_pos rfl,
      eq_allOnes_iff.mp rfl _ (mod_lt fd (by decide))] at hclear
    cases hclear
  obtain ⟨himap, hhimap, hsize, hsummary⟩ := himapUnused_eq h.summary hlo hhi hx hne
  have hcard : (((used fdp).erase fd).card : Int) = fdp.openfd - 1 := by
    rw [h.openfd, ← Finset.card_erase_add_one hfd, cast_add_one]
    omega
  have hfree : (if fd < fdp.freefile then fd else fdp.freefile) = min fd fdp.freefile := by
    split <;> omega
  have hlast := le_lastfile h hfd
  simp only [fdUnused, shiftRight_ndentryshift, and_ndentrymask, hload, hhimap, bind, Except.bind,
    store_of_lt hlo, if_neg (Nat.not_lt.mpr hlast), hfree]
  split
  · next heq =>
    rw [findLastSet_eq (by
      rw [Array.size_setIfInBounds]
      omega) fun e he => by
        rw [hused _ rfl, Finset.mem_erase] at he
        have hle := le_lastfile h he.2
        omega]
    refine ⟨_, rfl, ⟨⟨⟨h.sized, ?_, ?_, ?_, hsummary⟩, ?_, ?_⟩, hused _ rfl, rfl, rfl, rfl, rfl⟩⟩
    · rw [hsize, h.hisize]
    · rw [Array.size_setIfInBounds, h.losize]
    · rw [hused _ rfl]
      exact hinside
    · exact hcard.symm.trans (congrArg (fun s : Finset Nat => (s.card : Int)) (hused _ rfl).symm)
    · exact congrArg (Finset.sup · id) ((hused _ rfl).trans (hused _ rfl).symm)
  · next hne' =>
    refine ⟨_, rfl, ⟨⟨⟨h.sized, ?_, ?_, ?_, hsummary⟩, ?_, ?_⟩, hused _ rfl, rfl, rfl, rfl, rfl⟩⟩
    · rw [hsize, h.hisize]
    · rw [Array.size_setIfInBounds, h.losize]
    · rw [hused _ rfl]
      exact hinside
    · rw [hused _ rfl, hcard]
    · rw [hused _ rfl, sup_erase (by rw [← h.lastfile]; exact hne') hfd]
      exact h.lastfile

end Mbsd.Kern.KernDescrip
