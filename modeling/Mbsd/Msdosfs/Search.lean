import Mbsd.Msdosfs.Files

/-! What `chainlength` measures, and which run `clusteralloc` finds in a map. -/

namespace Mbsd.Msdosfs

open Lib.Bitmap Lib.Fuel Sys Layout BitVec Nat

variable {v : Layout} {s s' : Mount} {map : Array Word}
  {cn start count len idx bound foundcn foundl d i k l n : Nat} {r : Option Nat × Nat × Nat}

/-- The clusters outside the volume are marked in the map, which has a bit for each cluster. -/
structure Edged (v : Layout) (map : Array Word) : Prop where
  size : map.size = v.mapSize
  others : ∀ d < v.mapSize * nInusebits, ¬v.InRange d → bit map d = true

instance : DecidablePred (FreeRun map start) := fun len =>
  inferInstanceAs (Decidable (∀ i < len, _ ∧ _))

def freeLength (map : Array Word) (start : Nat) : Nat :=
  Nat.findGreatest (FreeRun map start) (map.size * nInusebits)

theorem FreeRun.le_size (h : FreeRun map start len) : len ≤ map.size * nInusebits := by
  cases len with
  | zero => exact Nat.zero_le _
  | succ len =>
    have hlast := (h len (lt_succ_self len)).1
    exact Nat.lt_of_le_of_lt (Nat.le_add_left len start) hlast

theorem le_freeLength : k ≤ freeLength map start ↔ FreeRun map start k := by
  constructor
  · intro hle
    have hrun : FreeRun map start (freeLength map start) :=
      findGreatest_spec (Nat.zero_le _) (.zero map start)
    exact hrun.mono hle
  · exact fun hrun => le_findGreatest hrun.le_size hrun

theorem freeRun_freeLength (map : Array Word) (start : Nat) :
    FreeRun map start (freeLength map start) := le_freeLength.mp (Nat.le_refl _)

theorem freeLength_eq (h : FreeRun map start len) (hend : ¬FreeRun map start (len + 1)) :
    freeLength map start = len := by
  refine Nat.le_antisymm (Nat.le_of_not_lt fun hlt => hend ?_) (le_freeLength.mpr h)
  exact le_freeLength.mp hlt

theorem Edged.inRange (h : Edged v map) (hrun : FreeRun map start len) (hi : i < len) :
    v.InRange (start + i) := by
  obtain ⟨hlt, hclear⟩ := hrun i hi
  rw [h.size] at hlt
  by_contra hout
  rw [h.others _ hlt hout] at hclear
  exact Bool.false_ne_true hclear.symm

theorem Edged.le_maxcluster (h : Edged v map) (hrun : FreeRun map start len) :
    len = 0 ∨ start + len ≤ v.maxcluster + 1 := by
  cases len with
  | zero => exact .inl rfl
  | succ len =>
    have hlast := (h.inRange hrun (lt_succ_self len)).2
    exact .inr (by omega)

section Length

theorem chainlength_eq (h : Edged v map) (start count : Nat) :
    v.chainlength map start count = min count (freeLength map start) := by
  by_cases hmax : start ≤ v.maxcluster
  · obtain ⟨len, hrun, hstop, heq⟩ := chainlength_uncut h.size hmax count
    -- The cut at the end of the volume takes nothing off a run.
    have hcut : len ≤ v.maxcluster - start % nInusebits + 1 := by
      have hend := h.le_maxcluster hrun
      have hmod := mod_le start nInusebits
      omega
    rw [heq, Nat.min_eq_left (Nat.le_trans (Nat.min_le_left _ _) hcut)]
    rcases hstop with hle | hstop
    · rw [Nat.min_eq_right hle, Nat.min_eq_left]
      exact Nat.le_trans hle (le_freeLength.mpr hrun)
    · rw [freeLength_eq hrun hstop, Nat.min_comm]
  · have hzero : ¬FreeRun map start 1 := fun hrun => hmax (h.inRange hrun Nat.one_pos).2
    rw [chainlength, if_pos (Nat.lt_of_not_le hmax), freeLength_eq (.zero map start) hzero,
      Nat.min_zero]

end Length

section Find

theorem FreeRun.append (h : FreeRun map start len) (h' : FreeRun map (start + len) k) :
    FreeRun map start (len + k) := fun i hi => by
  by_cases hlt : i < len
  · exact h i hlt
  · have hrest := h' (i - len) (by omega)
    rwa [Nat.add_assoc, Nat.add_sub_cancel' (Nat.le_of_not_lt hlt)] at hrest

theorem freeLength_le_of_mem (hle : start ≤ d) (hd : d ≤ start + freeLength map start) :
    freeLength map d ≤ freeLength map start := by
  have hrun : FreeRun map start (d - start) := le_freeLength.mp (by omega)
  have hrest : FreeRun map (start + (d - start)) (freeLength map d) := by
    rw [Nat.add_sub_cancel' hle]
    exact freeRun_freeLength map d
  have hboth := le_freeLength.mpr (hrun.append hrest)
  omega

theorem freeLength_of_bit (h : bit map d = true) : freeLength map d = 0 :=
  freeLength_eq (.zero map d) (not_freeRun_of_bit h)

section

variable {word : Word} (hidx : cn / nInusebits < map.size)
  (hword : word = item map (cn / nInusebits) ||| 1#32 <<< (cn % nInusebits) - 1)

include hidx hword

theorem freeLength_of_word (hk : k ≤ nInusebits) (hset : ∀ j < k, word.getLsbD j = true)
    (hle : cn ≤ d) (hd : d < cn / nInusebits * nInusebits + k) : freeLength map d = 0 := by
  have hmod : cn % nInusebits < 32 := mod_lt cn (by decide)
  have hdiv : cn / nInusebits * nInusebits + cn % nInusebits = cn := div_add_mod' cn nInusebits
  obtain ⟨j, rfl⟩ : ∃ j, d = cn / nInusebits * nInusebits + j := ⟨_, (Nat.add_sub_cancel'
    (Nat.le_trans (div_mul_le_self cn nInusebits) hle)).symm⟩
  have hj : j < k := by omega
  have hitem : map[cn / nInusebits]? = some (item map (cn / nInusebits)) := by
    rw [item, Array.getElem?_eq_getElem hidx]
    rfl
  have hbit := hset j hj
  rw [hword, getLsbD_or, lowBits_bit hmod, decide_eq_false (by omega), Bool.or_false] at hbit
  exact freeLength_of_bit ((bit_word hitem (Nat.lt_of_lt_of_le hj hk)).trans hbit)

theorem freeLength_before (hne : word ≠ allOnes 32)
    (hc : k = cn / nInusebits * nInusebits + ffs (word ^^^ allOnes 32) - 1) :
    cn ≤ k ∧ ∀ d, cn ≤ d → d < k → freeLength map d = 0 := by
  have hne' : word ^^^ allOnes 32 ≠ 0 := fun hzero => hne (by
    have hxor := congrArg (· ^^^ allOnes 32) hzero
    simpa [xor_assoc] using hxor)
  obtain ⟨i, hi, hffs, -, hbelow⟩ := ffs_spec hne'
  have hfirst : cn % nInusebits + 1 ≤ ffs (word ^^^ allOnes 32) := by
    rw [hword] at hne ⊢
    exact next_free (mod_lt cn (by decide)) hne
  have hdiv : cn / nInusebits * nInusebits + cn % nInusebits = cn := div_add_mod' cn nInusebits
  refine ⟨by omega, fun d hle hlt => freeLength_of_word hidx hword (Nat.le_of_lt hi) ?_ hle
    (by omega)⟩
  intro j hj
  have hclear := hbelow j hj
  rw [getLsbD_xor, getLsbD_allOnes, decide_eq_true (by omega)] at hclear
  simpa using hclear

end

/-- What a loop of `clusteralloc` over the clusters from `cn` to `bound` gives: a run of `count`
clusters, or the longest one, which may be one that was found before. -/
def Longest (map : Array Word) (count cn bound foundcn foundl : Nat) :
    Option Nat × Nat × Nat → Prop
  | (some c, _, _) => count ≤ freeLength map c
  | (none, c, l) => l < count ∧ foundl ≤ l ∧ (c = foundcn ∧ l = foundl ∨ l = freeLength map c) ∧
    ∀ d, cn ≤ d → d < bound → freeLength map d ≤ l

theorem Longest.mono {c' l' : Nat}
    (h : Longest map count k bound c' l' r) (hl : foundl ≤ l')
    (hfound : c' = foundcn ∧ l' = foundl ∨ l' = freeLength map c')
    (hskip : ∀ d, cn ≤ d → d < k → freeLength map d ≤ l') :
    Longest map count cn bound foundcn foundl r := by
  obtain ⟨_ | c, c₁, l₁⟩ := r
  · obtain ⟨hlt, hle, hrun, hall⟩ := h
    refine ⟨hlt, Nat.le_trans hl hle, ?_, fun d hd hd' => ?_⟩
    · rcases hrun with ⟨rfl, rfl⟩ | hrun
      · exact hfound
      · exact .inr hrun
    · by_cases hk : d < k
      · exact Nat.le_trans (hskip d hd hk) hle
      · exact hall d (Nat.le_of_not_lt hk) hd'
  · exact h

theorem clusterallocLoop_longest (h : Edged v map) (hbound : bound ≤ v.maxcluster + 1)
    (hl : foundl < count)
    (hr : v.clusterallocLoop map count bound n cn foundcn foundl = some r) :
    Longest map count cn bound foundcn foundl r := by
  induction n generalizing cn foundcn foundl with
  | zero => cases hr
  | succ n ih =>
    rw [clusterallocLoop] at hr
    by_cases hcn : cn < bound
    · have hidx : cn / nInusebits < map.size := by
        rw [h.size]
        exact (Nat.div_lt_iff_lt_mul (by decide)).mpr (v.lt_mapBits (by omega))
      rw [if_pos hcn] at hr
      dsimp only at hr
      generalize hword : item map (cn / nInusebits) ||| 1#32 <<< (cn % nInusebits) - 1 = word at hr
      by_cases hfull : word ≠ allOnes 32
      · rw [if_pos hfull] at hr
        generalize hc : cn / nInusebits * nInusebits + ffs (word ^^^ allOnes 32) - 1 = c
          at hr
        obtain ⟨hle, hbefore⟩ := freeLength_before hidx hword.symm hfull hc.symm
        rw [chainlength_eq h] at hr
        by_cases hall : min count (freeLength map c) ≥ count
        · rw [if_pos hall] at hr
          cases hr
          exact Nat.le_trans hall (Nat.min_le_right _ _)
        · have hmin : min count (freeLength map c) = freeLength map c := Nat.min_eq_right (by omega)
          rw [if_neg hall, hmin] at hr
          rw [hmin] at hall
          have hskip : ∀ d, cn ≤ d → d < c + freeLength map c + 1 →
              freeLength map d ≤ freeLength map c := fun d hd hd' => by
            by_cases hdc : d < c
            · rw [hbefore d hd hdc]
              exact Nat.zero_le _
            · exact freeLength_le_of_mem (Nat.le_of_not_lt hdc) (by omega)
          by_cases hbest : freeLength map c > foundl
          · rw [if_pos hbest] at hr
            exact (ih (Nat.lt_of_not_le hall) hr).mono (Nat.le_of_lt hbest) (.inr rfl) hskip
          · rw [if_neg hbest] at hr
            exact (ih hl hr).mono (Nat.le_refl _) (.inl ⟨rfl, rfl⟩) fun d hd hd' =>
              Nat.le_trans (hskip d hd hd') (Nat.le_of_not_lt hbest)
      · rw [if_neg hfull] at hr
        refine (ih hl hr).mono (Nat.le_refl _) (.inl ⟨rfl, rfl⟩) fun d hd hd' => ?_
        have hones := not_not.mp hfull
        have hdiv : cn / nInusebits * nInusebits + cn % nInusebits = cn :=
          div_add_mod' cn nInusebits
        rw [freeLength_of_word hidx hword.symm (Nat.le_refl _) (fun j hj => ?_) hd (by omega)]
        · exact Nat.zero_le _
        · rw [hones, getLsbD_allOnes]
          exact decide_eq_true hj
    · rw [if_neg hcn] at hr
      cases hr
      exact ⟨hl, Nat.le_refl _, .inl ⟨rfl, rfl⟩, fun d hd hd' => absurd hd' (by omega)⟩

end Find

section Allocate

/-- The map, the count and the FAT behind the allocation of `got` clusters from `cn` on. -/
structure Marks (v : Layout) (s : Mount) (cn got : Nat) (s' : Mount) : Prop where
  size : s'.inusemap.size = s.inusemap.size
  bits : ∀ d, bit s'.inusemap d = (decide (cn ≤ d ∧ d < cn + got) || bit s.inusemap d)
  count : (s'.freeclustercount + got) % 2 ^ 32 = s.freeclustercount % 2 ^ 32
  linked : Linked v clustEofe (cn + got) s.fat s'.fat cn (cn + got)

theorem usemapAllocRun_marks (hsize : s.inusemap.size = v.mapSize)
    (hmax : start + n ≤ v.maxcluster + 1) :
    ∃ s', v.usemapAllocRun s start n = some s' ∧ s'.fat = s.fat ∧
      s'.inusemap.size = s.inusemap.size ∧
      (∀ d, bit s'.inusemap d = (decide (start ≤ d ∧ d < start + n) || bit s.inusemap d)) ∧
      (s'.freeclustercount + n) % 2 ^ 32 = s.freeclustercount % 2 ^ 32 := by
  induction n generalizing s start with
  | zero =>
    refine ⟨s, rfl, rfl, rfl, fun d => ?_, rfl⟩
    rw [decide_eq_false (by omega), Bool.false_or]
  | succ n ih =>
    have hcn : start ≤ v.maxcluster := by omega
    have hlt : start / nInusebits < s.inusemap.size := by
      rw [hsize]
      exact (Nat.div_lt_iff_lt_mul (by decide)).mpr (v.lt_mapBits hcn)
    have hitem : s.inusemap[start / nInusebits]? = some (item s.inusemap (start / nInusebits)) := by
      rw [item, Array.getElem?_eq_getElem hlt]
      rfl
    have hbit : ∀ e, bit (s.inusemap.setIfInBounds (start / nInusebits)
        (item s.inusemap (start / nInusebits) ||| 1#32 <<< (start % nInusebits))) e =
          (decide (e = start) || bit s.inusemap e) := fun e => bit_set_or hlt hitem (by decide)
    obtain ⟨s', hs', hfat, hsize', hbits, hcount⟩ := ih (s := { s with
      inusemap := s.inusemap.setIfInBounds (start / nInusebits)
        (item s.inusemap (start / nInusebits) ||| 1#32 <<< (start % nInusebits))
      freeclustercount := sub32 s.freeclustercount 1 })
      (by rw [Array.size_setIfInBounds]; exact hsize)
      (by omega : start + 1 + n ≤ v.maxcluster + 1)
    refine ⟨s', ?_, hfat, hsize'.trans Array.size_setIfInBounds, fun d => ?_, ?_⟩
    · rw [usemapAllocRun, usemapAlloc, if_pos hcn]
      exact hs'
    · rw [hbits, hbit, ← Bool.or_assoc, ← Bool.decide_or]
      congr 2
      exact propext ⟨fun h => by omega, fun h => by omega⟩
    · rw [sub32] at hcount
      dsimp only at hcount
      omega

theorem chainalloc_marks (h : Edged v s.inusemap) (hrun : FreeRun s.inusemap cn len)
    (hlen : 0 < len) :
    ∃ s', Returns (fun n => v.chainalloc n s cn len clustEofe) (.ok, cn, len, s') ∧
      Marks v s cn len s' := by
  have hfirst := (h.inRange hrun hlen).1
  have hend := (h.le_maxcluster hrun).resolve_left (Nat.ne_of_gt hlen)
  obtain ⟨s₁, hs₁, hfat₁, hsize, hbits, hcount⟩ := usemapAllocRun_marks h.size hend
  obtain ⟨fat', hfat', hlinked⟩ := fatchain_returns clustEofe s.fat hfirst hlen hend
  exact ⟨{ s₁ with fat := fat' }, Returns.congr (hfat'.bind (Returns.some _))
    (hfat₁ ▸ chainalloc_eq hs₁), hsize, hbits, hcount, hlinked⟩

/-- How `clusteralloc` ends with a request for `count` clusters and the preferred start `start`,
where the result is how it ends, the first cluster, their number and the mount. -/
structure Searched (v : Layout) (s : Mount) (start count : Nat) (r : Ret × Nat × Nat × Mount) :
    Prop where
  ends : r.1 = .ok ∨ r.1 = .error .ENOSPC ∧ r.2.2.2 = s
  noSpace : r.1 = .error .ENOSPC ↔ ∀ d, v.InRange d → bit s.inusemap d = true
  run : r.1 = .ok → 0 < r.2.2.1 ∧ r.2.2.1 ≤ count ∧
    (∀ i < r.2.2.1, v.InRange (r.2.1 + i) ∧ bit s.inusemap (r.2.1 + i) = false) ∧
    Marks v s r.2.1 r.2.2.1 r.2.2.2
  full : r.1 = .ok → (∃ d, FreeRun s.inusemap d count) → r.2.2.1 = count
  preferred : r.1 = .ok → (¬∃ d, FreeRun s.inusemap d count) → start ≠ 0 →
    0 < freeLength s.inusemap start → r.2.1 = start ∧ r.2.2.1 = freeLength s.inusemap start
  longest : r.1 = .ok → (¬∃ d, FreeRun s.inusemap d count) →
    start = 0 ∨ freeLength s.inusemap start = 0 → ∀ d, freeLength s.inusemap d ≤ r.2.2.1

theorem Edged.exists_free (h : Edged v map) (hrun : FreeRun map cn len) (hlen : 0 < len) :
    ¬∀ d, v.InRange d → bit map d = true := fun hall => by
  have hfree := (hrun 0 hlen).2
  rw [hall _ (h.inRange hrun hlen)] at hfree
  exact Bool.false_ne_true hfree.symm

theorem Searched.allocated (h : Edged v s.inusemap) (hrun : FreeRun s.inusemap cn len)
    (hlen : 0 < len) (hle : len ≤ count) (hmarks : Marks v s cn len s')
    (hbest : len = count ∨ (¬∃ d, FreeRun s.inusemap d count) ∧
      (start ≠ 0 → 0 < freeLength s.inusemap start →
        cn = start ∧ len = freeLength s.inusemap start) ∧
      (start = 0 ∨ freeLength s.inusemap start = 0 → ∀ d, freeLength s.inusemap d ≤ len)) :
    Searched v s start count (.ok, cn, len, s') where
  ends := .inl rfl
  noSpace := ⟨Ret.noConfusion, fun hall => absurd hall (h.exists_free hrun hlen)⟩
  run _ := ⟨hlen, hle, fun i hi => ⟨h.inRange hrun hi, (hrun i hi).2⟩, hmarks⟩
  full _ hex := hbest.elim id fun hno => absurd hex hno.1
  preferred _ hno hstart hpos := by
    rcases hbest with heq | ⟨-, hpreferred, -⟩
    · exact absurd ⟨cn, heq ▸ hrun⟩ hno
    · exact hpreferred hstart hpos
  longest _ hno hstart := by
    rcases hbest with heq | ⟨-, -, hlongest⟩
    · exact absurd ⟨cn, heq ▸ hrun⟩ hno
    · exact hlongest hstart

theorem Searched.failed (h : Edged v s.inusemap) (hnone : ∀ d, freeLength s.inusemap d = 0) :
    Searched v s start count (.error .ENOSPC, 0, 0, s) where
  ends := .inr ⟨rfl, rfl⟩
  noSpace := by
    refine ⟨fun _ d hin => ?_, fun _ => rfl⟩
    by_contra hclear
    have hlt : d + 0 < s.inusemap.size * nInusebits := by
      rw [h.size]
      exact v.lt_mapBits hin.2
    have hrun : FreeRun s.inusemap d 1 := fun i hi => by
      rw [lt_one_iff.mp hi]
      exact ⟨hlt, Bool.not_eq_true _ ▸ hclear⟩
    have hpos := le_freeLength.mpr hrun
    rw [hnone d] at hpos
    exact absurd hpos (by decide)
  run := Ret.noConfusion
  full := Ret.noConfusion
  preferred := Ret.noConfusion
  longest := Ret.noConfusion

theorem chainalloc_count (h : Edged v s.inusemap) (hcount : 0 < count) (start : Nat)
    (hrun : count ≤ freeLength s.inusemap cn) :
    ∃ r, Returns (fun n => v.chainalloc n s cn count clustEofe) r ∧
      Searched v s start count r := by
  have hrun := le_freeLength.mp hrun
  obtain ⟨s', hs', hmarks⟩ := chainalloc_marks h hrun hcount
  exact ⟨_, hs', .allocated h hrun hcount (Nat.le_refl _) hmarks (.inl rfl)⟩

theorem clusterallocLoop_found (h : Edged v map) (hbound : bound ≤ v.maxcluster + 1)
    (hfound : foundl = freeLength map foundcn ∨ foundl = 0) (hl : foundl < count) (cn : Nat) :
    ∃ r, Returns (fun n => v.clusterallocLoop map count bound n cn foundcn foundl) r ∧
      Longest map count cn bound foundcn foundl r := by
  have hrun : FreeRun map foundcn foundl := by
    rcases hfound with rfl | rfl
    · exact freeRun_freeLength map foundcn
    · exact .zero map foundcn
  obtain ⟨r, hr, -⟩ := clusterallocLoop_returns h.size hrun (Nat.le_of_lt hl) bound cn
  obtain ⟨N, hN⟩ := hr
  exact ⟨r, ⟨N, hN⟩, clusterallocLoop_longest h hbound hl (hN N (Nat.le_refl N))⟩

theorem clusterallocFrom_searched (h : Edged v s.inusemap) (hcount : 0 < count) (seed start : Nat)
    (hlen : len = min count (freeLength s.inusemap start) ∧ seed = start ∧ start ≠ 0 ∨
      len = 0 ∧ start = 0) : ∃ r, Returns (fun n => v.clusterallocFrom n s seed count len) r ∧
      Searched v s start count r := by
  let newst := (seed * 1103515245 + 12345) % 2 ^ 32 % (v.maxcluster + 1)
  have hnewst : newst ≤ v.maxcluster + 1 := Nat.le_of_lt (mod_lt _ (succ_pos _))
  obtain ⟨r₁, hr₁, hlongest₁⟩ := clusterallocLoop_found h (Nat.le_refl _)
    (.inr rfl : 0 = freeLength s.inusemap 0 ∨ 0 = 0) hcount newst
  obtain ⟨_ | c, foundcn, foundl⟩ := r₁
  · obtain ⟨hlt₁, -, hrun₁, hall₁⟩ := hlongest₁
    have hrun₁ : foundl = freeLength s.inusemap foundcn ∨ foundl = 0 :=
      hrun₁.elim (fun heq => .inr heq.2) .inl
    obtain ⟨r₂, hr₂, hlongest₂⟩ := clusterallocLoop_found h hnewst hrun₁ hlt₁ 0
    obtain ⟨_ | c, foundcn', l⟩ := r₂
    · obtain ⟨hlt, hle, hrun, hall₂⟩ := hlongest₂
      have hall : ∀ d, freeLength s.inusemap d ≤ l := fun d => by
        by_cases hd : d < newst
        · exact hall₂ d (Nat.zero_le d) hd
        · by_cases hmax : d < v.maxcluster + 1
          · exact Nat.le_trans (hall₁ d (Nat.le_of_not_lt hd) hmax) hle
          · have hnone : ¬FreeRun s.inusemap d 1 := fun hrun =>
              hmax (lt_succ_of_le (h.inRange hrun Nat.one_pos).2)
            rw [freeLength_eq (.zero _ d) hnone]
            exact Nat.zero_le l
      have hno : ¬∃ d, FreeRun s.inusemap d count := fun ⟨d, hd⟩ => by
        have hd' := Nat.le_trans (le_freeLength.mpr hd) (hall d)
        omega
      have hlast : ∃ r, Returns (fun n => if l = 0 then some (.error .ENOSPC, 0, 0, s)
          else if len ≠ 0 then v.chainalloc n s seed len clustEofe
          else v.chainalloc n s foundcn' l clustEofe) r ∧ Searched v s start count r := by
        by_cases hzero : l = 0
        · exact ⟨_, (Returns.some _).congr fun n => if_pos hzero,
            .failed h fun d => le_zero.mp (hzero ▸ hall d)⟩
        · by_cases hpreferred : len ≠ 0
          · obtain ⟨hmin, rfl, hstart⟩ := hlen.resolve_right fun h => hpreferred h.1
            have hlt := Nat.lt_of_le_of_lt (hall seed) hlt
            rw [Nat.min_eq_right (Nat.le_of_lt hlt)] at hmin
            obtain ⟨s', hs', hmarks⟩ := chainalloc_marks h
              (hmin ▸ freeRun_freeLength s.inusemap seed) (Nat.pos_of_ne_zero hpreferred)
            refine ⟨_, hs'.congr fun n => by rw [if_neg hzero, if_pos hpreferred],
              .allocated h (hmin ▸ freeRun_freeLength _ seed) (Nat.pos_of_ne_zero hpreferred)
                (by omega) hmarks (.inr ⟨hno, fun _ _ => ⟨rfl, hmin⟩, fun hor => ?_⟩)⟩
            exact absurd hor (not_or.mpr ⟨hstart, by omega⟩)
          · have hbest : l = freeLength s.inusemap foundcn' := by
              rcases hrun with ⟨rfl, rfl⟩ | hrun
              · exact hrun₁.resolve_right hzero
              · exact hrun
            have hrun := freeRun_freeLength s.inusemap foundcn'
            rw [← hbest] at hrun
            obtain ⟨s', hs', hmarks⟩ := chainalloc_marks h hrun (Nat.pos_of_ne_zero hzero)
            refine ⟨_, hs'.congr fun n => by rw [if_neg hzero, if_neg hpreferred],
              .allocated h hrun (Nat.pos_of_ne_zero hzero) (Nat.le_of_lt hlt) hmarks
                (.inr ⟨hno, fun hstart hpos => ?_, fun _ => hall⟩)⟩
            exact absurd hpos (by omega)
      obtain ⟨r, hr, hsearched⟩ := hlast
      exact ⟨r, (hr₁.bind (hr₂.bind hr)).congr fun n => by rw [Layout.clusterallocFrom]; rfl,
        hsearched⟩
    · obtain ⟨r, hr, hsearched⟩ := chainalloc_count h hcount start hlongest₂
      exact ⟨r, (hr₁.bind (hr₂.bind hr)).congr fun n => by rw [Layout.clusterallocFrom]; rfl,
        hsearched⟩
  · obtain ⟨r, hr, hsearched⟩ := chainalloc_count h hcount start hlongest₁
    exact ⟨r, (hr₁.bind hr).congr fun n => by rw [Layout.clusterallocFrom]; rfl, hsearched⟩

/-- `clusteralloc` ends.  It fails when no cluster is free, and finds `count` free clusters in a row
where there are so many, or else the run at the preferred start or the longest one. -/
theorem clusteralloc_searched (h : Edged v s.inusemap) (hcount : 0 < count) (usec start : Nat) :
    (∃ r, Returns (fun n => v.clusteralloc n s usec start count) r ∧
      Searched v s start count r) ∧ ∀ start count, v.chainlength s.inusemap start count =
      min count (freeLength s.inusemap start) := by
  refine ⟨?_, chainlength_eq h⟩
  by_cases hstart : start ≠ 0
  · by_cases hall : v.chainlength s.inusemap start count ≥ count
    · rw [chainlength_eq h] at hall
      obtain ⟨r, hr, hsearched⟩ := chainalloc_count h hcount start
        (Nat.le_trans hall (Nat.min_le_right _ _))
      refine ⟨r, hr.congr fun n => ?_, hsearched⟩
      rw [clusteralloc, if_pos hstart, chainlength_eq h]
      exact if_pos hall
    · obtain ⟨r, hr, hsearched⟩ := clusterallocFrom_searched h hcount start start
        (.inl ⟨chainlength_eq h start count, rfl, hstart⟩)
      refine ⟨r, hr.congr fun n => ?_, hsearched⟩
      rw [clusteralloc, if_pos hstart]
      exact if_neg hall
  · obtain ⟨r, hr, hsearched⟩ := clusterallocFrom_searched h hcount
      (usec >>> 10 ||| usec) start (.inr ⟨rfl, not_not.mp hstart⟩)
    exact ⟨r, hr.congr fun n => by rw [clusteralloc, if_neg hstart], hsearched⟩

def threeFree : Mount := ⟨#[0xffffffc7], 3, goodFat⟩

theorem threeFree_edged : Edged floppy threeFree.inusemap := ⟨by decide, by decide⟩

/-- A request for four clusters from cluster 4 on gets the two that are free there. -/
theorem clusteralloc_searched_four :
    ∃ r, Returns (fun n => floppy.clusteralloc n threeFree 0 4 4) r ∧
      Searched floppy threeFree 4 4 r :=
  (clusteralloc_searched threeFree_edged (by decide) 0 4).1

end Allocate

end Mbsd.Msdosfs
