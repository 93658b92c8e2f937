import Mbsd.Kern.KernDescrip.Marks

/-! The descriptor that `fdalloc` finds. -/

namespace Mbsd.Kern.KernDescrip

open Lib.Bitmap Sys Function

variable {fdp fdp' : Filedesc} {fd n want lim i : Nat} {pledged : Bool} {p q : Nat}
  {b : Array (BitVec 32)}

structure Good (fdp : Filedesc) : Prop extends Tidy fdp where
  freefile : ∀ fd < fdp.freefile, fd ∈ used fdp

def start (fdp : Filedesc) (want : Nat) : Nat := if want < fdp.freefile then fdp.freefile else want

def hibits (fdp : Filedesc) (lim : Nat) : Nat := (min fdp.nfiles lim + 31) / 32

/-- No descriptor from `i` on is unused up to the end of `fd_lomap`, and the search from there goes
on behind a map: it ends at the word `NDLOSLOTS` of what it was asked for. -/
def RunsOut (fdp : Filedesc) (i lim : Nat) : Prop :=
  i / 32 ≤ hibits fdp lim ∧ i / 32 < ndloslots (hibits fdp lim) * 32 ∧
    Ones fdp.lomap i (fdp.lomap.size * 32) ∧
    if Full fdp.lomap (i / 32) ∨ fdp.lomap.size ≤ i / 32 then
      fdp.himap.size < ndloslots (hibits fdp lim)
    else
      fdp.lomap.size < i / 32 + 32 ∨
        i / 32 + 1 ≤ hibits fdp lim ∧ fdp.himap.size < ndloslots (hibits fdp lim)

inductive Allocated (fdp : Filedesc) (want lim : Nat) :
    Except Fault (Filedesc × Except Errno Nat) → Prop
  | found {fdp' : Filedesc} {i : Nat} (hle : want ≤ i) (hlt : i < min fdp.nfiles lim)
      (hnot : i ∉ used fdp) (hleast : ∀ fd, want ≤ fd → fd < i → fd ∈ used fdp) (hgood : Good fdp')
      (hused : used fdp' = insert i (used fdp)) (hofiles : fdp'.ofiles = fdp.ofiles)
      (hnfiles : fdp'.nfiles = fdp.nfiles) : Allocated fdp want lim (.ok (fdp', .ok i))
  | full (hnone : ∀ fd, want ≤ fd → fd < min fdp.nfiles lim → fd ∈ used fdp) :
      Allocated fdp want lim
        (if fdp.nfiles ≥ lim then .ok (fdp, .error .EMFILE) else .ok (fdp, .error .ENOSPC))

theorem le_start (fdp : Filedesc) (want : Nat) : want ≤ start fdp want := by
  rw [start]
  split <;> omega

theorem freefile_le_start (fdp : Filedesc) (want : Nat) : fdp.freefile ≤ start fdp want := by
  rw [start]
  split <;> omega

theorem used_of_lt_start (h : Good fdp) (hle : want ≤ fd) (hlt : fd < start fdp want) :
    fd ∈ used fdp := by
  refine h.freefile fd ?_
  rw [start] at hlt
  split at hlt <;> omega

theorem start_of_freefile_le (h : fdp.freefile ≤ want) : start fdp want = want := if_neg (by omega)

theorem Maps.himap_size (h : Maps fdp) : fdp.himap.size * 32 = fdp.lomap.size := by
  rw [h.hisize, h.losize, ndloslots_eq]

theorem Maps.hibits_le (h : Maps fdp) (lim : Nat) : hibits fdp lim ≤ fdp.lomap.size := by
  rw [hibits, h.losize, ndloslots_eq, ndhislots_eq]
  omega

theorem ones_himap (h : Maps fdp) (hones : Ones fdp.himap p q) :
    Ones fdp.lomap (p * 32) (q * 32) := fun d hlo hhi => by
  have hfull := (full_iff.mp ((h.summary (d / 32)).mp (hones _ (by omega) (by omega)))).2
  have hbit := hfull (d % 32) (Nat.mod_lt d (by decide))
  rwa [Nat.div_add_mod'] at hbit

theorem ones_inside (h : Ones b p q) (hlt : p < q) :
    q ≤ b.size * 32 := by
  have hlast := lt_of_bit (by decide) (h (q - 1) (by omega) (by omega))
  omega

theorem full_of_ones {off : Nat} (h : Ones b p q) (hlo : p ≤ off * 32)
    (hhi : (off + 1) * 32 ≤ q) : Full b off := by
  refine full_iff.mpr ⟨?_, fun j hj => h _ (by omega) (by omega)⟩
  have hlt := lt_of_bit (by decide) (h (off * 32) hlo (by omega))
  omega

theorem fdalloc_take (h : Good fdp) (hle : start fdp want ≤ i) (hlt : i < min fdp.nfiles lim)
    (hclear : bit fdp.lomap i = false) (hones : Ones fdp.lomap (start fdp want) i) :
    Allocated fdp want lim (do
      let freefile := fdp.freefile
      let fdp ← fdUsed fdp i
      .ok ({ fdp with
        freefile := if want ≤ freefile then i else fdp.freefile
        ofileflags := update fdp.ofileflags i (if pledged then ufPledged else 0) },
        .ok i)) := by
  have hnot : i ∉ used fdp := fun hmem => by
    rw [mem_used, hclear] at hmem
    cases hmem
  have hleast : ∀ fd, want ≤ fd → fd < i → fd ∈ used fdp := fun fd hlo hhi => by
    rcases Nat.lt_or_ge fd (start fdp want) with hfd | hfd
    · exact used_of_lt_start h hlo hfd
    · exact mem_used.mpr (hones fd hfd hhi)
  obtain ⟨fdp', hrun, hmarked⟩ := fdUsed_marked h.toTidy (by omega) hnot
  rw [hrun]
  refine .found ((le_start fdp want).trans hle) hlt hnot hleast ⟨⟨⟨hmarked.tidy.sized,
    hmarked.tidy.hisize, hmarked.tidy.losize, hmarked.tidy.inside, hmarked.tidy.summary⟩,
    hmarked.tidy.openfd, hmarked.tidy.lastfile⟩, fun fd hfd => ?_⟩ hmarked.used hmarked.ofiles
    hmarked.nfiles
  refine (Finset.ext_iff.mp hmarked.used fd).mpr (Finset.mem_insert_of_mem ?_)
  have hfd : fd < if want ≤ fdp.freefile then i else fdp'.freefile := hfd
  split at hfd
  · next hwant =>
    rcases Nat.lt_or_ge fd want with hlo | hlo
    · exact h.freefile fd (by omega)
    · exact hleast fd hlo hfd
  · rw [hmarked.freefile] at hfd
    exact h.freefile fd hfd

/-- A round answers, or it goes on behind the word where the search has started, which is `again`,
or it runs out of a map. -/
inductive Round (fdp : Filedesc) (want lim : Nat)
    (again : Except Fault (Filedesc × Except Errno Nat)) :
    Except Fault (Filedesc × Except Errno Nat) → Prop
  | answer {o : Except Fault (Filedesc × Except Errno Nat)} (h : Allocated fdp want lim o)
      (hin : ¬RunsOut fdp (start fdp want) lim) : Round fdp want lim again o
  | again (hones : Ones fdp.lomap (start fdp want) ((start fdp want / 32 + 32) * 32))
      (hnot : ¬Full fdp.lomap (start fdp want / 32)) : Round fdp want lim again again
  | outside (hout : RunsOut fdp (start fdp want) lim) : Round fdp want lim again (.error .outside)

section

variable (h : Good fdp)

include h

theorem fdalloc_full (hnone : ∀ fd, start fdp want ≤ fd → fd < min fdp.nfiles lim → fd ∈ used fdp) :
    Allocated fdp want lim
      (if fdp.nfiles ≥ lim then .ok (fdp, .error .EMFILE) else .ok (fdp, .error .ENOSPC)) :=
  .full fun fd hlo hhi => by
    rcases Nat.lt_or_ge fd (start fdp want) with hfd | hfd
    · exact used_of_lt_start h hlo hfd
    · exact hnone fd hfd hhi

theorem fdalloc_word {new : Nat} (hle : start fdp want / 32 ≤ new)
    (hclear : ¬Full fdp.lomap new) (hlt : new < fdp.lomap.size)
    (hones : Ones fdp.lomap (start fdp want / 32 * 32) (new * 32))
    (hbits : start fdp want / 32 ≤ hibits fdp lim) (hslots : new < ndloslots (hibits fdp lim) * 32)
    (again : Except Fault (Filedesc × Except Errno Nat))
    (hagain : new = start fdp want / 32 → again = fdallocLoop fdp lim pledged n
      ((start fdp want / 32 + 1) * 32)) : Round fdp want lim
      (fdallocLoop fdp lim pledged n ((start fdp want / 32 + 1) * 32)) (do
      match ← findNextZero fdp.lomap new
          (if new > start fdp want / 32 then 0 else start fdp want % 32) ndentries with
      | none => again
      | some i =>
        if i + new * 32 < min fdp.nfiles lim then do
          let freefile := fdp.freefile
          let fdp ← fdUsed fdp (i + new * 32)
          .ok ({ fdp with
            freefile := if want ≤ freefile then i + new * 32 else fdp.freefile
            ofileflags := update fdp.ofileflags (i + new * 32)
              (if pledged then ufPledged else 0) }, .ok (i + new * 32))
        else if fdp.nfiles ≥ lim then .ok (fdp, .error .EMFILE)
        else .ok (fdp, .error .ENOSPC)) := by
  obtain ⟨p, hp, hpos, hfrom⟩ : ∃ p, (if new > start fdp want / 32 then 0
      else start fdp want % 32) = p ∧ start fdp want ≤ new * 32 + p ∧
      (new = start fdp want / 32 ∧ new * 32 + p = start fdp want ∨ p = 0) := by
    split
    · exact ⟨0, rfl, by omega, .inr rfl⟩
    · exact ⟨_, rfl, by omega, .inl ⟨by omega, by omega⟩⟩
  have hbelow : Ones fdp.lomap (start fdp want) (new * 32 + p) := fun d hlo hhi =>
    hones d (by omega) (by omega)
  have hple : p ≤ ndentries := by
    rw [← hp, ndentries]
    split <;> omega
  have hfound := findNextZero_found fdp.lomap new hple
  rw [show ndloslots ndentries = 32 from rfl] at hfound
  rw [hp]
  generalize findNextZero fdp.lomap new _ _ = o at hfound ⊢
  cases hfound with
  | outside hend hall =>
    obtain ⟨hnew, hstart⟩ := hfrom.resolve_right fun hzero =>
      hclear (full_of_ones hall (by omega) (by omega))
    rw [hstart] at hall
    rw [hnew] at hclear
    refine .outside ⟨hbits, by omega, hall, ?_⟩
    rw [if_neg (not_or.mpr ⟨hclear, by omega⟩)]
    exact .inl (by omega)
  | none hall =>
    obtain ⟨hnew, hstart⟩ := hfrom.resolve_right fun hzero =>
      hclear (full_of_ones hall (by omega) (by omega))
    rw [hstart, hnew] at hall
    rw [hnew] at hclear
    simp only [bind, Except.bind, hagain hnew]
    exact .again hall hclear
  | @some r hlo hin _ hbit hall =>
    have hpos' : new * 32 + r = r + new * 32 := Nat.add_comm _ _
    rw [hpos'] at hlo hin hbit hall
    have hrun : ¬RunsOut fdp (start fdp want) lim := fun hout => by
      have hset := hout.2.2.1 _ (hpos.trans hlo) hin
      rw [hbit] at hset
      cases hset
    simp only [bind, Except.bind]
    split
    · next hlast =>
      exact .answer (fdalloc_take h (hpos.trans hlo) hlast hbit (hbelow.append hall)) hrun
    · next hlast =>
      refine .answer (fdalloc_full h fun fd hfd hhi => ?_) hrun
      exact mem_used.mpr (hbelow.append hall fd hfd (by omega))

theorem fdallocLoop_round (want lim n : Nat) (pledged : Bool) :
    Round fdp want lim (fdallocLoop fdp lim pledged n ((start fdp want / 32 + 1) * 32))
      (fdallocLoop fdp lim pledged (n + 1) want) := by
  have hsize := h.himap_size
  have hbits := h.hibits_le lim
  have hslots : hibits fdp lim ≤ ndloslots (hibits fdp lim) * 32 := by
    rw [ndloslots_eq, ndhislots_eq]
    omega
  have hlast : min fdp.nfiles lim ≤ hibits fdp lim * 32 := by
    rw [hibits]
    omega
  rw [fdallocLoop]
  simp only [shiftRight_ndentryshift, shiftLeft_ndentryshift, and_ndentrymask]
  rw [show (if want < fdp.freefile then fdp.freefile else want) = start fdp want from rfl,
    show (min fdp.nfiles lim + ndentries - 1) / 32 = hibits fdp lim from rfl]
  rcases Nat.lt_or_ge (hibits fdp lim) (start fdp want / 32) with hgt | hle
  · rw [findNextZero_gt hgt]
    refine .answer (fdalloc_full h fun fd hlo hhi => ?_) fun hout => ?_
    · omega
    · exact absurd hout.1 (Nat.not_le.mpr hgt)
  · have hfound := findNextZero_found fdp.himap 0 hle
    rw [Nat.zero_mul, Nat.zero_add, Nat.zero_add] at hfound
    generalize findNextZero fdp.himap 0 _ _ = o at hfound ⊢
    cases hfound with
    | outside hlt hones =>
      rw [hsize] at hlt hones
      have hones' := ones_himap h.toMaps hones
      refine .outside ⟨hle, by omega, fun d hlo hhi => hones' d (by omega) hhi, ?_⟩
      rw [if_pos]
      · omega
      · rcases Nat.lt_or_ge (start fdp want / 32) fdp.lomap.size with hin | hin
        · exact .inl ((h.summary _).mp (hones _ (Nat.le_refl _) hin))
        · exact .inr hin
    | none hones =>
      refine .answer (fdalloc_full h fun fd hlo hhi => ?_) fun ⟨_, hlt, hall, hcases⟩ => ?_
      · exact mem_used.mpr (ones_himap h.toMaps hones fd (by omega) (by omega))
      · have hin := ones_inside hones hlt
        have hfull := (h.summary _).mp (hones _ (Nat.le_refl _) hlt)
        rw [if_pos (.inl hfull)] at hcases
        omega
    | @some new hlo hlt hq hclear hones =>
      rw [Nat.zero_mul, Nat.zero_add] at hlo hlt hq hclear hones
      have hnot : ¬Full fdp.lomap new := fun hfull => by
        rw [(h.summary new).mpr hfull] at hclear
        cases hclear
      exact fdalloc_word h hlo hnot (by omega) (ones_himap h.toMaps hones) hle hq _
        fun hnew => by rw [hnew]

theorem runsOut_again (lim : Nat) (hones : Ones fdp.lomap i ((i / 32 + 32) * 32))
    (hnot : ¬Full fdp.lomap (i / 32)) :
    RunsOut fdp ((i / 32 + 1) * 32) lim ↔ RunsOut fdp i lim := by
  have hfull : Full fdp.lomap (i / 32 + 1) := full_of_ones hones (by omega) (by omega)
  have hin := Nat.le_of_mul_le_mul_right (ones_inside hones (by omega)) (by decide)
  have hsize := h.himap_size
  have hword : (i / 32 + 1) * 32 / 32 = i / 32 + 1 := by omega
  have hcond : ¬(Full fdp.lomap (i / 32) ∨ fdp.lomap.size ≤ i / 32) :=
    not_or.mpr ⟨hnot, by omega⟩
  rw [RunsOut, RunsOut, hword, if_pos (.inl hfull), if_neg hcond]
  constructor
  · rintro ⟨hle, -, hall, hmax⟩
    refine ⟨by omega, by omega, ?_, .inr ⟨hle, hmax⟩⟩
    exact Ones.append (fun d hlo hhi => hones d hlo (by omega)) hall
  · rintro ⟨-, -, hall, hlt | ⟨hle, hmax⟩⟩
    · omega
    · exact ⟨hle, by omega, fun d hlo hhi => hall d (by omega) hhi, hmax⟩

theorem Allocated.again {o : Except Fault (Filedesc × Except Errno Nat)}
    (hones : Ones fdp.lomap (start fdp want) ((start fdp want / 32 + 1) * 32))
    (ho : Allocated fdp ((start fdp want / 32 + 1) * 32) lim o) : Allocated fdp want lim o := by
  have hbelow : ∀ fd, want ≤ fd → fd < (start fdp want / 32 + 1) * 32 → fd ∈ used fdp :=
    fun fd hlo hhi => by
      rcases Nat.lt_or_ge fd (start fdp want) with hfd | hfd
      · exact used_of_lt_start h hlo hfd
      · exact mem_used.mpr (hones fd hfd hhi)
  have hle := le_start fdp want
  cases ho with
  | found hle' hlt hnot hleast hgood hused hofiles hnfiles =>
    refine .found (by omega) hlt hnot (fun fd hlo hhi => ?_) hgood hused hofiles hnfiles
    rcases Nat.lt_or_ge fd ((start fdp want / 32 + 1) * 32) with hfd | hfd
    · exact hbelow fd hlo hfd
    · exact hleast fd hfd hhi
  | full hnone =>
    refine .full fun fd hlo hhi => ?_
    rcases Nat.lt_or_ge fd ((start fdp want / 32 + 1) * 32) with hfd | hfd
    · exact hbelow fd hlo hfd
    · exact hnone fd hfd hhi

theorem fdalloc_cases (want lim : Nat) (pledged : Bool) :
    (RunsOut fdp (start fdp want) lim ∧ fdalloc fdp want lim pledged = .error .outside) ∨
      (¬RunsOut fdp (start fdp want) lim ∧ Allocated fdp want lim (fdalloc fdp want lim pledged)) := by
  have hround := fdallocLoop_round h want lim (fdp.nfiles + 1) pledged
  rw [fdalloc]
  generalize fdallocLoop fdp lim pledged (fdp.nfiles + 1 + 1) want = o at hround ⊢
  cases hround with
  | answer ho hin => exact .inr ⟨hin, ho⟩
  | outside hout => exact .inl ⟨hout, rfl⟩
  | again hones hnot =>
    have hstart : start fdp ((start fdp want / 32 + 1) * 32) = (start fdp want / 32 + 1) * 32 :=
      start_of_freefile_le (by
        have := freefile_le_start fdp want
        omega)
    have hiff := runsOut_again h lim hones hnot
    rw [← hstart] at hiff
    have hround := fdallocLoop_round h ((start fdp want / 32 + 1) * 32) lim fdp.nfiles pledged
    generalize fdallocLoop fdp lim pledged (fdp.nfiles + 1) _ = o at hround ⊢
    cases hround with
    | answer ho hin =>
      exact .inr ⟨fun hout => hin (hiff.mpr hout),
        ho.again h fun d hlo hhi => hones d hlo (by omega)⟩
    | outside hout => exact .inl ⟨hiff.mp hout, rfl⟩
    | again hones' hnot' =>
      rw [hstart] at hnot'
      exact absurd (full_of_ones hones (by omega) (by omega)) hnot'

theorem fdalloc_ok (hin : ¬RunsOut fdp (start fdp want) lim) (pledged : Bool) :
    Allocated fdp want lim (fdalloc fdp want lim pledged) :=
  (fdalloc_cases h want lim pledged).elim (fun hout => absurd hout.1 hin) (·.2)

end

end Mbsd.Kern.KernDescrip
