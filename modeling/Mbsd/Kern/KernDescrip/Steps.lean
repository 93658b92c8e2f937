import Mbsd.Kern.KernDescrip.Alloc

/-! What each call makes of a table whose marks are those of its open descriptors and of those that
a call in progress has allocated. -/

namespace Mbsd.Kern.KernDescrip

open Lib.Bitmap Sys Function

variable {fdp fdp' : Filedesc} {pending : Finset Nat} {fd n want lim lim' old new count : Nat}
  {pledged full : Bool} {fp : File} {flags : BitVec 8} {dupflags : Dupflags} {b : Array (BitVec 32)}

structure Inv (fdp : Filedesc) (pending : Finset Nat) : Prop extends Good fdp where
  held : ∀ fd, fd ∈ used fdp ↔ fdp.ofiles fd ≠ none ∨ fd ∈ pending
  apart : ∀ fd ∈ pending, fdp.ofiles fd = none

theorem used_congr (hlomap : fdp'.lomap = fdp.lomap) : used fdp' = used fdp := by
  rw [used, used, hlomap]

theorem Tidy.congr (h : Tidy fdp) (hhimap : fdp'.himap = fdp.himap) (hlomap : fdp'.lomap = fdp.lomap)
    (hnfiles : fdp'.nfiles = fdp.nfiles) (hopenfd : fdp'.openfd = fdp.openfd)
    (hlastfile : fdp'.lastfile = fdp.lastfile) : Tidy fdp' where
  sized := hnfiles ▸ h.sized
  hisize := by rw [hhimap, hnfiles, h.hisize]
  losize := by rw [hlomap, hnfiles, h.losize]
  inside := by
    rw [used_congr hlomap, hnfiles]
    exact h.inside
  summary := by
    rw [hhimap, hlomap]
    exact h.summary
  openfd := by rw [hopenfd, used_congr hlomap, h.openfd]
  lastfile := by rw [hlastfile, used_congr hlomap, h.lastfile]

theorem Inv.alloc (h : Inv fdp pending) (hnot : fd ∉ used fdp) (hgood : Good fdp')
    (hused : used fdp' = insert fd (used fdp)) (hofiles : fdp'.ofiles = fdp.ofiles) :
    Inv fdp' (insert fd pending) := by
  refine ⟨hgood, fun e => ?_, fun e he => ?_⟩
  · rw [hused, hofiles, Finset.mem_insert, Finset.mem_insert, h.held e]
    tauto
  · rw [hofiles]
    rcases Finset.mem_insert.mp he with rfl | he
    · by_contra hne
      exact hnot ((h.held e).mpr (.inl hne))
    · exact h.apart e he

theorem Inv.ofiles_inside (h : Inv fdp pending) (hfile : fdp.ofiles fd ≠ none) : fd < fdp.nfiles :=
  h.inside fd ((h.held fd).mpr (.inl hfile))

theorem Inv.getfile (h : Inv fdp pending) (fd : Nat) : fdGetfile fdp fd = fdp.ofiles fd := by
  rw [fdGetfile]
  split
  · next hge =>
    by_contra hne
    exact absurd (h.ofiles_inside (Ne.symm hne)) (Nat.not_lt.mpr hge)
  · rfl

theorem Good.freefile_le (h : Good fdp) : fdp.freefile ≤ fdp.nfiles := by
  by_contra hgt
  exact absurd (h.inside _ (h.freefile fdp.nfiles (Nat.lt_of_not_le hgt))) (Nat.lt_irrefl _)

theorem Sized.double (h : Sized n) : Sized (if n < ndextent then ndextent else 2 * n) := by
  split
  · exact .inr ⟨0, rfl⟩
  · next hge =>
    rcases h with rfl | ⟨k, rfl⟩
    · exact absurd (by decide) hge
    · exact .inr ⟨k + 1, by rw [pow_succ, Nat.mul_comm 2, Nat.mul_assoc]⟩

theorem full_append_zero {i : Nat} :
    Full (b ++ Array.replicate n 0) i ↔ Full b i := by
  rw [full_iff, full_iff]
  refine ⟨fun ⟨_, hall⟩ => ?_, fun ⟨hlt, hall⟩ => ⟨?_, ?_⟩⟩
  · have hall' : ∀ j < 32, bit b (i * 32 + j) = true := fun j hj => by
      rw [← bit_append_zero b n]
      exact hall j hj
    exact ⟨by have := lt_of_bit (by decide) (hall' 0 (by decide)); omega, hall'⟩
  · rw [Array.size_append]
    omega
  · intro j hj
    rw [bit_append_zero]
    exact hall j hj

theorem fdexpand_nfiles (fdp : Filedesc) : fdp.nfiles < (fdexpand fdp).nfiles ∨ fdp.nfiles = 0 := by
  show fdp.nfiles < (if fdp.nfiles < ndextent then ndextent else 2 * fdp.nfiles) ∨ _
  split <;> omega

theorem Sized.pos (h : Sized n) : 0 < n := by
  rcases h with rfl | ⟨k, rfl⟩
  · decide
  · exact Nat.mul_pos (by decide) (Nat.pow_pos (by decide))

theorem Maps.lt_fdexpand (h : Maps fdp) : fdp.nfiles < (fdexpand fdp).nfiles :=
  (fdexpand_nfiles fdp).resolve_right (Nat.ne_of_gt h.sized.pos)

theorem ndhislots_le (h : n ≤ want) : ndhislots n ≤ ndhislots want := by
  rw [ndhislots_eq, ndhislots_eq]
  omega

theorem grow_eq {slots oldslots : Nat} {p : Prop} [Decidable p]
    (hsize : b.size = old) (hp : ¬p → slots ≤ oldslots) (hold : oldslots = old) :
    (if p then b.extract 0 oldslots ++ Array.replicate (slots - oldslots) 0 else b) =
      b ++ Array.replicate (slots - old) 0 := by
  subst hold
  split
  · rw [← hsize, Array.extract_size]
  · next hno => rw [Nat.sub_eq_zero_of_le (hp hno), Array.replicate_zero, Array.append_empty]

theorem fdexpand_himap (h : Maps fdp) : (fdexpand fdp).himap = fdp.himap ++
    Array.replicate (ndhislots (fdexpand fdp).nfiles - ndhislots fdp.nfiles) 0 :=
  grow_eq h.hisize (fun hno => Nat.le_of_not_lt hno) rfl

theorem fdexpand_lomap (h : Maps fdp) : (fdexpand fdp).lomap = fdp.lomap ++
    Array.replicate (ndloslots (fdexpand fdp).nfiles - ndloslots fdp.nfiles) 0 :=
  grow_eq h.losize (fun hno => by
    rw [ndloslots_eq, ndloslots_eq]
    exact Nat.mul_le_mul_right 32 (Nat.le_of_not_lt hno)) rfl

theorem fdexpand_used (h : Maps fdp) : used (fdexpand fdp) = used fdp := by
  ext e
  rw [mem_used, mem_used, fdexpand_lomap h, bit_append_zero]

theorem fdexpand_good (h : Good fdp) : Good (fdexpand fdp) := by
  have hused := fdexpand_used h.toMaps
  have hlt := h.lt_fdexpand
  have hslots := ndhislots_le hlt.le
  refine ⟨⟨⟨h.sized.double, ?_, ?_, ?_, ?_⟩, ?_, ?_⟩, ?_⟩
  · rw [fdexpand_himap h.toMaps, Array.size_append, Array.size_replicate, h.hisize]
    exact Nat.add_sub_cancel' hslots
  · rw [fdexpand_lomap h.toMaps, Array.size_append, Array.size_replicate, h.losize, ndloslots_eq,
      ndloslots_eq]
    exact Nat.add_sub_cancel' (Nat.mul_le_mul_right 32 hslots)
  · rw [hused]
    exact fun fd hfd => (h.inside fd hfd).trans hlt
  · rw [fdexpand_himap h.toMaps, fdexpand_lomap h.toMaps]
    exact h.summary.congr (bit_append_zero _ _) fun i => full_append_zero
  · rw [hused]
    exact h.openfd
  · rw [hused]
    exact h.lastfile
  · rw [hused]
    exact h.freefile

theorem Inv.expand (h : Inv fdp pending) : Inv (fdexpand fdp) pending := by
  have hofiles : (fdexpand fdp).ofiles = fdp.ofiles := by
    funext fd
    show (if fd < fdp.nfiles then fdp.ofiles fd else none) = _
    split
    · rfl
    · next hge =>
      by_contra hne
      exact hge (h.ofiles_inside (Ne.symm hne))
  refine ⟨fdexpand_good h.toGood, ?_, ?_⟩
  · rw [fdexpand_used h.toMaps, hofiles]
    exact h.held
  · rw [hofiles]
    exact h.apart

def after (pending : Finset Nat) : Except Errno Nat → Finset Nat
  | .ok fd => insert fd pending
  | .error _ => pending

section

variable (h : Inv fdp pending)

include h

theorem Inv.allocated {o : Except Fault (Filedesc × Except Errno Nat)}
    (ho : Allocated fdp want lim o) : ∃ r, o = .ok r ∧ Inv r.1 (after pending r.2) := by
  cases ho with
  | found _ _ hnot _ hgood hused hofiles _ => exact ⟨_, rfl, h.alloc hnot hgood hused hofiles⟩
  | full => split <;> exact ⟨_, rfl, h⟩

theorem fdalloc_inv (hin : ¬RunsOut fdp (start fdp want) lim)
    (pledged : Bool) : ∃ r, fdalloc fdp want lim pledged = .ok r ∧ Inv r.1 (after pending r.2) :=
  h.allocated (fdalloc_ok h.toGood hin pledged)

theorem fdUnused_inv (hmem : fd ∈ used fdp) (hfile : fdp.ofiles fd = none) :
    ∃ fdp', fdUnused fdp fd = .ok fdp' ∧ Inv fdp' (pending.erase fd) := by
  obtain ⟨fdp', hrun, hun⟩ := fdUnused_unmarked h.toTidy hmem
  refine ⟨fdp', hrun, ⟨hun.tidy, fun e he => ?_⟩, fun e => ?_, fun e he => ?_⟩
  · rw [hun.freefile] at he
    rw [hun.used, Finset.mem_erase]
    exact ⟨by omega, h.freefile e (by omega)⟩
  · rw [hun.used, hun.ofiles, Finset.mem_erase, Finset.mem_erase, h.held e]
    by_cases heq : e = fd
    · simp [heq, hfile]
    · simp [heq]
  · rw [hun.ofiles]
    exact h.apart e (Finset.mem_of_mem_erase he)

theorem Inv.set (hmem : fd ∈ used fdp) (fp : File) (flags : Nat → BitVec 8) :
    Inv { fdp with ofiles := update fdp.ofiles fd (some fp), ofileflags := flags }
      (pending.erase fd) := by
  refine ⟨⟨h.toTidy.congr rfl rfl rfl rfl rfl, h.freefile⟩, fun e => ?_, fun e he => ?_⟩
  · show e ∈ used fdp ↔ update fdp.ofiles fd (some fp) e ≠ none ∨ _
    rw [Finset.mem_erase]
    by_cases heq : e = fd
    · simp [heq, hmem]
    · rw [update_of_ne heq, h.held e]
      simp [heq]
  · show update fdp.ofiles fd (some fp) e = none
    rw [update_of_ne (Finset.ne_of_mem_erase he)]
    exact h.apart e (Finset.mem_of_mem_erase he)

theorem Inv.clear (hmem : fd ∈ used fdp) (flags : Nat → BitVec 8) :
    Inv { fdp with ofiles := update fdp.ofiles fd none, ofileflags := flags }
      (insert fd pending) := by
  refine ⟨⟨h.toTidy.congr rfl rfl rfl rfl rfl, h.freefile⟩, fun e => ?_, fun e he => ?_⟩
  · show e ∈ used fdp ↔ update fdp.ofiles fd none e ≠ none ∨ _
    rw [Finset.mem_insert]
    by_cases heq : e = fd
    · simp [heq, hmem]
    · rw [update_of_ne heq, h.held e]
      simp [heq]
  · show update fdp.ofiles fd none e = none
    by_cases heq : e = fd
    · rw [heq, update_self]
    · rw [update_of_ne heq]
      exact h.apart e ((Finset.mem_insert.mp he).resolve_left heq)

theorem fdinsert_inv (hmem : fd ∈ pending) (flags : BitVec 8) (fp : File) :
    ∃ fdp', fdinsert fdp fd flags fp = .ok fdp' ∧ Inv fdp' (pending.erase fd) :=
  ⟨_, if_neg (not_not.mpr (h.apart fd hmem)), h.set ((h.held fd).mpr (.inr hmem)) fp _⟩

theorem fdremove_inv (hmem : fd ∈ used fdp) :
    ∃ fdp', fdremove fdp fd = .ok fdp' ∧ Inv fdp' (pending.erase fd) := by
  have hclear := h.clear hmem (update fdp.ofileflags fd 0)
  obtain ⟨fdp', hrun, hinv⟩ := fdUnused_inv hclear hmem (update_self ..)
  rw [Finset.erase_insert_eq_erase] at hinv
  exact ⟨fdp', hrun, hinv⟩

theorem fdrelease_inv (fd : Nat) : ∃ r, fdrelease fdp fd = .ok r ∧ Inv r.1 pending := by
  rw [fdrelease, h.getfile]
  split
  · exact ⟨_, rfl, h⟩
  · next hfile =>
    obtain ⟨fdp', hrun, hinv⟩ := fdremove_inv h ((h.held fd).mpr (.inl hfile))
    have hnot : fd ∉ pending := fun hmem => hfile (h.apart fd hmem)
    rw [Finset.erase_eq_of_notMem hnot] at hinv
    rw [hrun]
    exact ⟨_, rfl, hinv⟩

theorem fallocLoop_inv (hin : ¬RunsOut fdp (start fdp 0) lim)
    (hroom : ∃ fd < min fdp.nfiles lim, fd ∉ used fdp) :
    ∃ r, fallocLoop lim pledged full (n + 1) fdp = .ok r ∧ Inv r.1 (after pending r.2) := by
  obtain ⟨fd, hfd, hnot⟩ := hroom
  have hok := fdalloc_ok h.toGood hin pledged
  rw [fallocLoop]
  generalize fdalloc fdp 0 lim pledged = o at hok ⊢
  cases hok with
  | full hnone => exact absurd (hnone fd (Nat.zero_le fd) hfd) hnot
  | @found fdp' i _ _ hnot' _ hgood hused hofiles _ =>
    have hinv := h.alloc hnot' hgood hused hofiles
    simp only [bind, Except.bind]
    split
    · have hfile : fdp'.ofiles i = none := hinv.apart i (Finset.mem_insert_self i pending)
      have hmem : i ∈ used fdp' := (hinv.held i).mpr (.inr (Finset.mem_insert_self i pending))
      have hpending : i ∉ pending := fun hc => hnot' ((h.held i).mpr (.inr hc))
      obtain ⟨fdp'', hrun, hinv'⟩ := fdUnused_inv hinv hmem hfile
      rw [Finset.erase_insert hpending] at hinv'
      rw [hrun]
      exact ⟨_, rfl, hinv'⟩
    · exact ⟨_, rfl, hinv⟩

end

theorem not_runsOut_fdexpand (h : Good fdp) :
    ¬RunsOut (fdexpand fdp) (start (fdexpand fdp) 0) lim := fun hout => by
  have hlt := h.lt_fdexpand
  have hgood := fdexpand_good h
  have hstart : start (fdexpand fdp) 0 ≤ fdp.nfiles := by
    have hfree : (fdexpand fdp).freefile ≤ fdp.nfiles := h.freefile_le
    rw [start]
    split <;> omega
  have hsize : fdp.nfiles < (fdexpand fdp).lomap.size * 32 := by
    rw [hgood.losize, ndloslots_eq, ndhislots_eq]
    omega
  have hmem : fdp.nfiles ∈ used (fdexpand fdp) := mem_used.mpr (hout.2.2.1 _ hstart hsize)
  rw [fdexpand_used h.toMaps] at hmem
  exact Nat.lt_irrefl _ (h.inside _ hmem)

theorem falloc_inv (h : Inv fdp pending) (hin : ¬RunsOut fdp (start fdp 0) lim)
    (pledged full : Bool) :
    ∃ r, falloc fdp lim pledged full = .ok r ∧ Inv r.1 (after pending r.2) := by
  rw [falloc]
  by_cases hroom : ∃ fd < min fdp.nfiles lim, fd ∉ used fdp
  · exact fallocLoop_inv h hin hroom
  · have hok := fdalloc_ok h.toGood hin pledged
    rw [fallocLoop]
    generalize fdalloc fdp 0 lim pledged = o at hok ⊢
    cases hok with
    | found _ hlt hnot => exact absurd ⟨_, hlt, hnot⟩ hroom
    | full =>
      split
      · exact ⟨_, rfl, h⟩
      · next hlim =>
        obtain ⟨m, rfl⟩ : ∃ m, lim = m + 1 := Nat.exists_eq_add_of_le' (by omega)
        have hlt := h.lt_fdexpand
        refine fallocLoop_inv h.expand (not_runsOut_fdexpand h.toGood)
          ⟨fdp.nfiles, by omega, fun hmem => ?_⟩
        rw [fdexpand_used h.toMaps] at hmem
        exact Nat.lt_irrefl _ (h.inside _ hmem)

end Mbsd.Kern.KernDescrip
