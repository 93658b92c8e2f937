import Mbsd.Kern.KernDescrip.Steps

/-! The calls that duplicate descriptors, and the copy of a table. -/

namespace Mbsd.Kern.KernDescrip

open Lib.Bitmap Sys List Function Nat

variable {fdp fdp' newfdp : Filedesc} {pending : Finset Nat} {want lim old new count n i : Nat}
  {pledged : Bool} {fp : File} {dupflags : Dupflags} {counts : File → Nat} {k : Nat}

theorem finishdup_alloc (h : Inv fdp (insert new pending)) (hnot : new ∉ pending)
    (hdup : dupflags.dup2 = false) (hcount : count < fdupMaxCount) :
    ∃ r, finishdup fdp fp old new dupflags count = .ok r ∧ Inv r.1 pending := by
  have hset := fun flags =>
    h.set ((h.held new).mpr (.inr (Finset.mem_insert_self new pending))) fp flags
  rw [Finset.erase_insert hnot] at hset
  simp only [finishdup, if_neg (Nat.not_le.mpr hcount), hdup, Bool.false_eq_true, false_and,
    if_false, bind, Except.bind]
  exact ⟨_, rfl, hset _⟩

theorem finishdup_dup2 (h : Inv fdp pending) (hlt : new < fdp.nfiles) (hdup : dupflags.dup2 = true) :
    ∃ r, finishdup fdp fp old new dupflags count = .ok r ∧ Inv r.1 pending := by
  rw [finishdup]
  split
  · exact ⟨_, rfl, h⟩
  · simp only [hdup, true_and, h.getfile]
    cases hfile : fdp.ofiles new with
    | some oldfp =>
      have hnot : new ∉ pending := fun hmem => by
        rw [h.apart new hmem] at hfile
        cases hfile
      have hset := fun flags =>
        h.set ((h.held new).mpr (.inl (by rw [hfile]; exact nofun))) fp flags
      rw [Finset.erase_eq_of_notMem hnot] at hset
      exact ⟨_, rfl, hset _⟩
    | none =>
      simp only [if_true, fdInuse_eq (h.lt_losize hlt), bind, Except.bind]
      split
      · exact ⟨_, rfl, h⟩
      · next hbit =>
        have hunused : new ∉ used fdp := fun hmem => hbit (mem_used.mp hmem)
        have hnot : new ∉ pending := fun hmem => hunused ((h.held new).mpr (.inr hmem))
        obtain ⟨fdp', hrun, hmarked⟩ := fdUsed_marked h.toTidy hlt hunused
        have hgood : Good fdp' := ⟨hmarked.tidy, fun e he => by
          rw [hmarked.freefile] at he
          rw [hmarked.used]
          exact Finset.mem_insert_of_mem (h.freefile e he)⟩
        have hinv := h.alloc hunused hgood hmarked.used hmarked.ofiles
        have hset := fun flags =>
          hinv.set ((hinv.held new).mpr (.inr (Finset.mem_insert_self new pending))) fp flags
        rw [Finset.erase_insert hnot] at hset
        rw [hrun]
        exact ⟨_, rfl, hset _⟩

def Refused (fdp : Filedesc) (want lim count : Nat) : Prop :=
  count ≥ fdupMaxCount ∧ ∃ fd, want ≤ fd ∧ fd < min fdp.nfiles lim ∧ fd ∉ used fdp

theorem dupAlloc_inv (fp : File) (old : Nat) (pledged cloexec clofork : Bool)
    (h : Inv fdp pending) (hin : ¬RunsOut fdp (start fdp want) lim)
    (hcount : ¬Refused fdp want lim count) :
    ∃ r, dupAlloc fdp fp old want lim pledged ⟨cloexec, clofork, false⟩ count = .ok r ∧
      Inv r.1 pending := by
  have hok := fdalloc_ok h.toGood hin pledged
  rw [dupAlloc]
  generalize fdalloc fdp want lim pledged = o at hok ⊢
  cases hok with
  | found hle hlt hnot _ hgood hused hofiles _ =>
    have hpending := fun hmem => hnot ((h.held _).mpr (.inr hmem))
    refine finishdup_alloc (h.alloc hnot hgood hused hofiles) hpending rfl ?_
    exact Nat.lt_of_not_le fun hge => hcount ⟨hge, _, hle, hlt, hnot⟩
  | full =>
    split
    · exact ⟨_, rfl, h⟩
    · exact ⟨_, rfl, h.expand⟩

theorem dodup3_inv {lim' : Nat} (fp : File) (count : Nat) (pledged cloexec clofork : Bool)
    (h : Inv fdp pending)
    (hin : old ≠ new → new < lim → new ≥ fdp.nfiles → ¬RunsOut fdp (start fdp new) lim') :
    ∃ r, dodup3 fdp fp old new lim lim' pledged cloexec clofork count = .ok r ∧
      Inv r.1 pending := by
  rw [dodup3]
  split
  · exact ⟨_, rfl, h⟩
  · next hne =>
    split
    · exact ⟨_, rfl, h⟩
    · next hlim =>
      split
      · next hge =>
        have hok := fdalloc_ok h.toGood (hin hne (Nat.lt_of_not_le hlim) hge) pledged
        generalize fdalloc fdp new lim' pledged = o at hok ⊢
        cases hok with
        | found hle hlt => omega
        | full =>
          split
          · exact ⟨_, rfl, h⟩
          · exact ⟨_, rfl, h.expand⟩
      · next hlt => exact finishdup_dup2 h (Nat.lt_of_not_le hlt) rfl

def Skipped (fdp : Filedesc) (counts : File → Nat) (i : Nat) : Prop :=
  ∃ fp, fdp.ofiles i = some fp ∧ fdcopySkips fdp counts i fp

structure Copied (fdp : Filedesc) (counts : File → Nat) (n k : Nat) (newfdp : Filedesc) :
    Prop where
  tidy : Tidy newfdp
  nfiles : newfdp.nfiles = n
  used : ∀ i, i ∈ used newfdp ↔ newfdp.ofiles i ≠ none
  below : ∀ i, newfdp.ofiles i ≠ none → i < k
  copied : ∀ i < k, fdp.ofiles i ≠ none → ¬Skipped fdp counts i → newfdp.ofiles i ≠ none
  freefile : newfdp.freefile ≤ fdp.freefile
  skipped : ∀ i < k, Skipped fdp counts i → newfdp.freefile ≤ i

theorem fdcopyOne_copied (h : Copied fdp counts n k newfdp) (hk : k < n) :
    ∃ newfdp', fdcopyOne fdp counts newfdp k = .ok newfdp' ∧
      Copied fdp counts n (k + 1) newfdp' := by
  have hbelow : ∀ i, newfdp.ofiles i ≠ none → i < k + 1 := fun i hi =>
    lt_succ_of_lt (h.below i hi)
  rw [fdcopyOne]
  cases hfile : fdp.ofiles k with
  | none =>
    refine ⟨newfdp, rfl, ⟨h.tidy, h.nfiles, h.used, hbelow, ?_, h.freefile, ?_⟩⟩
    · intro i hi hopen hskip
      rcases Nat.lt_succ_iff_lt_or_eq.mp hi with hi | rfl
      · exact h.copied i hi hopen hskip
      · exact absurd hfile hopen
    · intro i hi hskip
      rcases Nat.lt_succ_iff_lt_or_eq.mp hi with hi | rfl
      · exact h.skipped i hi hskip
      · obtain ⟨fp, hfp, -⟩ := hskip
        rw [hfile] at hfp
        cases hfp
  | some fp =>
    dsimp only
    split
    · next hskips =>
      have hmin : (if k < newfdp.freefile then k else newfdp.freefile) = min k newfdp.freefile := by
        split <;> omega
      have hfree := h.freefile
      refine ⟨_, rfl, ⟨h.tidy.congr rfl rfl rfl rfl rfl, h.nfiles, h.used, hbelow, ?_, ?_, ?_⟩⟩
      · intro i hi hopen hskip
        rcases Nat.lt_succ_iff_lt_or_eq.mp hi with hi | rfl
        · exact h.copied i hi hopen hskip
        · exact absurd ⟨fp, hfile, hskips⟩ hskip
      · show (if k < newfdp.freefile then k else newfdp.freefile) ≤ _
        omega
      · intro i hi hskip
        show (if k < newfdp.freefile then k else newfdp.freefile) ≤ i
        rcases Nat.lt_succ_iff_lt_or_eq.mp hi with hi | rfl
        · have hle := h.skipped i hi hskip
          omega
        · omega
    · next hskips =>
      have hnew : newfdp.ofiles k = none := by
        by_contra hne
        exact Nat.lt_irrefl k (h.below k hne)
      have hunused : k ∉ used newfdp := fun hmem => (h.used k).mp hmem hnew
      have hnot : ¬Skipped fdp counts k := fun ⟨fp', hfp', hskips'⟩ => by
        rw [hfile] at hfp'
        obtain rfl := Option.some.inj hfp'
        exact hskips hskips'
      have htidy : Tidy { newfdp with
          ofiles := update newfdp.ofiles k (some fp)
          ofileflags := update newfdp.ofileflags k (fdp.ofileflags k) } :=
        h.tidy.congr rfl rfl rfl rfl rfl
      obtain ⟨newfdp', hrun, hmarked⟩ := fdUsed_marked htidy (by rw [← h.nfiles] at hk; exact hk)
        hunused
      have hofiles : newfdp'.ofiles = update newfdp.ofiles k (some fp) := hmarked.ofiles
      have hopen : newfdp'.ofiles k ≠ none := by
        rw [hofiles, update_self]
        exact nofun
      have hrest : ∀ i ≠ k, newfdp'.ofiles i = newfdp.ofiles i := fun i hne => by
        rw [hofiles, update_of_ne hne]
      refine ⟨newfdp', hrun, ⟨hmarked.tidy, hmarked.nfiles.trans h.nfiles, ?_, ?_, ?_, ?_, ?_⟩⟩
      · intro i
        rw [hmarked.used, Finset.mem_insert]
        by_cases hi : i = k
        · rw [hi]
          exact iff_of_true (.inl rfl) hopen
        · rw [hrest i hi, ← h.used i]
          exact ⟨fun hmem => hmem.resolve_left hi, .inr⟩
      · intro i hi
        by_cases hik : i = k
        · omega
        · rw [hrest i hik] at hi
          exact hbelow i hi
      · intro i hi hfp hskip
        by_cases hik : i = k
        · rw [hik]
          exact hopen
        · rw [hrest i hik]
          exact h.copied i (by omega) hfp hskip
      · rw [hmarked.freefile]
        exact h.freefile
      · intro i hi hskip
        rw [hmarked.freefile]
        by_cases hik : i = k
        · rw [hik] at hskip
          exact absurd hskip hnot
        · exact h.skipped i (by omega) hskip

theorem fdcopy_loop (h : Copied fdp counts n 0 newfdp) (hk : k ≤ n) :
    ∃ newfdp', (range k).foldlM (fdcopyOne fdp counts) newfdp = .ok newfdp' ∧
      Copied fdp counts n k newfdp' := by
  induction k with
  | zero => exact ⟨newfdp, rfl, h⟩
  | succ k ih =>
    obtain ⟨newfdp', hrun, hcopied⟩ := ih (le_of_succ_le hk)
    obtain ⟨newfdp'', hone, hcopied'⟩ := fdcopyOne_copied hcopied (lt_of_succ_le hk)
    rw [range_succ, foldlM_append, hrun]
    refine ⟨newfdp'', ?_, hcopied'⟩
    simp only [bind, Except.bind, foldlM_cons, foldlM_nil, hone]
    rfl

theorem fdcopyNfiles_sized {lastfile : Nat} (h : Sized n) (hlt : lastfile < n) :
    Sized (fdcopyNfiles lastfile n) ∧ lastfile < fdcopyNfiles lastfile n := by
  induction n using fdcopyNfiles.induct lastfile with
  | case1 n hcond ih =>
    rw [fdcopyNfiles, dif_pos hcond]
    have hge : n ≥ 100 := hcond.1
    obtain ⟨k, hn⟩ : ∃ k, n = ndextent * 2 ^ k := h.resolve_left fun heq => by
      rw [heq, ndfile] at hge
      omega
    cases k with
    | zero =>
      rw [hn, pow_zero, Nat.mul_one, ndextent] at hge
      omega
    | succ k =>
      have hhalf : n / 2 = ndextent * 2 ^ k := by
        rw [hn, pow_succ, ← Nat.mul_assoc, Nat.mul_div_cancel _ (by decide)]
      have hdouble : n = n / 2 * 2 := by rw [hhalf, hn, pow_succ, Nat.mul_assoc]
      exact ih (.inr ⟨k, hhalf⟩) (by omega)
  | case2 n hcond =>
    rw [fdcopyNfiles, dif_neg hcond]
    exact ⟨h, hlt⟩

theorem lastfile_lt (h : Tidy fdp) : fdp.lastfile < fdp.nfiles := by
  rw [h.lastfile]
  exact (Finset.sup_lt_iff h.sized.pos).mpr h.inside

theorem tidy_empty (hsized : Sized n) (ofiles : Nat → Option File) (ofileflags : Nat → BitVec 8)
    (freefile : Nat) : Tidy ⟨ofiles, ofileflags, n, 0, Array.replicate (ndhislots n) 0,
      Array.replicate (ndloslots n) 0, 0, freefile⟩ ∧
    used ⟨ofiles, ofileflags, n, 0, Array.replicate (ndhislots n) 0,
      Array.replicate (ndloslots n) 0, 0, freefile⟩ = ∅ := by
  have hused : used ⟨ofiles, ofileflags, n, 0, Array.replicate (ndhislots n) 0,
      Array.replicate (ndloslots n) 0, 0, freefile⟩ = ∅ :=
    Finset.eq_empty_iff_forall_notMem.mpr fun fd hfd => by
      have hbit := mem_used.mp hfd
      rw [bit_replicate] at hbit
      cases hbit
  refine ⟨⟨⟨hsized, Array.size_replicate, Array.size_replicate, ?_, ?_⟩, ?_, ?_⟩, hused⟩
  · rw [hused]
    exact nofun
  · intro i
    rw [bit_replicate, full_iff]
    refine iff_of_false Bool.false_ne_true fun ⟨_, hall⟩ => ?_
    have hbit := hall 0 (by decide)
    rw [bit_replicate] at hbit
    cases hbit
  · rw [hused]
    rfl
  · rw [hused]
    rfl

def copyTarget (fdp : Filedesc) (n : Nat) : Filedesc where
  ofiles _ := none
  ofileflags _ := 0
  nfiles := n
  openfd := 0
  himap := Array.replicate (ndhislots n) 0
  lomap := Array.replicate (ndloslots n) 0
  lastfile := 0
  freefile := fdp.freefile

theorem fdcopy_eq (h : Tidy fdp) (counts : File → Nat) : ∃ n, Sized n ∧ fdp.lastfile < n ∧
    fdcopy fdp counts =
      (range (fdp.lastfile + 1)).foldlM (fdcopyOne fdp counts) (copyTarget fdp n) := by
  have hmaps : ∀ n, Sized n → ¬ndhislots n > ndhislots ndfile → ndhislots n = 1 := fun n hn hle => by
    have hpos := hn.pos
    rw [show ndhislots ndfile = 1 from rfl] at hle
    rw [ndhislots_eq] at hle ⊢
    omega
  rw [fdcopy]
  by_cases hlast : fdp.lastfile ≥ ndfile
  · obtain ⟨hsized, hlt⟩ := fdcopyNfiles_sized h.sized (lastfile_lt h)
    refine ⟨fdcopyNfiles fdp.lastfile fdp.nfiles, hsized, hlt, ?_⟩
    simp only [if_pos hlast]
    split
    · rfl
    · next hle =>
      have hone := hmaps _ hsized hle
      rw [copyTarget, ndloslots_eq, hone]
      rfl
  · refine ⟨ndfile, .inl rfl, Nat.lt_of_not_le hlast, ?_⟩
    simp only [if_neg hlast]
    rfl

def Covered (fdp : Filedesc) (pending : Finset Nat) (counts : File → Nat) : Prop :=
  ∀ fd ∈ pending, fd < fdp.freefile → ∃ i < fd, Skipped fdp counts i

theorem fdcopy_inv (h : Inv fdp pending) (hcovered : Covered fdp pending counts) :
    ∃ newfdp, fdcopy fdp counts = .ok newfdp ∧ Inv newfdp ∅ := by
  obtain ⟨n, hsized, hlt, heq⟩ := fdcopy_eq h.toTidy counts
  obtain ⟨htidy, hempty⟩ := tidy_empty hsized (fun _ => none) (fun _ => 0) fdp.freefile
  have hzero : Copied fdp counts n 0 (copyTarget fdp n) := by
    refine ⟨htidy, rfl, fun i => ?_, fun i hi => absurd rfl hi, nofun, Nat.le_refl _, nofun⟩
    rw [copyTarget, hempty]
    exact iff_of_false (Finset.notMem_empty i) fun hne => hne rfl
  obtain ⟨newfdp, hrun, hcopied⟩ := fdcopy_loop hzero (succ_le_of_lt hlt)
  refine ⟨newfdp, heq.trans hrun, ⟨hcopied.tidy, fun fd hfd => ?_⟩, fun fd => ?_, nofun⟩
  · have hskip : ∀ i ≤ fd, i < fdp.lastfile + 1 → ¬Skipped fdp counts i := fun i hi hlast hs => by
      have hle := hcopied.skipped i hlast hs
      omega
    have hfree := hcopied.freefile
    have hmem := h.freefile fd (by omega)
    have hlast := le_lastfile h.toTidy hmem
    rcases (h.held fd).mp hmem with hopen | hpending
    · exact (hcopied.used fd).mpr (hcopied.copied fd (by omega) hopen (hskip fd (by omega) (by omega)))
    · obtain ⟨i, hi, hs⟩ := hcovered fd hpending (by omega)
      exact absurd hs (hskip i (by omega) (by omega))
  · rw [hcopied.used fd]
    exact ⟨.inl, fun hor => hor.resolve_right (Finset.notMem_empty fd)⟩

/-! Descriptor tables after any calls in any order. -/

/-- What happens to a table under one hold of its lock.  The counts of files and the limits are
those of the time of the call. -/
inductive Op
  | fdalloc (want lim : Nat) (pledged : Bool)
  | falloc (lim : Nat) (pledged full : Bool)
  | fdexpand
  | fdinsert (fd : Nat) (flags : BitVec 8) (fp : File)
  | fdremove (fd : Nat)
  | fdrelease (fd : Nat)
  | dup (fp : File) (old lim : Nat) (pledged : Bool) (count : Nat)
  | dupfd (fp : File) (fd newmin lim lim' : Nat) (pledged cloexec clofork : Bool) (count : Nat)
  | dup3 (fp : File) (old new lim lim' : Nat) (pledged cloexec clofork : Bool) (count : Nat)
  | fdcopy (counts : File → Nat)

/-- A table, with the descriptors that calls in progress have allocated and not yet given a
file. -/
structure Table where
  fdp : Filedesc
  pending : Finset Nat

namespace Table

variable {s s' : Table} {op : Op} {safe : Table → Op → Prop}

def init : Table := ⟨fdinit, ∅⟩

def step (s : Table) : Op → Except Fault Table
  | .fdalloc want lim pledged =>
    (KernDescrip.fdalloc s.fdp want lim pledged).map fun r => ⟨r.1, after s.pending r.2⟩
  | .falloc lim pledged full =>
    (KernDescrip.falloc s.fdp lim pledged full).map fun r => ⟨r.1, after s.pending r.2⟩
  | .fdexpand => .ok ⟨KernDescrip.fdexpand s.fdp, s.pending⟩
  | .fdinsert fd flags fp =>
    (KernDescrip.fdinsert s.fdp fd flags fp).map fun fdp => ⟨fdp, s.pending.erase fd⟩
  | .fdremove fd => (KernDescrip.fdremove s.fdp fd).map fun fdp => ⟨fdp, s.pending.erase fd⟩
  | .fdrelease fd => (KernDescrip.fdrelease s.fdp fd).map fun r => ⟨r.1, s.pending⟩
  | .dup fp old lim pledged count =>
    (sysDup s.fdp fp old lim pledged count).map fun r => ⟨r.1, s.pending⟩
  | .dupfd fp fd newmin lim lim' pledged cloexec clofork count =>
    (KernDescrip.dupfd s.fdp fp fd newmin lim lim' pledged cloexec clofork count).map
      fun r => ⟨r.1, s.pending⟩
  | .dup3 fp old new lim lim' pledged cloexec clofork count =>
    (dodup3 s.fdp fp old new lim lim' pledged cloexec clofork count).map
      fun r => ⟨r.1, s.pending⟩
  | .fdcopy counts => (KernDescrip.fdcopy s.fdp counts).map fun fdp => ⟨fdp, ∅⟩

/-- A call inserts at a descriptor that it has allocated, and removes one that is in use. -/
def Admits (s : Table) : Op → Prop
  | .fdinsert fd _ _ => fd ∈ s.pending
  | .fdremove fd => fd ∈ s.pending ∨ s.fdp.ofiles fd ≠ none
  | _ => True

/-- No search runs out of a map, no duplicate is refused after its descriptor was allocated, and
a table is not copied while a descriptor below `fd_freefile` has no file, unless a lower one is
left out. -/
def Safe (s : Table) : Op → Prop
  | .fdalloc want lim _ => ¬RunsOut s.fdp (start s.fdp want) lim
  | .falloc lim _ _ => ¬RunsOut s.fdp (start s.fdp 0) lim
  | .dup _ _ lim _ count =>
    ¬RunsOut s.fdp (start s.fdp 0) lim ∧ ¬Refused s.fdp 0 lim count
  | .dupfd _ _ newmin lim lim' _ _ _ count =>
    newmin < lim → ¬RunsOut s.fdp (start s.fdp newmin) lim' ∧ ¬Refused s.fdp newmin lim' count
  | .dup3 _ old new lim lim' _ _ _ _ =>
    old ≠ new → new < lim → new ≥ s.fdp.nfiles → ¬RunsOut s.fdp (start s.fdp new) lim'
  | .fdcopy counts => Covered s.fdp s.pending counts
  | _ => True

inductive Reachable (safe : Table → Op → Prop) : Table → Prop
  | init : Reachable safe init
  | step {s s' : Table} (h : Reachable safe s) (op : Op) (hadmits : s.Admits op)
      (hsafe : safe s op) (hstep : s.step op = .ok s') : Reachable safe s'

theorem init_inv : Inv init.fdp init.pending := by
  obtain ⟨htidy, hempty⟩ := tidy_empty (n := ndfile) (.inl rfl) (fun _ => none) (fun _ => 0) 0
  have hused : used init.fdp = ∅ := hempty
  refine ⟨⟨htidy, nofun⟩, fun fd => ?_, nofun⟩
  rw [hused]
  exact iff_of_false (Finset.notMem_empty fd) fun hor =>
    hor.elim (fun hne => hne rfl) (Finset.notMem_empty fd)

theorem step_inv (h : Inv s.fdp s.pending) (hadmits : s.Admits op) (hsafe : s.Safe op) :
    ∃ s', s.step op = .ok s' ∧ Inv s'.fdp s'.pending := by
  cases op with
  | fdalloc want lim pledged =>
    obtain ⟨r, hrun, hinv⟩ := fdalloc_inv h hsafe pledged
    exact ⟨_, by rw [step, hrun]; rfl, hinv⟩
  | falloc lim pledged full =>
    obtain ⟨r, hrun, hinv⟩ := falloc_inv h hsafe pledged full
    exact ⟨_, by rw [step, hrun]; rfl, hinv⟩
  | fdexpand => exact ⟨_, rfl, h.expand⟩
  | fdinsert fd flags fp =>
    obtain ⟨fdp, hrun, hinv⟩ := fdinsert_inv h hadmits flags fp
    exact ⟨_, by rw [step, hrun]; rfl, hinv⟩
  | fdremove fd =>
    obtain ⟨fdp, hrun, hinv⟩ := fdremove_inv h ((h.held fd).mpr hadmits.symm)
    exact ⟨_, by rw [step, hrun]; rfl, hinv⟩
  | fdrelease fd =>
    obtain ⟨r, hrun, hinv⟩ := fdrelease_inv h fd
    exact ⟨_, by rw [step, hrun]; rfl, hinv⟩
  | dup fp old lim pledged count =>
    obtain ⟨r, hrun, hinv⟩ := dupAlloc_inv fp old pledged false false h hsafe.1 hsafe.2
    exact ⟨_, by rw [step, sysDup, hrun]; rfl, hinv⟩
  | dupfd fp fd newmin lim lim' pledged cloexec clofork count =>
    by_cases hlim : newmin ≥ lim
    · exact ⟨_, by rw [step, KernDescrip.dupfd, if_pos hlim]; rfl, h⟩
    · obtain ⟨hin, hcount⟩ := hsafe (Nat.lt_of_not_le hlim)
      obtain ⟨r, hrun, hinv⟩ := dupAlloc_inv fp fd pledged cloexec clofork h hin
        hcount
      exact ⟨_, by rw [step, KernDescrip.dupfd, if_neg hlim, hrun]; rfl, hinv⟩
  | dup3 fp old new lim lim' pledged cloexec clofork count =>
    obtain ⟨r, hrun, hinv⟩ := dodup3_inv fp count pledged cloexec clofork h hsafe
    exact ⟨_, by rw [step, hrun]; rfl, hinv⟩
  | fdcopy counts =>
    obtain ⟨fdp, hrun, hinv⟩ := fdcopy_inv h hsafe
    exact ⟨_, by rw [step, hrun]; rfl, hinv⟩

theorem Reachable.inv (h : Reachable Safe s) : Inv s.fdp s.pending := by
  induction h with
  | init => exact init_inv
  | step _ _ hadmits hsafe hstep ih =>
    obtain ⟨s', hrun, hinv⟩ := step_inv ih hadmits hsafe
    obtain rfl := Except.ok.inj (hstep.symm.trans hrun)
    exact hinv

/-- The table and its bitmaps agree, no call goes wrong, and `fdalloc` returns the least unused
descriptor. -/
theorem fdalloc_lowest (h : Reachable Safe s) :
    (∀ fd, bit s.fdp.lomap fd = true ↔ s.fdp.ofiles fd ≠ none ∨ fd ∈ s.pending) ∧
    (∀ off, bit s.fdp.himap off = true ↔ s.fdp.lomap[off]? = some (BitVec.allOnes 32)) ∧
    (∀ fd, bit s.fdp.lomap fd = true → fd < s.fdp.nfiles) ∧
    s.fdp.openfd = (used s.fdp).card ∧ s.fdp.lastfile = (used s.fdp).sup id ∧
    (∀ fd < s.fdp.freefile, bit s.fdp.lomap fd = true) ∧
    (∀ op, s.Admits op → s.Safe op → ∃ s', s.step op = .ok s') ∧
    ∀ want lim pledged, (RunsOut s.fdp (start s.fdp want) lim ∧
        fdalloc s.fdp want lim pledged = .error .outside) ∨ (¬RunsOut s.fdp (start s.fdp want) lim ∧
        ((∃ fdp fd, fdalloc s.fdp want lim pledged = .ok (fdp, .ok fd) ∧ want ≤ fd ∧
            fd < min s.fdp.nfiles lim ∧ bit s.fdp.lomap fd = false ∧
            (∀ e, want ≤ e → e < fd → bit s.fdp.lomap e = true) ∧
            used fdp = insert fd (used s.fdp)) ∨
          (∃ e, fdalloc s.fdp want lim pledged = .ok (s.fdp, .error e) ∧
            (e = .ENOSPC ∨ e = .EMFILE) ∧
            ∀ fd, want ≤ fd → fd < min s.fdp.nfiles lim → bit s.fdp.lomap fd = true))) := by
  have hinv := h.inv
  refine ⟨fun fd => ?_, hinv.summary, fun fd hbit => hinv.inside fd (mem_used.mpr hbit),
    hinv.openfd, hinv.lastfile, fun fd hfd => mem_used.mp (hinv.freefile fd hfd),
    fun op hadmits hsafe => ?_, fun want lim pledged => ?_⟩
  · rw [← mem_used]
    exact hinv.held fd
  · obtain ⟨s', hrun, -⟩ := step_inv hinv hadmits hsafe
    exact ⟨s', hrun⟩
  · refine (fdalloc_cases hinv.toGood want lim pledged).imp_right fun ⟨hin, hok⟩ => ⟨hin, ?_⟩
    generalize fdalloc s.fdp want lim pledged = o at hok ⊢
    cases hok with
    | found hle hlt hnot hleast _ hused =>
      refine .inl ⟨_, _, rfl, hle, hlt, ?_, fun e hlo hhi => mem_used.mp (hleast e hlo hhi), hused⟩
      exact Bool.eq_false_iff.mpr fun hbit => hnot (mem_used.mpr hbit)
    | full hnone =>
      have hall := fun fd hlo hhi => mem_used.mp (hnone fd hlo hhi)
      right
      split
      · exact ⟨_, rfl, .inr rfl, hall⟩
      · exact ⟨_, rfl, .inl rfl, hall⟩

/-- The first descriptor of a new table is allocated. -/
theorem fdalloc_lowest_init : ∃ s, Reachable Safe s ∧ s.pending = {0} ∧
      (∀ fd, bit s.fdp.lomap fd = true ↔ s.fdp.ofiles fd ≠ none ∨ fd ∈ s.pending) ∧
      s.fdp.openfd = (used s.fdp).card := by
  have hsafe : Safe init (.fdalloc 0 64 false) := fun hout =>
    absurd (hout.2.2.1 0 (Nat.le_refl 0) (by decide)) (by decide)
  have hreach : Reachable Safe _ := Reachable.init.step (.fdalloc 0 64 false) trivial hsafe rfl
  obtain ⟨hheld, -, -, hopenfd, -⟩ := fdalloc_lowest hreach
  exact ⟨_, hreach, rfl, hheld, hopenfd⟩

def grown : Nat → Table
  | 0 => init
  | n + 1 => ⟨KernDescrip.fdexpand (grown n).fdp, (grown n).pending⟩

theorem grown_reachable (hsafe : ∀ s, safe s .fdexpand) : ∀ n, Reachable safe (grown n)
  | 0 => .init
  | n + 1 => (grown_reachable hsafe n).step .fdexpand trivial (hsafe _) rfl

theorem grown_inv (n : Nat) : Inv (grown n).fdp (grown n).pending :=
  Reachable.inv (grown_reachable (fun _ => trivial) n)

theorem grown_runsOut : RunsOut (grown 10).fdp (start (grown 10).fdp 25600) 30000 := by
  have hlo : (grown 10).fdp.lomap.size = 800 := (grown_inv 10).losize
  have hhi : (grown 10).fdp.himap.size = 25 := (grown_inv 10).hisize
  have hstart : start (grown 10).fdp 25600 = 25600 := rfl
  have hbits : hibits (grown 10).fdp 30000 = 800 := rfl
  rw [RunsOut, hstart, hbits, hlo, if_pos (.inr (by decide)), hhi]
  exact ⟨by decide, by decide, fun d hlo hhi => by omega, by decide⟩

/-- A mark stays when a duplicate is refused, `fd_freefile` is too high in a copy, and `F_DUPFD`
reads behind `fd_himap`. -/
theorem fdalloc_lowest_broken :
    (∃ s, Reachable (fun _ _ => True) s ∧ bit s.fdp.lomap 1 = true ∧ s.fdp.ofiles 1 = none ∧
      1 ∉ s.pending) ∧
    (∃ s, Reachable (fun _ _ => True) s ∧ s.fdp.freefile = 1 ∧ bit s.fdp.lomap 0 = false ∧
      ∃ fdp, fdalloc s.fdp 0 64 false = .ok (fdp, .ok 1)) ∧ ∃ s, Reachable (fun _ _ => True) s ∧
      s.step (.dupfd ⟨0, false⟩ 0 25600 30000 30000 false false false 1) = .error .outside := by
  refine ⟨?_, ?_, ?_⟩
  · have hfalloc : Reachable (fun _ _ => True) _ :=
      Reachable.init.step (.falloc 64 false false) trivial trivial rfl
    have hinsert := hfalloc.step (.fdinsert 0 0 ⟨0, false⟩) (Finset.mem_insert_self 0 ∅)
      trivial rfl
    have hdup := hinsert.step (.dup ⟨0, false⟩ 0 64 false 4294966785) trivial trivial rfl
    exact ⟨_, hdup, rfl, rfl, Finset.notMem_empty 1⟩
  · have hfirst : Reachable (fun _ _ => True) _ :=
      Reachable.init.step (.fdalloc 0 64 false) trivial trivial rfl
    have hsecond := hfirst.step (.fdalloc 0 64 false) trivial trivial rfl
    have hcopy := hsecond.step (.fdcopy fun _ => 1) trivial trivial rfl
    exact ⟨_, hcopy, rfl, rfl, _, rfl⟩
  · refine ⟨grown 10, grown_reachable (fun _ => trivial) 10, ?_⟩
    have hout := (fdalloc_cases (grown_inv 10).toGood 25600 30000 false).resolve_right
      fun hin => hin.1 grown_runsOut
    rw [step, KernDescrip.dupfd, if_neg (by decide), dupAlloc, hout.2]
    rfl

end Table

end Mbsd.Kern.KernDescrip
