import Mbsd.Kern.SysvSem.Invariant

/-! The undo entries of a process are what its successful operations have added up to. -/

namespace Mbsd.Kern.SysvSem

open SysvSem.Sys List

variable {π : Type} {semu semu' : Semu π} {log : List (Mark π)} {r : Sys π × Outcome π}

section Owed

variable [DecidableEq π]

/-- Minus the sum of the operations of `p` on a semaphore that were successful and have an undo entry,
since the set was created and since the last `SETVAL` or `SETALL`. -/
def owed : List (Mark π) → π → Nat → Nat → Int
  | [], _, _, _ => 0
  | .undo q i op :: log, p, semid, num =>
    owed log p semid num -
      if q = p ∧ i = semid ∧ op.semNum.toNat = num then op.semOp.toInt else 0
  | .setval i n :: log, p, semid, num => if i = semid ∧ n = num then 0 else owed log p semid num
  | .clear i :: log, p, semid, num => if i = semid then 0 else owed log p semid num
  | .exit q :: log, p, semid, num => if q = p then 0 else owed log p semid num

variable {log : List (Mark π)} {p q : π} {i semid num : Nat}

theorem owed_undo (ops : List Sembuf) : owed (ops.map (.undo q i ·) ++ log) p semid num =
    owed log p semid num - if q = p ∧ i = semid then total ops num else 0 := by
  induction ops with
  | nil => simp
  | cons op ops ih =>
    rw [List.map_cons, List.cons_append, owed, ih, total_cons]
    by_cases hq : q = p ∧ i = semid
    · by_cases hn : op.semNum.toNat = num
      · simp only [hq, hn, and_self, if_true]
        omega
      · simp [hq, hn]
    · have hq' : ¬(q = p ∧ i = semid ∧ op.semNum.toNat = num) := fun h => hq ⟨h.1, h.2.1⟩
      simp only [if_neg hq, if_neg hq']
      omega

end Owed

theorem shift_eq_ofInt (ops : List Sembuf) (num : Nat) :
    shift ops num = BitVec.ofInt 16 (total ops num) := by
  induction ops with
  | nil => rfl
  | cons op ops ih =>
    rw [shift_cons, total_cons, BitVec.ofInt_add, ih]
    split <;> simp

theorem undoShift_eq_shift (ops : List Sembuf) (num : Nat) :
    undoShift ops num = shift (ops.filter (·.undo)) num := by
  rw [undoShift, shift, filter_filter]
  simp [Bool.and_comm]

def InShort (v : Int) : Prop := -0x8000 ≤ v ∧ v ≤ 0x7fff

variable [DecidableEq π] {info : Seminfo} {s s' : Sys π} {e : Event π} {c : Call π} {d : SemidDs}
  {k : Nat}

def FitsShort (s : Sys π) (c : Call π) (d : SemidDs) : Prop :=
  (c.walk d).stop = .through → ∀ num,
    InShort (owed s.log c.proc c.semid num - total (c.sops.filter (·.undo)) num)

instance (ents : List Undo) (semid num : Nat) : Decidable (First ents semid num) :=
  inferInstanceAs (Decidable (∀ _ ∈ _, _ → _))

/-- `SETVAL` finds what it clears: with each process the entry is the first one for the set. -/
def FirstOk (info : Seminfo) (s : Sys π) : Event π → Prop
  | .setval id perm semnum val => ∀ d (num : Nat), s.lookup info id = some d → perm = none →
      semnum = num → num < d.semNsems → val ≤ info.semvmx →
      ∀ p, First (s.semu.entries p) (ipcidToIx id) num
  | _ => True

def Exact (semu : Semu π) (log : List (Mark π)) : Prop :=
  ∀ p i (num : Nat), semu.recorded p i num = BitVec.ofInt 16 (owed log p i num) ∧
    InShort (owed log p i num)

theorem Exact.toInt (h : Exact semu log) (p : π) (i num : Nat) :
    (semu.recorded p i num).toInt = owed log p i num := by
  obtain ⟨hr, h₁, h₂⟩ := h p i num
  rw [hr, BitVec.toInt_ofInt]
  exact Int.bmod_eq_of_le (by omega) (by omega)

theorem inShort_zero : InShort 0 := by unfold InShort; omega

theorem Exact.zero {m : Mark π} (h : Exact semu log) {z : π → Nat → Nat → Prop}
    (hr : ∀ p i (num : Nat), (z p i num → semu'.recorded p i num = 0#16) ∧
      (¬z p i num → semu'.recorded p i num = semu.recorded p i num))
    (ho : ∀ p i num, (z p i num → owed (m :: log) p i num = 0) ∧
      (¬z p i num → owed (m :: log) p i num = owed log p i num)) : Exact semu' (m :: log) := by
  intro p i num
  by_cases hz : z p i num
  · rw [(hr p i num).1 hz, (ho p i num).1 hz]
    exact ⟨rfl, inShort_zero⟩
  · rw [(hr p i num).2 hz, (ho p i num).2 hz]
    exact h p i num

theorem Exact.clear (h : Exact semu log) (hw : semu.Wf info)
    (ix : Nat) : Exact (semundoClear semu ix none) (.clear ix :: log) := by
  refine h.zero (z := fun _ i _ => i = ix) (fun p i num => ?_) fun p i num => ?_
  · rw [hw.recorded_clear_all]
    exact ⟨fun hi => if_pos hi, fun hi => if_neg hi⟩
  · exact ⟨fun hi => if_pos hi.symm, fun hi => if_neg fun e => hi e.symm⟩

theorem Exact.setval {ix num : Nat} (h : Exact semu log)
    (hw : semu.Wf info) (hf : ∀ p, First (semu.entries p) ix num) :
    Exact (semundoClear semu ix (some num)) (.setval ix num :: log) := by
  refine h.zero (z := fun _ i n => i = ix ∧ n = num) (fun p i n => ?_) fun p i n => ?_
  · rw [Semu.recorded_def, (hw.clear ix (some num)).2, Semu.recorded_def]
    constructor
    · rintro ⟨rfl, rfl⟩
      exact (hw.entries p).1.recordedEnt_clear (hf p)
    · intro hne
      exact recordedEnt_clear_of_ne fun hz => hne ⟨hz.1, by exact_mod_cast hz.2⟩
  · exact ⟨fun hz => if_pos ⟨hz.1.symm, hz.2.symm⟩, fun hz => if_neg fun e => hz ⟨e.1.symm, e.2.symm⟩⟩

theorem Exact.exit {p : π} (h : Exact semu log)
    (hr : semu'.recorded = fun q i n => if p = q then 0#16 else semu.recorded q i n) :
    Exact semu' (.exit p :: log) := by
  refine h.zero (z := fun q _ _ => p = q) (fun q i num => ?_) fun q i num => ?_
  · rw [hr]
    exact ⟨fun hq => if_pos hq, fun hq => if_neg hq⟩
  · exact ⟨fun hq => if_pos hq, fun hq => if_neg hq⟩

theorem Exact.undo (h : Exact s.semu s.log) (hf : FitsShort s c d) (ht : (c.walk d).stop = .through)
    (hr : semu.recorded = bumpAll c.proc c.semid c.sops s.semu.recorded) :
    Exact semu ((c.sops.filter (·.undo)).map (.undo c.proc c.semid ·) ++ s.log) := by
  intro p i num
  rw [owed_undo, hr, bumpAll_apply, (h p i num).1]
  by_cases hq : c.proc = p ∧ c.semid = i
  · obtain ⟨rfl, rfl⟩ := hq
    refine ⟨?_, by simpa using hf ht num⟩
    simp only [and_self, if_true]
    rw [undoShift_eq_shift, shift_eq_ofInt, Int.sub_eq_add_neg, BitVec.ofInt_add, BitVec.ofInt_neg,
      BitVec.sub_eq_add_neg]
  · rw [if_neg hq, if_neg hq]
    exact ⟨by simp, by simpa using (h p i num).2⟩

theorem Exact.tried (h : Exact s.semu s.log) (hf : FitsShort s c d)
    (ht : Tried info s c d r) : Exact r.1.semu r.1.log := by
  cases ht with
  | slept _ _ => exact h
  | failed error _ hr =>
    intro p i num
    rw [Sys.setSemu_semu, hr]
    exact h p i num
  | efbig _ => exact h
  | done hst _ hr =>
    have h' := h.undo hf hst hr
    unfold carriedOut
    split
    · exact h'
    · exact h'

theorem Exact.conclude {s₀ : Sys π} (h : Exact r.1.semu r.1.log) :
    Exact (s₀.conclude r).semu (s₀.conclude r).log := by
  obtain ⟨s, o⟩ := r
  cases o <;> exact h

theorem Exact.stepped (h : Exact s.semu s.log) (hi : Inv info s) (hfirst : FirstOk info s e)
    (hfit : ∀ c d, Tries s e c d → FitsShort s c d) (hs : Stepped info s e s') :
    Exact s'.semu s'.log := by
  cases hs with
  | same => exact h
  | refused _ _ _ => exact h
  | asked _ _ _ _ _ _ => exact h
  | @moved k c r hc hm =>
    refine Exact.conclude ?_
    cases hm with
    | failed _ _ => exact h
    | left _ _ _ => exact h
    | tried _ _ _ _ htr ht => exact Exact.tried (s := s.drop k) h (hfit _ _ htr) ht
    | retried _ _ _ _ htr ht => exact Exact.tried (s := (s.drop k).setBase ..) h (hfit _ _ htr) ht
  | setval he hl hn hv _ =>
    subst he
    exact h.setval hi.semu (hfirst _ _ hl rfl rfl hn hv)
  | setall _ _ => exact h.clear hi.semu _
  | removed _ => exact h.clear hi.semu _
  | @created ix _ _ _ _ _ hd =>
    refine h.zero (z := fun _ i _ => i = ix) (fun p i num => ⟨?_, fun _ => rfl⟩) fun p i num => ?_
    · rintro rfl
      by_contra hn
      obtain ⟨seq, nsems, hshape, -⟩ := hi.refers p i num hn
      simp [Sys.shape, hd] at hshape
    · exact ⟨fun hi => if_pos hi.symm, fun hi => if_neg fun e => hi e.symm⟩
  | @gone p hf =>
    refine h.exit ?_
    funext q i n
    split
    · rename_i hq
      subst hq
      rw [Sys.mark_semu, Semu.recorded_def, Semu.entries_def, entriesOf_eq_nil (Semu.find_eq_none hf)]
      rfl
    · rfl
  | exited hf hx =>
    rw [Sys.setSemu_semu, Sys.setSemu_log, hx.log]
    exact h.exit (hi.semu.recorded_put_nil hf)

structure ExactUndo (s : Sys π) : Prop where
  adjval : ∀ p i (num : Nat), (s.semu.recorded p i num).toInt = owed s.log p i num
  procs : (s.semu.semuList.map (·.unProc)).Nodup
  keys : ∀ u ∈ s.semu.semuList, (u.unEnt.map fun v => (v.unId, v.unNum)).Nodup
  cnt : ∀ u ∈ s.semu.semuList, 1 ≤ u.unEnt.length ∧ u.unEnt.length ≤ semume
  semutot : s.semu.semutot = s.semu.semuList.length
  refers : ∀ u ∈ s.semu.semuList, ∀ v ∈ u.unEnt,
    ∃ d, s.sema v.unId = some d ∧ 0 ≤ v.unNum.toInt ∧ v.unNum.toInt < d.semNsems
  panicked : s.panicked = false

theorem Inv.exactUndo (h : Inv info s) (he : Exact s.semu s.log) : ExactUndo s where
  adjval := he.toInt
  procs := h.semu.procs
  keys u hu := (h.semu.undo u hu).ent.keys
  cnt u hu := ⟨length_pos_iff.2 (h.semu.undo u hu).pos, (h.semu.undo u hu).le⟩
  semutot := h.semu.tot
  refers u hu v hv := by
    have hmem : v ∈ s.semu.entries u.unProc :=
      mem_flatMap.2 ⟨u, mem_filter.2 ⟨hu, by simp⟩, hv⟩
    obtain ⟨seq, nsems, hshape, h₀, hlt⟩ := h.refers u.unProc v.unId v.unNum.toInt
      ((h.semu.entries _).1.recordedEnt_ne_zero.2 ⟨v, hmem, Undo.isFor_iff.2 ⟨rfl, rfl⟩⟩)
    obtain ⟨d, hd, e⟩ := Option.map_eq_some_iff.1 hshape
    obtain rfl : d.semNsems = nsems := congrArg Prod.snd e
    exact ⟨d, hd, h₀, hlt⟩
  panicked := h.panicked

/-- In every run in which `SETVAL` finds what it clears, and what is owed fits in `un_adjval`. -/
theorem sem_undo_exact (h : Run info (fun s e => Sound s e ∧ FirstOk info s e ∧
      ∀ c d, Tries s e c d → FitsShort s c d) s) : ExactUndo s := by
  obtain ⟨hi, he⟩ := Run.induct (P := fun s => Exact s.semu s.log) (fun _ _ ho => ho.1)
    (fun _ _ _ => ⟨rfl, inShort_zero⟩)
    (fun _ _ _ hi h ho hs => h.stepped hi ho.2.1 ho.2.2 hs) h
  exact hi.exactUndo he

/-- A process counts a semaphore up, and then it is set. -/
theorem sem_undo_exact_up : ∃ s : Sys Unit,
    Run defaults (fun s e => Sound s e ∧ FirstOk defaults s e ∧
      ∀ c d, Tries s e c d → FitsShort s c d) s ∧
      s.log = [.setval 0 0, .undo () 0 ⟨0, 1, true, false⟩, .clear 0] ∧ ExactUndo s := by
  have h₀ : Run defaults (fun s e => Sound s e ∧ FirstOk defaults s e ∧
      ∀ c d, Tries s e c d → FitsShort s c d) (seminit : Sys Unit) := .seminit
  have h₁ := h₀.step rfl rfl (by exact ⟨trivial, trivial, nofun⟩) (.semget 0 1 false false none)
  have h₂ := h₁.step rfl rfl (by exact ⟨trivial, trivial, nofun⟩) (.semop () 0x10000 none 1)
  have h₃ := h₂.step rfl rfl (by
      refine ⟨⟨by simp [Short], fun _ _ => rfl, ?_⟩, trivial, ?_⟩
      · rintro c ⟨⟩
        rfl
      · rintro _ _ ⟨⟨⟩, -, -, ⟨⟩⟩ - num
        change InShort (0 - total _ num)
        rw [filter_cons_of_pos rfl, total_cons]
        split <;> simp [InShort])
    (.copied (k := 0) (.ok [⟨0, 1, true, false⟩]) (fun _ _ => true) rfl rfl (by rintro _ ⟨⟩; rfl))
  have h₄ := h₃.step rfl rfl (by
      refine ⟨trivial, fun d num _ _ hn _ _ p => ?_, nofun⟩
      obtain rfl : 0 = num := by omega
      cases p
      decide)
    (.setval 0x10000 none 0 7)
  exact ⟨_, h₄, rfl, sem_undo_exact h₄⟩

/-- `SETVAL` of a semaphore whose entry is the second of the process for the set. -/
theorem not_sem_undo_exact : ¬∀ s : Sys Unit, Run defaults (fun _ _ => True) s → ExactUndo s := by
  intro h
  have h₀ : Run defaults (fun _ _ => True) (seminit : Sys Unit) := .seminit
  have h₁ := h₀.step rfl rfl trivial (.semget 0 2 false false none)
  have h₂ := h₁.step rfl rfl trivial (.semop () 0x10000 none 2)
  have h₃ := h₂.step rfl rfl trivial
    (.copied (k := 0) (.ok [⟨0, 1, true, false⟩, ⟨1, 1, true, false⟩]) (fun _ _ => true) rfl rfl
      (by rintro _ ⟨⟩; rfl))
  have h₄ := h₃.step rfl rfl trivial (.setval 0x10000 none 1 0)
  exact absurd ((h _ h₄).adjval () 0 1) (by decide)

end Mbsd.Kern.SysvSem
