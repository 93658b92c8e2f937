import Mbsd.Kern.SysvSem.Undo

/-! The list of `sem_undo`s, and the loop that records a vector in it. -/

namespace Mbsd.Kern.SysvSem

open Mbsd.Sys List Function

variable {u : SemUndo π} {ents : List Undo} {ops : List Sembuf} {n : Int} {i k num : Nat}
  {op : Sembuf}

section Entries

variable {π : Type} [DecidableEq π]

def entriesOf (l : List (SemUndo π)) (p : π) : List Undo :=
  (l.filter (·.unProc = p)).flatMap (·.unEnt)

variable {l l₁ l₂ : List (SemUndo π)} {p q : π} {u : SemUndo π} {ents : List Undo}

theorem entriesOf_append : entriesOf (l₁ ++ l₂) p = entriesOf l₁ p ++ entriesOf l₂ p := by
  simp [entriesOf]

theorem entriesOf_cons :
    entriesOf (u :: l) p = (if u.unProc = p then u.unEnt else []) ++ entriesOf l p := by
  by_cases h : u.unProc = p <;> simp [entriesOf, h]

theorem entriesOf_eq_nil (h : p ∉ l.map (·.unProc)) : entriesOf l p = [] := by
  rw [entriesOf, filter_eq_nil_iff.2 fun u hu e => h (mem_map.2 ⟨u, hu, by simpa using e⟩)]
  rfl

theorem putEnt_append (h : p ∉ l₁.map (·.unProc)) :
    putEnt p ents (l₁ ++ u :: l₂) = l₁ ++ putEnt p ents (u :: l₂) := by
  induction l₁ with
  | nil => rfl
  | cons v l₁ ih =>
    obtain ⟨hv, h⟩ := not_or.1 (mem_cons.not.1 h)
    rw [cons_append, putEnt, if_neg (Ne.symm hv), ih h, cons_append]

theorem putEnt_cons (h : u.unProc = p) :
    putEnt p ents (u :: l) = if ents.isEmpty then l else ⟨p, ents⟩ :: l := by
  subst h
  simp [putEnt]

end Entries

variable {π : Type} {info : Seminfo} {semu semu' : Semu π} {p q : π}

structure SemUndo.Wf (u : SemUndo π) : Prop where
  ent : EntWf u.unEnt
  pos : u.unEnt ≠ []
  le : u.unEnt.length ≤ semume

structure Semu.Wf (info : Seminfo) (semu : Semu π) : Prop where
  procs : (semu.semuList.map (·.unProc)).Nodup
  undo : ∀ u ∈ semu.semuList, u.Wf
  tot : semu.semutot = semu.semuList.length
  tot_le : semu.semutot ≤ info.semmnu

theorem Semu.Wf.nil : Semu.Wf info (⟨[], 0⟩ : Semu π) :=
  ⟨.nil, by simp, rfl, Nat.zero_le _⟩

variable [DecidableEq π]

theorem Semu.find_eq_some {u : SemUndo π} (h : semu.find p = some u) :
    ∃ l₁ l₂, semu.semuList = l₁ ++ u :: l₂ ∧ u.unProc = p ∧ p ∉ l₁.map (·.unProc) := by
  obtain ⟨hu, l₁, l₂, hl, hn⟩ := find?_eq_some_iff_append.1 h
  refine ⟨l₁, l₂, hl, by simpa using hu, fun hm => ?_⟩
  obtain ⟨v, hv, e⟩ := mem_map.1 hm
  simpa [e] using hn v hv

theorem Semu.find_eq_none (h : semu.find p = none) : p ∉ semu.semuList.map (·.unProc) := by
  intro hm
  obtain ⟨v, hv, e⟩ := mem_map.1 hm
  simpa [e] using find?_eq_none.1 h v hv

theorem Semu.Wf.split {u : SemUndo π} (h : semu.Wf info) (hf : semu.find p = some u) :
    ∃ l₁ l₂, semu.semuList = l₁ ++ u :: l₂ ∧ u.unProc = p ∧ p ∉ l₁.map (·.unProc) ∧
      p ∉ l₂.map (·.unProc) := by
  obtain ⟨l₁, l₂, hl, hp, h₁⟩ := Semu.find_eq_some hf
  refine ⟨l₁, l₂, hl, hp, h₁, fun h₂ => ?_⟩
  have := h.procs
  rw [hl, map_append, map_cons, nodup_middle, nodup_cons, hp] at this
  exact this.1 (mem_append_right _ h₂)

theorem Semu.entries_def : semu.entries p = entriesOf semu.semuList p := rfl

theorem Semu.recorded_def (i : Nat) (n : Int) :
    semu.recorded p i n = recordedEnt (semu.entries p) i n := rfl

theorem Semu.Wf.entries_of_find {u : SemUndo π} (h : semu.Wf info) (hf : semu.find p = some u) :
    semu.entries p = u.unEnt := by
  obtain ⟨l₁, l₂, hl, hp, h₁, h₂⟩ := h.split hf
  rw [Semu.entries_def, hl, entriesOf_append, entriesOf_cons, entriesOf_eq_nil h₁,
    entriesOf_eq_nil h₂, if_pos hp]
  simp

theorem Semu.mem_of_find {u : SemUndo π} (hf : semu.find p = some u) : u ∈ semu.semuList :=
  mem_of_find?_eq_some hf

theorem Semu.Wf.entries (h : semu.Wf info) (p : π) :
    EntWf (semu.entries p) ∧ (semu.entries p).length ≤ semume := by
  cases hf : semu.find p with
  | some u =>
    rw [h.entries_of_find hf]
    exact ⟨(h.undo u (Semu.mem_of_find hf)).ent, (h.undo u (Semu.mem_of_find hf)).le⟩
  | none =>
    rw [Semu.entries_def, entriesOf_eq_nil (Semu.find_eq_none hf)]
    exact ⟨.nil, Nat.zero_le _⟩

theorem Semu.Wf.mem_procs (h : semu.Wf info) :
    p ∈ semu.semuList.map (·.unProc) ↔ ∃ i n, semu.recorded p i n ≠ 0#16 := by
  constructor
  · intro hm
    cases hf : semu.find p with
    | none => exact absurd hm (Semu.find_eq_none hf)
    | some u =>
      have hu := h.undo u (Semu.mem_of_find hf)
      obtain ⟨v, hv⟩ := exists_mem_of_ne_nil _ hu.pos
      refine ⟨v.unId, v.unNum.toInt, ?_⟩
      rw [Semu.recorded_def, h.entries_of_find hf, hu.ent.recordedEnt_ne_zero]
      exact ⟨v, hv, Undo.isFor_iff.2 ⟨rfl, rfl⟩⟩
  · rintro ⟨i, n, hr⟩
    by_contra hm
    rw [Semu.recorded_def, Semu.entries_def, entriesOf_eq_nil hm] at hr
    exact hr rfl

/-! ### `semundo_adjust` -/

theorem Semu.Wf.put {u : SemUndo π} {ents : List Undo} (h : semu.Wf info)
    (hf : semu.find p = some u) (he : EntWf ents) (hl : ents.length ≤ semume) :
    (semu.put p ents).Wf info ∧
      ∀ q, (semu.put p ents).entries q = if p = q then ents else semu.entries q := by
  obtain ⟨l₁, l₂, hs, hp, h₁, h₂⟩ := h.split hf
  have hput : (semu.put p ents).semuList =
      l₁ ++ if ents.isEmpty then l₂ else ⟨p, ents⟩ :: l₂ := by
    rw [Semu.put, hs, putEnt_append h₁, putEnt_cons hp]
  have hprocs := h.procs
  have hundo := h.undo
  have htot := h.tot
  rw [hs] at hprocs hundo htot
  by_cases hn : ents = []
  · subst hn
    have hsub : (l₁ ++ l₂).Sublist (l₁ ++ u :: l₂) := (sublist_cons_self u l₂).append_left l₁
    rw [isEmpty_nil, if_pos rfl] at hput
    have ht : (semu.put p []).semutot = (l₁ ++ l₂).length := by
      simp only [Semu.put, htot, isEmpty_nil, if_true, length_append, length_cons]
      omega
    refine ⟨⟨?_, ?_, by rw [ht, hput], ?_⟩, fun q => ?_⟩
    · rw [hput]
      exact (hsub.map _).nodup hprocs
    · rw [hput]
      exact fun v hv => hundo v (hsub.subset hv)
    · rw [ht]
      exact hsub.length_le.trans (htot ▸ h.tot_le)
    · rw [Semu.entries_def, Semu.entries_def, hput, hs, entriesOf_append, entriesOf_append,
        entriesOf_cons, hp]
      by_cases hq : p = q
      · subst hq
        simp [entriesOf_eq_nil h₁, entriesOf_eq_nil h₂]
      · simp [hq]
  · have hne : ents.isEmpty = false := by simpa using hn
    rw [hne, if_neg Bool.false_ne_true] at hput
    refine ⟨⟨?_, ?_, ?_, ?_⟩, fun q => ?_⟩
    · rw [hput]
      simpa [hp] using hprocs
    · rw [hput]
      simp only [forall_mem_append, forall_mem_cons] at hundo ⊢
      exact ⟨hundo.1, ⟨he, hn, hl⟩, hundo.2.2⟩
    · rw [hput]
      simp [Semu.put, hne, htot]
    · simpa [Semu.put, hne] using h.tot_le
    · rw [Semu.entries_def, Semu.entries_def, hput, hs, entriesOf_append, entriesOf_append,
        entriesOf_cons, entriesOf_cons, hp]
      by_cases hq : p = q
      · subst hq
        simp [entriesOf_eq_nil h₁, entriesOf_eq_nil h₂]
      · simp [hq]

theorem Semu.Wf.cons (h : semu.Wf info) (hf : semu.find p = none)
    (he : EntWf ents) (hn : ents ≠ []) (hl : ents.length ≤ semume)
    (ht : semu.semutot ≠ info.semmnu) :
    let semu' : Semu π := ({ semu with semutot := semu.semutot + 1 }.insert p).put p ents
    semu'.Wf info ∧ ∀ q, semu'.entries q = if p = q then ents else semu.entries q := by
  have hm := Semu.find_eq_none hf
  have hne : ents.isEmpty = false := by simpa using hn
  have htl := h.tot_le
  have hput : (({ semu with semutot := semu.semutot + 1 } : Semu π).insert p).put p ents =
      ⟨⟨p, ents⟩ :: semu.semuList, semu.semutot + 1⟩ := by
    simp [Semu.insert, Semu.put, putEnt, hne]
  rw [hput]
  refine ⟨⟨nodup_cons.2 ⟨hm, h.procs⟩, forall_mem_cons.2 ⟨⟨he, hn, hl⟩, h.undo⟩, ?_, ?_⟩,
    fun q => ?_⟩
  · simp [h.tot]
  · change semu.semutot + 1 ≤ _
    omega
  · rw [Semu.entries_def, Semu.entries_def, entriesOf_cons]
    by_cases hq : p = q
    · subst hq
      simp [entriesOf_eq_nil hm]
    · simp [hq]

def bump (f : π → Nat → Int → BitVec 16) (p : π) (semid : Nat) (semnum v : BitVec 16)
    (q : π) (i : Nat) (n : Int) : BitVec 16 :=
  f q i n + if p = q then single semid semnum v i n else 0#16

variable {semid : Nat} {semnum adjval : BitVec 16}

theorem Semu.recorded_eq_bump (hq : ∀ q, semu'.entries q = if p = q then ents else semu.entries q)
    (he : ∀ i n, recordedEnt ents i n =
      recordedEnt (semu.entries p) i n + single semid semnum adjval i n) :
    semu'.recorded = bump semu.recorded p semid semnum adjval := by
  funext q i n
  rw [Semu.recorded_def, hq, bump]
  by_cases h : p = q
  · subst h
    simp [he, Semu.recorded_def]
  · simp [h, Semu.recorded_def]

theorem Semu.Wf.semundoAdjust (h : semu.Wf info) (p : π) (semid : Nat) (ha : adjval ≠ 0#16) (hs : Short semnum) :
    (∃ semu', semundoAdjust info true p semu semid semnum adjval = .done semu' ∧ semu'.Wf info ∧
      semu'.recorded = bump semu.recorded p semid semnum adjval) ∨
    (∃ e, semundoAdjust info true p semu semid semnum adjval = .failed e ∧
      ∀ semu' : Semu π, semu'.Wf info →
        semu'.recorded ≠ bump semu.recorded p semid semnum adjval) := by
  unfold Mbsd.Kern.SysvSem.semundoAdjust
  cases hf : semu.find p with
  | some u =>
    have hu := h.undo u (Semu.mem_of_find hf)
    have hent := h.entries_of_find hf
    cases he : adjustEnt semid semnum adjval u.unEnt with
    | some ents =>
      obtain ⟨hw, hl, hr⟩ := hu.ent.adjustEnt ha hs he
      obtain ⟨hput, hq⟩ := h.put hf hw (hl hu.le)
      exact .inl ⟨_, by simp [he], hput, Semu.recorded_eq_bump hq (hent ▸ hr)⟩
    | none =>
      refine .inr ⟨.EINVAL, by simp [he], fun semu' h' hr => ?_⟩
      obtain ⟨hl, hn⟩ := adjustEnt_eq_none ha he
      have hmore := (hu.ent.concat ha hs hn).length_le (fun i n hi => ?_) (h'.entries p).1
      · rw [length_append, length_singleton] at hmore
        have := (h'.entries p).2
        omega
      · rw [recordedEnt_append, recordedEnt_singleton hs] at hi
        rw [← Semu.recorded_def, hr, bump, if_pos rfl, Semu.recorded_def, hent]
        exact hi
  | none =>
    by_cases ht : semu.semutot = info.semmnu
    · refine .inr ⟨.ENOSPC, by simp [ha, ht], fun semu' h' hr => ?_⟩
      have hm := Semu.find_eq_none hf
      have hsub : p :: semu.semuList.map (·.unProc) ⊆ semu'.semuList.map (·.unProc) := by
        intro q hq
        refine h'.mem_procs.2 ?_
        rw [hr]
        rcases mem_cons.1 hq with rfl | hq
        · refine ⟨semid, semnum.toNat, ?_⟩
          rw [bump, Semu.recorded_def, Semu.entries_def, entriesOf_eq_nil hm]
          simpa [single] using ha
        · obtain ⟨i, n, hi⟩ := h.mem_procs.1 hq
          have hpq : p ≠ q := fun e => hm (e ▸ hq)
          exact ⟨i, n, by simpa [bump, hpq] using hi⟩
      have hlen := ((nodup_cons.2 ⟨hm, h.procs⟩).subperm hsub).length_le
      have htot := h.tot
      have htot' := h'.tot
      have htl' := h'.tot_le
      simp only [length_cons, length_map] at hlen
      omega
    · cases he : adjustEnt semid semnum adjval [] with
      | none => exact absurd (adjustEnt_eq_none ha he).1 (by decide)
      | some ents =>
        obtain ⟨hw, hl, hr⟩ := EntWf.nil.adjustEnt ha hs he
        have hn : ents ≠ [] := by
          rintro rfl
          have := hr semid semnum.toNat
          simp [single] at this
          exact ha this.symm
        obtain ⟨hput, hq⟩ := h.cons hf hw hn (hl (Nat.zero_le _)) ht
        refine .inl ⟨_, by simp [ha, ht, he], hput, Semu.recorded_eq_bump hq ?_⟩
        rw [Semu.entries_def, entriesOf_eq_nil (Semu.find_eq_none hf)]
        exact hr

/-! ### The loop over a vector -/

theorem bump_neg_bump (f : π → Nat → Int → BitVec 16) (v : BitVec 16) :
    bump (bump f p semid semnum (-v)) p semid semnum v = f := by
  funext q i n
  by_cases hq : p = q
  · by_cases hn : semid = i ∧ (semnum.toNat : Int) = n <;> simp [bump, single, hq, hn, add_assoc]
  · simp [bump, hq]

def bumpAll (p : π) (semid : Nat) :
    List Sembuf → (π → Nat → Int → BitVec 16) → π → Nat → Int → BitVec 16
  | [], f => f
  | op :: ops, f =>
    bumpAll p semid ops (if op.records then bump f p semid op.semNum (-op.semOp) else f)

def undoShift (ops : List Sembuf) (n : Int) : BitVec 16 :=
  ((ops.filter fun op => op.undo && (op.semNum.toNat : Int) = n).map (·.semOp)).sum

theorem undoShift_cons : undoShift (op :: ops) n =
    (if op.undo ∧ (op.semNum.toNat : Int) = n then op.semOp else 0#16) + undoShift ops n := by
  by_cases h : op.undo ∧ (op.semNum.toNat : Int) = n <;> simp [undoShift, h]

theorem undoShift_eq_zero
    (h : ∀ op ∈ ops, (op.semNum.toNat : Int) ≠ n) : undoShift ops n = 0#16 := by
  rw [undoShift, filter_eq_nil_iff.2 (by simpa using fun op ho _ => h op ho)]
  rfl

theorem bumpAll_apply {f : π → Nat → Int → BitVec 16} : bumpAll p semid ops f q i n =
      f q i n - if p = q ∧ semid = i then undoShift ops n else 0#16 := by
  induction ops generalizing f with
  | nil => simp [bumpAll, undoShift]
  | cons op ops ih =>
    rw [bumpAll, ih, undoShift_cons]
    by_cases hq : p = q ∧ semid = i
    · by_cases hr : op.records = true
      · have hu : op.undo = true := by
          rw [Sembuf.records, Bool.and_eq_true] at hr
          exact hr.1
        by_cases hn : (op.semNum.toNat : Int) = n
        · simp only [hr, hu, hn, hq, bump, single, if_true, and_self]
          ring
        · simp [hr, hn, hq, bump, single]
      · by_cases hu : op.undo = true ∧ (op.semNum.toNat : Int) = n
        · have hz : op.semOp = 0#16 := by simpa [Sembuf.records, hu] using hr
          simp [hr, hu, hz]
        · rw [if_neg hu]
          simp [hr]
    · by_cases hr : op.records = true
      · rw [if_neg hq, if_neg hq, if_pos hr]
        by_cases hp : p = q
        · have hi : semid ≠ i := fun e => hq ⟨hp, e⟩
          simp [bump, single, hi]
        · simp [bump, hp]
      · simp [hq, hr]

/-- Operations, the last first, that have come from `m` through well-formed lists to where they are. -/
inductive Recorded (info : Seminfo) (p : π) (semid : Nat) (m : π → Nat → Int → BitVec 16) :
    List Sembuf → (π → Nat → Int → BitVec 16) → Prop
  | nil : Recorded info p semid m [] m
  | skip {op : Sembuf} {ops : List Sembuf} {m' : π → Nat → Int → BitVec 16} :
      op.records = false → Recorded info p semid m ops m' → Recorded info p semid m (op :: ops) m'
  | cons {op : Sembuf} {ops : List Sembuf} {semu : Semu π} :
      op.records = true → Short op.semNum → semu.Wf info →
      Recorded info p semid m ops semu.recorded →
      Recorded info p semid m (op :: ops) (bump semu.recorded p semid op.semNum (-op.semOp))

theorem Sembuf.semOp_ne_zero (h : op.records = true) : op.semOp ≠ 0#16 := by
  simp only [Sembuf.records, Bool.and_eq_true, bne_iff_ne] at h
  exact h.2

variable {pool : Bool → Nat → Bool} {m : π → Nat → Int → BitVec 16}

theorem undoBack_spec (error : Errno) (hpool : ∀ b k, pool b k = true) :
    ∀ {semu : Semu π}, semu.Wf info → Recorded info p semid m ops semu.recorded →
      ∃ semu', undoBack info (pool true) p semid error ops semu = .failed error semu' ∧
        semu'.Wf info ∧ semu'.recorded = m := by
  induction ops with
  | nil =>
    intro semu h hr
    generalize hf : semu.recorded = f at hr
    cases hr
    exact ⟨semu, rfl, h, hf⟩
  | cons op ops ih =>
    intro semu h hr
    generalize hf : semu.recorded = f at hr
    cases hr with
    | skip ho hr =>
      obtain ⟨semu', e, h'⟩ := ih h (hf ▸ hr)
      exact ⟨semu', by simpa [undoBack, ho] using e, h'⟩
    | @cons _ _ semu₀ ho hs h₀ hr =>
      have hback : bump semu.recorded p semid op.semNum op.semOp = semu₀.recorded := by
        rw [hf, bump_neg_bump]
      rcases h.semundoAdjust p semid (op.semOp_ne_zero ho) hs with
        ⟨semu₁, e, h₁, hr₁⟩ | ⟨e, -, hno⟩
      · rw [hback] at hr₁
        obtain ⟨semu', e', h'⟩ := ih h₁ (hr₁ ▸ hr)
        exact ⟨semu', by simpa [undoBack, ho, hpool, e] using e', h'⟩
      · exact absurd hback.symm (hno semu₀ h₀)

theorem undoForward_spec (p : π) (semid : Nat) (hpool : ∀ b k, pool b k = true) {todo : List Sembuf}
    (hs : ∀ op ∈ todo, op.records = true → Short op.semNum) :
    ∀ {done : List Sembuf} {semu : Semu π}, semu.Wf info →
      Recorded info p semid m done semu.recorded →
      (∃ semu', undoForward info pool p semid done todo semu = .done semu' ∧ semu'.Wf info ∧
        semu'.recorded = bumpAll p semid todo semu.recorded) ∨
      (∃ e semu', undoForward info pool p semid done todo semu = .failed e semu' ∧
        semu'.Wf info ∧ semu'.recorded = m) := by
  induction todo with
  | nil => exact fun h _ => .inl ⟨_, rfl, h, rfl⟩
  | cons op todo ih =>
    intro done semu h hr
    obtain ⟨hop, hs⟩ := forall_mem_cons.1 hs
    by_cases ho : op.records = true
    · have hne : -op.semOp ≠ 0#16 := by simpa using op.semOp_ne_zero ho
      rcases h.semundoAdjust p semid hne (hop ho) with
        ⟨semu₁, e, h₁, hr₁⟩ | ⟨error, e, -⟩
      · have hr' : Recorded info p semid m (op :: done) semu₁.recorded :=
          hr₁ ▸ .cons ho (hop ho) h hr
        have := ih hs h₁ hr'
        simpa only [undoForward, ho, hpool, e, bumpAll, if_true, hr₁] using this
      · obtain ⟨semu', e', h'⟩ := undoBack_spec error hpool h hr
        exact .inr ⟨error, semu', by simp [undoForward, ho, hpool, e, e'], h'⟩
    · have hr' : Recorded info p semid m (op :: done) semu.recorded :=
        .skip (by simpa using ho) hr
      have := ih hs h hr'
      simpa only [undoForward, ho, bumpAll, if_false, Bool.false_eq_true] using this

/-! ### `semundo_clear` -/

theorem clearLoop_none (seen ents : List Undo) (h : ents.length ≤ k) :
    (clearLoop semid none k seen ents).Perm (seen ++ ents.filter fun u => u.unId ≠ semid) := by
  induction k generalizing seen ents with
  | zero =>
    obtain rfl := length_eq_zero_iff.1 (Nat.le_zero.1 h)
    exact .refl _
  | succ k ih =>
    cases ents with
    | nil => simp [clearLoop]
    | cons u ents =>
      have hl : ents.length ≤ k := by simpa using h
      by_cases hu : u.unId = semid
      · have := ih seen (lastFirst ents) ((lastFirst_perm ents).length_eq ▸ hl)
        simpa [clearLoop, hu] using
          this.trans (((lastFirst_perm ents).filter _).append_left seen)
      · simpa [clearLoop, hu] using ih (seen ++ [u]) ents hl

theorem clearLoop_some (semid num : Nat) (seen ents : List Undo) (h : ents.length ≤ k) :
    (clearLoop semid (some num) k seen ents = seen ++ ents ∧
      ∀ u, ents.find? (fun v => v.unId = semid) = some u → u.isFor semid num = false) ∨
      ∃ l₁ u l₂, ents = l₁ ++ u :: l₂ ∧ u.isFor semid num = true ∧
        clearLoop semid (some num) k seen ents = seen ++ (l₁ ++ lastFirst l₂) := by
  induction k generalizing seen ents with
  | zero =>
    obtain rfl := length_eq_zero_iff.1 (Nat.le_zero.1 h)
    exact .inl ⟨rfl, by simp⟩
  | succ k ih =>
    cases ents with
    | nil => exact .inl ⟨by simp [clearLoop], by simp⟩
    | cons u ents =>
      have hl : ents.length ≤ k := by simpa using h
      by_cases hu : u.unId = semid
      · by_cases hn : u.unNum.toInt = num
        · exact .inr ⟨[], u, ents, rfl, Undo.isFor_iff.2 ⟨hu, hn⟩, by simp [clearLoop, hu, hn]⟩
        · exact .inl ⟨by simp [clearLoop, hu, hn], by simp [hu, Undo.isFor, hn]⟩
      · rcases ih (seen ++ [u]) ents hl with ⟨e, hf⟩ | ⟨l₁, v, l₂, rfl, hv, e⟩
        · exact .inl ⟨by simpa [clearLoop, hu] using e, by simpa [hu] using hf⟩
        · exact .inr ⟨u :: l₁, v, l₂, rfl, hv, by simpa [clearLoop, hu] using e⟩

theorem clearEnt_subperm (semid : Nat) (semnum : Option Nat) (ents : List Undo) :
    (clearEnt semid semnum ents).Subperm ents := by
  cases semnum with
  | none => exact (clearLoop_none _ _ le_rfl).subperm.trans filter_sublist.subperm
  | some num =>
    rcases clearLoop_some semid num [] ents le_rfl with
      ⟨e, -⟩ | ⟨l₁, u, l₂, hl, -, e⟩
    · exact (Perm.of_eq e).subperm
    · rw [clearEnt, e, hl]
      exact ((lastFirst_perm l₂).append_left l₁).subperm.trans
        ((sublist_cons_self u l₂).append_left l₁).subperm

theorem recordedEnt_clear_all : recordedEnt (clearEnt semid none ents) i n =
      if i = semid then 0#16 else recordedEnt ents i n := by
  rw [clearEnt, recordedEnt_perm (clearLoop_none _ _ le_rfl), nil_append]
  by_cases hi : i = semid
  · rw [if_pos hi]
    refine recordedEnt_eq_zero fun u hu => ?_
    simp_all [Undo.isFor]
  · rw [if_neg hi, recordedEnt, recordedEnt, filter_filter]
    congr 2
    refine filter_congr fun u _ => ?_
    by_cases hu : u.unId = i <;> simp [Undo.isFor, hu, hi]

def First (ents : List Undo) (semid : Nat) (num : Nat) : Prop :=
  ∀ u ∈ ents, u.isFor semid num = true → ents.find? (fun v => v.unId = semid) = some u

theorem recordedEnt_clear_of_ne (hn : ¬(i = semid ∧ n = num)) :
    recordedEnt (clearEnt semid (some num) ents) i n = recordedEnt ents i n := by
  rcases clearLoop_some semid num [] ents le_rfl with
    ⟨e, -⟩ | ⟨l₁, u, l₂, hl, hu, e⟩
  · rw [clearEnt, e, nil_append]
  · have hf : u.isFor i n = false := by
      obtain ⟨h₁, h₂⟩ := Undo.isFor_iff.1 hu
      rw [← Bool.not_eq_true, Undo.isFor_iff, h₁, h₂]
      exact fun h => hn ⟨h.1.symm, h.2.symm⟩
    rw [clearEnt, e, nil_append, hl, recordedEnt_append,
      recordedEnt_perm (lastFirst_perm l₂), recordedEnt_append, recordedEnt_cons, hf]
    simp

theorem EntWf.recordedEnt_clear (h : EntWf ents)
    (hf : First ents semid num) : recordedEnt (clearEnt semid (some num) ents) semid num = 0#16 := by
  rcases clearLoop_some semid num [] ents le_rfl with
    ⟨e, hno⟩ | ⟨l₁, u, l₂, hl, hu, e⟩
  · rw [clearEnt, e, nil_append]
    refine recordedEnt_eq_zero fun u hu => ?_
    by_contra hc
    have hc : u.isFor semid num = true := by simpa using hc
    rw [hno u (hf u hu hc)] at hc
    cases hc
  · have hsum := h.recordedEnt_of_mem (u := u) (by simp [hl]) hu
    rw [hl, recordedEnt_append, recordedEnt_cons, if_pos hu] at hsum
    rw [clearEnt, e, nil_append, recordedEnt_append, recordedEnt_perm (lastFirst_perm l₂)]
    change _ = (0 : BitVec 16)
    linear_combination hsum

theorem entriesOf_filter (l : List (SemUndo π)) :
    entriesOf (l.filter fun u => !u.unEnt.isEmpty) p = entriesOf l p := by
  induction l with
  | nil => rfl
  | cons u l ih =>
    by_cases hu : u.unEnt = []
    · simp [hu, entriesOf_cons, ih]
    · simp [hu, entriesOf_cons, ih]

theorem Semu.Wf.clear (h : semu.Wf info) (semid : Nat) (semnum : Option Nat) :
    (semundoClear semu semid semnum).Wf info ∧
      ∀ p, (semundoClear semu semid semnum).entries p = clearEnt semid semnum (semu.entries p) := by
  have hlen := length_filter_le (fun u : SemUndo π => !u.unEnt.isEmpty)
    (semu.semuList.map fun u => { u with unEnt := clearEnt semid semnum u.unEnt })
  have htot := h.tot
  have htl := h.tot_le
  rw [length_map] at hlen
  refine ⟨⟨?_, fun u hu => ?_, ?_, ?_⟩, fun p => ?_⟩
  · refine (filter_sublist.map _).nodup ?_
    simpa [comp_def] using h.procs
  · obtain ⟨hu, hn⟩ := mem_filter.1 hu
    obtain ⟨v, hv, rfl⟩ := mem_map.1 hu
    have hsub := clearEnt_subperm semid semnum v.unEnt
    exact ⟨(h.undo v hv).ent.subperm hsub, by simpa using hn, hsub.length_le.trans (h.undo v hv).le⟩
  · simp only [semundoClear, length_map]
    omega
  · simp only [semundoClear, length_map]
    omega
  · rw [Semu.entries_def, semundoClear, entriesOf_filter]
    cases hf : semu.find p with
    | none =>
      have hm := Semu.find_eq_none hf
      rw [Semu.entries_def, entriesOf_eq_nil hm, entriesOf_eq_nil]
      · rfl
      · simpa [comp_def] using hm
    | some u =>
      obtain ⟨l₁, l₂, hl, hp, h₁, h₂⟩ := h.split hf
      rw [h.entries_of_find hf, hl, map_append, map_cons, entriesOf_append,
        entriesOf_cons, if_pos hp, entriesOf_eq_nil, entriesOf_eq_nil]
      · simp
      · simpa [comp_def] using h₂
      · simpa [comp_def] using h₁

end Mbsd.Kern.SysvSem
