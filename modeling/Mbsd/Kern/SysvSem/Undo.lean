import Mathlib.Algebra.BigOperators.Group.List.Basic
import Mathlib.Data.List.TakeWhile
import Mathlib.Tactic.LinearCombination
import Mathlib.Tactic.Ring
import Mbsd.Kern.SysvSem.Model

/-! The undo entries as a function: what a well-formed list of `sem_undo`s records decides what
`semundo_adjust` can do. -/

namespace Mbsd.Kern.SysvSem

open SysvSem.Sys List Option Undo BitVec

/-! ### The entries of a process -/

theorem lastFirst_perm (ents : List Undo) : (lastFirst ents).Perm ents := by
  unfold lastFirst
  cases h : ents.getLast? with
  | none => rw [getLast?_eq_none_iff.1 h]
  | some u =>
    obtain ⟨l, rfl⟩ := getLast?_eq_some_iff.1 h
    simpa using (perm_append_singleton u l).symm

def recordedEnt (ents : List Undo) (semid : Nat) (semnum : Int) : BitVec 16 :=
  ((ents.filter (Undo.isFor semid semnum)).map (·.unAdjval)).sum

variable {ents ents' : List Undo} {semid i : Nat} {semnum adjval : BitVec 16} {n : Int} {u : Undo}

@[simp] theorem recordedEnt_nil : recordedEnt [] i n = 0#16 := rfl

theorem recordedEnt_cons : recordedEnt (u :: ents) i n =
    (if u.isFor i n then u.unAdjval else 0#16) + recordedEnt ents i n := by
  by_cases h : u.isFor i n <;> simp [recordedEnt, h]

theorem recordedEnt_append : recordedEnt (ents ++ ents') i n =
    recordedEnt ents i n + recordedEnt ents' i n := by
  simp [recordedEnt]

theorem recordedEnt_perm (h : ents.Perm ents') : recordedEnt ents i n = recordedEnt ents' i n :=
  ((h.filter _).map _).sum_eq

theorem recordedEnt_eq_zero (h : ∀ u ∈ ents, u.isFor i n = false) : recordedEnt ents i n = 0#16 := by
  rw [recordedEnt, filter_eq_nil_iff.2 (by simpa using h)]
  rfl

def Undo.key (u : Undo) : Nat × BitVec 16 := (u.unId, u.unNum)

theorem Undo.isFor_iff : u.isFor i n = true ↔ u.unId = i ∧ u.unNum.toInt = n := by
  simp [isFor]

theorem Undo.key_eq_of_isFor {v : Undo} (hu : u.isFor i n = true) (hv : v.isFor i n = true) :
    u.key = v.key := by
  obtain ⟨h₁, h₂⟩ := isFor_iff.1 hu
  obtain ⟨h₃, h₄⟩ := isFor_iff.1 hv
  exact Prod.ext (h₁.trans h₃.symm) (eq_of_toInt_eq (h₂.trans h₄.symm))

/-- Each `(un_id, un_num)` occurs once, and what `semundo_adjust` looks for can be found. -/
structure EntWf (ents : List Undo) : Prop where
  keys : (ents.map Undo.key).Nodup
  adjval : ∀ u ∈ ents, u.unAdjval ≠ 0#16
  short : ∀ u ∈ ents, 0 ≤ u.unNum.toInt

theorem EntWf.nil : EntWf [] := ⟨.nil, by simp, by simp⟩

theorem EntWf.subperm (h : EntWf ents) (hs : ents'.Subperm ents) : EntWf ents' where
  keys := by
    obtain ⟨l, hl, hs⟩ := hs
    exact ((hl.map key).nodup_iff).1 ((hs.map key).nodup h.keys)
  adjval u hu := h.adjval u (hs.subset hu)
  short u hu := h.short u (hs.subset hu)

theorem EntWf.recordedEnt_of_mem (h : EntWf ents) (hu : u ∈ ents) (hn : u.isFor i n = true) :
    recordedEnt ents i n = u.unAdjval := by
  obtain ⟨l₁, l₂, rfl⟩ := append_of_mem hu
  have hk := h.keys
  rw [map_append, map_cons, nodup_middle, nodup_cons] at hk
  have hne : ∀ v ∈ l₁ ++ l₂, v.isFor i n = false := by
    intro v hv
    by_contra hc
    rw [key_eq_of_isFor hn (by simpa using hc), ← map_append] at hk
    exact hk.1 (mem_map_of_mem hv)
  rw [recordedEnt_append, recordedEnt_cons, if_pos hn,
    recordedEnt_eq_zero fun v hv => hne v (mem_append_left _ hv),
    recordedEnt_eq_zero fun v hv => hne v (mem_append_right _ hv)]
  simp

theorem EntWf.recordedEnt_ne_zero (h : EntWf ents) :
    recordedEnt ents i n ≠ 0#16 ↔ ∃ u ∈ ents, u.isFor i n = true := by
  constructor
  · intro hr
    by_contra hc
    exact hr (recordedEnt_eq_zero fun u hu => by simpa using fun hn => hc ⟨u, hu, hn⟩)
  · rintro ⟨u, hu, hn⟩
    rw [h.recordedEnt_of_mem hu hn]
    exact h.adjval u hu

theorem EntWf.length_le (h : EntWf ents)
    (hr : ∀ i n, recordedEnt ents i n ≠ 0#16 → recordedEnt ents' i n ≠ 0#16) (h' : EntWf ents') :
    ents.length ≤ ents'.length := by
  have hs : ents.map key ⊆ ents'.map key := by
    intro k hk
    obtain ⟨u, hu, rfl⟩ := mem_map.1 hk
    have hn : u.isFor u.unId u.unNum.toInt = true := isFor_iff.2 ⟨rfl, rfl⟩
    obtain ⟨v, hv, hvn⟩ := h'.recordedEnt_ne_zero.1
      (hr _ _ (h.recordedEnt_ne_zero.2 ⟨u, hu, hn⟩))
    exact mem_map.2 ⟨v, hv, key_eq_of_isFor hvn hn⟩
  simpa using (h.keys.subperm hs).length_le

/-! ### `semundo_adjust` on the entries of a process -/

theorem adjustEnt_cases (ents : List Undo) (semid : Nat) (semnum : BitVec 16) (ha : adjval ≠ 0#16) :
    (∃ l₁ u l₂, ents = l₁ ++ u :: l₂ ∧ u.isFor semid semnum.toNat = true ∧
      u.unAdjval + adjval ≠ 0#16 ∧ adjustEnt semid semnum adjval ents =
        some (l₁ ++ { u with unAdjval := u.unAdjval + adjval } :: l₂)) ∨
    (∃ l₁ u l₂, ents = l₁ ++ u :: l₂ ∧ u.isFor semid semnum.toNat = true ∧
      u.unAdjval + adjval = 0#16 ∧ adjustEnt semid semnum adjval ents = some (l₁ ++ lastFirst l₂)) ∨
    ((∀ u ∈ ents, u.isFor semid semnum.toNat = false) ∧ ents.length ≠ semume ∧
      adjustEnt semid semnum adjval ents = some (ents ++ [⟨adjval, semnum, semid⟩])) ∨
    ((∀ u ∈ ents, u.isFor semid semnum.toNat = false) ∧ ents.length = semume ∧
      adjustEnt semid semnum adjval ents = none) := by
  unfold adjustEnt
  have hsplit := takeWhile_append_dropWhile
    (p := fun u => !isFor semid semnum.toNat u) (l := ents)
  cases hd : ents.dropWhile fun u => !isFor semid semnum.toNat u with
  | cons u rest =>
    have hu : u.isFor semid semnum.toNat = true := by
      have := head_dropWhile_not (fun u => !isFor semid semnum.toNat u)
        (l := ents) (by simp [hd])
      simpa [hd] using this
    rw [hd] at hsplit
    by_cases hz : u.unAdjval + adjval = 0#16
    · exact .inr (.inl ⟨_, u, rest, hsplit.symm, hu, hz, by simp [hd, ha, hz]⟩)
    · exact .inl ⟨_, u, rest, hsplit.symm, hu, hz, by simp [hd, ha, hz]⟩
  | nil =>
    have hnone : ∀ u ∈ ents, u.isFor semid semnum.toNat = false := by
      simpa using dropWhile_eq_nil_iff.1 hd
    by_cases hl : ents.length = semume
    · exact .inr (.inr (.inr ⟨hnone, hl, by simp [hd, ha, hl]⟩))
    · exact .inr (.inr (.inl ⟨hnone, hl, by simp [hd, ha, hl]⟩))

def Short (semnum : BitVec 16) : Prop := semnum.toNat < 0x8000

theorem Short.toInt (h : Short semnum) : semnum.toInt = semnum.toNat :=
  toInt_eq_toNat_of_lt (by unfold Short at h; omega)

theorem EntWf.middle {l₁ l₂ : List Undo} {v : Undo} (h : EntWf (l₁ ++ u :: l₂))
    (hk : v.key = u.key) (hv : v.unAdjval ≠ 0#16) : EntWf (l₁ ++ v :: l₂) where
  keys := by simpa [hk] using h.keys
  adjval := by
    have := h.adjval
    simp only [forall_mem_append, forall_mem_cons] at this ⊢
    exact ⟨this.1, hv, this.2.2⟩
  short := by
    have := h.short
    have hn : v.unNum = u.unNum := congrArg Prod.snd hk
    simpa only [forall_mem_append, forall_mem_cons, hn] using this

theorem EntWf.concat (h : EntWf ents) (ha : adjval ≠ 0#16) (hs : Short semnum)
    (hn : ∀ u ∈ ents, u.isFor semid semnum.toNat = false) :
    EntWf (ents ++ [⟨adjval, semnum, semid⟩]) where
  keys := by
    rw [map_append, nodup_append]
    refine ⟨h.keys, by simp, fun k hk l hl e => ?_⟩
    obtain ⟨u, hu, rfl⟩ := mem_map.1 hk
    obtain rfl := mem_singleton.1 hl
    have hn' : u.unNum = semnum := congrArg Prod.snd e
    have hf : u.isFor semid semnum.toNat = true :=
      isFor_iff.2 ⟨congrArg Prod.fst e, hn' ▸ hs.toInt⟩
    rw [hn u hu] at hf
    cases hf
  adjval := by
    simpa only [forall_mem_append, forall_mem_singleton] using ⟨h.adjval, ha⟩
  short := by
    simpa only [forall_mem_append, forall_mem_singleton, hs.toInt] using
      ⟨h.short, Int.natCast_nonneg _⟩

def single (semid : Nat) (semnum v : BitVec 16) (i : Nat) (n : Int) : BitVec 16 :=
  if semid = i ∧ (semnum.toNat : Int) = n then v else 0#16

theorem recordedEnt_singleton (hs : Short semnum) :
    recordedEnt [⟨adjval, semnum, semid⟩] i n = single semid semnum adjval i n := by
  simp [recordedEnt_cons, isFor_iff, hs.toInt, single]

theorem isFor_single (hu : u.isFor semid semnum.toNat = true) :
    (if u.isFor i n then adjval else 0#16) = single semid semnum adjval i n := by
  obtain ⟨h₁, h₂⟩ := isFor_iff.1 hu
  simp [isFor_iff, h₁, h₂, single]

theorem EntWf.adjustEnt (h : EntWf ents) (ha : adjval ≠ 0#16) (hs : Short semnum)
    (he : adjustEnt semid semnum adjval ents = some ents') :
    EntWf ents' ∧ (ents.length ≤ semume → ents'.length ≤ semume) ∧
      ∀ i n, recordedEnt ents' i n = recordedEnt ents i n + single semid semnum adjval i n := by
  rcases adjustEnt_cases ents semid semnum ha with
    ⟨l₁, u, l₂, rfl, hu, hz, e⟩ | ⟨l₁, u, l₂, rfl, hu, hz, e⟩ | ⟨hn, hl, e⟩ | ⟨-, -, e⟩
  · obtain rfl := some.inj (e.symm.trans he)
    refine ⟨h.middle rfl hz, by simp, fun i n => ?_⟩
    rw [recordedEnt_append, recordedEnt_append, recordedEnt_cons, recordedEnt_cons,
      ← isFor_single hu]
    by_cases hf : u.isFor i n
    · have hf' : isFor i n { u with unAdjval := u.unAdjval + adjval } = true := hf
      simp only [hf, hf', if_true]
      ring
    · have hf' : ¬isFor i n { u with unAdjval := u.unAdjval + adjval } = true := hf
      simp [hf, hf']
  · obtain rfl := some.inj (e.symm.trans he)
    have hp : (l₁ ++ lastFirst l₂).Perm (l₁ ++ l₂) := (lastFirst_perm l₂).append_left l₁
    have hsub : (l₁ ++ lastFirst l₂).Subperm (l₁ ++ u :: l₂) :=
      hp.subperm.trans ((sublist_cons_self u l₂).append_left l₁).subperm
    refine ⟨h.subperm hsub, hsub.length_le.trans, fun i n => ?_⟩
    rw [recordedEnt_perm hp, recordedEnt_append, recordedEnt_append, recordedEnt_cons,
      ← isFor_single hu]
    by_cases hf : u.isFor i n
    · simp only [hf, if_true]
      have hz : u.unAdjval + adjval = 0 := hz
      linear_combination -hz
    · simp [hf]
  · obtain rfl := some.inj (e.symm.trans he)
    refine ⟨h.concat ha hs hn, fun hle => ?_, fun i n => ?_⟩
    · rw [length_append, length_singleton]
      omega
    · rw [recordedEnt_append, recordedEnt_singleton hs]
  · rw [e] at he
    cases he

theorem adjustEnt_eq_none (ha : adjval ≠ 0#16)
    (he : Mbsd.Kern.SysvSem.adjustEnt semid semnum adjval ents = none) :
    ents.length = semume ∧ ∀ u ∈ ents, u.isFor semid semnum.toNat = false := by
  rcases adjustEnt_cases ents semid semnum ha with
    ⟨_, _, _, _, _, _, e⟩ | ⟨_, _, _, _, _, _, e⟩ | ⟨_, _, e⟩ | ⟨hn, hl, -⟩
  all_goals first | exact ⟨hl, hn⟩ | (rw [e] at he; cases he)

end Mbsd.Kern.SysvSem
