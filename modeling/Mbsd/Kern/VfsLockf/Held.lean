import Mathlib.Data.List.Basic
import Mathlib.Data.List.Pairwise

/-! Byte ranges held by owners, and what a list of them says about single bytes.  An end of -1
is the end of the file. -/

namespace Mbsd.Kern.VfsLockf

open List Option

inductive LfType | rdlck | unlck | wrlck
  deriving DecidableEq, Repr

structure Held where
  id : Nat
  type : LfType
  start : Int
  stop : Int
  deriving DecidableEq, Repr

namespace Held

def Valid (h : Held) : Prop := 0 ≤ h.start ∧ (h.stop = -1 ∨ h.start ≤ h.stop)

def Covers (h : Held) (b : Int) : Prop := h.start ≤ b ∧ (h.stop = -1 ∨ b ≤ h.stop)

def Overlaps (h l : Held) : Prop :=
  (h.stop = -1 ∨ l.start ≤ h.stop) ∧ (l.stop = -1 ∨ h.start ≤ l.stop)

def Before (h l : Held) : Prop := h.stop ≠ -1 ∧ h.stop < l.start

abbrev EndsBy (h l : Held) : Prop := l.stop = -1 ∨ h.stop ≠ -1 ∧ h.stop ≤ l.stop

def Conflicts (h l : Held) : Prop := h.type = .wrlck ∨ l.type = .wrlck

instance (h : Held) (b : Int) : Decidable (h.Covers b) := by
  unfold Covers
  infer_instance

instance (h l : Held) : Decidable (h.Overlaps l) := by
  unfold Overlaps
  infer_instance

variable {h l k : Held}

theorem Overlaps.symm (hl : h.Overlaps l) : l.Overlaps h := ⟨hl.2, hl.1⟩

theorem overlaps_of_covers {b : Int} (hh : h.Covers b) (hl : l.Covers b) : h.Overlaps l := by
  simp only [Covers, Overlaps] at *
  omega

theorem not_overlaps_iff : ¬ h.Overlaps l ↔ h.Before l ∨ l.Before h := by
  simp only [Overlaps, Before]
  omega

theorem Before.not_overlaps (hb : h.Before l) : ¬ h.Overlaps l := not_overlaps_iff.mpr (.inl hb)

theorem Conflicts.replace (hc : h.Conflicts k) (htype : l.type ≠ .unlck)
    (hnot : ¬ (l.type = .rdlck ∧ h.type = .wrlck)) : l.Conflicts k := by
  refine Or.imp_left (fun hh => ?_) hc
  cases hl : l.type with
  | rdlck => exact absurd ⟨hl, hh⟩ hnot
  | unlck => exact absurd hl htype
  | wrlck => rfl

def cutLeft (l h : Held) : List Held :=
  if h.start < l.start then [{ h with stop := l.start - 1 }] else []

def cutRight (l h : Held) : List Held :=
  if l.stop ≠ -1 ∧ (h.stop = -1 ∨ l.stop < h.stop) then [{ h with start := l.stop + 1 }] else []

def cut (l h : Held) : List Held := l.cutLeft h ++ l.cutRight h

theorem cutLeft_eq (hlt : h.start < l.start) : l.cutLeft h = [{ h with stop := l.start - 1 }] :=
  if_pos hlt

theorem cutLeft_eq_nil (hle : l.start ≤ h.start) : l.cutLeft h = [] :=
  if_neg (Int.not_lt.mpr hle)

theorem cutRight_eq (hfin : l.stop ≠ -1) (hlt : h.stop = -1 ∨ l.stop < h.stop) :
    l.cutRight h = [{ h with start := l.stop + 1 }] := if_pos ⟨hfin, hlt⟩

theorem cutRight_eq_nil (hle : h.EndsBy l) :
    l.cutRight h = [] := if_neg (by omega)

theorem before_of_mem_cutLeft (hh : h.Valid) (hk : k ∈ l.cutLeft h) : k.Before l := by
  rw [cutLeft] at hk
  split at hk
  · rw [mem_singleton.mp hk]
    simp only [Before, Valid] at *
    omega
  · cases hk

theorem before_of_mem_cutRight (hk : k ∈ l.cutRight h) : l.Before k := by
  rw [cutRight] at hk
  split at hk
  next hr =>
    rw [mem_singleton.mp hk]
    exact ⟨hr.1, Int.lt_add_one_iff.mpr (Int.le_refl _)⟩
  · cases hk

end Held

open Held

def typeAt (H : List Held) (id : Nat) (b : Int) : Option LfType :=
  (H.find? fun h => h.id = id ∧ h.Covers b).map Held.type

def Sorted (H : List Held) : Prop := H.Pairwise fun h k => h.id = k.id → h.Before k

def Exclusive (H : List Held) : Prop :=
  ∀ h ∈ H, ∀ k ∈ H, h.id ≠ k.id → h.Overlaps k → ¬ h.Conflicts k

def AllValid (H : List Held) : Prop := ∀ h ∈ H, h.Valid

def clearHeld (l : Held) (H : List Held) : List Held :=
  H.flatMap fun h => if h.id = l.id ∧ h.Overlaps l then l.cut h else [h]

structure PartOf (k h : Held) : Prop where
  id : k.id = h.id
  type : k.type = h.type
  start : h.start ≤ k.start
  stop : h.stop = -1 ∨ k.stop ≠ -1 ∧ k.stop ≤ h.stop

theorem PartOf.refl (h : Held) : PartOf h h := ⟨rfl, rfl, Int.le_refl _, by omega⟩

theorem PartOf.covers {k h : Held} (hk : PartOf k h) {b : Int} (hb : k.Covers b) : h.Covers b := by
  have := hk.start
  have := hk.stop
  simp only [Covers] at *
  omega

theorem PartOf.before {h k h' k' : Held} (hh : PartOf h' h) (hk : PartOf k' k) (hb : h.Before k) :
    h'.Before k' := by
  have := hh.stop
  have := hk.start
  simp only [Before] at *
  omega

theorem PartOf.overlaps {h k h' k' : Held} (hh : PartOf h' h) (hk : PartOf k' k)
    (ho : h'.Overlaps k') : h.Overlaps k := by
  by_contra hno
  rcases not_overlaps_iff.mp hno with hb | hb
  · exact (hh.before hk hb).not_overlaps ho
  · exact (hk.before hh hb).not_overlaps ho.symm

section Cut

variable {l h k : Held} (hl : l.Valid) (hh : h.Valid)

theorem mem_cut : k ∈ l.cut h ↔ (h.start < l.start ∧ k = { h with stop := l.start - 1 }) ∨
    (l.stop ≠ -1 ∧ (h.stop = -1 ∨ l.stop < h.stop)) ∧ k = { h with start := l.stop + 1 } := by
  rw [Held.cut, mem_append]
  refine or_congr ?_ ?_
  · rw [cutLeft]
    split <;> next hlt => simp [hlt]
  · rw [cutRight]
    split
    next hr => rw [mem_singleton, and_iff_right hr]
    next hr => simp only [not_mem_nil, hr, false_and]

include hl hh

theorem part_of_mem_cut (ho : h.Overlaps l) (hk : k ∈ l.cut h) :
    PartOf k h ∧ k.Valid ∧ ¬ k.Overlaps l := by
  simp only [Valid, Overlaps] at hl hh ho
  rcases mem_cut.mp hk with ⟨hlt, rfl⟩ | ⟨hlt, rfl⟩
  · refine ⟨⟨rfl, rfl, Int.le_refl _, ?_⟩, ?_, ?_⟩ <;> simp only [Valid, Overlaps] <;> omega
  · refine ⟨⟨rfl, rfl, ?_, ?_⟩, ?_, ?_⟩ <;> simp only [Valid, Overlaps] <;> omega

omit hl hh in
theorem exists_mem_cut {b : Int} (hb : h.Covers b) (hlb : ¬ l.Covers b) :
    ∃ k ∈ l.cut h, k.Covers b := by
  simp only [Covers] at hb hlb
  by_cases hlt : b < l.start
  · refine ⟨_, mem_cut.mpr (.inl ⟨by omega, rfl⟩), ?_⟩
    simp only [Covers]
    omega
  · refine ⟨_, mem_cut.mpr (.inr ⟨by omega, rfl⟩), ?_⟩
    simp only [Covers]
    omega

theorem cut_pairwise_before : (l.cut h).Pairwise Before := by
  simp only [Valid] at hl hh
  rw [Held.cut, cutLeft, cutRight]
  split <;> split <;> simp [Before]
  omega

end Cut

@[simp] theorem typeAt_nil (id : Nat) (b : Int) : typeAt [] id b = none := rfl

theorem typeAt_cons (h : Held) (H : List Held) (id : Nat) (b : Int) :
    typeAt (h :: H) id b = if h.id = id ∧ h.Covers b then some h.type else typeAt H id b := by
  by_cases hc : h.id = id ∧ h.Covers b
  · simp [typeAt, hc]
  · rw [if_neg hc, typeAt, find?_cons_of_neg (by simpa using hc), typeAt]

theorem typeAt_append (A B : List Held) (id : Nat) (b : Int) :
    typeAt (A ++ B) id b = (typeAt A id b).or (typeAt B id b) := by
  rw [typeAt, find?_append, map_or, typeAt, typeAt]

theorem typeAt_eq_none {H : List Held} {id : Nat} {b : Int} :
    typeAt H id b = none ↔ ∀ h ∈ H, h.id = id → ¬ h.Covers b := by
  simp [typeAt]

theorem typeAt_eq_some_of_mem {H : List Held} {id : Nat} {b : Int} {t : LfType}
    (hall : ∀ h ∈ H, h.type = t) {h : Held} (hh : h ∈ H) (hid : h.id = id) (hb : h.Covers b) :
    typeAt H id b = some t := by
  cases hf : typeAt H id b with
  | none => exact absurd hb (typeAt_eq_none.mp hf h hh hid)
  | some t' =>
    obtain ⟨k, hk, rfl⟩ := map_eq_some_iff.mp hf
    rw [hall k (mem_of_find?_eq_some hk)]

section Clear

variable {l : Held} (hl : l.Valid)

def pieces (l h : Held) : List Held := if h.id = l.id ∧ h.Overlaps l then l.cut h else [h]

theorem clearHeld_eq (H : List Held) : clearHeld l H = H.flatMap (pieces l) := rfl

@[simp] theorem clearHeld_nil : clearHeld l [] = [] := rfl

theorem clearHeld_cons (h : Held) (H : List Held) :
    clearHeld l (h :: H) = pieces l h ++ clearHeld l H := rfl

theorem clearHeld_append (A B : List Held) :
    clearHeld l (A ++ B) = clearHeld l A ++ clearHeld l B := flatMap_append

theorem clearHeld_of_disjoint {H : List Held} (h : ∀ k ∈ H, k.id = l.id → ¬ k.Overlaps l) :
    clearHeld l H = H := by
  induction H with
  | nil => rfl
  | cons k H ih =>
    rw [clearHeld_cons, ih fun k hk => h k (mem_cons_of_mem _ hk), pieces, if_neg]
    · rfl
    · exact fun hk => h k mem_cons_self hk.1 hk.2

theorem clearHeld_append_cons {A B : List Held} {h : Held}
    (hA : ∀ k ∈ A, k.id = l.id → k.Before l) :
    clearHeld l (A ++ h :: B) = A ++ (pieces l h ++ clearHeld l B) := by
  rw [clearHeld_append, clearHeld_cons, clearHeld_of_disjoint fun k hk hid =>
    (hA k hk hid).not_overlaps]

include hl

theorem part_of_mem_pieces {h k : Held} (hh : h.Valid) (hk : k ∈ pieces l h) :
    PartOf k h ∧ k.Valid ∧ (k.id = l.id → ¬ k.Overlaps l) := by
  rw [pieces] at hk
  split at hk
  next ho =>
    obtain ⟨hpart, hvalid, hno⟩ := part_of_mem_cut hl hh ho.2 hk
    exact ⟨hpart, hvalid, fun _ => hno⟩
  next ho =>
    rw [mem_singleton.mp hk]
    exact ⟨PartOf.refl h, hh, fun hid hov => ho ⟨hid, hov⟩⟩

theorem typeAt_pieces {h : Held} (hh : h.Valid) (id : Nat) (b : Int) :
    typeAt (pieces l h) id b = if id = l.id ∧ l.Covers b then none else typeAt [h] id b := by
  split
  next hlb =>
    refine typeAt_eq_none.mpr fun k hk hid hb => ?_
    obtain ⟨-, -, hno⟩ := part_of_mem_pieces hl hh hk
    exact hno (hid.trans hlb.1) (overlaps_of_covers hb hlb.2)
  next hlb =>
    by_cases hb : h.id = id ∧ h.Covers b
    · rw [typeAt_cons, if_pos hb]
      rw [pieces]
      split
      next ho =>
        have hnl : ¬ l.Covers b := fun hc => hlb ⟨hb.1.symm.trans ho.1, hc⟩
        obtain ⟨k, hk, hkb⟩ := exists_mem_cut hb.2 hnl
        refine typeAt_eq_some_of_mem (fun k hk => ?_) hk ?_ hkb
        · exact (part_of_mem_cut hl hh ho.2 hk).1.type
        · exact (part_of_mem_cut hl hh ho.2 hk).1.id.trans hb.1
      · rw [typeAt_cons, if_pos hb]
    · rw [typeAt_cons, if_neg hb, typeAt_nil]
      refine typeAt_eq_none.mpr fun k hk hid hkb => hb ?_
      have hpart := (part_of_mem_pieces hl hh hk).1
      exact ⟨hpart.id.symm.trans hid, hpart.covers hkb⟩

section

variable {H : List Held} (hH : AllValid H)

include hH

theorem typeAt_clearHeld (id : Nat) (b : Int) :
    typeAt (clearHeld l H) id b = if id = l.id ∧ l.Covers b then none else typeAt H id b := by
  induction H with
  | nil => simp
  | cons h H ih =>
    rw [clearHeld_cons, typeAt_append, ih fun k hk => hH k (mem_cons_of_mem _ hk),
      typeAt_pieces hl (hH h mem_cons_self)]
    split
    · rfl
    · rw [← typeAt_append, singleton_append]

theorem exists_part_of_mem_clearHeld {k : Held} (hk : k ∈ clearHeld l H) :
    ∃ h ∈ H, PartOf k h ∧ k.Valid ∧ (k.id = l.id → ¬ k.Overlaps l) := by
  obtain ⟨h, hh, hkh⟩ := mem_flatMap.mp hk
  exact ⟨h, hh, part_of_mem_pieces hl (hH h hh) hkh⟩

theorem allValid_clearHeld : AllValid (clearHeld l H) := by
  intro k hk
  obtain ⟨h, -, -, hvalid, -⟩ := exists_part_of_mem_clearHeld hl hH hk
  exact hvalid

theorem exclusive_clearHeld (hex : Exclusive H) : Exclusive (clearHeld l H) := by
  intro k hk k' hk' hne hov
  obtain ⟨h, hh, hpart, -⟩ := exists_part_of_mem_clearHeld hl hH hk
  obtain ⟨h', hh', hpart', -⟩ := exists_part_of_mem_clearHeld hl hH hk'
  rw [hpart.id, hpart'.id] at hne
  rw [Conflicts, hpart.type, hpart'.type]
  exact hex h hh h' hh' hne (hpart.overlaps hpart' hov)

theorem before_of_mem_clearHeld (hstart : ∀ h ∈ H, h.id = l.id → l.start ≤ h.start) {k : Held}
    (hk : k ∈ clearHeld l H) (hid : k.id = l.id) : l.Before k := by
  obtain ⟨h, hh, hpart, hvalid, hno⟩ := exists_part_of_mem_clearHeld hl hH hk
  have hle := hstart h hh (hpart.id.symm.trans hid)
  have hle' := hpart.start
  rcases not_overlaps_iff.mp (hno hid) with hb | hb
  · simp only [Before, Valid] at *
    omega
  · exact hb

theorem sorted_clearHeld (hs : Sorted H) : Sorted (clearHeld l H) := by
  rw [Sorted, clearHeld_eq, pairwise_flatMap]
  refine ⟨fun h hh => ?_, hs.imp_of_mem fun {h h'} hh hh' hb k hk k' hk' hid => ?_⟩
  · rw [pieces]
    split
    · refine Pairwise.imp ?_ (cut_pairwise_before hl (hH h hh))
      exact fun hb _ => hb
    · exact pairwise_singleton _ _
  · have hpart := (part_of_mem_pieces hl (hH h hh) hk).1
    have hpart' := (part_of_mem_pieces hl (hH h' hh') hk').1
    exact hpart.before hpart' (hb (by rw [← hpart.id, ← hpart'.id, hid]))

end

end Clear

/-- `H'` is `C`, in which the owner of `l` holds no byte of `l`, with `l` put in its place. -/
def Inserted (l : Held) (C H' : List Held) : Prop :=
  ∃ A B, C = A ++ B ∧ H' = A ++ l :: B ∧ (∀ h ∈ A, h.id = l.id → h.Before l) ∧
    ∀ h ∈ B, h.id = l.id → l.Before h

section Insert

variable {l : Held} {C H' : List Held} (h : Inserted l C H')

include h

theorem Inserted.typeAt (id : Nat) (b : Int) :
    typeAt H' id b = if id = l.id ∧ l.Covers b then some l.type else typeAt C id b := by
  obtain ⟨A, B, rfl, rfl, hA, hB⟩ := h
  rw [typeAt_append, typeAt_cons]
  by_cases hlb : id = l.id ∧ l.Covers b
  · have hnone : typeAt A id b = none := typeAt_eq_none.mpr fun k hk hid hkb =>
      (hA k hk (hid.trans hlb.1)).not_overlaps (overlaps_of_covers hkb hlb.2)
    rw [hnone, none_or, if_pos ⟨hlb.1.symm, hlb.2⟩, if_pos hlb]
  · rw [if_neg hlb, if_neg fun hc => hlb ⟨hc.1.symm, hc.2⟩, typeAt_append]

theorem Inserted.mem_iff (k : Held) : k ∈ H' ↔ k = l ∨ k ∈ C := by
  obtain ⟨A, B, rfl, rfl, -, -⟩ := h
  simp only [mem_append, mem_cons]
  exact or_left_comm

theorem Inserted.sorted (hC : Sorted C) : Sorted H' := by
  obtain ⟨A, B, rfl, rfl, hA, hB⟩ := h
  rw [Sorted, pairwise_append] at hC ⊢
  refine ⟨hC.1, pairwise_cons.mpr ⟨fun k hk hid => hB k hk hid.symm, hC.2.1⟩, ?_⟩
  intro k hk k' hk'
  rcases mem_cons.mp hk' with rfl | hk'
  · exact hA k hk
  · exact hC.2.2 k hk k' hk'

theorem Inserted.allValid (hl : l.Valid) (hC : AllValid C) : AllValid H' := by
  intro k hk
  rcases (h.mem_iff k).mp hk with rfl | hk
  · exact hl
  · exact hC k hk

theorem Inserted.exclusive (hC : Exclusive C)
    (hfree : ∀ k ∈ C, k.id ≠ l.id → k.Overlaps l → ¬ k.Conflicts l) : Exclusive H' := by
  intro k hk k' hk' hne hov
  rcases (h.mem_iff k).mp hk with rfl | hk <;> rcases (h.mem_iff k').mp hk' with rfl | hk'
  · exact absurd rfl hne
  · exact fun hc => hfree k' hk' (Ne.symm hne) hov.symm (Or.symm hc)
  · exact hfree k hk hne hov
  · exact hC k hk k' hk' hne hov

end Insert

end Mbsd.Kern.VfsLockf
