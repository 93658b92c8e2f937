import Mbsd.Netinet.IpEsp.Replay

/-! Runs of `checkreplaywindow`: what is accepted, what is refused as seen, and where the records
get lost. -/

namespace Mbsd.Netinet.IpEsp

open Lib.RingSweep List

def Tdb.initial (flags : BitVec 32) : Tdb where
  tdbFlags := flags
  tdbRpl := ahHmacInitialRpl.setWidth 64
  tdbSeen := fun _ => 0

def Tdb.reach (tdb : Tdb) (seq : BitVec 32) : Nat :=
  tdb.high + (seq - tdb.tdbRpl.setWidth 32).toNat

def Slides (tdb : Tdb) (n : Nat) : Prop :=
  tdb.esn = true ∧ tdb.high < n ∧ n ≤ tdb.high + 2100 ∧ n < 2 ^ 64

/-- The call loses no record, and no old record gets a new meaning.  The window is not emptied when
only its shrunk size is exceeded, unless nothing is there; and as long as it reaches back over a
multiple of `2 ^ 32`, no word that is overwritten has the record of a number that is still in the
window, and no word that is left has a bit set for a number that is jumped over. -/
structure KeepsRecords (tdb : Tdb) (seq : BitVec 32) : Prop where
  shrunk : tdb.high < 2100 → 2 * tdb.high < tdb.reach seq → tdb.reach seq < tdb.high + 2100 →
    ¬Recorded tdb.tdbSeen tdb.high
  live : Slides tdb (tdb.reach seq) → ∀ m, m ≤ tdb.high → tdb.reach seq < m + 2100 →
    m / 2 ^ 32 < tdb.reach seq / 2 ^ 32 →
    Swept (word tdb.high) (word (tdb.reach seq)) (word m) → ¬Recorded tdb.tdbSeen m
  stale : Slides tdb (tdb.reach seq) →
    tdb.high / 2 ^ 32 < tdb.reach seq / 2 ^ 32 ∨ 2 ^ 32 ≤ tdb.high ∧ tdb.high % 2 ^ 32 < 2112 →
    ∀ m, tdb.high < m → m < tdb.reach seq →
    ¬Swept (word tdb.high) (word (tdb.reach seq)) (word m) → ¬Recorded tdb.tdbSeen m

inductive ReplayRun : List Nat → Tdb → Prop
  | start (flags : BitVec 32) : ReplayRun [] (Tdb.initial flags)
  | accept {A : List Nat} {tdb tdb' : Tdb} {seq seqh seqh' : BitVec 32} :
      ReplayRun A tdb → KeepsRecords tdb seq → tdb.check seq seqh = (0, seqh', tdb') →
      ReplayRun (number seqh' seq :: A) tdb'
  | refuse {A : List Nat} {tdb tdb' : Tdb} {seq seqh seqh' : BitVec 32} {r : Nat} :
      ReplayRun A tdb → tdb.check seq seqh = (r, seqh', tdb') → r ≠ 0 → ReplayRun A tdb'

structure Records (A : List Nat) (tdb : Tdb) : Prop where
  pos : 1 ≤ tdb.high
  top : A = [] ∧ tdb.high = 1 ∨ tdb.high ∈ A
  mem_le : ∀ a ∈ A, a ≤ tdb.high
  iff : ∀ m, InWindow tdb m → (Recorded tdb.tdbSeen m ↔ m ∈ A)
  ahead : ∀ m, tdb.high < m → m < tdb.high + 32 → word m = word tdb.high →
    Recorded tdb.tdbSeen m → 2 ^ 32 ≤ tdb.high ∧ tdb.high % 2 ^ 32 < 2112
  short : tdb.esn = false → tdb.high < 2 ^ 32

variable {A : List Nat} {tdb tdb' : Tdb} {seq seqh : BitVec 32} {n m : Nat}

theorem records_initial (flags : BitVec 32) : Records [] (Tdb.initial flags) where
  pos := le_rfl
  top := .inl ⟨rfl, rfl⟩
  mem_le := nofun
  iff m _ := iff_of_false (not_recorded_zero m) not_mem_nil
  ahead m _ _ _ h := absurd h (not_recorded_zero m)
  short _ := (by decide : 1 < 2 ^ 32)

theorem reach_eq (hlt : tdb.high < n) (hn : n < tdb.high + 2 ^ 32) (hseq : seqOf n = seq) :
    tdb.reach seq = n := by
  have hlow : seq.toNat = n % 2 ^ 32 := by rw [← hseq, seqOf, BitVec.toNat_ofNat]
  rw [Tdb.reach, BitVec.toNat_sub, hlow, (halves tdb).1]
  omega

theorem Records.old (h : Records A tdb) (hn : InWindow tdb n) :
    Records (n :: A) { tdb with tdbSeen := markSeen tdb.tdbSeen (seqOf n) } where
  pos := h.pos
  top := by
    rcases h.top with ⟨-, hone⟩ | htop
    · have hpos := hn.pos
      have hle := hn.le
      have heq : tdb.high = n := by omega
      exact Or.inr (heq ▸ List.mem_cons_self)
    · exact Or.inr (List.mem_cons_of_mem _ htop)
  mem_le a ha := by
    rcases List.mem_cons.mp ha with rfl | ha
    · exact hn.le
    · exact h.mem_le a ha
  iff m hm := by
    obtain ⟨-, hnle, hnlt⟩ := hn
    have hm : InWindow tdb m := ⟨hm.pos, hm.le, hm.lt⟩
    have hmem := h.iff m hm
    obtain ⟨-, hmle, hmlt⟩ := hm
    have hbit : word n = word m ∧ n % 32 = m % 32 ↔ m = n := by
      constructor
      · intro hbit
        by_contra hne
        rcases Nat.lt_or_gt_of_ne hne with hlt | hlt
        · exact bit_ne hlt (by omega) ⟨hbit.1.symm, hbit.2.symm⟩
        · exact bit_ne hlt (by omega) hbit
      · rintro rfl
        exact ⟨rfl, rfl⟩
    rw [recorded_markSeen, hmem, List.mem_cons, hbit, or_comm]
  ahead m hlt hclose hword hrec := by
    change tdb.high < m at hlt
    change m < tdb.high + 32 at hclose
    change word m = word tdb.high at hword
    change 2 ^ 32 ≤ tdb.high ∧ tdb.high % 2 ^ 32 < 2112
    obtain ⟨-, hnle, hnlt⟩ := hn
    rcases recorded_markSeen.mp hrec with hrec | ⟨hnword, hbit⟩
    · exact h.ahead m hlt hclose hword hrec
    · -- only a number from before the last multiple of `2 ^ 32` shares the bit
      rcases word_eq_cases hnword (by omega) (by omega) with hcase | hcase | hcase
      · omega
      · rcases word_eq_cases (hnword.trans hword) hnle (by omega) with hcase' | hcase' | hcase' <;>
          omega
      · rcases word_eq_cases (hnword.trans hword) hnle (by omega) with hcase' | hcase' | hcase' <;>
          omega
  short := h.short

theorem recorded_kept : Recorded (kept tdb n) m ↔
    ¬(tdb.high < 2100 ∧ 2 * tdb.high < n ∨ tdb.high + 2100 < n) ∧
      ¬Swept (word tdb.high) (word n) (word m) ∧ Recorded tdb.tdbSeen m := by
  rw [kept]
  split
  next h => exact iff_of_false (not_recorded_zero m) fun h' => h'.1 h
  next h => rw [recorded_sweep, and_iff_right h]

structure Moves (tdb : Tdb) (n : Nat) : Prop where
  lt : tdb.high < n
  lt_max : n < 2 ^ 64
  space : tdb.esn = false → n / 2 ^ 32 = tdb.high / 2 ^ 32
  reach : tdb.reach (seqOf n) = n
  keeps : KeepsRecords tdb (seqOf n)

theorem Moves.slides (h : Moves tdb n) (hesn : tdb.esn = true) (hle : n ≤ tdb.high + 2100) :
    Slides tdb (tdb.reach (seqOf n)) := by
  rw [h.reach]
  exact ⟨hesn, h.lt, hle, h.lt_max⟩

section

variable (h : Records A tdb) (hmove : Moves tdb n)

include h hmove

theorem Records.kept (hm : InWindow tdb m)
    (hclose : n < m + 2100) (hmem : m ∈ A) : Recorded (kept tdb n) m := by
  have hlt := hmove.lt
  have hle := hm.le
  have hrec := (h.iff m hm).mpr hmem
  rw [recorded_kept]
  refine ⟨?_, fun hswept => ?_, hrec⟩
  · rintro (⟨hsmall, hjump⟩ | hjump)
    · have htop : tdb.high ∈ A := by
        rcases h.top with ⟨rfl, -⟩ | htop
        · exact absurd hmem not_mem_nil
        · exact htop
      have hin : InWindow tdb tdb.high := ⟨h.pos, le_rfl, by omega⟩
      refine hmove.keeps.shrunk hsmall ?_ ?_ ((h.iff _ hin).mpr htop)
      · rw [hmove.reach]
        exact hjump
      · rw [hmove.reach]
        omega
    · omega
  · by_cases hspace : m / 2 ^ 32 = n / 2 ^ 32
    · exact not_swept_of_le hle hlt hclose hspace hswept
    · have hesn : tdb.esn = true := by
        by_contra hno
        have hshort := h.short (Bool.eq_false_iff.mpr hno)
        have hsame := hmove.space (Bool.eq_false_iff.mpr hno)
        omega
      have hlive := hmove.keeps.live (hmove.slides hesn (by omega)) m hle
      rw [hmove.reach] at hlive
      exact hlive hclose (by omega) hswept hrec

theorem Records.skipped (hlt : tdb.high < m) (hmn : m < n) : ¬Recorded (IpEsp.kept tdb n) m := by
  rw [recorded_kept]
  rintro ⟨hempty, hswept, hrec⟩
  have hle : n ≤ tdb.high + 2100 := by omega
  have hstale : ∀ hesn : tdb.esn = true, _ := fun hesn =>
    hmove.keeps.stale (hmove.slides hesn hle)
  rw [hmove.reach] at hstale
  by_cases hspace : tdb.high / 2 ^ 32 = n / 2 ^ 32
  · obtain ⟨hword, hclose⟩ := word_eq_of_not_swept hlt hmn hle hspace hswept
    have hnear := h.ahead m hlt hclose hword hrec
    have hesn : tdb.esn = true := by
      by_contra hno
      have hshort := h.short (Bool.eq_false_iff.mpr hno)
      omega
    exact hstale hesn (.inr hnear) m hlt hmn hswept hrec
  · have hesn : tdb.esn = true := by
      by_contra hno
      exact hspace (hmove.space (Bool.eq_false_iff.mpr hno)).symm
    exact hstale hesn (.inl (by omega)) m hlt hmn hswept hrec

theorem Records.rest (hlt : n < m) (hclose : m < n + 32)
    (hword : word m = word n) (hrec : Recorded (IpEsp.kept tdb n) m) :
    2 ^ 32 ≤ n ∧ n % 2 ^ 32 < 2112 := by
  obtain ⟨hempty, hswept, hrec⟩ := recorded_kept.mp hrec
  have hnlt := hmove.lt
  by_cases hspace : n / 2 ^ 32 = tdb.high / 2 ^ 32
  · have hsame : word tdb.high = word n := by
      by_contra hne
      rw [hword] at hswept
      exact hswept (swept_last hne)
    have hnear : n < tdb.high + 32 := by
      rcases word_eq_cases hsame hnlt.le (by omega) with hcase | hcase | hcase <;> omega
    have hmnear : m < tdb.high + 32 := by
      have hmword : word tdb.high = word m := hsame.trans hword.symm
      rcases word_eq_cases hmword (by omega) (by omega) with hcase | hcase | hcase <;> omega
    have := h.ahead m (by omega) hmnear (hword.trans hsame.symm) hrec
    rw [word_eq_iff] at hsame
    omega
  · omega

theorem Records.new (hhigh : tdb'.high = n) (hflags : tdb'.tdbFlags = tdb.tdbFlags)
    (hseen : tdb'.tdbSeen = markSeen (IpEsp.kept tdb n) (seqOf n)) : Records (n :: A) tdb' where
  pos := by
    have := hmove.lt
    omega
  top := Or.inr (hhigh ▸ List.mem_cons_self)
  mem_le a ha := by
    have hlt := hmove.lt
    rcases List.mem_cons.mp ha with rfl | ha
    · exact hhigh.ge
    · have := h.mem_le a ha
      omega
  iff m hm := by
    obtain ⟨hpos, hmle, hmlt⟩ := hm
    have hlt := hmove.lt
    rw [hhigh] at hmle hmlt
    rw [hseen, recorded_markSeen, List.mem_cons]
    rcases Nat.lt_or_eq_of_le hmle with hmn | rfl
    · have hbit : ¬(word n = word m ∧ n % 32 = m % 32) := fun hbit =>
        bit_ne hmn (by omega) ⟨hbit.1.symm, hbit.2.symm⟩
      have hne : m ≠ n := by omega
      simp only [hbit, or_false, hne, false_or]
      by_cases hmhigh : m ≤ tdb.high
      · have hin : InWindow tdb m := ⟨hpos, hmhigh, by omega⟩
        constructor
        · intro hrec
          exact (h.iff m hin).mp (recorded_kept.mp hrec).2.2
        · exact h.kept hmove hin hmlt
      · refine iff_of_false (h.skipped hmove (by omega) hmn) fun hmem => ?_
        have := h.mem_le m hmem
        omega
    · exact iff_of_true (Or.inr ⟨rfl, rfl⟩) (Or.inl rfl)
  ahead m hlt hclose hword hrec := by
    rw [hhigh] at hlt hclose hword ⊢
    rw [hseen, recorded_markSeen] at hrec
    rcases hrec with hrec | hbit
    · exact h.rest hmove hlt hclose hword hrec
    · exact absurd hbit (bit_ne hlt (by omega))
  short hno := by
    have hsame : tdb.esn = false := by rwa [Tdb.esn, hflags] at hno
    have hshort := h.short hsame
    have hspace := hmove.space hsame
    omega

end

theorem Records.accept {seqh' : BitVec 32} (h : Records A tdb) (hkeeps : KeepsRecords tdb seq)
    (hcheck : tdb.check seq seqh = (0, seqh', tdb')) :
    number seqh' seq ∉ A ∧ Records (number seqh' seq :: A) tdb' := by
  have hverdict := check_verdict h.pos seq seqh
  rw [hcheck] at hverdict
  have hseq := seqOf_number seqh' seq
  cases hverdict with
  | refused hr => omega
  | old hin hnum hnew =>
    rw [← hnum] at hin hnew
    have hold := h.old hin
    rw [hseq] at hold
    exact ⟨fun hmem => hnew ((h.iff _ hin).mpr hmem), hold⟩
  | new hlt hnear hnum hspace hflags hhigh hseen =>
    rw [← hnum] at hlt hnear hspace hhigh hseen
    rw [← hseq] at hkeeps
    have hmove : Moves tdb (number seqh' seq) := by
      refine ⟨hlt, hhigh ▸ tdb'.tdbRpl.isLt, hspace, ?_, hkeeps⟩
      exact reach_eq hlt hnear rfl
    refine ⟨fun hmem => ?_, h.new hmove hhigh hflags ?_⟩
    · have := h.mem_le _ hmem
      omega
    · rw [hseq]
      exact hseen

theorem ReplayRun.records (h : ReplayRun A tdb) : Records A tdb ∧ A.Nodup := by
  induction h with
  | start flags => exact ⟨records_initial flags, nodup_nil⟩
  | accept _ hkeeps hcheck ih =>
    obtain ⟨hnot, hrecords⟩ := ih.1.accept hkeeps hcheck
    exact ⟨hrecords, nodup_cons.mpr ⟨hnot, ih.2⟩⟩
  | @refuse A tdb tdb' seq seqh seqh' r _ hcheck hr ih =>
    have hverdict := check_verdict ih.1.pos seq seqh
    rw [hcheck] at hverdict
    cases hverdict with
    | refused _ => exact ih
    | seen _ _ _ => exact ih
    | old _ _ _ => exact absurd rfl hr
    | new _ _ _ _ _ _ _ => exact absurd rfl hr

/-- As long as all records are kept, no number is accepted twice, and what is refused as seen has
been accepted. -/
theorem checkreplaywindow_exact (h : ReplayRun A tdb) :
    A.Nodup ∧ (∀ a ∈ A, a ≤ tdb.high) ∧ ∀ seq seqh seqh' tdb',
      (tdb.check seq seqh = (0, seqh', tdb') → number seqh' seq ∉ A) ∧
        (tdb.check seq seqh = (3, seqh', tdb') →
          ∃ n ∈ A, seqOf n = seq ∧ n ≤ tdb.high ∧ tdb.high < n + (tdbReplaymax - tdbReplaywaste)) := by
  obtain ⟨hrecords, hnodup⟩ := h.records
  refine ⟨hnodup, hrecords.mem_le, fun seq seqh seqh' tdb' => ?_⟩
  have hverdict := check_verdict hrecords.pos seq seqh
  refine ⟨fun hcheck => ?_, fun hcheck => ?_⟩
  · rw [hcheck] at hverdict
    cases hverdict with
    | refused hr => omega
    | old hin hnum hnew =>
      rw [← hnum] at hin hnew
      exact fun hmem => hnew ((hrecords.iff _ hin).mpr hmem)
    | new hlt _ hnum _ _ _ _ =>
      intro hmem
      have := hrecords.mem_le _ hmem
      omega
  · rw [hcheck] at hverdict
    cases hverdict with
    | refused hr => omega
    | seen hin hseq hrec => exact ⟨_, (hrecords.iff _ hin).mp hrec, hseq, hin.le, hin.lt⟩

def Tdb.checks (tdb : Tdb) : List (BitVec 32) → List (Nat × Nat)
  | [] => []
  | seq :: l =>
    let (r, seqh, tdb') := tdb.check seq 0
    (r, number seqh seq) :: tdb'.checks l

/-- A packet is accepted again after a jump over the shrunk window, and another one after the
counter has passed `2 ^ 32`. -/
theorem checkreplaywindow_replayed : (Tdb.initial 0).checks [2, 5, 2] = [(0, 2), (0, 5), (0, 2)] ∧
      (Tdb.initial tdbfEsn).checks [4294965199, 4294967295, 0, 4294965199] =
        [(0, 4294965199), (0, 4294967295), (0, 4294967296), (0, 4294965199)] := by
  decide

/-- The third packet is late, and the fourth a copy of it. -/
theorem checkreplaywindow_exact_late :
    ∃ tdb, ReplayRun [3, 4, 2] tdb ∧ [3, 4, 2].Nodup ∧ (tdb.check 3 0).1 = 3 ∧
      ∃ n ∈ [3, 4, 2], seqOf n = 3 := by
  have hcall : ∀ {A tdb} (seq : BitVec 32), ReplayRun A tdb → tdb.esn = false →
      ¬(2 * tdb.high < tdb.reach seq ∧ tdb.reach seq < tdb.high + 2100) →
      (tdb.check seq 0).1 = 0 →
      ReplayRun (number (tdb.check seq 0).2.1 seq :: A) (tdb.check seq 0).2.2 := by
    intro A tdb seq hrun hesn hjump hr
    have hslides : ¬Slides tdb (tdb.reach seq) := fun h => absurd (hesn.symm.trans h.1) nofun
    exact hrun.accept ⟨fun _ h h' => absurd ⟨h, h'⟩ hjump, fun h => absurd h hslides,
      fun h => absurd h hslides⟩ (Prod.ext hr rfl)
  have hrun := ReplayRun.start 0
  have hrun := hcall 2 hrun (by decide) (by decide) (by decide)
  have hrun := hcall 4 hrun (by decide) (by decide) (by decide)
  have hrun := hcall 3 hrun (by decide) (by decide) (by decide)
  obtain ⟨hnodup, -, hnext⟩ := checkreplaywindow_exact hrun
  obtain ⟨n, hmem, hseq, -⟩ := (hnext 3 0 _ _).2 (Prod.ext (by decide) rfl)
  exact ⟨_, hrun, hnodup, by decide, n, hmem, hseq⟩

end Mbsd.Netinet.IpEsp
